import MiningQuery.Main
import MiningQuery.Proofs.Grammar.Expr
import MiningQuery.Proofs.Grammar.Simple
import MiningQuery.Proofs.Grammar.Clause
import MiningQuery.Proofs.Grammar.Statement
import MiningQuery.Proofs.Grammar.Acceptance
import MiningQuery.Proofs.Token.Printing
import MiningQuery.Proofs.Tree.Printing
import MiningQuery.Proofs.Grammar.WellFormed
import MiningQuery.Proofs.Tree.Nesting
import MiningQuery.Proofs.Number.Integer
import MiningQuery.Proofs.Sql.Value
import MiningQuery.Proofs.Sql.Condition
import MiningQuery.Proofs.Sql.Select
import MiningQuery.Proofs.Sql.ReadBack
import MiningQuery.Proofs.Scan.Basic
import MiningQuery.Proofs.Scan.Rules
import MiningQuery.Proofs.Scan.Runs
import MiningQuery.Proofs.Scan.Expr
import MiningQuery.Proofs.Scan.Condition
import MiningQuery.Proofs.Scan.Clause
import MiningQuery.Proofs.Scan.Statement
import MiningQuery.Proofs.Sql.Totality
import MiningQuery.Proofs.Segment.Parting
import MiningQuery.Proofs.Segment.Rules
import MiningQuery.Proofs.Segment.Split
import MiningQuery.Proofs.Segment.Failures
import MiningQuery.Proofs.Segment.Frame
import MiningQuery.Proofs.Runner.Exchange
import MiningQuery.Proofs.Runner.Protocol
import MiningQuery.Proofs.Segment.Places
import MiningQuery.Proofs.Client.Assembly
import MiningQuery.Proofs.Runner.Outcome
import MiningQuery.Proofs.Token.Cover
import MiningQuery.Proofs.Token.LetterCase
import MiningQuery.Proofs.Token.Spacing
import MiningQuery.Proofs.Grammar.Renaming
import MiningQuery.Proofs.Query.Wording
import MiningQuery.Proofs.Tree.Renaming
import MiningQuery.Proofs.Query.WellFormed
import MiningQuery.Proofs.Storage.Columns
import MiningQuery.Proofs.Storage.Listing
import MiningQuery.Proofs.Storage.Keeping
import MiningQuery.Proofs.Storage.Naming
import MiningQuery.Proofs.Storage.Requests
import MiningQuery.Proofs.Storage.Transaction
import MiningQuery.Proofs.Storage.Rows
import MiningQuery.Proofs.Storage.Loading
import MiningQuery.Proofs.Runner.Consistency
import MiningQuery.Proofs.Token.Qualifying
import MiningQuery.Proofs.Number.Printing
import MiningQuery.Proofs.Sql.Qualifiers
import MiningQuery.Proofs.Query.Height
import MiningQuery.Proofs.Offending.Statement
import MiningQuery.Proofs.Grammar.Backtracking
import MiningQuery.Proofs.Token.Longest
import MiningQuery.Proofs.Grammar.Verbatim
import MiningQuery.Proofs.Query.Parentheses
import MiningQuery.Proofs.Limit.Statement
import MiningQuery.Proofs.Client.Jobs
import MiningQuery.Proofs.Result.Materialize
import MiningQuery.Proofs.Sql.Builders
import MiningQuery.Proofs.Number.Range
import MiningQuery.Proofs.Guard.Basic
import MiningQuery.Proofs.Guard.Rules
import MiningQuery.Proofs.Guard.Steps
import MiningQuery.Proofs.Guard.Restoring
import MiningQuery.Proofs.Guard.Reading
