/-
  File:      MiningQuery/Storage/Script.lean
  Subject:   An engine that answers from a script.

  The script lists replies, each for one text of SQL and for as many uses as it says. The first
  reply that fits and is not used up is the answer, and a statement without a reply succeeds
  and delivers nothing. The two questions after tables are answered from a list of names. What
  an engine does can so be fixed in advance, failures included.
-/
import MiningQuery.Storage.Catalog

namespace MiningQuery

/-! ## 1. Scripts -/

/-- When a reply fails. -/
inductive FailsAt
  | prepare | step
  deriving DecidableEq, Repr

/-- The reply to a statement. -/
structure Reply where
  sql : Text
  columns : List Text := []
  rows : List (List Cell) := []
  failure : Option (FailsAt × Text) := none
  /-- How often the reply may still be used, if that is limited. -/
  uses : Option Nat := none
  deriving DecidableEq, Repr

namespace Reply

/-- Does the reply answer a statement? -/
def fits (sql : Text) (r : Reply) : Bool := r.sql == sql && r.uses != some 0

/-- The reply after one more use. -/
def used (r : Reply) : Reply := { r with uses := r.uses.map (· - 1) }

/-- The error of the reply, if it fails at a point. -/
def failureAt? (point : FailsAt) (r : Reply) : Option Text :=
  r.failure.bind fun f => if f.1 = point then some f.2 else none

end Reply

/-- A script. -/
structure Script where
  tables : List Text := []
  openError : Option Text := none
  replies : List Reply := []
  deriving DecidableEq, Repr

namespace Script

/-- A script that knows no table and has no reply. -/
def empty : Script := {}

/-- The reply to a statement. -/
def reply? (s : Script) (sql : Text) : Option Reply := s.replies.find? (Reply.fits sql)

/-- Uses the first reply of a list that answers a statement. -/
def useIn (sql : Text) : List Reply → List Reply
  | [] => []
  | r :: rest => if r.fits sql then r.used :: rest else r :: useIn sql rest

/-- Uses the reply to a statement. -/
def use (s : Script) (sql : Text) : Script := { s with replies := useIn sql s.replies }

/-- The placeholders of a statement are its question marks. -/
def placeholders (sql : Text) : Nat := sql.count 63

/-- The columns of a statement without a reply. -/
def catalogColumns (sql : Text) : List Text :=
  if sql = Engine.existsSql ∨ sql = Engine.listSql then [ascii "name"] else []

/-- The tables that a statement without a reply delivers. -/
def catalogTables (s : Script) (sql : Text) (parameters : List (Option Text)) : List Text :=
  if sql = Engine.existsSql then
    match parameters with
    | some name :: _ => if s.tables.contains name then [name] else []
    | _ => []
  else if sql = Engine.listSql then s.tables.mergeSort fun t u => !decide (u < t)
  else []

/-! ## 2. The engine of a script -/

/-- Opens a database. -/
def openDatabase (s : Script) : Except Text Unit :=
  match s.openError with
  | some message => .error message
  | none => .ok ()

/-- Prepares a statement. -/
def prepare (sql : Text) (s : Script) : Except Text (Option Prepared) × Script :=
  if Text.allBlank sql then (.ok none, s)
  else match s.reply? sql with
    | none => (.ok (some ⟨sql, catalogColumns sql, placeholders sql⟩), s)
    | some r =>
      match r.failureAt? .prepare with
      | some message => (.error message, s.use sql)
      | none => (.ok (some ⟨sql, r.columns, placeholders sql⟩), s)

/-- Takes values for placeholders, but no more than there are. -/
def bind (p : Prepared) (values : List Text) : Except Text Unit :=
  if values.length ≤ p.parameters then .ok () else .error (ascii "column index out of range")

/-- Executes a statement. -/
def execute (p : Prepared) (parameters : List (Option Text)) (s : Script) : Execution × Script :=
  match s.reply? p.sql with
  | none => (⟨(s.catalogTables p.sql parameters).map fun t => [⟨.text, t⟩], none⟩, s)
  | some r => (⟨r.rows, r.failureAt? .step⟩, s.use p.sql)

/-- The engine that answers from its script. -/
def engine : Engine Script where
  openDatabase _ s := (openDatabase s, s)
  prepare := prepare
  bind p values s := (bind p values, s)
  execute := execute
  rollback := id

end Script

end MiningQuery
