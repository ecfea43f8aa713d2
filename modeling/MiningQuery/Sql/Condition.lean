/-
  File:      MiningQuery/Sql/Condition.lean
  Subject:   Conditions as SQL.

  Every connective and every negation brings its own parentheses, so the text groups as the tree
  does. Text in quotes is not escaped: a value with a quote in it gives SQL that says something
  else.
-/
import MiningQuery.Query.Condition

namespace MiningQuery.Condition

/-- The condition in SQL. -/
def sql : Condition → Text
  | compare l op r => l ++ ascii " " ++ op.spelling ++ ascii " " ++ r.sql
  | logical op l r =>
    ascii "(" ++ l.sql ++ ascii " " ++ op.spelling ++ ascii " " ++ r.sql ++ ascii ")"
  | not c => ascii "NOT (" ++ c.sql ++ ascii ")"
  | between n x low high =>
    x ++ notMark n ++ ascii " BETWEEN " ++ low.sql ++ ascii " AND " ++ high.sql
  | like n x pattern => x ++ notMark n ++ ascii " LIKE " ++ Text.quoted pattern
  | isNull n x => x ++ ascii " IS" ++ notMark n ++ ascii " NULL"
  | inList n x values =>
    x ++ notMark n ++ ascii " IN (" ++ Text.join (ascii ", ") (values.map Value.sql) ++ ascii ")"

end MiningQuery.Condition
