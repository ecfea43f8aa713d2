/-
  File:      MiningQuery/Proofs/Segment/Contents.lean
  Subject:   A statement says nothing that its tokens do not write.

  * `Statement.Says` -- the statement says what a clause says; a list only if something is in it;
  * `Statement.says_foldl` -- what a statement says comes from one of the clauses put into it;
  * **`readStatement_says`** -- whatever the tokens are, what the statement says is written by tokens
    that are exactly one clause behind its keyword. So a clause that cannot be read to its end leaves
    nothing behind.
-/
import MiningQuery.Proofs.Segment.Frame

namespace MiningQuery

/-! ## 1. What a statement says -/

/-- The statement says what the clause says. A clause that is a list says nothing if the list is
    empty, which is how the statement marks the clause as absent. -/
def Statement.Says (s : Statement) : ClauseContent → Prop
  | .database n => s.database = some n
  | .relevance as => s.relevance = some as
  | .tables ts => s.tables = ts ∧ ts ≠ []
  | .condition p => s.condition = some p
  | .grouping as => s.grouping = as ∧ as ≠ []
  | .ordering os => s.ordering = os ∧ os ≠ []
  | .mining d => s.mining = some d
  | .measures ms => s.measures = ms ∧ ms ≠ []
  | .display n => s.display = some n

section Says

variable {s : Statement} {x c : ClauseContent}

theorem Statement.not_says_empty : ¬ Statement.empty.Says c := by
  intro h
  cases c with
  | database | relevance | condition | mining | display => cases h
  | tables | grouping | ordering | measures => exact h.2 h.1.symm

/-- A clause that is put into a statement is said, and beside it only what was said before. -/
theorem Statement.says_set (h : (s.set x).Says c) : c = x ∨ s.Says c := by
  -- another field is as it was; the field of the clause holds what the clause says
  cases x <;> cases c <;> first
    | exact .inr h
    | exact .inl (congrArg _ (Option.some.inj h).symm)
    | exact .inl (congrArg _ h.1.symm)

/-- What a statement says comes from one of the clauses put into it. -/
theorem Statement.says_foldl {contents : List ClauseContent}
    (h : (contents.foldl Statement.set s).Says c) : c ∈ contents ∨ s.Says c := by
  induction contents generalizing s with
  | nil => exact .inr h
  | cons x contents ih =>
    rcases ih h with hmem | hset
    · exact .inl (List.mem_cons_of_mem x hmem)
    · rcases Statement.says_set hset with rfl | hs
      · exact .inl List.mem_cons_self
      · exact .inr hs

end Says

/-! ## 2. What a statement says is written -/

/-- **What a statement says is written by the tokens of its clause**, whatever else the tokens are. -/
theorem readStatement_says {limit : Nat} {ts : List Token} (hts : Shaped ts) {c : ClauseContent}
    (h : (readStatement limit ts).statement.Says c) :
    ∃ body, Shaped body ∧ c.clause.Written limit c body := by
  rcases Statement.says_foldl h with hmem | hempty
  · obtain ⟨clause, body, rest, hbody, hread⟩ := exists_read_of_mem hts hmem
    obtain ⟨read, rfl, hwritten⟩ := (clause.content_reads limit).sound hbody hread
    rw [Clause.clause_of_content hread]
    exact ⟨read, fun t ht => hbody t (List.mem_append_left rest ht), hwritten⟩
  · exact absurd hempty Statement.not_says_empty

end MiningQuery
