/-
  File:      MiningQuery/Proofs/Segment/Places.lean
  Subject:   Where the tokens stand does not bear on what is read.

  Two token lists that differ in the places of their tokens only are read step by step alike, so they
  give the same statement and fail for the same causes. A query knows no places but those in its
  errors, so texts that are cut into the same tokens are the same query.

  * `Parting.placeless` -- tokens count as the same wherever they stand;
  * **`readStatement_alike`** -- such lists are the same statement, and fail for the same causes;
  * `Query.asks`, **`Query.asks_of_visible`** -- texts with the same pieces ask for the same.
-/
import MiningQuery.Proofs.Query.Reduction
import MiningQuery.Proofs.Segment.Rules
import MiningQuery.Proofs.Token.Joining

namespace MiningQuery

open Parse (Alike Ends kindOf)

/-! ## 1. Lists with the same tokens -/

theorem Token.kind_of_lexeme {t t' : Token} (h : t.lexeme = t'.lexeme) : t.kind = t'.kind :=
  congrArg Lexeme.kind h

/-- Tokens count as the same wherever they stand, and the lists go on to their ends. -/
def Parse.Parting.placeless : Parse.Parting where
  same t t' := t.lexeme = t'.lexeme
  left := []
  right := []
  same_kind h := Token.kind_of_lexeme h
  same_text h := Option.some.inj (congrArg Lexeme.text h)
  left_stop := Parse.clauseStop_nil
  right_stop := Parse.clauseStop_nil

section Lists

variable {ts ts' : List Token}

theorem alike_of_lexemes (h : ts.map Token.lexeme = ts'.map Token.lexeme) :
    Alike .placeless ts ts' := by
  induction ts generalizing ts' with
  | nil =>
    obtain rfl := List.map_eq_nil_iff.mp h.symm
    exact .parted
  | cons t ts ih =>
    obtain ⟨t', us', rfl, ht, hus⟩ := List.map_eq_cons_iff.mp h.symm
    exact .cons ht.symm (ih hus.symm)

theorem Clause.endsSegment_of_kind {t t' : Token} (h : t.kind = t'.kind) (allowed : List Clause) :
    endsSegment allowed t = endsSegment allowed t' := by
  simp only [endsSegment, opensOne, h]

theorem Clause.nextSegment_alike (h : Alike .placeless ts ts') (allowed : List Clause) :
    Alike .placeless (nextSegment allowed ts) (nextSegment allowed ts') := by
  induction h with
  | parted => exact .parted
  | @cons t t' us us' ht hus ih =>
    -- the keyword that ends the segment is the same one in both lists
    have hends := endsSegment_of_kind (Token.kind_of_lexeme ht) allowed
    cases he : endsSegment allowed t with
    | true =>
      rw [nextSegment, nextSegment, List.dropWhile_cons_of_neg (by simp [he]),
        List.dropWhile_cons_of_neg (by simp [← hends, he])]
      exact .cons ht hus
    | false =>
      rw [nextSegment, nextSegment, List.dropWhile_cons_of_pos (by simp [he]),
        List.dropWhile_cons_of_pos (by simp [← hends, he])]
      exact ih

/-- Both lists have a token left over, or neither has. -/
theorem Clause.leftover_alike (h : Alike .placeless ts ts') (allowed : List Clause) :
    (leftover allowed ts).map (·.cause) = (leftover allowed ts').map (·.cause) := by
  cases h with
  | parted => rfl
  | @cons t t' us us' ht hus =>
    simp only [leftover, endsSegment_of_kind (Token.kind_of_lexeme ht) allowed]
    split <;> rfl

/-! ## 2. Clauses and statements -/

/-- What a segment gives, and why it fails, wherever that may be. -/
def ClauseReading.placeless (r : ClauseReading) : Option ClauseContent × Option Cause :=
  (r.content, r.failure.map (·.cause))

theorem ClauseReading.ofSegment_alike (limit : Nat) (h : Alike .placeless ts ts')
    (clause : Clause) (later : List Clause) :
    (ofSegment limit clause later ts).placeless = (ofSegment limit clause later ts').placeless := by
  have hends := Clause.content_steady limit clause ts ts' h
  unfold ofSegment
  generalize clause.content limit ts = o at hends ⊢
  generalize clause.content limit ts' = o' at hends ⊢
  cases hends with
  | ok hV _ _ hrest =>
    subst hV
    exact congrArg (Prod.mk _) (Clause.leftover_alike hrest later)
  | error => rfl

/-- **The segments of both lists give the same**, each in its turn. -/
theorem ClauseReading.all_alike (limit : Nat) (h : Alike .placeless ts ts')
    (allowed : List Clause) :
    (all limit allowed ts).map placeless = (all limit allowed ts').map placeless := by
  induction allowed generalizing ts ts' with
  | nil => rfl
  | cons clause later ih =>
    have hkind : kindOf ts = kindOf ts' := by
      cases h with
      | parted => rfl
      | cons ht _ => exact Token.kind_of_lexeme ht
    have htail : Alike .placeless ts.tail ts'.tail := by
      cases h with
      | parted => exact .parted
      | cons _ hus => exact hus
    unfold all
    rw [← hkind]
    split
    · rw [List.map_cons, List.map_cons, ofSegment_alike limit htail clause later,
        ih (Clause.nextSegment_alike htail later)]
    · exact ih h

/-- **Lists that differ in places only are the same statement**, and fail for the same causes. -/
theorem readStatement_alike (limit : Nat) (h : Alike .placeless ts ts') :
    (readStatement limit ts).statement = (readStatement limit ts').statement ∧
      (readStatement limit ts).failures.map (·.cause) =
        (readStatement limit ts').failures.map (·.cause) := by
  have hall := ClauseReading.all_alike limit (Clause.nextSegment_alike h Clause.all) Clause.all
  have hcontents := congrArg (List.filterMap Prod.fst) hall
  have hcauses := congrArg (List.filterMap Prod.snd) hall
  simp only [List.filterMap_map, Function.comp_def, ClauseReading.placeless] at hcontents hcauses
  have hleftover := Clause.leftover_alike h Clause.all
  have hlist : ∀ o : Option Failure, o.toList.map (·.cause) = (o.map (·.cause)).toList := by
    intro o
    cases o <;> rfl
  constructor
  · simp only [readStatement, hcontents]
  · simp only [readStatement, List.map_append, List.map_filterMap, hlist, hleftover, hcauses]

end Lists

/-! ## 3. Queries -/

/-- What a query asks for, without the text that it comes from and the errors of the text. -/
def Query.asks (q : Query) : Query := { q with rawText := [], errors := [] }

/-- **Texts with the same pieces ask for the same**, and have errors both or neither. -/
theorem Query.asks_of_visible (settings : ReadSettings) {s t : Text}
    (h : Piece.visible s = Piece.visible t) :
    ∃ q q', Query.ofText settings s = .ok q ∧ Query.ofText settings t = .ok q' ∧
      q.asks = q'.asks ∧ q.hasErrors = q'.hasErrors := by
  obtain ⟨hstatement, hcauses⟩ := readStatement_alike settings.nestingLimit
    (alike_of_lexemes (lexemes_of_visible h))
  obtain ⟨q, hq, -⟩ := Query.exists_ofText settings s
  have hq' : Query.ofText settings t =
      .ok { q with rawText := t, errors := (Reading.ofText settings t).errors } := by
    have hreduce : (readStatement settings.nestingLimit (lex s).tokens).statement.reduce
        settings.displayType s (Reading.ofText settings s).errors = .ok q := hq
    rw [hstatement] at hreduce
    exact Statement.reduce_carrying hreduce t (Reading.ofText settings t).errors
  refine ⟨q, _, hq, hq', rfl, ?_⟩
  have haccepts : settings.Accepts s ↔ settings.Accepts t := by
    have hlength := congrArg List.length hcauses
    simp only [List.length_map] at hlength
    rw [ReadSettings.Accepts, ReadSettings.Accepts, lex_errors_eq_nil, lex_errors_eq_nil, h,
      ← List.length_eq_zero_iff, hlength, List.length_eq_zero_iff]
  rw [Bool.eq_iff_iff, Query.hasErrors_iff hq, Query.hasErrors_iff hq', haccepts]

end MiningQuery
