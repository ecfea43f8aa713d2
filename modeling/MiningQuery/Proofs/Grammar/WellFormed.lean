/-
  File:      MiningQuery/Proofs/Grammar/WellFormed.lean
  Subject:   What every statement that is read keeps, also from a text with errors.

  * `ClauseContent.WellFormed`, `Statement.WellFormed` -- names are names, conditions are canonical
    and lexical, a clustering has its number and a measure is one of the five with a number;
  * **`readStatement_wellFormed`** -- whatever the tokens are, the statement is well formed.
-/
import MiningQuery.Proofs.Grammar.Statement

namespace MiningQuery

open Parse

/-! ## 1. Well-formed clauses -/

/-- The directive names an operation, and a clustering has its number of clusters. -/
structure MineDirective.WellFormed (d : MineDirective) : Prop where
  operation : d.operation ∈ Parse.operations
  clusters : d.operation = .keyword .CLUSTER → ∃ text i, d.clusters = some (.int text i)

/-- The measure is one of the five, and what it is given is a number. -/
structure MeasureSetting.WellFormed (s : MeasureSetting) : Prop where
  name : s.name ∈ measureNames
  value : (∃ text i, s.value = .int text i) ∨ ∃ text x, s.value = .float text x

/-- What a clause says is such as its tokens can write. -/
def ClauseContent.WellFormed : ClauseContent → Prop
  | .database n => isName n = true
  | .relevance as => ∀ a ∈ as, a.isLexical = true
  | .tables ts => ∀ t ∈ ts, isName t.name = true
  | .condition p => p.isCanonical = true ∧ p.isLexical = true
  | .grouping as => ∀ a ∈ as, a.isLexical = true
  | .ordering os => ∀ o ∈ os, o.column.isLexical = true
  | .mining d => d.WellFormed
  | .measures ms => ∀ m ∈ ms, m.WellFormed
  | .display _ => True

/-- Every item of a list has tokens of its own. -/
theorem Parse.Listed.forall_mem {α : Type} {W : α → List Token → Prop} {P : α → Prop}
    {xs : List α} {ts : List Token} (h : Listed W xs ts) (hW : ∀ {x us}, W x us → P x) :
    ∀ x ∈ xs, P x := by
  induction h with
  | one hx => exact List.forall_mem_singleton.mpr (hW hx)
  | more hx _ _ ih => exact List.forall_mem_cons.mpr ⟨hW hx, ih⟩

theorem Parse.AttributeWritten.isLexical {a : Attribute} {ts : List Token}
    (h : AttributeWritten a ts) : a.isLexical = true := by
  cases a with
  | all => rfl
  | column c => exact h.1

theorem Parse.OrderWritten.isLexical {o : OrderItem} {ts : List Token} (h : OrderWritten o ts) :
    o.column.isLexical = true := by
  cases h with
  | plain hc | ascending hc | descending hc => exact hc.1

theorem Parse.TableWritten.isName {r : TableRef} {ts : List Token} (h : TableWritten r ts) :
    isName r.name = true := by
  cases h with
  | plain ht | renamed ht | renamedAs ht => exact ht.2

/-- What a number token says is a number of its kind. -/
theorem Parse.numberLiteral_cases {negative : Bool} {t : Token} {l : Literal}
    (h : numberLiteral negative t = .ok l) :
    (t.kind = .int ∧ ∃ text i, l = .int text i) ∨
      (t.kind ≠ .int ∧ ∃ text x, l = .float text x) := by
  simp only [numberLiteral] at h
  generalize (if negative then ascii "-" else []) ++ t.text = text at h
  by_cases hk : t.kind = .int
  · rw [if_pos hk] at h
    split at h
    · cases h
      exact .inl ⟨hk, _, _, rfl⟩
    · cases h
  · rw [if_neg hk] at h
    split at h
    · cases h
      exact .inr ⟨hk, _, _, rfl⟩
    · cases h

theorem Parse.MineWritten.wellFormed {d : MineDirective} {ts : List Token}
    (h : MineWritten d ts) : d.WellFormed := by
  have hoperations : ∀ k ∈ (plainOperations ++ targetOperations : List Keyword),
      TokenKind.keyword k ∈ operations ∧ k ≠ .CLUSTER := by decide
  cases h with
  | @clusters w t ls l _ _ hk hl =>
    have hmem : TokenKind.keyword .CLUSTER ∈ operations := by decide
    refine ⟨hmem, fun _ => ?_⟩
    rcases numberLiteral_cases hl with ⟨-, text, i, rfl⟩ | ⟨hne, -⟩
    · exact ⟨text, i, rfl⟩
    · exact absurd hk hne
  | @plain k w hk _ =>
    obtain ⟨hmem, hne⟩ := hoperations k (List.mem_append_left _ hk)
    exact ⟨hmem, fun e => absurd (TokenKind.keyword.inj e) hne⟩
  | @target k w t ls hk _ _ _ =>
    obtain ⟨hmem, hne⟩ := hoperations k (List.mem_append_right _ hk)
    exact ⟨hmem, fun e => absurd (TokenKind.keyword.inj e) hne⟩

theorem Parse.MeasureWritten.wellFormed {s : MeasureSetting} {ts : List Token}
    (h : MeasureWritten s ts) : s.WellFormed := by
  cases h with
  | mk _ hname _ _ hl =>
    refine ⟨hname, ?_⟩
    rcases numberLiteral_cases hl with ⟨-, hint⟩ | ⟨-, hfloat⟩
    · exact .inl hint
    · exact .inr hfloat

/-- **What the tokens of a clause write is well formed.** -/
theorem Clause.Written.wellFormed {limit : Nat} {clause : Clause} {content : ClauseContent}
    {ts : List Token} (h : clause.Written limit content ts) : content.WellFormed := by
  cases clause with
  | database =>
    obtain ⟨w, us, rfl, -, n, ⟨t, rfl, ht, rfl⟩, rfl⟩ := h
    exact ht.2
  | relevance | grouping =>
    obtain ⟨w, us, rfl, -, as, has, rfl⟩ := h
    exact has.forall_mem AttributeWritten.isLexical
  | tables =>
    obtain ⟨rs, hrs, rfl⟩ := h
    exact hrs.forall_mem TableWritten.isName
  | condition =>
    obtain ⟨p, hp, rfl⟩ := h
    exact ⟨hp.canonical, hp.lexical⟩
  | ordering =>
    obtain ⟨w, us, rfl, -, os, hos, rfl⟩ := h
    exact hos.forall_mem OrderWritten.isLexical
  | mining =>
    obtain ⟨d, hd, rfl⟩ := h
    exact hd.wellFormed
  | measures =>
    obtain ⟨ms, hms, rfl⟩ := h
    exact hms.forall_mem MeasureWritten.wellFormed
  | display =>
    obtain ⟨w, us, rfl, -, n, -, rfl⟩ := h
    trivial

/-! ## 2. Well-formed statements -/

/-- Every clause that the statement holds is well formed. -/
structure Statement.WellFormed (s : Statement) : Prop where
  database : ∀ n ∈ s.database, isName n = true
  relevance : ∀ as ∈ s.relevance, ∀ a ∈ as, a.isLexical = true
  tables : ∀ t ∈ s.tables, isName t.name = true
  condition : ∀ p ∈ s.condition, p.isCanonical = true ∧ p.isLexical = true
  grouping : ∀ a ∈ s.grouping, a.isLexical = true
  ordering : ∀ o ∈ s.ordering, o.column.isLexical = true
  mining : ∀ d ∈ s.mining, d.WellFormed
  measures : ∀ m ∈ s.measures, m.WellFormed

theorem Statement.empty_wellFormed : Statement.empty.WellFormed := by
  constructor <;> intro x h <;> cases h

/-- One more well-formed clause keeps a statement well formed. -/
theorem Statement.WellFormed.set {s : Statement} (hs : s.WellFormed) {c : ClauseContent}
    (hc : c.WellFormed) : (s.set c).WellFormed := by
  have hsome : ∀ {α : Type} {P : α → Prop} {x : α}, P x → ∀ y ∈ some x, P y := by
    intro α P x hx y hy
    cases hy
    exact hx
  cases c with
  | database n => exact { hs with database := hsome hc }
  | relevance as =>
    exact { hs with
      relevance := hsome (P := fun as : List Attribute => ∀ a ∈ as, a.isLexical = true) hc }
  | tables ts => exact { hs with tables := hc }
  | condition p =>
    exact { hs with
      condition := hsome
        (P := fun p : Predicate => p.isCanonical = true ∧ p.isLexical = true) hc }
  | grouping as => exact { hs with grouping := hc }
  | ordering os => exact { hs with ordering := hc }
  | mining d => exact { hs with mining := hsome hc }
  | measures ms => exact { hs with measures := hc }
  | display n => exact { hs with }

theorem Statement.WellFormed.foldl {contents : List ClauseContent}
    (h : ∀ c ∈ contents, c.WellFormed) {s : Statement} (hs : s.WellFormed) :
    (contents.foldl Statement.set s).WellFormed := by
  induction contents generalizing s with
  | nil => exact hs
  | cons c contents ih =>
    obtain ⟨hc, hcs⟩ := List.forall_mem_cons.mp h
    exact ih hcs (hs.set hc)

/-- What a segment of a token list says was read there by a reader of clauses. -/
theorem ClauseReading.exists_read {limit : Nat} {clauses : List Clause} {ts : List Token}
    (hts : Shaped ts) {r : ClauseReading} (hr : r ∈ ClauseReading.all limit clauses ts)
    {c : ClauseContent} (hc : r.content = some c) :
    ∃ clause body rest, Shaped body ∧ Clause.content limit clause body = .ok (c, rest) := by
  induction clauses generalizing ts with
  | nil => cases hr
  | cons clause later ih =>
    have htail : Shaped ts.tail := fun t ht => hts t (List.mem_of_mem_tail ht)
    rw [ClauseReading.all] at hr
    split at hr
    · rcases List.mem_cons.mp hr with rfl | hr
      · unfold ClauseReading.ofSegment at hc
        split at hc
        · rename_i content rest hread
          obtain rfl := Option.some.inj hc
          exact ⟨clause, ts.tail, rest, htail, hread⟩
        · cases hc
      · have hnext : Shaped (Clause.nextSegment later ts.tail) :=
          fun t ht => htail t ((List.dropWhile_suffix _).mem ht)
        exact ih hnext hr
    · exact ih hts hr

/-- What is put into the statement of a token list was read there by a reader of clauses. -/
theorem exists_read_of_mem {limit : Nat} {ts : List Token} (hts : Shaped ts) {c : ClauseContent}
    (hc : c ∈ (ClauseReading.all limit Clause.all (Clause.nextSegment Clause.all ts)).filterMap
      (·.content)) :
    ∃ clause body rest, Shaped body ∧ Clause.content limit clause body = .ok (c, rest) := by
  obtain ⟨r, hr, hrc⟩ := List.mem_filterMap.mp hc
  have hnext : Shaped (Clause.nextSegment Clause.all ts) :=
    fun t ht => hts t ((List.dropWhile_suffix _).mem ht)
  exact ClauseReading.exists_read hnext hr hrc

/-- **Whatever the tokens are, the statement that is read is well formed.** -/
theorem readStatement_wellFormed {limit : Nat} {ts : List Token} (hts : Shaped ts) :
    (readStatement limit ts).statement.WellFormed := by
  refine Statement.WellFormed.foldl (fun c hc => ?_) Statement.empty_wellFormed
  obtain ⟨clause, body, rest, hbody, hread⟩ := exists_read_of_mem hts hc
  obtain ⟨read, -, hwritten⟩ := (clause.content_reads limit).sound hbody hread
  exact hwritten.wellFormed

end MiningQuery
