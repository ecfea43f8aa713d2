/-
  File:      MiningQuery/Proofs/Grammar/Statement.lean
  Subject:   What the tokens of a statement write.

  * `Inside` -- tokens that neither end a text nor open a clause;
  * `StatementWritten` -- clauses in their order, each at most once, and the end of the input;
  * **`readStatement_of_written`** -- a written statement is read without a failure;
  * **`written_of_readStatement`** -- what is read without a failure is written.
-/
import MiningQuery.Proofs.Grammar.Clause

namespace MiningQuery

open Parse

/-! ## 1. Inside a clause -/

/-- None of the tokens is the end of the input or the keyword of a clause. -/
def Inside (ts : List Token) : Prop := ∀ t ∈ ts, t.kind ∉ clauseEnd

theorem inside_nil : Inside [] := fun _ h => absurd h List.not_mem_nil

theorem inside_cons {t : Token} {ts : List Token} :
    Inside (t :: ts) ↔ t.kind ∉ clauseEnd ∧ Inside ts := List.forall_mem_cons

theorem inside_append {ts us : List Token} : Inside (ts ++ us) ↔ Inside ts ∧ Inside us :=
  List.forall_mem_append

/-- No lexeme is the end of the input or the keyword of a clause. -/
def LexemesInside (ls : List Lexeme) : Prop := ∀ l ∈ ls, l.kind ∉ clauseEnd

@[simp] theorem lexemesInside_nil : LexemesInside [] := fun _ h => absurd h List.not_mem_nil

@[simp] theorem lexemesInside_cons {l : Lexeme} {ls : List Lexeme} :
    LexemesInside (l :: ls) ↔ l.kind ∉ clauseEnd ∧ LexemesInside ls := List.forall_mem_cons

@[simp] theorem lexemesInside_append {ls ms : List Lexeme} :
    LexemesInside (ls ++ ms) ↔ LexemesInside ls ∧ LexemesInside ms := List.forall_mem_append

@[simp] theorem symbol_inside (s : Symbol) : TokenKind.symbol s ∉ clauseEnd := by
  cases s <;> decide

/-- Tokens are inside a clause if their lexemes are. -/
theorem Spells.inside {ls : List Lexeme} {ts : List Token} (h : Spells ls ts)
    (hls : LexemesInside ls) : Inside ts := by
  induction h with
  | nil => exact inside_nil
  | cons ht _ ih =>
    obtain ⟨hl, hls⟩ := lexemesInside_cons.mp hls
    refine inside_cons.mpr ⟨?_, ih hls⟩
    rw [ht.1]
    exact hl

theorem Literal.lexemes_inside (l : Literal) : LexemesInside l.lexemes := by
  have hnull : TokenKind.keyword .NULL ∉ clauseEnd := by decide
  have hstring : TokenKind.string ∉ clauseEnd := by decide
  have hsigned : ∀ kind t, kind ∉ clauseEnd → LexemesInside (Literal.signedLexemes kind t) := by
    intro kind t hk
    unfold Literal.signedLexemes
    split <;> simp [hk]
  cases l with
  | null => simp [Literal.lexemes, hnull]
  | string => simp [Literal.lexemes, hstring]
  | int t => exact hsigned .int t (by decide)
  | float t => exact hsigned .float t (by decide)

theorem identifier_inside : TokenKind.identifier ∉ clauseEnd := by decide

theorem ColumnRef.lexemes_inside (c : ColumnRef) : LexemesInside c.lexemes := by
  obtain ⟨q, n⟩ := c
  cases q <;> simp [ColumnRef.lexemes, identifier_inside]

theorem Expr.lexemes_inside (e : Expr) : LexemesInside e.lexemes := by
  induction e with
  | literal l => exact l.lexemes_inside
  | column c => exact c.lexemes_inside
  | aggregateAll f => simp [Expr.lexemes, identifier_inside]
  | aggregate f e ih => simp [Expr.lexemes, identifier_inside, ih]
  | paren e ih => simp [Expr.lexemes, ih]
  | arith op l r ihl ihr => simp [Expr.lexemes, ihl, ihr]

theorem Predicate.valueLexemes_inside (es : List Expr) :
    LexemesInside (Predicate.valueLexemes es) := by
  induction es with
  | nil => exact lexemesInside_nil
  | cons e es ih =>
    cases es with
    | nil => exact e.lexemes_inside
    | cons e' es => simp [Predicate.valueLexemes, e.lexemes_inside, ih]

/-- The tokens of a condition are inside its clause. -/
theorem Predicate.lexemes_inside (p : Predicate) : LexemesInside p.lexemes := by
  have hwords : ∀ k ∈ ([.AND, .OR, .NOT, .BETWEEN, .LIKE, .IS, .NULL, .IN] : List Keyword),
      TokenKind.keyword k ∉ clauseEnd := by decide
  have hstring : TokenKind.string ∉ clauseEnd := by decide
  have hnot : ∀ n, LexemesInside (Predicate.notLexemes n) := by
    intro n
    cases n <;> simp [Predicate.notLexemes, hwords]
  induction p with
  | logical op l r ihl ihr =>
    cases op <;> simp [Predicate.lexemes, LogicOp.keyword, hwords, ihl, ihr]
  | not p ih => simp [Predicate.lexemes, hwords, ih]
  | paren p ih => simp [Predicate.lexemes, ih]
  | compare op l r => simp [Predicate.lexemes, Expr.lexemes_inside]
  | between n x low high => simp [Predicate.lexemes, hwords, hnot, Expr.lexemes_inside]
  | like n x pattern => simp [Predicate.lexemes, hwords, hnot, hstring, Expr.lexemes_inside]
  | isNull n x => simp [Predicate.lexemes, hwords, hnot, Expr.lexemes_inside]
  | inList n x values =>
    simp [Predicate.lexemes, hwords, hnot, Expr.lexemes_inside, Predicate.valueLexemes_inside]
  | value e => exact e.lexemes_inside

namespace Parse

theorem Image.inside {α β : Type} {f : α → β} {W : α → List Token → Prop} {y : β}
    {ts : List Token} (h : Image f W y ts) (hW : ∀ x ts, W x ts → Inside ts) : Inside ts := by
  obtain ⟨x, hx, -⟩ := h
  exact hW x ts hx

theorem Behind.inside {α β : Type} {k : Keyword} {f : α → β} {W : α → List Token → Prop} {y : β}
    {ts : List Token} (h : Behind k f W y ts) (hk : TokenKind.keyword k ∉ clauseEnd)
    (hW : ∀ x ts, W x ts → Inside ts) : Inside ts := by
  obtain ⟨w, us, rfl, hw, hy⟩ := h
  exact inside_cons.mpr ⟨hw ▸ hk, hy.inside hW⟩

/-- A list is inside its clause if its items are. -/
theorem Listed.inside {α : Type} {W : α → List Token → Prop} {xs : List α} {ts : List Token}
    (h : Listed W xs ts) (hW : ∀ x ts, W x ts → Inside ts) : Inside ts := by
  induction h with
  | one hx => exact hW _ _ hx
  | more hx hc _ ih =>
    refine inside_append.mpr ⟨hW _ _ hx, inside_cons.mpr ⟨?_, ih⟩⟩
    rw [hc]
    exact symbol_inside _

theorem NameWritten.inside {n : Text} {ts : List Token} (h : NameWritten n ts) : Inside ts := by
  obtain ⟨t, rfl, ht, -⟩ := h
  exact inside_cons.mpr ⟨ht.1 ▸ identifier_inside, inside_nil⟩

theorem AttributeWritten.inside {a : Attribute} {ts : List Token} (h : AttributeWritten a ts) :
    Inside ts := by
  cases a with
  | all =>
    obtain ⟨s, rfl, hs⟩ := h
    exact inside_cons.mpr ⟨hs ▸ symbol_inside _, inside_nil⟩
  | column c => exact h.2.inside c.lexemes_inside

theorem TableWritten.inside {r : TableRef} {ts : List Token} (h : TableWritten r ts) :
    Inside ts := by
  have has : TokenKind.keyword .AS ∉ clauseEnd := by decide
  cases h with
  | plain ht => simp [Inside, ht.1, identifier_inside]
  | renamed ht hu => simp [Inside, ht.1, hu.1, identifier_inside]
  | renamedAs ht ha hu => simp [Inside, ht.1, ha, hu.1, identifier_inside, has]

theorem OrderWritten.inside {item : OrderItem} {ts : List Token} (h : OrderWritten item ts) :
    Inside ts := by
  have hwords : ∀ k ∈ ([.ASC, .DESC] : List Keyword), TokenKind.keyword k ∉ clauseEnd := by decide
  cases h with
  | @plain c ts hc => exact hc.2.inside c.lexemes_inside
  | @ascending c ts d hc hd | @descending c ts d hc hd =>
    refine inside_append.mpr ⟨hc.2.inside c.lexemes_inside, ?_⟩
    simp [Inside, hd, hwords]

theorem LabelWritten.inside {label : Text} {ts : List Token} (h : LabelWritten label ts) :
    Inside ts := by
  cases h with
  | absent => exact inside_nil
  | present ht _ he => simp [Inside, ht, he, identifier_inside]

theorem MineWritten.inside {d : MineDirective} {ts : List Token} (h : MineWritten d ts) :
    Inside ts := by
  have hoperations : ∀ k ∈ (.CLUSTER :: plainOperations ++ targetOperations : List Keyword),
      TokenKind.keyword k ∉ clauseEnd := by decide
  have hint : TokenKind.int ∉ clauseEnd := by decide
  cases h with
  | clusters hw hls ht _ =>
    refine inside_cons.mpr ⟨hw ▸ hoperations _ (by simp), inside_append.mpr ⟨hls.inside, ?_⟩⟩
    simp [Inside, ht, hint]
  | plain hk hw => exact inside_cons.mpr ⟨hw ▸ hoperations _ (by simp [hk]), inside_nil⟩
  | target hk hw hls ht =>
    refine inside_cons.mpr ⟨hw ▸ hoperations _ (by simp [hk]), inside_append.mpr ⟨hls.inside, ?_⟩⟩
    simp [Inside, ht.1, identifier_inside]

theorem MeasureWritten.inside {m : MeasureSetting} {ts : List Token} (h : MeasureWritten m ts) :
    Inside ts := by
  have hnumber : TokenKind.int ∉ clauseEnd ∧ TokenKind.float ∉ clauseEnd := by decide
  cases h with
  | mk hm _ he hv _ =>
    rcases hv with hv | hv <;> simp [Inside, hm, he, hv, identifier_inside, hnumber]

end Parse

/-- **What stands behind the keyword of a clause is inside the clause.** -/
theorem Clause.Written.inside {limit : Nat} {clause : Clause} {content : ClauseContent}
    {ts : List Token} (h : clause.Written limit content ts) : Inside ts := by
  have hwords : ∀ k ∈ ([.DATABASE, .TO, .BY, .AS] : List Keyword),
      TokenKind.keyword k ∉ clauseEnd := by decide
  cases clause with
  | database => exact Behind.inside h (hwords _ (by decide)) fun _ _ => NameWritten.inside
  | relevance =>
    exact Behind.inside h (hwords _ (by decide))
      fun _ _ hl => hl.inside fun _ _ => AttributeWritten.inside
  | tables => exact Image.inside h fun _ _ hl => hl.inside fun _ _ => TableWritten.inside
  | condition => exact Image.inside h fun p _ hp => hp.spells.inside p.lexemes_inside
  | grouping =>
    exact Behind.inside h (hwords _ (by decide))
      fun _ _ hl => hl.inside fun _ _ => AttributeWritten.inside
  | ordering =>
    exact Behind.inside h (hwords _ (by decide))
      fun _ _ hl => hl.inside fun _ _ => OrderWritten.inside
  | mining => exact Image.inside h fun _ _ => MineWritten.inside
  | measures => exact Image.inside h fun _ _ hl => hl.inside fun _ _ => MeasureWritten.inside
  | display => exact Behind.inside h (hwords _ (by decide)) fun _ _ => NameWritten.inside

/-! ## 2. Segments -/

/-- No two clauses open with the same keyword. -/
theorem Clause.keyword_injective : Function.Injective Clause.keyword := by
  intro c d h
  cases c <;> cases d <;> first | rfl | cases h

/-- A token that ends a segment ends a clause. -/
theorem Clause.mem_clauseEnd {allowed : List Clause} {t : Token}
    (h : Clause.endsSegment allowed t = true) : t.kind ∈ clauseEnd := by
  simp only [Clause.endsSegment, Clause.opensOne, Bool.or_eq_true, decide_eq_true_eq,
    List.any_eq_true] at h
  rcases h with h | ⟨c, -, h⟩
  · rw [h]
    decide
  · rw [h]
    cases c <;> decide

/-- The next segment starts behind what is inside the clause. -/
theorem Clause.nextSegment_append {allowed : List Clause} {body : List Token} {t : Token}
    (hbody : Inside body) (ht : Clause.endsSegment allowed t = true) (rest : List Token) :
    Clause.nextSegment allowed (body ++ t :: rest) = t :: rest := by
  induction body with
  | nil => simp [Clause.nextSegment, ht]
  | cons b body ih =>
    obtain ⟨hb, hbody⟩ := inside_cons.mp hbody
    have hends : Clause.endsSegment allowed b = false := by
      by_contra h
      rw [Bool.not_eq_false] at h
      exact hb (Clause.mem_clauseEnd h)
    rw [List.cons_append, Clause.nextSegment, List.dropWhile_cons_of_pos (by simp [hends])]
    exact ih hbody

/-- Nothing is left over exactly where a segment ends, or the tokens do. -/
theorem Clause.leftover_cons {allowed : List Clause} {t : Token} {ts : List Token} :
    Clause.leftover allowed (t :: ts) = none ↔ Clause.endsSegment allowed t = true := by
  unfold Clause.leftover
  split
  · simp_all
  · rename_i e
    obtain ⟨rfl, rfl⟩ := List.cons.inj e
    split <;> simp_all

/-! ## 3. Statements -/

/-- The tokens write clauses in their order, each at most once, and the end of the input. -/
inductive StatementWritten (limit : Nat) : List Clause → List ClauseContent → List Token → Prop
  | done {last : Token} : last.kind = .endOfInput → StatementWritten limit [] [] [last]
  | absent {clause : Clause} {later : List Clause} {contents : List ClauseContent}
      {ts : List Token} : StatementWritten limit later contents ts →
      StatementWritten limit (clause :: later) contents ts
  | present {clause : Clause} {later : List Clause} {w : Token} {body : List Token}
      {content : ClauseContent} {contents : List ClauseContent} {ts : List Token} :
      w.kind = .keyword clause.keyword → clause.Written limit content body →
      StatementWritten limit later contents ts →
      StatementWritten limit (clause :: later) (content :: contents) (w :: (body ++ ts))

/-- Written clauses start where a segment ends. -/
theorem StatementWritten.head {limit : Nat} {clauses : List Clause}
    {contents : List ClauseContent} {ts : List Token}
    (h : StatementWritten limit clauses contents ts) :
    ∃ t us, ts = t :: us ∧ Clause.endsSegment clauses t = true := by
  induction h with
  | @done last hlast => exact ⟨last, [], rfl, by simp [Clause.endsSegment, hlast]⟩
  | absent _ ih =>
    obtain ⟨t, us, e, ht⟩ := ih
    refine ⟨t, us, e, ?_⟩
    simp only [Clause.endsSegment, Clause.opensOne, Bool.or_eq_true, decide_eq_true_eq,
      List.any_cons] at ht ⊢
    tauto
  | present hw _ _ _ =>
    exact ⟨_, _, rfl, by simp [Clause.endsSegment, Clause.opensOne, hw]⟩

/-- **The segments of written clauses are read without a failure.** -/
theorem StatementWritten.readings {limit : Nat} {clauses : List Clause}
    {contents : List ClauseContent} {ts : List Token} (hnodup : clauses.Nodup)
    (h : StatementWritten limit clauses contents ts) :
    ClauseReading.all limit clauses ts = contents.map fun c => ⟨some c, none⟩ := by
  induction h with
  | done => rfl
  | @absent clause later contents ts hwritten ih =>
    obtain ⟨hclause, hlater⟩ := List.nodup_cons.mp hnodup
    obtain ⟨t, us, rfl, ht⟩ := hwritten.head
    have hk : kindOf (t :: us) ≠ .keyword clause.keyword := by
      rw [kindOf_cons]
      intro hk
      simp only [Clause.endsSegment, Clause.opensOne, hk, Bool.or_eq_true, decide_eq_true_eq,
        reduceCtorEq, List.any_eq_true, false_or, TokenKind.keyword.injEq] at ht
      obtain ⟨c, hc, e⟩ := ht
      exact hclause (Clause.keyword_injective e ▸ hc)
    rw [ClauseReading.all, if_neg hk]
    exact ih hlater
  | @present clause later w body content contents ts hw hbody hwritten ih =>
    obtain ⟨t, us, rfl, ht⟩ := hwritten.head
    have hstop : ClauseStop (t :: us) := Clause.mem_clauseEnd ht
    have hread := (clause.content_reads limit).complete hbody hstop
    rw [ClauseReading.all, kindOf_cons, if_pos hw, List.tail_cons, ClauseReading.ofSegment,
      Clause.nextSegment_append hbody.inside ht]
    simp only [hread, Clause.leftover_cons.mpr ht, List.map_cons]
    rw [ih (List.nodup_cons.mp hnodup).2]

/-- **A written statement is read without a failure.** -/
theorem readStatement_of_written {limit : Nat} {contents : List ClauseContent}
    {ts : List Token} (h : StatementWritten limit Clause.all contents ts) :
    readStatement limit ts = ⟨contents.foldl Statement.set .empty, []⟩ := by
  obtain ⟨t, us, rfl, ht⟩ := h.head
  have hnext := Clause.nextSegment_append inside_nil ht us
  rw [List.nil_append] at hnext
  have hall := h.readings (by decide)
  have hcontents : (contents.map fun c => (⟨some c, none⟩ : ClauseReading)).filterMap (·.content) =
      contents := by
    rw [List.filterMap_map]
    exact List.filterMap_some
  have hfailures : (contents.map fun c => (⟨some c, none⟩ : ClauseReading)).filterMap (·.failure) =
      [] := by
    rw [List.filterMap_map]
    exact List.filterMap_eq_nil_iff.mpr fun _ _ => rfl
  simp only [readStatement, hnext, hall, hcontents, hfailures, Clause.leftover_cons.mpr ht,
    Option.toList_none, List.append_nil]

/-! ## 4. What is read was written -/

/-- Behind tokens inside a clause the end of the input is still to come, once. -/
theorem EndsOnce.of_append {body rest : List Token} (h : EndsOnce (body ++ rest))
    (hbody : Inside body) : EndsOnce rest := by
  induction body with
  | nil => exact h
  | cons b body ih =>
    obtain ⟨hb, hbody⟩ := inside_cons.mp hbody
    refine ih ?_ hbody
    obtain ⟨init, last, e, hlast, hinit⟩ := h
    obtain _ | ⟨i, init⟩ := init
    · obtain ⟨rfl, -⟩ := List.cons.inj e
      rw [hlast] at hb
      exact absurd (by decide) hb
    · obtain ⟨-, e⟩ := List.cons.inj e
      exact ⟨init, last, e, hlast, fun t ht => hinit t (List.mem_cons_of_mem _ ht)⟩

/-- The end of the input comes alone. -/
theorem EndsOnce.eq_singleton {t : Token} {ts : List Token} (h : EndsOnce (t :: ts))
    (ht : t.kind = .endOfInput) : ts = [] := by
  obtain ⟨init, last, e, -, hinit⟩ := h
  obtain _ | ⟨i, init⟩ := init
  · exact (List.cons.inj e).2
  · obtain ⟨rfl, -⟩ := List.cons.inj e
    exact absurd ht (hinit t List.mem_cons_self)

/-- Behind any other token the end of the input is still to come, once. -/
theorem EndsOnce.of_cons {t : Token} {ts : List Token} (h : EndsOnce (t :: ts))
    (ht : t.kind ≠ .endOfInput) : EndsOnce ts := by
  obtain ⟨init, last, e, hlast, hinit⟩ := h
  obtain _ | ⟨i, init⟩ := init
  · obtain ⟨rfl, -⟩ := List.cons.inj e
    exact absurd hlast ht
  · obtain ⟨-, e⟩ := List.cons.inj e
    exact ⟨init, last, e, hlast, fun u hu => hinit u (List.mem_cons_of_mem _ hu)⟩

/-- **Segments that are read without a failure are written clauses.** -/
theorem written_of_readings {limit : Nat} {clauses : List Clause} {ts : List Token}
    (hts : Shaped ts) (hend : EndsOnce ts) (hstart : Clause.leftover clauses ts = none)
    (h : (ClauseReading.all limit clauses ts).filterMap (·.failure) = []) :
    ∃ contents, StatementWritten limit clauses contents ts := by
  induction clauses generalizing ts with
  | nil =>
    obtain _ | ⟨t, us⟩ := ts
    · obtain ⟨init, last, e, -⟩ := hend
      cases init <;> cases e
    · have ht : t.kind = .endOfInput := by
        simpa [Clause.endsSegment, Clause.opensOne] using Clause.leftover_cons.mp hstart
      obtain rfl := hend.eq_singleton ht
      exact ⟨[], .done ht⟩
  | cons clause later ih =>
    obtain _ | ⟨t, us⟩ := ts
    · obtain ⟨init, last, e, -⟩ := hend
      cases init <;> cases e
    rw [ClauseReading.all, kindOf_cons] at h
    by_cases hk : t.kind = .keyword clause.keyword
    · rw [if_pos hk, List.tail_cons, List.filterMap_cons] at h
      have hus := (shaped_cons.mp hts).2
      have hend' : EndsOnce us := hend.of_cons (by simp [hk])
      split at h
      · rename_i hnone
        unfold ClauseReading.ofSegment at hnone
        split at hnone
        · rename_i content rest hread
          obtain ⟨body, rfl, hbody⟩ := (clause.content_reads limit).sound hus hread
          have hrest := hend'.of_append hbody.inside
          obtain _ | ⟨r, rest⟩ := rest
          · obtain ⟨init, last, e, -⟩ := hrest
            cases init <;> cases e
          rw [Clause.nextSegment_append hbody.inside (Clause.leftover_cons.mp hnone)] at h
          obtain ⟨contents, hwritten⟩ := ih (shaped_append.mp hus).2 hrest hnone h
          exact ⟨content :: contents, .present hk hbody hwritten⟩
        · cases hnone
      · cases h
    · rw [if_neg hk] at h
      have hstart' : Clause.leftover later (t :: us) = none := by
        have ht := Clause.leftover_cons.mp hstart
        refine Clause.leftover_cons.mpr ?_
        simp only [Clause.endsSegment, Clause.opensOne, Bool.or_eq_true, decide_eq_true_eq,
          List.any_cons] at ht ⊢
        tauto
      obtain ⟨contents, hwritten⟩ := ih hts hend hstart' h
      exact ⟨contents, .absent hwritten⟩

/-- **What is read without a failure is a written statement.** -/
theorem written_of_readStatement {limit : Nat} {ts : List Token} (hts : Shaped ts)
    (hend : EndsOnce ts) (h : (readStatement limit ts).failures = []) :
    ∃ contents, StatementWritten limit Clause.all contents ts := by
  obtain ⟨hleft, hfailures⟩ := List.append_eq_nil_iff.mp h
  have hstart : Clause.leftover Clause.all ts = none := by
    cases e : Clause.leftover Clause.all ts with
    | none => rfl
    | some f => rw [e] at hleft; cases hleft
  have hnext : Clause.nextSegment Clause.all ts = ts := by
    obtain _ | ⟨t, us⟩ := ts
    · rfl
    · exact Clause.nextSegment_append inside_nil (Clause.leftover_cons.mp hstart) us
  rw [hnext] at hfailures
  exact written_of_readings hts hend hstart hfailures

end MiningQuery
