/-
  File:      MiningQuery/Proofs/Grammar/Acceptance.lean
  Subject:   The readers accept exactly the grammar.

  The grammar is ambiguous and the readers are not, so a derivation has to be turned into the one
  that the readers find: chains of operators are joined at their ends, and a `NOT` moves to the
  first part of what it negates.

  * `Chained.append`, `Chained.join`, `Chained.prepend` -- the three ways to regroup;
  * **`exprDerives_iff`**, **`conditionDerives_iff`** -- derivable is written as some tree;
  * **`accepts_iff_derives`** -- a statement is read without a failure exactly if it is derivable.
-/
import MiningQuery.Proofs.Grammar.Derivation
import MiningQuery.Proofs.Grammar.Statement
import MiningQuery.Proofs.Number.Integer

namespace MiningQuery

namespace Parse

/-! ## 1. Regrouping chains -/

namespace Chained

variable {α ω : Type} {operator : TokenKind → Option ω} {combine : ω → α → α → α}
  {W : α → List Token → Prop} {x y : α} {ts us : List Token} {o : Token}

/-- Two chains with an operator of theirs between them are one chain. -/
theorem append (hx : Chained operator combine W x ts) (ho : (operator o.kind).isSome = true)
    (hy : Chained operator combine W y us) :
    ∃ z, Chained operator combine W z (ts ++ o :: us) := by
  obtain ⟨op, hop⟩ := Option.isSome_iff_exists.mp ho
  induction hy with
  | one hy => exact ⟨_, .more hx hop hy⟩
  | @more left right us vs o' op' _ ho' hr ih =>
    obtain ⟨z, hz⟩ := ih
    refine ⟨combine op' z right, ?_⟩
    have e : ts ++ o :: (us ++ o' :: vs) = (ts ++ o :: us) ++ o' :: vs := by simp
    rw [e]
    exact .more hz ho' hr

/-- A token that joins two items joins two chains of items, at their ends. -/
theorem join (hitem : ∀ {x y ts us}, W x ts → W y us → ∃ z, W z (ts ++ o :: us))
    (hx : Chained operator combine W x ts) (hy : Chained operator combine W y us) :
    ∃ z, Chained operator combine W z (ts ++ o :: us) := by
  induction hy with
  | @one y us hy =>
    cases hx with
    | one hx =>
      obtain ⟨z, hz⟩ := hitem hx hy
      exact ⟨z, .one hz⟩
    | @more left right ts vs o' op' hleft ho' hr =>
      obtain ⟨z, hz⟩ := hitem hr hy
      have e : (ts ++ o' :: vs) ++ o :: us = ts ++ o' :: (vs ++ o :: us) := by simp
      rw [e]
      exact ⟨_, .more hleft ho' hz⟩
  | @more left right us vs o' op' _ ho' hr ih =>
    obtain ⟨z, hz⟩ := ih
    have e : ts ++ o :: (us ++ o' :: vs) = (ts ++ o :: us) ++ o' :: vs := by simp
    rw [e]
    exact ⟨_, .more hz ho' hr⟩

/-- A token that may stand before an item may stand before a chain. -/
theorem prepend {W' : α → List Token → Prop} (hitem : ∀ {x ts}, W x ts → ∃ z, W' z (o :: ts))
    (hW : ∀ {x ts}, W x ts → W' x ts) (hx : Chained operator combine W x ts) :
    ∃ z, Chained operator combine W' z (o :: ts) := by
  induction hx with
  | one hx =>
    obtain ⟨z, hz⟩ := hitem hx
    exact ⟨z, .one hz⟩
  | @more left right ts us o' op' _ ho' hr ih =>
    obtain ⟨z, hz⟩ := ih
    rw [← List.cons_append]
    exact ⟨_, .more hz ho' (hW hr)⟩

/-- More items make more chains. -/
theorem mono {W' : α → List Token → Prop} (hW : ∀ {x ts}, W x ts → W' x ts)
    (hx : Chained operator combine W x ts) : Chained operator combine W' x ts := by
  induction hx with
  | one hx => exact .one (hW hx)
  | more _ ho hr ih => exact .more ih ho (hW hr)

end Chained

/-! ## 2. Numbers, columns, lists -/

theorem kinds_eq_nil {ts : List Token} : kinds ts = [] ↔ ts = [] := List.map_eq_nil_iff

theorem kinds_eq_cons {ts : List Token} {k : TokenKind} {ks : List TokenKind} :
    kinds ts = k :: ks ↔ ∃ t us, ts = t :: us ∧ t.kind = k ∧ kinds us = ks :=
  List.map_eq_cons_iff

/-- Is the text a number that the format can hold? -/
def representable (t : Text) : Bool := (Binary64.read? t).isSome

/-- An integer token is read as its value, unless that is out of range. -/
theorem int64_signedText (negative : Bool) {t : Token} (ht : isDigits t.text = true) :
    Text.int64? (signedText negative t) =
      if inInt64 (signedValue negative t) then some (signedValue negative t) else none := by
  have hdigits : Text.digits? t.text = some (Text.digitsValue t.text) := by
    obtain ⟨hne, hall⟩ := Bool.and_eq_true_iff.mp ht
    simp only [Bool.not_eq_true'] at hne
    simp [Text.digits?, hne, hall]
  have hinteger : Text.integer? (signedText negative t) = some (signedValue negative t) := by
    cases negative with
    | false =>
      simp only [signedText, Bool.false_eq_true, if_false, List.nil_append, Text.integer?,
        Text.sign_of_isDigits ht, hdigits, signedValue]
      rfl
    | true =>
      have e : signedText true t = 45 :: t.text := rfl
      simp only [e, Text.integer?, Text.sign, hdigits, if_true, signedValue]
      rfl
  rw [Text.int64?, hinteger, Option.filter_some]

/-- **A number is derivable exactly if its token is read.** -/
theorem numberDerives_iff {negative : Bool} {t : Token} (ht : t.IsShaped) :
    NumberDerives representable negative t ↔
      (t.kind = .int ∨ t.kind = .float) ∧ ∃ l, numberLiteral negative t = .ok l := by
  constructor
  · intro h
    rcases h with ⟨hk, hrange⟩ | ⟨hk, hrange⟩
    · have hd : isDigits t.text = true := by
        unfold Token.IsShaped at ht
        rwa [hk] at ht
      refine ⟨.inl hk, .int (signedText negative t) (signedValue negative t), ?_⟩
      have hread := int64_signedText negative hd
      rw [if_pos hrange] at hread
      simp only [signedText] at hread ⊢
      simp only [numberLiteral, hk, if_true, hread]
    · obtain ⟨x, hx⟩ := Option.isSome_iff_exists.mp hrange
      refine ⟨.inr hk, .float (signedText negative t) x, ?_⟩
      simp only [signedText] at hx ⊢
      simp only [numberLiteral, hk, reduceCtorEq, if_false, hx]
  · intro h
    obtain ⟨hk, l, hl⟩ := h
    rcases hk with hk | hk
    · have hd : isDigits t.text = true := by
        unfold Token.IsShaped at ht
        rwa [hk] at ht
      refine .int hk ?_
      by_contra hrange
      have hread := int64_signedText negative hd
      rw [if_neg hrange] at hread
      simp only [signedText] at hread
      simp only [numberLiteral, hk, if_true, hread] at hl
      cases hl
    · refine .decimal hk ?_
      simp only [numberLiteral, hk, reduceCtorEq, if_false] at hl
      split at hl
      · rename_i x hx
        exact Option.isSome_iff_exists.mpr ⟨x, hx⟩
      · cases hl

theorem columnDerives_iff {ts : List Token} (hts : Shaped ts) :
    ColumnDerives ts ↔ ∃ c, ColumnWritten c ts := by
  constructor
  · intro h
    rcases h with h | h
    · obtain ⟨t, _, rfl, hk, h⟩ := kinds_eq_cons.mp h
      obtain rfl := kinds_eq_nil.mp h
      have ht := isName_of_shaped (shaped_cons.mp hts).1 hk
      refine ⟨⟨none, t.text⟩, ?_, ?_⟩
      · simp [ColumnRef.isLexical, ht.2]
      · simp [ColumnRef.lexemes, hk]
    · obtain ⟨t, _, rfl, hk, h⟩ := kinds_eq_cons.mp h
      obtain ⟨d, _, rfl, hd, h⟩ := kinds_eq_cons.mp h
      obtain ⟨u, _, rfl, hu, h⟩ := kinds_eq_cons.mp h
      obtain rfl := kinds_eq_nil.mp h
      obtain ⟨ht, hts⟩ := shaped_cons.mp hts
      have htn := isName_of_shaped ht hk
      have hun := isName_of_shaped (shaped_cons.mp (shaped_cons.mp hts).2).1 hu
      refine ⟨⟨some t.text, u.text⟩, ?_, ?_⟩
      · simp [ColumnRef.isLexical, htn.2, hun.2]
      · simp [ColumnRef.lexemes, hk, hd, hu]
  · intro h
    obtain ⟨⟨q, n⟩, -, hs⟩ := h
    cases q with
    | none =>
      simp only [ColumnRef.lexemes, spells_cons, spells_nil, Lexeme.exact_spells] at hs
      obtain ⟨t, _, rfl, ⟨hk, -⟩, rfl⟩ := hs
      exact .inl (by simp [kinds, hk])
    | some q =>
      simp only [ColumnRef.lexemes, spells_cons, spells_nil, Lexeme.exact_spells,
        Lexeme.sign_spells] at hs
      obtain ⟨t, _, rfl, ⟨hk, -⟩, d, _, rfl, hd, u, _, rfl, ⟨hu, -⟩, rfl⟩ := hs
      exact .inr (by simp [kinds, hk, hd, hu])

/-- Lists are derivable exactly if they are written, where items are. -/
theorem separated_iff {α : Type} {Item : List Token → Prop} {W : α → List Token → Prop}
    {ts : List Token} (hts : Shaped ts)
    (hitem : ∀ {us}, Shaped us → (Item us ↔ ∃ x, W x us)) :
    Separated Item ts ↔ ∃ xs, Listed W xs ts := by
  constructor
  · intro h
    induction h with
    | one h =>
      obtain ⟨x, hx⟩ := (hitem hts).mp h
      exact ⟨[x], .one hx⟩
    | more h hc _ ih =>
      obtain ⟨hts, hus⟩ := shaped_append.mp hts
      obtain ⟨x, hx⟩ := (hitem hts).mp h
      obtain ⟨xs, hxs⟩ := ih (shaped_cons.mp hus).2
      exact ⟨x :: xs, .more hx hc hxs⟩
  · intro h
    obtain ⟨xs, h⟩ := h
    induction h with
    | one hx => exact .one ((hitem hts).mpr ⟨_, hx⟩)
    | more hx hc _ ih =>
      obtain ⟨hts, hus⟩ := shaped_append.mp hts
      exact .more ((hitem hts).mpr ⟨_, hx⟩) hc (ih (shaped_cons.mp hus).2)

/-! ## 3. Values -/

/-- Two values with an operator between them are a value, grouped in another way. -/
theorem exists_written_operation {n : Nat} {l r : Expr} {o : Token} {ts us : List Token}
    (hl : l.Written n ts) (ho : o.kind ∈ [.plus, .minus, .star, .slash].map TokenKind.symbol)
    (hr : r.Written n us) : ∃ e : Expr, e.Written n (ts ++ o :: us) := by
  have hl' := chained_term_iff.mpr hl
  have hr' := chained_term_iff.mpr hr
  have hterms : (multiplicative? o.kind).isSome = true → ∀ {x y ts us}, TermWritten n x ts →
      TermWritten n y us → ∃ z, TermWritten n z (ts ++ o :: us) := by
    intro ho x y ts us hx hy
    obtain ⟨z, hz⟩ := (chained_factor_iff.mpr hx).append ho (chained_factor_iff.mpr hy)
    exact ⟨z, chained_factor_iff.mp hz⟩
  by_cases hadd : (additive? o.kind).isSome = true
  · obtain ⟨z, hz⟩ := hl'.append hadd hr'
    exact ⟨z, chained_term_iff.mp hz⟩
  · have hmul : (multiplicative? o.kind).isSome = true := by
      simp only [List.map_cons, List.map_nil, List.mem_cons, List.not_mem_nil, or_false] at ho
      rcases ho with ho | ho | ho | ho <;> rw [ho] at hadd ⊢
      · exact absurd rfl hadd
      · exact absurd rfl hadd
      · rfl
      · rfl
    obtain ⟨z, hz⟩ := hl'.join (hterms hmul) hr'
    exact ⟨z, chained_term_iff.mp hz⟩

/-- Every derivation is regrouped into a tree. -/
theorem exists_written_of_exprDerives {n : Nat} {ts : List Token} (hts : Shaped ts)
    (h : ExprDerives representable n ts) : ∃ e : Expr, e.Written n ts := by
  induction h with
  | @number n t h =>
    obtain ⟨hk, l, hl⟩ := (numberDerives_iff (shaped_cons.mp hts).1).mp h
    have hw : NumberWritten l [t] := .inl ⟨t, rfl, hk, hl⟩
    exact ⟨.literal l, (hw.factor hts n).2⟩
  | @negative n m t hm h =>
    obtain ⟨hk, l, hl⟩ := (numberDerives_iff (shaped_cons.mp (shaped_cons.mp hts).2).1).mp h
    have hw : NumberWritten l [m, t] := .inr ⟨m, t, rfl, hm, hk, hl⟩
    exact ⟨.literal l, (hw.factor hts n).2⟩
  | @constant n t h =>
    have ht : t.kind.admits t.text = true := (shaped_cons.mp hts).1
    rcases h with hk | hk
    · refine ⟨.literal (.string t.text), rfl, ?_, Nat.zero_le _, ?_⟩
      · rwa [hk] at ht
      · simp [Expr.lexemes, Literal.lexemes, hk]
    · refine ⟨.literal (.null t.text), rfl, ?_, Nat.zero_le _, ?_⟩
      · rwa [hk] at ht
      · simp [Expr.lexemes, Literal.lexemes, hk]
  | column h =>
    obtain ⟨c, hl, hs⟩ := (columnDerives_iff hts).mp h
    exact ⟨.column c, rfl, hl, Nat.zero_le _, hs⟩
  | @aggregateAll n t o s c hk ha ho hs hc =>
    have ht := isName_of_shaped (shaped_cons.mp hts).1 hk
    refine ⟨.aggregateAll t.text, rfl, ?_, Nat.succ_le_succ (Nat.zero_le n), ?_⟩
    · simp [Expr.isLexical, ht.2, ha]
    · exact spells_aggregateAll.mpr ⟨t, o, s, c, rfl, ⟨hk, rfl⟩, ho, hs, hc⟩
  | @aggregate n t o c ts hk ha ho _ hc ih =>
    obtain ⟨ht, hts⟩ := shaped_cons.mp hts
    have htn := isName_of_shaped ht hk
    obtain ⟨e, hcan, hlex, hd, hs⟩ := ih (shaped_append.mp (shaped_cons.mp hts).2).1
    refine ⟨.aggregate t.text e, hcan, ?_, Nat.succ_le_succ hd, ?_⟩
    · simp [Expr.isLexical, htn.2, ha, hlex]
    · exact spells_aggregate.mpr ⟨t, o, ts, c, rfl, ⟨hk, rfl⟩, ho, hs, hc⟩
  | @paren n o c ts ho _ hc ih =>
    obtain ⟨e, hcan, hlex, hd, hs⟩ := ih (shaped_append.mp (shaped_cons.mp hts).2).1
    refine ⟨.paren e, hcan, hlex, Nat.succ_le_succ hd, ?_⟩
    exact spells_paren.mpr ⟨o, ts, c, rfl, ho, hs, hc⟩
  | operation _ ho _ ihl ihr =>
    obtain ⟨hts, hus⟩ := shaped_append.mp hts
    obtain ⟨l, hl⟩ := ihl hts
    obtain ⟨r, hr⟩ := ihr (shaped_cons.mp hus).2
    exact exists_written_operation hl ho hr

/-- Every tree is a derivation. -/
theorem exprDerives_of_written {n : Nat} {e : Expr} {ts : List Token} (hts : Shaped ts)
    (h : e.Written n ts) : ExprDerives representable n ts := by
  induction e generalizing n ts with
  | literal l =>
    rcases literal_tokens h.lexical h.spells with
      (⟨t, rfl, hk, hl⟩ | ⟨m, t, rfl, hm, hk, hl⟩) | ⟨t, rfl, hk, -⟩ | ⟨t, rfl, hk, -⟩
    · exact .number ((numberDerives_iff (shaped_cons.mp hts).1).mpr ⟨hk, l, hl⟩)
    · have ht := (shaped_cons.mp (shaped_cons.mp hts).2).1
      exact .negative hm ((numberDerives_iff ht).mpr ⟨hk, l, hl⟩)
    · exact .constant (.inl hk)
    · exact .constant (.inr hk)
  | column c => exact .column ((columnDerives_iff hts).mpr ⟨c, h.lexical, h.spells⟩)
  | aggregateAll f =>
    obtain ⟨hc, hl, hd, hs⟩ := h
    obtain ⟨t, o, s, c, rfl, ⟨hk, rfl⟩, ho, hstar, hcp⟩ := spells_aggregateAll.mp hs
    obtain ⟨m, rfl⟩ := Nat.exists_eq_add_of_le' hd
    exact .aggregateAll hk (Bool.and_eq_true_iff.mp hl).2 ho hstar hcp
  | aggregate f e ih =>
    obtain ⟨hc, hl, hd, hs⟩ := h
    obtain ⟨t, o, us, c, rfl, ⟨hk, rfl⟩, ho, he, hcp⟩ := spells_aggregate.mp hs
    obtain ⟨m, rfl⟩ := Nat.exists_eq_add_of_le' (Nat.le_of_add_left_le hd)
    simp only [Expr.isLexical, Bool.and_eq_true] at hl
    have hus := (shaped_append.mp (shaped_cons.mp (shaped_cons.mp hts).2).2).1
    exact .aggregate hk hl.1.2 ho (ih hus ⟨hc, hl.2, Nat.le_of_succ_le_succ hd, he⟩) hcp
  | arith op l r ihl ihr =>
    obtain ⟨hc, hl, hd, hs⟩ := h
    obtain ⟨us, o, vs, rfl, hls, ho, hrs⟩ := spells_arith.mp hs
    obtain ⟨hus, hvs⟩ := shaped_append.mp hts
    obtain ⟨hll, hlr⟩ := Bool.and_eq_true_iff.mp hl
    obtain ⟨hdl, hdr⟩ := Nat.max_le.mp hd
    have hcl : l.isCanonical = true ∧ r.isCanonical = true := by
      cases op <;> simp only [Expr.isCanonical, Bool.and_eq_true] at hc <;> tauto
    refine .operation (ihl hus ⟨hcl.1, hll, hdl, hls⟩) ?_
      (ihr (shaped_cons.mp hvs).2 ⟨hcl.2, hlr, hdr, hrs⟩)
    rw [ho]
    cases op <;> decide
  | paren e ih =>
    obtain ⟨hc, hl, hd, hs⟩ := h
    obtain ⟨o, us, c, rfl, ho, he, hcp⟩ := spells_paren.mp hs
    obtain ⟨m, rfl⟩ := Nat.exists_eq_add_of_le' (Nat.le_of_add_left_le hd)
    have hus := (shaped_append.mp (shaped_cons.mp hts).2).1
    exact .paren ho (ih hus ⟨hc, hl, Nat.le_of_succ_le_succ hd, he⟩) hcp

/-- **A value is derivable exactly if it is written as some expression.** -/
theorem exprDerives_iff {n : Nat} {ts : List Token} (hts : Shaped ts) :
    ExprDerives representable n ts ↔ ∃ e : Expr, e.Written n ts :=
  ⟨exists_written_of_exprDerives hts, fun ⟨_, h⟩ => exprDerives_of_written hts h⟩

/-! ## 4. Conditions -/

/-- What nests at most some levels nests at most one more. -/
theorem NegationWritten.succ {n : Nat} {p : Predicate} {ts : List Token}
    (h : NegationWritten n p ts) : NegationWritten (n + 1) p ts :=
  ⟨h.1, h.2.canonical, h.2.lexical, Nat.le_succ_of_le h.2.depth_le, h.2.spells⟩

/-- Two conditions with a connective between them are a condition, grouped in another way. -/
theorem exists_written_connected {n : Nat} {l r : Predicate} {o : Token} {ts us : List Token}
    (hl : l.Written n ts) (ho : o.kind = .keyword .AND ∨ o.kind = .keyword .OR)
    (hr : r.Written n us) : ∃ p : Predicate, p.Written n (ts ++ o :: us) := by
  have hl' := chained_conjunction_iff.mpr hl
  have hr' := chained_conjunction_iff.mpr hr
  rcases ho with ho | ho
  · have hparts : ∀ {x y ts us}, ConjunctionWritten n x ts → ConjunctionWritten n y us →
        ∃ z, ConjunctionWritten n z (ts ++ o :: us) := by
      intro x y ts us hx hy
      obtain ⟨z, hz⟩ := (chained_negation_iff.mpr hx).append (by rw [ho]; rfl)
        (chained_negation_iff.mpr hy)
      exact ⟨z, chained_negation_iff.mp hz⟩
    obtain ⟨z, hz⟩ := hl'.join hparts hr'
    exact ⟨z, chained_conjunction_iff.mp hz⟩
  · obtain ⟨z, hz⟩ := hl'.append (by rw [ho]; rfl) hr'
    exact ⟨z, chained_conjunction_iff.mp hz⟩

/-- A condition behind a `NOT` is a condition, in which its first part is negated. -/
theorem exists_written_not {n : Nat} {p : Predicate} {t : Token} {ts : List Token}
    (ht : t.kind = .keyword .NOT) (hp : p.Written n ts) :
    ∃ q : Predicate, q.Written (n + 1) (t :: ts) := by
  have hpart : ∀ {x ts}, NegationWritten n x ts → ∃ z, NegationWritten (n + 1) z (t :: ts) := by
    intro x ts hx
    obtain ⟨hlog, hc, hl, hd, hs⟩ := hx
    refine ⟨.not x, rfl, ?_, hl, Nat.succ_le_succ hd, ?_⟩
    · simp [Predicate.isCanonical, hc, hlog]
    · simp only [Predicate.lexemes, spells_cons, Lexeme.word_spells]
      exact ⟨t, ts, rfl, ht, hs⟩
  have hconjunction : ∀ {x ts}, ConjunctionWritten n x ts →
      ∃ z, ConjunctionWritten (n + 1) z (t :: ts) := by
    intro x ts hx
    obtain ⟨z, hz⟩ := (chained_negation_iff.mpr hx).prepend hpart NegationWritten.succ
    exact ⟨z, chained_negation_iff.mp hz⟩
  have hmore : ∀ {x ts}, ConjunctionWritten n x ts → ConjunctionWritten (n + 1) x ts :=
    fun hx => chained_negation_iff.mp ((chained_negation_iff.mpr hx).mono NegationWritten.succ)
  obtain ⟨z, hz⟩ := (chained_conjunction_iff.mpr hp).prepend hconjunction hmore
  exact ⟨z, chained_conjunction_iff.mp hz⟩

/-- What is written as a simple condition is a condition, a value in parentheses included. -/
theorem SimpleWritten.exists_written {n : Nat} {p : Predicate} {ts : List Token}
    (h : SimpleWritten n p ts) : ∃ q : Predicate, q.Written n ts := by
  by_cases hp : ∀ e, p = .value e → e.isParen = false
  · exact ⟨p, h.written hp⟩
  · push Not at hp
    obtain ⟨e, rfl, -⟩ := hp
    obtain ⟨x, us, vs, rfl, hx, htail⟩ := h
    cases htail with
    | negatable _ h => cases h
    | value =>
      rw [List.append_nil]
      exact ⟨e.asPredicate, hx.asPredicate⟩

theorem optionalNot_iff {ts : List Token} : OptionalNot ts ↔ ∃ negated, NotWritten negated ts := by
  constructor
  · intro h
    rcases h with h | h
    · exact ⟨false, notWritten_false.mpr (kinds_eq_nil.mp h)⟩
    · obtain ⟨t, _, rfl, hk, h⟩ := kinds_eq_cons.mp h
      obtain rfl := kinds_eq_nil.mp h
      exact ⟨true, notWritten_true.mpr ⟨t, rfl, hk⟩⟩
  · intro h
    obtain ⟨negated, h⟩ := h
    cases negated with
    | false => exact .inl (kinds_eq_nil.mpr (notWritten_false.mp h))
    | true =>
      obtain ⟨t, rfl, hk⟩ := notWritten_true.mp h
      exact .inr (by simp [kinds, hk])

/-- A comparison is one of six symbols. -/
theorem comparison_isSome_iff {k : TokenKind} :
    (comparison? k).isSome = true ↔ k ∈ [.eq, .ne, .lt, .gt, .le, .ge].map TokenKind.symbol := by
  constructor
  · intro h
    obtain ⟨op, hop⟩ := Option.isSome_iff_exists.mp h
    obtain rfl := comparison_eq_some.mp hop
    cases op <;> decide
  · intro h
    simp only [List.map_cons, List.map_nil, List.mem_cons, List.not_mem_nil, or_false] at h
    rcases h with rfl | rfl | rfl | rfl | rfl | rfl <;> rfl

/-- A simple condition that is written is derivable. -/
theorem SimpleWritten.derives {n : Nat} {p : Predicate} {ts : List Token} (hts : Shaped ts)
    (h : SimpleWritten n p ts) : ConditionDerives representable n ts := by
  obtain ⟨x, us, vs, rfl, hx, htail⟩ := h
  obtain ⟨hus, hvs⟩ := shaped_append.mp hts
  have hx' := (exprDerives_iff hus).mpr ⟨x, hx⟩
  cases htail with
  | @compare op r o vs ho hr =>
    have hr' := (exprDerives_iff (shaped_cons.mp hvs).2).mpr ⟨r, hr⟩
    exact .comparison hx' (comparison_isSome_iff.mp (by rw [ho]; rfl)) hr'
  | isNull hi hn hw => exact .isNull hx' hi (optionalNot_iff.mpr ⟨_, hn⟩) hw
  | @negatable negated p ns vs hn h =>
    have hn' := optionalNot_iff.mpr ⟨negated, hn⟩
    have hvs' := (shaped_append.mp hvs).2
    cases h with
    | @between low high b a lo hi hb hlow ha hhigh =>
      obtain ⟨hlo, hhi⟩ := shaped_append.mp (shaped_cons.mp hvs').2
      exact .between hx' hn' hb ((exprDerives_iff hlo).mpr ⟨low, hlow⟩) ha
        ((exprDerives_iff (shaped_cons.mp hhi).2).mpr ⟨high, hhigh⟩)
    | like hl hs _ => exact .like hx' hn' hl hs
    | @inList values i o c vs hi ho hv hc =>
      have hvs'' := (shaped_append.mp (shaped_cons.mp (shaped_cons.mp hvs').2).2).1
      exact .inList hx' hn' hi ho ((separated_iff hvs'' exprDerives_iff).mpr ⟨values, hv⟩) hc
  | value =>
    rw [List.append_nil]
    exact .value hx'

/-- So are derivations of conditions. -/
theorem exists_written_of_conditionDerives {n : Nat} {ts : List Token} (hts : Shaped ts)
    (h : ConditionDerives representable n ts) : ∃ p : Predicate, p.Written n ts := by
  induction h with
  | connected _ ho _ ihl ihr =>
    obtain ⟨hts, hus⟩ := shaped_append.mp hts
    obtain ⟨l, hl⟩ := ihl hts
    obtain ⟨r, hr⟩ := ihr (shaped_cons.mp hus).2
    exact exists_written_connected hl ho hr
  | not ht _ ih =>
    obtain ⟨p, hp⟩ := ih (shaped_cons.mp hts).2
    exact exists_written_not ht hp
  | @paren n o c ts ho _ hc ih =>
    obtain ⟨p, hcan, hlex, hd, hs⟩ := ih (shaped_append.mp (shaped_cons.mp hts).2).1
    refine ⟨.paren p, hcan, hlex, Nat.succ_le_succ hd, ?_⟩
    simp only [Predicate.lexemes, spells_cons, spells_append, spells_nil, Lexeme.sign_spells]
    exact ⟨o, _, rfl, ho, ts, _, rfl, hs, c, _, rfl, hc, rfl⟩
  | @comparison n o ts us hl ho hr =>
    obtain ⟨hts, hus⟩ := shaped_append.mp hts
    obtain ⟨l, hl⟩ := (exprDerives_iff hts).mp hl
    obtain ⟨r, hr⟩ := (exprDerives_iff (shaped_cons.mp hus).2).mp hr
    obtain ⟨op, hop⟩ := Option.isSome_iff_exists.mp (comparison_isSome_iff.mpr ho)
    exact SimpleWritten.exists_written ⟨l, ts, o :: us, rfl, hl, .compare hop hr⟩
  | @isNull n i w ts ns hx hi hn hw =>
    obtain ⟨x, hx⟩ := (exprDerives_iff (shaped_append.mp hts).1).mp hx
    obtain ⟨negated, hn⟩ := optionalNot_iff.mp hn
    exact SimpleWritten.exists_written ⟨x, ts, _, rfl, hx, .isNull hi hn hw⟩
  | @between n b a ts ns us vs hx hn hb hl ha hr =>
    obtain ⟨hts, hrest⟩ := shaped_append.mp hts
    obtain ⟨hus, hvs⟩ := shaped_append.mp (shaped_cons.mp (shaped_append.mp hrest).2).2
    obtain ⟨x, hx⟩ := (exprDerives_iff hts).mp hx
    obtain ⟨low, hl⟩ := (exprDerives_iff hus).mp hl
    obtain ⟨high, hr⟩ := (exprDerives_iff (shaped_cons.mp hvs).2).mp hr
    obtain ⟨negated, hn⟩ := optionalNot_iff.mp hn
    exact SimpleWritten.exists_written ⟨x, ts, _, rfl, hx, .negatable hn (.between hb hl ha hr)⟩
  | @like n l s ts ns hx hn hl hs =>
    obtain ⟨hts, hrest⟩ := shaped_append.mp hts
    obtain ⟨x, hx⟩ := (exprDerives_iff hts).mp hx
    obtain ⟨negated, hn⟩ := optionalNot_iff.mp hn
    have hshape : s.kind.admits s.text = true :=
      (shaped_cons.mp (shaped_cons.mp (shaped_append.mp hrest).2).2).1
    rw [hs] at hshape
    exact SimpleWritten.exists_written ⟨x, ts, _, rfl, hx, .negatable hn (.like hl hs hshape)⟩
  | @inList n i o c ts ns us hx hn hi ho hv hc =>
    obtain ⟨hts, hrest⟩ := shaped_append.mp hts
    obtain ⟨x, hx⟩ := (exprDerives_iff hts).mp hx
    obtain ⟨negated, hn⟩ := optionalNot_iff.mp hn
    have hus := (shaped_append.mp
      (shaped_cons.mp (shaped_cons.mp (shaped_append.mp hrest).2).2).2).1
    obtain ⟨values, hv⟩ := (separated_iff hus exprDerives_iff).mp hv
    exact SimpleWritten.exists_written ⟨x, ts, _, rfl, hx, .negatable hn (.inList hi ho hv hc)⟩
  | @value n ts hx =>
    obtain ⟨x, hx⟩ := (exprDerives_iff hts).mp hx
    exact ⟨x.asPredicate, hx.asPredicate⟩

theorem conditionDerives_of_written {n : Nat} {p : Predicate} {ts : List Token} (hts : Shaped ts)
    (h : p.Written n ts) : ConditionDerives representable n ts := by
  induction p generalizing n ts with
  | logical op l r ihl ihr =>
    obtain ⟨hc, hl, hd, hs⟩ := h
    obtain ⟨us, o, vs, rfl, hls, ho, hrs⟩ := spells_logical.mp hs
    obtain ⟨hus, hvs⟩ := shaped_append.mp hts
    obtain ⟨hll, hlr⟩ := Bool.and_eq_true_iff.mp hl
    obtain ⟨hdl, hdr⟩ := Nat.max_le.mp hd
    have hcl : l.isCanonical = true ∧ r.isCanonical = true := by
      cases op <;> simp only [Predicate.isCanonical, Bool.and_eq_true] at hc <;> tauto
    refine .connected (ihl hus ⟨hcl.1, hll, hdl, hls⟩) ?_
      (ihr (shaped_cons.mp hvs).2 ⟨hcl.2, hlr, hdr, hrs⟩)
    rw [ho]
    cases op <;> decide
  | not p ih =>
    obtain ⟨hc, hl, hd, hs⟩ := h
    simp only [Predicate.isCanonical, Bool.and_eq_true] at hc
    simp only [Predicate.lexemes, spells_cons, Lexeme.word_spells] at hs
    obtain ⟨t, us, rfl, ht, hs⟩ := hs
    obtain ⟨m, rfl⟩ := Nat.exists_eq_add_of_le' (Nat.le_of_add_left_le hd)
    exact .not ht (ih (shaped_cons.mp hts).2 ⟨hc.1, hl, Nat.le_of_succ_le_succ hd, hs⟩)
  | paren p ih =>
    obtain ⟨hc, hl, hd, hs⟩ := h
    simp only [Predicate.lexemes, spells_cons, spells_append, spells_nil,
      Lexeme.sign_spells] at hs
    obtain ⟨o, _, rfl, ho, us, _, rfl, hs, c, _, rfl, hcp, rfl⟩ := hs
    obtain ⟨m, rfl⟩ := Nat.exists_eq_add_of_le' (Nat.le_of_add_left_le hd)
    have hus := (shaped_append.mp (shaped_cons.mp hts).2).1
    exact .paren ho (ih hus ⟨hc, hl, Nat.le_of_succ_le_succ hd, hs⟩) hcp
  | _ => exact (simpleWritten_of_written rfl h).derives hts

/-- **A condition is derivable exactly if it is written as some tree.** -/
theorem conditionDerives_iff {n : Nat} {ts : List Token} (hts : Shaped ts) :
    ConditionDerives representable n ts ↔ ∃ p : Predicate, p.Written n ts :=
  ⟨exists_written_of_conditionDerives hts, fun ⟨_, h⟩ => conditionDerives_of_written hts h⟩

/-! ## 5. Parts of clauses -/

theorem exists_image_iff {α β : Type} {f : α → β} {W : α → List Token → Prop} {ts : List Token} :
    (∃ y, Image f W y ts) ↔ ∃ x, W x ts := by
  constructor
  · intro h
    obtain ⟨_, x, hx, -⟩ := h
    exact ⟨x, hx⟩
  · intro h
    obtain ⟨x, hx⟩ := h
    exact ⟨f x, x, hx, rfl⟩

theorem behindWord_iff {α β : Type} {k : Keyword} {f : α → β} {W : α → List Token → Prop}
    {Rest : List Token → Prop} {ts : List Token} (hts : Shaped ts)
    (hrest : ∀ {us}, Shaped us → (Rest us ↔ ∃ x, W x us)) :
    BehindWord k Rest ts ↔ ∃ y, Behind k f W y ts := by
  constructor
  · intro h
    obtain ⟨w, us, rfl, hw, h⟩ := h
    obtain ⟨x, hx⟩ := (hrest (shaped_cons.mp hts).2).mp h
    exact ⟨f x, w, us, rfl, hw, x, hx, rfl⟩
  · intro h
    obtain ⟨_, w, us, rfl, hw, x, hx, -⟩ := h
    exact ⟨w, us, rfl, hw, (hrest (shaped_cons.mp hts).2).mpr ⟨x, hx⟩⟩

theorem nameDerives_iff {ts : List Token} (hts : Shaped ts) :
    kinds ts = [.identifier] ↔ ∃ n, NameWritten n ts := by
  constructor
  · intro h
    obtain ⟨t, _, rfl, hk, h⟩ := kinds_eq_cons.mp h
    obtain rfl := kinds_eq_nil.mp h
    exact ⟨t.text, t, rfl, isName_of_shaped (shaped_cons.mp hts).1 hk, rfl⟩
  · intro h
    obtain ⟨n, t, rfl, ht, -⟩ := h
    simp [kinds, ht.1]

theorem attributeDerives_iff {ts : List Token} (hts : Shaped ts) :
    AttributeDerives ts ↔ ∃ a, AttributeWritten a ts := by
  constructor
  · intro h
    rcases h with h | h
    · obtain ⟨s, _, rfl, hk, h⟩ := kinds_eq_cons.mp h
      obtain rfl := kinds_eq_nil.mp h
      exact ⟨.all, s, rfl, hk⟩
    · obtain ⟨c, hc⟩ := (columnDerives_iff hts).mp h
      exact ⟨.column c, hc⟩
  · intro h
    obtain ⟨a, h⟩ := h
    cases a with
    | all =>
      obtain ⟨s, rfl, hs⟩ := h
      exact .inl (by simp [kinds, hs])
    | column c => exact .inr ((columnDerives_iff hts).mpr ⟨c, h⟩)

theorem tableDerives_iff {ts : List Token} (hts : Shaped ts) :
    TableDerives ts ↔ ∃ r, TableWritten r ts := by
  constructor
  · intro h
    rcases h with h | h | h
    · obtain ⟨t, _, rfl, hk, h⟩ := kinds_eq_cons.mp h
      obtain rfl := kinds_eq_nil.mp h
      exact ⟨_, .plain (isName_of_shaped (shaped_cons.mp hts).1 hk)⟩
    · obtain ⟨t, _, rfl, hk, h⟩ := kinds_eq_cons.mp h
      obtain ⟨u, _, rfl, hu, h⟩ := kinds_eq_cons.mp h
      obtain rfl := kinds_eq_nil.mp h
      obtain ⟨ht, hts⟩ := shaped_cons.mp hts
      exact ⟨_, .renamed (isName_of_shaped ht hk) (isName_of_shaped (shaped_cons.mp hts).1 hu)⟩
    · obtain ⟨t, _, rfl, hk, h⟩ := kinds_eq_cons.mp h
      obtain ⟨a, _, rfl, ha, h⟩ := kinds_eq_cons.mp h
      obtain ⟨u, _, rfl, hu, h⟩ := kinds_eq_cons.mp h
      obtain rfl := kinds_eq_nil.mp h
      obtain ⟨ht, hts⟩ := shaped_cons.mp hts
      have hun := isName_of_shaped (shaped_cons.mp (shaped_cons.mp hts).2).1 hu
      exact ⟨_, .renamedAs (isName_of_shaped ht hk) ha hun⟩
  · intro h
    obtain ⟨r, h⟩ := h
    cases h with
    | plain ht => exact .inl (by simp [kinds, ht.1])
    | renamed ht hu => exact .inr (.inl (by simp [kinds, ht.1, hu.1]))
    | renamedAs ht ha hu => exact .inr (.inr (by simp [kinds, ht.1, ha, hu.1]))

theorem orderDerives_iff {ts : List Token} (hts : Shaped ts) :
    OrderDerives ts ↔ ∃ item, OrderWritten item ts := by
  constructor
  · intro h
    obtain ⟨us, ds, rfl, hc, hd⟩ := h
    obtain ⟨c, hc⟩ := (columnDerives_iff (shaped_append.mp hts).1).mp hc
    rcases hd with hd | hd | hd
    · obtain rfl := kinds_eq_nil.mp hd
      rw [List.append_nil]
      exact ⟨_, .plain hc⟩
    · obtain ⟨d, _, rfl, hk, h⟩ := kinds_eq_cons.mp hd
      obtain rfl := kinds_eq_nil.mp h
      exact ⟨_, .ascending hc hk⟩
    · obtain ⟨d, _, rfl, hk, h⟩ := kinds_eq_cons.mp hd
      obtain rfl := kinds_eq_nil.mp h
      exact ⟨_, .descending hc hk⟩
  · intro h
    obtain ⟨item, h⟩ := h
    cases h with
    | @plain c ts hc =>
      exact ⟨ts, [], by simp, (columnDerives_iff hts).mpr ⟨c, hc⟩, .inl rfl⟩
    | @ascending c us d hc hd =>
      have hc' := (columnDerives_iff (shaped_append.mp hts).1).mpr ⟨c, hc⟩
      exact ⟨us, [d], rfl, hc', .inr (.inl (by simp [kinds, hd]))⟩
    | @descending c us d hc hd =>
      have hc' := (columnDerives_iff (shaped_append.mp hts).1).mpr ⟨c, hc⟩
      exact ⟨us, [d], rfl, hc', .inr (.inr (by simp [kinds, hd]))⟩

theorem labelDerives_iff {label : Text} {ts : List Token} :
    LabelDerives label ts ↔ LabelWritten label ts := by
  constructor
  · intro h
    rcases h with rfl | ⟨t, e, rfl, hk, hl, he⟩
    · exact .absent
    · exact .present hk hl he
  · intro h
    rcases h with _ | ⟨hk, hl, he⟩
    · exact .inl rfl
    · exact .inr ⟨_, _, rfl, hk, hl, he⟩

/-- An integer token is in range exactly if it is read. -/
theorem intDerives_iff {t : Token} (ht : t.IsShaped) (hk : t.kind = .int) :
    inInt64 (signedValue false t) = true ↔ ∃ l, numberLiteral false t = .ok l := by
  constructor
  · intro h
    exact ((numberDerives_iff ht).mp (.int hk h)).2
  · intro h
    cases (numberDerives_iff ht).mpr ⟨.inl hk, h⟩ with
    | int _ h => exact h
    | decimal hk' _ =>
      rw [hk] at hk'
      cases hk'

theorem mineDerives_iff {ts : List Token} (hts : Shaped ts) :
    MineDerives ts ↔ ∃ d, MineWritten d ts := by
  constructor
  · intro h
    rcases h with ⟨w, ls, t, rfl, hw, hl, hk, hrange⟩ | ⟨w, rfl, hw⟩ | ⟨w, ls, t, rfl, hw, hl, hk⟩
    · have ht := (shaped_cons.mp (shaped_append.mp (shaped_cons.mp hts).2).2).1
      obtain ⟨l, hread⟩ := (intDerives_iff ht hk).mp hrange
      exact ⟨_, .clusters hw (labelDerives_iff.mp hl) hk hread⟩
    · obtain ⟨k, hk, e⟩ := List.mem_map.mp hw
      exact ⟨_, .plain hk e.symm⟩
    · have ht := (shaped_cons.mp (shaped_append.mp (shaped_cons.mp hts).2).2).1
      obtain ⟨k, hop, e⟩ := List.mem_map.mp hw
      exact ⟨_, .target hop e.symm (labelDerives_iff.mp hl) (isName_of_shaped ht hk)⟩
  · intro h
    obtain ⟨d, h⟩ := h
    cases h with
    | @clusters w t ls l hw hl hk hread =>
      have ht := (shaped_cons.mp (shaped_append.mp (shaped_cons.mp hts).2).2).1
      exact .inl ⟨w, ls, t, rfl, hw, labelDerives_iff.mpr hl, hk,
        (intDerives_iff ht hk).mpr ⟨l, hread⟩⟩
    | @plain k w hk hw => exact .inr (.inl ⟨w, rfl, List.mem_map.mpr ⟨k, hk, hw.symm⟩⟩)
    | @target k w t ls hk hw hl ht =>
      exact .inr (.inr ⟨w, ls, t, rfl, List.mem_map.mpr ⟨k, hk, hw.symm⟩,
        labelDerives_iff.mpr hl, ht.1⟩)

theorem measureDerives_iff {ts : List Token} (hts : Shaped ts) :
    MeasureDerives representable ts ↔ ∃ s, MeasureWritten s ts := by
  constructor
  · intro h
    obtain ⟨m, e, v, rfl, hm, hname, he, hv⟩ := h
    have hshape := (shaped_cons.mp (shaped_cons.mp (shaped_cons.mp hts).2).2).1
    obtain ⟨hk, l, hl⟩ := (numberDerives_iff hshape).mp hv
    exact ⟨_, .mk hm hname he hk hl⟩
  · intro h
    obtain ⟨s, h⟩ := h
    cases h with
    | @mk m e v l hm hname he hk hl =>
      have hshape := (shaped_cons.mp (shaped_cons.mp (shaped_cons.mp hts).2).2).1
      exact ⟨m, e, v, rfl, hm, hname, he, (numberDerives_iff hshape).mpr ⟨hk, l, hl⟩⟩

end Parse

open Parse

/-! ## 6. Statements -/

/-- **What stands behind the keyword of a clause is derivable exactly if it is written.** -/
theorem Clause.derives_iff {limit : Nat} {clause : Clause} {ts : List Token} (hts : Shaped ts) :
    clause.Derives representable limit ts ↔ ∃ content, clause.Written limit content ts := by
  cases clause with
  | database => exact behindWord_iff hts nameDerives_iff
  | relevance => exact behindWord_iff hts fun h => separated_iff h attributeDerives_iff
  | tables => exact (separated_iff hts tableDerives_iff).trans exists_image_iff.symm
  | condition => exact (conditionDerives_iff hts).trans exists_image_iff.symm
  | grouping => exact behindWord_iff hts fun h => separated_iff h attributeDerives_iff
  | ordering => exact behindWord_iff hts fun h => separated_iff h orderDerives_iff
  | mining => exact (mineDerives_iff hts).trans exists_image_iff.symm
  | measures => exact (separated_iff hts measureDerives_iff).trans exists_image_iff.symm
  | display => exact behindWord_iff hts nameDerives_iff

/-- Clauses in their order are derivable exactly if they are written. -/
theorem statementDerives_iff {limit : Nat} {clauses : List Clause} {ts : List Token}
    (hts : Shaped ts) :
    StatementDerives representable limit clauses ts ↔
      ∃ contents, StatementWritten limit clauses contents ts := by
  constructor
  · intro h
    induction h with
    | done hlast => exact ⟨[], .done hlast⟩
    | absent _ ih =>
      obtain ⟨contents, h⟩ := ih hts
      exact ⟨contents, .absent h⟩
    | present hw hbody _ ih =>
      obtain ⟨hbs, hrest⟩ := shaped_append.mp (shaped_cons.mp hts).2
      obtain ⟨content, hb⟩ := (Clause.derives_iff hbs).mp hbody
      obtain ⟨contents, h⟩ := ih hrest
      exact ⟨content :: contents, .present hw hb h⟩
  · intro h
    obtain ⟨contents, h⟩ := h
    induction h with
    | done hlast => exact .done hlast
    | absent _ ih => exact .absent (ih hts)
    | present hw hbody _ ih =>
      obtain ⟨hbs, hrest⟩ := shaped_append.mp (shaped_cons.mp hts).2
      exact .present hw ((Clause.derives_iff hbs).mpr ⟨_, hbody⟩) (ih hrest)

/-- **The readers accept exactly the grammar.** Under every limit of nesting a token list as a
    text gives it is read without a failure exactly if it is derivable, where the numbers with a
    point are those that the format can hold. -/
theorem accepts_iff_derives (limit : Nat) (ts : List Token) (hts : Shaped ts)
    (hend : EndsOnce ts) :
    (readStatement limit ts).failures = [] ↔
      StatementDerives representable limit Clause.all ts := by
  rw [statementDerives_iff hts]
  constructor
  · exact written_of_readStatement hts hend
  · intro h
    obtain ⟨contents, h⟩ := h
    rw [readStatement_of_written h]

/-- `FROM t WHERE NOT (a)` is accepted under two levels and, as the theorem says, not derivable
    under one. -/
theorem accepts_iff_derives_not_paren :
    let ts : List Token :=
      [⟨.keyword .FROM, ascii "FROM", .start⟩, ⟨.identifier, ascii "t", .start⟩,
        ⟨.keyword .WHERE, ascii "WHERE", .start⟩, ⟨.keyword .NOT, ascii "NOT", .start⟩,
        ⟨.symbol .openParen, ascii "(", .start⟩, ⟨.identifier, ascii "a", .start⟩,
        ⟨.symbol .closeParen, ascii ")", .start⟩, ⟨.endOfInput, [], .start⟩]
    Shaped ts ∧ EndsOnce ts ∧ StatementDerives representable 2 Clause.all ts ∧
      ¬ StatementDerives representable 1 Clause.all ts := by
  intro ts
  have hts : Shaped ts := by decide
  have hend : EndsOnce ts := ⟨ts.dropLast, _, rfl, rfl, by decide⟩
  refine ⟨hts, hend, (accepts_iff_derives 2 ts hts hend).mp (by decide), ?_⟩
  intro h
  have hread := (accepts_iff_derives 1 ts hts hend).mpr h
  exact absurd hread (by decide)

/-- The tokens of `WHERE a = 1000…0.0` with three hundred and nine zeros before the point: more
    than the format can hold. -/
def tooLarge : List Token :=
  [⟨.keyword .WHERE, ascii "WHERE", .start⟩, ⟨.identifier, ascii "a", .start⟩,
    ⟨.symbol .eq, ascii "=", .start⟩,
    ⟨.float, 49 :: List.replicate 309 48 ++ ascii ".0", .start⟩, ⟨.endOfInput, [], .start⟩]

/-- If every number with a point counted, the readers would not accept all of the grammar. -/
theorem not_accepts_every_decimal :
    ¬ ∀ (limit : Nat) (ts : List Token), Shaped ts → EndsOnce ts →
      ((readStatement limit ts).failures = [] ↔
        StatementDerives (fun _ => true) limit Clause.all ts) := by
  intro h
  have hshaped : Shaped tooLarge := by decide +kernel
  have hends : EndsOnce tooLarge := ⟨tooLarge.dropLast, _, rfl, rfl, by decide +kernel⟩
  have hderives : StatementDerives (fun _ => true) 1 Clause.all tooLarge := by
    have hcondition : Clause.condition.Derives (fun _ => true) 1 (tooLarge.tail.take 3) :=
      @ConditionDerives.comparison _ 1 _ [_] [_] (.column (.inl rfl)) (by decide)
        (.number (.decimal rfl rfl))
    have hend : StatementDerives (fun _ => true) 1
        [.grouping, .ordering, .mining, .measures, .display] (tooLarge.drop 4) :=
      .absent (.absent (.absent (.absent (.absent (.done rfl)))))
    exact .absent (.absent (.absent (.present rfl hcondition hend)))
  have hfailures := (h 1 tooLarge hshaped hends).mpr hderives
  have hread : (readStatement 1 tooLarge).failures.isEmpty = false := by decide +kernel
  rw [hfailures] at hread
  cases hread

end MiningQuery
