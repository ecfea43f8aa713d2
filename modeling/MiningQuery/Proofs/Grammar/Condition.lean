/-
  File:      MiningQuery/Proofs/Grammar/Condition.lean
  Subject:   Reading conditions is the inverse of printing them.

  A parenthesis may open a condition or a value. What decides is that an expression is also a
  condition, `Expr.asPredicate`: so the attempt at a condition always succeeds where a value
  stands in parentheses, and what follows the closing parenthesis tells the two apart.

  * `Expr.leading_paren` -- an expression that starts with a parenthesis starts with an expression
    in parentheses;
  * **`negation_reads`**, **`condition_reads`** -- the readers read exactly the written parts and
    conditions, inside an attempt and outside.
-/
import MiningQuery.Proofs.Grammar.Simple

namespace MiningQuery

/-! ## 1. Values that are conditions -/

/-- An expression as a condition: its outer parentheses group the condition. -/
def Expr.asPredicate : Expr → Predicate
  | paren e => .paren e.asPredicate
  | e => .value e

theorem Expr.asPredicate_of_not_paren {e : Expr} (h : e.isParen = false) :
    e.asPredicate = .value e := by
  cases e with
  | paren => cases h
  | _ => rfl

/-- The condition has the tokens of the expression. -/
theorem Expr.Written.asPredicate {n : Nat} {e : Expr} {ts : List Token} (h : e.Written n ts) :
    e.asPredicate.Written n ts := by
  induction e generalizing n ts with
  | paren e ih =>
    obtain ⟨hc, hl, hd, hs⟩ := h
    obtain ⟨o, us, c, rfl, ho, he, hk⟩ := Parse.spells_paren.mp hs
    obtain ⟨m, rfl⟩ : ∃ m, n = m + 1 := ⟨n - 1, by simp only [Expr.depth] at hd; omega⟩
    obtain ⟨hc', hl', hd', hs'⟩ := ih ⟨hc, hl, Nat.le_of_succ_le_succ hd, he⟩
    refine ⟨hc', hl', Nat.succ_le_succ hd', ?_⟩
    simp only [Expr.asPredicate, Predicate.lexemes, spells_cons, spells_append, spells_nil,
      Lexeme.sign_spells]
    exact ⟨o, _, rfl, ho, us, _, rfl, hs', c, _, rfl, hk, rfl⟩
  | _ =>
    rw [Expr.asPredicate_of_not_paren rfl]
    obtain ⟨hc, hl, hd, hs⟩ := h
    exact ⟨by simpa [Predicate.isCanonical, Expr.isParen] using hc, hl, hd, hs⟩

namespace Parse

/-- Does one of the four operators come next? -/
def OperatorFollows (ts : List Token) : Prop :=
  (additive? (kindOf ts)).isSome = true ∨ (multiplicative? (kindOf ts)).isSome = true

theorem OperatorFollows.continues {ts : List Token} (h : OperatorFollows ts) (rest : List Token) :
    continuesValue (ts ++ rest) = true := by
  obtain _ | ⟨t, us⟩ := ts
  · rcases h with h | h <;> cases h
  · rcases h with h | h
    · rw [kindOf_cons] at h
      simp [continuesValue, h]
    · rw [kindOf_cons] at h
      simp [continuesValue, h]

/-- **An expression that starts with a parenthesis starts with an expression in parentheses:** it
    is that one, or an operator follows. -/
theorem leading_paren {n : Nat} {x : Expr} {ts : List Token} (h : x.Written n ts)
    (hk : kindOf ts = .symbol .openParen) :
    ∃ m o e us c vs, n = m + 1 ∧ ts = o :: (us ++ c :: vs) ∧ o.kind = .symbol .openParen ∧
      e.Written m us ∧ c.kind = .symbol .closeParen ∧
      ((vs = [] ∧ x = .paren e) ∨ OperatorFollows vs) := by
  induction x generalizing ts with
  | arith op l r ihl _ =>
    obtain ⟨hc, hl, hd, hs⟩ := h
    obtain ⟨us, o, vs, rfl, hlt, ho, -⟩ := spells_arith.mp hs
    have hcl : l.isCanonical = true := by
      cases op <;> simp only [Expr.isCanonical, Bool.and_eq_true] at hc <;> tauto
    have hll : l.isLexical = true := (Bool.and_eq_true_iff.mp hl).1
    have hdl : l.depth ≤ n := (Nat.max_le.mp hd).1
    have hne : us ≠ [] := by
      obtain ⟨first, ls, e, -⟩ := lexemes_head l
      intro h
      subst h
      rw [e, spells_cons] at hlt
      obtain ⟨t, us, e', -⟩ := hlt
      cases e'
    have hk' : kindOf us = .symbol .openParen := by
      obtain ⟨t, us, rfl⟩ := List.exists_cons_of_ne_nil hne
      exact hk
    obtain ⟨m, p, e, ws, c, zs, rfl, rfl, hp, he, hcp, hzs⟩ := ihl ⟨hcl, hll, hdl, hlt⟩ hk'
    refine ⟨m, p, e, ws, c, zs ++ o :: vs, rfl, by simp, hp, he, hcp, .inr ?_⟩
    rcases hzs with ⟨rfl, -⟩ | hzs
    · rw [OperatorFollows, List.nil_append, kindOf_cons, ho]
      cases op <;> simp [ArithOp.symbol, additive?, multiplicative?]
    · obtain _ | ⟨z, zs⟩ := zs
      · rcases hzs with hzs | hzs <;> cases hzs
      · exact hzs
  | paren e =>
    obtain ⟨hc, hl, hd, hs⟩ := h
    obtain ⟨o, us, c, rfl, ho, he, hcp⟩ := spells_paren.mp hs
    obtain ⟨m, rfl⟩ : ∃ m, n = m + 1 := ⟨n - 1, by simp only [Expr.depth] at hd; omega⟩
    exact ⟨m, o, e, us, c, [], rfl, rfl, ho, ⟨hc, hl, Nat.le_of_succ_le_succ hd, he⟩, hcp,
      .inl ⟨rfl, rfl⟩⟩
  | literal l =>
    rcases literal_tokens h.lexical h.spells with
      (⟨t, rfl, ht | ht, -⟩ | ⟨t, u, rfl, ht, -⟩) | ⟨t, rfl, ht, -⟩ | ⟨t, rfl, ht, -⟩ <;>
    · rw [kindOf_cons, ht] at hk
      cases hk
  | column c =>
    have hs := h.spells
    obtain ⟨q, name⟩ := c
    cases q <;>
    · simp only [Expr.lexemes, ColumnRef.lexemes, spells_cons, Lexeme.exact_spells] at hs
      obtain ⟨t, us, rfl, ⟨ht, -⟩, -⟩ := hs
      rw [kindOf_cons, ht] at hk
      cases hk
  | aggregateAll f =>
    obtain ⟨t, o, s, c, rfl, ⟨ht, -⟩, -⟩ := spells_aggregateAll.mp h.spells
    rw [kindOf_cons, ht] at hk
    cases hk
  | aggregate f e =>
    obtain ⟨t, o, us, c, rfl, ⟨ht, -⟩, -⟩ := spells_aggregate.mp h.spells
    rw [kindOf_cons, ht] at hk
    cases hk

/-- Behind its subject a test goes on where no condition may end. -/
theorem TailWritten.continues {n : Nat} {x : Expr} {p : Predicate} {ts : List Token}
    (h : TailWritten n x p ts) (hp : p ≠ .value x) (rest : List Token) :
    continuesValue (ts ++ rest) = true := by
  cases h with
  | compare ho => simp [continuesValue, ho]
  | isNull hi => simp [continuesValue, hi]
  | @negatable negated _ ns us hns hu =>
    have hhead := hu.head rest
    cases negated with
    | false =>
      obtain rfl := notWritten_false.mp hns
      simp [continuesValue, hhead]
    | true =>
      obtain ⟨t, rfl, ht⟩ := notWritten_true.mp hns
      simp [continuesValue, ht, hhead]
  | value => exact absurd rfl hp

/-! ## 2. Conjunctions and disjunctions -/

/-- The tokens write a condition that is no bare conjunction or disjunction. -/
def NegationWritten (n : Nat) (p : Predicate) (ts : List Token) : Prop :=
  p.isLogical = false ∧ p.Written n ts

/-- The tokens write a condition that is no bare disjunction. -/
def ConjunctionWritten (n : Nat) (p : Predicate) (ts : List Token) : Prop :=
  p.isDisjunction = false ∧ p.Written n ts

theorem conjunctive_eq_some {k : TokenKind} {op : LogicOp} :
    conjunctive? k = some op ↔ op = .and ∧ k = .keyword op.keyword := by
  constructor
  · intro h
    unfold conjunctive? at h
    split at h <;> cases h
    exact ⟨rfl, rfl⟩
  · intro h
    obtain ⟨rfl, rfl⟩ := h
    rfl

theorem disjunctive_eq_some {k : TokenKind} {op : LogicOp} :
    disjunctive? k = some op ↔ op = .or ∧ k = .keyword op.keyword := by
  constructor
  · intro h
    unfold disjunctive? at h
    split at h <;> cases h
    exact ⟨rfl, rfl⟩
  · intro h
    obtain ⟨rfl, rfl⟩ := h
    rfl

/-- A connective is written between what it connects. -/
theorem spells_logical {op : LogicOp} {l r : Predicate} {ts : List Token} :
    Spells (Predicate.logical op l r).lexemes ts ↔
      ∃ us o vs, ts = us ++ o :: vs ∧ Spells l.lexemes us ∧ o.kind = .keyword op.keyword ∧
        Spells r.lexemes vs := by
  simp only [Predicate.lexemes, spells_append, spells_cons, Lexeme.word_spells]
  constructor
  · intro h
    obtain ⟨us, _, rfl, hl, o, vs, rfl, ho, hr⟩ := h
    exact ⟨us, o, vs, rfl, hl, ho, hr⟩
  · intro h
    obtain ⟨us, o, vs, rfl, hl, ho, hr⟩ := h
    exact ⟨us, _, rfl, hl, o, vs, rfl, ho, hr⟩

/-- **Conjunctions of parts are the conditions that are no bare disjunction.** -/
theorem chained_negation_iff {n : Nat} {p : Predicate} {ts : List Token} :
    Chained conjunctive? .logical (NegationWritten n) p ts ↔ ConjunctionWritten n p ts := by
  constructor
  · intro h
    induction h with
    | @one p ts h =>
      refine ⟨?_, h.2⟩
      cases p with
      | logical => cases h.1
      | _ => rfl
    | @more l r ts us o op _ ho hr ih =>
      obtain ⟨rfl, hk⟩ := conjunctive_eq_some.mp ho
      obtain ⟨hls, hlc, hll, hld, hlt⟩ := ih
      obtain ⟨hrs, hrc, hrl, hrd, hrt⟩ := hr
      refine ⟨rfl, ?_, ?_, ?_, spells_logical.mpr ⟨ts, o, us, rfl, hlt, hk, hrt⟩⟩
      · simp [Predicate.isCanonical, hlc, hrc, hls, hrs]
      · simp [Predicate.isLexical, hll, hrl]
      · exact Nat.max_le.mpr ⟨hld, hrd⟩
  · intro h
    induction p generalizing ts with
    | logical op l r ihl _ =>
      obtain ⟨hs, hc, hl, hd, ht⟩ := h
      cases op with
      | or => cases hs
      | and =>
        obtain ⟨us, o, vs, rfl, hlt, ho, hrt⟩ := spells_logical.mp ht
        simp only [Predicate.isCanonical, Bool.and_eq_true, Bool.not_eq_true'] at hc
        simp only [Predicate.isLexical, Bool.and_eq_true] at hl
        obtain ⟨hdl, hdr⟩ := Nat.max_le.mp hd
        refine .more (ihl ⟨hc.1.2, hc.1.1.1, hl.1, hdl, hlt⟩)
          (conjunctive_eq_some.mpr ⟨rfl, ho⟩) ?_
        exact ⟨hc.2, hc.1.1.2, hl.2, hdr, hrt⟩
    | _ => exact .one ⟨rfl, h.2⟩

/-- **Disjunctions of conjunctions are all conditions.** -/
theorem chained_conjunction_iff {n : Nat} {p : Predicate} {ts : List Token} :
    Chained disjunctive? .logical (ConjunctionWritten n) p ts ↔ p.Written n ts := by
  constructor
  · intro h
    induction h with
    | one h => exact h.2
    | @more l r ts us o op _ ho hr ih =>
      obtain ⟨rfl, hk⟩ := disjunctive_eq_some.mp ho
      obtain ⟨hlc, hll, hld, hlt⟩ := ih
      obtain ⟨hrs, hrc, hrl, hrd, hrt⟩ := hr
      refine ⟨?_, ?_, ?_, spells_logical.mpr ⟨ts, o, us, rfl, hlt, hk, hrt⟩⟩
      · simp [Predicate.isCanonical, hlc, hrc, hrs]
      · simp [Predicate.isLexical, hll, hrl]
      · exact Nat.max_le.mpr ⟨hld, hrd⟩
  · intro h
    induction p generalizing ts with
    | logical op l r ihl _ =>
      cases op with
      | and => exact .one ⟨rfl, h⟩
      | or =>
        obtain ⟨hc, hl, hd, ht⟩ := h
        obtain ⟨us, o, vs, rfl, hlt, ho, hrt⟩ := spells_logical.mp ht
        simp only [Predicate.isCanonical, Bool.and_eq_true, Bool.not_eq_true'] at hc
        simp only [Predicate.isLexical, Bool.and_eq_true] at hl
        obtain ⟨hdl, hdr⟩ := Nat.max_le.mp hd
        refine .more (ihl ⟨hc.1.1, hl.1, hdl, hlt⟩) (disjunctive_eq_some.mpr ⟨rfl, ho⟩) ?_
        exact ⟨hc.2, hc.1.2, hl.2, hdr, hrt⟩
    | _ => exact .one ⟨rfl, h⟩

/-- What may follow a condition. -/
def ConditionStop (rest : List Token) : Prop := kindOf rest ∈ conditionEnd

/-- A part of a condition ends where an `AND` follows. -/
theorem conjunctive_stop (o : Token) (ts : List Token) (h : (conjunctive? o.kind).isSome) :
    NegationStop (o :: ts) := by
  obtain ⟨op, hop⟩ := Option.isSome_iff_exists.mp h
  obtain ⟨rfl, hk⟩ := conjunctive_eq_some.mp hop
  rw [NegationStop, kindOf_cons, hk]
  decide

/-- A conjunction ends where an `OR` follows. -/
theorem disjunctive_stop (o : Token) (ts : List Token) (h : (disjunctive? o.kind).isSome) :
    NegationStop (o :: ts) ∧ conjunctive? (kindOf (o :: ts)) = none := by
  obtain ⟨op, hop⟩ := Option.isSome_iff_exists.mp h
  obtain ⟨rfl, hk⟩ := disjunctive_eq_some.mp hop
  rw [NegationStop, kindOf_cons, hk]
  decide

/-- If the parts are read, then so are the conjunctions. -/
theorem conjunction_reads {n : Nat} {item : Parse Predicate}
    (h : Reads item (NegationWritten n) NegationStop) :
    Reads (chain conjunctive? .logical item) (ConjunctionWritten n)
      (fun rest => NegationStop rest ∧ conjunctive? (kindOf rest) = none) :=
  (chain_reads h rfl conjunctive_stop).congr fun _ _ => chained_negation_iff

/-- **If the parts are read, then so are the conditions.** -/
theorem conditionOf_reads {n : Nat} {item : Parse Predicate}
    (h : Reads item (NegationWritten n) NegationStop) :
    Reads (conditionOf item) (Predicate.Written n) ConditionStop := by
  refine ((chain_reads (conjunction_reads h) rfl disjunctive_stop).congr
    fun _ _ => chained_conjunction_iff).mono fun rest hrest => ?_
  have hkinds : ∀ k ∈ conditionEnd, (k ∈ .keyword .AND :: .keyword .OR :: conditionEnd ∧
      conjunctive? k = none) ∧ disjunctive? k = none := by decide
  exact hkinds _ hrest

/-! ## 3. One level of nesting -/

/-- The readers of the parts inside, if there are any, read one level less, under an attempt or
    not. -/
def ReadsPartsInside (inner : Option (Bool → Parse Predicate)) (n : Nat) : Prop :=
  match inner with
  | none => n = 0
  | some negation =>
    ∃ m, n = m + 1 ∧ ∀ attempting, Reads (negation attempting) (NegationWritten m) NegationStop

/-- Inner readers are there for a condition that opens a level. -/
theorem ReadsPartsInside.exists_of_lt {inner : Option (Bool → Parse Predicate)} {n d : Nat}
    (h : ReadsPartsInside inner n) (hd : d + 1 ≤ n) :
    ∃ negation m, inner = some negation ∧ d ≤ m ∧ n = m + 1 ∧
      ∀ attempting, Reads (negation attempting) (NegationWritten m) NegationStop := by
  cases inner with
  | none =>
    have h0 : n = 0 := h
    omega
  | some negation =>
    obtain ⟨m, rfl, hr⟩ := h
    exact ⟨negation, m, rfl, by omega, rfl, hr⟩

theorem grouped_complete {item : Parse Predicate} {m : Nat}
    (h : Reads item (NegationWritten m) NegationStop) {p : Predicate} {ts rest : List Token}
    {c : Token} (hp : p.Written m ts) (hc : c.kind = .symbol .closeParen) :
    grouped item (ts ++ c :: rest) = .ok (p, rest) := by
  have hstop : ConditionStop (c :: rest) := by
    rw [ConditionStop, kindOf_cons, hc]
    decide
  rw [grouped, bind_of_ok ((conditionOf_reads h).complete hp hstop)]
  exact bind_of_ok (sign_cons hc rest)

theorem grouped_sound {item : Parse Predicate} {m : Nat}
    (h : Reads item (NegationWritten m) NegationStop) {p : Predicate} {ts rest : List Token}
    (hts : Shaped ts) (hp : grouped item ts = .ok (p, rest)) :
    ∃ read c, ts = read ++ c :: rest ∧ c.kind = .symbol .closeParen ∧ p.Written m read := by
  obtain ⟨q, mid, hq, hclose⟩ := bind_eq_ok hp
  obtain ⟨read, rfl, hw⟩ := (conditionOf_reads h).sound hts hq
  obtain ⟨c, mid', hc, hpure⟩ := bind_eq_ok hclose
  obtain ⟨rfl, rfl⟩ := pure_eq_ok hpure
  obtain ⟨rfl, hk⟩ := expect_eq_ok hc
  exact ⟨read, c, rfl, hk, hw⟩

section Step

variable {inner : Option (Bool → Parse Predicate)} {negation : Bool → Parse Predicate}
  {simple : Parse Predicate} {attempting : Bool} {p : Predicate} {o : Token}
  {ts rest : List Token}

/-- Without a parenthesis or a `NOT` the part is a simple condition. -/
theorem negationStep_simple (hnot : kindOf ts ≠ .keyword .NOT)
    (hparen : kindOf ts ≠ .symbol .openParen) :
    negationStep inner simple attempting ts = simple ts := by
  unfold negationStep
  split
  · exact absurd (by assumption) hnot
  · exact absurd (by assumption) hnot
  · exact absurd (by assumption) hparen
  · exact absurd (by assumption) hparen
  · rfl

theorem negationStep_grouped (ho : o.kind = .symbol .openParen)
    (hp : grouped (negation true) ts = .ok (p, rest)) (hrest : continuesValue rest = false) :
    negationStep (some negation) simple attempting (o :: ts) = .ok (.paren p, rest) := by
  simp [negationStep, kindOf_cons, ho, hp, hrest]

/-- Where a value goes on, the parenthesis opened that value. -/
theorem negationStep_value (ho : o.kind = .symbol .openParen)
    (hp : grouped (negation true) ts = .ok (p, rest)) (hrest : continuesValue rest = true) :
    negationStep (some negation) simple attempting (o :: ts) = simple (o :: ts) := by
  simp [negationStep, kindOf_cons, ho, hp, hrest]

end Step

/-- What starts with a parenthesis and is a simple condition goes on behind a closing one, up to
    which it is a condition as well. -/
theorem SimpleWritten.leading_group {n : Nat} {p : Predicate} {ts : List Token}
    (h : SimpleWritten n p ts) (hp : ∀ e, p = .value e → e.isParen = false)
    (hk : kindOf ts = .symbol .openParen) :
    ∃ m o us c vs, ∃ q : Predicate, n = m + 1 ∧ ts = o :: (us ++ c :: vs) ∧
      o.kind = .symbol .openParen ∧ q.Written m us ∧ c.kind = .symbol .closeParen ∧
      ∀ rest, continuesValue (vs ++ rest) = true := by
  obtain ⟨x, us, vs, rfl, hx, htail⟩ := h
  have hk' : kindOf us = .symbol .openParen := by
    obtain ⟨l, ls, e, -⟩ := lexemes_head x
    have hs := hx.spells
    rw [e, spells_cons] at hs
    obtain ⟨t, us, rfl, -⟩ := hs
    exact hk
  obtain ⟨m, o, e, ws, c, zs, rfl, rfl, ho, he, hc, hzs⟩ := leading_paren hx hk'
  refine ⟨m, o, ws, c, zs ++ vs, e.asPredicate, rfl, by simp, ho, he.asPredicate, hc, ?_⟩
  intro rest
  rw [List.append_assoc]
  rcases hzs with ⟨rfl, rfl⟩ | hzs
  · refine htail.continues ?_ rest
    intro h
    subst h
    cases hp _ rfl
  · exact hzs.continues _

/-- Where a simple condition is a bare value in parentheses, the attempt at a condition comes to
    the same end, and nothing goes on there. -/
theorem simple_paren {n : Nat} {inner : Option (Bool → Parse Predicate)}
    (h : ReadsPartsInside inner n) {e : Expr} {ts rest : List Token} (hts : Shaped ts)
    (he : simple n ts = .ok (.value e, rest)) (hparen : e.isParen = true) :
    ∃ negation q, inner = some negation ∧ kindOf ts = .symbol .openParen ∧
      grouped (negation true) ts.tail = .ok (q, rest) ∧ continuesValue rest = false := by
  obtain ⟨⟨read, rfl, hw⟩, hrest⟩ := simple_value hts he
  cases e with
  | paren e =>
    obtain ⟨hc, hl, hd, hs⟩ := hw
    obtain ⟨negation, m, rfl, hdm, rfl, hr⟩ := h.exists_of_lt hd
    obtain ⟨o, us, c, rfl, ho, he, hk⟩ := spells_paren.mp hs
    have hq : e.asPredicate.Written m us := Expr.Written.asPredicate ⟨hc, hl, hdm, he⟩
    have hread : grouped (negation true) (us ++ c :: rest) = .ok (e.asPredicate, rest) :=
      grouped_complete (hr true) hq hk
    refine ⟨negation, e.asPredicate, rfl, ho, ?_, hrest⟩
    simpa using hread
  | _ => cases hparen

/-- A condition that is not compound is read as a simple one, also where it starts with a
    parenthesis. -/
theorem negationStep_not_compound {n : Nat} {inner : Option (Bool → Parse Predicate)}
    (h : ReadsPartsInside inner n) (attempting : Bool) {p : Predicate} {ts rest : List Token}
    (hp : p.isCompound = false) (hw : p.Written n ts) (hrest : NegationStop rest) :
    negationStep inner (simple n) attempting (ts ++ rest) = .ok (p, rest) := by
  have hsimple := simpleWritten_of_written hp hw
  rw [← (simple_reads n).complete hsimple hrest]
  by_cases hk : kindOf ts = .symbol .openParen
  · have hvalue : ∀ e, p = .value e → e.isParen = false := by
      intro e he
      subst he
      have hc := hw.canonical
      simp only [Predicate.isCanonical, Bool.and_eq_true, Bool.not_eq_true'] at hc
      exact hc.2
    obtain ⟨m, o, us, c, vs, q, rfl, rfl, ho, hq, hc, hcont⟩ := hsimple.leading_group hvalue hk
    obtain ⟨negation, m', rfl, -, e, hr⟩ := h.exists_of_lt (Nat.succ_le_succ (Nat.zero_le m))
    obtain rfl := Nat.succ.inj e
    rw [List.cons_append, List.append_assoc, List.cons_append]
    exact negationStep_value ho (grouped_complete (hr true) hq hc) (hcont rest)
  · obtain ⟨t, us, rfl, ht⟩ : ∃ t us, ts = t :: us ∧ t.kind ∈ exprStart := by
      obtain ⟨x, us, vs, rfl, hx, -⟩ := hsimple
      have hstart := kindOf_spells hx.spells []
      rw [List.append_nil] at hstart
      obtain _ | ⟨t, us⟩ := us
      · exact absurd hstart (by decide)
      · exact ⟨t, us ++ vs, rfl, hstart⟩
    refine negationStep_simple ?_ hk
    rw [List.cons_append, kindOf_cons]
    intro hnot
    rw [hnot] at ht
    exact absurd ht (by decide)

section Level

variable {inner : Option (Bool → Parse Predicate)} {n : Nat} {p : Predicate} {ts rest : List Token}

theorem negationStep_complete (h : ReadsPartsInside inner n) (attempting : Bool)
    (hp : NegationWritten n p ts) (hrest : NegationStop rest) :
    negationStep inner (simple n) attempting (ts ++ rest) = .ok (p, rest) := by
  obtain ⟨hlogical, hw⟩ := hp
  cases p with
  | logical => cases hlogical
  | not p =>
    obtain ⟨hc, hl, hd, hs⟩ := hw
    obtain ⟨negation, m, rfl, hdm, rfl, hr⟩ := h.exists_of_lt hd
    simp only [Predicate.isCanonical, Bool.and_eq_true, Bool.not_eq_true'] at hc
    simp only [Predicate.lexemes, spells_cons, Lexeme.word_spells] at hs
    obtain ⟨t, us, rfl, ht, hs⟩ := hs
    simp only [List.cons_append, negationStep, kindOf_cons, ht, List.tail_cons]
    exact map_of_ok ((hr attempting).complete ⟨hc.2, hc.1, hl, hdm, hs⟩ hrest)
  | paren p =>
    obtain ⟨hc, hl, hd, hs⟩ := hw
    obtain ⟨negation, m, rfl, hdm, rfl, hr⟩ := h.exists_of_lt hd
    simp only [Predicate.lexemes, spells_cons, spells_append, spells_nil,
      Lexeme.sign_spells] at hs
    obtain ⟨o, _, rfl, ho, us, _, rfl, hs, c, _, rfl, hk, rfl⟩ := hs
    rw [List.cons_append, List.append_assoc]
    exact negationStep_grouped ho (grouped_complete (hr true) ⟨hc, hl, hdm, hs⟩ hk)
      hrest.not_continues
  | _ => exact negationStep_not_compound h attempting rfl hw hrest

/-- A simple condition is a part, unless it starts with a parenthesis behind which an attempt comes
    to its end and shows no value. -/
theorem simple_written (h : ReadsPartsInside inner n) (hts : Shaped ts)
    (hread : simple n ts = .ok (p, rest))
    (hattempt : ∀ negation q, inner = some negation → kindOf ts = .symbol .openParen →
      grouped (negation true) ts.tail = .ok (q, rest) → continuesValue rest = true) :
    ∃ read, ts = read ++ rest ∧ NegationWritten n p read := by
  obtain ⟨read, rfl, hw⟩ := (simple_reads n).sound hts hread
  refine ⟨read, rfl, ?_, hw.written ?_⟩
  · have hp := hw.not_compound
    cases p with
    | logical => cases hp
    | _ => rfl
  · intro e he
    subst he
    by_contra hparen
    rw [Bool.not_eq_false] at hparen
    obtain ⟨negation, q, hi, hk, hq, hcont⟩ := simple_paren h hts hread hparen
    rw [hattempt negation q hi hk hq] at hcont
    cases hcont

/-- What an attempt has read to its end is a part in parentheses. -/
theorem grouped_written {negation : Bool → Parse Predicate} {o : Token}
    (h : ReadsPartsInside (some negation) n) (hts : Shaped (o :: ts))
    (ho : o.kind = .symbol .openParen) (hread : grouped (negation true) ts = .ok (p, rest)) :
    ∃ read, o :: ts = read ++ rest ∧ NegationWritten n (.paren p) read := by
  obtain ⟨m, rfl, hr⟩ := h
  obtain ⟨read, c, rfl, hc, hw⟩ := grouped_sound (hr true) (shaped_cons.mp hts).2 hread
  refine ⟨o :: (read ++ [c]), by simp, rfl, hw.canonical, hw.lexical,
    Nat.succ_le_succ hw.depth_le, ?_⟩
  simp only [Predicate.lexemes, spells_cons, spells_append, spells_nil, Lexeme.sign_spells]
  exact ⟨o, _, rfl, ho, read, _, rfl, hw.spells, c, _, rfl, hc, rfl⟩

theorem negationStep_sound (h : ReadsPartsInside inner n) (attempting : Bool) (hts : Shaped ts)
    (hp : negationStep inner (simple n) attempting ts = .ok (p, rest)) :
    ∃ read, ts = read ++ rest ∧ NegationWritten n p read := by
  unfold negationStep at hp
  split at hp
  · rename_i negation hk
    obtain ⟨m, rfl, hr⟩ := h
    obtain ⟨t, us, rfl, ht⟩ := eq_cons_of_kindOf hk (by decide)
    obtain ⟨q, hq, rfl⟩ := map_eq_ok hp
    obtain ⟨read, rfl, hl, hw⟩ := (hr attempting).sound (shaped_cons.mp hts).2 hq
    refine ⟨t :: read, rfl, rfl, ?_, hw.lexical, Nat.succ_le_succ hw.depth_le, ?_⟩
    · simp [Predicate.isCanonical, hw.canonical, hl]
    · simpa [Predicate.lexemes, ht] using hw.spells
  · cases hp
  · cases hp
  · rename_i negation hk
    obtain ⟨o, us, rfl, ho⟩ := eq_cons_of_kindOf hk (by decide)
    split at hp
    · rename_i q mid hq
      split at hp
      · rename_i hcont
        refine simple_written h hts hp ?_
        intro negation' q' e _ hq'
        obtain rfl := Option.some.inj e
        rw [hq] at hq'
        cases hq'
        exact hcont
      · cases hp
        exact grouped_written h hts ho hq
    · rename_i f hf
      split at hp
      · cases hp
      · refine simple_written h hts hp ?_
        intro negation' q' e _ hq'
        obtain rfl := Option.some.inj e
        rw [hf] at hq'
        cases hq'
  · rename_i hnot hnot' hparen hparen'
    refine simple_written h hts hp ?_
    intro negation q e hk _
    subst e
    exact absurd rfl (hparen' negation hk)

/-- **The rule of one level reads the parts of that level.** -/
theorem negationStep_reads (h : ReadsPartsInside inner n) (attempting : Bool) :
    Reads (negationStep inner (simple n) attempting) (NegationWritten n) NegationStop where
  complete hp hrest := negationStep_complete h attempting hp hrest
  sound hts hread := negationStep_sound h attempting hts hread

end Level

/-! ## 4. All levels -/

/-- **Reading parts of conditions is the inverse of printing them, at every level.** -/
theorem negation_reads (n : Nat) (attempting : Bool) :
    Reads (negation n attempting) (NegationWritten n) NegationStop := by
  induction n generalizing attempting with
  | zero =>
    have e : negation 0 attempting = negationStep none (simple 0) attempting := by funext ts; rfl
    have hinside : ReadsPartsInside none 0 := rfl
    rw [e]
    exact negationStep_reads hinside attempting
  | succ n ih =>
    have e : negation (n + 1) attempting =
        negationStep (some (negation n)) (simple (n + 1)) attempting := by funext ts; rfl
    have hinside : ReadsPartsInside (some (negation n)) (n + 1) := ⟨n, rfl, ih⟩
    rw [e]
    exact negationStep_reads hinside attempting

/-- **Reading conditions is the inverse of printing them, at every level.** -/
theorem condition_reads (n : Nat) (attempting : Bool) :
    Reads (conditionOf (negation n attempting)) (Predicate.Written n) ConditionStop :=
  conditionOf_reads (negation_reads n attempting)

/-! ## 5. Printing and reading -/

/-- **Reading a condition inverts printing it.** Under a limit of levels, inside an attempt or
    outside, a canonical tree is read back from its tokens in order, whatever ends the condition,
    and exactly these tokens are used up. And every tree that is read is canonical and was
    printed as exactly the tokens that were used up. Token lists are as a text gives them. -/
theorem condition_inverts_printing (levels : Nat) (attempting : Bool) :
    (∀ (p : Predicate) (ts rest : List Token), p.isCanonical = true → p.isLexical = true →
      p.depth ≤ levels → Spells p.lexemes ts → kindOf rest ∈ conditionEnd →
        conditionOf (negation levels attempting) (ts ++ rest) = .ok (p, rest)) ∧
    (∀ (ts rest : List Token) (p : Predicate), Shaped ts →
      conditionOf (negation levels attempting) ts = .ok (p, rest) →
        p.isCanonical = true ∧ p.isLexical = true ∧ p.depth ≤ levels ∧
          ∃ read, ts = read ++ rest ∧ Spells p.lexemes read) ∧
    ∀ text : Text, Shaped (lex text).tokens := by
  refine ⟨?_, ?_, lex_shaped⟩
  · intro p ts rest hc hl hd hs hrest
    exact (condition_reads levels attempting).complete ⟨hc, hl, hd, hs⟩ hrest
  · intro ts rest p hts h
    obtain ⟨read, e, hc, hl, hd, hs⟩ := (condition_reads levels attempting).sound hts h
    exact ⟨hc, hl, hd, read, e, hs⟩

/-- `NOT (a or (b))`, which opens three levels, and a closing parenthesis behind it. -/
theorem condition_inverts_printing_not_or :
    let a : Expr := .column ⟨none, ascii "a"⟩
    let b : Expr := .column ⟨none, ascii "b"⟩
    let p : Predicate := .not (.paren (.logical .or (.value a) (.paren (.value b))))
    let ts : List Token :=
      [⟨.keyword .NOT, ascii "NOT", .start⟩, ⟨.symbol .openParen, ascii "(", .start⟩,
        ⟨.identifier, ascii "a", .start⟩, ⟨.keyword .OR, ascii "or", .start⟩,
        ⟨.symbol .openParen, ascii "(", .start⟩, ⟨.identifier, ascii "b", .start⟩,
        ⟨.symbol .closeParen, ascii ")", .start⟩, ⟨.symbol .closeParen, ascii ")", .start⟩]
    let rest : List Token := [⟨.symbol .closeParen, ascii ")", .start⟩]
    conditionOf (negation 3 false) (ts ++ rest) = .ok (p, rest) ∧
      (p.isCanonical = true ∧ p.isLexical = true ∧ p.depth ≤ 3 ∧
        ∃ read, ts ++ rest = read ++ rest ∧ Spells p.lexemes read) := by
  intro a b p ts rest
  have hread : conditionOf (negation 3 false) (ts ++ rest) = .ok (p, rest) :=
    (condition_inverts_printing 3 false).1 p ts rest (by decide) (by decide) (by decide)
      (by simp [p, ts, a, b, Predicate.lexemes, Expr.lexemes, ColumnRef.lexemes,
        LogicOp.keyword]) (by decide)
  exact ⟨hread, (condition_inverts_printing 3 false).2.1 (ts ++ rest) rest p (by decide) hread⟩

end Parse

end MiningQuery
