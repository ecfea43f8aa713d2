/-
  File:      MiningQuery/Proofs/Grammar/Expr.lean
  Subject:   Reading value expressions is the inverse of printing them.

  * `Expr.Written n e ts` -- the expression is canonical and lexical, nests at most `n` levels, and
    `ts` are its tokens;
  * **`factor_reads`**, **`expr_reads`** -- the readers read exactly the written factors and
    expressions;
  * `Expr.leading_paren` -- an expression that starts with a parenthesis starts with an expression
    in parentheses.
-/
import MiningQuery.Proofs.Grammar.Reads
import MiningQuery.Proofs.Tree.Canonical

namespace MiningQuery

/-! ## 1. Written expressions -/

/-- The tokens write the expression, which nests at most `n` levels. -/
structure Expr.Written (n : Nat) (e : Expr) (ts : List Token) : Prop where
  canonical : e.isCanonical = true
  lexical : e.isLexical = true
  depth_le : e.depth ≤ n
  spells : Spells e.lexemes ts

namespace Parse

/-- The tokens write an expression that is no bare operation. -/
def FactorWritten (n : Nat) (e : Expr) (ts : List Token) : Prop :=
  e.isArith = false ∧ e.Written n ts

/-- The tokens write an expression that is no bare sum. -/
def TermWritten (n : Nat) (e : Expr) (ts : List Token) : Prop :=
  e.isSum = false ∧ e.Written n ts

theorem multiplicative_eq_some {k : TokenKind} {op : ArithOp} :
    multiplicative? k = some op ↔ (op = .mul ∨ op = .div) ∧ k = .symbol op.symbol := by
  unfold multiplicative?
  split
  · cases op <;> simp [ArithOp.symbol]
  · cases op <;> simp [ArithOp.symbol]
  · rename_i h₁ h₂
    cases op <;> simp [ArithOp.symbol]
    · exact h₁
    · exact h₂

theorem additive_eq_some {k : TokenKind} {op : ArithOp} :
    additive? k = some op ↔ (op = .add ∨ op = .sub) ∧ k = .symbol op.symbol := by
  unfold additive?
  split
  · cases op <;> simp [ArithOp.symbol]
  · cases op <;> simp [ArithOp.symbol]
  · rename_i h₁ h₂
    cases op <;> simp [ArithOp.symbol]
    · exact h₁
    · exact h₂

/-- An operation is written as its operands and its sign, in this order. -/
theorem spells_arith {op : ArithOp} {l r : Expr} {ts : List Token} :
    Spells (Expr.arith op l r).lexemes ts ↔
      ∃ us o vs, ts = us ++ o :: vs ∧ Spells l.lexemes us ∧ o.kind = .symbol op.symbol ∧
        Spells r.lexemes vs := by
  simp only [Expr.lexemes, spells_append, spells_cons, Lexeme.sign_spells]
  constructor
  · intro h
    obtain ⟨us, _, rfl, hl, o, vs, rfl, ho, hr⟩ := h
    exact ⟨us, o, vs, rfl, hl, ho, hr⟩
  · intro h
    obtain ⟨us, o, vs, rfl, hl, ho, hr⟩ := h
    exact ⟨us, _, rfl, hl, o, vs, rfl, ho, hr⟩

/-- An expression in parentheses is written as it stands between them. -/
theorem spells_paren {e : Expr} {ts : List Token} :
    Spells (Expr.paren e).lexemes ts ↔
      ∃ o us c, ts = o :: (us ++ [c]) ∧ o.kind = .symbol .openParen ∧ Spells e.lexemes us ∧
        c.kind = .symbol .closeParen := by
  simp only [Expr.lexemes, spells_append, spells_cons, spells_nil, Lexeme.sign_spells]
  constructor
  · intro h
    obtain ⟨o, _, rfl, ho, us, _, rfl, he, c, _, rfl, hc, rfl⟩ := h
    exact ⟨o, us, c, rfl, ho, he, hc⟩
  · intro h
    obtain ⟨o, us, c, rfl, ho, he, hc⟩ := h
    exact ⟨o, _, rfl, ho, us, _, rfl, he, c, _, rfl, hc, rfl⟩

/-- An aggregate call is written as its name and its argument in parentheses. -/
theorem spells_aggregate {f : Text} {e : Expr} {ts : List Token} :
    Spells (Expr.aggregate f e).lexemes ts ↔
      ∃ t o us c, ts = t :: o :: (us ++ [c]) ∧ (t.kind = .identifier ∧ t.text = f) ∧
        o.kind = .symbol .openParen ∧ Spells e.lexemes us ∧ c.kind = .symbol .closeParen := by
  simp only [Expr.lexemes, spells_append, spells_cons, spells_nil, Lexeme.exact_spells,
    Lexeme.sign_spells]
  constructor
  · intro h
    obtain ⟨t, _, rfl, ht, o, _, rfl, ho, us, _, rfl, he, c, _, rfl, hc, rfl⟩ := h
    exact ⟨t, o, us, c, rfl, ht, ho, he, hc⟩
  · intro h
    obtain ⟨t, o, us, c, rfl, ht, ho, he, hc⟩ := h
    exact ⟨t, _, rfl, ht, o, _, rfl, ho, us, _, rfl, he, c, _, rfl, hc, rfl⟩

/-- A call for all rows is written as its name and a star in parentheses. -/
theorem spells_aggregateAll {f : Text} {ts : List Token} :
    Spells (Expr.aggregateAll f).lexemes ts ↔
      ∃ t o s c, ts = [t, o, s, c] ∧ (t.kind = .identifier ∧ t.text = f) ∧
        o.kind = .symbol .openParen ∧ s.kind = .symbol .star ∧ c.kind = .symbol .closeParen := by
  simp only [Expr.lexemes, spells_cons, spells_nil, Lexeme.exact_spells, Lexeme.sign_spells]
  constructor
  · intro h
    obtain ⟨t, _, rfl, ht, o, _, rfl, ho, s, _, rfl, hs, c, _, rfl, hc, rfl⟩ := h
    exact ⟨t, o, s, c, rfl, ht, ho, hs, hc⟩
  · intro h
    obtain ⟨t, o, s, c, rfl, ht, ho, hs, hc⟩ := h
    exact ⟨t, _, rfl, ht, o, _, rfl, ho, s, _, rfl, hs, c, _, rfl, hc, rfl⟩

/-- **Products of factors are the expressions that are no bare sum.** -/
theorem chained_factor_iff {n : Nat} {e : Expr} {ts : List Token} :
    Chained multiplicative? .arith (FactorWritten n) e ts ↔ TermWritten n e ts := by
  constructor
  · intro h
    induction h with
    | @one e ts h =>
      refine ⟨?_, h.2⟩
      cases e with
      | arith => cases h.1
      | _ => rfl
    | @more l r ts us o op _ ho hr ih =>
      obtain ⟨hop, hk⟩ := multiplicative_eq_some.mp ho
      obtain ⟨hls, hlc, hll, hld, hlt⟩ := ih
      obtain ⟨hrs, hrc, hrl, hrd, hrt⟩ := hr
      refine ⟨?_, ?_, ?_, ?_, spells_arith.mpr ⟨ts, o, us, rfl, hlt, hk, hrt⟩⟩
      · rcases hop with rfl | rfl <;> rfl
      · rcases hop with rfl | rfl <;> simp [Expr.isCanonical, hlc, hrc, hls, hrs]
      · simp [Expr.isLexical, hll, hrl]
      · exact Nat.max_le.mpr ⟨hld, hrd⟩
  · intro h
    induction e generalizing ts with
    | arith op l r ihl _ =>
      obtain ⟨hs, hc, hl, hd, ht⟩ := h
      have hop : op = .mul ∨ op = .div := by cases op <;> simp_all [Expr.isSum]
      obtain ⟨us, o, vs, rfl, hlt, ho, hrt⟩ := spells_arith.mp ht
      have hc' : l.isCanonical = true ∧ r.isCanonical = true ∧ l.isSum = false ∧
          r.isArith = false := by
        rcases hop with rfl | rfl <;> simpa [Expr.isCanonical, and_assoc] using hc
      simp only [Expr.isLexical, Bool.and_eq_true] at hl
      obtain ⟨hdl, hdr⟩ := Nat.max_le.mp hd
      refine .more (ihl ⟨hc'.2.2.1, hc'.1, hl.1, hdl, hlt⟩)
        (multiplicative_eq_some.mpr ⟨hop, ho⟩) ?_
      exact ⟨hc'.2.2.2, hc'.2.1, hl.2, hdr, hrt⟩
    | _ => exact .one ⟨rfl, h.2⟩

/-- **Sums of terms are all expressions.** -/
theorem chained_term_iff {n : Nat} {e : Expr} {ts : List Token} :
    Chained additive? .arith (TermWritten n) e ts ↔ e.Written n ts := by
  constructor
  · intro h
    induction h with
    | one h => exact h.2
    | @more l r ts us o op _ ho hr ih =>
      obtain ⟨hop, hk⟩ := additive_eq_some.mp ho
      obtain ⟨hlc, hll, hld, hlt⟩ := ih
      obtain ⟨hrs, hrc, hrl, hrd, hrt⟩ := hr
      refine ⟨?_, ?_, ?_, spells_arith.mpr ⟨ts, o, us, rfl, hlt, hk, hrt⟩⟩
      · rcases hop with rfl | rfl <;> simp [Expr.isCanonical, hlc, hrc, hrs]
      · simp [Expr.isLexical, hll, hrl]
      · exact Nat.max_le.mpr ⟨hld, hrd⟩
  · intro h
    induction e generalizing ts with
    | arith op l r ihl _ =>
      by_cases hs : (Expr.arith op l r).isSum = false
      · exact .one ⟨hs, h⟩
      · obtain ⟨hc, hl, hd, ht⟩ := h
        have hop : op = .add ∨ op = .sub := by cases op <;> simp_all [Expr.isSum]
        obtain ⟨us, o, vs, rfl, hlt, ho, hrt⟩ := spells_arith.mp ht
        have hc' : l.isCanonical = true ∧ r.isCanonical = true ∧ r.isSum = false := by
          rcases hop with rfl | rfl <;> simpa [Expr.isCanonical, and_assoc] using hc
        simp only [Expr.isLexical, Bool.and_eq_true] at hl
        obtain ⟨hdl, hdr⟩ := Nat.max_le.mp hd
        refine .more (ihl ⟨hc'.1, hl.1, hdl, hlt⟩) (additive_eq_some.mpr ⟨hop, ho⟩) ?_
        exact ⟨hc'.2.2, hc'.2.1, hl.2, hdr, hrt⟩
    | _ => exact .one ⟨rfl, h⟩

/-! ## 2. Numbers and columns -/

/-- The text of a number token starts with a digit and so with no minus sign. -/
theorem head_number {t : Token} (ht : t.IsShaped) (hk : t.kind = .int ∨ t.kind = .float) :
    ∃ b rest, t.text = b :: rest ∧ b ≠ 45 := by
  have hdigits : ∀ whole, isDigits whole = true → ∃ b rest, whole = b :: rest ∧ b ≠ 45 := by
    intro whole h
    obtain ⟨hne, hall⟩ := isDigits_iff.mp h
    obtain ⟨b, rest, rfl⟩ := List.exists_cons_of_ne_nil hne
    refine ⟨b, rest, rfl, ?_⟩
    intro h
    subst h
    exact absurd (hall 45 List.mem_cons_self) (by decide)
  unfold Token.IsShaped at ht
  rcases hk with hk | hk <;> rw [hk] at ht
  · exact hdigits _ ht
  · obtain ⟨whole, fraction, hw, -, e⟩ := isDecimal_iff.mp ht
    obtain ⟨b, rest, rfl, hb⟩ := hdigits whole hw
    exact ⟨b, rest ++ 46 :: fraction, e, hb⟩

theorem unsigned_of_ne {b : UInt8} {rest : Text} (hb : b ≠ 45) :
    unsigned (b :: rest) = b :: rest := by
  unfold unsigned
  split
  · rename_i e
    exact absurd (List.cons.inj e).1 hb
  · rfl

theorem signedLexemes_of_ne {kind : TokenKind} {b : UInt8} {rest : Text} (hb : b ≠ 45) :
    Literal.signedLexemes kind (b :: rest) = [.exact kind (b :: rest)] := by
  unfold Literal.signedLexemes
  split
  · rename_i e
    exact absurd (List.cons.inj e).1 hb
  · rfl

/-- **What a number token says, with its sign, is printed as the sign and the token.** -/
theorem numberLiteral_sound {negative : Bool} {t : Token} {l : Literal} (ht : t.IsShaped)
    (hk : t.kind = .int ∨ t.kind = .float) (h : numberLiteral negative t = .ok l) :
    l.isLexical = true ∧ l.lexemes =
      (if negative then [.sign .minus] else []) ++ [.exact t.kind t.text] := by
  obtain ⟨b, rest, e, hb⟩ := head_number ht hk
  have hu : unsigned ((if negative then ascii "-" else []) ++ t.text) = t.text := by
    cases negative
    · simp only [Bool.false_eq_true, if_false, List.nil_append, e, unsigned_of_ne hb]
    · rfl
  have hl : ∀ kind, Literal.signedLexemes kind ((if negative then ascii "-" else []) ++ t.text) =
      (if negative then [.sign .minus] else []) ++ [.exact kind t.text] := by
    intro kind
    cases negative
    · simp only [Bool.false_eq_true, if_false, List.nil_append, e, signedLexemes_of_ne hb]
    · rfl
  unfold numberLiteral at h
  unfold Token.IsShaped at ht
  rcases hk with hk | hk
  · rw [hk] at ht
    simp only [hk, if_true] at h
    split at h
    · rename_i i hi
      cases h
      refine ⟨?_, by rw [hk]; exact hl .int⟩
      simp only [Literal.isLexical, hu, hi, beq_self_eq_true, Bool.and_true]
      exact ht
    · cases h
  · rw [hk] at ht
    simp only [hk, reduceCtorEq, if_false] at h
    split at h
    · rename_i x hx
      cases h
      refine ⟨?_, by rw [hk]; exact hl .float⟩
      simp only [Literal.isLexical, hu, hx, beq_self_eq_true, Bool.and_true]
      exact ht
    · cases h

/-- The tokens of a number: one number token, or a minus sign and one. -/
def NumberWritten (l : Literal) (ts : List Token) : Prop :=
  (∃ t, ts = [t] ∧ (t.kind = .int ∨ t.kind = .float) ∧ numberLiteral false t = .ok l) ∨
    ∃ m t, ts = [m, t] ∧ m.kind = .symbol .minus ∧ (t.kind = .int ∨ t.kind = .float) ∧
      numberLiteral true t = .ok l

/-- **A constant that is printed as some tokens is what they say.** -/
theorem literal_tokens {l : Literal} (hl : l.isLexical = true) {ts : List Token}
    (hs : Spells l.lexemes ts) :
    NumberWritten l ts ∨ (∃ t, ts = [t] ∧ t.kind = .string ∧ l = .string t.text) ∨
      ∃ t, ts = [t] ∧ t.kind = .keyword .NULL ∧ l = .null t.text := by
  cases l with
  | null text =>
    simp only [Literal.lexemes, spells_cons, spells_nil, Lexeme.exact_spells] at hs
    obtain ⟨t, _, rfl, ⟨hk, rfl⟩, rfl⟩ := hs
    exact .inr (.inr ⟨t, rfl, hk, rfl⟩)
  | string text =>
    simp only [Literal.lexemes, spells_cons, spells_nil, Lexeme.exact_spells] at hs
    obtain ⟨t, _, rfl, ⟨hk, rfl⟩, rfl⟩ := hs
    exact .inr (.inl ⟨t, rfl, hk, rfl⟩)
  | int text i =>
    simp only [Literal.isLexical, Bool.and_eq_true, beq_iff_eq] at hl
    left
    simp only [Literal.lexemes] at hs
    unfold Literal.signedLexemes at hs
    split at hs
    · rename_i d
      simp only [spells_cons, spells_nil, Lexeme.exact_spells, Lexeme.sign_spells] at hs
      obtain ⟨m, _, rfl, hm, t, _, rfl, ⟨hk, rfl⟩, rfl⟩ := hs
      refine .inr ⟨m, t, rfl, hm, .inl hk, ?_⟩
      have e : (ascii "-" ++ t.text : Text) = 45 :: t.text := rfl
      simp only [numberLiteral, hk, if_true, e, hl.2]
    · simp only [spells_cons, spells_nil, Lexeme.exact_spells] at hs
      obtain ⟨t, _, rfl, ⟨hk, rfl⟩, rfl⟩ := hs
      refine .inl ⟨t, rfl, .inl hk, ?_⟩
      simp only [numberLiteral, hk, if_true, Bool.false_eq_true, if_false, List.nil_append, hl.2]
  | float text x =>
    simp only [Literal.isLexical, Bool.and_eq_true, beq_iff_eq] at hl
    left
    simp only [Literal.lexemes] at hs
    unfold Literal.signedLexemes at hs
    split at hs
    · rename_i d
      simp only [spells_cons, spells_nil, Lexeme.exact_spells, Lexeme.sign_spells] at hs
      obtain ⟨m, _, rfl, hm, t, _, rfl, ⟨hk, rfl⟩, rfl⟩ := hs
      refine .inr ⟨m, t, rfl, hm, .inr hk, ?_⟩
      have e : (ascii "-" ++ t.text : Text) = 45 :: t.text := rfl
      simp only [numberLiteral, hk, reduceCtorEq, if_true, if_false, e, hl.2]
    · simp only [spells_cons, spells_nil, Lexeme.exact_spells] at hs
      obtain ⟨t, _, rfl, ⟨hk, rfl⟩, rfl⟩ := hs
      refine .inl ⟨t, rfl, .inr hk, ?_⟩
      simp only [numberLiteral, hk, reduceCtorEq, Bool.false_eq_true, if_false, List.nil_append,
        hl.2]

theorem number_cons {negative : Bool} {t : Token} {l : Literal}
    (hk : t.kind = .int ∨ t.kind = .float) (h : numberLiteral negative t = .ok l)
    (rest : List Token) : number negative (t :: rest) = .ok (l, rest) := by
  simp only [number, hk, if_true, h]

theorem number_eq_ok {negative : Bool} {ts rest : List Token} {l : Literal}
    (h : number negative ts = .ok (l, rest)) :
    ∃ t, ts = t :: rest ∧ (t.kind = .int ∨ t.kind = .float) ∧ numberLiteral negative t = .ok l := by
  unfold number at h
  split at h
  · split at h
    · rename_i hk
      split at h
      · rename_i e
        cases h
        exact ⟨_, rfl, hk, e⟩
      · cases h
    · cases h
  · cases h

/-- The tokens write a column. -/
def ColumnWritten (c : ColumnRef) (ts : List Token) : Prop :=
  c.isLexical = true ∧ Spells c.lexemes ts

/-- **The reader of columns reads the written ones, unless a point follows.** -/
theorem columnRef_reads :
    Reads columnRef ColumnWritten (fun rest => kindOf rest ≠ .symbol .dot) where
  complete := by
    intro c ts rest h hrest
    obtain ⟨-, hs⟩ := h
    obtain ⟨q, n⟩ := c
    cases q with
    | none =>
      simp only [ColumnRef.lexemes, spells_cons, spells_nil, Lexeme.exact_spells] at hs
      obtain ⟨t, _, rfl, ⟨hk, rfl⟩, rfl⟩ := hs
      rw [List.cons_append, List.nil_append, columnRef, bind_of_ok (name_cons hk rest),
        bind_of_ok (accept_of_ne hrest)]
      rfl
    | some q =>
      simp only [ColumnRef.lexemes, spells_cons, spells_nil, Lexeme.exact_spells,
        Lexeme.sign_spells] at hs
      obtain ⟨t, _, rfl, ⟨hk, rfl⟩, d, _, rfl, hd, u, _, rfl, ⟨hu, rfl⟩, rfl⟩ := hs
      simp only [List.cons_append, List.nil_append]
      rw [columnRef, bind_of_ok (name_cons hk _), bind_of_ok (accept_cons hd _)]
      exact bind_of_ok (name_cons hu rest)
  sound := by
    intro ts c rest hts h
    obtain ⟨n, mid, hn, hcol⟩ := bind_eq_ok h
    obtain ⟨t, rfl, hk, rfl⟩ := name_eq_ok hn
    obtain ⟨ht, hmid⟩ := shaped_cons.mp hts
    have htn : isName t.text = true := by rw [isName, ← hk]; exact ht
    obtain ⟨b, mid', ha, hcol'⟩ := bind_eq_ok hcol
    rcases accept_eq_ok ha with ⟨rfl, d, rfl, hd⟩ | ⟨rfl, rfl⟩
    · obtain ⟨m, mid'', hm, hpure⟩ := bind_eq_ok hcol'
      obtain ⟨rfl, rfl⟩ := pure_eq_ok hpure
      obtain ⟨u, rfl, hu, rfl⟩ := name_eq_ok hm
      have hun : isName u.text = true := by
        rw [isName, ← hu]
        exact (shaped_cons.mp (shaped_cons.mp hmid).2).1
      refine ⟨[t, d, u], rfl, ?_, ?_⟩
      · simp [ColumnRef.isLexical, htn, hun]
      · simp [ColumnRef.lexemes, hk, hd, hu]
    · obtain ⟨rfl, rfl⟩ := pure_eq_ok hcol'
      refine ⟨[t], rfl, ?_, ?_⟩
      · simp [ColumnRef.isLexical, htn]
      · simp [ColumnRef.lexemes, hk]

/-! ## 3. Factors, terms, expressions -/

/-- What may follow a factor: no point and no opening parenthesis. -/
def FactorStop (rest : List Token) : Prop :=
  kindOf rest ≠ .symbol .dot ∧ kindOf rest ≠ .symbol .openParen

/-- What may follow an expression: none of its operators either. -/
def ExprStop (rest : List Token) : Prop :=
  (FactorStop rest ∧ multiplicative? (kindOf rest) = none) ∧ additive? (kindOf rest) = none

/-- A factor ends where the operator of a product follows. -/
theorem multiplicative_stop (o : Token) (ts : List Token) (h : (multiplicative? o.kind).isSome) :
    FactorStop (o :: ts) := by
  obtain ⟨op, hop⟩ := Option.isSome_iff_exists.mp h
  obtain ⟨hop, hk⟩ := multiplicative_eq_some.mp hop
  rcases hop with rfl | rfl <;> simp [FactorStop, hk, ArithOp.symbol]

/-- A term ends where the operator of a sum follows. -/
theorem additive_stop (o : Token) (ts : List Token) (h : (additive? o.kind).isSome) :
    FactorStop (o :: ts) ∧ multiplicative? (kindOf (o :: ts)) = none := by
  obtain ⟨op, hop⟩ := Option.isSome_iff_exists.mp h
  obtain ⟨hop, hk⟩ := additive_eq_some.mp hop
  rcases hop with rfl | rfl <;> simp [FactorStop, hk, ArithOp.symbol, multiplicative?]

/-- If the factors are read, then so are the terms. -/
theorem term_reads {n : Nat} {item : Parse Expr} (h : Reads item (FactorWritten n) FactorStop) :
    Reads (chain multiplicative? .arith item) (TermWritten n)
      (fun rest => FactorStop rest ∧ multiplicative? (kindOf rest) = none) :=
  (chain_reads h rfl multiplicative_stop).congr fun _ _ => chained_factor_iff

/-- **If the factors are read, then so are the expressions.** -/
theorem exprOf_reads {n : Nat} {item : Parse Expr} (h : Reads item (FactorWritten n) FactorStop) :
    Reads (exprOf item) (Expr.Written n) ExprStop :=
  (chain_reads (term_reads h) rfl additive_stop).congr fun _ _ => chained_term_iff

/-- An expression ends only where none of its operators follows. -/
theorem exprOf_ends {n : Nat} {item : Parse Expr} (h : Reads item (FactorWritten n) FactorStop)
    {e : Expr} {ts rest : List Token} (hts : Shaped ts) (he : exprOf item ts = .ok (e, rest)) :
    additive? (kindOf rest) = none ∧ multiplicative? (kindOf rest) = none :=
  ⟨chain_stops (term_reads h) rfl hts he,
    chain_ends (term_reads h) (fun hts' ht => chain_stops h rfl hts' ht) hts he⟩

/-- The reader of the factors inside, if there is one, reads one level less. -/
def ReadsInside (inner : Option (Parse Expr)) (n : Nat) : Prop :=
  match inner with
  | none => n = 0
  | some item => ∃ m, n = m + 1 ∧ Reads item (FactorWritten m) FactorStop

theorem closeParen_stop {c : Token} {ts : List Token} (hc : c.kind = .symbol .closeParen) :
    ExprStop (c :: ts) := by
  simp [ExprStop, FactorStop, hc, multiplicative?, additive?]

/-- An inner reader is there for an expression that opens a level. -/
theorem ReadsInside.exists_of_lt {inner : Option (Parse Expr)} {n d : Nat}
    (h : ReadsInside inner n) (hd : d + 1 ≤ n) :
    ∃ item m, inner = some item ∧ d ≤ m ∧ n = m + 1 ∧ Reads item (FactorWritten m) FactorStop := by
  cases inner with
  | none =>
    have h0 : n = 0 := h
    omega
  | some item =>
    obtain ⟨m, rfl, hr⟩ := h
    exact ⟨item, m, rfl, by omega, rfl, hr⟩

theorem parenthesized_complete {item : Parse Expr} {m : Nat}
    (h : Reads item (FactorWritten m) FactorStop) {e : Expr} {ts rest : List Token} {c : Token}
    (he : e.Written m ts) (hc : c.kind = .symbol .closeParen) :
    parenthesized item (ts ++ c :: rest) = .ok (.paren e, rest) := by
  rw [parenthesized, bind_of_ok ((exprOf_reads h).complete he (closeParen_stop hc))]
  exact bind_of_ok (sign_cons hc rest)

theorem parenthesized_sound {item : Parse Expr} {m : Nat}
    (h : Reads item (FactorWritten m) FactorStop) {x : Expr} {ts rest : List Token}
    (hts : Shaped ts) (hx : parenthesized item ts = .ok (x, rest)) :
    ∃ e read c, x = .paren e ∧ ts = read ++ c :: rest ∧ c.kind = .symbol .closeParen ∧
      e.Written m read := by
  obtain ⟨e, mid, he, hclose⟩ := bind_eq_ok hx
  obtain ⟨read, rfl, hw⟩ := (exprOf_reads h).sound hts he
  obtain ⟨c, mid', hc, hpure⟩ := bind_eq_ok hclose
  obtain ⟨rfl, rfl⟩ := pure_eq_ok hpure
  obtain ⟨rfl, hk⟩ := expect_eq_ok hc
  exact ⟨e, read, c, rfl, rfl, hk, hw⟩

/-- The kinds that an expression may start with. -/
def exprStart : List TokenKind := .symbol .minus :: factorStart

/-- An expression starts with one of these. -/
theorem lexemes_head (e : Expr) : ∃ l ls, e.lexemes = l :: ls ∧ l.kind ∈ exprStart := by
  have hexact : ∀ kind t, kind ∈ exprStart → (Lexeme.exact kind t).kind ∈ exprStart :=
    fun _ _ h => h
  induction e with
  | literal l =>
    cases l with
    | null t | string t => exact ⟨_, _, rfl, hexact _ t (by decide)⟩
    | int t | float t =>
      simp only [Expr.lexemes, Literal.lexemes]
      unfold Literal.signedLexemes
      split
      · exact ⟨_, _, rfl, by decide⟩
      · exact ⟨_, _, rfl, hexact _ t (by decide)⟩
  | column c =>
    obtain ⟨q, n⟩ := c
    cases q <;> exact ⟨_, _, rfl, hexact _ _ (by decide)⟩
  | aggregateAll f | aggregate f => exact ⟨_, _, rfl, hexact _ f (by decide)⟩
  | paren => exact ⟨_, _, rfl, by decide⟩
  | arith op l r ihl =>
    obtain ⟨first, ls, e, h⟩ := ihl
    exact ⟨first, _, by rw [Expr.lexemes, e]; rfl, h⟩

/-- The tokens of an expression start with one of these. -/
theorem kindOf_spells {e : Expr} {ts : List Token} (h : Spells e.lexemes ts)
    (rest : List Token) :
    kindOf (ts ++ rest) ∈ exprStart := by
  obtain ⟨l, ls, he, hl⟩ := lexemes_head e
  rw [he, spells_cons] at h
  obtain ⟨t, us, rfl, ht, -⟩ := h
  rw [List.cons_append, kindOf_cons, ht.1]
  exact hl

/-- No expression starts with a star. -/
theorem ne_star_of_spells {e : Expr} {ts : List Token} (h : Spells e.lexemes ts)
    (rest : List Token) : kindOf (ts ++ rest) ≠ .symbol .star := by
  intro hk
  have hmem := kindOf_spells h rest
  rw [hk] at hmem
  exact absurd hmem (by decide)

theorem aggregateCall_complete {item : Parse Expr} {m : Nat}
    (h : Reads item (FactorWritten m) FactorStop) {e : Expr} {ts rest : List Token} {c : Token}
    {f : Text} (he : e.Written m ts) (hc : c.kind = .symbol .closeParen) :
    aggregateCall f item (ts ++ c :: rest) = .ok (.aggregate f e, rest) := by
  rw [aggregateCall, bind_of_ok (accept_of_ne (ne_star_of_spells he.spells _))]
  exact (bind_of_ok ((exprOf_reads h).complete he (closeParen_stop hc))).trans
    (bind_of_ok (sign_cons hc rest))

theorem aggregateCall_sound {item : Parse Expr} {m : Nat}
    (h : Reads item (FactorWritten m) FactorStop) {x : Expr} {ts rest : List Token} {f : Text}
    (hts : Shaped ts) (hx : aggregateCall f item ts = .ok (x, rest)) :
    (x = .aggregateAll f ∧ ∃ s c, ts = s :: c :: rest ∧ s.kind = .symbol .star ∧
        c.kind = .symbol .closeParen) ∨
      ∃ e read c, x = .aggregate f e ∧ ts = read ++ c :: rest ∧ c.kind = .symbol .closeParen ∧
        e.Written m read := by
  obtain ⟨b, mid, hb, hcall⟩ := bind_eq_ok hx
  rcases accept_eq_ok hb with ⟨rfl, s, rfl, hs⟩ | ⟨rfl, rfl⟩
  · obtain ⟨c, mid', hc, hpure⟩ := bind_eq_ok hcall
    obtain ⟨rfl, rfl⟩ := pure_eq_ok hpure
    obtain ⟨rfl, hk⟩ := expect_eq_ok hc
    exact .inl ⟨rfl, s, c, rfl, hs, hk⟩
  · obtain ⟨e, mid, he, hclose⟩ := bind_eq_ok hcall
    obtain ⟨read, rfl, hw⟩ := (exprOf_reads h).sound hts he
    obtain ⟨c, mid', hc, hpure⟩ := bind_eq_ok hclose
    obtain ⟨rfl, rfl⟩ := pure_eq_ok hpure
    obtain ⟨rfl, hk⟩ := expect_eq_ok hc
    exact .inr ⟨e, read, c, rfl, rfl, hk, hw⟩

/-- A column is read as such, unless a point or, behind the name of an aggregate, a parenthesis
    follows. -/
theorem factorStep_column {inner : Option (Parse Expr)} {c : ColumnRef} {ts rest : List Token}
    (h : ColumnWritten c ts) (hrest : FactorStop rest) :
    factorStep inner (ts ++ rest) = .ok (.column c, rest) := by
  have hread := columnRef_reads.complete h hrest.1
  obtain ⟨t, us, rfl, hk, hparen⟩ : ∃ t us, ts = t :: us ∧ t.kind = .identifier ∧
      kindOf (us ++ rest) ≠ .symbol .openParen := by
    obtain ⟨-, hs⟩ := h
    obtain ⟨q, n⟩ := c
    cases q with
    | none =>
      simp only [ColumnRef.lexemes, spells_cons, spells_nil, Lexeme.exact_spells] at hs
      obtain ⟨t, _, rfl, ⟨hk, -⟩, rfl⟩ := hs
      exact ⟨t, [], rfl, hk, hrest.2⟩
    | some q =>
      simp only [ColumnRef.lexemes, spells_cons, Lexeme.exact_spells, Lexeme.sign_spells] at hs
      obtain ⟨t, _, rfl, ⟨hk, -⟩, d, us, rfl, hd, -⟩ := hs
      refine ⟨t, d :: us, rfl, hk, ?_⟩
      rw [List.cons_append, kindOf_cons, hd]
      decide
  rw [List.cons_append] at hread ⊢
  simp only [factorStep, hk, hparen, decide_false, Bool.and_false, Bool.false_eq_true, if_false]
  exact map_of_ok hread

/-- A number is a factor at every level. -/
theorem NumberWritten.factor {l : Literal} {ts : List Token} (h : NumberWritten l ts)
    (hts : Shaped ts) (n : Nat) : FactorWritten n (.literal l) ts := by
  rcases h with ⟨t, rfl, hk, hl⟩ | ⟨m, t, rfl, hm, hk, hl⟩
  · obtain ⟨ht, -⟩ := shaped_cons.mp hts
    obtain ⟨hlex, hs⟩ := numberLiteral_sound ht hk hl
    refine ⟨rfl, rfl, hlex, Nat.zero_le _, ?_⟩
    simp [Expr.lexemes, hs]
  · obtain ⟨ht, -⟩ := shaped_cons.mp (shaped_cons.mp hts).2
    obtain ⟨hlex, hs⟩ := numberLiteral_sound ht hk hl
    refine ⟨rfl, rfl, hlex, Nat.zero_le _, ?_⟩
    simp [Expr.lexemes, hs, hm]

/-- A constant is read at every level, whatever follows it. -/
theorem factorStep_literal {inner : Option (Parse Expr)} {l : Literal} {ts rest : List Token}
    (hlex : l.isLexical = true) (hs : Spells l.lexemes ts) :
    factorStep inner (ts ++ rest) = .ok (.literal l, rest) := by
  rcases literal_tokens hlex hs with
    (⟨t, rfl, hk, hl⟩ | ⟨m, t, rfl, hm, hk, hl⟩) | ⟨t, rfl, hk, rfl⟩ | ⟨t, rfl, hk, rfl⟩
  · have hn := number_cons hk hl rest
    rcases hk with hk | hk
    · simp only [List.cons_append, List.nil_append, factorStep, hk]
      exact map_of_ok hn
    · simp only [List.cons_append, List.nil_append, factorStep, hk]
      exact map_of_ok hn
  · have hnum : isNumber t.kind = true := by rcases hk with hk | hk <;> simp [isNumber, hk]
    simp only [List.cons_append, List.nil_append, factorStep, hm, kindOf_cons, hnum, if_true]
    exact map_of_ok (number_cons hk hl rest)
  · simp only [List.cons_append, List.nil_append, factorStep, hk]
  · simp only [List.cons_append, List.nil_append, factorStep, hk]

/-- What follows the name of an aggregate and a parenthesis is the rest of its call. -/
theorem aggregateCall_written {item : Parse Expr} {m : Nat}
    (hr : Reads item (FactorWritten m) FactorStop) {t o : Token} {us rest : List Token} {x : Expr}
    (hname : isName t.text = true) (hk : t.kind = .identifier) (hagg : isAggregate t.text = true)
    (ho : o.kind = .symbol .openParen) (hus : Shaped us)
    (h : aggregateCall t.text item us = .ok (x, rest)) :
    ∃ read, t :: o :: us = read ++ rest ∧ FactorWritten (m + 1) x read := by
  rcases aggregateCall_sound hr hus h with
    ⟨rfl, s, c, rfl, hs, hc⟩ | ⟨e, read, c, rfl, rfl, hc, hw⟩
  · refine ⟨[t, o, s, c], rfl, rfl, rfl, ?_, ?_, ?_⟩
    · simp [Expr.isLexical, hname, hagg]
    · exact Nat.succ_le_succ (Nat.zero_le m)
    · exact spells_aggregateAll.mpr ⟨t, o, s, c, rfl, ⟨hk, rfl⟩, ho, hs, hc⟩
  · refine ⟨t :: o :: (read ++ [c]), by simp, rfl, hw.canonical, ?_, ?_, ?_⟩
    · simp [Expr.isLexical, hname, hagg, hw.lexical]
    · exact Nat.succ_le_succ hw.depth_le
    · exact spells_aggregate.mpr ⟨t, o, read, c, rfl, ⟨hk, rfl⟩, ho, hw.spells, hc⟩

section Level

variable {inner : Option (Parse Expr)} {n : Nat} {e : Expr} {ts rest : List Token}

theorem factorStep_complete (h : ReadsInside inner n) (he : FactorWritten n e ts)
    (hrest : FactorStop rest) : factorStep inner (ts ++ rest) = .ok (e, rest) := by
  obtain ⟨ha, hcan, hlex, hd, hs⟩ := he
  cases e with
  | arith => cases ha
  | literal l => exact factorStep_literal hlex hs
  | column c => exact factorStep_column ⟨hlex, hs⟩ hrest
  | aggregateAll f =>
    obtain ⟨item, m, rfl, -, rfl, -⟩ := h.exists_of_lt hd
    obtain ⟨t, o, s, c, rfl, ⟨hk, rfl⟩, ho, hstar, hc⟩ := spells_aggregateAll.mp hs
    simp only [Expr.isLexical, Bool.and_eq_true] at hlex
    simp only [List.cons_append, List.nil_append, factorStep, hk, hlex.2, kindOf_cons, ho,
      decide_true, Bool.and_true, if_true, List.tail_cons]
    rw [aggregateCall, bind_of_ok (accept_cons hstar _)]
    exact bind_of_ok (sign_cons hc rest)
  | aggregate f e =>
    obtain ⟨item, m, rfl, hdm, rfl, hr⟩ := h.exists_of_lt hd
    obtain ⟨t, o, us, c, rfl, ⟨hk, rfl⟩, ho, he, hc⟩ := spells_aggregate.mp hs
    simp only [Expr.isLexical, Bool.and_eq_true] at hlex
    simp only [List.cons_append, List.append_assoc, List.nil_append, factorStep, hk, hlex.1.2,
      kindOf_cons, ho, decide_true, Bool.and_true, if_true, List.tail_cons]
    exact aggregateCall_complete hr ⟨hcan, hlex.2, hdm, he⟩ hc
  | paren e =>
    obtain ⟨item, m, rfl, hdm, rfl, hr⟩ := h.exists_of_lt hd
    obtain ⟨o, us, c, rfl, ho, he, hc⟩ := spells_paren.mp hs
    simp only [List.cons_append, List.append_assoc, List.nil_append, factorStep, ho]
    exact parenthesized_complete hr ⟨hcan, hlex, hdm, he⟩ hc

theorem factorStep_sound (h : ReadsInside inner n) (hts : Shaped ts)
    (hread : factorStep inner ts = .ok (e, rest)) :
    ∃ read, ts = read ++ rest ∧ FactorWritten n e read := by
  obtain _ | ⟨t, us⟩ := ts
  · cases hread
  obtain ⟨ht, hus⟩ := shaped_cons.mp hts
  simp only [factorStep] at hread
  split at hread
  iterate 2
    · obtain ⟨l, hl, rfl⟩ := map_eq_ok hread
      obtain ⟨u, e, hk, hn⟩ := number_eq_ok hl
      obtain ⟨rfl, rfl⟩ := List.cons.inj e
      have hw : NumberWritten l [t] := .inl ⟨t, rfl, hk, hn⟩
      exact ⟨[t], rfl, hw.factor (by simpa using ht) n⟩
  · rename_i hk
    cases hread
    refine ⟨[t], rfl, rfl, rfl, ?_, Nat.zero_le _, ?_⟩
    · exact (by rw [← hk]; exact ht : TokenKind.string.admits t.text = true)
    · simp [Expr.lexemes, Literal.lexemes, hk]
  · rename_i hk
    cases hread
    refine ⟨[t], rfl, rfl, rfl, ?_, Nat.zero_le _, ?_⟩
    · exact (by rw [← hk]; exact ht : (TokenKind.keyword .NULL).admits t.text = true)
    · simp [Expr.lexemes, Literal.lexemes, hk]
  · rename_i hm
    split at hread
    · obtain ⟨l, hl, rfl⟩ := map_eq_ok hread
      obtain ⟨u, rfl, hk, hn⟩ := number_eq_ok hl
      have hw : NumberWritten l [t, u] := .inr ⟨t, u, rfl, hm, hk, hn⟩
      refine ⟨[t, u], rfl, hw.factor ?_ n⟩
      simpa using ⟨ht, (shaped_cons.mp hus).1⟩
    · cases hread
  · rename_i hk
    split at hread
    · obtain ⟨m, rfl, hr⟩ := h
      obtain ⟨e, read, c, rfl, rfl, hc, hw⟩ := parenthesized_sound hr hus hread
      refine ⟨t :: (read ++ [c]), by simp, rfl, hw.canonical, hw.lexical, ?_, ?_⟩
      · exact Nat.succ_le_succ hw.depth_le
      · exact spells_paren.mpr ⟨t, read, c, rfl, hk, hw.spells, hc⟩
    · cases hread
  · rename_i hk
    have hname : isName t.text = true := by rw [isName, ← hk]; exact ht
    split at hread
    · rename_i hagg
      simp only [Bool.and_eq_true, decide_eq_true_eq] at hagg
      obtain ⟨o, us, rfl, ho⟩ := eq_cons_of_kindOf hagg.2 (by decide)
      split at hread
      · obtain ⟨m, rfl, hr⟩ := h
        exact aggregateCall_written hr hname hk hagg.1 ho (shaped_cons.mp hus).2 hread
      · cases hread
    · obtain ⟨c, hc, rfl⟩ := map_eq_ok hread
      obtain ⟨read, e, hlex, hs⟩ := columnRef_reads.sound hts hc
      exact ⟨read, e, rfl, rfl, hlex, Nat.zero_le _, hs⟩
  · cases hread

/-- **The rule of one level reads the factors of that level.** -/
theorem factorStep_reads (h : ReadsInside inner n) :
    Reads (factorStep inner) (FactorWritten n) FactorStop where
  complete he hrest := factorStep_complete h he hrest
  sound hts hread := factorStep_sound h hts hread

end Level

/-- **Reading factors is the inverse of printing them, at every level.** -/
theorem factor_reads (n : Nat) : Reads (factor n) (FactorWritten n) FactorStop := by
  induction n with
  | zero =>
    have e : factor 0 = factorStep none := by funext ts; rfl
    rw [e]
    exact factorStep_reads rfl
  | succ n ih =>
    have e : factor (n + 1) = factorStep (some (factor n)) := by funext ts; rfl
    rw [e]
    exact factorStep_reads ⟨n, rfl, ih⟩

/-- **Reading expressions is the inverse of printing them, at every level.** -/
theorem expr_reads (n : Nat) : Reads (expr n) (Expr.Written n) ExprStop :=
  exprOf_reads (factor_reads n)

end Parse

end MiningQuery
