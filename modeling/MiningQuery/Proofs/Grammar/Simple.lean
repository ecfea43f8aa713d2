/-
  File:      MiningQuery/Proofs/Grammar/Simple.lean
  Subject:   Reading simple conditions is the inverse of printing them.

  * `conditionEnd`, `NegationStop` -- what may follow a condition, and what may follow a part of
    one;
  * `TailWritten` -- the tokens behind the subject of a simple condition;
  * **`simple_reads`** -- the reader reads exactly the written simple conditions;
  * **`simpleWritten_of_written`**, `SimpleWritten.not_compound`, `SimpleWritten.written` -- these
    are the conditions without a connective, `NOT` or parentheses around them, and the values in
    parentheses.
-/
import MiningQuery.Proofs.Grammar.Expr
import MiningQuery.Tree.Statement

namespace MiningQuery

/-- The tokens write the condition, which nests at most `n` levels. -/
structure Predicate.Written (n : Nat) (p : Predicate) (ts : List Token) : Prop where
  canonical : p.isCanonical = true
  lexical : p.isLexical = true
  depth_le : p.depth ≤ n
  spells : Spells p.lexemes ts

/-- A condition has a token. -/
theorem Predicate.lexemes_ne_nil (p : Predicate) : p.lexemes ≠ [] := by
  have hexpr : ∀ (e : Expr) (ls : List Lexeme), e.lexemes ++ ls ≠ [] := by
    intro e ls h
    obtain ⟨l, ms, he, -⟩ := Parse.lexemes_head e
    rw [he] at h
    cases h
  cases p with
  | value e =>
    have hne := hexpr e []
    rwa [List.append_nil] at hne
  | compare | between | like | isNull | inList => exact hexpr _ _
  | not | paren => exact List.cons_ne_nil _ _
  | logical => simp [Predicate.lexemes]

namespace Parse

/-! ## 1. What may follow -/

/-- What may follow a condition: the end of the input, a closing parenthesis, or the keyword of a
    clause. -/
def conditionEnd : List TokenKind :=
  .endOfInput :: .symbol .closeParen :: Clause.all.map fun c => .keyword c.keyword

/-- A connective may follow a part of a condition as well. -/
def NegationStop (rest : List Token) : Prop :=
  kindOf rest ∈ .keyword .AND :: .keyword .OR :: conditionEnd

/-- What may follow a part of a condition does not go on with a value. -/
theorem NegationStop.exprStop {rest : List Token} (h : NegationStop rest) : ExprStop rest := by
  have hkinds : ∀ k ∈ (.keyword .AND :: .keyword .OR :: conditionEnd : List TokenKind),
      ((k ≠ .symbol .dot ∧ k ≠ .symbol .openParen) ∧ multiplicative? k = none) ∧
        additive? k = none := by decide
  exact hkinds _ h

theorem NegationStop.comparison {rest : List Token} (h : NegationStop rest) :
    comparison? (kindOf rest) = none := by
  have hkinds : ∀ k ∈ (.keyword .AND :: .keyword .OR :: conditionEnd : List TokenKind),
      comparison? k = none := by decide
  exact hkinds _ h

theorem NegationStop.ne {rest : List Token} (h : NegationStop rest) :
    kindOf rest ≠ .keyword .IS ∧ kindOf rest ≠ .keyword .NOT ∧ kindOf rest ∉ negatable := by
  have hkinds : ∀ k ∈ (.keyword .AND :: .keyword .OR :: conditionEnd : List TokenKind),
      k ≠ .keyword .IS ∧ k ≠ .keyword .NOT ∧ k ∉ negatable := by decide
  exact hkinds _ h

/-- What may follow a part of a condition shows that a closed parenthesis closed no value. -/
theorem NegationStop.not_continues {rest : List Token} (h : NegationStop rest) :
    continuesValue rest = false := by
  obtain ⟨⟨-, hmul⟩, hadd⟩ := h.exprStop
  obtain ⟨his, hnot, hneg⟩ := h.ne
  simp [continuesValue, h.comparison, hadd, hmul, his, hnot, hneg]

/-! ## 2. Behind the subject -/

/-- The tokens of the `NOT` before a test that can be negated. -/
def NotWritten (negated : Bool) (ts : List Token) : Prop :=
  Spells (Predicate.notLexemes negated) ts

theorem notWritten_false {ts : List Token} : NotWritten false ts ↔ ts = [] := spells_nil

theorem notWritten_true {ts : List Token} :
    NotWritten true ts ↔ ∃ t, ts = [t] ∧ t.kind = .keyword .NOT := by
  simp only [NotWritten, Predicate.notLexemes, if_true, spells_cons, spells_nil,
    Lexeme.word_spells]
  constructor
  · intro h
    obtain ⟨t, _, rfl, hk, rfl⟩ := h
    exact ⟨t, rfl, hk⟩
  · intro h
    obtain ⟨t, rfl, hk⟩ := h
    exact ⟨t, [], rfl, hk, rfl⟩

/-- The tokens of a test that can be negated, behind its subject and its `NOT`. -/
inductive NegatableWritten (n : Nat) (negated : Bool) (x : Expr) : Predicate → List Token → Prop
  | between {low high : Expr} {b a : Token} {us vs : List Token} :
      b.kind = .keyword .BETWEEN → low.Written n us → a.kind = .keyword .AND →
      high.Written n vs →
      NegatableWritten n negated x (.between negated x low high) (b :: (us ++ a :: vs))
  | like {l s : Token} :
      l.kind = .keyword .LIKE → s.kind = .string → isQuoted s.text = true →
      NegatableWritten n negated x (.like negated x s.text) [l, s]
  | inList {values : List Expr} {i o c : Token} {us : List Token} :
      i.kind = .keyword .IN → o.kind = .symbol .openParen → Listed (Expr.Written n) values us →
      c.kind = .symbol .closeParen →
      NegatableWritten n negated x (.inList negated x values) (i :: o :: (us ++ [c]))

/-- The tokens of a simple condition behind its subject. -/
inductive TailWritten (n : Nat) (x : Expr) : Predicate → List Token → Prop
  | compare {op : CompareOp} {r : Expr} {o : Token} {us : List Token} :
      comparison? o.kind = some op → r.Written n us →
      TailWritten n x (.compare op x r) (o :: us)
  | isNull {negated : Bool} {i w : Token} {ns : List Token} :
      i.kind = .keyword .IS → NotWritten negated ns → w.kind = .keyword .NULL →
      TailWritten n x (.isNull negated x) (i :: (ns ++ [w]))
  | negatable {negated : Bool} {p : Predicate} {ns us : List Token} :
      NotWritten negated ns → NegatableWritten n negated x p us → TailWritten n x p (ns ++ us)
  | value : TailWritten n x (.value x) []

/-- A test that can be negated starts with its word. -/
theorem NegatableWritten.head {n : Nat} {negated : Bool} {x : Expr} {p : Predicate}
    {ts : List Token} (h : NegatableWritten n negated x p ts) (rest : List Token) :
    kindOf (ts ++ rest) ∈ negatable := by
  cases h with
  | between h | like h | inList h =>
    rw [List.cons_append, kindOf_cons, h]
    decide

/-- The values of a list are followed by commas and, in the end, by a parenthesis. -/
theorem values_reads (n : Nat) :
    Reads (commaList (expr n)) (Listed (Expr.Written n))
      (fun rest => ExprStop rest ∧ kindOf rest ≠ .symbol .comma) :=
  commaList_reads (expr_reads n) fun c ts hc => by
    simp [ExprStop, FactorStop, hc, multiplicative?, additive?]

theorem negatableTail_complete {n : Nat} {negated : Bool} {x : Expr} {p : Predicate}
    {ts rest : List Token} (h : NegatableWritten n negated x p ts) (hrest : NegationStop rest) :
    negatableTail (expr n) negated x (ts ++ rest) = .ok (p, rest) := by
  cases h with
  | @between low high b a us vs hb hl ha hh =>
    have hstop : ExprStop (a :: (vs ++ rest)) := by
      simp [ExprStop, FactorStop, ha, multiplicative?, additive?]
    simp only [List.cons_append, List.append_assoc, negatableTail, kindOf_cons, hb,
      List.tail_cons]
    rw [between, bind_of_ok ((expr_reads n).complete hl hstop), bind_of_ok (word_cons ha _)]
    exact bind_of_ok ((expr_reads n).complete hh hrest.exprStop)
  | like hl hs =>
    simp only [List.cons_append, List.nil_append, negatableTail, kindOf_cons, hl, List.tail_cons]
    exact bind_of_ok (expect_cons hs rest)
  | @inList values i o c us hi ho hv hc =>
    have hstop : ExprStop (c :: rest) ∧ kindOf (c :: rest) ≠ .symbol .comma :=
      ⟨closeParen_stop hc, by simp [hc]⟩
    simp only [List.cons_append, List.append_assoc, List.nil_append, negatableTail, kindOf_cons,
      hi, List.tail_cons]
    rw [inList, bind_of_ok (sign_cons ho _), bind_of_ok ((values_reads n).complete hv hstop)]
    exact bind_of_ok (sign_cons hc rest)

theorem negatableTail_sound {n : Nat} {negated : Bool} {x : Expr} {p : Predicate}
    {ts rest : List Token} (hts : Shaped ts) (hk : kindOf ts ∈ negatable)
    (h : negatableTail (expr n) negated x ts = .ok (p, rest)) :
    ∃ read, ts = read ++ rest ∧ NegatableWritten n negated x p read := by
  obtain ⟨b, us, rfl⟩ : ∃ b us, ts = b :: us := by
    obtain _ | ⟨b, us⟩ := ts
    · exact absurd hk (by decide)
    · exact ⟨b, us, rfl⟩
  obtain ⟨-, hus⟩ := shaped_cons.mp hts
  simp only [negatable, kindOf_cons, List.mem_cons, List.not_mem_nil, or_false] at hk
  rcases hk with hb | hb | hb
  · simp only [negatableTail, kindOf_cons, hb, List.tail_cons] at h
    obtain ⟨low, mid, hlow, h₁⟩ := bind_eq_ok h
    obtain ⟨lows, rfl, hl⟩ := (expr_reads n).sound hus hlow
    obtain ⟨a, mid', ha, h₂⟩ := bind_eq_ok h₁
    obtain ⟨rfl, hk⟩ := expect_eq_ok ha
    have hmid := (shaped_cons.mp (shaped_append.mp hus).2).2
    obtain ⟨high, mid'', hhigh, h₃⟩ := bind_eq_ok h₂
    obtain ⟨highs, rfl, hh⟩ := (expr_reads n).sound hmid hhigh
    obtain ⟨rfl, rfl⟩ := pure_eq_ok h₃
    exact ⟨b :: (lows ++ a :: highs), by simp, .between hb hl hk hh⟩
  · simp only [negatableTail, kindOf_cons, hb, List.tail_cons] at h
    obtain ⟨s, mid, hs, h₁⟩ := bind_eq_ok h
    obtain ⟨rfl, hk⟩ := expect_eq_ok hs
    obtain ⟨rfl, rfl⟩ := pure_eq_ok h₁
    have hshape : s.IsShaped := (shaped_cons.mp hus).1
    have hquoted : isQuoted s.text = true := by
      unfold Token.IsShaped at hshape
      rwa [hk] at hshape
    exact ⟨[b, s], rfl, .like hb hk hquoted⟩
  · simp only [negatableTail, kindOf_cons, hb, List.tail_cons] at h
    obtain ⟨o, mid, ho, h₁⟩ := bind_eq_ok h
    obtain ⟨rfl, hk⟩ := expect_eq_ok ho
    obtain ⟨values, mid', hv, h₂⟩ := bind_eq_ok h₁
    obtain ⟨vs, rfl, hl⟩ := (values_reads n).sound (shaped_cons.mp hus).2 hv
    obtain ⟨c, mid'', hc, h₃⟩ := bind_eq_ok h₂
    obtain ⟨rfl, hkc⟩ := expect_eq_ok hc
    obtain ⟨rfl, rfl⟩ := pure_eq_ok h₃
    exact ⟨b :: o :: (vs ++ [c]), by simp, .inList hb hk hl hkc⟩

/-- Where no test follows, the subject is the condition. -/
theorem negatableTail_value {expr : Parse Expr} {negated : Bool} {x : Expr} {ts : List Token}
    (hk : kindOf ts ∉ negatable) : negatableTail expr negated x ts = .ok (.value x, ts) := by
  unfold negatableTail
  split
  · rename_i e
    exact absurd (by rw [e]; decide) hk
  · rename_i e
    exact absurd (by rw [e]; decide) hk
  · rename_i e
    exact absurd (by rw [e]; decide) hk
  · rfl

/-- Behind `IS` the reader finds the `NOT` that is written there, and `NULL`. -/
theorem isNull_complete {negated : Bool} {x : Expr} {ns rest : List Token} {w : Token}
    (hns : NotWritten negated ns) (hw : w.kind = .keyword .NULL) :
    isNull x (ns ++ w :: rest) = .ok (.isNull negated x, rest) := by
  have hnot : accept (.keyword .NOT) (ns ++ w :: rest) = .ok (negated, w :: rest) := by
    cases negated with
    | false =>
      obtain rfl := notWritten_false.mp hns
      exact accept_of_ne (by simp [hw])
    | true =>
      obtain ⟨t, rfl, ht⟩ := notWritten_true.mp hns
      exact accept_cons ht _
  rw [isNull, bind_of_ok hnot]
  exact bind_of_ok (word_cons hw rest)

theorem isNull_sound {x : Expr} {p : Predicate} {ts rest : List Token}
    (h : isNull x ts = .ok (p, rest)) :
    ∃ negated ns w, ts = ns ++ w :: rest ∧ NotWritten negated ns ∧ w.kind = .keyword .NULL ∧
      p = .isNull negated x := by
  obtain ⟨negated, mid, hnot, h₁⟩ := bind_eq_ok h
  obtain ⟨w, mid', hw, h₂⟩ := bind_eq_ok h₁
  obtain ⟨rfl, hk⟩ := expect_eq_ok hw
  obtain ⟨rfl, rfl⟩ := pure_eq_ok h₂
  rcases accept_eq_ok hnot with ⟨rfl, t, ht, hkt⟩ | ⟨rfl, ht⟩
  · exact ⟨true, [t], w, ht, notWritten_true.mpr ⟨t, rfl, hkt⟩, hk, rfl⟩
  · exact ⟨false, [], w, ht, notWritten_false.mpr rfl, hk, rfl⟩

/-- A test that can be negated is read by its own reader, behind the `NOT` if there is one. -/
theorem simpleTail_negatable {expr : Parse Expr} {negated : Bool} {x : Expr}
    {ns us : List Token} (hns : NotWritten negated ns) (hk : kindOf us ∈ negatable) :
    simpleTail expr x (ns ++ us) = negatableTail expr negated x us := by
  cases negated with
  | false =>
    obtain rfl := notWritten_false.mp hns
    have hkinds : ∀ k ∈ negatable, comparison? k = none ∧ k ≠ .keyword .IS ∧
        k ≠ .keyword .NOT := by decide
    obtain ⟨hcmp, his, hnot⟩ := hkinds _ hk
    rw [List.nil_append]
    simp only [simpleTail, hcmp]
  | true =>
    obtain ⟨t, rfl, ht⟩ := notWritten_true.mp hns
    have hcontains : negatable.contains (kindOf us) = true := by simpa using hk
    simp only [List.cons_append, List.nil_append, simpleTail, kindOf_cons, ht, comparison?,
      List.tail_cons, hcontains, if_true]

/-- **The reader behind the subject reads exactly the written tests.** -/
theorem simpleTail_reads (n : Nat) (x : Expr) :
    Reads (simpleTail (expr n) x) (TailWritten n x) NegationStop where
  complete := by
    intro p ts rest h hrest
    cases h with
    | @compare op r o us ho hr =>
      simp only [List.cons_append, simpleTail, kindOf_cons, ho, List.tail_cons]
      exact map_of_ok ((expr_reads n).complete hr hrest.exprStop)
    | @isNull negated i w ns hi hns hw =>
      simp only [List.cons_append, List.append_assoc, List.nil_append, simpleTail, kindOf_cons,
        hi, comparison?, List.tail_cons]
      exact isNull_complete hns hw
    | @negatable negated p ns us hns hu =>
      rw [List.append_assoc, simpleTail_negatable hns (hu.head rest)]
      exact negatableTail_complete hu hrest
    | value =>
      obtain ⟨his, hnot, hneg⟩ := hrest.ne
      rw [List.nil_append]
      simp only [simpleTail, hrest.comparison]
      exact negatableTail_value hneg
  sound := by
    intro ts p rest hts h
    unfold simpleTail at h
    split at h
    · rename_i op ho
      obtain _ | ⟨o, us⟩ := ts
      · cases ho
      obtain ⟨r, hr, rfl⟩ := map_eq_ok h
      obtain ⟨read, rfl, hw⟩ := (expr_reads n).sound (shaped_cons.mp hts).2 hr
      exact ⟨o :: read, rfl, .compare ho hw⟩
    · split at h
      · rename_i his
        obtain ⟨i, us, rfl, hi⟩ := eq_cons_of_kindOf his (by decide)
        obtain ⟨negated, ns, w, hus, hns, hw, rfl⟩ := isNull_sound h
        rw [List.tail_cons] at hus
        subst hus
        exact ⟨i :: (ns ++ [w]), by simp, .isNull hi hns hw⟩
      · rename_i hnot
        obtain ⟨t, us, rfl, ht⟩ := eq_cons_of_kindOf hnot (by decide)
        split at h
        · rename_i hneg
          have hmem : kindOf us ∈ negatable := by simpa using hneg
          obtain ⟨read, rfl, hw⟩ := negatableTail_sound (shaped_cons.mp hts).2 hmem h
          exact ⟨t :: read, rfl, .negatable (notWritten_true.mpr ⟨t, rfl, ht⟩) hw⟩
        · cases h
      · by_cases hneg : kindOf ts ∈ negatable
        · obtain ⟨read, rfl, hw⟩ := negatableTail_sound hts hneg h
          exact ⟨read, rfl, .negatable (notWritten_false.mpr rfl) hw⟩
        · rw [negatableTail_value hneg] at h
          cases h
          exact ⟨[], rfl, .value⟩

/-- A value is the whole condition only where no test of it follows. -/
theorem simpleTail_value {n : Nat} {x e : Expr} {ts rest : List Token} (hts : Shaped ts)
    (h : simpleTail (expr n) x ts = .ok (.value e, rest)) :
    e = x ∧ ts = rest ∧ comparison? (kindOf ts) = none ∧ kindOf ts ≠ .keyword .IS ∧
      kindOf ts ≠ .keyword .NOT ∧ kindOf ts ∉ negatable := by
  unfold simpleTail at h
  split at h
  · obtain ⟨r, -, hr⟩ := map_eq_ok h
    cases hr
  · rename_i hcmp
    split at h
    · obtain ⟨negated, mid, -, h₁⟩ := bind_eq_ok h
      obtain ⟨w, mid', -, h₂⟩ := bind_eq_ok h₁
      obtain ⟨hp, -⟩ := pure_eq_ok h₂
      cases hp
    · rename_i hnot
      obtain ⟨t, us, rfl, ht⟩ := eq_cons_of_kindOf hnot (by decide)
      split at h
      · rename_i hneg
        have hmem : kindOf us ∈ negatable := by simpa using hneg
        obtain ⟨read, -, hw⟩ := negatableTail_sound (shaped_cons.mp hts).2 hmem h
        cases hw
      · cases h
    · rename_i his hnot
      by_cases hneg : kindOf ts ∈ negatable
      · obtain ⟨read, -, hw⟩ := negatableTail_sound hts hneg h
        cases hw
      · rw [negatableTail_value hneg] at h
        cases h
        exact ⟨rfl, rfl, hcmp, his, hnot, hneg⟩

/-! ## 3. Simple conditions -/

/-- The tokens of a simple condition. -/
def SimpleWritten (n : Nat) (p : Predicate) (ts : List Token) : Prop :=
  ∃ x us vs, ts = us ++ vs ∧ x.Written n us ∧ TailWritten n x p vs

/-- Behind the subject no expression goes on. -/
theorem TailWritten.exprStop {n : Nat} {x : Expr} {p : Predicate} {ts rest : List Token}
    (h : TailWritten n x p ts) (hrest : NegationStop rest) : ExprStop (ts ++ rest) := by
  have hnegatable : ∀ {us}, kindOf us ∈ Parse.negatable → ExprStop us := by
    intro us hk
    have hkinds : ∀ k ∈ Parse.negatable, ((k ≠ .symbol .dot ∧ k ≠ .symbol .openParen) ∧
        multiplicative? k = none) ∧ additive? k = none := by decide
    exact hkinds _ hk
  cases h with
  | @compare op r o us ho _ =>
    unfold comparison? at ho
    split at ho <;> rename_i hk <;>
      simp_all [ExprStop, FactorStop, multiplicative?, additive?]
  | isNull hi => simp [ExprStop, FactorStop, hi, multiplicative?, additive?]
  | @negatable negated p ns us hns hu =>
    cases negated with
    | false =>
      obtain rfl := notWritten_false.mp hns
      exact hnegatable (hu.head rest)
    | true =>
      obtain ⟨t, rfl, ht⟩ := notWritten_true.mp hns
      simp [ExprStop, FactorStop, ht, multiplicative?, additive?]
  | value => exact hrest.exprStop

/-- **The reader of simple conditions reads exactly the written ones.** -/
theorem simple_reads (n : Nat) : Reads (simple n) (SimpleWritten n) NegationStop where
  complete := by
    rintro p ts rest ⟨x, us, vs, rfl, hx, hp⟩ hrest
    rw [List.append_assoc, simple, simpleOf,
      bind_of_ok ((expr_reads n).complete hx (hp.exprStop hrest))]
    exact (simpleTail_reads n x).complete hp hrest
  sound := by
    intro ts p rest hts h
    obtain ⟨x, mid, hx, htail⟩ := bind_eq_ok h
    obtain ⟨us, rfl, hw⟩ := (expr_reads n).sound hts hx
    obtain ⟨vs, rfl, hp⟩ := (simpleTail_reads n x).sound (shaped_append.mp hts).2 htail
    exact ⟨us ++ vs, by simp, x, us, vs, rfl, hw, hp⟩

/-- Where the reader of simple conditions finds a bare value, nothing goes on with the value. -/
theorem simple_value {n : Nat} {e : Expr} {ts rest : List Token} (hts : Shaped ts)
    (h : simple n ts = .ok (.value e, rest)) :
    (∃ read, ts = read ++ rest ∧ e.Written n read) ∧ continuesValue rest = false := by
  obtain ⟨x, mid, hx, htail⟩ := bind_eq_ok h
  obtain ⟨us, rfl, hw⟩ := (expr_reads n).sound hts hx
  obtain ⟨rfl, rfl, hcmp, his, hnot, hneg⟩ := simpleTail_value (shaped_append.mp hts).2 htail
  obtain ⟨hadd, hmul⟩ := exprOf_ends (factor_reads n) hts hx
  refine ⟨⟨us, rfl, hw⟩, ?_⟩
  simp [continuesValue, hcmp, hadd, hmul, his, hnot, hneg]

/-! ## 4. Simple conditions as trees -/

/-- A comparison stands for its symbol. -/
theorem comparison_eq_some {k : TokenKind} {op : CompareOp} :
    comparison? k = some op ↔ k = .symbol op.symbol := by
  constructor
  · intro h
    unfold comparison? at h
    split at h <;> cases h <;> rfl
  · intro h
    subst h
    cases op <;> rfl

/-- The values of a list are written as they are printed, with commas between them. -/
theorem listed_iff {n : Nat} {values : List Expr} {ts : List Token} :
    Listed (Expr.Written n) values ts ↔
      values ≠ [] ∧ (∀ e ∈ values, e.isCanonical = true ∧ e.isLexical = true ∧ e.depth ≤ n) ∧
        Spells (Predicate.valueLexemes values) ts := by
  constructor
  · intro h
    induction h with
    | @one x ts hx =>
      refine ⟨List.cons_ne_nil _ _, ?_, hx.spells⟩
      simpa using ⟨hx.canonical, hx.lexical, hx.depth_le⟩
    | @more x xs ts us c hx hc hxs ih =>
      obtain ⟨hne, hall, hs⟩ := ih
      refine ⟨List.cons_ne_nil _ _, ?_, ?_⟩
      · simpa using ⟨⟨hx.canonical, hx.lexical, hx.depth_le⟩, hall⟩
      · obtain ⟨y, ys, rfl⟩ := List.exists_cons_of_ne_nil hne
        simp only [Predicate.valueLexemes, spells_append, spells_cons, Lexeme.sign_spells]
        exact ⟨ts, _, rfl, hx.spells, c, us, rfl, hc, hs⟩
  · intro h
    obtain ⟨hne, hall, hs⟩ := h
    induction values generalizing ts with
    | nil => exact absurd rfl hne
    | cons x xs ih =>
      obtain ⟨⟨hc, hl, hd⟩, hall'⟩ := List.forall_mem_cons.mp hall
      cases xs with
      | nil => exact .one ⟨hc, hl, hd, hs⟩
      | cons y ys =>
        simp only [Predicate.valueLexemes, spells_append, spells_cons, Lexeme.sign_spells] at hs
        obtain ⟨us, _, rfl, hx, c, vs, rfl, hk, hxs⟩ := hs
        exact .more ⟨hc, hl, hd, hx⟩ hk (ih (List.cons_ne_nil _ _) hall' hxs)

theorem foldr_max_le {n x : Nat} {ds : List Nat} :
    ds.foldr max x ≤ n ↔ x ≤ n ∧ ∀ d ∈ ds, d ≤ n := by
  induction ds with
  | nil => simp
  | cons d ds ih =>
    rw [List.foldr_cons, Nat.max_le, ih, List.forall_mem_cons]
    tauto

/-- A condition that is not compound is written as a simple condition. -/
theorem simpleWritten_of_written {n : Nat} {p : Predicate} {ts : List Token}
    (hp : p.isCompound = false) (h : p.Written n ts) : SimpleWritten n p ts := by
  obtain ⟨hc, hl, hd, hs⟩ := h
  cases p with
  | logical | not | paren => cases hp
  | value e =>
    have hce : e.isCanonical = true := (Bool.and_eq_true_iff.mp hc).1
    exact ⟨e, ts, [], (List.append_nil _).symm, ⟨hce, hl, hd, hs⟩, .value⟩
  | compare op l r =>
    obtain ⟨hcl, hcr⟩ := Bool.and_eq_true_iff.mp hc
    obtain ⟨hll, hlr⟩ := Bool.and_eq_true_iff.mp hl
    obtain ⟨hdl, hdr⟩ := Nat.max_le.mp hd
    simp only [Predicate.lexemes, spells_append, spells_cons, Lexeme.sign_spells] at hs
    obtain ⟨us, _, rfl, hus, o, vs, rfl, ho, hvs⟩ := hs
    exact ⟨l, us, o :: vs, rfl, ⟨hcl, hll, hdl, hus⟩,
      .compare (comparison_eq_some.mpr ho) ⟨hcr, hlr, hdr, hvs⟩⟩
  | between negated x low high =>
    simp only [Predicate.isCanonical, Bool.and_eq_true] at hc
    simp only [Predicate.isLexical, Bool.and_eq_true] at hl
    simp only [Predicate.depth, Nat.max_le] at hd
    simp only [Predicate.lexemes, spells_append, spells_cons, Lexeme.word_spells] at hs
    obtain ⟨us, _, rfl, hx, ns, _, rfl, hn, b, _, rfl, hb, lo, _, rfl, hlo, a, hi, rfl, ha,
      hhi⟩ := hs
    refine ⟨x, us, _, rfl, ⟨hc.1.1, hl.1.1, hd.1, hx⟩, .negatable hn (.between hb ?_ ha ?_)⟩
    · exact ⟨hc.1.2, hl.1.2, hd.2.1, hlo⟩
    · exact ⟨hc.2, hl.2, hd.2.2, hhi⟩
  | like negated x pattern =>
    obtain ⟨hlx, hlp⟩ := Bool.and_eq_true_iff.mp hl
    simp only [Predicate.lexemes, spells_append, spells_cons, spells_nil,
      Lexeme.word_spells, Lexeme.exact_spells] at hs
    obtain ⟨us, _, rfl, hx, ns, _, rfl, hn, w, _, rfl, hw, s, _, rfl, ⟨hs, rfl⟩, rfl⟩ := hs
    exact ⟨x, us, _, rfl, ⟨hc, hlx, hd, hx⟩, .negatable hn (.like hw hs hlp)⟩
  | isNull negated x =>
    simp only [Predicate.lexemes, spells_append, spells_cons, spells_nil,
      Lexeme.word_spells] at hs
    obtain ⟨us, _, rfl, hx, i, _, rfl, hi, ns, _, rfl, hn, w, _, rfl, hw, rfl⟩ := hs
    exact ⟨x, us, _, rfl, ⟨hc, hl, hd, hx⟩, .isNull hi hn hw⟩
  | inList negated x values =>
    simp only [Predicate.isCanonical, Bool.and_eq_true, List.all_eq_true] at hc
    simp only [Predicate.isLexical, Bool.and_eq_true, List.all_eq_true, Bool.not_eq_true',
      List.isEmpty_eq_false_iff] at hl
    simp only [Predicate.depth, foldr_max_le, List.forall_mem_map] at hd
    simp only [Predicate.lexemes, spells_append, spells_cons, spells_nil, Lexeme.word_spells,
      Lexeme.sign_spells] at hs
    obtain ⟨us, _, rfl, hx, ns, _, rfl, hn, i, _, rfl, hi, o, _, rfl, ho, vs, _, rfl, hv, c, _,
      rfl, hk, rfl⟩ := hs
    refine ⟨x, us, _, rfl, ⟨hc.1, hl.1.1, hd.1, hx⟩,
      .negatable hn (.inList hi ho (listed_iff.mpr ⟨hl.1.2, ?_, hv⟩) hk)⟩
    exact fun e he => ⟨hc.2 e he, hl.2 e he, hd.2 e he⟩

/-- A simple condition is not compound. -/
theorem SimpleWritten.not_compound {n : Nat} {p : Predicate} {ts : List Token}
    (h : SimpleWritten n p ts) : p.isCompound = false := by
  obtain ⟨x, us, vs, rfl, -, h⟩ := h
  cases h with
  | negatable _ h => cases h <;> rfl
  | _ => rfl

/-- What is written as a simple condition is printed so, unless it is a bare value in
    parentheses. -/
theorem SimpleWritten.written {n : Nat} {p : Predicate} {ts : List Token}
    (h : SimpleWritten n p ts) (hp : ∀ e, p = .value e → e.isParen = false) :
    p.Written n ts := by
  obtain ⟨x, us, vs, rfl, hx, h⟩ := h
  obtain ⟨hxc, hxl, hxd, hxs⟩ := hx
  cases h with
  | value =>
    refine ⟨?_, hxl, hxd, by rw [List.append_nil]; exact hxs⟩
    simp [Predicate.isCanonical, hxc, hp x rfl]
  | @compare op r o vs ho hr =>
    obtain ⟨hrc, hrl, hrd, hrs⟩ := hr
    refine ⟨?_, ?_, Nat.max_le.mpr ⟨hxd, hrd⟩, ?_⟩
    · simp [Predicate.isCanonical, hxc, hrc]
    · simp [Predicate.isLexical, hxl, hrl]
    · simp only [Predicate.lexemes, spells_append, spells_cons, Lexeme.sign_spells]
      exact ⟨us, _, rfl, hxs, o, vs, rfl, comparison_eq_some.mp ho, hrs⟩
  | @isNull negated i w ns hi hn hw =>
    refine ⟨hxc, hxl, hxd, ?_⟩
    simp only [Predicate.lexemes, spells_append, spells_cons, spells_nil, Lexeme.word_spells]
    exact ⟨us, _, rfl, hxs, i, _, rfl, hi, ns, _, rfl, hn, w, _, rfl, hw, rfl⟩
  | @negatable negated p ns vs hn h =>
    cases h with
    | @between low high b a lo hi hb hlow ha hhigh =>
      obtain ⟨hlc, hll, hld, hls⟩ := hlow
      obtain ⟨hhc, hhl, hhd, hhs⟩ := hhigh
      refine ⟨?_, ?_, Nat.max_le.mpr ⟨hxd, Nat.max_le.mpr ⟨hld, hhd⟩⟩, ?_⟩
      · simp [Predicate.isCanonical, hxc, hlc, hhc]
      · simp [Predicate.isLexical, hxl, hll, hhl]
      · simp only [Predicate.lexemes, spells_append, spells_cons, Lexeme.word_spells]
        exact ⟨us, _, rfl, hxs, ns, _, rfl, hn, b, _, rfl, hb, lo, _, rfl, hls, a, hi, rfl, ha,
          hhs⟩
    | @like l s hl hs hq =>
      refine ⟨hxc, ?_, hxd, ?_⟩
      · simp [Predicate.isLexical, hxl, hq]
      · simp only [Predicate.lexemes, spells_append, spells_cons, spells_nil,
          Lexeme.word_spells, Lexeme.exact_spells]
        exact ⟨us, _, rfl, hxs, ns, _, rfl, hn, l, _, rfl, hl, s, _, rfl, ⟨hs, rfl⟩, rfl⟩
    | @inList values i o c vs hi ho hv hc =>
      obtain ⟨hne, hall, hvs⟩ := listed_iff.mp hv
      refine ⟨?_, ?_, ?_, ?_⟩
      · simp only [Predicate.isCanonical, Bool.and_eq_true, List.all_eq_true]
        exact ⟨hxc, fun e he => (hall e he).1⟩
      · simp only [Predicate.isLexical, Bool.and_eq_true, List.all_eq_true, Bool.not_eq_true',
          List.isEmpty_eq_false_iff]
        exact ⟨⟨hxl, hne⟩, fun e he => (hall e he).2.1⟩
      · simp only [Predicate.depth, foldr_max_le, List.forall_mem_map]
        exact ⟨hxd, fun e he => (hall e he).2.2⟩
      · simp only [Predicate.lexemes, spells_append, spells_cons, spells_nil,
          Lexeme.word_spells, Lexeme.sign_spells]
        exact ⟨us, _, rfl, hxs, ns, _, rfl, hn, i, _, rfl, hi, o, _, rfl, ho, vs, _, rfl, hvs, c,
          _, rfl, hc, rfl⟩

end Parse

end MiningQuery
