/-
  File:      MiningQuery/Proofs/Query/Height.lean
  Subject:   How high the tree of a condition can grow under a limit of nesting.

  The limit counts parentheses, aggregate calls and `NOT`. Operators that follow each other open no
  level, and still each of them adds a node on top of those before it. So the height of a tree has
  two sources, and the limit bounds one of them.

  * `Expr.height`, `Predicate.height`, `Condition.height` -- the most nodes above each other;
  * `Expr.longestChain`, `Predicate.longestChain` -- the most operators on one level of nesting;
  * **`Predicate.height_le`** -- levels times operators bound the height;
  * **`condition_height_le`** -- so they do for every text;
  * `limit_does_not_bound_height` -- conjunctions without a parenthesis of any height.
-/
import MiningQuery.Proofs.Segment.Contents
import MiningQuery.Proofs.Sql.ReadBack

namespace MiningQuery

open Parse

/-! ## 1. Heights -/

/-- The most nodes of an expression above each other. -/
def Expr.height : Expr → Nat
  | literal _ | column _ | aggregateAll _ => 1
  | aggregate _ e | paren e => e.height + 1
  | arith _ l r => max l.height r.height + 1

/-- The most nodes of a written condition above each other, those of its expressions included. -/
def Predicate.height : Predicate → Nat
  | logical _ l r => max l.height r.height + 1
  | not p | paren p => p.height + 1
  | compare _ l r => max l.height r.height + 1
  | between _ x low high => max x.height (max low.height high.height) + 1
  | like _ x _ | isNull _ x | value x => x.height + 1
  | inList _ x values => (values.map Expr.height).foldr max x.height + 1

/-- The most nodes of a condition above each other. -/
def Condition.height : Condition → Nat
  | logical _ l r => max l.height r.height + 1
  | not c => c.height + 1
  | compare .. | between .. | like .. | isNull .. | inList .. => 1

/-- **Reducing a condition does not make it higher.** -/
theorem Predicate.height_reduce_le (p : Predicate) : p.reduce.height ≤ p.height := by
  induction p with
  | logical op l r ihl ihr =>
    simp only [reduce, Condition.height, height]
    omega
  | not p ih => exact Nat.succ_le_succ ih
  | paren p ih => exact Nat.le_succ_of_le ih
  | _ => exact Nat.succ_le_succ (Nat.zero_le _)

/-! ## 2. Chains -/

/-- The operators of an expression outside of its parentheses. -/
def Expr.operators : Expr → Nat
  | arith _ l r => l.operators + r.operators + 1
  | _ => 0

/-- The most operators that an expression has on one level of nesting. -/
def Expr.longestChain : Expr → Nat
  | literal _ | column _ | aggregateAll _ => 0
  | aggregate _ e | paren e => e.longestChain
  | arith _ l r => max (l.operators + r.operators + 1) (max l.longestChain r.longestChain)

/-- The connectives of a condition outside of its parentheses and negations. -/
def Predicate.connectives : Predicate → Nat
  | logical _ l r => l.connectives + r.connectives + 1
  | _ => 0

/-- The most connectives, or operators of one expression, that a condition has on one level of
    nesting. -/
def Predicate.longestChain : Predicate → Nat
  | logical _ l r => max (l.connectives + r.connectives + 1) (max l.longestChain r.longestChain)
  | not p | paren p => p.longestChain
  | compare _ l r => max l.longestChain r.longestChain
  | between _ x low high => max x.longestChain (max low.longestChain high.longestChain)
  | like _ x _ | isNull _ x | value x => x.longestChain
  | inList _ x values => (values.map Expr.longestChain).foldr max x.longestChain

theorem Expr.operators_le_longestChain (e : Expr) : e.operators ≤ e.longestChain := by
  cases e with
  | arith => exact Nat.le_max_left _ _
  | _ => exact Nat.zero_le _

theorem Predicate.connectives_le_longestChain (p : Predicate) : p.connectives ≤ p.longestChain := by
  cases p with
  | logical => exact Nat.le_max_left _ _
  | _ => exact Nat.zero_le _

/-! ## 3. Levels times operators -/

/-- A level of nesting adds the operators of its chain to the height of an expression. -/
theorem Expr.height_le {k : Nat} {e : Expr} (h : e.longestChain ≤ k) :
    e.height ≤ e.depth * (k + 1) + e.operators + 1 := by
  induction e with
  | literal | column | aggregateAll => exact Nat.succ_le_succ (Nat.zero_le _)
  | aggregate _ e ih | paren e ih =>
    have hinside := ih h
    have hchain : e.operators ≤ k := Nat.le_trans e.operators_le_longestChain h
    simp only [height, depth, operators, Nat.succ_mul]
    omega
  | arith _ l r ihl ihr =>
    obtain ⟨-, hl, hr⟩ : l.operators + r.operators + 1 ≤ k ∧ l.longestChain ≤ k ∧
        r.longestChain ≤ k := by simpa [longestChain] using h
    have hleft := ihl hl
    have hright := ihr hr
    have hdl : l.depth * (k + 1) ≤ max l.depth r.depth * (k + 1) :=
      Nat.mul_le_mul_right _ (Nat.le_max_left _ _)
    have hdr : r.depth * (k + 1) ≤ max l.depth r.depth * (k + 1) :=
      Nat.mul_le_mul_right _ (Nat.le_max_right _ _)
    simp only [height, depth, operators]
    omega

/-- An expression of a test is bounded by the depth of the test. -/
theorem Expr.height_le_of_depth {k d : Nat} {e : Expr} (h : e.longestChain ≤ k)
    (hd : e.depth ≤ d) : e.height ≤ d * (k + 1) + k + 1 := by
  have hbound := height_le h
  have hchain := Nat.le_trans e.operators_le_longestChain h
  have hdepth : e.depth * (k + 1) ≤ d * (k + 1) := Nat.mul_le_mul_right _ hd
  omega

namespace Predicate

/-- The expressions of a condition that is no connective, negation or parenthesis. -/
def operands : Predicate → List Expr
  | logical .. | not _ | paren _ => []
  | compare _ l r => [l, r]
  | between _ x low high => [x, low, high]
  | like _ x _ | isNull _ x | value x => [x]
  | inList _ x values => x :: values

/-- A test is no higher than its expressions and itself. -/
theorem height_le_of_operands {p : Predicate} (hp : p.isCompound = false) {n : Nat}
    (h : ∀ e ∈ p.operands, e.height ≤ n) : p.height ≤ n + 1 := by
  cases p with
  | logical | not | paren => cases hp
  | inList _ x values =>
    obtain ⟨hx, hvalues⟩ := List.forall_mem_cons.mp h
    exact Nat.succ_le_succ (foldr_max_le.mpr ⟨hx, List.forall_mem_map.mpr hvalues⟩)
  | _ =>
    simp only [operands, List.forall_mem_cons] at h
    simp only [height]
    omega

/-- What bounds the depth and the chains of a test bounds those of its expressions. -/
theorem operands_le {p : Predicate} (hp : p.isCompound = false) :
    ∀ e ∈ p.operands, e.depth ≤ p.depth ∧ e.longestChain ≤ p.longestChain := by
  cases p with
  | logical | not | paren => cases hp
  | inList _ x values =>
    have hdepth := foldr_max_le.mp (Nat.le_refl ((values.map Expr.depth).foldr max x.depth))
    have hchain := foldr_max_le.mp
      (Nat.le_refl ((values.map Expr.longestChain).foldr max x.longestChain))
    refine List.forall_mem_cons.mpr ⟨⟨hdepth.1, hchain.1⟩, fun e he => ?_⟩
    exact ⟨hdepth.2 _ (List.mem_map_of_mem he), hchain.2 _ (List.mem_map_of_mem he)⟩
  | compare | between | like | isNull | value => simp [operands, depth, longestChain]

/-- **Levels times operators bound the height.** On each level stand a chain of connectives and, in a
    test, a chain of operators. -/
theorem height_le {k : Nat} {p : Predicate} (h : p.longestChain ≤ k) :
    p.height ≤ p.depth * (2 * (k + 1)) + p.connectives + (k + 2) := by
  -- a parenthesis or a negation closes the chains that stand inside
  have hlevel : ∀ {q : Predicate}, q.longestChain ≤ k →
      q.height ≤ q.depth * (2 * (k + 1)) + q.connectives + (k + 2) →
      q.height + 1 ≤ (q.depth + 1) * (2 * (k + 1)) + 0 + (k + 2) := by
    intro q hq hheight
    have hchain := Nat.le_trans q.connectives_le_longestChain hq
    rw [Nat.succ_mul]
    omega
  have htest : ∀ {q : Predicate}, q.isCompound = false → q.longestChain ≤ k →
      q.height ≤ q.depth * (2 * (k + 1)) + 0 + (k + 2) := by
    intro q hq hchain
    have hoperands : ∀ e ∈ q.operands, e.height ≤ q.depth * (k + 1) + k + 1 := by
      intro e he
      obtain ⟨hd, hc⟩ := operands_le hq e he
      exact Expr.height_le_of_depth (Nat.le_trans hc hchain) hd
    have hheight := height_le_of_operands hq hoperands
    have hlevels : q.depth * (k + 1) ≤ q.depth * (2 * (k + 1)) :=
      Nat.mul_le_mul_left _ (Nat.le_mul_of_pos_left _ Nat.two_pos)
    omega
  induction p with
  | not p ih => exact hlevel h (ih h)
  | paren p ih => exact hlevel h (ih h)
  | logical _ l r ihl ihr =>
    obtain ⟨-, hl, hr⟩ : l.connectives + r.connectives + 1 ≤ k ∧ l.longestChain ≤ k ∧
        r.longestChain ≤ k := by simpa [longestChain] using h
    have hleft := ihl hl
    have hright := ihr hr
    have hdl : l.depth * (2 * (k + 1)) ≤ max l.depth r.depth * (2 * (k + 1)) :=
      Nat.mul_le_mul_right _ (Nat.le_max_left _ _)
    have hdr : r.depth * (2 * (k + 1)) ≤ max l.depth r.depth * (2 * (k + 1)) :=
      Nat.mul_le_mul_right _ (Nat.le_max_right _ _)
    simp only [height, depth, connectives]
    omega
  | compare | between | like | isNull | inList | value => exact htest rfl h

end Predicate

/-! ## 4. Texts -/

/-- **The height of a condition is bounded by the limit and the longest chain.** Let a text be read
    under a limit of nesting, with or without errors. The condition of its query comes from a
    written condition; neither tree is higher than the levels of the limit allow, each having at
    most so many operators as the longest chain on one level. The length of the text does not
    matter. -/
theorem condition_height_le {settings : ReadSettings} {text : Text} {q : Query}
    (hq : Query.ofText settings text = .ok q) {c : Condition} (hc : q.condition = some c) :
    ∃ p, (Reading.ofText settings text).statement.condition = some p ∧ c = p.reduce ∧
      c.height ≤ p.height ∧
      p.height ≤ 2 * (settings.nestingLimit + 1) * (p.longestChain + 1) := by
  rw [(Statement.reduce_eq_ok hq).condition, Option.map_eq_some_iff] at hc
  obtain ⟨p, hp, rfl⟩ := hc
  have hsays : (Reading.ofText settings text).statement.Says (.condition p) := hp
  obtain ⟨body, -, p', hwritten, hcontent⟩ := readStatement_says (lex_shaped text) hsays
  obtain rfl : p = p' := (ClauseContent.condition.inj hcontent).symm
  refine ⟨p, hp, rfl, p.height_reduce_le, ?_⟩
  have hbound := Predicate.height_le (Nat.le_refl p.longestChain)
  have hchain := p.connectives_le_longestChain
  have hdepth : p.depth * (2 * (p.longestChain + 1)) ≤
      settings.nestingLimit * (2 * (p.longestChain + 1)) :=
    Nat.mul_le_mul_right _ hwritten.depth_le
  calc p.height
      ≤ settings.nestingLimit * (2 * (p.longestChain + 1)) + 2 * (p.longestChain + 1) := by omega
    _ = (settings.nestingLimit + 1) * (2 * (p.longestChain + 1)) := (Nat.succ_mul _ _).symm
    _ = 2 * (settings.nestingLimit + 1) * (p.longestChain + 1) := by
      rw [Nat.mul_comm 2 (settings.nestingLimit + 1), Nat.mul_assoc]

/-- `WHERE NOT (a AND b)` has two levels, and one connective on the inner one. -/
theorem condition_height_le_not_and :
    let settings : ReadSettings := { nestingLimit := 2 }
    let text := ascii "WHERE NOT (a AND b)"
    ∃ q c, Query.ofText settings text = .ok q ∧ q.condition = some c ∧ c.height = 3 ∧
      ∃ p, (Reading.ofText settings text).statement.condition = some p ∧ c = p.reduce ∧
        c.height ≤ p.height ∧ p.height ≤ 2 * (settings.nestingLimit + 1) * (p.longestChain + 1) := by
  intro settings text
  let same (name : String) : Condition :=
    .compare (ascii name) (.compare .eq) (.string (ascii name))
  obtain ⟨q, hq, hreduces⟩ := Query.exists_ofText settings text
  have hcondition : q.condition = some (.not (.logical .and (same "a") (same "b"))) := by
    rw [hreduces.condition]
    decide +kernel
  exact ⟨q, _, hq, hcondition, rfl, condition_height_le hq hcondition⟩

/-! ## 5. Conjunctions of any height -/

/-- The column of the conjunctions. -/
def columnA : Expr := .column ⟨none, ascii "a"⟩

/-- A column, and as many times more behind an `AND`. -/
def conjunction : Nat → Predicate
  | 0 => .value columnA
  | n + 1 => .logical .and (conjunction n) (.value columnA)

/-- The text of such a conjunction. -/
def conjunctionText : Nat → Text
  | 0 => ascii "a"
  | n + 1 => conjunctionText n ++ 32 :: (ascii "AND" ++ 32 :: ascii "a")

theorem conjunction_isCanonical (n : Nat) :
    (conjunction n).isCanonical = true ∧ (conjunction n).isDisjunction = false := by
  induction n with
  | zero => exact ⟨rfl, rfl⟩
  | succ n ih =>
    obtain ⟨hcanonical, hdisjunction⟩ := ih
    refine ⟨?_, rfl⟩
    simp only [conjunction, Predicate.isCanonical, hcanonical, hdisjunction]
    rfl

theorem conjunction_isLexical (n : Nat) : (conjunction n).isLexical = true := by
  induction n with
  | zero => decide
  | succ n ih =>
    simp only [conjunction, Predicate.isLexical, ih, Bool.true_and]
    decide

theorem conjunction_depth (n : Nat) : (conjunction n).depth = 0 := by
  induction n with
  | zero => rfl
  | succ n ih =>
    simp only [conjunction, Predicate.depth, ih]
    rfl

theorem conjunction_printed (n : Nat) :
    Printed (conjunctionText n) (conjunction n).lexemes ∧ FlatLexemes (conjunction n).lexemes := by
  have hcolumn : Printed (ascii "a") columnA.lexemes :=
    Expr.text_printed (e := columnA) (by decide)
  have hflat : FlatLexemes columnA.lexemes := ColumnRef.lexemes_flat _
  have hand : IsPlain (.keyword .AND) ∧ IsFlat (.keyword .AND) := by decide
  induction n with
  | zero => exact ⟨hcolumn, hflat⟩
  | succ n ih =>
    obtain ⟨hprinted, hflats⟩ := ih
    exact ⟨hprinted.blank ((Printed.word .AND).blank hcolumn),
      flatLexemes_append.mpr ⟨hflats, flatLexemes_cons.mpr ⟨hand, hflat⟩⟩⟩

/-- Each `AND` of a conjunction puts a node on top. -/
theorem conjunction_height (n : Nat) : (conjunction n).reduce.height = n + 1 := by
  induction n with
  | zero => rfl
  | succ n ih =>
    simp only [conjunction, Predicate.reduce, Condition.height, ih]
    omega

/-- **Under every limit a conjunction of any length is read** without an error. -/
theorem conjunction_read (settings : ReadSettings) (n : Nat) :
    ∃ q, Query.ofText settings (ascii "WHERE" ++ 32 :: conjunctionText n) = .ok q ∧
      q.errors = [] ∧ q.condition = some (conjunction n).reduce := by
  obtain ⟨hprinted, hflat⟩ := conjunction_printed n
  have hclause : ClausePrinted 0 .condition (.condition (conjunction n))
      (ascii "WHERE" ++ 32 :: conjunctionText n) (.word .WHERE :: (conjunction n).lexemes) :=
    .image (c := .condition) (fun _ => rfl) hprinted hflat.balanced fun limit ts _ h =>
      ⟨(conjunction_isCanonical n).1, conjunction_isLexical n,
        (conjunction_depth n).symm ▸ Nat.zero_le _, h⟩
  have hclauses : ClausesPrinted (max 0 0) Clause.all [.condition (conjunction n)] _ _ :=
    (ClausesPrinted.none.absent.absent.absent.absent.absent.present hclause
      breaks_nil).absent.absent.absent
  have hread := hclauses.ofText_of_depth settings (Nat.zero_le _)
  rw [List.append_nil] at hread
  obtain ⟨hstatement, herrors⟩ := hread
  obtain ⟨q, hq, hreduces⟩ :=
    Query.exists_ofText settings (ascii "WHERE" ++ 32 :: conjunctionText n)
  refine ⟨q, hq, hreduces.errors.trans herrors, ?_⟩
  rw [hreduces.condition, hstatement]
  rfl

/-- **The limit of nesting alone does not bound the height**: whatever bound a limit is given, a
    conjunction without a parenthesis is higher. -/
theorem limit_does_not_bound_height :
    ¬ ∀ m, ∃ bound, ∀ text q c, Query.ofText { nestingLimit := m } text = .ok q →
      q.condition = some c → c.height ≤ bound := by
  intro h
  obtain ⟨bound, hbound⟩ := h 0
  obtain ⟨q, hq, -, hcondition⟩ := conjunction_read { nestingLimit := 0 } bound
  have hle := hbound _ q _ hq hcondition
  rw [conjunction_height] at hle
  exact absurd hle (Nat.not_succ_le_self bound)

end MiningQuery
