/-
  File:      MiningQuery/Proofs/Limit/Levels.lean
  Subject:   The levels of nesting at each token of a tree.

  A parenthesis, the name of an aggregate and what stands behind a `NOT` open a level; the
  parentheses of a membership test do not. Each token of a tree gets the number of levels that are
  open at it, its own included.

  * `Expr.levels`, `Predicate.levels` -- these numbers, in the order of the tokens;
  * **`Expr.exceeds_iff`**, **`Predicate.exceeds_iff`** -- the highest of them is the depth of the
    tree;
  * `firstDeeper` -- the tokens from the first one on that is deeper than a limit.
-/
import MiningQuery.Proofs.Grammar.Simple

namespace MiningQuery

/-! ## 1. Levels that are too deep -/

/-- Some token is deeper than the limit. -/
def Exceeds (limit : Nat) (levels : List Nat) : Prop := ∃ l ∈ levels, limit < l

/-- Tokens that open no level. -/
def flatLevels (ls : List Lexeme) : List Nat := ls.map fun _ => 0

/-- The same levels one level further inside. -/
def innerLevels (ls : List Nat) : List Nat := ls.map (· + 1)

section Exceeds

variable {n l : Nat} {ls ms : List Nat}

@[simp] theorem length_flatLevels (ls : List Lexeme) : (flatLevels ls).length = ls.length :=
  List.length_map _

@[simp] theorem length_innerLevels (ls : List Nat) : (innerLevels ls).length = ls.length :=
  List.length_map _

@[simp] theorem not_exceeds_nil : ¬ Exceeds n [] := by simp [Exceeds]

theorem exceeds_append : Exceeds n (ls ++ ms) ↔ Exceeds n ls ∨ Exceeds n ms := by
  simp [Exceeds, or_and_right, exists_or]

theorem exceeds_cons_of_lt (h : n < l) : Exceeds n (l :: ls) := ⟨l, List.mem_cons_self, h⟩

theorem exceeds_cons_of_le (h : l ≤ n) : Exceeds n (l :: ls) ↔ Exceeds n ls := by
  simp [Exceeds, Nat.not_lt.mpr h]

@[simp] theorem exceeds_zero_cons : Exceeds n (0 :: ls) ↔ Exceeds n ls :=
  exceeds_cons_of_le (Nat.zero_le n)

@[simp] theorem not_exceeds_flatLevels (ls : List Lexeme) : ¬ Exceeds n (flatLevels ls) := by
  simp [Exceeds, flatLevels]

/-- One level further inside the limit is exceeded one level earlier. -/
theorem exceeds_innerLevels : Exceeds (n + 1) (innerLevels ls) ↔ Exceeds n ls := by
  simp [Exceeds, innerLevels]

/-- So it is between two tokens on the first level. -/
theorem exceeds_enclosed : Exceeds (n + 1) (1 :: (innerLevels ls ++ [1])) ↔ Exceeds n ls := by
  have hfirst : 1 ≤ n + 1 := Nat.succ_le_succ (Nat.zero_le n)
  rw [exceeds_cons_of_le hfirst, exceeds_append, exceeds_innerLevels, exceeds_cons_of_le hfirst]
  simp

/-- Tokens on the first level around others make a tree one level deeper. -/
theorem enclosed_exceeds_iff {d : Nat} (h : ∀ n, Exceeds n ls ↔ n < d) (n : Nat) :
    Exceeds n (1 :: (innerLevels ls ++ [1])) ↔ n < d + 1 := by
  cases n with
  | zero => exact iff_of_true (exceeds_cons_of_lt Nat.one_pos) (Nat.succ_pos d)
  | succ n => rw [exceeds_enclosed, h, Nat.succ_lt_succ_iff]

end Exceeds

/-! ## 2. Expressions -/

namespace Expr

/-- How many levels are open at each token of an expression. -/
def levels : Expr → List Nat
  | literal l => flatLevels l.lexemes
  | column c => flatLevels c.lexemes
  | aggregateAll _ => [1, 1, 1, 1]
  | aggregate _ e => 1 :: 1 :: (innerLevels e.levels ++ [1])
  | arith _ l r => l.levels ++ 0 :: r.levels
  | paren e => 1 :: (innerLevels e.levels ++ [1])

@[simp] theorem length_levels (e : Expr) : e.levels.length = e.lexemes.length := by
  induction e with
  | literal | column | aggregateAll => simp [levels, lexemes]
  | aggregate _ e ih | paren e ih => simp [levels, lexemes, ih]
  | arith _ l r ihl ihr => simp [levels, lexemes, ihl, ihr]

/-- **The highest level of an expression is its depth.** -/
theorem exceeds_iff (e : Expr) (n : Nat) : Exceeds n e.levels ↔ n < e.depth := by
  induction e generalizing n with
  | literal | column => simp [levels, depth]
  | aggregateAll => simp [levels, depth, Exceeds]
  | aggregate _ e ih =>
    rw [levels, depth, ← enclosed_exceeds_iff ih]
    simp [Exceeds]
  | paren e ih => exact enclosed_exceeds_iff ih n
  | arith _ l r ihl ihr =>
    rw [levels, exceeds_append, exceeds_zero_cons, ihl, ihr, depth]
    omega

end Expr

/-! ## 3. Conditions -/

namespace Predicate

/-- How many levels are open at each token of some values with commas between them. -/
def valueLevels : List Expr → List Nat
  | [] => []
  | [e] => e.levels
  | e :: es => e.levels ++ 0 :: valueLevels es

/-- How many levels are open at each token of a condition. -/
def levels : Predicate → List Nat
  | logical _ l r => l.levels ++ 0 :: r.levels
  | not p => 0 :: innerLevels p.levels
  | paren p => 1 :: (innerLevels p.levels ++ [1])
  | compare _ l r => l.levels ++ 0 :: r.levels
  | between n x low high =>
    x.levels ++ (flatLevels (notLexemes n) ++ 0 :: (low.levels ++ 0 :: high.levels))
  | like n x _ => x.levels ++ (flatLevels (notLexemes n) ++ [0, 0])
  | isNull n x => x.levels ++ 0 :: (flatLevels (notLexemes n) ++ [0])
  | inList n x values =>
    x.levels ++ (flatLevels (notLexemes n) ++ 0 :: 0 :: (valueLevels values ++ [0]))
  | value e => e.levels

theorem valueLevels_cons (e : Expr) {es : List Expr} (h : es ≠ []) :
    valueLevels (e :: es) = e.levels ++ 0 :: valueLevels es := by
  rw [valueLevels]
  exact h

@[simp] theorem length_valueLevels (values : List Expr) :
    (valueLevels values).length = (valueLexemes values).length := by
  induction values using valueLevels.induct with
  | case1 => rfl
  | case2 e => exact e.length_levels
  | case3 e es hes ih =>
    rw [valueLevels_cons e hes, valueLexemes]
    · simp [ih]
    · exact hes

theorem valueLevels_exceeds_iff (values : List Expr) (n : Nat) :
    Exceeds n (valueLevels values) ↔ ∃ e ∈ values, n < e.depth := by
  induction values using valueLevels.induct with
  | case1 => simp [valueLevels]
  | case2 e => simp [valueLevels, e.exceeds_iff]
  | case3 e es hes ih =>
    rw [valueLevels_cons e hes, exceeds_append, exceeds_zero_cons, e.exceeds_iff, ih,
      List.exists_mem_cons_iff]

@[simp] theorem length_levels (p : Predicate) : p.levels.length = p.lexemes.length := by
  induction p with
  | logical _ l r ihl ihr => simp [levels, lexemes, ihl, ihr]
  | not p ih | paren p ih => simp [levels, lexemes, ih]
  | compare | between | like | isNull | inList | value => simp [levels, lexemes]

theorem levels_ne_nil (p : Predicate) : p.levels ≠ [] := by
  rw [← List.length_pos_iff, length_levels, List.length_pos_iff]
  exact p.lexemes_ne_nil

/-- **The highest level of a condition is its depth.** -/
theorem exceeds_iff (p : Predicate) (n : Nat) : Exceeds n p.levels ↔ n < p.depth := by
  induction p generalizing n with
  | logical _ l r ihl ihr =>
    rw [levels, exceeds_append, exceeds_zero_cons, ihl, ihr, depth]
    omega
  | not p ih =>
    rw [levels, exceeds_zero_cons, depth]
    cases n with
    | zero =>
      obtain ⟨l, ls, hlevels⟩ := List.exists_cons_of_ne_nil p.levels_ne_nil
      exact iff_of_true (hlevels ▸ exceeds_cons_of_lt (Nat.succ_pos l)) (Nat.succ_pos _)
    | succ n => rw [exceeds_innerLevels, ih, Nat.succ_lt_succ_iff]
  | paren p ih => exact enclosed_exceeds_iff ih n
  | compare _ l r =>
    rw [levels, exceeds_append, exceeds_zero_cons, l.exceeds_iff, r.exceeds_iff, depth]
    omega
  | between negated x low high =>
    simp only [levels, exceeds_append, exceeds_zero_cons, not_exceeds_flatLevels, false_or,
      Expr.exceeds_iff, depth]
    omega
  | like negated x | isNull negated x => simp [levels, depth, exceeds_append, Expr.exceeds_iff]
  | inList negated x values =>
    rw [depth, ← Nat.not_le, Parse.foldr_max_le, not_and_or]
    simp [levels, exceeds_append, Expr.exceeds_iff, valueLevels_exceeds_iff]
  | value e => exact e.exceeds_iff n

end Predicate

/-! ## 4. The first token that is too deep -/

/-- The tokens from the first one on at which more levels are open than a limit allows. -/
def firstDeeper (limit : Nat) (levels : List Nat) (ts : List Token) : List Token :=
  ts.drop (levels.findIdx (limit < ·))

section FirstDeeper

variable {n l : Nat} {ls ms : List Nat} {t : Token} {ts us : List Token}

theorem firstDeeper_cons_of_lt (h : n < l) : firstDeeper n (l :: ls) ts = ts := by
  simp [firstDeeper, List.findIdx_cons, h]

theorem firstDeeper_cons_of_le (h : l ≤ n) :
    firstDeeper n (l :: ls) (t :: ts) = firstDeeper n ls ts := by
  simp [firstDeeper, List.findIdx_cons, Nat.not_lt.mpr h]

@[simp] theorem firstDeeper_zero_cons :
    firstDeeper n (0 :: ls) (t :: ts) = firstDeeper n ls ts :=
  firstDeeper_cons_of_le (Nat.zero_le n)

theorem firstDeeper_innerLevels :
    firstDeeper (n + 1) (innerLevels ls) ts = firstDeeper n ls ts := by
  simp [firstDeeper, innerLevels, List.findIdx_map, Function.comp_def]

/-- What stands behind a token that is too deep does not matter. -/
theorem firstDeeper_append_left (h : Exceeds n ls) (hlength : ls.length = ts.length) :
    firstDeeper n (ls ++ ms) (ts ++ us) = firstDeeper n ls ts ++ us := by
  have hlt : ls.findIdx (n < ·) < ls.length :=
    List.findIdx_lt_length_of_exists (by simpa [Exceeds] using h)
  rw [firstDeeper, firstDeeper, List.findIdx_append, if_pos hlt, List.drop_append_of_le_length]
  omega

/-- What is not too deep is passed. -/
theorem firstDeeper_append_right (h : ¬ Exceeds n ls) (hlength : ls.length = ts.length) :
    firstDeeper n (ls ++ ms) (ts ++ us) = firstDeeper n ms us := by
  have hnone : ls.findIdx (n < ·) = ls.length :=
    List.findIdx_eq_length_of_false fun l hl => decide_eq_false fun hlt => h ⟨l, hl, hlt⟩
  rw [firstDeeper, firstDeeper, List.findIdx_append, hnone, if_neg (Nat.lt_irrefl _), hlength,
    Nat.add_comm, List.drop_append, List.drop_eq_nil_of_le (Nat.le_add_right _ _)]
  simp

/-- The first token that is too deep between two tokens that are not. -/
theorem firstDeeper_enclosed {o c : Token} (h : Exceeds n ls) (hlength : ls.length = us.length) :
    firstDeeper (n + 1) (1 :: (innerLevels ls ++ [1])) (o :: (us ++ [c])) =
      firstDeeper n ls us ++ [c] := by
  rw [firstDeeper_cons_of_le (Nat.succ_le_succ (Nat.zero_le n)),
    firstDeeper_append_left (exceeds_innerLevels.mpr h) (by rw [length_innerLevels, hlength]),
    firstDeeper_innerLevels]

end FirstDeeper

end MiningQuery
