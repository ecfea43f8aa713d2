/-
  File:      MiningQuery/Proofs/Tree/Nesting.lean
  Subject:   How deep parentheses and `NOT`s nest in a token list, and in the tokens of a tree.

  * `nesting` -- the levels that stand inside each other, read off the tokens from left to right;
  * `Balanced` -- tokens that close what they open and reach some depth on the way;
  * **`Expr.lexemes_balanced`** -- the tokens of an expression reach the depth of the expression.
-/
import MiningQuery.Proofs.Tree.Canonical

namespace MiningQuery

/-! ## 1. Levels -/

/-- The levels that a parenthesis opens, by the token before it: a `NOT` opens one more, and the
    parentheses of a membership test open none. -/
def levelsOpened : TokenKind → Nat
  | .keyword .NOT => 2
  | .keyword .IN => 0
  | _ => 1

/-- The levels of the open parentheses behind a token, the innermost first. -/
def openAfter (opened : List Nat) (before : TokenKind) : TokenKind → List Nat
  | .symbol .openParen => levelsOpened before :: opened
  | .symbol .closeParen => opened.tail
  | _ => opened

/-- How many levels are open in all. -/
def levelsOpen (opened : List Nat) : Nat := opened.foldr (· + ·) 0

/-- The most levels that are open at once, from a token on. -/
def nestingFrom (opened : List Nat) (before : TokenKind) : List TokenKind → Nat
  | [] => levelsOpen opened
  | k :: ks => max (levelsOpen opened) (nestingFrom (openAfter opened before k) k ks)

/-- How many levels of parentheses and `NOT` stand inside each other. -/
def nesting (ts : List Token) : Nat := nestingFrom [] .endOfInput (ts.map (·.kind))

/-- A parenthesis behind this token opens one level. -/
def IsPlain (k : TokenKind) : Prop := k ≠ .keyword .NOT ∧ k ≠ .keyword .IN

/-- The token is no parenthesis. -/
def IsFlat (k : TokenKind) : Prop := k ≠ .symbol .openParen ∧ k ≠ .symbol .closeParen

instance (k : TokenKind) : Decidable (IsPlain k) := inferInstanceAs (Decidable (_ ∧ _))

instance (k : TokenKind) : Decidable (IsFlat k) := inferInstanceAs (Decidable (_ ∧ _))

theorem IsPlain.levelsOpened {k : TokenKind} (h : IsPlain k) : levelsOpened k = 1 := by
  unfold MiningQuery.levelsOpened
  split
  · exact absurd rfl h.1
  · exact absurd rfl h.2
  · rfl

theorem IsFlat.openAfter {k : TokenKind} (h : IsFlat k) (opened : List Nat) (before : TokenKind) :
    openAfter opened before k = opened := by
  unfold MiningQuery.openAfter
  split
  · exact absurd rfl h.1
  · exact absurd rfl h.2
  · rfl

/-- What is open now counts. -/
theorem le_nestingFrom (opened : List Nat) (before : TokenKind) (ks : List TokenKind) :
    levelsOpen opened ≤ nestingFrom opened before ks := by
  cases ks with
  | nil => exact Nat.le_refl _
  | cons k ks => exact Nat.le_max_left _ _

/-- The rest of the tokens counts as well. -/
theorem nestingFrom_cons_le (opened : List Nat) (before k : TokenKind) (ks : List TokenKind) :
    nestingFrom (openAfter opened before k) k ks ≤ nestingFrom opened before (k :: ks) :=
  Nat.le_max_right _ _

/-! ## 2. Balanced tokens -/

/-- The tokens close what they open, reach the depth on the way, and end with a token behind which
    a parenthesis opens one level. -/
def Balanced (depth : Nat) (ks : List TokenKind) : Prop :=
  ∀ (opened : List Nat) (before : TokenKind) (rest : List TokenKind), IsPlain before →
    levelsOpen opened + depth ≤ nestingFrom opened before (ks ++ rest) ∧
      ∃ last, IsPlain last ∧ nestingFrom opened last rest ≤ nestingFrom opened before (ks ++ rest)

namespace Balanced

variable {d e : Nat} {k : TokenKind} {ks ms : List TokenKind}

theorem nil : Balanced 0 [] := fun opened before rest h =>
  ⟨le_nestingFrom opened before rest, before, h, Nat.le_refl _⟩

theorem single (hplain : IsPlain k) (hflat : IsFlat k) : Balanced 0 [k] := by
  intro opened before rest _
  have hle : nestingFrom opened k rest ≤ nestingFrom opened before (k :: rest) := by
    have h := nestingFrom_cons_le opened before k rest
    rwa [hflat.openAfter] at h
  exact ⟨le_nestingFrom _ _ _, k, hplain, hle⟩

/-- The deeper of two parts that follow each other counts. -/
theorem append (h : Balanced d ks) (h' : Balanced e ms) : Balanced (max d e) (ks ++ ms) := by
  intro opened before rest hbefore
  rw [List.append_assoc]
  obtain ⟨hd, last, hlast, hle⟩ := h opened before (ms ++ rest) hbefore
  obtain ⟨he, last', hlast', hle'⟩ := h' opened last rest hlast
  exact ⟨by omega, last', hlast', Nat.le_trans hle' hle⟩

theorem mono (h : Balanced d ks) (hle : e ≤ d) : Balanced e ks := by
  intro opened before rest hbefore
  obtain ⟨hd, hlast⟩ := h opened before rest hbefore
  exact ⟨by omega, hlast⟩

/-- Between parentheses, behind any token. -/
theorem paren_from (h : Balanced d ks) (opened : List Nat) (before : TokenKind)
    (rest : List TokenKind) :
    levelsOpen opened + (levelsOpened before + d) ≤
        nestingFrom opened before (.symbol .openParen :: (ks ++ [.symbol .closeParen]) ++ rest) ∧
      nestingFrom opened (.symbol .closeParen) rest ≤
        nestingFrom opened before
          (.symbol .openParen :: (ks ++ [.symbol .closeParen]) ++ rest) := by
  have hinside := h (levelsOpened before :: opened) (.symbol .openParen)
    (.symbol .closeParen :: rest) (by decide)
  obtain ⟨hd, last, -, hle⟩ := hinside
  have hopen : nestingFrom (levelsOpened before :: opened) (.symbol .openParen)
      (ks ++ .symbol .closeParen :: rest) ≤
      nestingFrom opened before (.symbol .openParen :: (ks ++ .symbol .closeParen :: rest)) :=
    nestingFrom_cons_le opened before (.symbol .openParen) _
  have hclose : nestingFrom opened (.symbol .closeParen) rest ≤
      nestingFrom (levelsOpened before :: opened) last (.symbol .closeParen :: rest) :=
    nestingFrom_cons_le (levelsOpened before :: opened) last (.symbol .closeParen) rest
  have e : .symbol .openParen :: (ks ++ [.symbol .closeParen]) ++ rest =
      .symbol .openParen :: (ks ++ .symbol .closeParen :: rest) := by simp
  rw [e]
  rw [levelsOpen, List.foldr_cons, ← levelsOpen] at hd
  exact ⟨by omega, by omega⟩

/-- A parenthesis opens a level. -/
theorem paren (h : Balanced d ks) :
    Balanced (d + 1) (.symbol .openParen :: (ks ++ [.symbol .closeParen])) := by
  intro opened before rest hbefore
  obtain ⟨hd, hle⟩ := h.paren_from opened before rest
  rw [hbefore.levelsOpened] at hd
  exact ⟨by omega, .symbol .closeParen, by decide, hle⟩

/-- A word before a parenthesis changes the levels that the parenthesis opens. -/
theorem word_paren {w : Keyword} (h : Balanced d ks) :
    Balanced (levelsOpened (.keyword w) + d)
      (.keyword w :: .symbol .openParen :: (ks ++ [.symbol .closeParen])) := by
  intro opened before rest _
  obtain ⟨hd, hle⟩ := h.paren_from opened (.keyword w) rest
  have hword : nestingFrom opened (.keyword w)
      (.symbol .openParen :: (ks ++ [.symbol .closeParen]) ++ rest) ≤
      nestingFrom opened before
        (.keyword w :: .symbol .openParen :: (ks ++ [.symbol .closeParen]) ++ rest) :=
    nestingFrom_cons_le opened before (.keyword w) _
  exact ⟨by omega, .symbol .closeParen, by decide, by omega⟩

/-- A word that is not followed by a parenthesis changes nothing. -/
theorem word_cons {w : Keyword} (hk : IsFlat k)
    (h : Balanced d (k :: ks)) : Balanced d (.keyword w :: k :: ks) := by
  intro opened before rest hbefore
  obtain ⟨hd, last, hlast, hle⟩ := h opened before rest hbefore
  have hsame : nestingFrom opened before (k :: ks ++ rest) =
      nestingFrom opened (.keyword w) (k :: ks ++ rest) := by
    simp only [List.cons_append, nestingFrom, hk.openAfter]
  have hword : nestingFrom opened (.keyword w) (k :: ks ++ rest) ≤
      nestingFrom opened before (.keyword w :: k :: ks ++ rest) :=
    nestingFrom_cons_le opened before (.keyword w) _
  rw [hsame] at hd hle
  exact ⟨by omega, last, hlast, by omega⟩

/-- Tokens without a parenthesis, a `NOT` and an `IN`. -/
theorem flat (h : ∀ k ∈ ks, IsPlain k ∧ IsFlat k) : Balanced 0 ks := by
  induction ks with
  | nil => exact nil
  | cons k ks ih =>
    obtain ⟨⟨hplain, hflat⟩, hks⟩ := List.forall_mem_cons.mp h
    exact (single hplain hflat).append (ih hks)

/-- The depth that tokens reach is nesting of the list that they stand in. -/
theorem le_nesting {ts : List Token} (h : Balanced d (ts.map (·.kind))) (hd : e ≤ d) :
    e ≤ nesting ts := by
  have hts := (h [] .endOfInput [] (by decide)).1
  rw [List.append_nil, levelsOpen, List.foldr_nil] at hts
  unfold nesting
  omega

end Balanced

/-! ## 3. Expressions -/

/-- The kinds of some lexemes in order. -/
def lexemeKinds (ls : List Lexeme) : List TokenKind := ls.map (·.kind)

@[simp] theorem lexemeKinds_nil : lexemeKinds [] = [] := rfl

@[simp] theorem lexemeKinds_cons (l : Lexeme) (ls : List Lexeme) :
    lexemeKinds (l :: ls) = l.kind :: lexemeKinds ls := rfl

@[simp] theorem lexemeKinds_append (ls ms : List Lexeme) :
    lexemeKinds (ls ++ ms) = lexemeKinds ls ++ lexemeKinds ms := List.map_append

/-- None of the lexemes is a parenthesis, a `NOT` or an `IN`. -/
def FlatLexemes (ls : List Lexeme) : Prop := ∀ l ∈ ls, IsPlain l.kind ∧ IsFlat l.kind

@[simp] theorem flatLexemes_nil : FlatLexemes [] := fun _ h => absurd h List.not_mem_nil

@[simp] theorem flatLexemes_cons {l : Lexeme} {ls : List Lexeme} :
    FlatLexemes (l :: ls) ↔ (IsPlain l.kind ∧ IsFlat l.kind) ∧ FlatLexemes ls :=
  List.forall_mem_cons

@[simp] theorem flatLexemes_append {ls ms : List Lexeme} :
    FlatLexemes (ls ++ ms) ↔ FlatLexemes ls ∧ FlatLexemes ms := List.forall_mem_append

theorem FlatLexemes.balanced {ls : List Lexeme} (h : FlatLexemes ls) :
    Balanced 0 (lexemeKinds ls) := .flat (List.forall_mem_map.mpr h)

theorem Literal.lexemes_flat (l : Literal) : FlatLexemes l.lexemes := by
  have hminus : IsPlain (.symbol .minus) ∧ IsFlat (.symbol .minus) := by decide
  have hsigned : ∀ kind t, IsPlain kind ∧ IsFlat kind →
      FlatLexemes (Literal.signedLexemes kind t) := by
    intro kind t hk
    unfold Literal.signedLexemes
    split
    · simpa using ⟨hminus, hk⟩
    · simpa using hk
  have hnull : IsPlain (.keyword .NULL) ∧ IsFlat (.keyword .NULL) := by decide
  have hstring : IsPlain .string ∧ IsFlat .string := by decide
  cases l with
  | null => simpa [Literal.lexemes] using hnull
  | string => simpa [Literal.lexemes] using hstring
  | int t => exact hsigned .int t (by decide)
  | float t => exact hsigned .float t (by decide)

theorem ColumnRef.lexemes_flat (c : ColumnRef) : FlatLexemes c.lexemes := by
  have hname : IsPlain .identifier ∧ IsFlat .identifier := by decide
  have hdot : IsPlain (.symbol .dot) ∧ IsFlat (.symbol .dot) := by decide
  obtain ⟨q, n⟩ := c
  cases q with
  | none => simpa [ColumnRef.lexemes] using hname
  | some q => simp [ColumnRef.lexemes, hname, hdot]

/-- **The tokens of an expression reach its depth.** -/
theorem Expr.lexemes_balanced (e : Expr) : Balanced e.depth (lexemeKinds e.lexemes) := by
  have hname : Balanced 0 [.identifier] := .single (by decide) (by decide)
  induction e with
  | literal l => exact l.lexemes_flat.balanced
  | column c => exact c.lexemes_flat.balanced
  | aggregateAll f =>
    have hstar : Balanced 0 [.symbol .star] := .single (by decide) (by decide)
    exact (hname.append hstar.paren).mono (Nat.le_max_right _ _)
  | aggregate f e ih =>
    have hcall := (hname.append ih.paren).mono (Nat.le_max_right _ _)
    simpa [Expr.lexemes, Expr.depth] using hcall
  | paren e ih =>
    have hparen := ih.paren
    simpa [Expr.lexemes, Expr.depth] using hparen
  | arith op l r ihl ihr =>
    have hop : Balanced 0 [.symbol op.symbol] :=
      .single (by cases op <;> decide) (by cases op <;> decide)
    have hsum := ihl.append (hop.append ihr)
    rw [Nat.zero_max] at hsum
    simpa [Expr.lexemes, Expr.depth] using hsum

end MiningQuery
