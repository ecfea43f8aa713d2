/-
  File:      MiningQuery/Proofs/Token/Qualifying.lean
  Subject:   What stands in front of the dots of a text.

  The name of a table and the name of a column have a dot between them. In a text it is a token, so
  the tables that a text names are read off its tokens: a dot inside a string or a number is none.

  * `Text.qualifiers` -- the texts of the tokens in front of a dot;
  * `Cites` -- texts that are put together from tokens, with these tokens in front of their dots;
  * **`Cites.qualifiers`** -- what such a text is known to cite is what it says when it is read;
  * `Cites.blank`, `Cites.comma`, `Cites.paren`, `Cites.separated` -- put together, texts cite what
    their parts do.
-/
import MiningQuery.Proofs.Token.Joining

namespace MiningQuery

/-! ## 1. Dots -/

/-- Is the first token a dot? -/
def startsWithDot (ls : List Lexeme) : Bool := ls.head?.any fun l => l.kind = .symbol .dot

/-- The texts of the tokens in front of a dot, in order. -/
def beforeDots : List Lexeme → List Text
  | [] => []
  | l :: ls => (if startsWithDot ls then [l.spelling] else []) ++ beforeDots ls

/-- The texts of the tokens in front of a dot in a text. -/
def Text.qualifiers (t : Text) : List Text := beforeDots ((lex t).tokens.map Token.lexeme)

section Dots

variable {l : Lexeme} {ls ms : List Lexeme}

theorem startsWithDot_append (hls : startsWithDot ls = false) (hms : startsWithDot ms = false) :
    startsWithDot (ls ++ ms) = false := by
  cases ls with
  | nil => exact hms
  | cons l ls => exact hls

theorem beforeDots_cons (h : startsWithDot ls = false) : beforeDots (l :: ls) = beforeDots ls := by
  rw [beforeDots, h]
  rfl

theorem beforeDots_append (hms : startsWithDot ms = false) :
    beforeDots (ls ++ ms) = beforeDots ls ++ beforeDots ms := by
  induction ls with
  | nil => rfl
  | cons l ls ih =>
    have hstart : startsWithDot (ls ++ ms) = startsWithDot ls := by
      cases ls with
      | nil => exact hms
      | cons l' ls => rfl
    rw [List.cons_append, beforeDots, beforeDots, hstart, ih, List.append_assoc]

/-- Without a dot nothing stands in front of one. -/
theorem beforeDots_eq_nil (h : ∀ l ∈ ls, l.kind ≠ .symbol .dot) :
    startsWithDot ls = false ∧ beforeDots ls = [] := by
  induction ls with
  | nil => exact ⟨rfl, rfl⟩
  | cons l ls ih =>
    obtain ⟨hl, hls⟩ := List.forall_mem_cons.mp h
    obtain ⟨hstart, hnone⟩ := ih hls
    exact ⟨decide_eq_false hl, (beforeDots_cons hstart).trans hnone⟩

/-- Only the kinds and the texts of tokens count. -/
theorem beforeDots_exact (ls : List Lexeme) :
    beforeDots (ls.map fun l => .exact l.kind l.spelling) = beforeDots ls := by
  induction ls with
  | nil => rfl
  | cons l ls ih =>
    have hstart : startsWithDot (ls.map fun l => .exact l.kind l.spelling) = startsWithDot ls := by
      cases ls <;> rfl
    rw [List.map_cons, beforeDots, beforeDots, hstart, ih]
    rfl

end Dots

/-! ## 2. Texts that cite -/

/-- The text is put together from tokens, the first of which is no dot, and those in front of a dot
    have the texts `qs`. -/
def Cites (t : Text) (qs : List Text) : Prop :=
  ∃ ls, Printed t ls ∧ startsWithDot ls = false ∧ beforeDots ls = qs

namespace Cites

variable {t u : Text} {qs rs : List Text} {ls : List Lexeme}

/-- **What the text cites is what it says when it is read.** -/
theorem qualifiers (h : Cites t qs) : Text.qualifiers t = qs := by
  obtain ⟨ls, hprinted, -, rfl⟩ := h
  have htokens := hprinted.lexes.cutInto.tokens
  rw [Piece.filterMap_lexeme] at htokens
  have hend : startsWithDot [.exact .endOfInput []] = false := by decide
  rw [Text.qualifiers, map_lexeme_lex, htokens, beforeDots_append hend, beforeDots_exact]
  exact List.append_nil _

/-- A text without a dot among its tokens cites nothing. -/
theorem of_no_dot (h : Printed t ls) (hls : ∀ l ∈ ls, l.kind ≠ .symbol .dot) : Cites t [] :=
  ⟨ls, h, beforeDots_eq_nil hls⟩

theorem empty : Cites [] [] := of_no_dot .empty fun _ h => absurd h List.not_mem_nil

theorem exact (kind : TokenKind) (h : kind.admits t = true) (hend : kind ≠ .endOfInput)
    (hdot : kind ≠ .symbol .dot) : Cites t [] :=
  of_no_dot (.exact h hend) (List.forall_mem_singleton.mpr hdot)

theorem word (k : Keyword) : Cites k.spelling [] :=
  of_no_dot (.word k) (List.forall_mem_singleton.mpr (by simp))

theorem sign {s : Symbol} (h : s ≠ .dot) : Cites s.spelling [] :=
  of_no_dot (.sign s) (List.forall_mem_singleton.mpr fun hkind => h (TokenKind.symbol.inj hkind))

theorem blank (ht : Cites t qs) (hu : Cites u rs) : Cites (t ++ 32 :: u) (qs ++ rs) := by
  obtain ⟨ls, hls, hstart, rfl⟩ := ht
  obtain ⟨ms, hms, hstart', rfl⟩ := hu
  exact ⟨_, hls.blank hms, startsWithDot_append hstart hstart', beforeDots_append hstart'⟩

theorem comma (ht : Cites t qs) (hu : Cites u rs) : Cites (t ++ 44 :: 32 :: u) (qs ++ rs) := by
  obtain ⟨ls, hls, hstart, rfl⟩ := ht
  obtain ⟨ms, hms, hstart', rfl⟩ := hu
  have hcomma : startsWithDot (.sign .comma :: ms) = false := rfl
  refine ⟨_, hls.comma hms, startsWithDot_append hstart hcomma, ?_⟩
  rw [beforeDots_append hcomma, beforeDots_cons hstart']

theorem paren (ht : Cites t qs) : Cites (40 :: (t ++ [41])) qs := by
  obtain ⟨ls, hls, hstart, rfl⟩ := ht
  have hclose : startsWithDot [.sign .closeParen] = false := rfl
  refine ⟨_, hls.paren, rfl, ?_⟩
  rw [beforeDots_cons (startsWithDot_append hstart hclose), beforeDots_append hclose]
  exact List.append_nil _

theorem indented (ht : Cites t qs) : Cites (32 :: t) qs := by
  obtain ⟨ls, hls, h⟩ := ht
  exact ⟨ls, hls.indented, h⟩

/-- Two texts, the second of which starts with what ends a token. -/
theorem followed (ht : Cites t qs) (hu : Cites u rs) (hbreaks : Breaks u) :
    Cites (t ++ u) (qs ++ rs) := by
  obtain ⟨ls, hls, hstart, rfl⟩ := ht
  obtain ⟨ms, hms, hstart', rfl⟩ := hu
  exact ⟨_, hls.followed hms hbreaks, startsWithDot_append hstart hstart',
    beforeDots_append hstart'⟩

/-- A list with commas cites what its items do. -/
theorem separated {α : Type} {f : α → Text} {g : α → List Text} {xs : List α}
    (h : ∀ x ∈ xs, Cites (f x) (g x)) :
    Cites (Text.join (ascii ", ") (xs.map f)) (xs.flatMap g) := by
  induction xs with
  | nil => exact empty
  | cons x xs ih =>
    obtain ⟨hx, hxs⟩ := List.forall_mem_cons.mp h
    cases xs with
    | nil => simpa [Text.join] using hx
    | cons y ys =>
      have hlist := hx.comma (ih hxs)
      simpa [Text.join, ascii, List.intercalate_cons_cons] using hlist

end Cites

end MiningQuery
