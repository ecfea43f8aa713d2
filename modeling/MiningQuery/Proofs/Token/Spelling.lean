/-
  File:      MiningQuery/Proofs/Token/Spelling.lean
  Subject:   What a tree says about the tokens that it stands for.

  A tree keeps the text of names and constants and forgets how a keyword was spelled, which of
  the two signs for `≠` was used, and where the tokens stood:

  * `Lexeme` -- the kind of a token, and its text where a tree keeps it;
  * `Spells` -- a list of tokens is a list of lexemes, one by one and in order.
-/
import Mathlib.Data.List.Forall2
import MiningQuery.Proofs.Token.Shape

namespace MiningQuery

/-- The kind of a token, and its text where it matters. -/
structure Lexeme where
  kind : TokenKind
  text : Option Text
  deriving DecidableEq, Repr

namespace Lexeme

/-- A keyword, spelled in any letter case. -/
def word (k : Keyword) : Lexeme := ⟨.keyword k, none⟩

/-- A symbol, spelled in any way that it has. -/
def sign (s : Symbol) : Lexeme := ⟨.symbol s, none⟩

/-- A token with exactly this text. -/
def exact (kind : TokenKind) (t : Text) : Lexeme := ⟨kind, some t⟩

@[simp] theorem kind_word (k : Keyword) : (word k).kind = .keyword k := rfl

@[simp] theorem kind_sign (s : Symbol) : (sign s).kind = .symbol s := rfl

@[simp] theorem kind_exact (kind : TokenKind) (t : Text) : (exact kind t).kind = kind := rfl

/-- Is the token one that the lexeme stands for? -/
def Spells (l : Lexeme) (t : Token) : Prop := t.kind = l.kind ∧ ∀ s ∈ l.text, t.text = s

instance (l : Lexeme) (t : Token) : Decidable (l.Spells t) :=
  inferInstanceAs (Decidable (_ ∧ _))

@[simp] theorem word_spells {k : Keyword} {t : Token} :
    (word k).Spells t ↔ t.kind = .keyword k := by simp [Spells, word]

@[simp] theorem sign_spells {s : Symbol} {t : Token} :
    (sign s).Spells t ↔ t.kind = .symbol s := by simp [Spells, sign]

@[simp] theorem exact_spells {kind : TokenKind} {s : Text} {t : Token} :
    (exact kind s).Spells t ↔ t.kind = kind ∧ t.text = s := by simp [Spells, exact]

end Lexeme

/-- The tokens are those that the lexemes stand for, in the same order. -/
def Spells (ls : List Lexeme) (ts : List Token) : Prop := List.Forall₂ Lexeme.Spells ls ts

@[simp] theorem spells_nil {ts : List Token} : Spells [] ts ↔ ts = [] := List.forall₂_nil_left_iff

@[simp] theorem spells_cons {l : Lexeme} {ls : List Lexeme} {ts : List Token} :
    Spells (l :: ls) ts ↔ ∃ t us, ts = t :: us ∧ l.Spells t ∧ Spells ls us := by
  rw [Spells, List.forall₂_cons_left_iff]
  constructor
  · intro h
    obtain ⟨t, us, ht, hus, rfl⟩ := h
    exact ⟨t, us, rfl, ht, hus⟩
  · intro h
    obtain ⟨t, us, rfl, ht, hus⟩ := h
    exact ⟨t, us, ht, hus, rfl⟩

@[simp] theorem spells_append {ls ms : List Lexeme} {ts : List Token} :
    Spells (ls ++ ms) ts ↔ ∃ us vs, ts = us ++ vs ∧ Spells ls us ∧ Spells ms vs := by
  constructor
  · intro h
    refine ⟨_, _, (List.take_append_drop ls.length ts).symm, ?_, ?_⟩
    · exact (List.forall₂_take_append ts ls ms h.flip).flip
    · exact (List.forall₂_drop_append ts ls ms h.flip).flip
  · intro h
    obtain ⟨us, vs, rfl, hus, hvs⟩ := h
    exact List.rel_append hus hvs

/-- Tokens have the kinds of their lexemes. -/
theorem Spells.kinds {ls : List Lexeme} {ts : List Token} (h : Spells ls ts) :
    ts.map (·.kind) = ls.map (·.kind) := by
  induction h with
  | nil => rfl
  | cons ht _ ih => rw [List.map_cons, List.map_cons, ih, ht.1]

/-- As many tokens as lexemes. -/
theorem Spells.length_eq {ls : List Lexeme} {ts : List Token} (h : Spells ls ts) :
    ls.length = ts.length := List.Forall₂.length_eq h

end MiningQuery
