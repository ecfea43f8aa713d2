/-
  File:      MiningQuery/Proofs/Token/Printing.lean
  Subject:   Texts that are cut into the tokens that they were put together from.

  A token is read back if what follows it does not go on with it. So a text is built from its
  end: `Lexes` puts a token, or a blank, before a text that is already cut.

  * `mayFollow` -- the bytes that do not go on with a token of a kind;
  * **`first_token`** -- a token that is not gone on with is the first piece of the text;
  * **`Lexes.lex`** -- a text that is put together so is cut without an error;
  * `Printed` -- texts that may stand before a blank, a comma or a closing parenthesis;
  * `separated` -- the tokens of a list with commas.
-/
import Mathlib.Data.List.TakeWhile
import MiningQuery.Proofs.Token.Spelling

namespace MiningQuery

/-! ## 1. Bytes behind a token -/

/-- Does a byte not go on with a token of the kind? -/
def mayFollow : TokenKind → UInt8 → Bool
  | .keyword _, b | .identifier, b => !isWordPart b
  | .int, b => !isDigit b && b != 46
  | .float, b => !isDigit b
  | .symbol .minus, b => b != 45
  | .symbol .lt, b => b != 61 && b != 62
  | .symbol .gt, b => b != 61
  | _, _ => true

/-- The text does not go on with a token of the kind. -/
def Ends (kind : TokenKind) (rest : Text) : Prop := ∀ b ∈ rest.head?, mayFollow kind b = true

/-- Only the end of the input has an empty text. -/
theorem TokenKind.eq_endOfInput_of_admits {kind : TokenKind} (h : kind.admits [] = true) :
    kind = .endOfInput := by
  cases kind with
  | endOfInput => rfl
  | symbol s => cases s <;> cases h
  | _ => cases h

/-- A run of a class ends where the text does or a byte of no such class comes. -/
theorem span_of_head {p : UInt8 → Bool} {run rest : Text} (hrun : ∀ x ∈ run, p x = true)
    (hrest : ∀ b ∈ rest.head?, p b = false) :
    (run ++ rest).takeWhile p = run ∧ (run ++ rest).dropWhile p = rest := by
  cases rest with
  | nil =>
    rw [List.append_nil]
    exact ⟨List.takeWhile_eq_self_iff.mpr hrun, List.dropWhile_eq_nil_iff.mpr hrun⟩
  | cons b rest => exact span_append hrun (hrest b rfl) rest

namespace Piece

theorem wordStart_ne {c : UInt8} (h : isWordStart c = true) : isBlank c = false ∧ c ≠ 45 := by
  simp only [isWordStart, isLetter, isUpper, isLower, isBlank] at *
  grind

theorem digit_ne {c : UInt8} (h : isDigit c = true) :
    isBlank c = false ∧ c ≠ 45 ∧ isWordStart c = false := by
  simp only [isWordStart, isLetter, isUpper, isLower, isBlank, isDigit] at *
  grind

theorem quote_ne {c : UInt8} (h : isQuote c = true) :
    isBlank c = false ∧ c ≠ 45 ∧ isWordStart c = false ∧ isDigit c = false := by
  simp only [isQuote, singleQuote, doubleQuote, Bool.or_eq_true, beq_iff_eq] at h
  rcases h with rfl | rfl <;> decide

theorem first_word {c : UInt8} {cs rest : Text} (hword : isWord (c :: cs) = true)
    (hrest : ∀ b ∈ rest.head?, isWordPart b = false) :
    first c (cs ++ rest) = (⟨.token (wordKind (c :: cs)), c :: cs⟩, rest) := by
  obtain ⟨hc, hcs⟩ := Bool.and_eq_true_iff.mp hword
  obtain ⟨hblank, hminus⟩ := wordStart_ne hc
  obtain ⟨htake, hdrop⟩ := span_of_head (List.all_eq_true.mp hcs) hrest
  simp [first, hblank, hminus, hc, word, htake, hdrop]

theorem first_int {c : UInt8} {cs rest : Text} (hdigits : isDigits (c :: cs) = true)
    (hrest : ∀ b ∈ rest.head?, isDigit b = false ∧ b ≠ 46) :
    first c (cs ++ rest) = (⟨.token .int, c :: cs⟩, rest) := by
  obtain ⟨hc, hcs⟩ := List.forall_mem_cons.mp (isDigits_iff.mp hdigits).2
  obtain ⟨hblank, hminus, hstart⟩ := digit_ne hc
  obtain ⟨htake, hdrop⟩ := span_of_head hcs fun b hb => (hrest b hb).1
  have hnumber : number c (cs ++ rest) = (⟨.token .int, c :: cs⟩, rest) := by
    unfold number
    rw [htake, hdrop]
    split
    · exact absurd rfl (hrest 46 rfl).2
    · rfl
  simp [first, hblank, hminus, hstart, hc, hnumber]

theorem first_float {c : UInt8} {cs rest : Text} (hdecimal : isDecimal (c :: cs) = true)
    (hrest : ∀ b ∈ rest.head?, isDigit b = false) :
    first c (cs ++ rest) = (⟨.token .float, c :: cs⟩, rest) := by
  obtain ⟨whole, fraction, hwhole, hfraction, e⟩ := isDecimal_iff.mp hdecimal
  obtain _ | ⟨w, ws⟩ := whole
  · cases hwhole
  obtain _ | ⟨d, ds⟩ := fraction
  · cases hfraction
  obtain ⟨rfl, rfl⟩ := List.cons.inj e
  obtain ⟨hc, hws⟩ := List.forall_mem_cons.mp (isDigits_iff.mp hwhole).2
  obtain ⟨hd, hds⟩ := List.forall_mem_cons.mp (isDigits_iff.mp hfraction).2
  obtain ⟨hblank, hminus, hstart⟩ := digit_ne hc
  obtain ⟨htake, hdrop⟩ := span_append hws (show isDigit 46 = false from rfl) (d :: ds ++ rest)
  obtain ⟨htake', hdrop'⟩ := span_of_head hds hrest
  have hnumber : number c (ws ++ 46 :: (d :: ds ++ rest)) =
      (⟨.token .float, c :: (ws ++ 46 :: d :: ds)⟩, rest) := by
    unfold number
    rw [htake, hdrop]
    simp [hd, htake', hdrop']
  simp [first, hblank, hminus, hstart, hc] at hnumber ⊢
  exact hnumber

theorem first_string {c : UInt8} {cs : Text} (hquoted : isQuoted (c :: cs) = true) (rest : Text) :
    first c (cs ++ rest) = (⟨.token .string, c :: cs⟩, rest) := by
  obtain ⟨q, body, hq, hbody, e⟩ := isQuoted_iff.mp hquoted
  obtain ⟨rfl, rfl⟩ := List.cons.inj e
  obtain ⟨hblank, hminus, hstart, hdigit⟩ := quote_ne hq
  have hrun : ∀ b ∈ body, (b != c && b != 10) = true := by
    intro b hb
    simpa using hbody b hb
  obtain ⟨htake, hdrop⟩ := span_append hrun (show (c != c && c != 10) = false by simp) rest
  have hstring : string c (body ++ c :: rest) = (⟨.token .string, c :: (body ++ [c])⟩, rest) := by
    unfold string
    rw [htake, hdrop]
    simp
  simp [first, hblank, hminus, hstart, hdigit, hq, hstring]

theorem first_symbol {s : Symbol} {c : UInt8} {cs rest : Text}
    (hs : (TokenKind.symbol s).admits (c :: cs) = true) (hrest : Ends (.symbol s) rest) :
    first c (cs ++ rest) = (⟨.token (.symbol s), c :: cs⟩, rest) := by
  simp only [TokenKind.admits, Bool.or_eq_true, Bool.and_eq_true, beq_iff_eq] at hs
  rcases hs with hs | ⟨rfl, hs⟩
  · cases s with
    | minus =>
      have hspelling : Symbol.minus.spelling = [45] := rfl
      obtain ⟨rfl, rfl⟩ := List.cons.inj (hs.trans hspelling)
      cases rest with
      | nil => rfl
      | cons b rest =>
        have hb : b ≠ 45 := by simpa [mayFollow] using hrest b rfl
        have hcomment : ((45 : UInt8) == 45 && (b :: rest).head? == some 45) = false := by
          simp [hb]
        rw [List.nil_append, first, hcomment]
        rfl
    | lt =>
      have hspelling : Symbol.lt.spelling = [60] := rfl
      obtain ⟨rfl, rfl⟩ := List.cons.inj (hs.trans hspelling)
      cases rest with
      | nil => rfl
      | cons b rest =>
        obtain ⟨hle, hne⟩ : b ≠ 61 ∧ b ≠ 62 := by simpa [mayFollow] using hrest b rfl
        have hlookup : [((61 : UInt8), Symbol.le), (62, .ne)].lookup b = none := by
          simp [hle, hne]
        show pair [(61, .le), (62, .ne)] _ 60 (b :: rest) = _
        simp only [pair, hlookup]
    | gt =>
      have hspelling : Symbol.gt.spelling = [62] := rfl
      obtain ⟨rfl, rfl⟩ := List.cons.inj (hs.trans hspelling)
      cases rest with
      | nil => rfl
      | cons b rest =>
        have hge : b ≠ 61 := by simpa [mayFollow] using hrest b rfl
        have hlookup : [((61 : UInt8), Symbol.ge)].lookup b = none := by simp [hge]
        show pair [(61, .ge)] _ 62 (b :: rest) = _
        simp only [pair, hlookup]
    | _ =>
      obtain ⟨rfl, rfl⟩ := List.cons.inj hs
      rfl
  · obtain ⟨rfl, rfl⟩ := List.cons.inj hs
    rfl

/-- **A token that is not gone on with is the first piece of the text.** -/
theorem first_token {kind : TokenKind} {c : UInt8} {cs rest : Text}
    (h : kind.admits (c :: cs) = true) (hrest : Ends kind rest) :
    first c (cs ++ rest) = (⟨.token kind, c :: cs⟩, rest) := by
  cases kind with
  | keyword k =>
    obtain ⟨hword, hk⟩ := Bool.and_eq_true_iff.mp h
    have hkind : wordKind (c :: cs) = .keyword k := by simp [wordKind, beq_iff_eq.mp hk]
    rw [first_word hword fun b hb => by simpa [mayFollow] using hrest b hb, hkind]
  | identifier =>
    obtain ⟨hword, hk⟩ := Bool.and_eq_true_iff.mp h
    have hkind : wordKind (c :: cs) = .identifier := by
      simp [wordKind, Option.isNone_iff_eq_none.mp hk]
    rw [first_word hword fun b hb => by simpa [mayFollow] using hrest b hb, hkind]
  | int => exact first_int h fun b hb => by simpa [mayFollow] using hrest b hb
  | float => exact first_float h fun b hb => by simpa [mayFollow] using hrest b hb
  | string => exact first_string h rest
  | symbol s => exact first_symbol h hrest
  | endOfInput => cases h

/-- Blanks before a text make no token. -/
theorem all_blank (rest : Text) : ∃ b : Text, ∃ rest' : Text,
    all (32 :: rest) = ⟨.blank, b⟩ :: all rest' ∧
      (all rest = all rest' ∨ ∃ b' : Text, all rest = ⟨.blank, b'⟩ :: all rest') := by
  refine ⟨32 :: rest.takeWhile isBlank, rest.dropWhile isBlank, ?_, ?_⟩
  · rw [all]
    rfl
  · cases rest with
    | nil => exact .inl rfl
    | cons c cs =>
      by_cases hc : isBlank c = true
      · refine .inr ⟨c :: cs.takeWhile isBlank, ?_⟩
        rw [all, List.dropWhile_cons_of_pos hc]
        simp [first, hc, run]
      · rw [List.dropWhile_cons_of_neg hc]
        exact .inl rfl

end Piece

/-! ## 2. Texts put together from tokens -/

/-- The text of a lexeme: the one that it keeps, or the usual spelling of its kind. -/
def Lexeme.spelling (l : Lexeme) : Text :=
  l.text.getD <|
    match l.kind with
    | .keyword k => k.spelling
    | .symbol s => s.spelling
    | _ => []

/-- Tokens and blanks, each token followed by what does not go on with it. -/
inductive Lexes : Text → List Lexeme → Prop
  | done : Lexes [] []
  | blank {rest : Text} {ls : List Lexeme} : Lexes rest ls → Lexes (32 :: rest) ls
  | token {rest : Text} {l : Lexeme} {ls : List Lexeme} : l.kind.admits l.spelling = true →
      l.kind ≠ .endOfInput → Ends l.kind rest → Lexes rest ls →
      Lexes (l.spelling ++ rest) (l :: ls)

/-- The token that a piece is. -/
def Piece.lexeme? (p : Piece) : Option Lexeme :=
  match p.kind with
  | .token kind => some (.exact kind p.text)
  | _ => none

/-- No piece is rejected, and those that are tokens are the lexemes in order. -/
structure CutInto (ps : List Piece) (ls : List Lexeme) : Prop where
  accepted : ∀ p ∈ ps, p.kind ≠ .rejected
  tokens : ps.filterMap Piece.lexeme? = ls.map fun l => .exact l.kind l.spelling

theorem cutInto_blank {b : Text} {ps : List Piece} {ls : List Lexeme} :
    CutInto (⟨.blank, b⟩ :: ps) ls ↔ CutInto ps ls := by
  constructor
  · intro h
    obtain ⟨haccepted, htokens⟩ := h
    exact ⟨(List.forall_mem_cons.mp haccepted).2, htokens⟩
  · intro h
    obtain ⟨haccepted, htokens⟩ := h
    exact ⟨List.forall_mem_cons.mpr ⟨by simp, haccepted⟩, htokens⟩

/-- The pieces of a text that is put together from tokens are these tokens. -/
theorem Lexes.cutInto {t : Text} {ls : List Lexeme} (h : Lexes t ls) :
    CutInto (Piece.all t) ls := by
  induction h with
  | done =>
    rw [Piece.all]
    exact ⟨fun _ h => absurd h List.not_mem_nil, rfl⟩
  | @blank rest ls _ ih =>
    obtain ⟨b, rest', e, hrest⟩ := Piece.all_blank rest
    rw [e]
    refine cutInto_blank.mpr ?_
    rcases hrest with hrest | ⟨b', hrest⟩
    · rwa [hrest] at ih
    · rw [hrest] at ih
      exact cutInto_blank.mp ih
  | @token rest l ls hl hkind hends _ ih =>
    cases hspelling : l.spelling with
    | nil =>
      rw [hspelling] at hl
      exact absurd (TokenKind.eq_endOfInput_of_admits hl) hkind
    | cons c cs =>
      rw [hspelling] at hl
      have hfirst := Piece.first_token hl hends
      rw [List.cons_append, Piece.all, hfirst]
      refine ⟨List.forall_mem_cons.mpr ⟨by simp, ih.accepted⟩, ?_⟩
      rw [List.filterMap_cons, List.map_cons, ih.tokens, hspelling]
      rfl

/-- The tokens of pieces are what the pieces say, wherever they stand. -/
theorem CutInto.spells {ps : List Piece} {ls : List Lexeme} (h : CutInto ps ls) (loc : Location) :
    Spells ls ((Piece.locate loc ps).filterMap Piece.token?) := by
  obtain ⟨-, htokens⟩ := h
  induction ps generalizing ls loc with
  | nil =>
    obtain rfl := List.map_eq_nil_iff.mp htokens.symm
    exact spells_nil.mpr rfl
  | cons p ps ih =>
    cases hk : p.kind with
    | token kind =>
      have hp : p.lexeme? = some (.exact kind p.text) := by simp only [Piece.lexeme?, hk]
      rw [List.filterMap_cons, hp] at htokens
      obtain ⟨l, ls, rfl, hl, hls⟩ := List.map_eq_cons_iff.mp htokens.symm
      have htoken : Piece.token? (loc, p) = some ⟨kind, p.text, loc⟩ := by
        simp only [Piece.token?, hk]
      rw [Piece.locate, List.filterMap_cons, htoken]
      refine spells_cons.mpr ⟨_, _, rfl, ?_, ih _ hls.symm⟩
      obtain ⟨hkind, htext⟩ := Lexeme.mk.inj hl
      refine ⟨hkind.symm, fun s hs => ?_⟩
      have hs' : l.text = some s := hs
      have hspelling : l.spelling = s := by rw [Lexeme.spelling, hs', Option.getD_some]
      rw [← hspelling]
      exact (Option.some.inj htext).symm
    | _ =>
      have hp : p.lexeme? = none := by simp only [Piece.lexeme?, hk]
      have htoken : Piece.token? (loc, p) = none := by simp only [Piece.token?, hk]
      rw [List.filterMap_cons, hp] at htokens
      rw [Piece.locate, List.filterMap_cons, htoken]
      exact ih _ htokens

/-- **A text that is put together from tokens is cut into them without an error.** -/
theorem Lexes.lex {t : Text} {ls : List Lexeme} (h : Lexes t ls) :
    (lex t).errors = [] ∧ ∃ body last, (MiningQuery.lex t).tokens = body ++ [last] ∧
      last.kind = .endOfInput ∧ Spells ls body := by
  have hcut := h.cutInto
  refine ⟨?_, _, _, rfl, rfl, hcut.spells .start⟩
  refine List.filterMap_eq_nil_iff.mpr fun lp hlp => ?_
  have hp : lp.2 ∈ Piece.all t := by
    rw [← Piece.map_locate .start (Piece.all t)]
    exact List.mem_map_of_mem hlp
  have hrejected := hcut.accepted lp.2 hp
  unfold LexError.ofPiece?
  split
  · rename_i e
    exact absurd e hrejected
  · rfl

/-! ## 3. Printed texts -/

/-- What a printed text may stand before: nothing, a blank, a comma or a closing parenthesis. -/
def Breaks (rest : Text) : Prop := ∀ b ∈ rest.head?, b = 32 ∨ b = 44 ∨ b = 41

theorem breaks_nil : Breaks [] := fun _ h => by cases h

theorem breaks_cons {b : UInt8} {rest : Text} : Breaks (b :: rest) ↔ b = 32 ∨ b = 44 ∨ b = 41 := by
  simp [Breaks]

theorem Breaks.append {t rest : Text} (ht : Breaks t) (hrest : Breaks rest) :
    Breaks (t ++ rest) := by
  cases t with
  | nil => exact hrest
  | cons b t => exact breaks_cons.mpr (breaks_cons.mp ht)

/-- Such bytes go on with no token. -/
theorem Breaks.ends {rest : Text} (h : Breaks rest) (kind : TokenKind) : Ends kind rest := by
  intro b hb
  rcases h b hb with rfl | rfl | rfl <;> rcases kind with k | _ | _ | _ | _ | s | _ <;>
    first | rfl | (cases s <;> rfl)

/-- The text may stand before any such text, and is cut into these tokens there. -/
structure Printed (t : Text) (ls : List Lexeme) : Prop where
  before : ∀ {rest : Text} {ms : List Lexeme}, Breaks rest → Lexes rest ms →
    Lexes (t ++ rest) (ls ++ ms)

namespace Printed

variable {t u : Text} {ls ms : List Lexeme}

/-- A token is printed as its text. -/
theorem token {l : Lexeme} (hl : l.kind.admits l.spelling = true) (hk : l.kind ≠ .endOfInput) :
    Printed l.spelling [l] := ⟨fun hrest h => .token hl hk (hrest.ends _) h⟩

theorem exact {kind : TokenKind} {t : Text} (h : kind.admits t = true)
    (hk : kind ≠ .endOfInput) : Printed t [.exact kind t] := token (l := .exact kind t) h hk

theorem word (k : Keyword) : Printed k.spelling [.word k] :=
  token (l := .word k) (by cases k <;> decide) (by simp)

theorem sign (s : Symbol) : Printed s.spelling [.sign s] :=
  token (l := .sign s) (by cases s <;> decide) (by simp)

/-- Two printed texts with a blank between them. -/
theorem blank (ht : Printed t ls) (hu : Printed u ms) : Printed (t ++ 32 :: u) (ls ++ ms) := by
  refine ⟨fun {rest ns} hrest h => ?_⟩
  rw [List.append_assoc, List.append_assoc]
  exact ht.before (breaks_cons.mpr (.inl rfl)) (.blank (hu.before hrest h))

/-- A printed text with a comma and a blank before the next one. -/
theorem comma (ht : Printed t ls) (hu : Printed u ms) :
    Printed (t ++ 44 :: 32 :: u) (ls ++ .sign .comma :: ms) := by
  refine ⟨fun {rest ns} hrest h => ?_⟩
  rw [List.append_assoc, List.append_assoc]
  refine ht.before (breaks_cons.mpr (.inr (.inl rfl))) ?_
  exact .token (l := .sign .comma) rfl (by simp) (fun _ _ => rfl) (.blank (hu.before hrest h))

/-- A printed text in parentheses. -/
theorem paren (ht : Printed t ls) :
    Printed (40 :: (t ++ [41])) (.sign .openParen :: (ls ++ [.sign .closeParen])) := by
  refine ⟨fun {rest ns} hrest h => ?_⟩
  have hclose : Lexes (41 :: rest) (.sign .closeParen :: ns) :=
    .token (l := .sign .closeParen) rfl (by simp) (fun _ _ => rfl) h
  have hinner := ht.before (breaks_cons.mpr (.inr (.inr rfl))) hclose
  simp only [List.cons_append, List.append_assoc, List.nil_append]
  exact .token (l := .sign .openParen) rfl (by simp) (fun _ _ => rfl) hinner

/-- Nothing is printed as no token. -/
theorem empty : Printed [] [] := ⟨fun _ h => h⟩

/-- A blank before a printed text makes no token. -/
theorem indented (ht : Printed t ls) : Printed (32 :: t) ls :=
  ⟨fun hrest h => .blank (ht.before hrest h)⟩

/-- Two printed texts, the second of which starts with what ends a token. -/
theorem followed (ht : Printed t ls) (hu : Printed u ms) (hbreaks : Breaks u) :
    Printed (t ++ u) (ls ++ ms) := by
  refine ⟨fun {rest ns} hrest h => ?_⟩
  rw [List.append_assoc, List.append_assoc]
  exact ht.before (hbreaks.append hrest) (hu.before hrest h)

/-- A token and a printed text right behind it, which does not go on with the token. -/
theorem joined {l : Lexeme} {b : UInt8} (hl : l.kind.admits l.spelling = true)
    (hk : l.kind ≠ .endOfInput) (hu : Printed u ms) (hb : u.head? = some b)
    (hends : mayFollow l.kind b = true) : Printed (l.spelling ++ u) (l :: ms) := by
  refine ⟨fun {rest ns} hrest h => ?_⟩
  rw [List.append_assoc]
  refine .token hl hk (fun b' hb' => ?_) (hu.before hrest h)
  rw [List.head?_append, hb, Option.some_or] at hb'
  obtain rfl := Option.some.inj hb'
  exact hends

/-- A minus and a printed text right behind it: only a second minus would make a comment of it. -/
theorem minus {b : UInt8} (hu : Printed u ms) (hb : u.head? = some b) (hne : b ≠ 45) :
    Printed (45 :: u) (.sign .minus :: ms) := by
  have hends : mayFollow (.symbol .minus) b = true := by simpa [mayFollow] using hne
  exact joined (l := .sign .minus) rfl (by simp) hu hb hends

/-- A text that is printed up to its end is cut into its tokens. -/
theorem lexes (ht : Printed t ls) : Lexes t ls := by
  have h := ht.before breaks_nil .done
  rwa [List.append_nil, List.append_nil] at h

end Printed

/-! ## 4. Lists -/

/-- The tokens of a list, with commas between its items. -/
def separated : List (List Lexeme) → List Lexeme
  | [] => []
  | [ls] => ls
  | ls :: more => ls ++ .sign .comma :: separated more

/-- A list is printed with commas between its printed items. -/
theorem Printed.separated {α : Type} {f : α → Text} {g : α → List Lexeme} {xs : List α}
    (hne : xs ≠ []) (h : ∀ x ∈ xs, Printed (f x) (g x)) :
    Printed (Text.join (ascii ", ") (xs.map f)) (separated (xs.map g)) := by
  induction xs with
  | nil => exact absurd rfl hne
  | cons x xs ih =>
    obtain ⟨hx, hxs⟩ := List.forall_mem_cons.mp h
    cases xs with
    | nil => simpa [Text.join, MiningQuery.separated] using hx
    | cons y ys =>
      have hlist := hx.comma (ih (List.cons_ne_nil _ _) hxs)
      simpa [Text.join, MiningQuery.separated, ascii, List.intercalate_cons_cons] using hlist

/-- What holds of commas and of the tokens of the items holds of the tokens of the list. -/
theorem forall_mem_separated {P : Lexeme → Prop} (hcomma : P (.sign .comma))
    {lss : List (List Lexeme)} (h : ∀ ls ∈ lss, ∀ l ∈ ls, P l) : ∀ l ∈ separated lss, P l := by
  induction lss with
  | nil => exact fun l hl => absurd hl List.not_mem_nil
  | cons ls lss ih =>
    obtain ⟨hls, hlss⟩ := List.forall_mem_cons.mp h
    cases lss with
    | nil => exact hls
    | cons ms mss =>
      exact List.forall_mem_append.mpr ⟨hls, List.forall_mem_cons.mpr ⟨hcomma, ih hlss⟩⟩

end MiningQuery
