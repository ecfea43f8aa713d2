/-
  File:      MiningQuery/Proofs/Token/Shape.lean
  Subject:   The shape of a token's text, kind by kind, and of the token list of a text.

  * `TokenKind.admits` says which texts a token of a kind may have;
  * **`lex_shaped`** -- every token of a text has the shape of its kind;
  * **`lex_endsOnce`** -- the end of the input is the last token of a text and no other one.
-/
import MiningQuery.Token.Lexer

namespace MiningQuery

/-! ## 1. Shapes -/

/-- Digits, at least one. -/
def isDigits (t : Text) : Bool := !t.isEmpty && t.all isDigit

/-- Digits, a point and digits. -/
def isDecimal (t : Text) : Bool :=
  match t.dropWhile isDigit with
  | 46 :: fraction => isDigits (t.takeWhile isDigit) && isDigits fraction
  | _ => false

/-- A letter or an underscore, and then letters, digits and underscores. -/
def isWord : Text → Bool
  | [] => false
  | c :: cs => isWordStart c && cs.all isWordPart

/-- A text between two equal quotes that holds neither this quote nor a newline. -/
def isQuoted : Text → Bool
  | [] => false
  | q :: rest =>
    isQuote q && rest.getLast? == some q && rest.dropLast.all fun b => b != q && b != 10

/-- May a token of the kind have this text? -/
def TokenKind.admits : TokenKind → Text → Bool
  | keyword k, t => isWord t && Keyword.ofText? t == some k
  | identifier, t => isWord t && (Keyword.ofText? t).isNone
  | int, t => isDigits t
  | float, t => isDecimal t
  | string, t => isQuoted t
  | symbol s, t => t == s.spelling || (s == .ne && t == ascii "<>")
  | endOfInput, t => t.isEmpty

/-- A token whose text has the shape of its kind. -/
def Token.IsShaped (t : Token) : Prop := t.kind.admits t.text = true

instance (t : Token) : Decidable t.IsShaped := inferInstanceAs (Decidable (_ = true))

/-- Every token has the shape of its kind. -/
def Shaped (ts : List Token) : Prop := ∀ t ∈ ts, t.IsShaped

instance (ts : List Token) : Decidable (Shaped ts) :=
  inferInstanceAs (Decidable (∀ t ∈ ts, t.IsShaped))

@[simp] theorem shaped_nil : Shaped [] := fun _ h => absurd h List.not_mem_nil

@[simp] theorem shaped_cons {t : Token} {ts : List Token} :
    Shaped (t :: ts) ↔ t.IsShaped ∧ Shaped ts := List.forall_mem_cons

@[simp] theorem shaped_append {ts us : List Token} :
    Shaped (ts ++ us) ↔ Shaped ts ∧ Shaped us := List.forall_mem_append

/-- The end of the input is the last token and no other one. -/
def EndsOnce (ts : List Token) : Prop :=
  ∃ body last, ts = body ++ [last] ∧ last.kind = .endOfInput ∧
    ∀ t ∈ body, t.kind ≠ .endOfInput

/-! ## 2. Shapes taken apart -/

theorem isWord_iff {t : Text} :
    isWord t = true ↔
      ∃ c cs, t = c :: cs ∧ isWordStart c = true ∧ ∀ b ∈ cs, isWordPart b = true := by
  cases t with
  | nil => simp [isWord]
  | cons c cs =>
    rw [isWord, Bool.and_eq_true, List.all_eq_true]
    constructor
    · exact fun h => ⟨c, cs, rfl, h⟩
    · intro h
      obtain ⟨_, _, heq, h⟩ := h
      cases heq
      exact h

theorem isWordPart_of_isWord {t : Text} (h : isWord t = true) : ∀ b ∈ t, isWordPart b = true := by
  obtain ⟨c, cs, rfl, hc, hcs⟩ := isWord_iff.mp h
  exact List.forall_mem_cons.mpr ⟨isWordPart_of_isWordStart hc, hcs⟩

theorem isWord_append {w t : Text} (hw : isWord w = true) (ht : ∀ b ∈ t, isWordPart b = true) :
    isWord (w ++ t) = true := by
  obtain ⟨c, cs, rfl, hc, hcs⟩ := isWord_iff.mp hw
  exact isWord_iff.mpr ⟨c, cs ++ t, rfl, hc, List.forall_mem_append.mpr ⟨hcs, ht⟩⟩

theorem isDigits_iff {t : Text} : isDigits t = true ↔ t ≠ [] ∧ ∀ b ∈ t, isDigit b = true := by
  simp [isDigits, List.all_eq_true]

/-- A class that the first byte after a run is not in. -/
theorem span_append {p : UInt8 → Bool} {run : Text} {b : UInt8} (hrun : ∀ x ∈ run, p x = true)
    (hb : p b = false) (rest : Text) :
    (run ++ b :: rest).takeWhile p = run ∧ (run ++ b :: rest).dropWhile p = b :: rest := by
  rw [List.takeWhile_append_of_pos hrun, List.dropWhile_append_of_pos hrun]
  simp [hb]

theorem isDecimal_iff {t : Text} :
    isDecimal t = true ↔
      ∃ whole fraction, isDigits whole = true ∧ isDigits fraction = true ∧
        t = whole ++ 46 :: fraction := by
  constructor
  · intro h
    unfold isDecimal at h
    split at h
    · rename_i fraction e
      obtain ⟨hw, hf⟩ := Bool.and_eq_true_iff.mp h
      refine ⟨_, fraction, hw, hf, ?_⟩
      rw [← e, List.takeWhile_append_dropWhile]
    · cases h
  · intro h
    obtain ⟨whole, fraction, hw, hf, rfl⟩ := h
    obtain ⟨e₁, e₂⟩ := span_append (isDigits_iff.mp hw).2 (show isDigit 46 = false from rfl)
      fraction
    simp only [isDecimal, e₁, e₂, hw, hf, Bool.and_self]

theorem isQuoted_iff {t : Text} :
    isQuoted t = true ↔
      ∃ q body, isQuote q = true ∧ (∀ b ∈ body, b ≠ q ∧ b ≠ 10) ∧ t = q :: (body ++ [q]) := by
  constructor
  · intro h
    cases t with
    | nil => cases h
    | cons q rest =>
      simp only [isQuoted, Bool.and_eq_true, beq_iff_eq, List.all_eq_true, bne_iff_ne] at h
      obtain ⟨⟨hq, hlast⟩, hbody⟩ := h
      refine ⟨q, rest.dropLast, hq, hbody, ?_⟩
      have hne : rest ≠ [] := by rintro rfl; cases hlast
      rw [List.getLast?_eq_some_getLast hne, Option.some.injEq] at hlast
      rw [← hlast, List.dropLast_concat_getLast hne]
  · intro h
    obtain ⟨q, body, hq, hbody, rfl⟩ := h
    simp only [isQuoted, hq, Bool.true_and, List.getLast?_append, List.dropLast_concat]
    simpa using hbody

/-! ## 3. The tokens of a text -/

namespace Piece

theorem word_shaped {c : UInt8} {cs : Text} (hc : isWordStart c = true) :
    (wordKind (c :: cs.takeWhile isWordPart)).admits (c :: cs.takeWhile isWordPart) = true := by
  have hw : isWord (c :: cs.takeWhile isWordPart) = true := by
    simp only [isWord, hc, Bool.true_and]
    exact List.all_takeWhile
  cases h : Keyword.ofText? (c :: cs.takeWhile isWordPart) with
  | none => simp [wordKind, h, TokenKind.admits, hw]
  | some k => simp [wordKind, h, TokenKind.admits, hw]

theorem isDigits_run {c : UInt8} {cs : Text} (hc : isDigit c = true) :
    isDigits (c :: cs.takeWhile isDigit) = true := by
  refine isDigits_iff.mpr ⟨List.cons_ne_nil _ _, fun b hb => ?_⟩
  rcases List.mem_cons.mp hb with rfl | hb
  · exact hc
  · exact List.all_eq_true.mp List.all_takeWhile b hb

theorem number_shaped {c : UInt8} {cs : Text} (hc : isDigit c = true) {kind : TokenKind}
    (h : (number c cs).1.kind = .token kind) : kind.admits (number c cs).1.text = true := by
  unfold number at h ⊢
  split at h
  · rename_i d rest e
    split at h
    · rename_i hd
      obtain rfl : TokenKind.float = kind := by simpa using h
      simp only [hd, if_true]
      exact isDecimal_iff.mpr ⟨_, _, isDigits_run hc, isDigits_run hd, rfl⟩
    · rename_i hd
      obtain rfl : TokenKind.int = kind := by simpa using h
      simp only [hd]
      exact isDigits_run hc
  · obtain rfl : TokenKind.int = kind := by simpa using h
    exact isDigits_run hc

theorem string_shaped {q : UInt8} {cs : Text} (hq : isQuote q = true) {kind : TokenKind}
    (h : (string q cs).1.kind = .token kind) : kind.admits (string q cs).1.text = true := by
  unfold string at h ⊢
  split at h
  · rename_i b rest e
    split at h
    · rename_i hb
      obtain rfl : b = q := by simpa using hb
      obtain rfl : TokenKind.string = kind := by simpa using h
      simp only [beq_self_eq_true, if_true]
      refine isQuoted_iff.mpr ⟨b, _, hq, fun x hx => ?_, List.cons_append⟩
      simpa using List.all_eq_true.mp List.all_takeWhile x hx
    · cases h
  · cases h

/-- A symbol of two bytes has its shape if every choice has it, and so has the one byte alone. -/
theorem pair_shaped {choices : List (UInt8 × Symbol)} {alone : PieceKind} {c : UInt8} {cs : Text}
    (hchoices : ∀ p ∈ choices, (TokenKind.symbol p.2).admits [c, p.1] = true)
    (halone : ∀ kind, alone = .token kind → kind.admits [c] = true) {kind : TokenKind}
    (h : (pair choices alone c cs).1.kind = .token kind) :
    kind.admits (pair choices alone c cs).1.text = true := by
  unfold pair at h ⊢
  split at h
  · split at h
    · rename_i s e
      obtain rfl := PieceKind.token.inj h
      obtain ⟨_, _, rfl, _⟩ := List.lookup_eq_some_iff.mp e
      exact hchoices (_, s) (List.mem_append_right _ List.mem_cons_self)
    · exact halone kind h
  · exact halone kind h

theorem symbolOrRejected_shaped {c : UInt8} {cs : Text} {kind : TokenKind}
    (h : (symbolOrRejected c cs).1.kind = .token kind) :
    kind.admits (symbolOrRejected c cs).1.text = true := by
  unfold symbolOrRejected at h ⊢
  split at h
  any_goals (obtain rfl := PieceKind.token.inj h; rfl)
  · exact pair_shaped (by decide) (fun _ e => by cases e) h
  · exact pair_shaped (by decide) (fun _ e => by cases e; rfl) h
  · exact pair_shaped (by decide) (fun _ e => by cases e; rfl) h
  · cases h

/-- **A first piece that is a token has the shape of its kind.** -/
theorem first_shaped {c : UInt8} {cs : Text} {kind : TokenKind}
    (h : (first c cs).1.kind = .token kind) : kind.admits (first c cs).1.text = true := by
  unfold first at h ⊢
  split at h
  · cases h
  split at h
  · cases h
  rename_i hblank hcomment
  simp only [hblank, hcomment]
  split at h
  · rename_i hc
    obtain rfl := PieceKind.token.inj h
    simp only [hc]
    exact word_shaped hc
  split at h
  · rename_i hw hc
    simp only [hw, hc]
    exact number_shaped hc h
  split at h
  · rename_i hw hd hc
    simp only [hw, hd, hc]
    exact string_shaped hc h
  · rename_i hw hd hc
    simp only [hw, hd, hc]
    exact symbolOrRejected_shaped h

/-- Every piece that is a token has the shape of its kind. -/
theorem all_shaped (t : Text) {p : Piece} (hp : p ∈ all t) {kind : TokenKind}
    (h : p.kind = .token kind) : kind.admits p.text = true := by
  fun_induction all t with
  | case1 => cases hp
  | case2 c cs ih =>
    rcases List.mem_cons.mp hp with rfl | hp
    · exact first_shaped h
    · exact ih hp

/-- Giving places to pieces leaves the pieces as they are. -/
theorem map_locate (l : Location) (ps : List Piece) : (locate l ps).map (·.2) = ps := by
  induction ps generalizing l with
  | nil => rfl
  | cons p ps ih => simp only [locate, List.map_cons, ih]

/-- No piece is the end of the input. -/
theorem first_kind_ne_end (c : UInt8) (cs : Text) : (first c cs).1.kind ≠ .token .endOfInput := by
  intro h
  have hshape := first_shaped h
  exact first_text_ne_nil c cs (List.isEmpty_iff.mp hshape)

theorem all_kind_ne_end (t : Text) {p : Piece} (hp : p ∈ all t) : p.kind ≠ .token .endOfInput := by
  fun_induction all t with
  | case1 => cases hp
  | case2 c cs ih =>
    rcases List.mem_cons.mp hp with rfl | hp
    · exact first_kind_ne_end c cs
    · exact ih hp

/-- A token of a located piece comes from a piece of the same kind and text. -/
theorem exists_piece_of_token {ps : List Piece} {l : Location} {t : Token}
    (h : t ∈ (locate l ps).filterMap token?) :
    ∃ p ∈ ps, p.kind = .token t.kind ∧ p.text = t.text := by
  obtain ⟨⟨l', p⟩, hmem, ht⟩ := List.mem_filterMap.mp h
  have hp : p ∈ ps := by
    rw [← map_locate l ps]
    exact List.mem_map_of_mem hmem
  unfold token? at ht
  split at ht
  · rename_i e
    obtain rfl := Option.some.inj ht
    exact ⟨p, hp, e, rfl⟩
  · cases ht

end Piece

/-- **Every token of a text has the shape of its kind.** -/
theorem lex_shaped (t : Text) : Shaped (lex t).tokens := by
  refine shaped_append.mpr ⟨fun tok h => ?_, by simp [Token.IsShaped, TokenKind.admits]⟩
  obtain ⟨p, hp, hkind, htext⟩ := Piece.exists_piece_of_token h
  rw [Token.IsShaped, ← htext]
  exact Piece.all_shaped t hp hkind

/-- **The tokens of a text end with the end of the input, which stands nowhere else.** -/
theorem lex_endsOnce (t : Text) : EndsOnce (lex t).tokens := by
  refine ⟨_, _, rfl, rfl, fun tok h e => ?_⟩
  obtain ⟨p, hp, hkind, -⟩ := Piece.exists_piece_of_token h
  exact Piece.all_kind_ne_end t hp (e ▸ hkind)

end MiningQuery
