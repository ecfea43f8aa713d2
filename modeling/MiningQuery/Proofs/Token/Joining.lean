/-
  File:      MiningQuery/Proofs/Token/Joining.lean
  Subject:   The pieces of texts that are joined by a blank.

  A blank ends whatever stands before it, but for two pieces that go on to the end of their line: a
  comment, and a string without its second quote. A text without these two is cut into the same
  pieces whatever comes behind a blank, and so is what comes behind it.

  * `Piece.visible`, `SelfContained` -- the pieces of a text other than blanks, and texts in which no
    piece goes on to the end of its line;
  * **`first_before_blank`** -- a piece that ends by itself is the first one in front of a blank too;
  * **`visible_append`** -- joined by a blank, the pieces are those of the one text and of the other;
  * **`lexemes_of_visible`**, `lex_errors_eq_nil` -- texts with the same pieces have the same tokens
    but for their places, and errors both or neither.
-/
import MiningQuery.Proofs.Token.Printing

namespace MiningQuery

/-! ## 1. Blanks -/

theorem blank_ne {b : UInt8} (h : isBlank b = true) :
    isWordPart b = false ∧ isDigit b = false ∧ b ≠ 45 ∧ b ≠ 46 ∧ b ≠ 61 ∧ b ≠ 62 := by
  simp only [isWordPart, isLetter, isUpper, isLower, isBlank, isDigit] at *
  grind

/-- A byte of no class ends the runs of the class. -/
theorem span_stop {p : UInt8 → Bool} {b : UInt8} (hb : p b = false) (cs rest : Text) :
    (cs ++ b :: rest).takeWhile p = cs.takeWhile p ∧
      (cs ++ b :: rest).dropWhile p = cs.dropWhile p ++ b :: rest := by
  induction cs with
  | nil => simp [hb]
  | cons c cs ih =>
    cases hc : p c with
    | true => simpa [hc] using ih
    | false => simp [hc]

namespace Piece

/-! ## 2. Pieces in front of a blank -/

/-- Does the piece end by itself? A comment goes on to the end of its line, and so does a string
    without its second quote. -/
def endsByItself (p : Piece) : Bool :=
  match p.kind with
  | .comment => false
  | .rejected => !p.text.head?.any isQuote
  | _ => true

section BeforeBlank

variable {c b : UInt8}

theorem word_before_blank (hb : isBlank b = true) (cs rest : Text) :
    word c (cs ++ b :: rest) = ((word c cs).1, (word c cs).2 ++ b :: rest) := by
  obtain ⟨htake, hdrop⟩ := span_stop (blank_ne hb).1 cs rest
  simp only [word, htake, hdrop]

theorem number_before_blank (hb : isBlank b = true) (cs rest : Text) :
    number c (cs ++ b :: rest) = ((number c cs).1, (number c cs).2 ++ b :: rest) := by
  obtain ⟨-, hdigit, -, hpoint, -⟩ := blank_ne hb
  obtain ⟨htake, hdrop⟩ := span_stop hdigit cs rest
  simp only [number, htake, hdrop]
  cases cs.dropWhile isDigit with
  | nil => simp [hpoint]
  | cons d ds =>
    by_cases hd : d = 46
    · subst hd
      cases ds with
      | nil => simp [hdigit]
      | cons d ds =>
        obtain ⟨htake', hdrop'⟩ := span_stop hdigit ds rest
        simp only [List.cons_append, htake', hdrop']
        split <;> rfl
    · simp [hd]

theorem pair_before_blank {choices : List (UInt8 × Symbol)} (hnone : choices.lookup b = none)
    (alone : PieceKind) (cs rest : Text) :
    pair choices alone c (cs ++ b :: rest) =
      ((pair choices alone c cs).1, (pair choices alone c cs).2 ++ b :: rest) := by
  cases cs with
  | nil => simp [pair, hnone]
  | cons d ds =>
    simp only [pair, List.cons_append]
    split <;> rfl

theorem symbolOrRejected_before_blank (hb : isBlank b = true) (cs rest : Text) :
    symbolOrRejected c (cs ++ b :: rest) =
      ((symbolOrRejected c cs).1, (symbolOrRejected c cs).2 ++ b :: rest) := by
  obtain ⟨-, -, -, -, heq, hgt⟩ := blank_ne hb
  unfold symbolOrRejected
  split
  any_goals rfl
  all_goals exact pair_before_blank (by simp [heq, hgt]) _ cs rest

theorem string_head (q : UInt8) (cs : Text) : (string q cs).1.text.head? = some q := by
  have happend := congrArg List.head? (string_append q cs)
  rwa [List.head?_append_of_ne_nil _ (string_text_ne_nil q cs)] at happend

/-- A string that has its second quote ends there. -/
theorem string_before {cs : Text} (h : (string c cs).1.kind ≠ .rejected) (rest : Text) :
    string c (cs ++ rest) = ((string c cs).1, (string c cs).2 ++ rest) := by
  cases hdrop : cs.dropWhile fun x => x != c && x != 10 with
  | nil => simp [string, hdrop] at h
  | cons d ds =>
    have hcs : cs = (cs.takeWhile fun x => x != c && x != 10) ++ d :: ds := by
      rw [← hdrop, List.takeWhile_append_dropWhile]
    have hd : (d != c && d != 10) = false := by
      have hhead := List.head?_dropWhile_not (fun x => x != c && x != 10) cs
      simpa [hdrop] using hhead
    have hrun : ∀ x ∈ cs.takeWhile fun x => x != c && x != 10, (x != c && x != 10) = true :=
      fun x hx => List.all_eq_true.mp List.all_takeWhile x hx
    obtain ⟨htake', hdrop'⟩ := span_append hrun hd (ds ++ rest)
    rw [← List.cons_append, ← List.append_assoc, ← hcs] at htake' hdrop'
    simp only [string, htake', hdrop', hdrop, List.cons_append]
    split <;> rfl

/-- **A piece that ends by itself is the first one in front of a blank too.** -/
theorem first_before_blank (hc : isBlank c = false) (hb : isBlank b = true) (cs rest : Text)
    (h : (first c cs).1.endsByItself = true) :
    first c (cs ++ b :: rest) = ((first c cs).1, (first c cs).2 ++ b :: rest) := by
  have hhead : ((cs ++ b :: rest).head? == some 45) = (cs.head? == some 45) := by
    cases cs with
    | nil => simpa using (blank_ne hb).2.2.1
    | cons d ds => rfl
  by_cases hcomment : (c == 45 && cs.head? == some 45) = true
  · simp [first, hc, hcomment, run, endsByItself] at h
  have hrest : ¬(c == 45 && (cs ++ b :: rest).head? == some 45) = true := by rwa [hhead]
  by_cases hstart : isWordStart c = true
  · simp only [first, hc, hcomment, hrest, hstart, Bool.false_eq_true, if_false, if_true]
    exact word_before_blank hb cs rest
  by_cases hdigit : isDigit c = true
  · simp only [first, hc, hcomment, hrest, hstart, hdigit, Bool.false_eq_true, if_false, if_true]
    exact number_before_blank hb cs rest
  by_cases hquote : isQuote c = true
  · simp only [first, hc, hcomment, hrest, hstart, hdigit, hquote, Bool.false_eq_true, if_false,
      if_true] at h ⊢
    refine string_before (fun hrejected => ?_) _
    simp [endsByItself, hrejected, string_head, hquote] at h
  · simp only [first, hc, hcomment, hrest, hstart, hdigit, hquote, Bool.false_eq_true, if_false]
    exact symbolOrRejected_before_blank hb cs rest

end BeforeBlank

/-! ## 3. All pieces but the blanks -/

/-- The pieces of a text other than blanks. -/
def visible (t : Text) : List Piece := (all t).filter fun p => p.kind ≠ .blank

theorem first_kind_ne_blank {c : UInt8} (hc : isBlank c = false) (cs : Text) :
    (first c cs).1.kind ≠ .blank := by
  have hpair : ∀ {choices : List (UInt8 × Symbol)} {alone : PieceKind}, alone ≠ .blank →
      (pair choices alone c cs).1.kind ≠ .blank := by
    intro choices alone halone
    unfold pair
    split
    · split
      · simp
      · exact halone
    · exact halone
  unfold first
  rw [if_neg (by simp [hc])]
  repeat' split
  · simp [run]
  · simp [word]
  · unfold number
    split
    · split <;> simp
    · simp
  · unfold string
    split
    · split <;> simp
    · simp
  · unfold symbolOrRejected
    split
    any_goals exact hpair (by simp)
    all_goals simp [single]

@[simp] theorem visible_nil : visible [] = [] := by
  rw [visible, all]
  rfl

theorem visible_cons {c : UInt8} (hc : isBlank c = false) (cs : Text) :
    visible (c :: cs) = (first c cs).1 :: visible (first c cs).2 := by
  rw [visible, all, List.filter_cons_of_pos (by simpa using first_kind_ne_blank hc cs), visible]

/-- A blank in front is no piece to see. -/
theorem visible_cons_blank {b : UInt8} (hb : isBlank b = true) (t : Text) :
    visible (b :: t) = visible t := by
  have hskip : ∀ {b : UInt8} {t : Text}, isBlank b = true →
      visible (b :: t) = visible (t.dropWhile isBlank) := by
    intro b t hb
    rw [visible, all, first, if_pos hb]
    exact List.filter_cons_of_neg (by simp [run])
  rw [hskip hb]
  cases t with
  | nil => rfl
  | cons c cs =>
    cases hc : isBlank c with
    | true => rw [List.dropWhile_cons_of_pos hc, hskip hc]
    | false => rw [List.dropWhile_cons_of_neg (by simp [hc])]

theorem visible_blanks_append {blanks : Text} (h : ∀ b ∈ blanks, isBlank b = true) (t : Text) :
    visible (blanks ++ t) = visible t := by
  induction blanks with
  | nil => rfl
  | cons b blanks ih =>
    obtain ⟨hb, h⟩ := List.forall_mem_cons.mp h
    rw [List.cons_append, visible_cons_blank hb, ih h]

end Piece

open Piece (visible)

/-- No piece of the text goes on to the end of its line. -/
def SelfContained (t : Text) : Prop := ∀ p ∈ visible t, p.endsByItself = true

instance (t : Text) : Decidable (SelfContained t) := inferInstanceAs (Decidable (∀ p ∈ visible t, _))

/-- **Joined by a blank, the pieces are those of the one text and of the other.** -/
theorem visible_append {s t : Text} {b : UInt8} (hs : SelfContained s) (hb : isBlank b = true) :
    visible (s ++ b :: t) = visible s ++ visible t := by
  -- on the length, because what follows the first piece may be much shorter than the text
  induction hn : s.length using Nat.strong_induction_on generalizing s with
  | _ n ih =>
    cases s with
    | nil => rw [List.nil_append, Piece.visible_cons_blank hb, Piece.visible_nil, List.nil_append]
    | cons c cs =>
      rw [List.length_cons] at hn
      cases hc : isBlank c with
      | true =>
        have hvisible := Piece.visible_cons_blank hc cs
        rw [List.cons_append, Piece.visible_cons_blank hc, hvisible]
        rw [SelfContained, hvisible] at hs
        exact ih cs.length (by omega) hs rfl
      | false =>
        have hvisible := Piece.visible_cons hc cs
        rw [SelfContained, hvisible, List.forall_mem_cons] at hs
        have hlength := Piece.length_first_rest c cs
        rw [List.cons_append, Piece.visible_cons hc, Piece.first_before_blank hc hb cs t hs.1,
          hvisible, ih _ (by omega) hs.2 rfl, List.cons_append]

/-- Joined by a blank, texts that are self-contained are so together. -/
theorem SelfContained.append {s t : Text} {b : UInt8} (hs : SelfContained s)
    (hb : isBlank b = true) (ht : SelfContained t) : SelfContained (s ++ b :: t) := by
  rw [SelfContained, visible_append hs hb]
  exact List.forall_mem_append.mpr ⟨hs, ht⟩

/-! ## 4. Tokens -/

/-- A token without its place. -/
def Token.lexeme (t : Token) : Lexeme := .exact t.kind t.text

namespace Piece

theorem map_lexeme (l : Location) (ps : List Piece) :
    ((locate l ps).filterMap token?).map Token.lexeme = ps.filterMap lexeme? := by
  induction ps generalizing l with
  | nil => rfl
  | cons p ps ih =>
    have hp : (token? (l, p)).map Token.lexeme = p.lexeme? := by
      unfold token? lexeme?
      cases p.kind <;> rfl
    rw [locate, List.filterMap_cons, List.filterMap_cons, ← hp]
    cases token? (l, p) with
    | none => exact ih _
    | some t => exact congrArg _ (ih _)

theorem filterMap_lexeme (t : Text) :
    (all t).filterMap lexeme? = (visible t).filterMap lexeme? := by
  rw [visible, List.filterMap_filter]
  refine List.filterMap_congr fun p _ => ?_
  unfold lexeme?
  cases hk : p.kind <;> simp

end Piece

/-- The tokens of a text, without their places, can be read off its pieces. -/
theorem map_lexeme_lex (t : Text) :
    (lex t).tokens.map Token.lexeme =
      (visible t).filterMap Piece.lexeme? ++ [.exact .endOfInput []] := by
  rw [lex, List.map_append, Piece.map_lexeme, Piece.filterMap_lexeme]
  rfl

/-- A text has an error if a piece is rejected. -/
theorem lex_errors_eq_nil {t : Text} :
    (lex t).errors = [] ↔ ∀ p ∈ visible t, p.kind ≠ .rejected := by
  have hnone : ∀ lp : Location × Piece,
      LexError.ofPiece? lp = none ↔ lp.2.kind ≠ .rejected := by
    intro lp
    unfold LexError.ofPiece?
    cases lp.2.kind <;> simp
  have hseen : (∀ p ∈ Piece.all t, p.kind ≠ .rejected) ↔ ∀ p ∈ visible t, p.kind ≠ .rejected := by
    simp only [visible, List.mem_filter, decide_eq_true_eq, and_imp]
    refine forall₂_congr fun p _ => ⟨fun h _ => h, fun h hrejected => ?_⟩
    exact h (by simp [hrejected]) hrejected
  have hlocated := Piece.map_locate .start (Piece.all t)
  rw [lex, List.filterMap_eq_nil_iff, ← hseen]
  simp only [hnone]
  generalize Piece.locate .start (Piece.all t) = located at hlocated ⊢
  rw [← hlocated, List.forall_mem_map]

/-- **Texts with the same pieces have the same tokens**, but for their places. -/
theorem lexemes_of_visible {s t : Text} (h : visible s = visible t) :
    (lex s).tokens.map Token.lexeme = (lex t).tokens.map Token.lexeme := by
  rw [map_lexeme_lex, map_lexeme_lex, h]

end MiningQuery
