/-
  File:      MiningQuery/Proofs/Token/LetterCase.lean
  Subject:   Letter case does not bear on how a text is cut.

  No class of bytes that the lexer knows tells a letter from its capital, and the keyword of a word
  is looked up in capitals. So the pieces of a text in capitals are its pieces in capitals, at the
  same places.

  * `upperByte_of_class` -- a class that holds both cases of a letter or none;
  * `Piece.inCapitals`, **`Piece.all_upper`** -- the pieces of a text in capitals;
  * **`lex_upper`** -- its tokens and errors.
-/
import Mathlib.Data.List.TakeWhile
import MiningQuery.Proofs.Token.Shape

namespace MiningQuery

/-! ## 1. Bytes and texts -/

/-- A byte that is no small letter is its own capital; a small letter has a capital letter. -/
theorem upperByte_cases (b : UInt8) :
    upperByte b = b ∨ isLower b = true ∧ isUpper (upperByte b) = true := by
  unfold upperByte
  cases hb : isLower b with
  | false => exact .inl rfl
  | true =>
    refine .inr ⟨rfl, ?_⟩
    simp only [isLower, isUpper, Bool.and_eq_true, decide_eq_true_eq, UInt8.le_iff_toNat_le] at hb ⊢
    have hsub : (b - 32).toNat = b.toNat - 32 :=
      UInt8.toNat_sub_of_le b 32 (UInt8.le_iff_toNat_le.mpr (Nat.le_trans (by decide) hb.1))
    simp only [if_true, hsub, UInt8.reduceToNat] at hb ⊢
    omega

/-- A class in which every letter is, or none. -/
theorem upperByte_of_class {p : UInt8 → Bool} (value : Bool)
    (h : ∀ b, isLetter b = true → p b = value) (b : UInt8) : p (upperByte b) = p b := by
  rcases upperByte_cases b with hb | ⟨hlower, hupper⟩
  · rw [hb]
  · rw [h b (by simp [isLetter, hlower]), h _ (by simp [isLetter, hupper])]

theorem isBlank_upper (b : UInt8) : isBlank (upperByte b) = isBlank b :=
  upperByte_of_class false (by
    intro b hb
    simp only [isLetter, isUpper, isLower, isBlank] at *
    grind) b

theorem isDigit_upper (b : UInt8) : isDigit (upperByte b) = isDigit b :=
  upperByte_of_class false (by
    intro b hb
    simp only [isLetter, isUpper, isLower, isDigit] at *
    grind) b

theorem isWordStart_upper (b : UInt8) : isWordStart (upperByte b) = isWordStart b :=
  upperByte_of_class true (by
    intro b hb
    simp [isWordStart, hb]) b

theorem isWordPart_upper (b : UInt8) : isWordPart (upperByte b) = isWordPart b :=
  upperByte_of_class true (by
    intro b hb
    simp [isWordPart, hb]) b

/-- A byte that is no letter is found where it was. -/
theorem upperByte_eq_iff {c : UInt8} (hc : isLetter c = false) (b : UInt8) :
    upperByte b = c ↔ b = c := by
  have hclass := upperByte_of_class (p := fun x => x == c) false (by
    intro x hx
    simp only [beq_eq_false_iff_ne]
    rintro rfl
    rw [hc] at hx
    cases hx) b
  simpa using congrArg (· = true) hclass

theorem isQuote_upper (b : UInt8) : isQuote (upperByte b) = isQuote b :=
  upperByte_of_class false (by
    intro b hb
    simp only [isLetter, isUpper, isLower, isQuote, singleQuote, doubleQuote] at *
    grind) b

theorem upperByte_upperByte (b : UInt8) : upperByte (upperByte b) = upperByte b := by
  rcases upperByte_cases b with hb | ⟨-, hupper⟩
  · rw [hb, hb]
  · have hlower : isLower (upperByte b) = false := by
      simp only [isUpper, isLower] at *
      grind
    generalize upperByte b = c at hlower
    simp [upperByte, hlower]

theorem lowerByte_upperByte (b : UInt8) : lowerByte (upperByte b) = lowerByte b := by
  simp only [lowerByte, upperByte, isUpper, isLower]
  grind

namespace Text

theorem upper_upper (t : Text) : upper (upper t) = upper t := by
  simp [upper, upperByte_upperByte]

theorem lower_upper (t : Text) : lower (upper t) = lower t := by
  simp [lower, upper, lowerByte_upperByte]

/-- A text without letters is its own capitals. -/
theorem upper_of_no_letter {t : Text} (h : ∀ b ∈ t, isLetter b = false) : upper t = t := by
  have hsame : ∀ b ∈ t, upperByte b = b := fun b hb => (upperByte_eq_iff (h b hb) b).mpr rfl
  rw [upper, List.map_congr_left hsame, List.map_id']

variable {p : UInt8 → Bool}

/-- A run of a class is one in capitals too, if the class holds both cases of its letters. -/
theorem takeWhile_upper (hp : ∀ b, p (upperByte b) = p b) (t : Text) :
    (upper t).takeWhile p = upper (t.takeWhile p) := by
  rw [upper, List.takeWhile_map, show p ∘ upperByte = p from funext hp, upper]

theorem dropWhile_upper (hp : ∀ b, p (upperByte b) = p b) (t : Text) :
    (upper t).dropWhile p = upper (t.dropWhile p) := by
  rw [upper, List.dropWhile_map, show p ∘ upperByte = p from funext hp, upper]

end Text

/-! ## 2. Pieces -/

namespace Piece

/-- The piece in capitals. -/
def inCapitals (p : Piece) : Piece := ⟨p.kind, Text.upper p.text⟩

/-- What a piece and the rest become in capitals. -/
def cutInCapitals (cut : Piece × Text) : Piece × Text := (cut.1.inCapitals, Text.upper cut.2)

section First

variable {c : UInt8} (cs : Text)

theorem run_upper {p : UInt8 → Bool} (hp : ∀ b, p (upperByte b) = p b) (kind : PieceKind) :
    run p kind (upperByte c) (Text.upper cs) = cutInCapitals (run p kind c cs) := by
  simp only [run, Text.takeWhile_upper hp, Text.dropWhile_upper hp]
  rfl

/-- A keyword is looked up in capitals. -/
theorem wordKind_upper (w : Text) : wordKind (Text.upper w) = wordKind w := by
  simp only [wordKind, Keyword.ofText?, Text.upper_upper]

theorem word_upper : word (upperByte c) (Text.upper cs) = cutInCapitals (word c cs) := by
  have hkind := wordKind_upper (c :: cs.takeWhile isWordPart)
  simp only [word, Text.takeWhile_upper isWordPart_upper, Text.dropWhile_upper isWordPart_upper]
  rw [← hkind]
  rfl

theorem number_upper : number (upperByte c) (Text.upper cs) = cutInCapitals (number c cs) := by
  have hpoint : upperByte 46 = 46 := by decide
  unfold number
  rw [Text.takeWhile_upper isDigit_upper, Text.dropWhile_upper isDigit_upper]
  generalize cs.takeWhile isDigit = whole
  rcases cs.dropWhile isDigit with _ | ⟨b, _ | ⟨d, rest⟩⟩
  · rfl
  · simp [Text.upper, cutInCapitals, inCapitals]
  · by_cases hb : b = 46
    · subst hb
      have htake := Text.takeWhile_upper isDigit_upper rest
      have hdrop := Text.dropWhile_upper isDigit_upper rest
      simp only [Text.upper] at htake hdrop
      simp only [Text.upper, List.map_cons, hpoint, isDigit_upper, htake, hdrop]
      cases isDigit d <;> simp [cutInCapitals, inCapitals, Text.upper, hpoint]
    · have hb' : upperByte b ≠ 46 := fun e => hb ((upperByte_eq_iff (by decide) b).mp e)
      simp [Text.upper, cutInCapitals, inCapitals, hb, hb']

theorem string_upper (hc : isQuote c = true) :
    string c (Text.upper cs) = cutInCapitals (string c cs) := by
  have hletter : isLetter c = false := by
    simp only [isQuote, singleQuote, doubleQuote, Bool.or_eq_true, beq_iff_eq] at hc
    rcases hc with rfl | rfl <;> decide
  have hquote : upperByte c = c := (upperByte_eq_iff hletter c).mpr rfl
  have hstop : ∀ b, (upperByte b != c && upperByte b != 10) = (b != c && b != 10) := by
    intro b
    have hsame := upperByte_eq_iff hletter b
    have hnewline := upperByte_eq_iff (c := 10) (by decide) b
    rw [Bool.eq_iff_iff]
    simp [hsame, hnewline]
  unfold string
  rw [Text.takeWhile_upper hstop, Text.dropWhile_upper hstop]
  generalize cs.takeWhile (fun b => b != c && b != 10) = body
  rcases cs.dropWhile fun b => b != c && b != 10 with _ | ⟨b, rest⟩
  · simp [cutInCapitals, inCapitals, Text.upper, hquote]
  · have hsame : (upperByte b == c) = (b == c) := by
      rw [Bool.eq_iff_iff]
      simpa using upperByte_eq_iff hletter b
    simp only [Text.upper, List.map_cons, hsame]
    cases b == c <;> simp [cutInCapitals, inCapitals, Text.upper, hquote]

theorem pair_upper {choices : List (UInt8 × Symbol)}
    (hchoices : ∀ p ∈ choices, isLetter p.1 = false) (hc : upperByte c = c) (alone : PieceKind) :
    pair choices alone c (Text.upper cs) = cutInCapitals (pair choices alone c cs) := by
  cases cs with
  | nil => simp [pair, Text.upper, cutInCapitals, inCapitals, hc]
  | cons d rest =>
    have hlookup : choices.lookup (upperByte d) = choices.lookup d := by
      induction choices with
      | nil => rfl
      | cons p choices ih =>
        obtain ⟨hp, hchoices⟩ := List.forall_mem_cons.mp hchoices
        have hsame : (upperByte d == p.1) = (d == p.1) := by
          rw [Bool.eq_iff_iff]
          simpa using upperByte_eq_iff hp d
        rw [List.lookup_cons, List.lookup_cons, hsame, ih hchoices]
    simp only [pair, Text.upper, List.map_cons, hlookup]
    cases choices.lookup d <;> simp [cutInCapitals, inCapitals, Text.upper, hc]

theorem symbolOrRejected_upper (hc : isLetter c = false) :
    symbolOrRejected c (Text.upper cs) = cutInCapitals (symbolOrRejected c cs) := by
  have hsame : upperByte c = c := (upperByte_eq_iff hc c).mpr rfl
  unfold symbolOrRejected
  split
  any_goals rfl
  · exact pair_upper cs (by decide) rfl _
  · exact pair_upper cs (by decide) rfl _
  · exact pair_upper cs (by decide) rfl _
  · simp [cutInCapitals, inCapitals, Text.upper, hsame]

/-- **The first piece of a text in capitals is its first piece in capitals.** -/
theorem first_upper :
    first (upperByte c) (Text.upper cs) = cutInCapitals (first c cs) := by
  have hminus : ∀ b, (upperByte b == 45) = (b == 45) := by
    intro b
    rw [Bool.eq_iff_iff]
    simpa using upperByte_eq_iff (c := 45) (by decide) b
  have hcomment : (upperByte c == 45 && (Text.upper cs).head? == some 45) =
      (c == 45 && cs.head? == some 45) := by
    rw [hminus]
    cases cs with
    | nil => rfl
    | cons d cs =>
      simp only [Text.upper, List.map_cons, List.head?_cons, Option.some_beq_some, hminus]
  have hline : ∀ b, (upperByte b != 10) = (b != 10) := by
    intro b
    rw [Bool.eq_iff_iff]
    simpa using not_congr (upperByte_eq_iff (c := 10) (by decide) b)
  unfold first
  rw [isBlank_upper, hcomment, isWordStart_upper, isDigit_upper, isQuote_upper]
  split
  · exact run_upper cs isBlank_upper _
  split
  · exact run_upper cs hline _
  split
  · exact word_upper cs
  rename_i hstart
  -- what starts no word is no letter, so it is its own capital
  have hletter : isLetter c = false := by
    cases hc : isLetter c with
    | false => rfl
    | true => simp [isWordStart, hc] at hstart
  split
  · exact number_upper cs
  rw [(upperByte_eq_iff hletter c).mpr rfl]
  split
  · exact string_upper cs ‹_›
  · exact symbolOrRejected_upper cs hletter

end First

/-- **The pieces of a text in capitals are its pieces in capitals.** -/
theorem all_upper (t : Text) : all (Text.upper t) = (all t).map inCapitals := by
  fun_induction all t with
  | case1 => rw [Text.upper, List.map_nil, all, List.map_nil]
  | case2 c cs ih =>
    have hfirst := first_upper (c := c) cs
    rw [Text.upper, List.map_cons, all, List.map_cons, ← ih]
    rw [Text.upper] at hfirst
    rw [hfirst]
    rfl

/-! ## 3. Places -/

/-- Letter case moves no place. -/
theorem after_upper (l : Location) (t : Text) : l.after (Text.upper t) = l.after t := by
  have hnext : ∀ (l : Location) (b : UInt8), l.next (upperByte b) = l.next b := by
    intro l b
    have hline := upperByte_eq_iff (c := 10) (by decide) b
    simp only [Location.next, beq_iff_eq, hline]
  rw [Location.after, Text.upper, List.foldl_map]
  simp only [hnext]
  rfl

theorem locate_inCapitals (l : Location) (ps : List Piece) :
    locate l (ps.map inCapitals) = (locate l ps).map fun lp => (lp.1, lp.2.inCapitals) := by
  induction ps generalizing l with
  | nil => rfl
  | cons p ps ih =>
    have hafter : l.after p.inCapitals.text = l.after p.text := after_upper l p.text
    rw [List.map_cons, locate, locate, List.map_cons, hafter, ih]

end Piece

/-- The token with its text in capitals. -/
def Token.inCapitals (t : Token) : Token := { t with text := Text.upper t.text }

/-- The error with the rejected text in capitals. -/
def LexError.inCapitals (e : LexError) : LexError := { e with rejected := Text.upper e.rejected }

/-- **The tokens and errors of a text in capitals are its tokens and errors in capitals**, at the
    same places. -/
theorem lex_upper (t : Text) :
    (lex (Text.upper t)).tokens = (lex t).tokens.map Token.inCapitals ∧
      (lex (Text.upper t)).errors = (lex t).errors.map LexError.inCapitals := by
  have hlocated := Piece.locate_inCapitals .start (Piece.all t)
  rw [← Piece.all_upper] at hlocated
  have htoken : ∀ lp : Location × Piece,
      Piece.token? (lp.1, lp.2.inCapitals) = (Piece.token? lp).map Token.inCapitals := by
    intro lp
    unfold Piece.token? Piece.inCapitals
    cases lp.2.kind <;> rfl
  have herror : ∀ lp : Location × Piece,
      LexError.ofPiece? (lp.1, lp.2.inCapitals) =
        (LexError.ofPiece? lp).map LexError.inCapitals := by
    intro lp
    unfold LexError.ofPiece? Piece.inCapitals
    cases lp.2.kind <;> rfl
  constructor
  · simp only [lex, hlocated, List.filterMap_map, Function.comp_def, htoken, List.map_append,
      List.map_filterMap, Piece.after_upper]
    rfl
  · simp only [lex, hlocated, List.filterMap_map, Function.comp_def, herror, List.map_filterMap]

end MiningQuery
