/-
  File:      MiningQuery/Proofs/Number/Printing.lean
  Subject:   The shortest text of a floating point number is put together from tokens, and none of
             them is a dot.

  A point inside a number belongs to the number. An exponent is no part of a number as tokens are
  cut, but its letter, its sign and its digits are tokens of their own.

  * `exponent_printed` -- the tokens of an exponent;
  * `IsMantissa` -- digits, with or without a fraction;
  * `Significant.text_cases` -- significant digits are written as a mantissa, and an exponent may
    stand behind it;
  * **`text_cites`** -- nothing stands in front of a dot in the text of a number.
-/
import MiningQuery.Number.Shortest
import MiningQuery.Proofs.Number.Integer
import MiningQuery.Proofs.Token.Qualifying

namespace MiningQuery.Binary64

/-! ## 1. Exponents -/

/-- The sign of an exponent, which is always written. -/
def exponentSign (power : Int) : Symbol := if power < 0 then .minus else .plus

/-- The digits of an exponent, at least two. -/
def exponentDigits (power : Int) : Text :=
  let digits := Text.ofNat power.natAbs
  if digits.length < 2 then 48 :: digits else digits

theorem exponentText_eq (power : Int) :
    exponentText power = ascii "e" ++ ((exponentSign power).spelling ++ exponentDigits power) := by
  unfold exponentText exponentSign
  split <;> rfl

theorem isDigits_exponentDigits (power : Int) : isDigits (exponentDigits power) = true := by
  have hdigits := Text.isDigits_ofNat power.natAbs
  unfold exponentDigits
  dsimp only
  split
  · exact isDigits_iff.mpr ⟨List.cons_ne_nil _ _,
      List.forall_mem_cons.mpr ⟨rfl, (isDigits_iff.mp hdigits).2⟩⟩
  · exact hdigits

/-- Digits begin with a digit. -/
theorem exists_head_of_isDigits {t : Text} (h : isDigits t = true) :
    ∃ b, t.head? = some b ∧ isDigit b = true := by
  obtain ⟨hne, hall⟩ := isDigits_iff.mp h
  cases t with
  | nil => exact absurd rfl hne
  | cons b t => exact ⟨b, rfl, hall b List.mem_cons_self⟩

/-- The tokens of an exponent: its letter, its sign and its digits. -/
theorem exponent_printed (power : Int) :
    Printed (exponentText power) [.exact .identifier (ascii "e"), .sign (exponentSign power),
      .exact .int (exponentDigits power)] := by
  have hdigits := isDigits_exponentDigits power
  obtain ⟨b, hb, hdigit⟩ := exists_head_of_isDigits hdigits
  have hint : TokenKind.int.admits (exponentDigits power) = true := hdigits
  have hnumber := Printed.exact hint (by simp)
  have hminus : b ≠ 45 := by
    rintro rfl
    cases hdigit
  rw [exponentText_eq]
  unfold exponentSign
  split
  · have hsigned := hnumber.minus hb hminus
    exact hsigned.joined (l := .exact .identifier (ascii "e")) (by decide) (by simp) rfl rfl
  · have hsigned := hnumber.joined (l := .sign .plus) rfl (by simp) hb rfl
    exact hsigned.joined (l := .exact .identifier (ascii "e")) (by decide) (by simp) rfl rfl

/-! ## 2. Significant digits -/

/-- Digits, with or without a fraction. -/
def IsMantissa (t : Text) : Prop := isDigits t = true ∨ isDecimal t = true

theorem IsMantissa.exists_head {t : Text} (h : IsMantissa t) :
    ∃ b, t.head? = some b ∧ isDigit b = true := by
  rcases h with hint | hdecimal
  · exact exists_head_of_isDigits hint
  · obtain ⟨whole, fraction, hwhole, -, rfl⟩ := isDecimal_iff.mp hdecimal
    obtain ⟨b, hb, hdigit⟩ := exists_head_of_isDigits hwhole
    exact ⟨b, by rw [List.head?_append, hb, Option.some_or], hdigit⟩

/-- Digits and a fraction, which may be empty. -/
theorem isMantissa_fraction {whole fraction : Text} (hwhole : isDigits whole = true)
    (hfraction : ∀ b ∈ fraction, isDigit b = true) :
    IsMantissa (whole ++ fractionText fraction) := by
  unfold fractionText
  cases fraction with
  | nil => exact .inl (by simpa using hwhole)
  | cons b fraction =>
    exact .inr (isDecimal_iff.mpr
      ⟨whole, b :: fraction, hwhole, isDigits_iff.mpr ⟨List.cons_ne_nil _ _, hfraction⟩, rfl⟩)

namespace Significant

variable (s : Significant)

theorem isDigits_trimmed : isDigits s.trimmed = true := by
  have hdigits := Text.isDigits_ofNat s.digits
  unfold trimmed
  cases hnumber : Text.ofNat s.digits with
  | nil =>
    rw [hnumber] at hdigits
    cases hdigits
  | cons d ds =>
    rw [hnumber] at hdigits
    obtain ⟨hd, hds⟩ := List.forall_mem_cons.mp (isDigits_iff.mp hdigits).2
    refine isDigits_iff.mpr ⟨List.cons_ne_nil _ _, List.forall_mem_cons.mpr ⟨hd, fun b hb => ?_⟩⟩
    have hmem := (List.dropWhile_suffix _).subset (List.mem_reverse.mp hb)
    exact hds b (List.mem_reverse.mp hmem)

/-- **Significant digits are written as a mantissa**, and an exponent may stand behind it. -/
theorem text_cases : IsMantissa s.text ∨
    ∃ mantissa power, IsMantissa mantissa ∧ s.text = mantissa ++ exponentText power := by
  obtain ⟨hne, hall⟩ := isDigits_iff.mp s.isDigits_trimmed
  have htake : ∀ count, ∀ b ∈ s.trimmed.take count, isDigit b = true := fun count b hb =>
    hall b (List.mem_of_mem_take hb)
  have hdrop : ∀ count, ∀ b ∈ s.trimmed.drop count, isDigit b = true := fun count b hb =>
    hall b (List.mem_of_mem_drop hb)
  have hzeros : ∀ count, ∀ b ∈ List.replicate count (48 : UInt8), isDigit b = true :=
    fun count b hb => by rw [List.eq_of_mem_replicate hb]; rfl
  have hnonempty : ∀ count, 0 < count → s.trimmed.take count ≠ [] := fun count hcount h =>
    (List.take_eq_nil_iff.mp h).elim hcount.ne' hne
  unfold text
  dsimp only
  split
  · exact .inr ⟨_, s.power, isMantissa_fraction
      (isDigits_iff.mpr ⟨hnonempty 1 Nat.one_pos, htake 1⟩) (hdrop 1), rfl⟩
  left
  split
  · have hzero : isDigits [48] = true := rfl
    exact isMantissa_fraction hzero (List.forall_mem_append.mpr ⟨hzeros _, hall⟩)
  · refine isMantissa_fraction (isDigits_iff.mpr ⟨?_, List.forall_mem_append.mpr
      ⟨htake _, hzeros _⟩⟩) (hdrop _)
    exact fun h => hnonempty _ (Nat.succ_pos _) (List.append_eq_nil_iff.mp h).1

end Significant

/-! ## 3. Numbers -/

/-- What is written of a number has no dot among its tokens, and begins with a digit. -/
theorem pointed_cites (s : Significant) :
    Cites (pointed s.text) [] ∧ ∃ b, (pointed s.text).head? = some b ∧ isDigit b = true := by
  have hmantissa : ∀ {t : Text}, IsMantissa t → Cites t [] := by
    intro t ht
    rcases ht with hint | hdecimal
    · exact .exact .int hint (by simp) (by simp)
    · exact .exact .float hdecimal (by simp) (by simp)
  rcases s.text_cases with htext | ⟨mantissa, power, hpower, htext⟩
  · have hpointed : IsMantissa (pointed s.text) := by
      unfold pointed
      split
      · exact htext
      · rename_i hnone
        rcases htext with hint | hdecimal
        · exact .inr (isDecimal_iff.mpr ⟨_, [48], hint, rfl, rfl⟩)
        · obtain ⟨whole, fraction, -, -, heq⟩ := isDecimal_iff.mp hdecimal
          rw [heq] at hnone
          simp at hnone
    exact ⟨hmantissa hpointed, hpointed.exists_head⟩
  · have hpointed : pointed s.text = mantissa ++ exponentText power := by
      unfold pointed
      rw [htext, exponentText_eq, if_pos (by simp [ascii])]
    obtain ⟨b, hb, hdigit⟩ := hpower.exists_head
    rw [hpointed]
    refine ⟨?_, b, by rw [List.head?_append, hb, Option.some_or], hdigit⟩
    have hexponent := exponent_printed power
    have hhead : (exponentText power).head? = some 101 := rfl
    have hsign : exponentSign power ≠ .dot := by
      unfold exponentSign
      split <;> simp
    rcases hpower with hint | hdecimal
    · have hall := hexponent.joined (l := .exact .int mantissa) hint (by simp) hhead rfl
      exact .of_no_dot hall (by simp [hsign])
    · have hall := hexponent.joined (l := .exact .float mantissa) hdecimal (by simp) hhead rfl
      exact .of_no_dot hall (by simp [hsign])

/-- **Nothing stands in front of a dot in the text of a number.** -/
theorem text_cites (x : Binary64) : Cites x.text [] := by
  unfold text
  split
  · exact .exact .identifier (by decide) (by simp) (by simp)
  -- the number without its sign
  generalize hbody : (if !x.isFinite then ascii "Infinity"
    else if x.magnitude = 0 then ascii "0.0" else pointed x.shortest.text) = body
  obtain ⟨⟨ls, hls, hstart, hdots⟩, b, hb, hminus⟩ :
      Cites body [] ∧ ∃ b, body.head? = some b ∧ b ≠ 45 := by
    subst hbody
    split
    · exact ⟨.exact .identifier (by decide) (by simp) (by simp), 73, rfl, by decide⟩
    split
    · exact ⟨.exact .float (by decide) (by simp) (by simp), 48, rfl, by decide⟩
    · obtain ⟨hcites, b, hb, hdigit⟩ := pointed_cites x.shortest
      refine ⟨hcites, b, hb, ?_⟩
      rintro rfl
      cases hdigit
  split
  · exact ⟨_, hls.minus hb hminus, rfl, (beforeDots_cons hstart).trans hdots⟩
  · exact ⟨ls, hls, hstart, hdots⟩

end MiningQuery.Binary64
