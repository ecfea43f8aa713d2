/-
  File:      MiningQuery/Proofs/Number/Integer.lean
  Subject:   An integer that is written in decimal digits is read back.

  * `Text.ofNat_of_lt`, `Text.ofNat_of_le` -- the digits of a number, the last one apart;
  * **`Text.int64_ofInt`** -- what is written for a number of the range is read as that number;
  * `Text.IsInt64`, `Text.int64_iff` -- the texts of a number of the range, and that they are read;
  * `Text.IsShortest`, `Text.isShortest_ofInt` -- what is written has no digit and no sign too many.
-/
import MiningQuery.Number.Integer
import MiningQuery.Proofs.Tree.Canonical

namespace MiningQuery

namespace Text

/-! ## 1. Digits -/

/-- A number of one digit. -/
theorem ofNat_of_lt {n : Nat} (h : n < 10) : ofNat n = [48 + n.toUInt8] := by
  have hall : ∀ m < 10, (Nat.digitChar m).toNat.toUInt8 = 48 + m.toUInt8 := by decide
  rw [ofNat, Nat.toDigits_of_lt_base h, List.map_singleton, hall n h]

/-- The last digit stands behind the digits of a tenth. -/
theorem ofNat_of_le {n : Nat} (h : 10 ≤ n) : ofNat n = ofNat (n / 10) ++ ofNat (n % 10) := by
  have hlast : n % 10 < 10 := Nat.mod_lt n (by decide)
  rw [ofNat, Nat.toDigits_of_base_le (by decide) h, List.map_append]
  rw [← Nat.toDigits_of_lt_base hlast]
  rfl

theorem isDigit_of_lt {n : Nat} (h : n < 10) :
    isDigit (48 + n.toUInt8) = true ∧ (48 + n.toUInt8).toNat - 48 = n := by
  have hall : ∀ m < 10, isDigit (48 + m.toUInt8) = true ∧ (48 + m.toUInt8).toNat - 48 = m := by
    decide
  exact hall n h

/-- Digits, and at least one. -/
theorem isDigits_ofNat (n : Nat) : isDigits (ofNat n) = true := by
  induction n using Nat.strongRecOn with
  | ind n ih =>
    by_cases h : n < 10
    · rw [ofNat_of_lt h]
      exact isDigits_iff.mpr ⟨by simp, by simpa using (isDigit_of_lt h).1⟩
    · obtain ⟨hne, hall⟩ := isDigits_iff.mp (ih (n / 10) (by omega))
      have hlast : n % 10 < 10 := Nat.mod_lt n (by decide)
      rw [ofNat_of_le (Nat.le_of_not_lt h), ofNat_of_lt hlast]
      refine isDigits_iff.mpr ⟨by simp, fun b hb => ?_⟩
      rcases List.mem_append.mp hb with hb | hb
      · exact hall b hb
      · rw [List.mem_singleton.mp hb]
        exact (isDigit_of_lt hlast).1

theorem digitsValue_ofNat (n : Nat) : digitsValue (ofNat n) = n := by
  induction n using Nat.strongRecOn with
  | ind n ih =>
    by_cases h : n < 10
    · have hvalue := (isDigit_of_lt h).2
      simp only [ofNat_of_lt h, digitsValue, List.foldl_cons, List.foldl_nil, hvalue]
      omega
    · have hvalue := (isDigit_of_lt (Nat.mod_lt n (show 10 > 0 by decide))).2
      have htenth := ih (n / 10) (by omega)
      unfold digitsValue at htenth ⊢
      rw [ofNat_of_le (Nat.le_of_not_lt h), ofNat_of_lt (Nat.mod_lt n (by decide)),
        List.foldl_append, htenth, List.foldl_cons, List.foldl_nil, hvalue]
      omega

theorem digits_ofNat (n : Nat) : digits? (ofNat n) = some n := by
  obtain ⟨hne, hall⟩ := isDigits_iff.mp (isDigits_ofNat n)
  have hempty : (ofNat n).isEmpty = false := List.isEmpty_eq_false_iff.mpr hne
  have hdigits : (ofNat n).all isDigit = true := List.all_eq_true.mpr hall
  simp [digits?, hempty, hdigits, digitsValue_ofNat]

/-! ## 2. Signs -/

/-- Digits have no sign. -/
theorem sign_of_isDigits {t : Text} (h : isDigits t = true) : sign t = (false, t) := by
  unfold sign
  split
  · have hminus := (isDigits_iff.mp h).2 45 List.mem_cons_self
    exact absurd hminus (by decide)
  · have hplus := (isDigits_iff.mp h).2 43 List.mem_cons_self
    exact absurd hplus (by decide)
  · rfl

theorem integer_ofInt (i : Int) : integer? (ofInt i) = some i := by
  cases i with
  | ofNat n =>
    simp [integer?, ofInt, sign_of_isDigits (isDigits_ofNat n), digits_ofNat]
  | negSucc n =>
    simp only [integer?, ofInt, sign, digits_ofNat, if_true]
    rfl

/-- **What is written for a number of the range is read as that number.** -/
theorem int64_ofInt {i : Int} (h : inInt64 i = true) : int64? (ofInt i) = some i := by
  simp [int64?, integer_ofInt, h]

/-- A number that was read is in the range. -/
theorem inInt64_of_int64 {t : Text} {i : Int} (h : int64? t = some i) : inInt64 i = true :=
  (Option.filter_eq_some_iff.mp h).2

/-- Digits alone are read as a number that is not negative. -/
theorem int64_of_isDigits {t : Text} {i : Int} (ht : isDigits t = true) (h : int64? t = some i) :
    ∃ n : Nat, i = n ∧ n < Nat.pow 2 63 := by
  have hrange := inInt64_of_int64 h
  have hread := (Option.filter_eq_some_iff.mp h).1
  have hnat : ∃ n : Nat, i = n := by
    unfold integer? at hread
    rw [sign_of_isDigits ht] at hread
    cases hdigits : digits? t with
    | none => simp [hdigits] at hread
    | some n => exact ⟨n, by simpa [hdigits] using hread.symm⟩
  obtain ⟨n, rfl⟩ := hnat
  refine ⟨n, rfl, ?_⟩
  have hlast : (n : Int) ≤ 9223372036854775807 := by
    simpa [inInt64] using (Bool.and_eq_true_iff.mp hrange).2
  have hpow : Nat.pow 2 63 = 9223372036854775808 := by decide
  omega

/-! ## 3. All texts of a number -/

/-- The text is a number of the signed 64-bit range: digits, and a sign in front of them or none. -/
def IsInt64 (t : Text) (i : Int) : Prop :=
  inInt64 i = true ∧ ∃ digits, isDigits digits = true ∧
    ((t = digits ∨ t = 43 :: digits) ∧ i = digitsValue digits ∨
      t = 45 :: digits ∧ i = -(digitsValue digits : Int))

theorem digits_iff {t : Text} {n : Nat} :
    digits? t = some n ↔ isDigits t = true ∧ digitsValue t = n := by
  unfold digits? isDigits
  cases t.isEmpty <;> cases t.all isDigit <;> simp

theorem sign_cases {t rest : Text} {negative : Bool} (h : sign t = (negative, rest)) :
    negative = false ∧ (t = rest ∨ t = 43 :: rest) ∨ negative = true ∧ t = 45 :: rest := by
  unfold sign at h
  split at h <;> obtain ⟨rfl, rfl⟩ := Prod.mk.inj h
  · exact .inr ⟨rfl, rfl⟩
  · exact .inl ⟨rfl, .inr rfl⟩
  · exact .inl ⟨rfl, .inl rfl⟩

theorem integer_of_sign {t rest : Text} {negative : Bool} (h : sign t = (negative, rest)) :
    integer? t = (digits? rest).map fun n : Nat => if negative then -(n : Int) else n := by
  unfold integer?
  rw [h]
  dsimp only
  cases digits? rest <;> rfl

theorem integer_iff {t : Text} {i : Int} :
    integer? t = some i ↔ ∃ digits, isDigits digits = true ∧
      ((t = digits ∨ t = 43 :: digits) ∧ i = digitsValue digits ∨
        t = 45 :: digits ∧ i = -(digitsValue digits : Int)) := by
  constructor
  · intro h
    obtain ⟨negative, rest, hsign⟩ : ∃ negative rest, sign t = (negative, rest) := ⟨_, _, rfl⟩
    rw [integer_of_sign hsign] at h
    obtain ⟨n, hn, rfl⟩ := Option.map_eq_some_iff.mp h
    obtain ⟨hdigits, rfl⟩ := digits_iff.mp hn
    rcases sign_cases hsign with ⟨rfl, ht⟩ | ⟨rfl, ht⟩
    · exact ⟨rest, hdigits, .inl ⟨ht, rfl⟩⟩
    · exact ⟨rest, hdigits, .inr ⟨ht, rfl⟩⟩
  · rintro ⟨digits, hdigits, ⟨rfl | rfl, rfl⟩ | ⟨rfl, rfl⟩⟩
    · rw [integer_of_sign (sign_of_isDigits hdigits), digits_iff.mpr ⟨hdigits, rfl⟩]
      rfl
    · have hsign : sign (43 :: digits) = (false, digits) := rfl
      rw [integer_of_sign hsign, digits_iff.mpr ⟨hdigits, rfl⟩]
      rfl
    · have hsign : sign (45 :: digits) = (true, digits) := rfl
      rw [integer_of_sign hsign, digits_iff.mpr ⟨hdigits, rfl⟩]
      rfl

/-- **Just the texts of a number of the range are read, and as that number.** -/
theorem int64_iff {t : Text} {i : Int} : int64? t = some i ↔ t.IsInt64 i := by
  rw [int64?, Option.filter_eq_some_iff, integer_iff, IsInt64, and_comm]

end Text

namespace Text

/-! ## 4. Shortest texts -/

/-- The text is the number in decimal as short as can be: without leading zeros, and with a minus
    sign only if the number is negative. -/
def IsShortest (t : Text) (i : Int) : Prop :=
  ∃ digits, isDigits digits = true ∧ (digits.head? = some 48 → digits = [48]) ∧
    (t = digits ∧ i = digitsValue digits ∨
      t = 45 :: digits ∧ i = -(digitsValue digits : Int) ∧ i < 0)

/-- Only zero is written with a zero in front. -/
theorem eq_zero_of_head {n : Nat} (h : (ofNat n).head? = some 48) : n = 0 := by
  induction n using Nat.strongRecOn with
  | ind n ih =>
    by_cases hn : n < 10
    · have hvalue := (isDigit_of_lt hn).2
      rw [ofNat_of_lt hn, List.head?_cons] at h
      rw [Option.some.inj h] at hvalue
      exact hvalue.symm
    · have htenth : n / 10 ≠ 0 := by omega
      have hne := (isDigits_iff.mp (isDigits_ofNat (n / 10))).1
      rw [ofNat_of_le (Nat.le_of_not_lt hn), List.head?_append_of_ne_nil _ hne] at h
      exact absurd (ih (n / 10) (by omega) h) htenth

/-- **What is written for a number is the shortest text of it.** -/
theorem isShortest_ofInt (i : Int) : IsShortest (ofInt i) i := by
  have hdigits : ∀ n, (ofNat n).head? = some 48 → ofNat n = [48] := fun n h => by
    rw [eq_zero_of_head h]
    decide
  cases i with
  | ofNat n =>
    exact ⟨ofNat n, isDigits_ofNat n, hdigits n, .inl ⟨rfl, by rw [digitsValue_ofNat]; rfl⟩⟩
  | negSucc n =>
    refine ⟨ofNat (n + 1), isDigits_ofNat _, hdigits _, .inr ⟨rfl, ?_, Int.negSucc_lt_zero n⟩⟩
    rw [digitsValue_ofNat]
    rfl

end Text

/-- A number without its sign is written in digits. -/
theorem unsigned_ofInt (i : Int) : isDigits (unsigned (Text.ofInt i)) = true := by
  cases i with
  | ofNat n =>
    have hdigits := Text.isDigits_ofNat n
    show isDigits (unsigned (Text.ofNat n)) = true
    unfold unsigned
    split
    · rename_i e
      have hminus := (isDigits_iff.mp hdigits).2 45 (e ▸ List.mem_cons_self)
      exact absurd hminus (by decide)
    · exact hdigits
  | negSucc n => exact Text.isDigits_ofNat (n + 1)

end MiningQuery
