import Fluxion.Proofs.Term.Printed

/-!
# Integers

Integers as numbers that are written in decimal digits and read back exactly. What is not an integer
is cut off to one.
-/

namespace Fluxion

open Token (IsNumber)

instance integerScalar : Scalar ℤ where
  two := 2
  lnTen := 2
  pow v e := if 0 ≤ e then v ^ e.toNat else 1 / v ^ (-e).toNat
  apply _ _ := 0
  isFinite _ := true
  isNegative v := v < 0
  atMost v w := v ≤ w

instance integerNumeral : Numeral ℤ where
  ofDecimal digits places := ((digits / 10 ^ places : ℕ) : ℤ)
  text v := if v < 0 then '-' :: Nat.toDigits 10 v.natAbs else Nat.toDigits 10 v.natAbs
  isShortInteger v := v.natAbs ≤ 10 ^ 15

theorem digitsValue_toDigits (n : Nat) : Numeral.digitsValue (Nat.toDigits 10 n) = n := by
  have h := Nat.ofDigitChars_ten_toDigits (n := n)
  rwa [Nat.ofDigitChars_eq_foldl] at h

theorem ofChars_toDigits (n : Nat) : (Numeral.ofChars (Nat.toDigits 10 n) : ℤ) = n := by
  have hpoint : ∀ c ∈ Nat.toDigits 10 n, (c != '.') = true := by
    intro c hc
    have hdigit := Nat.isDigit_of_mem_toDigits (by decide) (by decide) hc
    rw [bne_iff_ne]
    rintro rfl
    exact absurd hdigit (by decide)
  have hwhole : (Nat.toDigits 10 n).takeWhile (· != '.') = Nat.toDigits 10 n :=
    List.takeWhile_eq_self_iff.2 hpoint
  have hplaces : (Nat.toDigits 10 n).dropWhile (· != '.') = [] :=
    List.dropWhile_eq_nil_iff.2 hpoint
  unfold Numeral.ofChars
  rw [hwhole, hplaces]
  change ((Numeral.digitsValue (Nat.toDigits 10 n ++ []) / 10 ^ 0 : ℕ) : ℤ) = n
  rw [List.append_nil, digitsValue_toDigits, pow_zero, Nat.div_one]

instance : LawfulNumeral ℤ where
  isFinite_one := rfl
  isFinite_neg _ := rfl
  isFinite_congr _ := rfl
  isNegative_neg _ h := by
    have hneg : _ < (0 : ℤ) := of_decide_eq_true h
    exact decide_eq_false (by omega)
  text_neg {v} _ h := by
    have hneg : v < 0 := of_decide_eq_true h
    have hpos : ¬ -v < 0 := by omega
    change (if v < 0 then _ else _) = '-' :: (if -v < 0 then _ else _)
    rw [if_pos hneg, if_neg hpos, Int.natAbs_neg]
  isNumber_text {v} _ h := by
    have hpos : ¬ v < 0 := of_decide_eq_false h
    change IsNumber (if v < 0 then _ else _)
    rw [if_neg hpos]
    refine ⟨Nat.toDigits 10 v.natAbs, [], Nat.toDigits_ne_nil, ?_, ?_, .inl rfl⟩
    · intro d hd
      exact Nat.isDigit_of_mem_toDigits (by decide) (by decide) hd
    · intro d hd
      cases hd
  ofChars_text {v} _ h := by
    have hpos : ¬ v < 0 := of_decide_eq_false h
    change ((Numeral.ofChars (if v < 0 then _ else Nat.toDigits 10 v.natAbs) : ℤ) == v) = true
    rw [if_neg hpos, ofChars_toDigits, beq_iff_eq]
    omega
  neg_beq {v w} _ h := by
    rw [beq_iff_eq] at h ⊢
    omega

end Fluxion
