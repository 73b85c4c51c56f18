import Fluxion.Proofs.Term.Materials
import Fluxion.Scalar.Binary64

/-!
# Binary floating-point numbers are proper scalars

The numbers that the program calculates with have what terms need to stay made of proper numbers. Most
of the facts are about fixed numbers or about signs. That one may be subtracted from any proper
number, and that any may be multiplied with one, is a matter of rounding: the result stays far enough
below the point from which on numbers are rounded to infinity.
-/

namespace Fluxion.Binary64

open Float.Model (Format UnpackedFloat totalExponent)
open Float.Model.UnpackedFloat

/-- The unpacked number is proper, and its exponent is none of those that are packed as infinity. -/
def Fits : UnpackedFloat → Prop
  | .zero _ => True
  | .finite _ _ e _ => e ≤ 971
  | .infinity _ | .notANumber => False

/-- The product of a mantissa and a power of two is below the middle between the largest proper number
and the power of two that follows it. -/
def RoundsDown (m : Nat) (e : Int) : Prop :=
  e ≤ 970 ∧ m + 2 ^ (970 - e).toNat < 2 ^ (1024 - e).toNat

/-! ## Packing -/

theorem isFinite_unpack (b : BitVec Format.binary64.numBits) :
    (unpack .binary64 b).isFinite = true ↔ unpackExponent b ≠ -1#_ := by
  simp only [unpack]
  split
  · next hexp => split <;> simp [hexp, UnpackedFloat.isFinite]
  · next hexp =>
    refine iff_of_true ?_ hexp
    split
    · split <;> rfl
    · rfl

theorem isFinite_pack {u : UnpackedFloat} (h : Fits u) : (Float.Model.pack u).isFinite = true := by
  refine (isFinite_unpack _).2 ?_
  show unpackExponent (UnpackedFloat.pack .binary64 u) ≠ -1#_
  cases u with
  | infinity _ | notANumber => exact h.elim
  | zero s =>
    simp only [UnpackedFloat.pack, packedZero, unpackExponent_packComponents]
    decide
  | finite s m e hm =>
    have he : e ≤ 971 := h
    have hover : ¬ 2 ^ Format.binary64.exponentBits ≤
        (e + Format.binary64.exponentBias + Format.binary64.mantissaBitsWithoutImplicit).toNat + 1 := by
      change ¬ 2048 ≤ (e + 1023 + 52).toNat + 1
      omega
    simp only [UnpackedFloat.pack, if_neg hover]
    split
    · rw [unpackExponent_packComponents]
      intro heq
      have htoNat := congrArg BitVec.toNat heq
      change (e + 1023 + 52).toNat % 2048 = 2047 at htoNat
      omega
    · rw [unpackExponent_packComponents]
      decide

/-- The mantissa and the exponent of an unpacked number are bounded. -/
theorem bounds_of_unpack {b : BitVec Format.binary64.numBits} {s : Sign} {m : Nat} {e : Int}
    {hm : 0 < m} (h : unpack .binary64 b = .finite s m e hm) :
    m < 2 ^ 53 ∧ e ≤ 971 := by
  have hmantissa : (unpackMantissa b).toNat < 2 ^ 52 := (unpackMantissa b).isLt
  have hexponent : (unpackExponent b).toNat < 2 ^ 11 := (unpackExponent b).isLt
  simp only [unpack] at h
  split at h
  · split at h <;> cases h
  · next hones =>
    have hones' : (unpackExponent b).toNat ≠ 2047 := fun h => hones (BitVec.eq_of_toNat_eq h)
    split at h
    · split at h
      · cases h
      · next hzeros _ =>
        cases h
        rw [hzeros]
        exact ⟨by omega, by decide⟩
    · cases h
      refine ⟨(1#1 ++ unpackMantissa b).isLt, ?_⟩
      change ((unpackExponent b).toNat : Int) - (1023 + 52) ≤ 971
      omega

/-! ## Rounding -/

/-- Shifting right keeps the mantissa and the bit after it below what was shifted. -/
theorem shiftRight_mul_le (em : ExtendedMantissa) (n : Nat) :
    (2 * (em >>> n).mantissa + (em >>> n).roundBit.toNat) * 2 ^ n ≤
      2 * em.mantissa + em.roundBit.toNat := by
  induction n with
  | zero => simp [HShiftRight.hShiftRight, Nat.repeat]
  | succ n ih =>
    have hstep : em >>> (n + 1) = (em >>> n).shiftRightOne := rfl
    have hone : 2 * (em >>> n).shiftRightOne.mantissa + (em >>> n).shiftRightOne.roundBit.toNat =
        (em >>> n).mantissa := by
      simp only [ExtendedMantissa.shiftRightOne]
      rcases Nat.mod_two_eq_zero_or_one (em >>> n).mantissa with h | h <;> simp [h] <;> omega
    rw [hstep, hone]
    calc (em >>> n).mantissa * 2 ^ (n + 1)
        = 2 * (em >>> n).mantissa * 2 ^ n := by ring
      _ ≤ (2 * (em >>> n).mantissa + (em >>> n).roundBit.toNat) * 2 ^ n :=
        Nat.mul_le_mul_right _ (Nat.le_add_right _ _)
      _ ≤ 2 * em.mantissa + em.roundBit.toNat := ih

theorem roundedMantissa_le (em : ExtendedMantissa) :
    em.roundedMantissa ≤ em.mantissa + em.roundBit.toNat := by
  obtain ⟨m, round, sticky⟩ := em
  cases round <;> cases sticky <;>
    simp [ExtendedMantissa.roundedMantissa, ExtendedMantissa.accuracy, Accuracy.roundToNearestEven]
  omega

/-- A mantissa that is shifted right and rounded stands for at most half a unit more than before. -/
theorem rounded_shiftRight_mul_le (m n : Nat) :
    2 * (ExtendedMantissa.ofMantissaAndAccuracy m .exact >>> n).roundedMantissa * 2 ^ n ≤
      2 * m + 2 ^ n := by
  generalize hem : ExtendedMantissa.ofMantissaAndAccuracy m .exact >>> n = em
  have hshift : (2 * em.mantissa + em.roundBit.toNat) * 2 ^ n ≤ 2 * m := by
    rw [← hem]
    exact shiftRight_mul_le _ n
  calc 2 * em.roundedMantissa * 2 ^ n
      ≤ 2 * (em.mantissa + em.roundBit.toNat) * 2 ^ n :=
        Nat.mul_le_mul_right _ (Nat.mul_le_mul_left _ (roundedMantissa_le em))
    _ = (2 * em.mantissa + em.roundBit.toNat) * 2 ^ n + em.roundBit.toNat * 2 ^ n := by ring
    _ ≤ 2 * m + 2 ^ n :=
      Nat.add_le_add hshift ((Nat.mul_le_mul_right _ (Bool.toNat_le _)).trans_eq (Nat.one_mul _))

/-- A number below two to the power of 1024 gets an exponent that fits. -/
theorem targetExponent_le {m : Nat} {e : Int} (he : e ≤ 1023) (h : m < 2 ^ (1024 - e).toNat) :
    Format.binary64.targetExponent (totalExponent m e) ≤ 971 := by
  have hlog : e + m.log2 ≤ 1023 := by
    by_cases hm : m = 0
    · simpa [hm] using he
    · have := (Nat.log2_lt hm).2 h
      omega
  change max (m.log2 + 1 + e - 53) (-1074 : Int) ≤ 971
  omega

/-- What is rounded up is still below two to the power of 1024. -/
theorem rounded_lt {m n : Nat} {e : Int} (h : RoundsDown m e) (hn : e + n ≤ 971 ∨ n = 0) :
    (ExtendedMantissa.ofMantissaAndAccuracy m .exact >>> n).roundedMantissa <
      2 ^ (1024 - (e + n)).toNat := by
  obtain ⟨he, hm⟩ := h
  have hround := rounded_shiftRight_mul_le m n
  have hhalf : 2 ^ n ≤ 2 * 2 ^ (970 - e).toNat := by
    rw [← Nat.pow_succ']
    exact Nat.pow_le_pow_right (by decide) (by omega)
  have hsplit : 2 ^ (1024 - e).toNat = 2 ^ (1024 - (e + n)).toNat * 2 ^ n := by
    rw [← Nat.pow_add]
    congr 1
    omega
  refine Nat.lt_of_mul_lt_mul_right (a := 2 ^ n) ?_
  rw [Nat.mul_assoc] at hround
  omega

theorem fits_finite {s : Sign} {m : Nat} {e : Int} (he : e ≤ 971) :
    Fits (if h : m = 0 then .zero s else .finite s m e (Nat.pos_of_ne_zero h)) := by
  split
  · trivial
  · exact he

theorem fits_roundWithAccuracy {s : Sign} {m : Nat} {e : Int} (h : RoundsDown m e) :
    Fits (roundWithAccuracy .binary64 s m e .exact) := by
  obtain ⟨he, hm⟩ := id h
  have htarget := targetExponent_le (by omega) (Nat.lt_of_le_of_lt (Nat.le_add_right _ _) hm)
  have hrounded := rounded_lt h
    (n := (Format.binary64.targetExponent (totalExponent m e) - e).toNat) (by omega)
  have htarget' := targetExponent_le (by omega) hrounded
  simp only [roundWithAccuracy, shiftToTargetExponent, shiftToExponent]
  exact fits_finite (by omega)

theorem fits_round {s : Sign} {m : Nat} {e : Int} (h : RoundsDown m e) :
    Fits (UnpackedFloat.round .binary64 s m e) := by
  obtain ⟨he, hm⟩ := h
  simp only [UnpackedFloat.round, decreaseExponent]
  generalize (e - Format.binary64.targetExponent (totalExponent m e)).toNat = n
  refine fits_roundWithAccuracy ⟨by omega, ?_⟩
  have hscale : ∀ k : Int, 0 ≤ k - e → 2 ^ (k - (e - n)).toNat = 2 ^ (k - e).toNat * 2 ^ n := by
    intro k hk
    rw [← Nat.pow_add]
    congr 1
    omega
  rw [Nat.shiftLeft_eq, hscale 970 (by omega), hscale 1024 (by omega), ← Nat.add_mul]
  exact Nat.mul_lt_mul_of_pos_right hm (Nat.two_pow_pos n)

theorem fits_normalize {m e : Int} {s : Sign} (h : RoundsDown m.natAbs e) :
    Fits (UnpackedFloat.normalize .binary64 m e s) := by
  unfold UnpackedFloat.normalize
  split
  · next hlt =>
    rw [show (-m).toNat = m.natAbs by have := compare_lt_iff_lt.1 hlt; omega]
    exact fits_round h
  · trivial
  · next hgt =>
    rw [show m.toNat = m.natAbs by have := compare_gt_iff_gt.1 hgt; omega]
    exact fits_round h

/-! ## Subtraction of one -/

/-- The sizes of a proper number and of one, with the smaller of both exponents, are together still
rounded down. -/
theorem roundsDown_add_one {m : Nat} {e : Int} (hm : m < 2 ^ 53) (he : e ≤ 971) :
    RoundsDown (m * 2 ^ (e - min e (-52)).toNat + 2 ^ 52 * 2 ^ (-52 - min e (-52)).toNat)
      (min e (-52)) := by
  generalize hk : min e (-52) = k
  have hsize : m * 2 ^ (e - k).toNat ≤ (2 ^ 53 - 1) * (2 * 2 ^ (970 - k).toNat) := by
    rw [← Nat.pow_succ']
    exact Nat.mul_le_mul (by omega) (Nat.pow_le_pow_right (by decide) (by omega))
  have hone : 2 ^ 52 * 2 ^ (-52 - k).toNat < 2 ^ (970 - k).toNat := by
    rw [← Nat.pow_add]
    exact Nat.pow_lt_pow_right (by decide) (by omega)
  have hlimit : 2 ^ (1024 - k).toNat = 2 ^ 54 * 2 ^ (970 - k).toNat := by
    rw [← Nat.pow_add]
    congr 1
    omega
  refine ⟨by omega, ?_⟩
  rw [hlimit]
  generalize 2 ^ (970 - k).toNat = half at *
  omega

theorem RoundsDown.mono {m n : Nat} {e : Int} (h : RoundsDown n e) (hle : m ≤ n) : RoundsDown m e :=
  ⟨h.1, Nat.lt_of_le_of_lt (Nat.add_le_add_right hle _) h.2⟩

theorem natAbs_apply (s : Sign) (n : Int) : (s.apply n).natAbs = n.natAbs := by
  cases s
  · exact Int.natAbs_neg n
  · rfl

theorem fits_sub_one {b : BitVec Format.binary64.numBits} (h : (unpack .binary64 b).isFinite = true)
    (hm : 0 < 2 ^ 52) :
    Fits (UnpackedFloat.sub .binary64 (unpack .binary64 b) (.finite .positive (2 ^ 52) (-52) hm)) := by
  generalize hu : unpack .binary64 b = u at h
  cases u with
  | infinity _ | notANumber => cases h
  | zero s => exact (by decide : (-52 : Int) ≤ 971)
  | finite s m e hpos =>
    obtain ⟨hbound, he⟩ := bounds_of_unpack hu
    simp only [UnpackedFloat.sub, decreaseExponent, Nat.shiftLeft_eq]
    refine fits_normalize ((roundsDown_add_one hbound he).mono ?_)
    refine (Int.natAbs_sub_le _ _).trans_eq ?_
    rw [natAbs_apply, natAbs_apply, Int.natAbs_natCast, Int.natAbs_natCast]

/-! ## Multiplication with zero and one -/

/-- The unpacked number is zero, one or minus one. -/
inductive IsUnit : UnpackedFloat → Prop
  | zero (s : Sign) : IsUnit (.zero s)
  | one (s : Sign) (hm : 0 < 2 ^ 52) : IsUnit (.finite s (2 ^ 52) (-52) hm)

/-- A number that compares equal to zero is a zero, and one that compares equal to one or minus one
is the same number. -/
theorem isUnit_of_beq {u w : UnpackedFloat} (hw : IsUnit w) (h : u.beq w = true) : IsUnit u := by
  have heq : u.compare w = some .eq := eq_of_beq h
  cases hw with
  | zero s =>
    cases u with
    | zero s' => exact .zero s'
    | finite s' m e hm => cases s' <;> cases heq
    | infinity s' => cases s' <;> cases heq
    | notANumber => cases heq
  | one s hpos =>
    cases u with
    | zero s' => cases s <;> cases heq
    | finite s' m e hm =>
      have hsame : (compare e (-52)).then (compare m (2 ^ 52)) = .eq ∧ s' = s := by
        cases s <;> cases s' <;> simp_all [UnpackedFloat.compare]
      obtain ⟨hcompare, rfl⟩ := hsame
      obtain ⟨he, hm'⟩ := Ordering.then_eq_eq.1 hcompare
      obtain rfl := Std.LawfulEqCmp.eq_of_compare he
      obtain rfl := Std.LawfulEqCmp.eq_of_compare hm'
      exact .one s' hm
    | infinity s' => cases s <;> cases s' <;> cases heq
    | notANumber => cases heq

theorem fits_unit_mul {c : UnpackedFloat} {b : BitVec Format.binary64.numBits} (hc : IsUnit c)
    (h : (unpack .binary64 b).isFinite = true) :
    Fits (UnpackedFloat.mul .binary64 c (unpack .binary64 b)) := by
  generalize hu : unpack .binary64 b = u at h
  cases u with
  | infinity _ | notANumber => cases h
  | zero s => cases hc <;> trivial
  | finite s m e hpos =>
    obtain ⟨hbound, he⟩ := bounds_of_unpack hu
    cases hc with
    | zero s' => trivial
    | one s' hm =>
      refine fits_roundWithAccuracy ⟨by omega, ?_⟩
      have hhalf : 2 ^ (970 - (-52 + e)).toNat = 2 ^ 51 * 2 ^ (971 - e).toNat := by
        rw [← Nat.pow_add]
        congr 1
        omega
      have hlimit : 2 ^ (1024 - (-52 + e)).toNat = 2 ^ 105 * 2 ^ (971 - e).toNat := by
        rw [← Nat.pow_add]
        congr 1
        omega
      have hpow : 1 ≤ 2 ^ (971 - e).toNat := Nat.one_le_two_pow
      rw [hhalf, hlimit]
      generalize 2 ^ (971 - e).toNat = unit at *
      omega

/-! ## Numbers of the program -/

theorem isFinite_neg {x : Float} (h : Scalar.isFinite x = true) : Scalar.isFinite (-x) = true := by
  change (unpack .binary64 x.toModel.toBits.toBitVec).isFinite = true at h
  change (Float.Model.pack (unpack .binary64 x.toModel.toBits.toBitVec).neg).isFinite = true
  refine isFinite_pack ?_
  generalize hu : unpack .binary64 x.toModel.toBits.toBitVec = u at h
  cases u with
  | infinity _ | notANumber => cases h
  | zero s => trivial
  | finite s m e hm => exact (bounds_of_unpack hu).2

theorem isFinite_pred {x : Float} (h : Scalar.isFinite x = true) :
    Scalar.isFinite (x - 1) = true := by
  have hone : (1 : Float).toModel.unpack = .finite .positive (2 ^ 52) (-52) (by decide) := rfl
  show (Float.Model.pack
    (UnpackedFloat.sub .binary64 x.toModel.unpack (1 : Float).toModel.unpack)).isFinite = true
  rw [hone]
  exact isFinite_pack (fits_sub_one h _)

theorem isFinite_unit_mul {c w x : Float} (hw : IsUnit w.toModel.unpack) (hc : (c == w) = true)
    (h : Scalar.isFinite x = true) : Scalar.isFinite (c * x) = true := by
  change (Float.Model.pack
    (UnpackedFloat.mul .binary64 c.toModel.unpack x.toModel.unpack)).isFinite = true
  exact isFinite_pack (fits_unit_mul (isUnit_of_beq hw hc) h)

instance : ProperScalar Float where
  isFinite_zero := by decide +kernel
  isFinite_one := by decide +kernel
  isFinite_two := by decide +kernel
  isFinite_lnTen := by decide +kernel
  isFinite_neg := isFinite_neg
  isFinite_pred := isFinite_pred

instance : UnitalScalar Float where
  isFinite_zero_mul := isFinite_unit_mul (.zero .positive)
  isFinite_one_mul := isFinite_unit_mul (.one .positive (by decide))
  isFinite_opposite := isFinite_unit_mul (.one .negative (by decide))

end Fluxion.Binary64
