import Fluxion.Proofs.Scalar.Binary64
import Fluxion.Proofs.Term.Printed

/-!
# Numbers as they are written

A proper number is written as digits, with a point at most, after a minus sign if it is negative.
This is all that the layout of a term depends on. It holds of the numbers that the program calculates
with: the first of their bits is their sign, and what is written after the sign is a decimal in
positional notation.
-/

namespace Fluxion

open Token (IsNumber)

/-- Numbers that are written as digits after their sign. They need not be read back. -/
class SignedNumeral (α : Type) [Scalar α] [Numeral α] : Prop extends SignedScalar α where
  exists_text_eq {v : α} : Scalar.isFinite v = true →
    ∃ cs, IsNumber cs ∧ Numeral.text v = if Scalar.isNegative v then '-' :: cs else cs

instance {α : Type} [Scalar α] [Numeral α] [LawfulNumeral α] : SignedNumeral α where
  exists_text_eq {v} hfinite := by
    cases hsign : Scalar.isNegative v with
    | false => exact ⟨_, LawfulNumeral.isNumber_text hfinite hsign, rfl⟩
    | true =>
      have hneg : Scalar.isFinite (-v) = true := by rwa [SignedScalar.isFinite_neg]
      have hpos := LawfulNumeral.isNegative_neg hfinite hsign
      exact ⟨_, LawfulNumeral.isNumber_text hneg hpos, LawfulNumeral.text_neg hfinite hsign⟩

/-- Numbers that are negative if they are minus one. -/
class NegativeUnit (α : Type) [Scalar α] : Prop where
  isNegative_of_beq {v : α} : (v == -1) = true → Scalar.isNegative v = true

namespace Decimal

/-! ## Positional notation -/

theorem isDigit_of_mem_numeral {n : Nat} {c : Char} (h : c ∈ numeral n) : c.isDigit = true :=
  Nat.isDigit_of_mem_toDigits (by decide) (by decide) h

theorem numeral_ne_nil (n : Nat) : numeral n ≠ [] :=
  Nat.toDigits_ne_nil

theorem isDigit_of_mem_replicate {n : Nat} {c : Char} (h : c ∈ List.replicate n '0') :
    c.isDigit = true := by
  rw [List.eq_of_mem_replicate h]
  rfl

/-- A decimal in positional notation is a number. -/
theorem isNumber_positional (s : Scientific) : IsNumber s.positional := by
  have hdigits (d : Char) (hd : d ∈ numeral s.digits) := isDigit_of_mem_numeral hd
  have hne := numeral_ne_nil s.digits
  simp only [Scientific.positional]
  split
  · refine ⟨_, [], List.append_ne_nil_of_left_ne_nil hne _, ?_, by simp, .inl rfl⟩
    intro d hd
    exact (List.mem_append.1 hd).elim (hdigits d) isDigit_of_mem_replicate
  · next hexponent =>
    split
    · next hplaces =>
      refine ⟨_, _, ?_, fun d hd => hdigits d (List.mem_of_mem_take hd),
        fun d hd => hdigits d (List.mem_of_mem_drop hd), .inr ⟨?_, rfl⟩⟩
      · rw [Ne, List.take_eq_nil_iff, not_or]
        exact ⟨by omega, hne⟩
      · rw [Ne, List.drop_eq_nil_iff]
        omega
    · refine ⟨['0'], _, List.cons_ne_nil _ _, by simp, ?_,
        .inr ⟨List.append_ne_nil_of_right_ne_nil _ hne, rfl⟩⟩
      intro d hd
      exact (List.mem_append.1 hd).elim isDigit_of_mem_replicate (hdigits d)

theorem isNumber_zero : IsNumber ['0'] :=
  ⟨['0'], [], List.cons_ne_nil _ _, by simp, by simp, .inl rfl⟩

/-- What is no infinity and not undefined is written as a number, after a minus sign if the first of
the bits says so. -/
theorem exists_ofBits_eq {bits : UInt64} (h : bits.toNat / hiddenBit % 2048 ≠ 2047) :
    ∃ cs, IsNumber cs ∧ ofBits bits = if signBit ≤ bits.toNat then '-' :: cs else cs := by
  simp only [ofBits, beq_eq_false_iff_ne.2 h, Bool.false_and, Bool.false_eq_true, if_false]
  refine ⟨_, ?_, rfl⟩
  split
  · exact isNumber_zero
  · split <;> exact isNumber_positional _

end Decimal

namespace Binary64

open Float.Model (Format UnpackedFloat)
open Float.Model.UnpackedFloat

/-! ## Binary numbers -/

theorem isNegative_eq (x : Float) :
    Scalar.isNegative x = x.toModel.unpack.lt (.zero .positive) := by
  have hzero : (0.0 : Float).toModel.unpack = .zero .positive := rfl
  rw [← hzero]
  change decide (decide (x.toModel.lt (0.0 : Float).toModel = true) = true) = _
  rw [Bool.decide_eq_true, Bool.decide_eq_true]
  rfl

theorem unpackSign_eq_one_iff (b : BitVec Format.binary64.numBits) :
    unpackSign b = 1#1 ↔ Decimal.signBit ≤ b.toNat := by
  have hlt : b.toNat < 2 ^ 64 := b.isLt
  rw [← BitVec.toNat_inj]
  simp only [unpackSign, BitVec.toNat_cast, BitVec.extractLsb_toNat, Decimal.signBit]
  change b.toNat >>> 63 % 2 ^ 1 = 1 ↔ _
  rw [Nat.shiftRight_eq_div_pow]
  omega

theorem toNat_unpackExponent (b : BitVec Format.binary64.numBits) :
    (unpackExponent b).toNat = b.toNat / Decimal.hiddenBit % 2048 := by
  simp only [unpackExponent, BitVec.toNat_cast, BitVec.extractLsb_toNat, Decimal.hiddenBit]
  change b.toNat >>> 52 % 2 ^ 11 = _
  rw [Nat.shiftRight_eq_div_pow]

theorem exponent_of_isFinite {x : Float} (h : Scalar.isFinite x = true) :
    x.toBits.toNat / Decimal.hiddenBit % 2048 ≠ 2047 := by
  have hones : @unpackExponent .binary64 x.toModel.toBits.toBitVec ≠ -1#_ :=
    (isFinite_unpack _).1 h
  intro heq
  refine hones (BitVec.eq_of_toNat_eq ?_)
  rw [toNat_unpackExponent]
  exact heq

theorem sign_of_unpack {b : BitVec Format.binary64.numBits} {s : Sign} {m : Nat} {e : Int}
    {hm : 0 < m} (h : unpack .binary64 b = .finite s m e hm) :
    s = Sign.ofBitVec (unpackSign b) := by
  simp only [unpack] at h
  split at h
  · split at h <;> cases h
  · split at h
    · split at h
      · cases h
      · cases h
        rfl
    · cases h
      rfl

/-- A proper number that is no zero is negative if and only if the first of its bits is set. -/
theorem isNegative_iff_signBit {x : Float} (hfinite : Scalar.isFinite x = true)
    (hzero : (x == 0.0) = false) :
    Scalar.isNegative x = true ↔ Decimal.signBit ≤ x.toBits.toNat := by
  change x.toModel.unpack.isFinite = true at hfinite
  change x.toModel.unpack.beq (.zero .positive) = false at hzero
  rw [isNegative_eq]
  generalize hu : x.toModel.unpack = u at hfinite hzero ⊢
  cases u with
  | infinity _ | notANumber => cases hfinite
  | zero s => cases hzero
  | finite s m e hm =>
    refine Iff.trans ?_ (unpackSign_eq_one_iff x.toModel.toBits.toBitVec)
    rw [sign_of_unpack hu]
    generalize @unpackSign .binary64 x.toModel.toBits.toBitVec = sign
    rcases BitVec.eq_zero_or_eq_one sign with rfl | rfl
    · exact iff_of_false nofun (by decide)
    · exact iff_of_true rfl rfl

theorem isFinite_neg_eq (x : Float) : Scalar.isFinite (-x) = Scalar.isFinite x := by
  rw [Bool.eq_iff_iff]
  refine ⟨?_, isFinite_neg⟩
  change (Float.Model.pack x.toModel.unpack.neg).isFinite = true → x.toModel.unpack.isFinite = true
  cases x.toModel.unpack with
  | zero _ | finite _ _ _ _ => exact fun _ => rfl
  | notANumber => decide +kernel
  | infinity s => cases s <;> decide +kernel

/-- Of two numbers that compare equal, both are infinite, or none is. -/
theorem isFinite_eq_of_compare {u w : UnpackedFloat} (h : u.compare w = some .eq) :
    u.isFinite = w.isFinite := by
  cases u with
  | notANumber => cases h
  | infinity s =>
    cases w with
    | notANumber => cases h
    | infinity s' => rfl
    | zero _ | finite _ _ _ _ => cases s <;> cases h
  | zero _ | finite _ _ _ _ =>
    cases w with
    | notANumber => cases h
    | infinity s' => cases s' <;> cases h
    | zero _ | finite _ _ _ _ => rfl

instance : SignedNumeral Float where
  isFinite_one := ProperScalar.isFinite_one
  isFinite_neg := isFinite_neg_eq
  isFinite_congr h := isFinite_eq_of_compare (eq_of_beq h)
  exists_text_eq {x} hfinite := by
    change ∃ cs, IsNumber cs ∧ (if x == 0.0 then ['0'] else Decimal.ofBits x.toBits) = _
    cases hzero : x == 0.0 with
    | true =>
      have heq : x.toModel.unpack.compare (.zero .positive) = some .eq := eq_of_beq hzero
      have hpos : Scalar.isNegative x = false := by
        rw [isNegative_eq, UnpackedFloat.lt, heq]
        rfl
      exact ⟨_, Decimal.isNumber_zero, by rw [hpos]; rfl⟩
    | false =>
      obtain ⟨cs, hcs, htext⟩ := Decimal.exists_ofBits_eq (exponent_of_isFinite hfinite)
      refine ⟨cs, hcs, ?_⟩
      simp only [isNegative_iff_signBit hfinite hzero, htext, Bool.false_eq_true, if_false]

/-- What compares equal to a negative number is less than zero. -/
theorem compare_zero_of_compare {u : UnpackedFloat} {m : Nat} {e : Int} {hm : 0 < m}
    (h : u.compare (.finite .negative m e hm) = some .eq) :
    u.compare (.zero .positive) = some .lt := by
  cases u with
  | notANumber | zero _ => cases h
  | infinity s => cases s <;> cases h
  | finite s _ _ _ =>
    cases s with
    | negative => rfl
    | positive => cases h

instance : NegativeUnit Float where
  isNegative_of_beq {x} h := by
    have hunit : (-1 : Float).toModel.unpack = .finite .negative (2 ^ 52) (-52) (by decide) := rfl
    have heq : x.toModel.unpack.compare (-1 : Float).toModel.unpack = some .eq := eq_of_beq h
    rw [hunit] at heq
    rw [isNegative_eq, UnpackedFloat.lt, compare_zero_of_compare heq]
    rfl

end Binary64

end Fluxion
