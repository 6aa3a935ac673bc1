import Mathlib
import Heightfield.Binary64

/-! Each pattern up to infinity is kept by the float made of it: only the patterns above, which hold
no number, collapse into one. -/

namespace Heightfield.Binary64

open Float.Model Float.Model.UnpackedFloat

theorem toNat_unpackExponent (b : BitVec Format.binary64.numBits) :
    (unpackExponent b).toNat = b.toNat / 2 ^ 52 % 2 ^ 11 := by
  rw [unpackExponent_def, BitVec.extractLsb'_toNat, Nat.shiftRight_eq_div_pow]

/-- The pattern as a word with fields. -/
def word (k : Nat) : BitVec Format.binary64.numBits := BitVec.ofNat _ k

variable {k : Nat}

theorem toNat_word (h : k ≤ infinity) : (word k).toNat = k := by
  have hk : k ≤ 2047 * 2 ^ 52 := h
  rw [word, BitVec.toNat_ofNat]
  change k % 2 ^ 64 = k
  omega

/-- All ones in the exponent are infinity's alone. -/
theorem unpackExponent_word (h : k ≤ infinity) :
    unpackExponent (word k) = -1#11 ↔ k = infinity := by
  have hk : k ≤ 2047 * 2 ^ 52 := h
  rw [← BitVec.toNat_inj, toNat_unpackExponent, toNat_word h]
  change k / 2 ^ 52 % 2 ^ 11 = 2047 ↔ k = 2047 * 2 ^ 52
  omega

theorem unpackMantissa_word_infinity : unpackMantissa (word infinity) = 0#52 := by
  decide +kernel

theorem isNaNBits_word (h : k ≤ infinity) : isNaNBits (word k) = false := by
  refine decide_eq_false fun ⟨he, hm⟩ => hm ?_
  rw [(unpackExponent_word h).1 he]
  exact unpackMantissa_word_infinity

theorem pack_unpack_word (h : k ≤ infinity) :
    UnpackedFloat.pack .binary64 (UnpackedFloat.unpack .binary64 (word k)) = word k := by
  rw [pack_unpack (word k) (by decide), isNaNBits_word h, if_neg Bool.false_ne_true]

theorem toBits_toFloat (h : k ≤ infinity) : (toFloat k).toBits.toNat = k := by
  have hword := congrArg BitVec.toNat (pack_unpack_word h)
  rwa [toNat_word h] at hword

theorem isInf_toFloat (h : k ≤ infinity) : (toFloat k).isInf = decide (k = infinity) := by
  have hunpack : (toFloat k).isInf = (UnpackedFloat.unpack .binary64 (word k)).isInf :=
    congrArg (fun b => (UnpackedFloat.unpack .binary64 b).isInf) (pack_unpack_word h)
  rw [hunpack, UnpackedFloat.unpack]
  split
  · next he =>
    have hk := (unpackExponent_word h).1 he
    rw [hk, if_pos unpackMantissa_word_infinity]
    rfl
  · next he =>
    rw [decide_eq_false fun hk => he ((unpackExponent_word h).2 hk)]
    split
    · split <;> rfl
    · rfl

theorem magnitude_toFloat (h : k ≤ infinity) : magnitude (toFloat k) = k := by
  have hk : k ≤ 2047 * 2 ^ 52 := h
  rw [magnitude, toBits_toFloat h]
  exact Nat.mod_eq_of_lt (by change k < 2 ^ 63; omega)

theorem isSigned_toFloat (h : k ≤ infinity) : isSigned (toFloat k) = false := by
  have hk : k ≤ 2047 * 2 ^ 52 := h
  rw [isSigned, toBits_toFloat h, decide_eq_false_iff_not]
  change ¬ 2 ^ 63 ≤ k
  omega

end Heightfield.Binary64
