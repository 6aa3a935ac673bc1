import Heightfield.Decimal.Notation
import Heightfield.Proofs.Binary64.Patterns

/-! The digits a number is written with read back to its pattern: reading does not depend on the
scale of a fraction, each candidate is read before it is taken, and the exact expansion has the
pattern's own value. -/

namespace Heightfield

namespace Binary64

theorem natPow_pos (base exponent : Nat) (h : 0 < base) : 0 < Nat.pow base exponent :=
  Nat.pow_pos h

theorem natPow_ten (exponent : Nat) :
    Nat.pow 10 exponent = Nat.pow 2 exponent * Nat.pow 5 exponent :=
  Nat.mul_pow 2 5 exponent

theorem roundDiv_scale (num den : Nat) {scale : Nat} (h : 0 < scale) :
    roundDiv (num * scale) (den * scale) = roundDiv num den := by
  have hle : 2 * (num % den * scale) < den * scale ↔ 2 * (num % den) < den := by
    rw [← Nat.mul_assoc, Nat.mul_lt_mul_right h]
  have heq : 2 * (num % den * scale) = den * scale ↔ 2 * (num % den) = den := by
    rw [← Nat.mul_assoc, Nat.mul_right_cancel_iff h]
  simp only [roundDiv, Nat.mul_div_mul_right num den h, Nat.mul_mod_mul_right, hle, heq]

theorem nearest_scale (num den : Nat) {scale : Nat} (h : 0 < scale) :
    nearest (num * scale) (den * scale) = nearest num den := by
  have hscaled : num * scale * Nat.pow 2 1074 = num * Nat.pow 2 1074 * scale :=
    Nat.mul_right_comm ..
  have hunit : ∀ shift, den * scale * Nat.pow 2 shift = den * Nat.pow 2 shift * scale :=
    fun _ => Nat.mul_right_comm ..
  simp only [nearest, hscaled, hunit, Nat.mul_div_mul_right _ _ h, roundDiv_scale _ _ h]

theorem roundDiv_mul (q : Nat) {den : Nat} (h : 0 < den) : roundDiv (q * den) den = q := by
  simp only [roundDiv, Nat.mul_mod_left, Nat.mul_div_cancel q h]
  rw [if_pos (.inl h)]

theorem units_of_lt {k : Nat} (h : k < 2 ^ 52) : units k = k := if_pos h

theorem units_of_le {k : Nat} (h : 2 ^ 52 ≤ k) :
    units k = (2 ^ 52 + k % 2 ^ 52) * Nat.pow 2 (k / 2 ^ 52 - 1) := if_neg (Nat.not_lt.2 h)

/-- The significand of a value in units lies on the grid of its own exponent. -/
theorem log2_units {k : Nat} (h : 2 ^ 52 ≤ k) : (units k).log2 = 52 + (k / 2 ^ 52 - 1) := by
  have hr := Nat.mod_lt k (Nat.two_pow_pos 52)
  have hpos := Nat.two_pow_pos (k / 2 ^ 52 - 1)
  rw [units_of_le h, Nat.pow_eq]
  refine (Nat.log2_eq_iff (Nat.ne_of_gt (Nat.mul_pos (by omega) hpos))).2 ⟨?_, ?_⟩
  · rw [Nat.pow_add]
    exact Nat.mul_le_mul_right _ (Nat.le_add_right _ _)
  · rw [Nat.add_right_comm, Nat.pow_add]
    exact Nat.mul_lt_mul_of_pos_right (by omega) hpos

/-- Below `infinity` a value in units of the least one reads as its pattern. The exponent is named,
since no step is to compute the power. -/
theorem nearest_units {k exponent : Nat} (hexponent : exponent = 1074) (h : k < infinity) :
    nearest (units k) (Nat.pow 2 exponent) = k := by
  have hunit : ∀ shift, Nat.pow 2 exponent * Nat.pow 2 shift =
      Nat.pow 2 shift * Nat.pow 2 exponent := fun _ => Nat.mul_comm ..
  have hpos := natPow_pos 2 exponent Nat.two_pos
  rw [nearest, ← hexponent]
  simp only [hunit, Nat.mul_div_cancel _ hpos, roundDiv_scale _ _ hpos]
  have hsum : ((units k).log2 - 52) * Nat.pow 2 52 +
      roundDiv (units k) (Nat.pow 2 ((units k).log2 - 52)) = k := by
    by_cases hk : k < 2 ^ 52
    · have hlog : (units k).log2 - 52 = 0 := by
        rw [units_of_lt hk]
        rcases Nat.eq_zero_or_pos k with rfl | hpos'
        · rfl
        · have hlt := (Nat.log2_lt (Nat.ne_of_gt hpos')).2 hk
          omega
      have hone := roundDiv_mul k Nat.one_pos
      rw [Nat.mul_one] at hone
      rw [hlog, units_of_lt hk, Nat.zero_mul, Nat.zero_add]
      exact hone
    · have hlog : (units k).log2 - 52 = k / 2 ^ 52 - 1 := by
        rw [log2_units (Nat.le_of_not_lt hk), Nat.add_sub_cancel_left]
      rw [hlog, units_of_le (Nat.le_of_not_lt hk), roundDiv_mul _ (natPow_pos 2 _ Nat.two_pos)]
      change (k / 2 ^ 52 - 1) * 2 ^ 52 + (2 ^ 52 + k % 2 ^ 52) = k
      omega
  rw [hsum, Nat.min_eq_left (Nat.le_of_lt h)]

/-- A fraction over a power of two is one over a power of ten. -/
theorem nearest_expand (num exponent : Nat) :
    nearest (num * Nat.pow 5 exponent) (Nat.pow 10 exponent) =
      nearest num (Nat.pow 2 exponent) := by
  rw [natPow_ten, nearest_scale _ _ (natPow_pos 5 exponent (Nat.succ_pos 4))]

end Binary64

namespace Decimal

open Binary64

theorem pattern_mk (coefficient places : Nat) :
    pattern ⟨coefficient, places⟩ = nearest coefficient (Nat.pow 10 places) := rfl

theorem pattern_trim (coefficient places : Nat) :
    (trim coefficient places).pattern = pattern ⟨coefficient, places⟩ := by
  fun_induction trim coefficient places with
  | case1 coefficient => rfl
  | case2 coefficient places h ih =>
    rw [ih, pattern, pattern, ← nearest_scale _ _ (Nat.succ_pos 9),
      Nat.div_mul_cancel (Nat.dvd_of_mod_eq_zero h)]
    rfl
  | case3 coefficient places h => rfl

theorem pattern_candidate {k digits : Nat} {d : Decimal} (h : candidate? k digits = some d) :
    d.pattern = k := by
  simp only [candidate?] at h
  split at h
  · next hlow =>
    cases h
    exact hlow.1
  · split at h
    · next hhigh =>
      cases h
      exact hhigh
    · cases h

theorem pattern_exact {k : Nat} (h : k < infinity) : (exact k).pattern = k := by
  obtain ⟨exponent, hexponent⟩ : ∃ exponent, exponent = 1074 := ⟨_, rfl⟩
  rw [exact, ← hexponent, pattern_mk, nearest_expand, nearest_units hexponent h]

/-- Every finite pattern reads back from its shortest digits. -/
theorem pattern_shortest {k : Nat} (h : k < infinity) : (shortest k).pattern = k := by
  simp only [shortest]
  rw [pattern_trim]
  cases hfound : (List.range' 1 17).findSome? (candidate? k) with
  | none => exact pattern_exact h
  | some d =>
    obtain ⟨digits, -, hd⟩ := List.exists_of_findSome?_eq_some hfound
    exact pattern_candidate hd

end Decimal

/-- Digits that stand before a point: a leading zero stands alone. -/
structure Decimal.Whole (ds : List Char) : Prop where
  digits : ∀ c ∈ ds, c.isDigit = true
  zero : ds.head? = some '0' → ds = ['0']

namespace Decimal

theorem ofChars_whole {ds : List Char} (h : ∀ c ∈ ds, c.isDigit = true) :
    ofChars ds = ⟨Nat.ofDigitChars 10 ds 0, 0⟩ := by
  have htake := @List.takeWhile_append_of_pos _ Char.isDigit ds [] h
  have hdrop := @List.dropWhile_append_of_pos _ Char.isDigit ds [] h
  rw [List.append_nil, List.takeWhile_nil, List.append_nil] at htake
  rw [List.append_nil, List.dropWhile_nil] at hdrop
  rw [ofChars, htake, hdrop, List.drop_nil, List.append_nil, List.length_nil]

theorem ofChars_pointed {ds fs : List Char} (h : ∀ c ∈ ds, c.isDigit = true) :
    ofChars (ds ++ '.' :: fs) = ⟨Nat.ofDigitChars 10 (ds ++ fs) 0, fs.length⟩ := by
  have hpoint : ¬ '.'.isDigit = true := by decide
  rw [ofChars, List.takeWhile_append_of_pos h, List.dropWhile_append_of_pos h,
    List.takeWhile_cons_of_neg hpoint, List.dropWhile_cons_of_neg hpoint, List.append_nil,
    List.drop_one, List.tail_cons]

theorem isDigit_toDigits (n : Nat) : ∀ c ∈ Nat.toDigits 10 n, c.isDigit = true :=
  fun _ => Nat.isDigit_of_mem_toDigits (by decide) (Nat.le_refl _)

theorem head_toDigits {n : Nat} (h : (Nat.toDigits 10 n).head? = some '0') : n = 0 := by
  rw [Nat.toDigits_eq_if (by decide)] at h
  split at h
  · exact Nat.digitChar_eq_zero.1 (Option.some.inj h)
  · obtain ⟨c, cs, hdigits⟩ := List.exists_cons_of_ne_nil (@Nat.toDigits_ne_nil (n / 10) 10)
    rw [hdigits] at h
    have hzero : n / 10 = 0 := head_toDigits (hdigits ▸ h)
    omega
termination_by n
decreasing_by omega

theorem toDigits_whole (n : Nat) : Whole (Nat.toDigits 10 n) where
  digits := isDigit_toDigits n
  zero h := by
    rw [head_toDigits h]
    rfl

/-- The digits of the coefficient, behind as many zeros as a digit before the point needs. -/
def padded (d : Decimal) : List Char :=
  List.replicate (d.places + 1 - (Nat.toDigits 10 d.coefficient).length) '0' ++
    Nat.toDigits 10 d.coefficient

theorem places_lt_padded (d : Decimal) : d.places < d.padded.length := by
  rw [padded, List.length_append, List.length_replicate]
  omega

theorem isDigit_padded (d : Decimal) : ∀ c ∈ d.padded, c.isDigit = true := by
  intro c hc
  rcases List.mem_append.1 hc with h | h
  · rw [List.eq_of_mem_replicate h]
    decide
  · exact isDigit_toDigits _ c h

theorem ofDigitChars_padded (d : Decimal) : Nat.ofDigitChars 10 d.padded 0 = d.coefficient := by
  rw [padded, Nat.ofDigitChars_append, Nat.ofDigitChars_replicate_zero, Nat.mul_zero,
    Nat.ofDigitChars_ten_toDigits]

/-- Only where no digit of the coefficient stands before the point does a zero stand there. -/
theorem take_padded_whole (d : Decimal) (hplaces : d.places ≠ 0) :
    Whole (d.padded.take (d.padded.length - d.places)) where
  digits c hc := isDigit_padded d c (List.mem_of_mem_take hc)
  zero h := by
    by_cases hlen : (Nat.toDigits 10 d.coefficient).length ≤ d.places
    · have hpadded : d.padded.length = d.places + 1 := by
        rw [padded, List.length_append, List.length_replicate]
        omega
      rw [hpadded, Nat.add_sub_cancel_left] at h ⊢
      cases hcs : d.padded with
      | nil =>
        rw [hcs] at h
        cases h
      | cons c cs =>
        rw [hcs] at h
        cases h
        rfl
    · have hnone : d.places + 1 - (Nat.toDigits 10 d.coefficient).length = 0 := by omega
      rw [padded, hnone, List.replicate_zero, List.nil_append, List.head?_take,
        if_neg (by omega)] at h
      rw [head_toDigits h, Nat.toDigits_zero] at hlen
      exact absurd (Nat.pos_of_ne_zero hplaces) hlen

theorem chars_eq (d : Decimal) : d.chars = if d.places = 0 then Nat.toDigits 10 d.coefficient
    else d.padded.take (d.padded.length - d.places) ++
      '.' :: d.padded.drop (d.padded.length - d.places) := rfl

theorem ofChars_chars (d : Decimal) : ofChars d.chars = d := by
  rw [chars_eq]
  split
  · next h =>
    rw [ofChars_whole (isDigit_toDigits _), Nat.ofDigitChars_ten_toDigits, ← h]
  · next h =>
    have hlt := places_lt_padded d
    rw [ofChars_pointed (fun c hc => isDigit_padded d c (List.mem_of_mem_take hc)),
      List.take_append_drop, ofDigitChars_padded, List.length_drop,
      Nat.sub_sub_self (Nat.le_of_lt hlt)]

end Decimal

namespace Notation

open Binary64

variable {k : Nat}

theorem plain_toFloat (h : k < infinity) :
    plain (toFloat k) = String.ofList (Decimal.shortest k).chars := by
  have hle := Nat.le_of_lt h
  simp only [plain, written, magnitude_toFloat hle, isSigned_toFloat hle]
  rw [if_neg (Nat.not_lt.2 hle), if_neg (Nat.ne_of_lt h), if_neg Bool.false_ne_true]

theorem plain_infinity : plain (toFloat infinity) = "inf" := by
  have hle := Nat.le_refl infinity
  simp only [plain, written, magnitude_toFloat hle, isSigned_toFloat hle]
  rw [if_neg (Nat.lt_irrefl _), if_pos trivial, if_neg Bool.false_ne_true, String.ofList_toList]

/-- A finite number that is written and read again is the same. -/
theorem toFloat_ofChars_plain (h : k < infinity) :
    (Decimal.ofChars (plain (toFloat k)).toList).toFloat = toFloat k := by
  rw [plain_toFloat h, String.toList_ofList, Decimal.ofChars_chars, Decimal.toFloat,
    Decimal.pattern_shortest h]

end Notation

end Heightfield
