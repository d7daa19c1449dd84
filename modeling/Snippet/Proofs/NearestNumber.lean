import Snippet.Proofs.WholePart
import Snippet.Number.Reader
import Snippet.Number.Decimal

/-!
Large integers as floating numbers. A natural number of more than 53 bits is rounded to the nearest multiple of
the power of two with which 53 bits are left, and to the one with an even quotient if two are equally near. So it
is found again in the number that is made from it only if it is such a multiple itself.
-/

namespace Snippet.Clock

open Float.Model UnpackedFloat

structure IsQuotient (em : ExtendedMantissa) (num den : Nat) : Prop where
  mantissa : em.mantissa = num / den
  half : em.roundBit = true ↔ den ≤ 2 * (num % den)
  uneven : em.stickyBit = true ↔ num % den ≠ 0 ∧ 2 * (num % den) ≠ den

variable {em : ExtendedMantissa} {num den : Nat}

/-- Half of a mantissa keeps what has been cut off as a bit of its own. -/
theorem IsQuotient.shiftRightOne (h : IsQuotient em num den) (hden : 0 < den) :
    IsQuotient em.shiftRightOne num (2 * den) := by
  have hlt : num % den < den := Nat.mod_lt _ hden
  have hrest : num % (2 * den) = num % den + den * (num / den % 2) := by
    rw [Nat.mul_comm, Nat.mod_mul]
  have hbit : num / den % 2 = 0 ∨ num / den % 2 = 1 := Nat.mod_two_eq_zero_or_one _
  constructor
  · change em.mantissa / 2 = _
    rw [h.mantissa, Nat.div_div_eq_div_mul, Nat.mul_comm]
  · change (em.mantissa % 2 != 0) = true ↔ _
    rw [h.mantissa, bne_iff_ne, hrest]
    rcases hbit with hbit | hbit
    · rw [hbit]
      omega
    · rw [hbit]
      omega
  · change (em.roundBit || em.stickyBit) = true ↔ _
    rw [Bool.or_eq_true, h.half, h.uneven, hrest]
    rcases hbit with hbit | hbit
    · rw [hbit]
      omega
    · rw [hbit]
      omega

/-- Shifting divides by a power of two; by induction on the bits that are shifted out. -/
theorem isQuotient_shift (n k : Nat) : IsQuotient (ExtendedMantissa.mk n false false >>> k) n (2 ^ k) := by
  induction k with
  | zero =>
    have hrest : n % 1 = 0 := Nat.mod_one n
    refine ⟨(Nat.div_one n).symm, ?_, ?_⟩
    · exact iff_of_false Bool.false_ne_true (by omega)
    · exact iff_of_false Bool.false_ne_true (by omega)
  | succ k ih =>
    rw [Nat.pow_succ, Nat.mul_comm]
    exact ih.shiftRightOne (Nat.two_pow_pos k)

/-- Rounding a mantissa that stands for a quotient rounds the quotient, with ties to even. -/
theorem IsQuotient.roundedMantissa_eq (h : IsQuotient em num den) (hden : 0 < den) :
    em.roundedMantissa = Number.roundDiv .even num den := by
  have hlt : num % den < den := Nat.mod_lt _ hden
  obtain ⟨m, r, s⟩ := em
  obtain ⟨hm, hhalf, huneven⟩ := h
  dsimp only at hm hhalf huneven
  subst hm
  unfold Number.roundDiv
  cases r with
  | false =>
    have hless : 2 * (num % den) < den := Nat.not_le.mp fun hle => Bool.false_ne_true (hhalf.mpr hle)
    cases s <;> simp [ExtendedMantissa.roundedMantissa, ExtendedMantissa.accuracy,
      Accuracy.roundToNearestEven, hless]
  | true =>
    have hge : den ≤ 2 * (num % den) := hhalf.mp rfl
    have hnot : ¬ 2 * (num % den) < den := Nat.not_lt.mpr hge
    cases s with
    | true =>
      have hgreater : den < 2 * (num % den) := Nat.lt_of_le_of_ne hge (huneven.mp rfl).2.symm
      simp [ExtendedMantissa.roundedMantissa, ExtendedMantissa.accuracy, Accuracy.roundToNearestEven,
        hnot, hgreater]
    | false =>
      have hequal : ¬ den < 2 * (num % den) := by
        intro hgreater
        exact Bool.false_ne_true (huneven.mpr ⟨by omega, by omega⟩)
      rcases Nat.mod_two_eq_zero_or_one (num / den) with hbit | hbit <;>
        simp [ExtendedMantissa.roundedMantissa, ExtendedMantissa.accuracy, Accuracy.roundToNearestEven,
          hnot, hequal, hbit]

/-- The bits of a number that is at least one, and those of the opposite one, differ by the sign. -/
theorem bitsOf_neg {x : Float} {power mantissa : Nat} (hlow : 2 ^ 52 ≤ mantissa) (hhigh : mantissa < 2 ^ 53)
    (hpower : power < 2046) (hbits : bitsOf x = power * 2 ^ 52 + mantissa) :
    bitsOf x.neg = 2 ^ 63 + (power * 2 ^ 52 + mantissa) := by
  have hfinite : bitsOf x < infinityBits := by
    rw [hbits]
    unfold infinityBits
    omega
  have hunpack := unpack_eq_of_bits hlow hhigh hbits hfinite
  have hneg : x.neg.toModel = Float.Model.pack (.finite .negative mantissa ((power : Int) - 1074)
      (Nat.lt_of_lt_of_le (Nat.two_pow_pos 52) hlow)) :=
    congrArg (fun u => Float.Model.pack (UnpackedFloat.neg u)) hunpack
  unfold bitsOf
  rw [hneg, bits_pack_normal .negative hlow hhigh hpower]
  change 1 * 2 ^ 63 + _ + _ = _
  omega

end Snippet.Clock

namespace Snippet.Number

open Clock Float.Model UnpackedFloat

theorem roundDiv_mul_right (tie : Tie) (num den : Nat) {c : Nat} (hc : 0 < c) :
    roundDiv tie (num * c) (den * c) = roundDiv tie num den := by
  have htwice : 2 * (num % den * c) = 2 * (num % den) * c := (Nat.mul_assoc _ _ _).symm
  unfold roundDiv
  simp only [Nat.mul_div_mul_right _ _ hc, Nat.mul_mod_mul_right, htwice, Nat.mul_lt_mul_right hc]

/-- The natural number that a floating number made from `n` stands for. -/
def nearest (n : Nat) : Nat := roundDiv .even n (2 ^ (n.log2 - 52)) * 2 ^ (n.log2 - 52)

/-- A natural number is the nearest one exactly if its last bits are zeros. -/
theorem nearest_eq_self_iff (n : Nat) : nearest n = n ↔ 2 ^ (n.log2 - 52) ∣ n := by
  constructor
  · intro h
    exact ⟨_, h.symm.trans (Nat.mul_comm _ _)⟩
  · intro h
    have hround : roundDiv .even n (2 ^ (n.log2 - 52)) = n / 2 ^ (n.log2 - 52) := by
      unfold roundDiv
      rw [Nat.mod_eq_zero_of_dvd h]
      exact if_pos (Nat.two_pow_pos _)
    unfold nearest
    rw [hround, Nat.div_mul_cancel h]

theorem nearest_of_lt {n : Nat} (hn : n < 2 ^ 53) : nearest n = n := by
  rw [nearest_eq_self_iff]
  obtain rfl | hpos := Nat.eq_zero_or_pos n
  · exact Nat.dvd_zero _
  · rw [Nat.sub_eq_zero_of_le (log2_le_of_lt hpos hn)]
    exact Nat.one_dvd n

section

variable {n : Nat} (hge : 2 ^ 53 ≤ n) (hlt : n < 2 ^ 64)

include hge hlt

theorem log2_bounds : 53 ≤ n.log2 ∧ n.log2 < 64 :=
  ⟨(Nat.le_log2 (by omega)).mpr hge, (Nat.log2_lt (by omega)).mpr hlt⟩

/-- A large natural number is multiplied by a power of two and rounded. -/
theorem bitsOf_ofNat_large :
    ∃ power mantissa, 2 ^ 52 ≤ mantissa ∧ mantissa < 2 ^ 53 ∧ 1074 ≤ power ∧ power < 2046 ∧
      bitsOf (Float.ofNat n) = power * 2 ^ 52 + mantissa ∧
      mantissa * 2 ^ (power - 1074) = nearest n := by
  obtain ⟨hlog, hlog'⟩ := log2_bounds hge hlt
  have hpos : 0 < n := by omega
  have hscaled : 0 < n * 2 ^ 53 := Nat.mul_pos hpos (Nat.two_pow_pos 53)
  have htarget : targetPower (n * 2 ^ 53) 1021 = n.log2 + 1022 := by
    unfold targetPower
    rw [log2_mul_two_pow hpos]
    omega
  have hproduct : (Float.ofNat n).toModel = Float.Model.pack
      (UnpackedFloat.round Format.binary64 .positive (n * 2 ^ 53) (((1021 : Nat) : Int) - 1074)) := by
    have hmul : UnpackedFloat.ofScientific Format.binary64 n 0 =
        UnpackedFloat.mul Format.binary64 (.finite .positive (n * 2 ^ 53) (((1021 : Nat) : Int) - 1074) hscaled)
          (.finite .positive 1 (((1074 : Nat) : Int) - 1074) Nat.one_pos) := by
      have hsmall : ¬ (0 : Int) < -((2 : Int) ^ Format.binary64.exponentBits + (n.log2 : Int)) := by
        change ¬ (0 : Int) < -((2 : Int) ^ 11 + (n.log2 : Int))
        omega
      unfold UnpackedFloat.ofScientific
      rw [dif_neg (Nat.ne_of_gt hpos), if_neg (by decide), if_neg hsmall, if_pos (Int.le_refl 0)]
      refine congrArg₂ _ (finite_congr _ _ ?_ rfl) (finite_congr _ _ rfl rfl)
      rw [Nat.shiftLeft_eq]
      rfl
    change (Float.ofScientific n false 0).toModel = _
    unfold Float.ofScientific
    rw [dif_neg (by omega)]
    change Float.Model.pack (UnpackedFloat.ofScientific Format.binary64 n 0) = _
    have hlong : 1074 ≤ 1021 + 1074 ∧ 1021 + 1074 - 1074 ≤ targetPower (n * 2 ^ 53 * 1) (1021 + 1074 - 1074) := by
      refine ⟨by decide, ?_⟩
      rw [Nat.mul_one]
      change 1021 ≤ targetPower (n * 2 ^ 53) 1021
      omega
    rw [hmul, mul_finite _ _ hlong.1 hlong.2, Nat.mul_one]
  obtain ⟨hless, hnormal, hpositive⟩ := shifted_mantissa_bounds hscaled 1021
  obtain ⟨hbelow, habove⟩ := le_roundedMantissa (shifted (n * 2 ^ 53) 1021)
  -- What is shifted out of the product are the bits of the number beyond 53.
  have hrounded : (shifted (n * 2 ^ 53) 1021).roundedMantissa = roundDiv .even n (2 ^ (n.log2 - 52)) := by
    have hquotient := isQuotient_shift (n * 2 ^ 53) (n.log2 + 1)
    have hpower : 2 ^ (n.log2 + 1) = 2 ^ (n.log2 - 52) * 2 ^ 53 := by
      rw [← Nat.pow_add]
      congr 1
      omega
    have hshifted : shifted (n * 2 ^ 53) 1021 =
        ExtendedMantissa.mk (n * 2 ^ 53) false false >>> (n.log2 + 1) := by
      unfold shifted
      rw [htarget, show 1021 - (n.log2 + 1022) = 0 by omega, show n.log2 + 1022 - 1021 = n.log2 + 1 by omega,
        Nat.pow_zero, Nat.mul_one]
    rw [hshifted, hquotient.roundedMantissa_eq (Nat.two_pow_pos _), hpower,
      roundDiv_mul_right _ _ _ (Nat.two_pow_pos 53)]
  obtain ⟨power, mantissa, hc, hround, hcode⟩ := round_eq hscaled 1021
  have hcanonical := hc.normal
  have hsize := hc.lt
  rw [htarget] at hnormal hcode
  have hshort : power < 2046 ∧ 2 ^ 52 ≤ mantissa ∧ n.log2 + 1022 ≤ power := by omega
  refine ⟨power, mantissa, hshort.2.1, hsize, by omega, hshort.1, ?_, ?_⟩
  · unfold bitsOf
    rw [hproduct, hround, bits_pack_finite hc]
    apply Nat.min_eq_left
    unfold infinityBits
    omega
  · -- A mantissa of 54 bits is halved.
    rw [hrounded] at hcode hbelow habove
    unfold nearest
    generalize roundDiv .even n (2 ^ (n.log2 - 52)) = R at *
    obtain rfl | hcarry : power = n.log2 + 1022 ∨ power = n.log2 + 1022 + 1 := by omega
    · obtain rfl : mantissa = R := by omega
      rw [show n.log2 + 1022 - 1074 = n.log2 - 52 by omega]
    · obtain ⟨rfl, rfl⟩ : mantissa = 2 ^ 52 ∧ R = 2 ^ 52 * 2 := by omega
      rw [Nat.mul_assoc, ← Nat.pow_succ', show power - 1074 = (n.log2 - 52).succ by omega]

end

/-- A natural number of at most 53 bits, or its opposite, has no fraction and is not changed by truncation. -/
theorem truncate_small {n : Nat} (hlt : n < 2 ^ 53) (negative : Bool) :
    toInt64Clamped (truncate (if negative then -Float.ofNat n else Float.ofNat n)) =
      if negative then -(n : Int) else n := by
  obtain rfl | hpos := Nat.eq_zero_or_pos n
  · cases negative <;> decide +kernel
  · obtain ⟨edge, hx⟩ := Binary.ofFloat?_natural hpos hlt negative
    change Binary.ofFloat? (if negative then -Float.ofNat n else Float.ofNat n) = _ at hx
    have hfloor := (Binary.whole_of_multiple negative edge n (52 - n.log2)).2
    have hsame : truncate (if negative then -Float.ofNat n else Float.ofNat n) =
        if negative then -Float.ofNat n else Float.ofNat n := by
      unfold truncate
      rw [hx]
      dsimp only
      rw [hfloor, ite_self]
    rw [hsame, (exact_of_binary hlt hx).2]

/-- A larger one is rounded, and what that leaves has no fraction either. -/
theorem truncate_large {n : Nat} (hge : 2 ^ 53 ≤ n) (hlt : n < 2 ^ 64) (negative : Bool) :
    toInt64Clamped (truncate (if negative then -Float.ofNat n else Float.ofNat n)) =
      clampInt64 (if negative then -(nearest n : Int) else nearest n) := by
  obtain ⟨power, mantissa, hlow, hhigh, hpower, hfinite, hbits, hvalue⟩ := bitsOf_ofNat_large hge hlt
  have hc : IsCanonical power mantissa := ⟨Nat.lt_of_lt_of_le (Nat.two_pow_pos 52) hlow, hhigh, .inr hlow⟩
  have hless : power * 2 ^ 52 + mantissa < infinityBits := by
    unfold infinityBits
    omega
  have hsigned : bitsOf (if negative then -Float.ofNat n else Float.ofNat n) =
      negative.toNat * 2 ^ 63 + (power * 2 ^ 52 + mantissa) := by
    cases negative with
    | true => exact (bitsOf_neg hlow hhigh hfinite hbits).trans (by rw [Bool.toNat_true, Nat.one_mul])
    | false => exact hbits.trans (by rw [Bool.toNat_false, Nat.zero_mul, Nat.zero_add])
  obtain ⟨edge, hx⟩ := Binary.ofFloat?_of_bits negative hc hless hsigned
  have hexponent : (0 : Int) ≤ (power : Int) - 1074 := by omega
  have hmagnitude : (Binary.mk negative mantissa ((power : Int) - 1074) edge).floorMagnitude = nearest n := by
    rw [Binary.floorMagnitude_eq, wholeMagnitude_eq, show 1074 - power = 0 by omega, Nat.pow_zero, Nat.div_one,
      hvalue]
  unfold truncate
  rw [hx]
  dsimp only
  rw [if_pos hexponent]
  unfold toInt64Clamped Binary.truncate
  rw [hx]
  dsimp only
  rw [hmagnitude]
  rfl

def throughFloat (n : Int) : Int := clampInt64 (if n < 0 then -(nearest n.natAbs : Int) else nearest n.natAbs)

theorem clampInt64_of_bounds {n : Int} (hlow : -2 ^ 63 ≤ n) (hhigh : n ≤ 2 ^ 63 - 1) : clampInt64 n = n := by
  unfold clampInt64
  omega

/-- A natural number of 64 bits goes through a float and back as the nearest number, cut off at the largest
one. -/
theorem toInt64Clamped_truncate {n : Nat} (hlt : n < 2 ^ 64) (negative : Bool) :
    toInt64Clamped (truncate (if negative then -Float.ofNat n else Float.ofNat n)) =
      throughFloat (if negative then -(n : Int) else n) := by
  have hsigned : throughFloat (if negative then -(n : Int) else n) =
      clampInt64 (if negative then -(nearest n : Int) else nearest n) := by
    unfold throughFloat
    cases negative with
    | false => simp [Int.not_ofNat_neg]
    | true =>
      obtain rfl | hpos := Nat.eq_zero_or_pos n
      · rfl
      · simp [hpos]
  rw [hsigned]
  by_cases hsmall : n < 2 ^ 53
  · rw [truncate_small hsmall, nearest_of_lt hsmall, clampInt64_of_bounds]
    · split <;> omega
    · split <;> omega
  · exact truncate_large (Nat.not_lt.mp hsmall) hlt negative

/-- The nearest number is not beyond the next power of two. -/
theorem nearest_le (n : Nat) : nearest n ≤ 2 ^ (n.log2 + 1) := by
  by_cases hsmall : n < 2 ^ 53
  · rw [nearest_of_lt hsmall]
    exact Nat.le_of_lt Nat.lt_log2_self
  have hlog : 53 ≤ n.log2 := (Nat.le_log2 (by omega)).mpr (Nat.not_lt.mp hsmall)
  have hpower : 2 ^ (n.log2 + 1) = 2 ^ 53 * 2 ^ (n.log2 - 52) := by
    rw [← Nat.pow_add]
    congr 1
    omega
  have hquotient : n / 2 ^ (n.log2 - 52) < 2 ^ 53 := by
    rw [Nat.div_lt_iff_lt_mul (Nat.two_pow_pos _), ← hpower]
    exact Nat.lt_log2_self
  have hround : roundDiv .even n (2 ^ (n.log2 - 52)) ≤ n / 2 ^ (n.log2 - 52) + 1 := by
    unfold roundDiv
    grind
  rw [hpower]
  exact Nat.mul_le_mul_right _ (Nat.le_trans hround hquotient)

/-- Below the bound of signed words an integer is found again exactly if it is not rounded, or if it is the greatest
one, which is rounded up to the bound and clamped back. -/
theorem throughFloat_eq_self_iff {n : Int} (hlow : -2 ^ 63 ≤ n) (hhigh : n ≤ 2 ^ 63 - 1) :
    throughFloat n = n ↔ 2 ^ (n.natAbs.log2 - 52) ∣ n.natAbs ∨ n = 2 ^ 63 - 1 := by
  rw [← nearest_eq_self_iff]
  have hgreatest : nearest (2 ^ 63) = 2 ^ 63 ∧ nearest (2 ^ 63 - 1) = 2 ^ 63 := by decide +kernel
  have hle : nearest n.natAbs ≤ 2 ^ 63 := by
    by_cases hbound : n.natAbs = 2 ^ 63
    · rw [hbound, hgreatest.1]
    · by_cases hzero : n.natAbs = 0
      · rw [hzero]
        decide
      · have hlog : n.natAbs.log2 < 63 := (Nat.log2_lt hzero).mpr (by omega)
        exact Nat.le_trans (nearest_le _) (Nat.pow_le_pow_right (by decide) hlog)
  unfold throughFloat clampInt64
  by_cases hmax : n = 2 ^ 63 - 1
  · subst hmax
    decide +kernel
  · split <;> omega

end Snippet.Number
