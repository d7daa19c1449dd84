import Snippet.Proofs.ClockTime
import Snippet.Number.Binary

/-!
Whole numbers as floating numbers. An integer below `2 ^ 53` in magnitude needs no rounding, so it is found
again in the number that is made from it.
-/

namespace Snippet.Clock

open Float.Model UnpackedFloat

/-- Nothing is lost when a multiple of a power of two is divided by the power. -/
theorem shift_multiple (n k : Nat) :
    ExtendedMantissa.mk (n * 2 ^ k) false false >>> k = ExtendedMantissa.mk n false false := by
  induction k generalizing n with
  | zero => rw [Nat.pow_zero, Nat.mul_one]; rfl
  | succ k ih =>
    have hstep : ExtendedMantissa.mk (n * 2 ^ (k + 1)) false false >>> (k + 1) =
        (ExtendedMantissa.mk (n * 2 * 2 ^ k) false false >>> k).shiftRightOne := by
      rw [Nat.pow_succ, Nat.mul_comm (2 ^ k), ← Nat.mul_assoc]
      rfl
    rw [hstep, ih]
    simp [ExtendedMantissa.shiftRightOne]

/-- A number whose bits all fit into a mantissa is not changed by rounding. -/
theorem round_exact {n p power mantissa : Nat} (hlow : 2 ^ 52 ≤ mantissa) (hhigh : mantissa < 2 ^ 53)
    (h : n * 2 ^ p = mantissa * 2 ^ power) :
    ∃ power' mantissa', ∃ hc : IsCanonical power' mantissa',
      UnpackedFloat.round Format.binary64 .positive n ((p : Int) - 1074) =
        .finite .positive mantissa' ((power' : Int) - 1074) hc.pos ∧
      power' * 2 ^ 52 + mantissa' = power * 2 ^ 52 + mantissa := by
  have hmantissa : 0 < mantissa := Nat.lt_of_lt_of_le (Nat.two_pow_pos 52) hlow
  have hn : 0 < n := by
    refine Nat.pos_of_ne_zero ?_
    rintro rfl
    rw [Nat.zero_mul] at h
    exact absurd h.symm (Nat.ne_of_gt (Nat.mul_pos hmantissa (Nat.two_pow_pos power)))
  -- Number and mantissa have their first bit at the same place, and the mantissa is full.
  have htarget : targetPower n p = power := by
    have hlog : mantissa.log2 = 52 := by
      have hge := Nat.le_log2 (Nat.ne_of_gt hmantissa) (k := 52)
      have hlt := (Nat.log2_lt (Nat.ne_of_gt hmantissa)).mpr hhigh
      omega
    have hlogs := congrArg Nat.log2 h
    rw [log2_mul_two_pow hn, log2_mul_two_pow hmantissa, hlog] at hlogs
    unfold targetPower
    omega
  have hscaled : n * 2 ^ (p - power) = mantissa * 2 ^ (power - p) := by
    obtain hle | hle := Nat.le_total power p
    · have hp : 2 ^ p = 2 ^ (p - power) * 2 ^ power := by rw [← Nat.pow_add, Nat.sub_add_cancel hle]
      rw [hp, ← Nat.mul_assoc] at h
      rw [Nat.sub_eq_zero_of_le hle, Nat.pow_zero, Nat.mul_one]
      exact Nat.eq_of_mul_eq_mul_right (Nat.two_pow_pos power) h
    · have hp : 2 ^ power = 2 ^ (power - p) * 2 ^ p := by rw [← Nat.pow_add, Nat.sub_add_cancel hle]
      rw [hp, ← Nat.mul_assoc] at h
      rw [Nat.sub_eq_zero_of_le hle, Nat.pow_zero, Nat.mul_one]
      exact Nat.eq_of_mul_eq_mul_right (Nat.two_pow_pos p) h
  -- So nothing but zeros is shifted out.
  have hrounded : (shifted n p).roundedMantissa = mantissa := by
    unfold shifted
    rw [htarget, hscaled, shift_multiple]
    rfl
  obtain ⟨power', mantissa', hc, hround, hcode⟩ := round_eq hn p
  rw [htarget, hrounded] at hcode
  exact ⟨power', mantissa', hc, hround, hcode⟩

/-- What the bits of a number with a sign and a full mantissa stand for. -/
theorem unpack_eq_of_signed_bits {x : Float} (s : Sign) {power mantissa : Nat} (hlow : 2 ^ 52 ≤ mantissa)
    (hhigh : mantissa < 2 ^ 53)
    (hbits : bitsOf x = s.toBitVec.toNat * 2 ^ 63 + (power * 2 ^ 52 + mantissa))
    (hfinite : power * 2 ^ 52 + mantissa < infinityBits) :
    x.toModel.unpack = .finite s mantissa ((power : Int) - 1074)
      (Nat.lt_of_lt_of_le (Nat.two_pow_pos 52) hlow) := by
  have hinfinity : power * 2 ^ 52 + mantissa < 2047 * 2 ^ 52 := hfinite
  obtain ⟨s', rest, hbits', hrest, hcases⟩ := unpack_cases x
  obtain ⟨hsign, hsame⟩ : s'.toBitVec.toNat = s.toBitVec.toNat ∧ rest = power * 2 ^ 52 + mantissa := by
    omega
  obtain rfl : s' = s := by cases s' <;> cases s <;> first | rfl | exact absurd hsign (by decide)
  subst hsame
  obtain ⟨hnone, -⟩ | ⟨hinfinite, -⟩ | ⟨hzero, -⟩ | ⟨power', mantissa', hc, hcode, -, hunpack⟩ := hcases
  · omega
  · omega
  · omega
  · have hlt := hc.lt
    have hnormal := hc.normal
    rw [hunpack]
    exact finite_congr _ _ (by omega) (by omega)

/-- What the bits of a number with a full mantissa stand for. -/
theorem unpack_eq_of_bits {x : Float} {power mantissa : Nat} (hlow : 2 ^ 52 ≤ mantissa)
    (hhigh : mantissa < 2 ^ 53) (hbits : bitsOf x = power * 2 ^ 52 + mantissa)
    (hfinite : bitsOf x < infinityBits) :
    x.toModel.unpack = .finite .positive mantissa ((power : Int) - 1074)
      (Nat.lt_of_lt_of_le (Nat.two_pow_pos 52) hlow) := by
  refine unpack_eq_of_signed_bits .positive hlow hhigh ?_ (hbits ▸ hfinite)
  rw [hbits]
  exact (Nat.zero_add _).symm

/-- A product of mantissas that is long enough is only rounded. -/
theorem mul_finite {m m' p p' : Nat} (hm : 0 < m) (hm' : 0 < m') (hp : 1074 ≤ p + p')
    (htarget : p + p' - 1074 ≤ targetPower (m * m') (p + p' - 1074)) :
    UnpackedFloat.mul Format.binary64 (.finite .positive m ((p : Int) - 1074) hm)
        (.finite .positive m' ((p' : Int) - 1074) hm') =
      UnpackedFloat.round Format.binary64 .positive (m * m') (((p + p' - 1074 : Nat) : Int) - 1074) := by
  rw [round_scaled, Nat.sub_eq_zero_of_le htarget, Nat.pow_zero, Nat.mul_one, Nat.min_eq_left htarget]
  have hexponent : (p : Int) - 1074 + ((p' : Int) - 1074) = ((p + p' - 1074 : Nat) : Int) - 1074 := by
    omega
  unfold UnpackedFloat.mul
  dsimp only
  rw [hexponent]
  rfl

/-- A full mantissa divided by a power of two is only rounded. -/
theorem div_two_pow {m p p' : Nat} (hlow : 2 ^ 52 ≤ m) (hhigh : m < 2 ^ 53) (hp : p' ≤ p + 1021)
    (hm : 0 < m) (hone : 0 < 2 ^ 52) :
    UnpackedFloat.div Format.binary64 (.finite .positive m ((p : Int) - 1074) hm)
        (.finite .positive (2 ^ 52) ((p' : Int) - 1074) hone) =
      UnpackedFloat.round Format.binary64 .positive (2 * m) (((p + 1021 - p' : Nat) : Int) - 1074) := by
  have hlog : m.log2 = 52 := by
    have hge := Nat.le_log2 (Nat.ne_of_gt hm) (k := 52)
    have hlt := (Nat.log2_lt (Nat.ne_of_gt hm)).mpr hhigh
    omega
  have htarget : targetPower (2 * m) (p + 1021 - p') = p + 1021 - p' + 1 := by
    unfold targetPower
    rw [Nat.log2_two_mul (Nat.ne_of_gt hm), hlog]
    omega
  -- The quotient is taken with one bit more than a mantissa has, and nothing is left over.
  have hcore : divCore Format.binary64 m ((p : Int) - 1074) (2 ^ 52) ((p' : Int) - 1074) =
      (2 * m, ((p + 1021 - p' : Nat) : Int) - 1074, .exact) := by
    have hexponent : min ((p : Int) - 1074 - ((p' : Int) - 1074)) (Format.binary64.targetExponent
        (totalExponent m ((p : Int) - 1074) - totalExponent (2 ^ 52) ((p' : Int) - 1074))) =
        ((p + 1021 - p' : Nat) : Int) - 1074 := by
      unfold Format.targetExponent totalExponent
      rw [hlog, Nat.log2_two_pow]
      change min _ (max ((52 : Nat) + (1 : Int) + ((p : Int) - 1074) -
        ((52 : Nat) + (1 : Int) + ((p' : Int) - 1074)) - 53) (-1074)) = _
      omega
    have hshift : ((p : Int) - 1074 - ((p' : Int) - 1074) - (((p + 1021 - p' : Nat) : Int) - 1074)).toNat =
        53 := by
      omega
    have hmultiple : m * 2 ^ 53 = 2 * m * 2 ^ 52 := by omega
    unfold divCore
    dsimp only
    rw [hexponent, hshift, Nat.shiftLeft_eq, hmultiple, Nat.mul_div_cancel _ hone, Nat.mul_mod_left]
    rfl
  rw [round_scaled, htarget, Nat.sub_eq_zero_of_le (Nat.le_succ _), Nat.pow_zero, Nat.mul_one,
    Nat.min_eq_left (Nat.le_succ _)]
  unfold UnpackedFloat.div
  dsimp only
  rw [hcore]
  rfl

def naturalBits (n : Nat) : Nat := (1022 + n.log2) * 2 ^ 52 + n * 2 ^ (52 - n.log2)

section

variable {n : Nat} (hpos : 0 < n) (hlt : n < 2 ^ 53)

include hpos hlt

theorem log2_le_of_lt : n.log2 ≤ 52 := Nat.le_of_lt_succ ((Nat.log2_lt (Nat.ne_of_gt hpos)).mpr hlt)

/-- Shifted to the left, a number below `2 ^ 53` fills the mantissa. -/
theorem mantissa_bounds : 2 ^ 52 ≤ n * 2 ^ (52 - n.log2) ∧ n * 2 ^ (52 - n.log2) < 2 ^ 53 := by
  have hlog := log2_le_of_lt hpos hlt
  have hlow := Nat.log2_self_le (Nat.ne_of_gt hpos)
  have hhigh := Nat.lt_log2_self (n := n)
  have h52 : 2 ^ 52 = 2 ^ n.log2 * 2 ^ (52 - n.log2) := by rw [← Nat.pow_add]; congr 1; omega
  have h53 : 2 ^ 53 = 2 ^ (n.log2 + 1) * 2 ^ (52 - n.log2) := by rw [← Nat.pow_add]; congr 1; omega
  constructor
  · rw [h52]
    exact Nat.mul_le_mul_right _ hlow
  · rw [h53]
    exact Nat.mul_lt_mul_of_pos_right hhigh (Nat.two_pow_pos _)

theorem naturalBits_lt : naturalBits n < infinityBits := by
  have hlog := log2_le_of_lt hpos hlt
  have hbounds := mantissa_bounds hpos hlt
  unfold naturalBits infinityBits
  omega

/-- The bits of a word that is made a floating number. -/
theorem bits_ofUInt64 : (Float.Model.ofUInt64 (UInt64.ofNat n)).toBits.toNat = naturalBits n := by
  have hlog := log2_le_of_lt hpos hlt
  obtain ⟨hlow, hhigh⟩ := mantissa_bounds hpos hlt
  have hscale : n * 2 ^ 1074 = n * 2 ^ (52 - n.log2) * 2 ^ (1022 + n.log2) := by
    rw [Nat.mul_assoc, ← Nat.pow_add]
    congr 2
    omega
  obtain ⟨power, mantissa, hc, hround, hcode⟩ := round_exact hlow hhigh hscale
  have hword : (UInt64.ofNat n).toNat = n := by
    rw [UInt64.toNat_ofNat']
    omega
  have hpositive : compare (n : Int) 0 = .gt := by
    rw [Int.compare_eq_gt]
    omega
  have hfloat : Float.Model.ofUInt64 (UInt64.ofNat n) =
      Float.Model.pack (UnpackedFloat.round Format.binary64 .positive n (((1074 : Nat) : Int) - 1074)) := by
    unfold Float.Model.ofUInt64 UnpackedFloat.ofUInt64 UnpackedFloat.ofNat UnpackedFloat.ofInt
      UnpackedFloat.normalize
    rw [hword, hpositive]
    rfl
  have hinfinity := naturalBits_lt hpos hlt
  unfold naturalBits at hinfinity ⊢
  rw [hfloat, hround, bits_pack_finite hc, hcode]
  omega

/-- A natural number is made from a word, which is multiplied by one. -/
theorem bitsOf_ofNat : bitsOf (Float.ofNat n) = naturalBits n := by
  have hlog := log2_le_of_lt hpos hlt
  obtain ⟨hlow, hhigh⟩ := mantissa_bounds hpos hlt
  have hfinite := naturalBits_lt hpos hlt
  have hproduct : (Float.ofNat n).toModel =
      Float.Model.ofUInt64 (UInt64.ofNat n) * (Float.ofBits 4607182418800017408).toModel := by
    change (Float.ofScientific n false 0).toModel = _
    unfold Float.ofScientific
    rw [dif_pos ⟨hlt, by decide⟩]
    rfl
  have hword := unpack_eq_of_bits (x := ⟨Float.Model.ofUInt64 (UInt64.ofNat n)⟩) hlow hhigh
    (bits_ofUInt64 hpos hlt) (Nat.lt_of_le_of_lt (Nat.le_of_eq (bits_ofUInt64 hpos hlt)) hfinite)
  -- One has a full mantissa too; the product is as long as both and ends in zeros.
  have hone : (Float.ofBits 4607182418800017408).toModel.unpack =
      .finite .positive (2 ^ 52) (((1022 : Nat) : Int) - 1074) (Nat.two_pow_pos 52) :=
    unpack_eq_of_bits (by decide) (by decide) (by rfl) (by decide)
  have hpower : 1022 + n.log2 = 52 + (1022 + n.log2 + 1022 - 1074) := by omega
  have hscale : n * 2 ^ (52 - n.log2) * 2 ^ 52 * 2 ^ (1022 + n.log2 + 1022 - 1074) =
      n * 2 ^ (52 - n.log2) * 2 ^ (1022 + n.log2) := by
    rw [Nat.mul_assoc _ (2 ^ 52), ← Nat.pow_add, ← hpower]
  have htarget : 1022 + n.log2 + 1022 - 1074 ≤
      targetPower (n * 2 ^ (52 - n.log2) * 2 ^ 52) (1022 + n.log2 + 1022 - 1074) := by
    unfold targetPower
    have hpos' : 0 < n * 2 ^ (52 - n.log2) := Nat.lt_of_lt_of_le (Nat.two_pow_pos 52) hlow
    rw [log2_mul_two_pow hpos']
    omega
  obtain ⟨power, mantissa, hc, hround, hcode⟩ := round_exact hlow hhigh hscale
  have hmul := (congrArg₂ (UnpackedFloat.mul Format.binary64) hword hone).trans
    ((mul_finite _ _ (by omega) htarget).trans hround)
  have hmodel : (Float.ofNat n).toModel = Float.Model.pack
      (.finite .positive mantissa ((power : Int) - 1074) hc.pos) :=
    hproduct.trans (congrArg Float.Model.pack hmul)
  unfold bitsOf
  unfold naturalBits at hfinite ⊢
  rw [hmodel, bits_pack_finite hc, hcode]
  exact Nat.min_eq_left (Nat.le_of_lt hfinite)

/-- The bits of a word divided by `2 ^ 53`: those of the word itself with another power. -/
theorem bitsOf_fraction :
    bitsOf ((UInt64.ofNat n).toFloat / 9007199254740992.0) =
      (969 + n.log2) * 2 ^ 52 + n * 2 ^ (52 - n.log2) := by
  have hlog := log2_le_of_lt hpos hlt
  obtain ⟨hlow, hhigh⟩ := mantissa_bounds hpos hlt
  have hbits := bits_ofUInt64 hpos hlt
  have hword := unpack_eq_of_bits (x := (UInt64.ofNat n).toFloat) hlow hhigh hbits
    (Nat.lt_of_le_of_lt (Nat.le_of_eq hbits) (naturalBits_lt hpos hlt))
  have hdivisor : (9007199254740992.0 : Float).toModel.unpack =
      .finite .positive (2 ^ 52) (((1075 : Nat) : Int) - 1074) (Nat.two_pow_pos 52) :=
    unpack_eq_of_bits (Nat.le_refl _) (by decide) (by decide +kernel) (by decide +kernel)
  have hscale : 2 * (n * 2 ^ (52 - n.log2)) * 2 ^ (1022 + n.log2 + 1021 - 1075) =
      n * 2 ^ (52 - n.log2) * 2 ^ (969 + n.log2) := by
    have hpower : 969 + n.log2 = 1022 + n.log2 + 1021 - 1075 + 1 := by omega
    rw [hpower, Nat.pow_succ, Nat.mul_comm 2, Nat.mul_assoc, Nat.mul_comm 2]
  obtain ⟨power, mantissa, hc, hround, hcode⟩ := round_exact hlow hhigh hscale
  have hdiv := (congrArg₂ (UnpackedFloat.div Format.binary64) hword hdivisor).trans
    ((div_two_pow hlow hhigh (by omega) _ _).trans hround)
  have hmodel : ((UInt64.ofNat n).toFloat / 9007199254740992.0).toModel =
      Float.Model.pack (.finite .positive mantissa ((power : Int) - 1074) hc.pos) :=
    congrArg Float.Model.pack hdiv
  unfold bitsOf
  rw [hmodel, bits_pack_finite hc, hcode, Nat.min_eq_left]
  unfold infinityBits
  omega

end

theorem toNat_append_append (s : BitVec 1) (e : BitVec 11) (m : BitVec 52) :
    (s ++ e ++ m).toNat = s.toNat * 2 ^ 63 + e.toNat * 2 ^ 52 + m.toNat := by
  rw [BitVec.toNat_append, BitVec.toNat_append, Nat.shiftLeft_eq, Nat.shiftLeft_eq,
    Nat.mul_comm s.toNat, ← Nat.two_pow_add_eq_or_of_lt e.isLt, Nat.mul_comm _ (2 ^ 52),
    ← Nat.two_pow_add_eq_or_of_lt m.isLt]
  omega

/-- The bits of a number with a full mantissa and a sign. -/
theorem bits_pack_normal (s : Sign) {power mantissa : Nat} (hlow : 2 ^ 52 ≤ mantissa)
    (hhigh : mantissa < 2 ^ 53) (hpower : power < 2046) (hpos : 0 < mantissa) :
    (Float.Model.pack (.finite s mantissa ((power : Int) - 1074) hpos)).toBits.toNat =
      s.toBitVec.toNat * 2 ^ 63 + power * 2 ^ 52 + mantissa := by
  have hexponent : ((power : Int) - 1074 + (Format.binary64.exponentBias : Int) + (52 : Nat)).toNat =
      power + 1 := by
    change ((power : Int) - 1074 + 1023 + 52).toNat = power + 1
    omega
  have hlog : mantissa.log2 + 1 = Format.binary64.mantissaBits := by
    have hge := Nat.le_log2 (Nat.ne_of_gt hpos) (k := 52)
    have hlt := (Nat.log2_lt (Nat.ne_of_gt hpos)).mpr hhigh
    change mantissa.log2 + 1 = 53
    omega
  change (UnpackedFloat.pack Format.binary64 _).toNat = _
  unfold UnpackedFloat.pack
  dsimp only
  rw [hexponent, if_neg (show ¬ 2 ^ Format.binary64.exponentBits ≤ power + 1 + 1 by
    change ¬ 2 ^ 11 ≤ power + 1 + 1
    omega), if_pos hlog]
  change (s.toBitVec ++ BitVec.ofNat 11 (power + 1) ++ BitVec.ofNat 52 mantissa).toNat = _
  rw [toNat_append_append, BitVec.toNat_ofNat, BitVec.toNat_ofNat]
  omega

/-- The bits of a number and those of the opposite one differ by the sign. -/
theorem bitsOf_neg_ofNat {n : Nat} (hpos : 0 < n) (hlt : n < 2 ^ 53) :
    bitsOf (Float.ofNat n).neg = 2 ^ 63 + naturalBits n := by
  have hlog := log2_le_of_lt hpos hlt
  obtain ⟨hlow, hhigh⟩ := mantissa_bounds hpos hlt
  have hbits := bitsOf_ofNat hpos hlt
  have hfinite : bitsOf (Float.ofNat n) < infinityBits := by
    rw [hbits]
    exact naturalBits_lt hpos hlt
  have hunpack := unpack_eq_of_bits hlow hhigh hbits hfinite
  have hneg : (Float.ofNat n).neg.toModel = Float.Model.pack (.finite .negative (n * 2 ^ (52 - n.log2))
      (((1022 + n.log2 : Nat) : Int) - 1074) (Nat.lt_of_lt_of_le (Nat.two_pow_pos 52) hlow)) :=
    congrArg (fun u => Float.Model.pack (UnpackedFloat.neg u)) hunpack
  unfold bitsOf naturalBits
  rw [hneg, bits_pack_normal .negative hlow hhigh (by omega)]
  change 1 * 2 ^ 63 + _ + _ = _
  omega

theorem ofNat_zero : Float.ofNat 0 = 0.0 := rfl

/-- A natural number below `2 ^ 53` is not negative, and has the bits of zero only if it is zero. -/
theorem isTime_ofNat {n : Nat} (hlt : n < 2 ^ 53) :
    IsTime (Float.ofNat n) ∧ (bitsOf (Float.ofNat n) = 0 ↔ n = 0) := by
  obtain rfl | hpos := Nat.eq_zero_or_pos n
  · rw [ofNat_zero]
    exact ⟨isTime_zero, iff_of_true bitsOf_zero rfl⟩
  · rw [IsTime, bitsOf_ofNat hpos hlt]
    refine ⟨Nat.le_of_lt (naturalBits_lt hpos hlt), ?_⟩
    unfold naturalBits
    omega

theorem zero_le_ofNat {n : Nat} (hlt : n < 2 ^ 53) : 0.0 ≤ Float.ofNat n := by
  rw [isTime_zero.le_iff (isTime_ofNat hlt).1, bitsOf_zero]
  exact Nat.zero_le _

theorem ofNat_eq_zero {n : Nat} (hlt : n < 2 ^ 53) : Float.ofNat n = 0.0 ↔ n = 0 := by
  rw [← (isTime_ofNat hlt).2]
  constructor
  · intro h
    rw [h, bitsOf_zero]
  · intro h
    exact bitsOf_injective (h.trans bitsOf_zero.symm)

end Snippet.Clock

namespace Snippet.Number

open Snippet.Clock

/-- The fields of a floating number, as its exact value reads them. -/
theorem Binary.ofFloat?_eq (x : Float) :
    Binary.ofFloat? x =
      if bitsOf x / 2 ^ 52 % 2 ^ 11 = 2047 then none
      else if bitsOf x / 2 ^ 52 % 2 ^ 11 = 0 then
        some ⟨bitsOf x / 2 ^ 63 == 1, bitsOf x % 2 ^ 52, -1074, false⟩
      else some ⟨bitsOf x / 2 ^ 63 == 1, 2 ^ 52 + bitsOf x % 2 ^ 52,
        ((bitsOf x / 2 ^ 52 % 2 ^ 11 : Nat) : Int) - 1075,
        bitsOf x % 2 ^ 52 == 0 && bitsOf x / 2 ^ 52 % 2 ^ 11 != 1⟩ := by
  change (if (bitsOf x / 2 ^ 52 % 2 ^ 11 == 2047) = true then _
    else if (bitsOf x / 2 ^ 52 % 2 ^ 11 == 0) = true then _ else _) = _
  simp only [beq_iff_eq]
  rfl

/-- The exact value of a finite number that is not zero. -/
theorem Binary.ofFloat?_of_bits {x : Float} (negative : Bool) {power mantissa : Nat}
    (hc : IsCanonical power mantissa) (hfinite : power * 2 ^ 52 + mantissa < infinityBits)
    (hbits : bitsOf x = negative.toNat * 2 ^ 63 + (power * 2 ^ 52 + mantissa)) :
    ∃ edge, Binary.ofFloat? x = some ⟨negative, mantissa, (power : Int) - 1074, edge⟩ := by
  obtain ⟨hpos, hlt, hnormal⟩ := hc
  have hinfinity : power * 2 ^ 52 + mantissa < 2047 * 2 ^ 52 := hfinite
  obtain ⟨hsign, hrest⟩ : (bitsOf x / 2 ^ 63 == 1) = negative ∧
      bitsOf x % 2 ^ 63 = power * 2 ^ 52 + mantissa := by
    cases negative with
    | true =>
      change _ = 1 * 2 ^ 63 + _ at hbits
      exact ⟨beq_iff_eq.mpr (by omega), by omega⟩
    | false =>
      change _ = 0 * 2 ^ 63 + _ at hbits
      exact ⟨beq_eq_false_iff_ne.mpr (by omega), by omega⟩
  rw [Binary.ofFloat?_eq, hsign, if_neg (by omega)]
  by_cases hfield : bitsOf x / 2 ^ 52 % 2 ^ 11 = 0
  · -- A mantissa without its first bit goes with the least power.
    obtain rfl : power = 0 := by omega
    rw [if_pos hfield, show bitsOf x % 2 ^ 52 = mantissa by omega]
    exact ⟨_, rfl⟩
  · rw [if_neg hfield, show 2 ^ 52 + bitsOf x % 2 ^ 52 = mantissa by omega,
      show ((bitsOf x / 2 ^ 52 % 2 ^ 11 : Nat) : Int) - 1075 = (power : Int) - 1074 by omega]
    exact ⟨_, rfl⟩

/-- A multiple of a power of two, divided by the power, is whole. -/
theorem Binary.whole_of_multiple (negative edge : Bool) (n k : Nat) :
    (Binary.mk negative (n * 2 ^ k) (-(k : Int)) edge).isWhole = true ∧
      (Binary.mk negative (n * 2 ^ k) (-(k : Int)) edge).floorMagnitude = n := by
  unfold Binary.isWhole Binary.floorMagnitude
  cases k with
  | zero => exact ⟨rfl, by simp [twoTo]⟩
  | succ k =>
    have hneg : ¬ (0 : Int) ≤ -((k + 1 : Nat) : Int) := by omega
    have hexponent : (-(-((k + 1 : Nat) : Int))).toNat = k + 1 := by omega
    dsimp only
    rw [if_neg hneg, decide_eq_false hneg, hexponent]
    exact ⟨beq_iff_eq.mpr (Nat.mul_mod_left _ _), Nat.mul_div_cancel _ (Nat.two_pow_pos _)⟩

/-- A floating number whose binary form is `n * 2 ^ k` with `k` places behind the point is exactly `n`. -/
theorem exact_of_binary {x : Float} {negative edge : Bool} {n k : Nat} (hn : n < 2 ^ 53)
    (hx : Binary.ofFloat? x = some ⟨negative, n * 2 ^ k, -(k : Int), edge⟩) :
    isExact x = true ∧ toInt64Clamped x = if negative then -(n : Int) else n := by
  obtain ⟨hwhole, hfloor⟩ := Binary.whole_of_multiple negative edge n k
  have h53 : n < twoTo 53 := hn
  have h63 : (twoTo 63 : Int) = 9223372036854775808 := rfl
  constructor
  · unfold isExact
    rw [hx]
    simp only [Option.any_some, hwhole, hfloor, h53, decide_true, Bool.and_true]
  · unfold toInt64Clamped
    rw [hx]
    unfold Binary.truncate
    simp only [hfloor, h63]
    cases negative with
    | true =>
      change max _ (min (-(n : Int)) _) = -(n : Int)
      omega
    | false =>
      change max _ (min (n : Int) _) = (n : Int)
      omega

/-- The exact value of a natural number of at most 53 bits, or of its opposite. -/
theorem Binary.ofFloat?_natural {n : Nat} (hpos : 0 < n) (hlt : n < 2 ^ 53) (negative : Bool) :
    ∃ edge, Binary.ofFloat? (if negative then (Float.ofNat n).neg else Float.ofNat n) =
      some ⟨negative, n * 2 ^ (52 - n.log2), -((52 - n.log2 : Nat) : Int), edge⟩ := by
  have hlog := log2_le_of_lt hpos hlt
  obtain ⟨hlow, hhigh⟩ := mantissa_bounds hpos hlt
  have hexponent : -((52 - n.log2 : Nat) : Int) = ((1022 + n.log2 : Nat) : Int) - 1074 := by omega
  rw [hexponent]
  have hfinite := naturalBits_lt hpos hlt
  rw [naturalBits] at hfinite
  refine Binary.ofFloat?_of_bits negative ⟨Nat.lt_of_lt_of_le (by decide) hlow, hhigh, Or.inr hlow⟩ hfinite ?_
  cases negative with
  | true =>
    have hbits := bitsOf_neg_ofNat hpos hlt
    refine hbits.trans ?_
    rw [naturalBits, Bool.toNat_true]
    omega
  | false =>
    have hbits := bitsOf_ofNat hpos hlt
    refine hbits.trans ?_
    rw [naturalBits, Bool.toNat_false]
    omega

/-- An integer of at most 53 bits is exact as a number, and is found again in it. -/
theorem exact_ofInt {n : Int} (h : n.natAbs < 2 ^ 53) :
    isExact (Float.ofInt n) = true ∧ toInt64Clamped (Float.ofInt n) = n := by
  cases n with
  | ofNat n =>
    obtain rfl | hpos := Nat.eq_zero_or_pos n
    · -- Zero has no first bit, so it is the one number that has no full mantissa.
      have hzero : Binary.ofFloat? (Float.ofNat 0) = some ⟨false, 0 * 2 ^ 1074, -(1074 : Nat), false⟩ := by
        decide +kernel
      exact exact_of_binary (by decide) hzero
    · obtain ⟨edge, hx⟩ := Binary.ofFloat?_natural hpos h false
      exact exact_of_binary h hx
  | negSucc n =>
    obtain ⟨edge, hx⟩ := Binary.ofFloat?_natural (Nat.succ_pos n) h true
    exact exact_of_binary h hx

end Snippet.Number
