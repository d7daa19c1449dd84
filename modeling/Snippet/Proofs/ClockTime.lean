import Mathlib.Algebra.Ring.Nat
import Snippet.Script.Timers

/-!
The times of a clock: floating numbers that are not negative. They are in the order of their bits, so this
order is total, and a sum of two of them is not below either one, though it is rounded. The reason for the
latter is that a sum lies above a number that needs no rounding, and rounding does not go below such a number.
-/

namespace Snippet.Clock

open Float.Model UnpackedFloat

def bitsOf (x : Float) : Nat := x.toModel.toBits.toNat

def infinityBits : Nat := 2047 * 2 ^ 52

def IsTime (x : Float) : Prop := bitsOf x ≤ infinityBits

theorem bitsOf_injective {x y : Float} (h : bitsOf x = bitsOf y) : x = y := by
  obtain ⟨⟨a, ha⟩⟩ := x
  obtain ⟨⟨b, hb⟩⟩ := y
  have hab : a = b := UInt64.toNat_inj.mp h
  subst hab
  rfl

section Fields
variable (b : BitVec 64)

theorem toNat_unpackMantissa : (@unpackMantissa Format.binary64 b).toNat = b.toNat % 2 ^ 52 := by
  unfold unpackMantissa
  rw [BitVec.toNat_cast, BitVec.extractLsb_toNat]
  rfl

theorem toNat_unpackExponent :
    (@unpackExponent Format.binary64 b).toNat = b.toNat / 2 ^ 52 % 2 ^ 11 := by
  unfold unpackExponent
  rw [BitVec.toNat_cast, BitVec.extractLsb_toNat, Nat.shiftRight_eq_div_pow]
  rfl

theorem toNat_unpackSign :
    (@unpackSign Format.binary64 b).toNat = b.toNat / 2 ^ 63 % 2 := by
  unfold unpackSign
  rw [BitVec.toNat_cast, BitVec.extractLsb_toNat, Nat.shiftRight_eq_div_pow]
  rfl

end Fields

/-- A mantissa that has all its bits, unless the power that goes with it is the least one. Powers are counted
from the least one, which is that of the exponent -1074. -/
structure IsCanonical (power mantissa : Nat) : Prop where
  pos : 0 < mantissa
  lt : mantissa < 2 ^ 53
  normal : power = 0 ∨ 2 ^ 52 ≤ mantissa

theorem finite_congr {s : Sign} {m m' : Nat} {e e' : Int} (hm : 0 < m) (hm' : 0 < m') (h : m = m')
    (he : e = e') : UnpackedFloat.finite s m e hm = .finite s m' e' hm' := by
  subst h
  subst he
  rfl

/-- The mantissa of a normal number with its first bit. -/
theorem toNat_one_append (v : BitVec 52) : (1#1 ++ v).toNat = 2 ^ 52 + v.toNat := by
  have hor : 2 ^ 52 * 1 + v.toNat = 2 ^ 52 * 1 ||| v.toNat := Nat.two_pow_add_eq_or_of_lt v.isLt 1
  rw [BitVec.toNat_append, Nat.shiftLeft_eq]
  exact hor.symm

/-- A number is not a number at all, infinite, zero, or a mantissa with a power; the bits below that of the sign
tell which, and those of a mantissa and its power follow each other. -/
theorem unpack_cases (x : Float) :
    ∃ s : Sign, ∃ rest : Nat, bitsOf x = s.toBitVec.toNat * 2 ^ 63 + rest ∧ rest < 2 ^ 63 ∧
      ((infinityBits < rest ∧ x.toModel.unpack = .notANumber) ∨
        (rest = infinityBits ∧ x.toModel.unpack = .infinity s) ∨
        (rest = 0 ∧ x.toModel.unpack = .zero s) ∨
        ∃ power mantissa, ∃ hc : IsCanonical power mantissa,
          rest = power * 2 ^ 52 + mantissa ∧ rest < infinityBits ∧
          x.toModel.unpack = .finite s mantissa ((power : Int) - 1074) hc.pos) := by
  have hbias : (Format.binary64.exponentBias : Int) + (52 : Nat) = 1075 := rfl
  have hsize : bitsOf x < 2 ^ 64 := x.toModel.toBits.toNat_lt
  obtain ⟨S, hS⟩ : ∃ S : BitVec 1, @unpackSign Format.binary64 x.toModel.toBits.toBitVec = S := ⟨_, rfl⟩
  obtain ⟨E, hE⟩ : ∃ E : BitVec 11, @unpackExponent Format.binary64 x.toModel.toBits.toBitVec = E :=
    ⟨_, rfl⟩
  obtain ⟨M, hM⟩ : ∃ M : BitVec 52, @unpackMantissa Format.binary64 x.toModel.toBits.toBitVec = M :=
    ⟨_, rfl⟩
  have hsign : S.toNat = bitsOf x / 2 ^ 63 % 2 := hS ▸ toNat_unpackSign _
  have hexponent : E.toNat = bitsOf x / 2 ^ 52 % 2 ^ 11 := hE ▸ toNat_unpackExponent _
  have hmantissa : M.toNat = bitsOf x % 2 ^ 52 := hM ▸ toNat_unpackMantissa _
  have hbit : (Sign.ofBitVec S).toBitVec = S := by
    obtain rfl | rfl : S = 0#1 ∨ S = 1#1 := by
      have hS := S.isLt
      rw [← BitVec.toNat_inj, ← BitVec.toNat_inj, BitVec.toNat_ofNat, BitVec.toNat_ofNat]
      omega
    · rfl
    · rfl
  refine ⟨Sign.ofBitVec S, bitsOf x % 2 ^ 63, ?_, Nat.mod_lt _ (Nat.two_pow_pos 63), ?_⟩
  · rw [hbit]
    omega
  unfold infinityBits Float.Model.unpack UnpackedFloat.unpack
  dsimp only
  rw [hbias]
  -- The proof that a mantissa is not zero mentions its bits, so these are told apart but not rewritten.
  have htop : E = -1#11 ↔ bitsOf x / 2 ^ 52 % 2 ^ 11 = 2047 := by
    rw [← hexponent, ← BitVec.toNat_inj]
    rfl
  have hlow : E = 0#11 ↔ bitsOf x / 2 ^ 52 % 2 ^ 11 = 0 := by
    rw [← hexponent, ← BitVec.toNat_inj]
    rfl
  have hnone : M = 0#52 ↔ bitsOf x % 2 ^ 52 = 0 := by
    rw [← hmantissa, ← BitVec.toNat_inj]
    rfl
  subst hS hE hM
  by_cases hE47 : bitsOf x / 2 ^ 52 % 2 ^ 11 = 2047
  · rw [if_pos (htop.mpr hE47)]
    by_cases hM0 : bitsOf x % 2 ^ 52 = 0
    · rw [if_pos (hnone.mpr hM0)]
      exact Or.inr (Or.inl ⟨by omega, rfl⟩)
    · rw [if_neg (mt hnone.mp hM0)]
      exact Or.inl ⟨by omega, rfl⟩
  right; right
  rw [if_neg (mt htop.mp hE47)]
  by_cases hE0 : bitsOf x / 2 ^ 52 % 2 ^ 11 = 0
  · rw [if_pos (hlow.mpr hE0)]
    by_cases hM0 : bitsOf x % 2 ^ 52 = 0
    · left
      rw [dif_pos (hnone.mpr hM0)]
      exact ⟨by omega, rfl⟩
    · right
      refine ⟨0, bitsOf x % 2 ^ 63, ⟨by omega, by omega, Or.inl rfl⟩, by omega, by omega, ?_⟩
      rw [dif_neg (mt hnone.mp hM0)]
      exact finite_congr _ _ (by omega) (by omega)
  · right
    rw [if_neg (mt hlow.mp hE0)]
    refine ⟨bitsOf x / 2 ^ 52 % 2 ^ 11 - 1, 2 ^ 52 + bitsOf x % 2 ^ 52,
      ⟨by omega, by omega, Or.inr (by omega)⟩, by omega, by omega, ?_⟩
    refine finite_congr _ _ ?_ (by omega)
    rw [toNat_one_append, hmantissa]

/-- A time is infinite, zero, or a mantissa with a power, which follow each other in its bits. -/
theorem IsTime.unpack_cases {x : Float} (h : IsTime x) :
    (bitsOf x = infinityBits ∧ x.toModel.unpack = .infinity .positive) ∨
      (bitsOf x = 0 ∧ x.toModel.unpack = .zero .positive) ∨
      ∃ power mantissa, ∃ hc : IsCanonical power mantissa,
        bitsOf x = power * 2 ^ 52 + mantissa ∧ bitsOf x < infinityBits ∧
        x.toModel.unpack = .finite .positive mantissa ((power : Int) - 1074) hc.pos := by
  have hle : bitsOf x ≤ 2047 * 2 ^ 52 := h
  obtain ⟨s, rest, hbits, hrest, hcases⟩ := Clock.unpack_cases x
  cases s with
  | negative =>
    change bitsOf x = 1 * 2 ^ 63 + rest at hbits
    omega
  | positive =>
    obtain rfl : bitsOf x = rest := by
      change bitsOf x = 0 * 2 ^ 63 + rest at hbits
      omega
    exact hcases.resolve_left fun h => absurd h.1 (Nat.not_lt.mpr hle)

theorem toNat_packComponents (e : BitVec 11) (m : BitVec 52) :
    (packComponents Format.binary64 .positive e m).toNat = e.toNat * 2 ^ 52 + m.toNat := by
  change (0#1 ++ e ++ m).toNat = _
  rw [BitVec.toNat_append, BitVec.toNat_append, Nat.shiftLeft_eq, Nat.shiftLeft_eq]
  change ((0 * 2 ^ 11 ||| e.toNat) * 2 ^ 52 ||| m.toNat) = _
  rw [Nat.zero_mul, Nat.zero_or, Nat.mul_comm, Nat.two_pow_add_eq_or_of_lt m.isLt]

/-- A power that is too great makes a number infinite. -/
theorem bits_pack_finite {power mantissa : Nat} (hc : IsCanonical power mantissa) :
    (Float.Model.pack (.finite .positive mantissa ((power : Int) - 1074) hc.pos)).toBits.toNat =
      min (power * 2 ^ 52 + mantissa) infinityBits := by
  obtain ⟨hpos, hlt, hnormal⟩ := hc
  change (UnpackedFloat.pack Format.binary64 _).toNat = _
  unfold UnpackedFloat.pack infinityBits
  dsimp only
  have hbias : ((power : Int) - 1074 + (Format.binary64.exponentBias : Int) + (52 : Nat)).toNat =
      power + 1 := by
    change ((power : Int) - 1074 + 1023 + 52).toNat = power + 1
    omega
  rw [hbias]
  have hlog : mantissa.log2 + 1 = Format.binary64.mantissaBits ↔ 2 ^ 52 ≤ mantissa := by
    have h53 := (Nat.log2_lt (Nat.ne_of_gt hpos)).mpr hlt
    have h52 := Nat.le_log2 (Nat.ne_of_gt hpos) (k := 52)
    change mantissa.log2 + 1 = 53 ↔ _
    omega
  -- The greatest power stands for infinity.
  by_cases htop : 2048 ≤ power + 1 + 1
  · rw [if_pos (show 2 ^ Format.binary64.exponentBits ≤ power + 1 + 1 from htop)]
    have hinfinity : (packedInfinity Format.binary64 .positive).toNat = 2047 * 2 ^ 52 := rfl
    rw [hinfinity]
    omega
  rw [if_neg (show ¬ 2 ^ Format.binary64.exponentBits ≤ power + 1 + 1 from htop)]
  by_cases hm : 2 ^ 52 ≤ mantissa
  · rw [if_pos (hlog.mpr hm), toNat_packComponents]
    change (power + 1) % 2 ^ 11 * 2 ^ 52 + mantissa % 2 ^ 52 = _
    omega
  · rw [if_neg (mt hlog.mp hm), toNat_packComponents]
    change 0 * 2 ^ 52 + mantissa % 2 ^ 52 = _
    omega

theorem shift_mantissa (em : ExtendedMantissa) (k : Nat) :
    (em >>> k).mantissa = em.mantissa / 2 ^ k := by
  induction k with
  | zero => exact (Nat.div_one _).symm
  | succ k ih =>
    change (em >>> k).mantissa / 2 = _
    rw [ih, Nat.div_div_eq_div_mul, Nat.pow_succ]

theorem le_roundedMantissa (em : ExtendedMantissa) :
    em.mantissa ≤ em.roundedMantissa ∧ em.roundedMantissa ≤ em.mantissa + 1 := by
  obtain ⟨m, r, s⟩ := em
  cases r <;> cases s <;>
    simp only [ExtendedMantissa.roundedMantissa, ExtendedMantissa.accuracy,
      Accuracy.roundToNearestEven] <;> omega

def targetPower (mantissa power : Nat) : Nat := mantissa.log2 + power - 52

theorem targetExponent_eq (mantissa power : Nat) :
    Format.binary64.targetExponent (totalExponent mantissa ((power : Int) - 1074)) =
      (targetPower mantissa power : Int) - 1074 := by
  unfold Format.targetExponent totalExponent targetPower
  change max ((mantissa.log2 : Int) + 1 + ((power : Int) - 1074) - 53) (-1074) = _
  omega

/-- To be represented, a mantissa is shifted to the power that leaves it 53 bits. -/
theorem shiftToTargetExponent_eq (mantissa power : Nat) :
    shiftToTargetExponent Format.binary64 mantissa ((power : Int) - 1074) .exact =
      (ExtendedMantissa.mk mantissa false false >>> (targetPower mantissa power - power),
        ((max power (targetPower mantissa power) : Nat) : Int) - 1074) := by
  unfold shiftToTargetExponent shiftToExponent
  dsimp only
  rw [targetExponent_eq]
  have hk : ((targetPower mantissa power : Int) - 1074 - ((power : Int) - 1074)).toNat =
      targetPower mantissa power - power := by omega
  rw [hk]
  refine Prod.ext rfl ?_
  change (power : Int) - 1074 + ((targetPower mantissa power - power : Nat) : Int) = _
  omega

def shifted (mantissa power : Nat) : ExtendedMantissa :=
  ExtendedMantissa.mk (mantissa * 2 ^ (power - targetPower mantissa power)) false false >>>
    (targetPower mantissa power - power)

theorem log2_mul_two_pow {n : Nat} (hn : 0 < n) (k : Nat) : (n * 2 ^ k).log2 = n.log2 + k := by
  induction k with
  | zero => rw [Nat.pow_zero, Nat.mul_one, Nat.add_zero]
  | succ k ih =>
    have hpos : n * 2 ^ k ≠ 0 := Nat.ne_of_gt (Nat.mul_pos hn (Nat.two_pow_pos k))
    rw [Nat.pow_succ, ← Nat.mul_assoc, Nat.mul_comm, Nat.log2_two_mul hpos, ih, Nat.add_assoc]

/-- What is left is the whole part of the number, in units of its power. -/
theorem shifted_mantissa (mantissa power : Nat) :
    (shifted mantissa power).mantissa = mantissa * 2 ^ power / 2 ^ targetPower mantissa power := by
  unfold shifted
  rw [shift_mantissa]
  change mantissa * 2 ^ (power - targetPower mantissa power) / _ = _
  generalize targetPower mantissa power = T
  by_cases h : T ≤ power
  · have hpow : 2 ^ power = 2 ^ (power - T) * 2 ^ T := by rw [← Nat.pow_add, Nat.sub_add_cancel h]
    rw [Nat.sub_eq_zero_of_le h, Nat.pow_zero, Nat.div_one, hpow, ← Nat.mul_assoc,
      Nat.mul_div_cancel _ (Nat.two_pow_pos T)]
  · have hle : power ≤ T := by omega
    have hpow : 2 ^ T = 2 ^ power * 2 ^ (T - power) := by rw [← Nat.pow_add]; congr 1; omega
    rw [Nat.sub_eq_zero_of_le hle, Nat.pow_zero, Nat.mul_one, hpow, Nat.mul_comm mantissa,
      Nat.mul_div_mul_left _ _ (Nat.two_pow_pos power)]

/-- What is left has no more bits than a mantissa may have, and no less unless the power is the least. -/
theorem shifted_mantissa_bounds {mantissa : Nat} (hm : 0 < mantissa) (power : Nat) :
    (shifted mantissa power).mantissa < 2 ^ 53 ∧
      (targetPower mantissa power = 0 ∨ 2 ^ 52 ≤ (shifted mantissa power).mantissa) ∧
      0 < (shifted mantissa power).mantissa := by
  have hn : 0 < mantissa * 2 ^ power := Nat.mul_pos hm (Nat.two_pow_pos power)
  have hlog := log2_mul_two_pow hm power
  have hlow := Nat.log2_self_le (Nat.ne_of_gt hn)
  have hhigh := Nat.lt_log2_self (n := mantissa * 2 ^ power)
  rw [hlog] at hlow hhigh
  rw [shifted_mantissa]
  have htarget : targetPower mantissa power = mantissa.log2 + power - 52 := rfl
  generalize targetPower mantissa power = T at *
  have hT := Nat.two_pow_pos T
  have hlt : mantissa * 2 ^ power / 2 ^ T < 2 ^ 53 := by
    rw [Nat.div_lt_iff_lt_mul hT, ← Nat.pow_add]
    exact Nat.lt_of_lt_of_le hhigh (Nat.pow_le_pow_right (by decide) (by omega))
  have hnormal : T = 0 ∨ 2 ^ 52 ≤ mantissa * 2 ^ power / 2 ^ T := by
    by_cases h0 : T = 0
    · exact Or.inl h0
    · right
      rw [Nat.le_div_iff_mul_le hT, ← Nat.pow_add, show 52 + T = mantissa.log2 + power by omega]
      exact hlow
  refine ⟨hlt, hnormal, ?_⟩
  obtain h0 | h52 := hnormal
  · rw [h0, Nat.pow_zero, Nat.div_one]
    exact hn
  · exact Nat.lt_of_lt_of_le (Nat.two_pow_pos 52) h52

/-- What is shifted left to have bits enough is at the target power already. -/
theorem shiftToTargetExponent_scaled {mantissa : Nat} (hm : 0 < mantissa) (power : Nat) :
    shiftToTargetExponent Format.binary64 (mantissa * 2 ^ (power - targetPower mantissa power))
        ((min power (targetPower mantissa power) : Nat) - 1074 : Int) .exact =
      (shifted mantissa power, (targetPower mantissa power : Int) - 1074) := by
  have htarget : targetPower (mantissa * 2 ^ (power - targetPower mantissa power))
      (min power (targetPower mantissa power)) = targetPower mantissa power := by
    have hlog := log2_mul_two_pow hm (power - targetPower mantissa power)
    unfold targetPower at hlog ⊢
    omega
  rw [shiftToTargetExponent_eq, htarget]
  unfold shifted
  congr 2
  · omega
  · omega

/-- Rounding depends only on the mantissa at the power that leaves it 53 bits. -/
theorem round_scaled (mantissa power : Nat) :
    UnpackedFloat.round Format.binary64 .positive mantissa ((power : Int) - 1074) =
      roundWithAccuracy Format.binary64 .positive (mantissa * 2 ^ (power - targetPower mantissa power))
        ((min power (targetPower mantissa power) : Nat) - 1074 : Int) .exact := by
  unfold UnpackedFloat.round decreaseExponent
  dsimp only
  rw [targetExponent_eq]
  have hk : ((power : Int) - 1074 - ((targetPower mantissa power : Int) - 1074)).toNat =
      power - targetPower mantissa power := by omega
  rw [hk, Nat.shiftLeft_eq]
  congr 1
  omega

/-- A rounded mantissa is one already, unless rounding has made it a bit too long: then it is halved. -/
theorem renormalized {R T : Nat} (hpos : 0 < R) (hle : R ≤ 2 ^ 53) (hnormal : T = 0 ∨ 2 ^ 52 ≤ R) :
    IsCanonical (max T (targetPower R T)) (R / 2 ^ (targetPower R T - T)) ∧
      max T (targetPower R T) * 2 ^ 52 + R / 2 ^ (targetPower R T - T) = T * 2 ^ 52 + R := by
  by_cases hcarry : R < 2 ^ 53
  · have hlog := (Nat.log2_lt (Nat.ne_of_gt hpos)).mpr hcarry
    have htarget : targetPower R T ≤ T := by
      unfold targetPower
      omega
    rw [Nat.max_eq_left htarget, Nat.sub_eq_zero_of_le htarget, Nat.pow_zero, Nat.div_one]
    exact ⟨⟨hpos, hcarry, hnormal⟩, rfl⟩
  · obtain rfl : R = 2 ^ 53 := by omega
    have htarget : targetPower (2 ^ 53) T = T + 1 := by
      unfold targetPower
      rw [Nat.log2_two_pow]
      omega
    rw [htarget, Nat.max_eq_right (Nat.le_succ T), Nat.add_sub_cancel_left]
    exact ⟨⟨by decide, by decide, Or.inr (by decide)⟩, by omega⟩

/-- A number is rounded to a mantissa with all its bits, at the target power or the next one. -/
theorem round_eq {mantissa : Nat} (hm : 0 < mantissa) (power : Nat) :
    ∃ power' mantissa', ∃ hc : IsCanonical power' mantissa',
      UnpackedFloat.round Format.binary64 .positive mantissa ((power : Int) - 1074) =
        .finite .positive mantissa' ((power' : Int) - 1074) hc.pos ∧
      power' * 2 ^ 52 + mantissa' =
        targetPower mantissa power * 2 ^ 52 + (shifted mantissa power).roundedMantissa := by
  obtain ⟨hlt, hnormal, hpos⟩ := shifted_mantissa_bounds hm power
  obtain ⟨hle, hle'⟩ := le_roundedMantissa (shifted mantissa power)
  obtain ⟨hc, hcode⟩ := renormalized (R := (shifted mantissa power).roundedMantissa)
    (T := targetPower mantissa power) (by omega) (by omega) (by omega)
  refine ⟨_, _, hc, ?_, hcode⟩
  rw [round_scaled]
  unfold roundWithAccuracy
  rw [shiftToTargetExponent_scaled hm]
  dsimp only
  rw [shiftToTargetExponent_eq]
  dsimp only
  have hmantissa := shift_mantissa ⟨(shifted mantissa power).roundedMantissa, false, false⟩
    (targetPower (shifted mantissa power).roundedMantissa (targetPower mantissa power) -
      targetPower mantissa power)
  rw [dif_neg (hmantissa ▸ Nat.ne_of_gt hc.pos)]
  exact finite_congr _ _ hmantissa rfl

/-- Rounding does not go below a number that needs no rounding. -/
theorem round_ge {mantissa : Nat} (hm : 0 < mantissa) (power : Nat) {power' mantissa' : Nat}
    (hc : IsCanonical power' mantissa') (hle : mantissa' * 2 ^ power' ≤ mantissa * 2 ^ power) :
    power' * 2 ^ 52 + mantissa' ≤
      targetPower mantissa power * 2 ^ 52 + (shifted mantissa power).roundedMantissa := by
  obtain ⟨hlt, hnormal, hpos⟩ := shifted_mantissa_bounds hm power
  have hround := (le_roundedMantissa (shifted mantissa power)).1
  have hmantissa := shifted_mantissa mantissa power
  generalize (shifted mantissa power).roundedMantissa = R at *
  generalize (shifted mantissa power).mantissa = F at *
  generalize targetPower mantissa power = T at *
  have hT := Nat.two_pow_pos T
  have hwhole : mantissa' * 2 ^ power' / 2 ^ T ≤ F := by
    rw [hmantissa]
    exact Nat.div_le_div_right hle
  obtain ⟨hpos', hlt', hnormal'⟩ := hc
  obtain h | h | h := Nat.lt_trichotomy power' T
  -- A number of a lesser power has lesser bits, whatever its mantissa is.
  · omega
  · subst h
    rw [Nat.mul_div_cancel _ hT] at hwhole
    omega
  · -- A number of a greater power would have more bits than are left.
    have hpow : 2 ^ power' = 2 ^ (power' - T) * 2 ^ T := by rw [← Nat.pow_add]; congr 1; omega
    rw [hpow, ← Nat.mul_assoc, Nat.mul_div_cancel _ hT] at hwhole
    have htwo : 2 ≤ 2 ^ (power' - T) := Nat.le_self_pow (by omega) 2
    have hmore : 2 ^ 52 * 2 ≤ mantissa' * 2 ^ (power' - T) :=
      Nat.mul_le_mul (hnormal'.resolve_left (by omega)) htwo
    omega

theorem bits_pack_infinity : (Float.Model.pack (.infinity .positive)).toBits.toNat = infinityBits := rfl

theorem bitsOf_add (x y : Float) :
    bitsOf (x + y) = (Float.Model.pack
      (UnpackedFloat.add Format.binary64 x.toModel.unpack y.toModel.unpack)).toBits.toNat := rfl

/-- Finite numbers are added in units of the lesser of their powers. -/
theorem add_eq_normalize (s s' : Sign) {p m p' m' : Nat} (hm : 0 < m) (hm' : 0 < m') :
    UnpackedFloat.add Format.binary64 (.finite s m ((p : Int) - 1074) hm)
        (.finite s' m' ((p' : Int) - 1074) hm') =
      UnpackedFloat.normalize Format.binary64
        (s.apply (m * 2 ^ (p - min p p') : Nat) + s'.apply (m' * 2 ^ (p' - min p p') : Nat))
        ((min p p' : Nat) - 1074 : Int) .positive := by
  have hmin : min ((p : Int) - 1074) ((p' : Int) - 1074) = (min p p' : Nat) - 1074 := by omega
  have hp : ((p : Int) - 1074 - ((min p p' : Nat) - 1074)).toNat = p - min p p' := by omega
  have hp' : ((p' : Int) - 1074 - ((min p p' : Nat) - 1074)).toNat = p' - min p p' := by omega
  unfold UnpackedFloat.add
  dsimp only
  rw [hmin]
  unfold decreaseExponent
  dsimp only
  rw [hp, hp', Nat.shiftLeft_eq, Nat.shiftLeft_eq]

/-- The sum of two finite numbers is rounded from the number with the lesser of their powers. -/
theorem add_finite {p m p' m' : Nat} (hm : 0 < m) (hm' : 0 < m') :
    UnpackedFloat.add Format.binary64 (.finite .positive m ((p : Int) - 1074) hm)
        (.finite .positive m' ((p' : Int) - 1074) hm') =
      UnpackedFloat.round Format.binary64 .positive
        (m * 2 ^ (p - min p p') + m' * 2 ^ (p' - min p p')) ((min p p' : Nat) - 1074 : Int) := by
  rw [add_eq_normalize]
  have hpos : 0 < m * 2 ^ (p - min p p') := Nat.mul_pos hm (Nat.two_pow_pos _)
  generalize m * 2 ^ (p - min p p') = a at *
  generalize m' * 2 ^ (p' - min p p') = b
  have hgt : compare ((a : Int) + b) 0 = .gt := by
    rw [Int.compare_eq_gt]
    omega
  unfold UnpackedFloat.normalize
  change (match compare ((a : Int) + b) 0 with | .lt => _ | .eq => _ | .gt => _) = _
  rw [hgt]
  dsimp only
  congr 1

/-- What is added to a finite number does not make it less. -/
theorem bits_add_finite {p m p' m' : Nat} (hc : IsCanonical p m) (hc' : IsCanonical p' m') :
    min (p * 2 ^ 52 + m) infinityBits ≤ (Float.Model.pack (UnpackedFloat.add Format.binary64
      (.finite .positive m ((p : Int) - 1074) hc.pos)
      (.finite .positive m' ((p' : Int) - 1074) hc'.pos))).toBits.toNat ∧
    (Float.Model.pack (UnpackedFloat.add Format.binary64
      (.finite .positive m ((p : Int) - 1074) hc.pos)
      (.finite .positive m' ((p' : Int) - 1074) hc'.pos))).toBits.toNat ≤ infinityBits := by
  have hsum : 0 < m * 2 ^ (p - min p p') + m' * 2 ^ (p' - min p p') :=
    Nat.add_pos_left (Nat.mul_pos hc.pos (Nat.two_pow_pos _)) _
  -- Both are counted in units of the lesser power, and there the sum is not below the first one.
  have hle : m * 2 ^ p ≤ (m * 2 ^ (p - min p p') + m' * 2 ^ (p' - min p p')) * 2 ^ min p p' := by
    have hpow : 2 ^ p = 2 ^ (p - min p p') * 2 ^ min p p' := by
      rw [← Nat.pow_add]
      congr 1
      omega
    rw [hpow, ← Nat.mul_assoc]
    exact Nat.mul_le_mul_right _ (Nat.le_add_right _ _)
  obtain ⟨q, r, hqr, hround, hcode⟩ := round_eq hsum (min p p')
  have hge := round_ge hsum (min p p') hc hle
  rw [← hcode] at hge
  rw [add_finite, hround, bits_pack_finite hqr]
  exact ⟨Nat.le_min.mpr ⟨Nat.le_trans (Nat.min_le_left _ _) hge, Nat.min_le_right _ _⟩,
    Nat.min_le_right _ _⟩

/-- A sum of times is a time, and no less than the first of them. -/
theorem IsTime.add {x y : Float} (hx : IsTime x) (hy : IsTime y) :
    IsTime (x + y) ∧ bitsOf x ≤ bitsOf (x + y) := by
  have hxle : bitsOf x ≤ infinityBits := hx
  unfold IsTime
  rw [bitsOf_add]
  obtain ⟨-, hxu⟩ | ⟨hx0, hxu⟩ | ⟨p, m, hc, hxb, -, hxu⟩ := hx.unpack_cases
  · rw [hxu]
    have hadd : UnpackedFloat.add Format.binary64 (.infinity .positive) y.toModel.unpack =
        .infinity .positive := by
      obtain ⟨-, hyu⟩ | ⟨-, hyu⟩ | ⟨p', m', hc', -, -, hyu⟩ := hy.unpack_cases <;> rw [hyu] <;> rfl
    rw [hadd, bits_pack_infinity]
    exact ⟨Nat.le_refl _, hxle⟩
  -- Zero leaves the other one as it is.
  · rw [hxu, hx0]
    refine ⟨?_, Nat.zero_le _⟩
    obtain ⟨-, hyu⟩ | ⟨-, hyu⟩ | ⟨p', m', hc', -, -, hyu⟩ := hy.unpack_cases
    · rw [hyu]
      exact Nat.le_refl infinityBits
    · rw [hyu]
      exact Nat.zero_le infinityBits
    · rw [hyu]
      change (Float.Model.pack (.finite .positive m' ((p' : Int) - 1074) hc'.pos)).toBits.toNat ≤ _
      rw [bits_pack_finite hc']
      exact Nat.min_le_right _ _
  · rw [hxu]
    obtain ⟨-, hyu⟩ | ⟨-, hyu⟩ | ⟨p', m', hc', -, -, hyu⟩ := hy.unpack_cases
    · rw [hyu]
      exact ⟨Nat.le_refl infinityBits, hxle⟩
    · rw [hyu]
      change (Float.Model.pack (.finite .positive m ((p : Int) - 1074) hc.pos)).toBits.toNat ≤ _ ∧
        bitsOf x ≤ (Float.Model.pack (.finite .positive m ((p : Int) - 1074) hc.pos)).toBits.toNat
      rw [bits_pack_finite hc]
      omega
    · rw [hyu]
      obtain ⟨hge, htime⟩ := bits_add_finite hc hc'
      rw [← hxb, Nat.min_eq_left hxle] at hge
      exact ⟨htime, hge⟩

theorem lt_iff_compare (x y : Float) :
    x < y ↔ x.toModel.unpack.compare y.toModel.unpack = some .lt := by
  change (decide (x.toModel < y.toModel)) = true ↔ _
  rw [decide_eq_true_iff]
  change (x.toModel.unpack.compare y.toModel.unpack == some .lt) = true ↔ _
  exact beq_iff_eq

/-- The order of powers, and of mantissas where the powers are equal, is that of the bits. -/
theorem compare_finite {p m p' m' : Nat} (hc : IsCanonical p m) (hc' : IsCanonical p' m') :
    (compare ((p : Int) - 1074) ((p' : Int) - 1074)).then (compare m m') =
      compare (p * 2 ^ 52 + m) (p' * 2 ^ 52 + m') := by
  obtain ⟨hpos, hlt, hnormal⟩ := hc
  obtain ⟨hpos', hlt', hnormal'⟩ := hc'
  obtain h | rfl | h := Nat.lt_trichotomy p p'
  · have hpower : compare ((p : Int) - 1074) ((p' : Int) - 1074) = .lt :=
      Int.compare_eq_lt.mpr (by omega)
    have hbits : compare (p * 2 ^ 52 + m) (p' * 2 ^ 52 + m') = .lt := Nat.compare_eq_lt.mpr (by omega)
    rw [hpower, hbits]
    rfl
  · have heq : compare ((p : Int) - 1074) ((p : Int) - 1074) = .eq := Int.compare_eq_eq.mpr rfl
    rw [heq, Ordering.eq_then]
    obtain h | rfl | h := Nat.lt_trichotomy m m'
    · rw [Nat.compare_eq_lt.mpr h, Nat.compare_eq_lt.mpr (by omega)]
    · rw [Nat.compare_eq_eq.mpr rfl, Nat.compare_eq_eq.mpr rfl]
    · rw [Nat.compare_eq_gt.mpr h, Nat.compare_eq_gt.mpr (by omega)]
  · have hpower : compare ((p : Int) - 1074) ((p' : Int) - 1074) = .gt :=
      Int.compare_eq_gt.mpr (by omega)
    have hbits : compare (p * 2 ^ 52 + m) (p' * 2 ^ 52 + m') = .gt := Nat.compare_eq_gt.mpr (by omega)
    rw [hpower, hbits]
    rfl

/-- Numbers that are not negative are in the order of their bits. -/
theorem IsTime.compare_eq {x y : Float} (hx : IsTime x) (hy : IsTime y) :
    x.toModel.unpack.compare y.toModel.unpack = some (compare (bitsOf x) (bitsOf y)) := by
  have hinf : 0 < infinityBits := by decide
  obtain ⟨hxb, hxu⟩ | ⟨hxb, hxu⟩ | ⟨p, m, hc, hxb, hxlt, hxu⟩ := hx.unpack_cases
  · obtain ⟨hyb, hyu⟩ | ⟨hyb, hyu⟩ | ⟨p', m', hc', hyb, hylt, hyu⟩ := hy.unpack_cases
    · rw [hxu, hyu, hxb, hyb, Nat.compare_eq_eq.mpr rfl]
      rfl
    · rw [hxu, hyu, hxb, hyb, Nat.compare_eq_gt.mpr hinf]
      rfl
    · rw [hxu, hyu, hxb, Nat.compare_eq_gt.mpr hylt]
      rfl
  · obtain ⟨hyb, hyu⟩ | ⟨hyb, hyu⟩ | ⟨p', m', hc', hyb, hylt, hyu⟩ := hy.unpack_cases
    · rw [hxu, hyu, hxb, hyb, Nat.compare_eq_lt.mpr hinf]
      rfl
    · rw [hxu, hyu, hxb, hyb]
      rfl
    · have hpos := hc'.pos
      rw [hxu, hyu, hxb, hyb, Nat.compare_eq_lt.mpr (by omega)]
      rfl
  · obtain ⟨hyb, hyu⟩ | ⟨hyb, hyu⟩ | ⟨p', m', hc', hyb, hylt, hyu⟩ := hy.unpack_cases
    · rw [hxu, hyu, hyb, Nat.compare_eq_lt.mpr hxlt]
      rfl
    · have hpos := hc.pos
      rw [hxu, hyu, hxb, hyb, Nat.compare_eq_gt.mpr (by omega)]
      rfl
    · rw [hxu, hyu, hxb, hyb, ← compare_finite hc hc']
      rfl

theorem IsTime.lt_iff {x y : Float} (hx : IsTime x) (hy : IsTime y) :
    x < y ↔ bitsOf x < bitsOf y := by
  rw [lt_iff_compare, hx.compare_eq hy, Option.some_inj, Nat.compare_eq_lt]

theorem le_iff_compare (x y : Float) :
    x ≤ y ↔ (x.toModel.unpack.compare y.toModel.unpack).any Ordering.isLE = true := by
  change (decide (x.toModel ≤ y.toModel)) = true ↔ _
  exact decide_eq_true_iff

theorem IsTime.le_iff {x y : Float} (hx : IsTime x) (hy : IsTime y) :
    x ≤ y ↔ bitsOf x ≤ bitsOf y := by
  rw [le_iff_compare, hx.compare_eq hy, Option.any_some, Nat.isLE_compare]

theorem bitsOf_zero : bitsOf 0.0 = 0 := by decide +kernel

theorem isTime_zero : IsTime 0.0 := Nat.le_trans (Nat.le_of_eq bitsOf_zero) (Nat.zero_le _)

theorem bitsOf_one : bitsOf 1.0 = 4607182418800017408 := by decide +kernel

theorem isTime_one : IsTime 1.0 := by
  unfold IsTime infinityBits
  rw [bitsOf_one]
  omega

theorem unpack_zero : (0.0 : Float).toModel.unpack = .zero .positive := by
  obtain ⟨hb, -⟩ | ⟨-, hu⟩ | ⟨p, m, hc, hb, -, -⟩ := isTime_zero.unpack_cases
  · rw [bitsOf_zero] at hb
    exact absurd hb (by decide)
  · exact hu
  · have hpos := hc.pos
    rw [bitsOf_zero] at hb
    omega

/-- What is above zero is not negative. -/
theorem isTime_of_zero_lt {x : Float} (h : 0.0 < x) : IsTime x := by
  rw [lt_iff_compare, unpack_zero] at h
  obtain ⟨s, rest, hbits, hrest, hcases⟩ := Clock.unpack_cases x
  cases s with
  | negative =>
    obtain ⟨-, hu⟩ | ⟨-, hu⟩ | ⟨-, hu⟩ | ⟨power, mantissa, hc, -, -, hu⟩ := hcases
    all_goals
      rw [hu] at h
      cases h
  | positive =>
    have hle : bitsOf x = rest := by
      change bitsOf x = 0 * 2 ^ 63 + rest at hbits
      omega
    unfold IsTime
    obtain ⟨-, hu⟩ | ⟨hr, -⟩ | ⟨hr, -⟩ | ⟨power, mantissa, hc, -, hr, -⟩ := hcases
    · rw [hu] at h
      cases h
    all_goals omega
end Snippet.Clock
