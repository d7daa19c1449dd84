import Mathlib.Algebra.Ring.Int.Defs
import Snippet.Proofs.WholeNumber
import Snippet.Script.StringMethod

/-!
The whole part of a floating number, and the place that the number denotes in a sequence. A place that is
counted from the end is the sum of a length and a negative whole number. Such a sum is not rounded unless it is
negative, and any negative sum leads to the beginning of the sequence.
-/

namespace Snippet.Clock

open Float.Model UnpackedFloat

inductive IsWhole : UnpackedFloat → Sign → Nat → Prop
  | zero (s : Sign) : IsWhole (.zero s) s 0
  | finite (s : Sign) {power mantissa n : Nat} (hpos : 0 < mantissa)
      (h : mantissa * 2 ^ power = n * 2 ^ 1074) :
      IsWhole (.finite s mantissa ((power : Int) - 1074) hpos) s n

def wholeMagnitude (power mantissa : Nat) : Nat := mantissa * 2 ^ power / 2 ^ 1074

/-- A number without a fraction is multiplied by a power of two, and any other is divided by one. -/
theorem wholeMagnitude_eq (power mantissa : Nat) :
    wholeMagnitude power mantissa = mantissa * 2 ^ (power - 1074) / 2 ^ (1074 - power) := by
  unfold wholeMagnitude
  obtain hle | hle := Nat.le_total power 1074
  · have hpow : 2 ^ 1074 = 2 ^ power * 2 ^ (1074 - power) := by rw [← Nat.pow_add]; congr 1; omega
    rw [Nat.sub_eq_zero_of_le hle, Nat.pow_zero, Nat.mul_one, hpow, Nat.mul_comm mantissa,
      Nat.mul_div_mul_left _ _ (Nat.two_pow_pos power)]
  · have hpow : 2 ^ power = 2 ^ (power - 1074) * 2 ^ 1074 := by rw [← Nat.pow_add]; congr 1; omega
    rw [Nat.sub_eq_zero_of_le hle, Nat.pow_zero, Nat.div_one, hpow, ← Nat.mul_assoc,
      Nat.mul_div_cancel _ (Nat.two_pow_pos 1074)]

theorem roundToInt_eq (s : Sign) (power mantissa : Nat) :
    roundToInt s mantissa ((power : Int) - 1074) = s.apply (wholeMagnitude power mantissa) := by
  unfold roundToInt decreaseExponent shiftToExponent
  dsimp only
  have hleft : ((power : Int) - 1074 - 0).toNat = power - 1074 := by omega
  have hright : (0 - ((power : Int) - 1074 - ((power - 1074 : Nat) : Int))).toNat = 1074 - power := by omega
  rw [hleft, hright, shift_mantissa, Nat.shiftLeft_eq, wholeMagnitude_eq]
  rfl

namespace IsWhole

variable {u : UnpackedFloat} {s : Sign} {n : Nat}

theorem toInt_eq (h : IsWhole u s n) (low high : Int) : u.toInt low high = s.apply n := by
  cases h with
  | zero => cases s <;> rfl
  | @finite _ power mantissa _ hpos hscale =>
    change roundToInt s mantissa ((power : Int) - 1074) = _
    rw [roundToInt_eq, wholeMagnitude, hscale, Nat.mul_div_cancel _ (Nat.two_pow_pos 1074)]

/-- Only a magnitude other than zero makes a number negative. -/
theorem lt_zero_iff {x : Float} (h : IsWhole x.toModel.unpack s n) : x < 0.0 ↔ s = .negative ∧ 0 < n := by
  rw [lt_iff_compare, unpack_zero]
  generalize x.toModel.unpack = u at h
  cases h with
  | zero => exact iff_of_false (by cases s <;> exact nofun) (fun h => absurd h.2 (Nat.lt_irrefl 0))
  | @finite _ power mantissa _ hpos hscale =>
    have hn : 0 < n := by
      refine Nat.pos_of_ne_zero ?_
      rintro rfl
      rw [Nat.zero_mul] at hscale
      exact absurd hscale (Nat.ne_of_gt (Nat.mul_pos hpos (Nat.two_pow_pos power)))
    cases s with
    | negative => exact iff_of_true rfl ⟨rfl, hn⟩
    | positive => exact iff_of_false nofun nofun

end IsWhole

/-- The bits of a natural number and a sign are those of a whole number. -/
theorem isWhole_of_bits {x : Float} (s : Sign) {n : Nat} (hpos : 0 < n) (hlt : n < 2 ^ 53)
    (hbits : bitsOf x = s.toBitVec.toNat * 2 ^ 63 + naturalBits n) : IsWhole x.toModel.unpack s n := by
  have hlog := log2_le_of_lt hpos hlt
  obtain ⟨hlow, hhigh⟩ := mantissa_bounds hpos hlt
  rw [unpack_eq_of_signed_bits s hlow hhigh hbits (naturalBits_lt hpos hlt)]
  refine .finite _ _ ?_
  rw [Nat.mul_assoc, ← Nat.pow_add]
  congr 2
  omega

theorem isWhole_ofNat {n : Nat} (hlt : n < 2 ^ 53) :
    IsWhole (Float.ofNat n).toModel.unpack .positive n := by
  obtain rfl | hpos := Nat.eq_zero_or_pos n
  · rw [ofNat_zero, unpack_zero]
    exact .zero _
  · refine isWhole_of_bits .positive hpos hlt ?_
    rw [bitsOf_ofNat hpos hlt]
    exact (Nat.zero_add _).symm

/-- The negative of a whole number is whole. -/
theorem isWhole_neg_ofNat {n : Nat} (hlt : n < 2 ^ 53) :
    IsWhole (-Float.ofNat n).toModel.unpack .negative n := by
  obtain rfl | hpos := Nat.eq_zero_or_pos n
  · have hbits : bitsOf (-Float.ofNat 0) = 2 ^ 63 := by decide +kernel
    obtain ⟨s, rest, hbits', hrest, hcases⟩ := unpack_cases (-Float.ofNat 0)
    cases s with
    | positive =>
      change _ = 0 * 2 ^ 63 + rest at hbits'
      omega
    | negative =>
      change _ = 1 * 2 ^ 63 + rest at hbits'
      obtain ⟨hr, -⟩ | ⟨hr, -⟩ | ⟨-, hu⟩ | ⟨power, mantissa, hc, hr, -, -⟩ := hcases
      · omega
      · exact absurd hr (by unfold infinityBits; omega)
      · rw [hu]
        exact .zero _
      · have hpos := hc.pos
        omega
  · exact isWhole_of_bits .negative hpos hlt (bitsOf_neg_ofNat hpos hlt)

def IsSigned : UnpackedFloat → Prop
  | .notANumber => False
  | .infinity s | .zero s | .finite s _ _ _ => s = .negative

/-- Rounding a negative number leaves it its sign. -/
theorem isSigned_round (mantissa : Nat) (exponent : Int) :
    IsSigned (UnpackedFloat.round Format.binary64 .negative mantissa exponent) := by
  have hsigned {p : Prop} [Decidable p] {m : Nat} {e : Int} (hpos : ¬ p → 0 < m) :
      IsSigned (if h : p then .zero .negative else .finite .negative m e (hpos h)) := by
    by_cases h : p
    · rw [dif_pos h]
      rfl
    · rw [dif_neg h]
      rfl
  unfold UnpackedFloat.round roundWithAccuracy
  exact hsigned _

/-- A number with a sign has the highest bit set. -/
theorem le_bits_pack_of_isSigned {u : UnpackedFloat} (h : IsSigned u) :
    2 ^ 63 ≤ (Float.Model.pack u).toBits.toNat := by
  have hcomponents (e : BitVec 11) (m : BitVec 52) :
      2 ^ 63 ≤ (packComponents Format.binary64 .negative e m).toNat := by
    change 2 ^ 63 ≤ (1#1 ++ e ++ m).toNat
    rw [toNat_append_append]
    change 2 ^ 63 ≤ 1 * 2 ^ 63 + _ + _
    omega
  change 2 ^ 63 ≤ (UnpackedFloat.pack Format.binary64 u).toNat
  unfold UnpackedFloat.pack
  cases u with
  | notANumber => cases h
  | infinity s =>
    cases h
    exact hcomponents _ _
  | zero s =>
    cases h
    exact hcomponents _ _
  | finite s m e hm =>
    cases h
    dsimp only
    split
    · exact hcomponents _ _
    · split <;> exact hcomponents _ _

/-- A difference of whole numbers is rounded only if it is negative or great: below `2 ^ 53` it is the
difference of the magnitudes, in whatever unit it has been taken. -/
theorem normalize_sub {a b k length n : Nat} (ha : a * 2 ^ k = length * 2 ^ 1074)
    (hb : b * 2 ^ k = n * 2 ^ 1074) (hlength : length < 2 ^ 53) :
    (length < n → IsSigned (UnpackedFloat.normalize Format.binary64 ((a : Int) + -(b : Int))
      ((k : Int) - 1074) .positive)) ∧
    (length = n → (Float.Model.pack (UnpackedFloat.normalize Format.binary64 ((a : Int) + -(b : Int))
      ((k : Int) - 1074) .positive)).toBits.toNat = 0) ∧
    (n < length → (Float.Model.pack (UnpackedFloat.normalize Format.binary64 ((a : Int) + -(b : Int))
      ((k : Int) - 1074) .positive)).toBits.toNat = naturalBits (length - n)) := by
  have hk := Nat.two_pow_pos k
  have hunit := Nat.two_pow_pos 1074
  have hless : a < b ↔ length < n := by
    rw [← Nat.mul_lt_mul_right hk, ha, hb, Nat.mul_lt_mul_right hunit]
  have hmore : b < a ↔ n < length := by
    rw [← Nat.mul_lt_mul_right hk, ha, hb, Nat.mul_lt_mul_right hunit]
  unfold UnpackedFloat.normalize
  refine ⟨fun h => ?_, fun h => ?_, fun h => ?_⟩
  · have hcompare : compare ((a : Int) + -(b : Int)) 0 = .lt := Int.compare_eq_lt.mpr (by omega)
    rw [hcompare]
    exact isSigned_round _ _
  · have hcompare : compare ((a : Int) + -(b : Int)) 0 = .eq := Int.compare_eq_eq.mpr (by omega)
    rw [hcompare]
    rfl
  · have hcompare : compare ((a : Int) + -(b : Int)) 0 = .gt := Int.compare_eq_gt.mpr (by omega)
    have hmagnitude : ((a : Int) + -(b : Int)).toNat = a - b := by omega
    have hpos : 0 < length - n := Nat.sub_pos_of_lt h
    have hlt : length - n < 2 ^ 53 := by omega
    have hlog := log2_le_of_lt hpos hlt
    obtain ⟨hlow, hhigh⟩ := mantissa_bounds hpos hlt
    -- The difference has at most 53 bits, so rounding leaves it alone.
    have hscale : (a - b) * 2 ^ k =
        (length - n) * 2 ^ (52 - (length - n).log2) * 2 ^ (1022 + (length - n).log2) := by
      rw [Nat.sub_mul, ha, hb, ← Nat.sub_mul, Nat.mul_assoc, ← Nat.pow_add]
      congr 2
      omega
    obtain ⟨power, mantissa, hc, hround, hcode⟩ := round_exact hlow hhigh hscale
    have hfinite := naturalBits_lt hpos hlt
    rw [hcompare, hmagnitude]
    dsimp only
    unfold naturalBits at hfinite ⊢
    rw [hround, bits_pack_finite hc, hcode]
    exact Nat.min_eq_left (Nat.le_of_lt hfinite)

end Snippet.Clock

namespace Snippet.Number

open Clock Float.Model UnpackedFloat

theorem toNatClamped_eq (x : Float) :
    toNatClamped x = min (x.toModel.unpack.toInt 0 (2 ^ 64 - 1)).toNat (2 ^ 64 - 1) := by
  change (UInt64.ofNatClamp (x.toModel.unpack.toInt 0 (2 ^ 64 - 1)).toNat).toNat = _
  unfold UInt64.ofNatClamp
  have hsize : UInt64.size = 2 ^ 64 := rfl
  split
  · rw [UInt64.toNat_ofNatLT]
    omega
  · rw [UInt64.toNat_ofNatLT]
    omega

/-- What has a sign is clamped to zero. -/
theorem toNatClamped_eq_zero {x : Float} (h : 2 ^ 63 ≤ bitsOf x) : toNatClamped x = 0 := by
  rw [toNatClamped_eq]
  suffices hle : x.toModel.unpack.toInt 0 (2 ^ 64 - 1) ≤ 0 by omega
  obtain ⟨s, rest, hbits, hrest, hcases⟩ := unpack_cases x
  cases s with
  | positive =>
    change _ = 0 * 2 ^ 63 + rest at hbits
    omega
  | negative =>
    obtain ⟨-, hu⟩ | ⟨-, hu⟩ | ⟨-, hu⟩ | ⟨power, mantissa, hc, -, -, hu⟩ := hcases
    · rw [hu]; exact Int.le_refl 0
    · rw [hu]; exact Int.le_refl 0
    · rw [hu]; exact Int.le_refl 0
    · rw [hu]
      change roundToInt .negative mantissa ((power : Int) - 1074) ≤ 0
      rw [roundToInt_eq]
      change -((wholeMagnitude power mantissa : Nat) : Int) ≤ 0
      omega

theorem toNatClamped_of_isWhole {x : Float} {s : Sign} {n : Nat} (h : IsWhole x.toModel.unpack s n) :
    toNatClamped x = min (s.apply n).toNat (2 ^ 64 - 1) := by
  rw [toNatClamped_eq, h.toInt_eq]

theorem toNatClamped_zero : toNatClamped 0.0 = 0 := by
  rw [toNatClamped_eq, unpack_zero]
  rfl

/-- What is left of a length when a whole number is taken from its end: nothing if the number is greater. -/
theorem toNatClamped_ofNat_add {length n : Nat} (hlength : length < 2 ^ 53) {y : Float} (hn : 0 < n)
    (hy : IsWhole y.toModel.unpack .negative n) :
    toNatClamped (Float.ofNat length + y) = length - n := by
  have hx := isWhole_ofNat hlength
  have hbits := bitsOf_add (Float.ofNat length) y
  have hsigned (h : IsSigned (UnpackedFloat.add Format.binary64 (Float.ofNat length).toModel.unpack
      y.toModel.unpack)) : toNatClamped (Float.ofNat length + y) = 0 :=
    toNatClamped_eq_zero (hbits ▸ le_bits_pack_of_isSigned h)
  generalize Float.ofNat length + y = z at *
  generalize (Float.ofNat length).toModel.unpack = u at *
  generalize y.toModel.unpack = v at *
  cases hy with
  | zero => exact absurd hn (Nat.lt_irrefl 0)
  | @finite _ p' m' _ hm' hscale' =>
  cases hx with
  | zero =>
    rw [hsigned rfl]
    omega
  | @finite _ p m _ hm hscale =>
    -- Both are counted in units of the lesser power.
    have hunit {m q n : Nat} (hle : min p p' ≤ q) (h : m * 2 ^ q = n * 2 ^ 1074) :
        m * 2 ^ (q - min p p') * 2 ^ min p p' = n * 2 ^ 1074 := by
      rw [Nat.mul_assoc, ← Nat.pow_add, Nat.sub_add_cancel hle, h]
    obtain ⟨hless, hequal, hmore⟩ :=
      normalize_sub (hunit (Nat.min_le_left p p') hscale) (hunit (Nat.min_le_right p p') hscale') hlength
    rw [add_eq_normalize] at hbits hsigned
    obtain h | rfl | h := Nat.lt_trichotomy length n
    · rw [hsigned (hless h)]
      omega
    · obtain rfl : z = 0.0 := bitsOf_injective ((hbits.trans (hequal rfl)).trans bitsOf_zero.symm)
      rw [toNatClamped_zero, Nat.sub_self]
    · have hwhole : IsWhole z.toModel.unpack .positive (length - n) := by
        refine isWhole_of_bits .positive (by omega) (by omega) ((hbits.trans (hmore h)).trans ?_)
        exact (Nat.zero_add _).symm
      rw [toNatClamped_of_isWhole hwhole]
      change min (((length - n : Nat) : Int)).toNat _ = _
      omega

/-- The whole part of a magnitude is its mantissa shifted by its power. -/
theorem Binary.floorMagnitude_eq (negative edge : Bool) (power mantissa : Nat) :
    (Binary.mk negative mantissa ((power : Int) - 1074) edge).floorMagnitude =
      wholeMagnitude power mantissa := by
  rw [wholeMagnitude_eq]
  unfold Binary.floorMagnitude twoTo
  dsimp only
  by_cases h : 0 ≤ (power : Int) - 1074
  · rw [if_pos h, show ((power : Int) - 1074).toNat = power - 1074 by omega,
      show 1074 - power = 0 by omega, Nat.pow_zero, Nat.div_one]
    rfl
  · rw [if_neg h, show (-((power : Int) - 1074)).toNat = 1074 - power by omega,
      show power - 1074 = 0 by omega, Nat.pow_zero, Nat.mul_one]
    rfl

/-- What truncation leaves of a finite number is whole: the number itself if it has no fraction, and otherwise a
natural number with the sign, made from the magnitude. -/
theorem isWhole_truncate {x : Float} {s : Sign} {negative edge : Bool} {power mantissa : Nat}
    (hx : Binary.ofFloat? x = some ⟨negative, mantissa, (power : Int) - 1074, edge⟩)
    (hs : negative = true ↔ s = .negative) (hlt : mantissa < 2 ^ 53)
    (hu : 1074 ≤ power → ∃ hpos, x.toModel.unpack = .finite s mantissa ((power : Int) - 1074) hpos) :
    IsWhole (truncate x).toModel.unpack s (wholeMagnitude power mantissa) := by
  unfold truncate
  rw [hx]
  dsimp only
  rw [Binary.floorMagnitude_eq]
  by_cases h : 0 ≤ (power : Int) - 1074
  · obtain ⟨hpos, hunpack⟩ := hu (by omega)
    rw [if_pos h, hunpack, wholeMagnitude_eq, show 1074 - power = 0 by omega, Nat.pow_zero, Nat.div_one]
    refine .finite s hpos ?_
    rw [Nat.mul_assoc, ← Nat.pow_add, Nat.sub_add_cancel (by omega)]
  · have hwhole : wholeMagnitude power mantissa < 2 ^ 53 := by
      rw [wholeMagnitude_eq, show power - 1074 = 0 by omega, Nat.pow_zero, Nat.mul_one]
      exact Nat.lt_of_le_of_lt (Nat.div_le_self _ _) hlt
    rw [if_neg h]
    cases s with
    | negative =>
      rw [if_pos (hs.mpr rfl)]
      exact isWhole_neg_ofNat hwhole
    | positive =>
      rw [if_neg (mt hs.mp nofun)]
      exact isWhole_ofNat hwhole

def clampInt64 (n : Int) : Int := max (-2 ^ 63) (min n (2 ^ 63 - 1))

/-- Whether a number is negative is told by its highest bit. -/
theorem isNegative_of_bits {x : Float} {s : Sign} {rest : Nat} (hbits : bitsOf x = s.toBitVec.toNat * 2 ^ 63 + rest)
    (hrest : rest < 2 ^ 63) :
    (isNegative x = true ↔ s = .negative) ∧ (isNegative x).toNat = s.toBitVec.toNat := by
  change ((bitsOf x / 2 ^ 63 == 1) = true ↔ _) ∧ (bitsOf x / 2 ^ 63 == 1).toNat = _
  cases s with
  | negative =>
    change _ = 1 * 2 ^ 63 + _ at hbits
    rw [show bitsOf x / 2 ^ 63 = 1 by omega]
    exact ⟨iff_of_true rfl rfl, rfl⟩
  | positive =>
    change _ = 0 * 2 ^ 63 + _ at hbits
    rw [show bitsOf x / 2 ^ 63 = 0 by omega]
    exact ⟨iff_of_false nofun nofun, rfl⟩

/-- A number is not a number at all, infinite, or has a whole part, which is what truncation leaves of it. -/
theorem whole_cases (x : Float) :
    (x.isNaN = true ∧ toInt64Clamped x = 0) ∨
      (∃ s, x.isNaN = false ∧ toInt64Clamped x = clampInt64 (s.apply (2 ^ 63)) ∧ truncate x = x ∧
        x.toModel.unpack = .infinity s) ∨
      ∃ s n, x.isNaN = false ∧ toInt64Clamped x = clampInt64 (s.apply n) ∧
        toNatClamped x = min (s.apply n).toNat (2 ^ 64 - 1) ∧ IsWhole (truncate x).toModel.unpack s n := by
  obtain ⟨s, rest, hbits, hrest, hcases⟩ := unpack_cases x
  have hinfinity : infinityBits = 2047 * 2 ^ 52 := rfl
  have hnegative := isNegative_of_bits hbits hrest
  have hnone (h : infinityBits ≤ rest) : Binary.ofFloat? x = none := by
    rw [Binary.ofFloat?_eq, if_pos (by omega)]
  -- Zero is taken for the mantissa zero with the least power.
  have hfinite {edge : Bool} {power mantissa : Nat} (hlt : mantissa < 2 ^ 53)
      (hx : Binary.ofFloat? x = some ⟨isNegative x, mantissa, (power : Int) - 1074, edge⟩)
      (hnan : x.isNaN = false)
      (hint : x.toModel.unpack.toInt 0 (2 ^ 64 - 1) = s.apply (wholeMagnitude power mantissa))
      (hu : 1074 ≤ power → ∃ hpos, x.toModel.unpack = .finite s mantissa ((power : Int) - 1074) hpos) :
      ∃ s n, x.isNaN = false ∧ toInt64Clamped x = clampInt64 (s.apply n) ∧
        toNatClamped x = min (s.apply n).toNat (2 ^ 64 - 1) ∧ IsWhole (truncate x).toModel.unpack s n := by
    refine ⟨s, wholeMagnitude power mantissa, hnan, ?_, hint ▸ toNatClamped_eq x,
      isWhole_truncate hx hnegative.1 hlt hu⟩
    unfold toInt64Clamped Binary.truncate
    rw [hx]
    dsimp only
    rw [Binary.floorMagnitude_eq]
    cases s with
    | negative => rw [if_pos (hnegative.1.mpr rfl)]; rfl
    | positive => rw [if_neg (mt hnegative.1.mp nofun)]; rfl
  obtain ⟨hr, hu⟩ | ⟨hr, hu⟩ | ⟨hr, hu⟩ | ⟨power, mantissa, hc, hr, hr', hu⟩ := hcases
  · left
    have hnan : x.isNaN = true := congrArg UnpackedFloat.isNaN hu
    refine ⟨hnan, ?_⟩
    unfold toInt64Clamped
    rw [hnone (Nat.le_of_lt hr)]
    exact if_pos hnan
  · right; left
    have hnan : x.isNaN = false := congrArg UnpackedFloat.isNaN hu
    have hx := hnone (Nat.le_of_eq hr.symm)
    refine ⟨s, hnan, ?_, ?_, hu⟩
    · unfold toInt64Clamped
      rw [hx]
      dsimp only
      rw [if_neg (Bool.eq_false_iff.mp hnan)]
      cases s with
      | negative => rw [if_pos (hnegative.1.mpr rfl)]; rfl
      | positive => rw [if_neg (mt hnegative.1.mp nofun)]; rfl
    · unfold truncate
      rw [hx]
  · right; right
    have hx : Binary.ofFloat? x = some ⟨isNegative x, 0, ((0 : Nat) : Int) - 1074, false⟩ := by
      rw [Binary.ofFloat?_eq, if_neg (by omega), if_pos (by omega), show bitsOf x % 2 ^ 52 = 0 by omega]
      rfl
    refine hfinite (by decide) hx (congrArg UnpackedFloat.isNaN hu) ?_ nofun
    rw [hu, wholeMagnitude, Nat.zero_mul, Nat.zero_div]
    cases s <;> rfl
  · right; right
    obtain ⟨edge, hx⟩ := Binary.ofFloat?_of_bits (isNegative x) hc (hr ▸ hr') (by
      rw [hnegative.2, ← hr]
      exact hbits)
    refine hfinite hc.lt hx (congrArg UnpackedFloat.isNaN hu) ?_ fun _ => ⟨hc.pos, hu⟩
    rw [hu]
    exact roundToInt_eq s power mantissa

end Snippet.Number

namespace Snippet.Script

open Clock Number Float.Model UnpackedFloat

def placeAt (n : Int) (length : Nat) : Nat := if n < 0 then (length + n).toNat else min n.toNat length

theorem placeAt_le (n : Int) (length : Nat) : placeAt n length ≤ length := by
  unfold placeAt
  split <;> omega

theorem placeAt_neg {n : Int} (h : n < 0) (length : Nat) : placeAt n length = (length + n).toNat := if_pos h

theorem placeAt_nonneg {n : Int} (h : 0 ≤ n) (length : Nat) : placeAt n length = min n.toNat length :=
  if_neg (Int.not_lt.mpr h)

/-- Clamping changes no place in a sequence. -/
theorem placeAt_clampInt64 (n : Int) {length : Nat} (h : length < 2 ^ 63) :
    placeAt (clampInt64 n) length = placeAt n length := by
  unfold clampInt64
  obtain hn | hn := Int.lt_or_le n 0
  · rw [placeAt_neg hn, placeAt_neg (by omega)]
    omega
  · rw [placeAt_nonneg hn, placeAt_nonneg (by omega)]
    omega

/-- A number that counts something counts no more than there is, and then it does not matter how far beyond that
the number is. -/
theorem min_countOf (x : Float) {length : Nat} (h : length < 2 ^ 63) :
    min (countOf x) length = min (toInt64Clamped x).toNat length := by
  unfold countOf
  obtain ⟨hnan, hclamped⟩ | ⟨s, hnan, hclamped, -, hu⟩ | ⟨s, n, hnan, hclamped, hcount, -⟩ := whole_cases x
  · rw [hnan, hclamped]
    rfl
  · rw [hnan, hclamped, if_neg Bool.false_ne_true, toNatClamped_eq, hu]
    cases s with
    | negative => rfl
    | positive =>
      change min (min ((2 : Int) ^ 64 - 1).toNat (2 ^ 64 - 1)) length =
        min (max (-2 ^ 63) (min (2 ^ 63) (2 ^ 63 - 1) : Int)).toNat length
      omega
  · rw [hnan, hclamped, if_neg Bool.false_ne_true, hcount]
    unfold clampInt64
    generalize s.apply n = k
    omega

/-- The place that a number denotes is that of its whole part. The length has to be a number itself, as any length
in a memory is. -/
theorem resolvePlace_some (x : Float) {length : Nat} (h : length < 2 ^ 53) (default : Nat) :
    resolvePlace (some x) length default = placeAt (toInt64Clamped x) length := by
  have hzero : ¬ (0.0 : Float) < 0.0 := by
    rw [lt_iff_compare, unpack_zero]
    exact nofun
  unfold resolvePlace
  dsimp only
  obtain ⟨hnan, hclamped⟩ | ⟨s, hnan, hclamped, htruncate, hu⟩ | ⟨s, n, hnan, hclamped, -, hwhole⟩ :=
    whole_cases x
  · rw [hnan, hclamped, if_pos rfl, if_neg hzero, toNatClamped_zero]
    rfl
  · rw [hnan, hclamped, if_neg Bool.false_ne_true, htruncate, placeAt_clampInt64 _ (by omega)]
    cases s with
    | negative =>
      have hlt : x < 0.0 := by
        rw [lt_iff_compare, unpack_zero, hu]
        rfl
      -- Whatever the length is, infinitely many places before its end lie before the beginning.
      have hsum : toNatClamped (Float.ofNat length + x) = 0 := by
        refine toNatClamped_eq_zero ?_
        rw [bitsOf_add, hu]
        refine le_bits_pack_of_isSigned ?_
        have hlength := isWhole_ofNat h
        generalize (Float.ofNat length).toModel.unpack = u at hlength
        cases hlength <;> rfl
      rw [if_pos hlt, hsum, placeAt_neg (by decide)]
      change 0 = ((length : Int) + -2 ^ 63).toNat
      omega
    | positive =>
      have hlt : ¬ x < 0.0 := by
        rw [lt_iff_compare, unpack_zero, hu]
        exact nofun
      rw [if_neg hlt, toNatClamped_eq, hu, placeAt_nonneg (by decide)]
      change min (min ((2 : Int) ^ 64 - 1).toNat (2 ^ 64 - 1)) length = min ((2 : Int) ^ 63).toNat length
      omega
  · rw [hnan, hclamped, if_neg Bool.false_ne_true, placeAt_clampInt64 _ (by omega)]
    by_cases hlt : truncate x < 0.0
    · obtain ⟨rfl, hn⟩ := hwhole.lt_zero_iff.mp hlt
      have hnegative : (Sign.negative).apply n = -(n : Int) := rfl
      rw [if_pos hlt, toNatClamped_ofNat_add h hn hwhole, hnegative, placeAt_neg (by omega)]
      omega
    · have hsigned : 0 ≤ s.apply n := by
        cases s with
        | negative =>
          have hn : ¬ 0 < n := fun hn => hlt (hwhole.lt_zero_iff.mpr ⟨rfl, hn⟩)
          change 0 ≤ -(n : Int)
          omega
        | positive => exact Int.natCast_nonneg n
      rw [if_neg hlt, toNatClamped_of_isWhole hwhole, placeAt_nonneg hsigned]
      generalize s.apply n = k
      omega

end Snippet.Script
