import Mathlib.Algebra.Ring.Nat
import Snippet.Proofs.Timeout
import Snippet.Proofs.WholeNumber

/-!
The generator of random numbers goes on for ever. Each of the three steps that mix its state adds the state to a
shifted copy of itself, which can be undone, so only zero becomes zero. A number that is drawn is a fraction
of `2 ^ 53` with a numerator below that, and nothing else that a run does moves the generator on.
-/

namespace Snippet.Script

open Clock

/-- A floating number is exactly `n / 2 ^ 53`, and from zero on below one. -/
structure IsUnitFraction (x : Float) (n : Nat) : Prop where
  exact : ∃ b, Number.Binary.ofFloat? x = some b ∧ b.negative = false ∧
    b.quotient.1 * 2 ^ 53 = n * b.quotient.2
  nonneg : 0.0 ≤ x
  lt_one : x < 1.0

theorem isUnitFraction_zero : IsUnitFraction 0.0 0 := by
  have hexact : Number.Binary.ofFloat? 0.0 = some ⟨false, 0, -1074, false⟩ := by decide +kernel
  refine ⟨⟨_, hexact, rfl, ?_⟩, by decide +kernel, by decide +kernel⟩
  exact (Nat.zero_mul _).trans (Nat.zero_mul _).symm

/-- A number whose bits are those of `n / 2 ^ 53`, with the mantissa shifted to its full width. -/
theorem isUnitFraction_of_bits {n : Nat} (hpos : 0 < n) (hlt : n < 2 ^ 53) {x : Float}
    (hbits : bitsOf x = (969 + n.log2) * 2 ^ 52 + n * 2 ^ (52 - n.log2)) : IsUnitFraction x n := by
  have hlog := log2_le_of_lt hpos hlt
  obtain ⟨hlow, hhigh⟩ := mantissa_bounds hpos hlt
  have hfinite : (969 + n.log2) * 2 ^ 52 + n * 2 ^ (52 - n.log2) < infinityBits := by
    unfold infinityBits
    omega
  have htime : IsTime x := Nat.le_of_lt (hbits ▸ hfinite)
  refine ⟨?_, ?_, ?_⟩
  · have hcanonical : IsCanonical (969 + n.log2) (n * 2 ^ (52 - n.log2)) :=
      ⟨by omega, hhigh, Or.inr hlow⟩
    have hsigned : bitsOf x =
        false.toNat * 2 ^ 63 + ((969 + n.log2) * 2 ^ 52 + n * 2 ^ (52 - n.log2)) := by
      rw [hbits, Bool.toNat_false, Nat.zero_mul, Nat.zero_add]
    obtain ⟨edge, hexact⟩ := Number.Binary.ofFloat?_of_bits false hcanonical hfinite hsigned
    refine ⟨_, hexact, rfl, ?_⟩
    -- The mantissa is shifted by as much more than the exponent of `2 ^ 53` as it is wider than `n`.
    have hexponent : (-(((969 + n.log2 : Nat) : Int) - 1074)).toNat = 52 - n.log2 + 53 := by omega
    unfold Number.Binary.quotient
    dsimp only
    rw [if_neg (by omega), hexponent]
    change n * 2 ^ (52 - n.log2) * 2 ^ 53 = n * 2 ^ (52 - n.log2 + 53)
    rw [Nat.mul_assoc, ← Nat.pow_add]
  · rw [isTime_zero.le_iff htime, bitsOf_zero]
    exact Nat.zero_le _
  · rw [htime.lt_iff isTime_one, bitsOf_one, hbits]
    omega

/-- A word below `2 ^ 53` is divided by this power without being rounded. -/
theorem isUnitFraction_div {n : Nat} (hlt : n < 2 ^ 53) :
    IsUnitFraction ((UInt64.ofNat n).toFloat / 9007199254740992.0) n := by
  obtain rfl | hpos := Nat.eq_zero_or_pos n
  · have hzero : (UInt64.ofNat 0).toFloat / 9007199254740992.0 = 0.0 :=
      bitsOf_injective (by decide +kernel)
    rw [hzero]
    exact isUnitFraction_zero
  · exact isUnitFraction_of_bits hpos hlt (bitsOf_fraction hpos hlt)

section Words

variable {w k : Nat}

/-- What is added to a word can be found from the sum if it is found from the word by a function that respects
sums and leaves no word but zero as it is. -/
theorem injective_add_image {f : BitVec w → BitVec w} (hadd : ∀ x y, f (x ^^^ y) = f x ^^^ f y)
    (hmoves : ∀ x, f x = x → x = 0#w) : Function.Injective fun x => x ^^^ f x := by
  intro x y (hsum : x ^^^ f x = y ^^^ f y)
  have himage : f x = x ^^^ (y ^^^ f y) := by
    rw [← hsum, ← BitVec.xor_assoc, BitVec.xor_self, BitVec.zero_xor]
  have hfixed : f (x ^^^ y) = x ^^^ y := by
    rw [hadd, himage, BitVec.xor_assoc, BitVec.xor_assoc, BitVec.xor_self, BitVec.xor_zero]
  exact BitVec.xor_eq_zero_iff.mp (hmoves _ hfixed)

/-- Xor with its own shift to the right loses nothing of a word. -/
theorem injective_add_shiftRight (hk : 0 < k) :
    Function.Injective fun x : BitVec w => x ^^^ x >>> k := by
  refine injective_add_image (fun x y => BitVec.ushiftRight_xor_distrib x y k) fun x hx => ?_
  have hquotient : x.toNat / 2 ^ k = x.toNat := by
    rw [← Nat.shiftRight_eq_div_pow, ← BitVec.toNat_ushiftRight, hx]
  have htwo : 2 ≤ 2 ^ k := Nat.le_self_pow (Nat.ne_of_gt hk) 2
  obtain hzero | hpos := Nat.eq_zero_or_pos x.toNat
  · exact BitVec.toNat_inj.mp (hzero.trans BitVec.toNat_zero.symm)
  · exact absurd hquotient (Nat.ne_of_lt (Nat.div_lt_self hpos htwo))

/-- Xor with its own shift to the left loses nothing of a word. -/
theorem injective_add_shiftLeft (hk : 0 < k) :
    Function.Injective fun x : BitVec w => x ^^^ x <<< k := by
  refine injective_add_image (fun x y => BitVec.shiftLeft_xor_distrib x y k) fun x hx => ?_
  -- A bit is the one `k` places below it, and there is none below the lowest ones.
  have hbits (i : Nat) : x.getLsbD i = false := by
    induction i using Nat.strong_induction_on with
    | _ i ih =>
      rw [← hx, BitVec.getLsbD_shiftLeft]
      by_cases hi : i < k
      · rw [decide_eq_true hi, Bool.not_true, Bool.and_false, Bool.false_and]
      · rw [ih (i - k) (by omega), Bool.and_false]
  exact BitVec.eq_of_getLsbD_eq fun i _ => (hbits i).trans BitVec.getLsbD_zero.symm

end Words

namespace Random

theorem mix_toBitVec (x : UInt64) :
    (mix x).toBitVec =
      ((fun x : BitVec 64 => x ^^^ x >>> 27) ∘ (fun x : BitVec 64 => x ^^^ x <<< 25) ∘
        fun x : BitVec 64 => x ^^^ x >>> 12) x.toBitVec := rfl

/-- Mixing loses nothing: each of its steps can be undone. -/
theorem mix_injective : Function.Injective mix := by
  intro x y h
  have hwords := congrArg UInt64.toBitVec h
  rw [mix_toBitVec, mix_toBitVec] at hwords
  have hsteps := (injective_add_shiftRight (w := 64) (k := 27) (by decide)).comp
    ((injective_add_shiftLeft (k := 25) (by decide)).comp
      (injective_add_shiftRight (k := 12) (by decide)))
  exact UInt64.toBitVec_inj.mp (hsteps hwords)

theorem mix_eq_zero_iff (x : UInt64) : mix x = 0 ↔ x = 0 := by
  have hzero : mix 0 = 0 := rfl
  constructor
  · exact fun h => mix_injective (h.trans hzero.symm)
  · rintro rfl
    exact hzero

theorem bits_lt (x : UInt64) : (bits x).toNat < 2 ^ 53 := by
  have hproduct := (x * 0x2545f4914f6cdd1d).toNat_lt
  change ((x * 0x2545f4914f6cdd1d) >>> 11).toNat < 2 ^ 53
  rw [UInt64.toNat_shiftRight, Nat.shiftRight_eq_div_pow]
  change _ / 2 ^ 11 < 2 ^ 53
  omega

theorem isUnitFraction_next (r : Random) : IsUnitFraction r.next.1 (bits (mix r.state)).toNat := by
  have hfraction := isUnitFraction_div (bits_lt (mix r.state))
  rwa [UInt64.ofNat_toNat] at hfraction

/-- The generator after `n` numbers have been drawn. -/
def after (r : Random) : Nat → Random
  | 0 => r
  | n + 1 => r.next.2.after n

theorem after_add (r : Random) (n n' : Nat) : (r.after n).after n' = r.after (n + n') := by
  induction n generalizing r with
  | zero => rw [Nat.zero_add]; rfl
  | succ n ih =>
    rw [Nat.succ_add]
    exact ih r.next.2

/-- A state that is not zero never becomes zero, by induction on the numbers that are drawn. -/
theorem state_after_ne_zero {r : Random} (h : r.state ≠ 0) (n : Nat) : (r.after n).state ≠ 0 := by
  induction n generalizing r with
  | zero => exact h
  | succ n ih =>
    have hnext : r.next.2.state ≠ 0 := mt (mix_eq_zero_iff r.state).mp h
    exact ih hnext

end Random

def Command.isDraw : Command → Bool
  | .draw => true
  | _ => false

def drawCount (history : List Command) : Nat := (history.filter Command.isDraw).length

namespace Outside

theorem after_random (o : Outside) (c : Command) : (o.after c).random = o.random.after (drawCount [c]) := by
  cases c with
  | prompt =>
    change o.afterPrompt.random = o.random
    unfold afterPrompt
    split <;> rfl
  | _ => rfl

/-- What a history leaves of the generator is how many numbers it draws. -/
theorem run_random (o : Outside) (history : List Command) :
    (o.run history).random = o.random.after (drawCount history) := by
  induction history generalizing o with
  | nil => rfl
  | cons c history ih =>
    have hcount : drawCount (c :: history) = drawCount [c] + drawCount history := by
      rw [← List.singleton_append, drawCount, List.filter_append, List.length_append]
      rfl
    rw [run_cons, ih, after_random, Random.after_add, hcount]

end Outside

/-- The generator never gets stuck. No two states have the same successor and only zero comes from zero. What
`Math.random` returns, wherever it is called, is the fraction of `2 ^ 53` that the next state gives, of which the
numerator is below `2 ^ 53`. With more and more checkpoints a run goes on along one history, and after any part of
it the state is the one that as many drawn numbers lead to, which is not zero. -/
theorem generator_never_gets_stuck :
    Function.Injective Random.mix ∧ (∀ x, Random.mix x = 0 ↔ x = 0) ∧
      (∀ x, (Random.bits x).toNat < 2 ^ 53) ∧
      (∀ call arguments (m : Machine), ∃ x m',
        Run.callBuiltin call .random arguments m = .ok (.number x) m' ∧
          m'.random.state = Random.mix m.random.state ∧
          IsUnitFraction x (Random.bits m'.random.state).toNat) ∧
      ∀ statements stdin, ∃ history : Nat → List Command, (∀ n, history n <+: history (n + 1)) ∧
        ∀ n, (finalState (Run.program statements (Machine.start stdin n))).outside =
            (Machine.start stdin n).outside.run (history n) ∧
          ∀ past, past <+: history n →
            ((Machine.start stdin n).outside.run past).random = Random.after {} (drawCount past) ∧
              ((Machine.start stdin n).outside.run past).random.state ≠ 0 := by
  refine ⟨Random.mix_injective, Random.mix_eq_zero_iff, Random.bits_lt, fun call arguments m => ?_,
    fun statements stdin => ?_⟩
  · exact ⟨_, _, rfl, rfl, m.random.isUnitFraction_next⟩
  · obtain ⟨history, hgrows, hhistory⟩ := program_history statements stdin
    refine ⟨history, hgrows, fun n => ⟨hhistory n, fun past _ => ?_⟩⟩
    have hrandom : ((Machine.start stdin n).outside.run past).random = Random.after {} (drawCount past) :=
      Outside.run_random _ past
    refine ⟨hrandom, ?_⟩
    rw [hrandom]
    exact Random.state_after_ne_zero (by decide) _

end Snippet.Script
