/-!
The random numbers of a run: the same sequence in every run, from a state of 64 bits that three shifts
mix.
-/

namespace Snippet.Script

structure Random where
  state : UInt64 := 0x2545f4914f6cdd1d
deriving Repr, DecidableEq

namespace Random

def mix (x : UInt64) : UInt64 :=
  let x := x ^^^ (x >>> 12)
  let x := x ^^^ (x <<< 25)
  x ^^^ (x >>> 27)

def bits (x : UInt64) : UInt64 := (x * 0x2545f4914f6cdd1d) >>> 11

def next (r : Random) : Float × Random :=
  let state := mix r.state
  ((bits state).toFloat / 9007199254740992.0, ⟨state⟩)

end Random

end Snippet.Script
