import Snippet.Number.Notation

/-!
The time budget of a run. A run is never interrupted from outside: it passes checkpoints, and the
budget says how many of them succeed.
-/

namespace Snippet

structure Budget where
  nanoseconds : Nat
deriving Repr, DecidableEq

namespace Budget

def ofMilliseconds (n : Nat) : Budget := ⟨n * 1000000⟩

def checkpoints (b : Budget) : Nat := b.nanoseconds / 1000

def seconds (b : Budget) : Float :=
  Float.ofNat (b.nanoseconds / 1000000000) + Float.ofNat (b.nanoseconds % 1000000000) / 1e9

def timeoutMessage (b : Budget) : String :=
  let seconds := b.seconds
  let amount :=
    if Number.isWhole seconds then Number.digits (Number.toNatClamped seconds)
    else Number.fixed 3 seconds
  s!"Execution timed out after {String.ofList amount} seconds"

end Budget

end Snippet
