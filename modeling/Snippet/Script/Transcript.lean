/-!
The transcript of a run: everything printed and every line read, in order. It is cut off once when it
would grow beyond a limit.
-/

namespace Snippet.Script

structure Transcript where
  text : String := ""
  /-- The transcript has been cut off and takes nothing more. -/
  truncated : Bool := false
deriving Repr, DecidableEq

namespace Transcript

def limit : Nat := 1048576

def notice : String := "... output truncated\n"

def push (t : Transcript) (text : String) : Transcript :=
  if t.truncated then t
  else if limit < t.text.utf8ByteSize + text.utf8ByteSize then
    { text := t.text ++ notice, truncated := true }
  else { t with text := t.text ++ text }

def pushLine (t : Transcript) (line : String) : Transcript := (t.push line).push "\n"

end Transcript

end Snippet.Script
