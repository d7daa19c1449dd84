/-!
Blank characters (the Unicode property `White_Space`) and the removal of blanks at the ends of a
text.
-/

namespace Snippet.Text

def isBlank (c : Char) : Bool :=
  -- A character of the Unicode property `White_Space`.
  let n := c.toNat
  (9 ≤ n && n ≤ 13) || n == 0x20 || n == 0x85 || n == 0xA0 || n == 0x1680
    || (0x2000 ≤ n && n ≤ 0x200A) || n == 0x2028 || n == 0x2029 || n == 0x202F || n == 0x205F
    || n == 0x3000

def dropEndWhile (p : Char → Bool) (s : List Char) : List Char :=
  -- The text without what satisfies `p` at its end.
  (s.reverse.dropWhile p).reverse

def trimStart (s : List Char) : List Char := s.dropWhile isBlank

def trimEnd (s : List Char) : List Char := dropEndWhile isBlank s

def trim (s : List Char) : List Char := trimEnd (trimStart s)

def isBlankText (s : List Char) : Bool := s.all isBlank

end Snippet.Text
