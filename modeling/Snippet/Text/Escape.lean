/-!
Backslash escapes inside the quoted literals of common languages.
-/

namespace Snippet.Text

def unescapeAfter (done : List Char) : List Char → List Char
  -- The text that the inside of a quoted literal stands for, after `done`, which is reversed. A
  -- backslash in front of any other character stands for itself.
  | [] => done.reverse
  | ['\\'] => ('\\' :: done).reverse
  | '\\' :: e :: rest =>
    if e == 'n' then unescapeAfter ('\n' :: done) rest
    else if e == 't' then unescapeAfter ('\t' :: done) rest
    else if e == 'r' then unescapeAfter ('\r' :: done) rest
    else if e == '0' then unescapeAfter (Char.ofNat 0 :: done) rest
    else if e == '"' || e == '\'' || e == '\\' then unescapeAfter (e :: done) rest
    else unescapeAfter (e :: '\\' :: done) rest
  | c :: rest => unescapeAfter (c :: done) rest

def unescape (body : List Char) : List Char := unescapeAfter [] body

def dropNewline (s : List Char) : List Char :=
  match s.reverse with
  | '\n' :: rest => rest.reverse
  | _ => s

def asRecord (s : List Char) : List Char := dropNewline s ++ ['\n']

def byteSize (s : List Char) : Nat := s.foldl (fun n c => n + c.utf8Size) 0

end Snippet.Text
