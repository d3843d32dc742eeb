import LoopDiff.Text.Printable

/-!
# LoopDiff.Text.Quoted

Text in double quotes, for listings that people read.

A quote and a backslash are preceded by a backslash.  Line ends, tabs and
the null character have a letter of their own, and every other character
that is not printable is given by its code point in hexadecimal.
-/

namespace LoopDiff

namespace Quoted

/-- A code point in lower-case hexadecimal. -/
def hex (n : Nat) : List Char := Nat.toDigits 16 n

/-- One character as it is written between quotes. -/
def escape (c : Char) : List Char :=
  match c with
  | '"' => ['\\', '"']
  | '\\' => ['\\', '\\']
  | '\n' => ['\\', 'n']
  | '\r' => ['\\', 'r']
  | '\t' => ['\\', 't']
  | c =>
    if c.toNat = 0 then ['\\', '0']
    else if printable c then [c]
    else ['\\', 'u', '\x7b'] ++ hex c.toNat ++ ['\x7d']

end Quoted

/-- A text in double quotes. -/
def quoted (text : String) : String :=
  String.ofList ('"' :: text.toList.flatMap Quoted.escape ++ ['"'])

end LoopDiff
