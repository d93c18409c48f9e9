/-! # White space and quoted text

The characters with the Unicode property `White_Space`, and how a text is shown between double
quotes in a log line.
-/

namespace Formulary

/-! ## White space -/

/-- The twenty-five code points of the property, six of them ASCII, as first and last code point of
each block. -/
def blankRanges : List (Nat × Nat) :=
  [(0x09, 0x0D), (0x20, 0x20), (0x85, 0x85), (0xA0, 0xA0), (0x1680, 0x1680), (0x2000, 0x200A),
    (0x2028, 0x2029), (0x202F, 0x202F), (0x205F, 0x205F), (0x3000, 0x3000)]

/-- Is `c` white space? -/
def isBlank (c : Char) : Bool :=
  blankRanges.any fun r => r.1 ≤ c.toNat && c.toNat ≤ r.2

/-! ## Quoted text

Within ASCII the quote and the backslash are escaped, tab, line feed, carriage return and the null
character have short escapes, and the other control characters are written as their code point in
hexadecimal.  Beyond ASCII, characters that cannot be printed and characters that combine with the
one in front of them would have to be escaped as well.  Their Unicode tables are not part of this
library, so quoted texts are to be ASCII: every other character is kept as it is.
-/

namespace Quoted

/-- One ASCII character, escaped where it has to be; any other character as it is. -/
def escape (c : Char) : List Char :=
  if c = '"' then ['\\', '"']
  else if c = '\\' then ['\\', '\\']
  else if c = '\t' then ['\\', 't']
  else if c = '\n' then ['\\', 'n']
  else if c = '\r' then ['\\', 'r']
  else if c.toNat = 0 then ['\\', '0']
  else if c.toNat < 0x20 || c.toNat = 0x7F then
    ['\\', 'u', '\x7b'] ++ Nat.toDigits 16 c.toNat ++ ['\x7d']
  else [c]

/-- The text between quotes. -/
def encode (s : String) : String :=
  String.ofList ('"' :: s.toList.flatMap escape ++ ['"'])

end Quoted

end Formulary
