/-!
# Escapes

How a character is spelled in a line that has to stay printable ASCII.

- `Text.hex`: lower-case hexadecimal digits
- `Text.codePointEscape`: the `\u{…}` spelling of any character
- `Text.escape`: the spelling used by the input column: tabulator, line breaks, quotes and the
  backslash by a letter, printable ASCII as it is, all else by code point
-/

namespace ParserCombinators

namespace Text

/-- The lower-case hexadecimal digits of a number, without leading zeros. -/
def hex (n : Nat) : List Char :=
  Nat.toDigits 16 n

def codePointEscape (c : Char) : List Char :=
  ['\\', 'u', '\x7b'] ++ hex c.toNat ++ ['\x7d']

def isPrintableAscii (c : Char) : Bool :=
  0x20 ≤ c.toNat && c.toNat ≤ 0x7e

/-- The spelling of a character in printable ASCII. -/
def escape (c : Char) : List Char :=
  if c = '\t' then ['\\', 't']
  else if c = '\r' then ['\\', 'r']
  else if c = '\n' then ['\\', 'n']
  else if c = '\x27' then ['\\', '\x27']
  else if c = '"' then ['\\', '"']
  else if c = '\\' then ['\\', '\\']
  else if isPrintableAscii c then [c]
  else codePointEscape c

end Text

end ParserCombinators
