import ParserCombinators.Text.Escape
import ParserCombinators.Text.Unprintable

/-!
# Quoted characters and texts

A character is written between single quotes and a text between double quotes. The quote in use,
the backslash and the common controls get a backslash; what cannot be shown is written by its code
point.

- `Text.spell`: one character inside a given kind of quote
- `Text.quotedChar`, `Text.quoted`: the whole
-/

namespace ParserCombinators

namespace Text

/-- The spelling of one character between two `quote`s. -/
def spell (quote c : Char) : List Char :=
  if c = '\x00' then ['\\', '0']
  else if c = '\t' then ['\\', 't']
  else if c = '\r' then ['\\', 'r']
  else if c = '\n' then ['\\', 'n']
  else if c = '\\' ∨ c = quote then ['\\', c]
  else if isUnprintable c then codePointEscape c
  else [c]

def quotedChar (c : Char) : List Char :=
  '\x27' :: spell '\x27' c ++ ['\x27']

def quoted (text : String) : List Char :=
  '"' :: text.toList.flatMap (spell '"') ++ ['"']

end Text

end ParserCombinators
