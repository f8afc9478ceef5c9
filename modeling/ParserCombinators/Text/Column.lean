import ParserCombinators.Text.Blank
import ParserCombinators.Text.Bytes
import ParserCombinators.Text.Escape

/-!
# The input column

A trace line starts with the text that is still unread, cut and escaped to a fixed width and put
between bars, so that the lines of a trace stay aligned.

- `Text.dropEscape`: takes the backslash away before one kind of quote
- `Text.column`: the column of a text
-/

namespace ParserCombinators

namespace Text

/-- Every `\q` becomes `q`, for the one character `q`, from left to right. -/
def dropEscape (q : Char) : List Char → List Char
  | [] => []
  | [c] => [c]
  | c :: d :: rest =>
    if c = '\\' ∧ d = q then q :: dropEscape q rest else c :: dropEscape q (d :: rest)

def columnWidth : Nat := 33

/-- What a column shows of a text between its bars: the start of the text, escaped, with quotes
as they are, cut once more. -/
def columnText (text : List Char) : List Char :=
  (dropEscape '\x27' (dropEscape '"' ((text.take columnWidth).flatMap escape))).take columnWidth

/-- The column of a text: its start between bars, filled up with spaces to a fixed width. -/
def column (text : List Char) : List Char :=
  padRight (columnWidth + 2) ('|' :: columnText text ++ ['|'])

end Text

end ParserCombinators
