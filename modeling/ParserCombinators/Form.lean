import ParserCombinators.Outcome
import ParserCombinators.Text.Quoted

/-!
# Forms — values laid open

A form is the structure of a value as it is printed for inspection: a name, a literal, a list, or a
name with labelled fields.

- `Form`, `Form.render`: the structure and its text
- `Cursor.form`, `CursorError.form`, `NoMatch.form`, `Outcome.form`: the forms of results
-/

namespace ParserCombinators

inductive Form where
  | word (name : String)
  | char (c : Char)
  | text (s : String)
  | number (n : Int)
  | list (items : List Form)
  /-- A name and fields, each with its own label. -/
  | fields (name : String) (members : List (String × Form))

namespace Form

/-- Parts with a comma and a space between each two. -/
def commaSeparated : List (List Char) → List Char
  | [] => []
  | [part] => part
  | part :: parts => part ++ ", ".toList ++ commaSeparated parts

mutual

def chars : Form → List Char
  | .word name => name.toList
  | .char c => Text.quotedChar c
  | .text s => Text.quoted s
  | .number n => (toString n).toList
  | .list items => '[' :: commaSeparated (itemChars items) ++ [']']
  | .fields name members =>
    name.toList ++ " \x7b ".toList ++ commaSeparated (memberChars members) ++ " \x7d".toList

def itemChars : List Form → List (List Char)
  | [] => []
  | item :: items => item.chars :: itemChars items

def memberChars : List (String × Form) → List (List Char)
  | [] => []
  | (label, form) :: members => (label.toList ++ ": ".toList ++ form.chars) :: memberChars members

end

def render (form : Form) : String :=
  String.ofList form.chars

end Form

/-! ## Results -/

def Cursor.form (c : Cursor) : Form :=
  .fields "Cursor" [("input", .text c.input), ("offset", .number c.offset)]

def CursorError.form : CursorError → Form
  | .readPastEnd offset => .fields "ReadPastEnd" [("offset", .number offset)]

def NoMatch.form : NoMatch → Form
  | .noMatch => .word "NoMatch"

def Outcome.form {α : Type} (formOf : α → Form) : Outcome α → Form
  | .failure => .word "Failure"
  | .success cursor value => .fields "Success" [("cursor", cursor.form), ("value", formOf value)]

end ParserCombinators
