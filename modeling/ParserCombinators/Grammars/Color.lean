import ParserCombinators.Parser.Derived

/-!
# Colours by name

A closed list of names, tried in order. A name that another one starts with has to come after it,
since the first name that matches is taken.

- `Color.anyOf`, `Color.byName`: the first name of a list, and what it stands for
- `Color`: the colours, with `Color.name` and `Color.ofName?`
- `Color.parser`: a name, as a colour
-/

namespace ParserCombinators

inductive Color where
  | burgundy
  | azure
  | lime
  deriving DecidableEq, Repr

namespace Color

/-- All colours, in the order in which their names are tried. -/
def all : List Color :=
  [.burgundy, .azure, .lime]

def name : Color → String
  | .burgundy => "Burgundy"
  | .azure => "Azure"
  | .lime => "Lime"

def ofName? (text : String) : Option Color :=
  all.find? fun color => color.name == text

/-- `ofName?` inverts `name`; this is what `byName` relies on. -/
theorem ofName?_name (color : Color) : ofName? color.name = some color := by
  cases color <;> decide

variable {R : Type → Type} {α : Type}

/-- The first of the names that the text starts with. -/
def anyOf (names : List String) : Parser R String :=
  .firstOf (names.map .str)

/-- One of some variants, by its name: `ofName?` has to tell again what a name stands for. -/
def byName (variants : List α) (name : α → String) (ofName? : String → Option α) : Parser R α := do
  let text ← anyOf (variants.map name)
  Parser.ofOption (ofName? text)

def parser : Parser R Color :=
  byName all name ofName?

end Color

end ParserCombinators
