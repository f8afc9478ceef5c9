import ParserCombinators.Description.Basic
import ParserCombinators.Form

/-!
# The forms of described parsers

A parser is laid open down to its characters and texts. A box shows no more than the type of the
values that come out of it, and functions cannot be shown at all.

- `Description.valueType?`: the name of the type of the values
- `Description.form?`: the form, if there is no function to be shown
-/

namespace ParserCombinators

def Value.form? : Value → Option Form
  | .unit => some (.word "()")
  | .bool b => some (.word (if b then "true" else "false"))
  | .char c => some (.char c)
  | .str text => some (.text text)
  | .int n => some (.number n.toInt)
  | _ => none

def Value.typeName? : Value → Option String
  | .unit => some "()"
  | .bool _ => some "bool"
  | .char _ => some "char"
  | .str _ => some "alloc::string::String"
  | .int _ => some "i64"
  | _ => none

namespace Description

/-- The name of the type of the values of a parser. -/
def valueType? : Description → Option String
  | .ok | .endOfInput | .notFollowedBy _ | .blanks => some "()"
  | .like _ | .char _ | .oneOf _ | .any | .mustRead | .digit | .vowel => some "char"
  | .str _ | .digits | .identifier => some "alloc::string::String"
  | .integer | .position | .expression => some "i64"
  | .succeed value | .succeedWith _ value => value.typeName?
  | .or left _ => left.valueType?
  | .named _ item | .boxed item | .deferred _ item | .look item | .probe _ item | .token item =>
    item.valueType?
  | _ => none

def charForm (c : Char) : Form :=
  .fields "Char" [("ch", .char c)]

def seqForm (forms : List Form) : Form :=
  .fields "Seq" [("parsers", .list forms)]

mutual

/-- The form of a parser without functions. -/
def form? : Description → Option Form
  | .ok => some (.word "Epsilon")
  | .endOfInput => some (.word "End")
  | .char c => some (charForm c)
  | .oneOf set => some (.fields "OneOf" [("set", .text set)])
  | .str text =>
    some (.fields "Str" [("text", .text text), ("chars", seqForm (text.toList.map charForm))])
  | .succeed value => value.form?.map fun form => .fields "Succeed" [("value", form)]
  | .seq items => (forms? items).map seqForm
  | .or left right => do
    let l ← left.form?
    let r ← right.form?
    pure (.fields "Or" [("left", l), ("right", r)])
  | .star item => item.form?.map fun form => .fields "Star" [("p", form)]
  | .plus item => item.form?.map fun form => .fields "Plus" [("p", form)]
  | .option item => item.form?.map fun form => .fields "Optional" [("p", form)]
  | .named label item =>
    item.form?.map fun form => .fields "Named" [("label", .text label), ("p", form)]
  | .boxed item => item.valueType?.map fun name => .word ("BoxedParser<" ++ name ++ ">")
  | _ => none

def forms? : List Description → Option (List Form)
  | [] => some []
  | d :: ds => do
    let form ← d.form?
    let forms ← forms? ds
    pure (form :: forms)

end

end Description

end ParserCombinators
