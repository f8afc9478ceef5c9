import ParserCombinators.Parser.Basic

/-!
# Derived parsers

Parsers that are written with the others, or as functions of the cursor. The latter write no records
of their own.

- `Parser.satisfy`: a character that a pure predicate accepts
- `Parser.fail`, `Parser.ofOption`: no match, and a match if there is a value
- `Parser.any`, `Parser.mustRead`, `Parser.position`: the next character, the place
- `Parser.look`, `Parser.notFollowedBy`: looking ahead without reading
- `Parser.firstOf`: a choice that leaves no record
- `Parser.probe`: a parser whose runs are announced
-/

namespace ParserCombinators

namespace Parser

variable {R : Type → Type} {α β : Type}

def satisfy (accepts : Char → Bool) : Parser R Char :=
  .like fun c => pure (accepts c)

def fail : Parser R α :=
  .closure fun _ => pure .failure

def ofOption : Option α → Parser R α
  | none => fail
  | some v => .succeed v

def any : Parser R Char :=
  .closure fun c =>
    match c.read with
    | .error _ => pure .failure
    | .ok (ch, next) => pure (.success next ch)

/-- The next character; at the end of the text the run is cut short. -/
def mustRead : Parser R Char :=
  .closure fun c =>
    match c.read with
    | .error error => Callback.raise (.cursor error)
    | .ok (ch, next) => pure (.success next ch)

def position : Parser R Nat :=
  .closure fun c => pure (.success c c.offset)

/-- Where a parser that runs another goes on: after the match, or where it started. -/
def resumeAfter (c : Cursor) : Outcome α → Cursor × Option α
  | .failure => (c, none)
  | .success next v => (next, some v)

/-- The value of `p`, from the place where `p` starts. -/
def look (p : Parser R α) : Parser R α :=
  .inspect p (fun c outcome => pure (c, outcome.value?)) ofOption

/-- Matches, without reading, where `p` fails. -/
def notFollowedBy (p : Parser R α) : Parser R Unit :=
  .inspect p (fun c outcome => pure (c, outcome.isFailure)) fun failed =>
    if failed then .succeed () else fail

def firstOf : List (Parser R α) → Parser R α
  | [] => fail
  | p :: ps =>
    .inspect p (fun c outcome => pure (resumeAfter c outcome)) fun
      | some v => .succeed v
      | none => firstOf ps

/-- Announces, under a name, where `p` starts and what comes of it. -/
def probe (name : String) (p : Parser R α) : Parser R α :=
  .chain
    (.closure fun c => do
      Callback.announce ("enter:" ++ name ++ "@" ++ toString c.offset)
      pure (.success c ()))
    (fun _ => pure ())
    fun _ => .inspect p
      (fun c outcome => do
        match outcome with
        | .failure => Callback.announce ("fail:" ++ name)
        | .success next _ => Callback.announce ("match:" ++ name ++ "@" ++ toString next.offset)
        pure (resumeAfter c outcome))
      ofOption

end Parser

end ParserCombinators
