import ParserCombinators.Cursor
import ParserCombinators.Decimal.Integer

/-!
# Callbacks — calls of functions that a user supplies

Predicates, mapped functions, factories and hand-written parsers come from outside. A call of one
may announce events, in order, and ends with a value or with a fault that stops the whole run.

- `Fault`: why a call stopped the run, with its `message`
- `Callback`: the events of a call and how it ended; a monad
- `Callback.announce`, `Callback.raise`: the two effects
- `Callback.add`, `Callback.mul`: sums and products that fault on leaving the signed 64-bit range
-/

namespace ParserCombinators

inductive Fault where
  /-- It gave up with a message of its own. -/
  | raised (message : String)
  /-- A sum left the signed 64-bit range. -/
  | addOverflow
  /-- A product left the signed 64-bit range. -/
  | mulOverflow
  /-- It insisted on a character that was not there. -/
  | cursor (error : CursorError)
  deriving DecidableEq, Repr

def Fault.message : Fault → String
  | .raised message => message
  | .addOverflow => "attempt to add with overflow"
  | .mulOverflow => "attempt to multiply with overflow"
  | .cursor error => error.message

/-- A call of a user's function: the events it announced and how it ended. -/
structure Callback (α : Type) where
  events : List String
  result : Except Fault α

namespace Callback

variable {α β : Type}

/-- A call without effects. -/
protected def pure (a : α) : Callback α where
  events := []
  result := .ok a

/-- One call after another; a fault in the first leaves out the second. -/
protected def bind (x : Callback α) (f : α → Callback β) : Callback β :=
  match x with
  | ⟨events, .error fault⟩ => ⟨events, .error fault⟩
  | ⟨events, .ok a⟩ =>
    match f a with
    | ⟨later, result⟩ => ⟨events ++ later, result⟩

instance : Monad Callback where
  pure := Callback.pure
  bind := Callback.bind

/-- Right identity. The fields `events` and `result` are split, since a fault keeps its events. -/
protected theorem bind_pure (x : Callback α) : x.bind Callback.pure = x := by
  rcases x with ⟨_, _ | _⟩ <;> simp [Callback.bind, Callback.pure]

protected theorem pure_bind (a : α) (f : α → Callback β) : (Callback.pure a).bind f = f a := rfl

/-- Associativity: the events of three calls are appended, up to the first fault. -/
protected theorem bind_assoc {γ : Type} (x : Callback α) (f : α → Callback β)
    (g : β → Callback γ) : (x.bind f).bind g = x.bind fun a => (f a).bind g := by
  rcases x with ⟨_, _ | a⟩
  · rfl
  · simp only [Callback.bind]
    rcases f a with ⟨_, _ | _⟩ <;> simp

instance : LawfulMonad Callback :=
  LawfulMonad.mk' Callback Callback.bind_pure Callback.pure_bind Callback.bind_assoc

def announce (event : String) : Callback Unit where
  events := [event]
  result := .ok ()

def raise (fault : Fault) : Callback α where
  events := []
  result := .error fault

def add (a b : Int64) : Callback Int64 :=
  match Decimal.add? a b with
  | some n => pure n
  | none => raise .addOverflow

def mul (a b : Int64) : Callback Int64 :=
  match Decimal.mul? a b with
  | some n => pure n
  | none => raise .mulOverflow

end Callback

end ParserCombinators
