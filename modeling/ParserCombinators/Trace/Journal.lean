import ParserCombinators.Trace.Record

/-!
# Journals

Everything that a run leaves behind besides its result, in the order in which it happened: the
records that were kept and the events that users' functions announced.

- `Trace.Entry`: one item
- `Journal.records`, `Journal.lines`: the records, and their text
- `Journal.events`: all events
- `Journal.calls`: the events without those of factories
-/

namespace ParserCombinators

namespace Trace

inductive Entry where
  | record (record : Record)
  /-- A user's function announced something. -/
  | event (event : String)
  /-- The factory of a deferred parser announced something. -/
  | built (event : String)
  deriving DecidableEq, Repr

def Entry.record? : Entry → Option Record
  | .record r => some r
  | .event _ | .built _ => none

def Entry.event? : Entry → Option String
  | .event e | .built e => some e
  | .record _ => none

def Entry.call? : Entry → Option String
  | .event e => some e
  | .record _ | .built _ => none

end Trace

/-- What a run leaves behind, in order. -/
abbrev Journal := List Trace.Entry

namespace Journal

def records (journal : Journal) : List Trace.Record :=
  journal.filterMap Trace.Entry.record?

def lines (journal : Journal) : List String :=
  journal.records.map Trace.Record.line

def events (journal : Journal) : List String :=
  journal.filterMap Trace.Entry.event?

def calls (journal : Journal) : List String :=
  journal.filterMap Trace.Entry.call?

@[simp] theorem records_nil : records [] = [] := rfl

/-- Records keep their order when journals are joined. -/
@[simp] theorem records_append (j k : Journal) :
    Journal.records (j ++ k) = Journal.records j ++ Journal.records k := by
  simp [records]

/-- Entries that announce something hold no records. -/
theorem records_map_eq_nil {entry : String → Trace.Entry} (h : ∀ e, (entry e).record? = none)
    (events : List String) : records (events.map entry) = [] := by
  simp [records, h]

@[simp] theorem events_nil : events [] = [] := rfl

@[simp] theorem events_append (j k : Journal) :
    Journal.events (j ++ k) = Journal.events j ++ Journal.events k := by
  simp [events]

@[simp] theorem calls_nil : calls [] = [] := rfl

@[simp] theorem calls_append (j k : Journal) :
    Journal.calls (j ++ k) = Journal.calls j ++ Journal.calls k := by
  simp [calls]

end Journal

end ParserCombinators
