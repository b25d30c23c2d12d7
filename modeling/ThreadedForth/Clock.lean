/-!
# The wall clock

The machine reads the time from a clock that its host sets, and counts on the same clock the time
that words ask to wait. Waiting has no other effect on the machine.
-/

namespace ThreadedForth

/-- A calendar date with the time of day. -/
structure DateTime where
  second : Nat := 0
  minute : Nat := 0
  hour : Nat := 0
  day : Nat := 1
  month : Nat := 1
  year : Nat := 1970

/-- The fields of a date from the second up to the year. -/
def DateTime.fields (t : DateTime) : List Nat :=
  [t.second, t.minute, t.hour, t.day, t.month, t.year]

/-- The current local and universal time, and the milliseconds that words have asked to wait. -/
structure Clock where
  localTime : DateTime := {}
  universalTime : DateTime := {}
  waited : Nat := 0

end ThreadedForth
