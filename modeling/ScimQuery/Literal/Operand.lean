/-
ScimQuery/Literal/Operand.lean

The values that a caller may compare an attribute with, and the literal that each
of them becomes: numbers of every kind become one kind of number, dates and times
become text.

Dates and times are those of the proleptic Gregorian calendar.  A day has a number,
counted from 1970-01-01; a time at an offset from UTC is found by counting days and
seconds.  A leap second is written as second 60.  It is kept as the second before it
with a fraction of one second or more.
-/
import ScimQuery.Literal.Basic

namespace ScimQuery

/-! ### Dates and times -/

/-- A day of the calendar. -/
structure Date where
  year : Int
  month : Nat
  day : Nat
  deriving DecidableEq, Repr

/-- A time of day; `nanos` reaches one thousand million in a leap second. -/
structure TimeOfDay where
  hour : Nat
  minute : Nat
  second : Nat
  nanos : Nat
  deriving DecidableEq, Repr

/-- A day and a time, at no particular place. -/
structure DateTime where
  date : Date
  time : TimeOfDay
  deriving DecidableEq, Repr

namespace Date

/-! ### Counting days -/

/-- The number of a day.  Years are counted from March, so that the leap day is
the last of its year; 400 years have 146097 days. -/
def toDayNumber (d : Date) : Int :=
  let y := if d.month ≤ 2 then d.year - 1 else d.year
  let era := Int.fdiv y 400
  let yearOfEra := (y - era * 400).toNat
  let monthFromMarch := (d.month + 9) % 12
  let dayOfYear := (153 * monthFromMarch + 2) / 5 + d.day - 1
  let dayOfEra := yearOfEra * 365 + yearOfEra / 4 - yearOfEra / 100 + dayOfYear
  era * 146097 + dayOfEra - 719468

/-- The day with a given number. -/
def ofDayNumber (n : Int) : Date :=
  let z := n + 719468
  let era := Int.fdiv z 146097
  let dayOfEra := (z - era * 146097).toNat
  let yearOfEra := (dayOfEra - dayOfEra / 1460 + dayOfEra / 36524 - dayOfEra / 146096) / 365
  let dayOfYear := dayOfEra - (365 * yearOfEra + yearOfEra / 4 - yearOfEra / 100)
  let monthFromMarch := (5 * dayOfYear + 2) / 153
  let day := dayOfYear - (153 * monthFromMarch + 2) / 5 + 1
  let month := if monthFromMarch < 10 then monthFromMarch + 3 else monthFromMarch - 9
  ⟨yearOfEra + era * 400 + (if month ≤ 2 then 1 else 0), month, day⟩

/-! ### Writing -/

/-- A number with zeros in front up to a width. -/
def padded (width n : Nat) : String :=
  let digits := toString n
  String.ofList (List.replicate (width - digits.length) '0') ++ digits

/-- Four digits for the years 0 to 9999; other years have a sign as well. -/
def yearText (year : Int) : String :=
  if 0 ≤ year ∧ year ≤ 9999 then padded 4 year.toNat
  else (if year < 0 then "-" else "+") ++ padded 4 year.natAbs

/-- Year, month and day. -/
def render (d : Date) : String :=
  yearText d.year ++ "-" ++ padded 2 d.month ++ "-" ++ padded 2 d.day

end Date

namespace TimeOfDay

/-- The fraction of a second with three, six or nine digits, the fewest that are
exact, and nothing for a whole second. -/
def fractionText (nanos : Nat) : String :=
  if nanos = 0 then ""
  else if nanos % 1000000 = 0 then "." ++ Date.padded 3 (nanos / 1000000)
  else if nanos % 1000 = 0 then "." ++ Date.padded 6 (nanos / 1000)
  else "." ++ Date.padded 9 nanos

/-- Hour, minute, second and fraction. -/
def render (t : TimeOfDay) : String :=
  let leap := 1000000000 ≤ t.nanos
  let second := if leap then t.second + 1 else t.second
  let nanos := if leap then t.nanos - 1000000000 else t.nanos
  Date.padded 2 t.hour ++ ":" ++ Date.padded 2 t.minute ++ ":" ++ Date.padded 2 second ++
    fractionText nanos

end TimeOfDay

namespace DateTime

/-- Date and time with a `T` between them. -/
def render (dt : DateTime) : String := dt.date.render ++ "T" ++ dt.time.render

/-- The same clock, moved on by a number of seconds; a leap second stays one. -/
def shift (dt : DateTime) (seconds : Int) : DateTime :=
  let total := ((dt.time.hour * 60 + dt.time.minute) * 60 + dt.time.second : Nat) + seconds
  let days := Int.fdiv total 86400
  let ofDay := (total - days * 86400).toNat
  ⟨Date.ofDayNumber (dt.date.toDayNumber + days),
    ⟨ofDay / 3600, ofDay / 60 % 60, ofDay % 60, dt.time.nanos⟩⟩

/-- An offset from UTC in hours and minutes, rounded to the nearest minute. -/
def offsetText (offset : Int) : String :=
  if offset = 0 then "Z"
  else
    let minutes := (offset.natAbs + 30) / 60
    (if offset < 0 then "-" else "+") ++ Date.padded 2 (minutes / 60) ++ ":" ++
      Date.padded 2 (minutes % 60)

/-- The time at an offset from UTC, given as the time in UTC. -/
def renderAt (utc : DateTime) (offset : Int) : String :=
  (utc.shift offset).render ++ offsetText offset

end DateTime

example : (Date.ofDayNumber (Date.toDayNumber ⟨2000, 2, 29⟩)) = ⟨2000, 2, 29⟩ := by decide
example : Date.toDayNumber ⟨1970, 1, 1⟩ = 0 := by decide

/-! ### Operands -/

/-- A comparison value as a caller has it. -/
inductive Operand where
  /-- No value. -/
  | absent
  | text (s : String)
  | bool (b : Bool)
  | integer (n : Int)
  | number (x : Binary64)
  | date (d : Date)
  /-- A date and a time at no particular place. -/
  | dateTime (dt : DateTime)
  /-- A point in time, given in UTC, shown at an offset in seconds. -/
  | instant (utc : DateTime) (offset : Int)
  deriving Repr

/-- The literal that stands for an operand. -/
def Operand.literal : Operand → Literal
  | absent => .null
  | text s => .text s
  | bool b => .bool b
  | integer n => .number (Binary64.ofInt n)
  | number x => .number x
  | date d => .text d.render
  | dateTime dt => .text dt.render
  | instant utc offset => .text (utc.renderAt offset)

end ScimQuery
