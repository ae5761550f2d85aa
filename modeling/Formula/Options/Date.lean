namespace Formula

/-- Why numbers are no date and no moment. -/
inductive DateError where
  | year (year : Nat)
  | month
  | day
  | hour
  | minute
  | second
  /-- A distance from world time, in seconds, of a day or more. -/
  | offset (seconds : Int)

structure Date where
  year : Nat
  month : Nat
  day : Nat
  deriving DecidableEq

/-- A time of a day, perhaps with the distance of its clock from world time in seconds, which grows
toward the east. -/
structure Moment where
  date : Date
  hour : Nat
  minute : Nat
  second : Nat
  micros : Nat
  offset : Option Int
  deriving DecidableEq

/-- The verbose form of a span of time in seconds: whole days, which may be negative, and the
seconds of a day that remain. -/
def spanLiteral (seconds : Int) : String :=
  let days := seconds / 86400
  let rest := seconds % 86400
  let parts :=
    (if days = 0 then [] else ["days=" ++ toString days]) ++
    (if rest = 0 then [] else ["seconds=" ++ toString rest])
  "datetime.timedelta(" ++ (if parts.isEmpty then "0" else ", ".intercalate parts) ++ ")"

namespace DateError

def message : DateError → String
  | year n => s!"year {n} is out of range"
  | month => "month must be in 1..12"
  | day => "day is out of range for month"
  | hour => "hour must be in 0..23"
  | minute => "minute must be in 0..59"
  | second => "second must be in 0..59"
  | offset seconds =>
    "offset must be a timedelta strictly between -timedelta(hours=24) and timedelta(hours=24), not "
      ++ spanLiteral seconds ++ "."

end DateError

namespace Date

def isLeapYear (year : Nat) : Bool :=
  year % 4 == 0 && (year % 100 != 0 || year % 400 == 0)

def daysOfMonth (year month : Nat) : Nat :=
  if month = 2 then (if isLeapYear year then 29 else 28)
  else if [4, 6, 9, 11].contains month then 30
  else 31

/-- A date whose parts are in range, the year first. -/
def create (year month day : Nat) : Except DateError Date :=
  if year = 0 || 9999 < year then .error (.year year)
  else if month = 0 || 12 < month then .error .month
  else if day = 0 || daysOfMonth year month < day then .error .day
  else .ok ⟨year, month, day⟩

def literal (date : Date) : String :=
  s!"datetime.date({date.year}, {date.month}, {date.day})"

end Date

namespace Moment

/-- A moment whose parts are in range. A distance from world time is looked at first. -/
def create (year month day hour minute second micros : Nat) (offset : Option Int) :
    Except DateError Moment := do
  if let some seconds := offset then
    if 86400 ≤ seconds.natAbs then throw (.offset seconds)
  let date ← Date.create year month day
  if 23 < hour then throw .hour
  if 59 < minute then throw .minute
  if 59 < second then throw .second
  return ⟨date, hour, minute, second, micros, offset⟩

def offsetLiteral (seconds : Int) : String :=
  if seconds = 0 then "datetime.timezone.utc"
  else "datetime.timezone(" ++ spanLiteral seconds ++ ")"

/-- How many levels of data a moment has inside it: the zone of its clock and, but for world time,
the distance of the zone. -/
def innerLevels (moment : Moment) : Nat :=
  match moment.offset with
  | none => 0
  | some 0 => 1
  | some _ => 2

/-- The verbose form of a moment, which leaves out the smallest parts where they are zero. -/
def literal (moment : Moment) : String :=
  let date := moment.date
  let smallest :=
    if moment.micros != 0 then [moment.second, moment.micros]
    else if moment.second != 0 then [moment.second] else []
  let parts := [date.year, date.month, date.day, moment.hour, moment.minute] ++ smallest
  let offset := match moment.offset with
    | some seconds => ["tzinfo=" ++ offsetLiteral seconds]
    | none => []
  "datetime.datetime(" ++ ", ".intercalate (parts.map toString ++ offset) ++ ")"

end Moment

end Formula
