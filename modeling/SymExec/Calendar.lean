/-!
# Dates and times

Days of the Gregorian calendar from year one on, and moments of a day, which may have an offset from
universal time.
-/
namespace SymExec.Calendar

inductive Error where
  | year (n : Nat)
  | month
  | day
  | hour
  | minute
  | second
  /-- An offset of a whole day or more. -/
  | offset (minutes : Int)
  deriving DecidableEq, Repr

/-- A span of time as it is shown: whole days and the seconds of the last one. -/
def spanText (minutes : Int) : String :=
  let days := Int.fdiv minutes 1440
  let seconds := Int.fmod minutes 1440 * 60
  let parts := (if days = 0 then [] else [s!"days={days}"]) ++
    (if seconds = 0 then [] else [s!"seconds={seconds}"])
  "datetime.timedelta(" ++ (if parts.isEmpty then "0" else ", ".intercalate parts) ++ ")"

def Error.message : Error → String
  | year n => s!"year {n} is out of range"
  | month => "month must be in 1..12"
  | day => "day is out of range for month"
  | hour => "hour must be in 0..23"
  | minute => "minute must be in 0..59"
  | second => "second must be in 0..59"
  | offset minutes =>
    "offset must be a timedelta strictly between -timedelta(hours=24) and timedelta(hours=24), " ++
      "not " ++ spanText minutes ++ "."

def isLeap (year : Nat) : Bool := year % 4 == 0 && (year % 100 != 0 || year % 400 == 0)

def daysIn (year month : Nat) : Nat :=
  if month = 2 then if isLeap year then 29 else 28
  else if [4, 6, 9, 11].contains month then 30
  else 31

structure Date where
  year : Nat
  month : Nat
  day : Nat
  deriving DecidableEq, Repr

def Date.make (year month day : Nat) : Except Error Date :=
  if year < 1 ∨ 9999 < year then .error (.year year)
  else if month < 1 ∨ 12 < month then .error .month
  else if day < 1 ∨ daysIn year month < day then .error .day
  else .ok ⟨year, month, day⟩

def Date.text (d : Date) : String := s!"datetime.date({d.year}, {d.month}, {d.day})"

structure Moment where
  date : Date
  hour : Nat
  minute : Nat
  second : Nat
  microsecond : Nat := 0
  /-- The minutes that the clock is ahead of universal time. -/
  offset : Option Int := none
  deriving DecidableEq, Repr

/-- An offset, which is less than a day in either direction. -/
def checkOffset (minutes : Int) : Except Error Int :=
  if minutes.natAbs < 1440 then .ok minutes else .error (.offset minutes)

def Moment.make (year month day hour minute second microsecond : Nat) (offset : Option Int) :
    Except Error Moment := do
  let offset ← offset.mapM checkOffset
  let date ← Date.make year month day
  if 23 < hour then throw .hour
  if 59 < minute then throw .minute
  if 59 < second then throw .second
  return ⟨date, hour, minute, second, microsecond, offset⟩

/-- A moment as it is shown, without seconds and microseconds that are zero. -/
def Moment.text (m : Moment) : String :=
  let day := [m.date.year, m.date.month, m.date.day, m.hour, m.minute]
  let fine :=
    if m.microsecond ≠ 0 then [m.second, m.microsecond]
    else if m.second ≠ 0 then [m.second]
    else []
  let zone := match m.offset with
    | none => []
    | some 0 => ["tzinfo=datetime.timezone.utc"]
    | some n => ["tzinfo=datetime.timezone(" ++ spanText n ++ ")"]
  "datetime.datetime(" ++ ", ".intercalate ((day ++ fine).map toString ++ zone) ++ ")"

end SymExec.Calendar
