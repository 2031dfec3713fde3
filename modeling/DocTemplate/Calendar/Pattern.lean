import DocTemplate.Calendar.Date
import DocTemplate.Number.Shortest

/-!
# Patterns for dates

A pattern is a text with *fields*: a percent sign, perhaps a sign for the
padding (`-` none, `0` zeros, `_` spaces), and a letter. `%d/%m/%Y` writes
`09/03/2024`. A field may stand for several others, as `%F` for `%Y-%m-%d`;
those take no padding sign. All else in a pattern stands for itself.

A pattern cannot be written (`Pattern.write` is `none`) when it has an unknown
field, or one that the value does not determine: the hour of a plain date, or
the time zone of anything.

The century and other two-digit fields are computed in eight bits; a number
above ninety-nine has its tens digit continue beyond `9`.
-/

namespace DocTemplate

namespace Calendar

/-- How a number shorter than its field is filled up. -/
inductive Padding where
  | none
  | zero
  | space
  deriving DecidableEq, Repr

/-- The numbers a field can show. -/
inductive Quantity where
  | year | century | yearOfCentury
  | isoYear | isoCentury | isoYearOfCentury | isoWeek
  | quarter | month | day | ordinal
  | weekFromSunday | weekFromMonday | daysFromSunday | dayFromMonday
  | hour | hour12 | minute | second | nanosecond | timestamp
  deriving DecidableEq, Repr

/-- The names a field can show. -/
inductive Wording where
  | shortMonth | longMonth | shortWeekday | longWeekday | upperHalf | lowerHalf
  deriving DecidableEq, Repr

/-- A part of a pattern. -/
inductive Field where
  /-- Characters that stand for themselves. -/
  | literal (text : List Char)
  /-- A number. -/
  | number (quantity : Quantity) (padding : Padding)
  /-- A name. -/
  | wording (w : Wording)
  /-- A fraction of the second: a number of digits, after a point or not. -/
  | fraction (digits : Nat) (point : Bool)
  /-- The fraction of the second with its point, by as many groups of three
      digits as it takes. -/
  | shortFraction
  deriving DecidableEq, Repr

namespace Field

/-- The twelve names of the months. -/
def monthNames : List String :=
  ["January", "February", "March", "April", "May", "June", "July", "August", "September",
    "October", "November", "December"]

/-- The names of the days of the week, from Monday. -/
def weekdayNames : List String :=
  ["Monday", "Tuesday", "Wednesday", "Thursday", "Friday", "Saturday", "Sunday"]

/-- At least `n` characters, filled up in front. -/
def padTo (n : Nat) (c : Char) (cs : List Char) : List Char :=
  List.replicate (n - cs.length) c ++ cs

/-- A number in a field of width `n`, its sign included. -/
def signedNumber (n : Nat) (padding : Padding) (alwaysSign : Bool) (v : Int) : List Char :=
  let sign := if v < 0 then ['-'] else if alwaysSign then ['+'] else []
  let digits := Number.digitChars v.natAbs
  -- Zeros stand behind the sign, spaces before it.
  match padding with
  | .none => sign ++ digits
  | .zero => sign ++ padTo (n - sign.length) '0' digits
  | .space => padTo n ' ' (sign ++ digits)

/-- Two digits of a number of eight bits. -/
def twoDigits (padding : Padding) (v : Int) : List Char :=
  let n := (v % 256).toNat
  let ones := Char.ofNat ('0'.toNat + n % 10)
  match n / 10, padding with
  | 0, .none => [ones]
  | 0, .space => [' ', ones]
  | tens, _ => [Char.ofNat ('0'.toNat + tens), ones]

/-- A year: four digits, and a sign beyond them. -/
def year (padding : Padding) (y : Int) : List Char :=
  if 0 ≤ y ∧ y < 10000 then signedNumber 4 padding false y else signedNumber 5 padding true y

/-- The hour on the face of a clock. -/
def clockHour (t : Time) : Nat :=
  if t.hour % 12 = 0 then 12 else t.hour % 12

variable (date : Date) (time : Option Time)

/-- A number in its field, if the date and the time determine it. -/
def quantity (padding : Padding) : Quantity → Option (List Char)
  | .year => some (year padding date.year)
  | .century => some (twoDigits padding (date.year.fdiv 100))
  | .yearOfCentury => some (twoDigits padding (date.year.fmod 100))
  | .isoYear => some (year padding date.isoWeek.1)
  | .isoCentury => some (twoDigits padding (date.isoWeek.1.fdiv 100))
  | .isoYearOfCentury => some (twoDigits padding (date.isoWeek.1.fmod 100))
  | .isoWeek => some (twoDigits padding date.isoWeek.2)
  | .quarter => some (Number.digitChars ((date.month + 2) / 3))
  | .month => some (twoDigits padding date.month)
  | .day => some (twoDigits padding date.day)
  | .ordinal => some (signedNumber 3 padding false date.ordinal)
  | .weekFromSunday => some (twoDigits padding (date.weeksFrom 6))
  | .weekFromMonday => some (twoDigits padding (date.weeksFrom 0))
  | .daysFromSunday => some (Number.digitChars ((date.weekday + 1) % 7))
  | .dayFromMonday => some (Number.digitChars (date.weekday + 1))
  | .hour => time.map fun t => twoDigits padding t.hour
  | .hour12 => time.map fun t => twoDigits padding (clockHour t)
  | .minute => time.map fun t => twoDigits padding t.minute
  | .second => time.map fun t => twoDigits padding t.shownSecond
  | .nanosecond => time.map fun t => signedNumber 9 padding false t.shownNanos
  | .timestamp => time.map fun t => signedNumber 9 padding false (DateTime.timestamp ⟨date, t⟩)

/-- A name, if the date and the time determine it. -/
def name : Wording → Option (List Char)
  | .shortMonth => (monthNames[date.month - 1]?).map fun s => s.toList.take 3
  | .longMonth => (monthNames[date.month - 1]?).map String.toList
  | .shortWeekday => (weekdayNames[date.weekday]?).map fun s => s.toList.take 3
  | .longWeekday => (weekdayNames[date.weekday]?).map String.toList
  | .upperHalf => time.map fun t => if 12 ≤ t.hour then ['P', 'M'] else ['A', 'M']
  | .lowerHalf => time.map fun t => if 12 ≤ t.hour then ['p', 'm'] else ['a', 'm']

/-- The first `n` digits of nine. -/
def fractionDigits (n : Nat) (nanos : Nat) : List Char :=
  (padTo 9 '0' (Number.digitChars nanos)).take n

/-- The fraction of the second by groups of three digits; nothing if it is zero. -/
def groups (nanos : Nat) : List Char :=
  if nanos = 0 then []
  else if nanos % 1000000 = 0 then '.' :: fractionDigits 3 nanos
  else if nanos % 1000 = 0 then '.' :: fractionDigits 6 nanos
  else '.' :: fractionDigits 9 nanos

/-- A part of a pattern as text. -/
def write : Field → Option (List Char)
  | .literal text => some text
  | .number q padding => quantity date time padding q
  | .wording w => name date time w
  | .fraction digits point => time.map fun t =>
      (if point then ['.'] else []) ++ fractionDigits digits t.shownNanos
  | .shortFraction => time.map fun t => groups t.shownNanos

end Field

namespace Pattern

/-- The fields of a time of day, hours to seconds. -/
def clock : List Field :=
  [.number .hour .zero, .literal [':'], .number .minute .zero, .literal [':'],
    .number .second .zero]

/-- The fields that a letter stands for. -/
def letter : Char → Option (List Field)
  | 'A' => some [.wording .longWeekday]
  | 'B' => some [.wording .longMonth]
  | 'C' => some [.number .century .zero]
  | 'D' | 'x' => some [.number .month .zero, .literal ['/'], .number .day .zero, .literal ['/'],
      .number .yearOfCentury .zero]
  | 'F' => some [.number .year .zero, .literal ['-'], .number .month .zero, .literal ['-'],
      .number .day .zero]
  | 'G' => some [.number .isoYear .zero]
  | 'H' => some [.number .hour .zero]
  | 'I' => some [.number .hour12 .zero]
  | 'M' => some [.number .minute .zero]
  | 'P' => some [.wording .lowerHalf]
  | 'R' => some [.number .hour .zero, .literal [':'], .number .minute .zero]
  | 'S' => some [.number .second .zero]
  | 'T' | 'X' => some clock
  | 'U' => some [.number .weekFromSunday .zero]
  | 'V' => some [.number .isoWeek .zero]
  | 'W' => some [.number .weekFromMonday .zero]
  | 'Y' => some [.number .year .zero]
  | 'a' => some [.wording .shortWeekday]
  | 'b' | 'h' => some [.wording .shortMonth]
  | 'c' => some ([.wording .shortWeekday, .literal [' '], .wording .shortMonth, .literal [' '],
      .number .day .space, .literal [' ']] ++ clock ++ [.literal [' '], .number .year .zero])
  | 'd' => some [.number .day .zero]
  | 'e' => some [.number .day .space]
  | 'f' => some [.number .nanosecond .zero]
  | 'g' => some [.number .isoYearOfCentury .zero]
  | 'j' => some [.number .ordinal .zero]
  | 'k' => some [.number .hour .space]
  | 'l' => some [.number .hour12 .space]
  | 'm' => some [.number .month .zero]
  | 'n' => some [.literal ['\n']]
  | 'p' => some [.wording .upperHalf]
  | 'q' => some [.number .quarter .none]
  | 'r' => some [.number .hour12 .zero, .literal [':'], .number .minute .zero, .literal [':'],
      .number .second .zero, .literal [' '], .wording .upperHalf]
  | 's' => some [.number .timestamp .none]
  | 't' => some [.literal ['\t']]
  | 'u' => some [.number .dayFromMonday .none]
  | 'v' => some [.number .day .space, .literal ['-'], .wording .shortMonth, .literal ['-'],
      .number .year .zero]
  | 'w' => some [.number .daysFromSunday .none]
  | 'y' => some [.number .yearOfCentury .zero]
  | '%' => some [.literal ['%']]
  | _ => none

/-- A field that is one number takes another padding; no other does. -/
def repad (padding : Padding) : List Field → Option (List Field)
  | [.number q _] => some [.number q padding]
  | _ => none

/-- The parts of a pattern, if all its fields are known. -/
def fields? : List Char → Option (List Field)
  | [] => some []
  | '%' :: '-' :: c :: cs => do return (← (letter c).bind (repad .none)) ++ (← fields? cs)
  | '%' :: '0' :: c :: cs => do return (← (letter c).bind (repad .zero)) ++ (← fields? cs)
  | '%' :: '_' :: c :: cs => do return (← (letter c).bind (repad .space)) ++ (← fields? cs)
  | '%' :: '.' :: 'f' :: cs => do return .shortFraction :: (← fields? cs)
  | '%' :: '.' :: '3' :: 'f' :: cs => do return .fraction 3 true :: (← fields? cs)
  | '%' :: '.' :: '6' :: 'f' :: cs => do return .fraction 6 true :: (← fields? cs)
  | '%' :: '.' :: '9' :: 'f' :: cs => do return .fraction 9 true :: (← fields? cs)
  | '%' :: '3' :: 'f' :: cs => do return .fraction 3 false :: (← fields? cs)
  | '%' :: '6' :: 'f' :: cs => do return .fraction 6 false :: (← fields? cs)
  | '%' :: '9' :: 'f' :: cs => do return .fraction 9 false :: (← fields? cs)
  | '%' :: c :: cs => do return (← letter c) ++ (← fields? cs)
  | ['%'] => none
  | c :: cs => do return .literal [c] :: (← fields? cs)

/-- A date, perhaps with a time of day, written by a pattern. -/
def write (pattern : String) (date : Date) (time : Option Time) : Option String := do
  let fields ← fields? pattern.toList
  let parts ← fields.mapM (Field.write date time)
  return String.ofList parts.flatten

end Pattern

end Calendar

namespace Date

/-- The date as `2024-03-09`. -/
def text (d : Date) : String :=
  let two (n : Nat) := Calendar.Field.twoDigits .zero n
  String.ofList (Calendar.Field.year .zero d.year ++ '-' :: two d.month ++ '-' :: two d.day)

end Date

namespace DateTime

/-- The date and the time as `2024-03-09 14:05:00`, with the fraction of the
    second if there is one. -/
def text (dt : DateTime) : String :=
  let two (n : Nat) := Calendar.Field.twoDigits .zero n
  dt.date.text ++ " " ++ String.ofList (two dt.time.hour ++ ':' :: two dt.time.minute ++
    ':' :: two dt.time.shownSecond ++ Calendar.Field.groups dt.time.shownNanos)

end DateTime

end DocTemplate
