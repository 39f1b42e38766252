import MatrixChain.Intake.Misfit
import MatrixChain.Text.Digit

/-!
# Instants

Days of the calendar with an hour, minute and second behind them, as text, and their distance from the beginning
of 1970 in a unit of time.
-/

namespace MatrixChain
namespace Intake

inductive TimeUnit where
  | year
  | month
  | week
  | day
  | hour
  | minute
  | second
  /-- A second divided by this power of a thousand. -/
  | fraction (power : Nat)
deriving DecidableEq

/-- An instant in the calendar that is used today, as if it had always been. -/
structure Instant where
  year : Int
  month : Nat
  day : Nat
  hour : Nat
  minute : Nat
  second : Nat
  atto : Nat
  /-- How many minutes local time is ahead. -/
  offset : Int
deriving DecidableEq

namespace Instant

def newYear (year : Int) : Instant :=
  ⟨year, 1, 1, 0, 0, 0, 0, 0⟩

def isLeapYear (year : Int) : Bool :=
  year % 4 = 0 && (year % 100 ≠ 0 || year % 400 = 0)

def daysInMonth (year : Int) (month : Nat) : Nat :=
  if month = 2 then (if isLeapYear year then 29 else 28)
  else if month = 4 ∨ month = 6 ∨ month = 9 ∨ month = 11 then 30
  else 31

/-- Days since the beginning of 1970. Years begin in March here, so that the leap day is their last one. -/
def days (t : Instant) : Int :=
  let year := if t.month ≤ 2 then t.year - 1 else t.year
  let era := year / 400
  let yearOfEra := year % 400
  let month : Int := (t.month + 9) % 12
  let dayOfYear := (153 * month + 2) / 5 + t.day - 1
  era * 146097 + yearOfEra * 365 + yearOfEra / 4 - yearOfEra / 100 + dayOfYear - 719468

def seconds (t : Instant) : Int :=
  ((t.days * 24 + t.hour) * 60 + t.minute - t.offset) * 60 + t.second

/-- Whole units since the beginning of 1970; years and months are those of local time. -/
def ticks (t : Instant) : TimeUnit → Int
  | .year => t.year - 1970
  | .month => (t.year - 1970) * 12 + t.month - 1
  | .week => t.seconds / (7 * 86400)
  | .day => t.seconds / 86400
  | .hour => t.seconds / 3600
  | .minute => t.seconds / 60
  | .second => t.seconds
  | .fraction power => t.seconds * Int.pow 1000 power + t.atto / Int.pow 1000 (6 - power)

/-- Where reading stops: in front of a text that does not belong, or at a field with a value that it cannot have. -/
inductive Stop where
  | before (rest : List Char)
  | outside (field : String)

open Text

def isSpace (c : Char) : Bool :=
  c = ' ' || ('\t' ≤ c && c ≤ '\r')

def twoDigits (field : String) (least most : Nat) : List Char → Except Stop (Nat × List Char)
  | a :: b :: rest =>
    if isDigit a && isDigit b then
      let n := digit a * 10 + digit b
      if least ≤ n ∧ n ≤ most then pure (n, rest) else throw (.outside field)
    else throw (.before (a :: b :: rest))
  | rest => throw (.before rest)

def oneOrTwoDigits (field : String) (most : Nat) : List Char → Except Stop (Nat × List Char)
  | a :: b :: rest =>
    if isDigit a && isDigit b then twoDigits field 0 most (a :: b :: rest)
    else if isDigit a then pure (digit a, b :: rest)
    else throw (.before (a :: b :: rest))
  | [a] => if isDigit a then pure (digit a, []) else throw (.before [a])
  | [] => throw (.before [])

def ending (t : Instant) (rest : List Char) : Except Stop Instant :=
  match rest.dropWhile isSpace with
  | [] => pure t
  | rest => throw (.before rest)

def zoneFrom (t : Instant) (sign : Int) (rest : List Char) : Except Stop Instant := do
  let (hours, rest) ← oneOrTwoDigits "Timezone hours offset" 23 rest
  match rest with
  | [] => pure { t with offset := sign * (hours * 60) }
  | c :: minutes =>
    let (minutes, rest) ← oneOrTwoDigits "Timezone minutes offset" 59 (if c = ':' then minutes else c :: minutes)
    ending { t with offset := sign * (hours * 60 + minutes) } rest

def zone (t : Instant) (rest : List Char) : Except Stop Instant :=
  match rest.dropWhile isSpace with
  | 'Z' :: rest => ending t rest
  | '+' :: rest => zoneFrom t 1 rest
  | '-' :: rest => zoneFrom t (-1) rest
  | rest => ending t rest

def attoFrom (places : Nat) (sofar : Nat) : List Char → Nat × List Char
  | c :: rest =>
    match places with
    | 0 => (sofar, c :: rest)
    | places + 1 =>
      if isDigit c then attoFrom places (sofar * 10 + digit c) rest else (sofar * Nat.pow 10 (places + 1), c :: rest)
  | [] => (sofar * Nat.pow 10 places, [])

/-- A time of the day: hours, and each of minutes, seconds and a fraction only behind the one before. -/
def time (t : Instant) (rest : List Char) : Except Stop Instant := do
  let (hour, rest) ← twoDigits "Hours" 0 23 rest
  match rest with
  | ':' :: rest =>
    let (minute, rest) ← twoDigits "Minutes" 0 59 rest
    match rest with
    | ':' :: rest =>
      let (second, rest) ← twoDigits "Seconds" 0 59 rest
      let (atto, rest) := match rest with
        | '.' :: rest => attoFrom 18 0 rest
        | rest => (0, rest)
      zone { t with hour, minute, second, atto } rest
    | rest => zone { t with hour, minute } rest
  | rest => zone { t with hour } rest

def monthFrom (t : Instant) (rest : List Char) : Except Stop Instant := do
  let (month, rest) ← twoDigits "Month" 1 12 rest
  match rest with
  | [] => pure { t with month }
  | '-' :: rest =>
    let (day, rest) ← twoDigits "Day" 1 (daysInMonth t.year month) rest
    match rest with
    | [] => pure { t with month, day }
    | 'T' :: rest => time { t with month, day } rest
    | ' ' :: rest => time { t with month, day } rest
    | rest => throw (.before rest)
  | rest => throw (.before rest)

def reading (s : List Char) : Except Stop Instant := do
  let size := match s.dropWhile isSpace with
    | '-' :: rest => rest
    | rest => rest
  let years := Int.ofNat ((size.takeWhile isDigit).foldl (fun n c => n * 10 + digit c) 0)
  let t := newYear (if s.head? = some '-' then -years else years)
  match size, size.dropWhile isDigit with
  | [], _ => throw (.before [])
  | _, [] => pure t
  | _, '-' :: rest => monthFrom t rest
  | _, rest => throw (.before rest)

def position (s rest : List Char) : Nat :=
  (String.ofList s).utf8ByteSize - (String.ofList rest).utf8ByteSize

/-- The instant that a text names, or none for a text that names none. The words for the present are not told
from the beginning of 1970, because nothing looks at their value. -/
def read (s : String) : Except Misfit (Option Instant) :=
  let chars := s.toList
  let word := chars.map Char.toLower
  if chars.isEmpty || word = ['n', 'a', 't'] then pure none
  else if word = ['n', 'o', 'w'] || word = ['t', 'o', 'd', 'a', 'y'] then pure (some (newYear 1970))
  else
    match reading chars with
    | .ok t => pure (some t)
    | .error (.before rest) => throw (.unreadableDate s (position chars rest))
    | .error (.outside field) => throw (.dateOutside field s)

end Instant
end Intake
end MatrixChain
