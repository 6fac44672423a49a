import BlockTree.Decimal.Digits

/-! Dates, times of day and moments as they stand in settings. They are checked field
by field, so a month may have more days than the calendar gives it. -/

namespace BlockTree

structure Date where
  year : Nat
  month : Nat
  day : Nat

structure TimeOfDay where
  hour : Nat
  minute : Nat
  second : Nat
  nanosecond : Nat

inductive ZoneOffset where
  | universal
  | ahead (hours : Int) (minutes : Nat)

inductive Moment where
  | date (date : Date)
  | time (time : TimeOfDay)
  | both (date : Date) (time : TimeOfDay) (zone? : Option ZoneOffset)

namespace Moment

open Decimal (isDigit natOf)

def takeNumber? (count : Nat) (text : List Char) : Option (Nat × List Char) :=
  let digits := text.take count
  if digits.length = count ∧ digits.all isDigit then some (natOf digits, text.drop count)
  else none

def expect? (c : Char) : List Char → Option (List Char)
  | d :: rest => if c = d then some rest else none
  | [] => none

def takeDate? (text : List Char) : Option (Date × List Char) := do
  let (year, text) ← takeNumber? 4 text
  let (month, text) ← takeNumber? 2 (← expect? '-' text)
  let (day, text) ← takeNumber? 2 (← expect? '-' text)
  if 1 ≤ month ∧ month ≤ 12 ∧ 1 ≤ day ∧ day ≤ 31 then some (⟨year, month, day⟩, text) else none

/-- Digits after a point, of which nine count. -/
def takeNanosecond? : List Char → Option (Nat × List Char)
  | '.' :: text =>
    match text.span isDigit with
    | ([], _) => none
    | (digits, rest) => some (natOf ((digits ++ List.replicate 9 '0').take 9), rest)
  | text => some (0, text)

def takeTime? (text : List Char) : Option (TimeOfDay × List Char) := do
  let (hour, text) ← takeNumber? 2 text
  let (minute, text) ← takeNumber? 2 (← expect? ':' text)
  let (second, text) ← takeNumber? 2 (← expect? ':' text)
  let (nanosecond, text) ← takeNanosecond? text
  if hour ≤ 24 ∧ minute ≤ 59 ∧ second ≤ 59 then
    some (⟨hour, minute, second, nanosecond⟩, text)
  else none

def takeZone? : List Char → Option (Option ZoneOffset × List Char)
  | c :: text =>
    if c = 'Z' ∨ c = 'z' then some (some .universal, text)
    else if c = '+' ∨ c = '-' then do
      let (hours, text) ← takeNumber? 2 text
      let (minutes, text) ← takeNumber? 2 (← expect? ':' text)
      return (some (.ahead (if c = '-' then -hours else hours) minutes), text)
    else some (none, c :: text)
  | [] => some (none, [])

/-- A time follows a date after a letter, or after one blank and then a digit. -/
def afterDate? : List Char → Option (List Char)
  | ' ' :: c :: text => if isDigit c then some (c :: text) else none
  | c :: text => if c = 'T' ∨ c = 't' then some text else none
  | [] => none

/-- Reads a moment from the front of a text. Only a date with a time has a zone. -/
def take? (text : List Char) : Option (Moment × List Char) :=
  if text[2]? = some ':' then (takeTime? text).map fun (t, text) => (time t, text)
  else do
    let (d, text) ← takeDate? text
    match afterDate? text with
    | none => return (date d, text)
    | some text =>
      let (t, text) ← takeTime? text
      let (zone?, text) ← takeZone? text
      return (both d t zone?, text)

def ofText? (text : List Char) : Option Moment :=
  match take? text with
  | some (moment, []) => some moment
  | _ => none

def padded (width n : Nat) : List Char :=
  (Nat.toDigits 10 n).leftpad width '0'

end Moment

open Moment (padded)

def Date.chars (d : Date) : List Char :=
  padded 4 d.year ++ '-' :: padded 2 d.month ++ '-' :: padded 2 d.day

/-- A fraction is written without the zeros at its end. -/
def TimeOfDay.chars (t : TimeOfDay) : List Char :=
  let fraction := ((padded 9 t.nanosecond).reverse.dropWhile (· == '0')).reverse
  padded 2 t.hour ++ ':' :: padded 2 t.minute ++ ':' :: padded 2 t.second ++
    if fraction = [] then [] else '.' :: fraction

def ZoneOffset.chars : ZoneOffset → List Char
  | universal => ['Z']
  | ahead hours minutes =>
    (if hours < 0 then '-' else '+') :: padded 2 hours.natAbs ++ ':' :: padded 2 minutes

def Moment.chars : Moment → List Char
  | date d => d.chars
  | time t => t.chars
  | both d t zone? => d.chars ++ 'T' :: t.chars ++ (zone?.map ZoneOffset.chars).getD []

end BlockTree
