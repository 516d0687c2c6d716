-- TOML dates and times: a date, a time of day, or both, perhaps with an offset. Each has
-- one text, in which a `T` stands between date and time.

namespace Permit.Toml

/-- The number of exactly `count` decimal digits, after those that make `n`. -/
def digits? (n : Nat) : Nat → List Char → Option (Nat × List Char)
  | 0, s => some (n, s)
  | _ + 1, [] => none
  | count + 1, c :: rest =>
    if c.isDigit then digits? (10 * n + (c.toNat - '0'.toNat)) count rest else none

/-- The digits of a number, with zeros in front up to the width. -/
def padded (width n : Nat) : List Char :=
  let digits := Nat.toDigits 10 n
  List.replicate (width - digits.length) '0' ++ digits

/-! ## Dates -/

/-- Whether a year has a leap day. -/
def isLeapYear (year : Nat) : Bool :=
  year % 4 == 0 && (year % 100 != 0 || year % 400 == 0)

/-- The number of days of a month. -/
def daysOf (year month : Nat) : Nat :=
  if month = 2 then (if isLeapYear year then 29 else 28)
  else if month = 4 ∨ month = 6 ∨ month = 9 ∨ month = 11 then 30
  else 31

/-- The text of a date at the start, if it is one. -/
def date? (s : List Char) : Option (List Char × List Char) :=
  match digits? 0 4 s with
  | some (year, '-' :: rest) =>
    match digits? 0 2 rest with
    | some (month, '-' :: rest) =>
      match digits? 0 2 rest with
      | some (day, rest) =>
        if 1 ≤ month ∧ month ≤ 12 ∧ 1 ≤ day ∧ day ≤ daysOf year month then
          some (padded 4 year ++ '-' :: padded 2 month ++ '-' :: padded 2 day, rest)
        else none
      | none => none
    | _ => none
  | _ => none

/-! ## Times -/

/-- The digits without the zeros at their end. -/
def trimZeros (digits : List Char) : List Char :=
  (digits.reverse.dropWhile (· == '0')).reverse

/-- The text of a fraction of a second: nine digits count. -/
def fractionText (digits : List Char) : List Char :=
  let trimmed := trimZeros (digits.take 9)
  '.' :: if trimmed = [] then ['0'] else trimmed

/-- The text of the fraction of a second at the start, if there is one. -/
def secondFraction? : List Char → Option (List Char × List Char)
  | '.' :: rest =>
    let digits := rest.takeWhile Char.isDigit
    if digits = [] then none else some (fractionText digits, rest.dropWhile Char.isDigit)
  | s => some ([], s)

/-- The text of the seconds at the start, if there are any. A minute may have 61. -/
def seconds? : List Char → Option (List Char × List Char)
  | ':' :: rest =>
    match digits? 0 2 rest with
    | some (second, rest) =>
      if 60 < second then none
      else
        (secondFraction? rest).map fun (fraction, rest) =>
          (':' :: padded 2 second ++ fraction, rest)
    | none => none
  | s => some ([], s)

/-- The text of hours and minutes at the start. -/
def hourMinute? (s : List Char) : Option (List Char × List Char) :=
  match digits? 0 2 s with
  | some (hour, ':' :: rest) =>
    match digits? 0 2 rest with
    | some (minute, rest) =>
      if hour ≤ 23 ∧ minute ≤ 59 then
        some (padded 2 hour ++ ':' :: padded 2 minute, rest)
      else none
    | none => none
  | _ => none

/-- The text of a time of day at the start. -/
def time? (s : List Char) : Option (List Char × List Char) :=
  match hourMinute? s with
  | none => none
  | some (start, rest) => (seconds? rest).map fun (seconds, rest) => (start ++ seconds, rest)

/-- The text of an offset, if the rest is nothing but that. No offset is negative zero. -/
def offset? : List Char → Option (List Char)
  | [] => some []
  | ['Z'] | ['z'] => some ['Z']
  | mark :: rest =>
    if mark = '+' ∨ mark = '-' then
      match hourMinute? rest with
      | some (t, []) => some ((if t = "00:00".toList then '+' else mark) :: t)
      | _ => none
    else none

/-! ## Both -/

/-- The text of a date or a time that a word spells. -/
def moment? (s : List Char) : Option (List Char) :=
  match date? s with
  | some (date, []) => some date
  | some (date, mark :: rest) =>
    if mark = 'T' ∨ mark = 't' ∨ mark = ' ' then do
      let (time, rest) ← time? rest
      let offset ← offset? rest
      return date ++ 'T' :: time ++ offset
    else none
  | none =>
    match time? s with
    | some (time, []) => some time
    | _ => none

end Permit.Toml
