import PageFields.Text.Quoted
import PageFields.Toml.Value

/-! # TOML: unquoted scalars

A value that does not start with a quote or a bracket is a boolean, a number, a date or a time.
`readScalar?` takes the whole of its text and decides which it is. Of a float only its size matters,
of dates and times only that they exist. -/

namespace PageFields.Toml

/-- An ASCII digit. -/
def isDigit (c : Char) : Bool := '0' ≤ c && c ≤ '9'

/-- The number with these decimal digits. -/
def decimal (digits : Text) : Nat := digits.foldl (fun n c => 10 * n + (c.toNat - 48)) 0

/-- Characters with `p`, with single underscores between them. -/
def isGrouped (p : Char → Bool) (t : Text) : Bool :=
  (Text.splitOn '_' t).all fun piece => piece ≠ [] && piece.all p

/-- The text without underscores. -/
def ungroup (t : Text) : Text := t.filter (· ≠ '_')

/-- Splits off a leading sign; the flag says whether it is a minus. -/
def splitSign : Text → Bool × Text
  | '+' :: rest => (false, rest)
  | '-' :: rest => (true, rest)
  | t => (false, t)

/-! ### Numbers -/

/-- The text is a decimal number without sign and without a leading zero. -/
def isDecimal (t : Text) : Bool := isGrouped isDigit t && (t.head? ≠ some '0' || t.length = 1)

/-- The number with these digits in base `2 ^ bits`. -/
def radixValue? (bits : Nat) (digits : Text) : Option Int :=
  if isGrouped (fun c => (Quoted.hexDigit? c).any (· < Nat.pow 2 bits)) digits then
    some ((ungroup digits).foldl (fun n c => Nat.pow 2 bits * n + (Quoted.hexDigit? c).getD 0) 0)
  else none

/-- Reads an integer. -/
def readInteger? (t : Text) : Option Int :=
  match t with
  | '0' :: 'x' :: digits => radixValue? 4 digits
  | '0' :: 'o' :: digits => radixValue? 3 digits
  | '0' :: 'b' :: digits => radixValue? 1 digits
  | t =>
    let (negative, digits) := splitSign t
    if isDecimal digits then
      some (if negative then -(decimal (ungroup digits) : Int) else decimal (ungroup digits))
    else none

/-- The least number that rounds to infinity as a double. -/
def infinityBound : Nat := Nat.pow 2 1024 - Nat.pow 2 970

/-- `m * 10 ^ e` is so large that it rounds to infinity as a double. -/
def roundsToInfinity (m : Nat) (e : Int) : Bool :=
  if m = 0 then false
  else
    let size := e + (Nat.toDigits 10 m).length
    if size < 300 then false
    else if size > 320 then true
    else if e < 0 then infinityBound * Nat.pow 10 (-e).toNat ≤ m
    else infinityBound ≤ m * Nat.pow 10 e.toNat

/-- Reads the exponent of a float. -/
def readExponent? (t : Text) : Option Int :=
  let (negative, digits) := splitSign t
  if isGrouped isDigit digits then
    some (if negative then -(decimal (ungroup digits) : Int) else decimal (ungroup digits))
  else none

/-- Reads the digits of a float before its exponent: the number they make without the point, and how
many of them follow it. -/
def readSignificand? (t : Text) : Option (Nat × Nat) :=
  match Text.splitOnce? '.' t with
  | none => if isDecimal t then some (decimal (ungroup t), 0) else none
  | some (whole, fraction) =>
    if isDecimal whole && isGrouped isDigit fraction then
      some (decimal (ungroup (whole ++ fraction)), (ungroup fraction).length)
    else none

/-- Reads a float; the answer says whether it is too large. -/
def readFloat? (t : Text) : Option Bool :=
  let (_, t) := splitSign t
  if t = ['i', 'n', 'f'] ∨ t = ['n', 'a', 'n'] then some false
  else
    let lower := t.map fun c => if c = 'E' then 'e' else c
    match Text.splitOnce? 'e' lower with
    | none => if t.contains '.' then (readSignificand? t).map fun (m, k) => roundsToInfinity m (-k)
      else none
    | some (significand, exponent) => do
      let (m, k) ← readSignificand? significand
      let e ← readExponent? exponent
      pure (roundsToInfinity m (e - k))

/-! ### Dates and times -/

/-- The number with exactly `n` decimal digits. -/
def fixed? (n : Nat) (t : Text) : Option Nat :=
  if t.length = n ∧ t.all isDigit then some (decimal t) else none

/-- The number of days of a month. -/
def daysInMonth (year month : Nat) : Nat :=
  if month = 2 then
    if year % 4 = 0 ∧ (year % 100 ≠ 0 ∨ year % 400 = 0) then 29 else 28
  else if month = 4 ∨ month = 6 ∨ month = 9 ∨ month = 11 then 30
  else 31

/-- The text is a date. -/
def isDate (t : Text) : Bool :=
  match Text.splitOn '-' t with
  | [y, m, d] =>
    match fixed? 4 y, fixed? 2 m, fixed? 2 d with
    | some y, some m, some d => 1 ≤ m && m ≤ 12 && 1 ≤ d && d ≤ daysInMonth y m
    | _, _, _ => false
  | _ => false

/-- The text is a time of day in hours and minutes. -/
def isClock (t : Text) : Bool :=
  match Text.splitOn ':' t with
  | [h, m] =>
    match fixed? 2 h, fixed? 2 m with
    | some h, some m => h ≤ 23 && m ≤ 59
    | _, _ => false
  | _ => false

/-- The text is a number of seconds, perhaps with a fraction. -/
def isSeconds (t : Text) : Bool :=
  let (whole, fraction) := (Text.splitOnce? '.' t).getD (t, ['0'])
  (fixed? 2 whole).any (· ≤ 60) && fraction ≠ [] && fraction.all isDigit

/-- The text is a time of day; its seconds may be missing. -/
def isTime (t : Text) : Bool :=
  isClock t || isClock (t.take 5) && (t.drop 5).head? = some ':' && isSeconds (t.drop 6)

/-- The text is a time of day, perhaps with an offset from universal time. -/
def isOffsetTime (t : Text) : Bool :=
  isTime t || (t.getLast?.any fun c => c = 'Z' || c = 'z') && isTime t.dropLast ||
    (let back := t.length - 6
     (t.drop back).head?.any (fun c => c = '+' || c = '-') && isClock (t.drop (back + 1)) &&
       isTime (t.take back))

/-- The text is a date, a time of day, or both with a `T` or a space between them. -/
def isDatetime (t : Text) : Bool :=
  isDate t || isTime t ||
    isDate (t.take 10) && ((t.drop 10).head?.any fun c => c = 'T' || c = 't' || c = ' ') &&
      isOffsetTime (t.drop 11)

/-! ### All of them -/

/-- Reads an unquoted scalar. -/
def readScalar? (t : Text) : Option Value :=
  if t = "true".toList then some (.boolean true)
  else if t = "false".toList then some (.boolean false)
  else match readInteger? t with
    | some n => some (.integer n)
    | none => match readFloat? t with
      | some tooLarge => some (.float tooLarge)
      | none => if isDatetime t then some .datetime else none

end PageFields.Toml
