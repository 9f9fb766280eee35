import Linearization.Decimal.Nearest
import Linearization.Toml.Node
import Linearization.Toml.Text
import Linearization.Word

/-!
# Numbers and dates of a TOML document

Integers are words. Underscores may stand between digits. A float that is too large to be a double
is refused; a negative one becomes minus infinity. Dates and times are checked and then forgotten.
-/

namespace Linearization.Toml

/-- More digits, each of which may follow an underscore. -/
def moreDigits (isDigit : Char → Bool) : List Char → Option (List Char × List Char)
  | '_' :: c :: cs => if isDigit c then consChar c (moreDigits isDigit cs) else none
  | c :: cs => if isDigit c then consChar c (moreDigits isDigit cs) else some ([], c :: cs)
  | [] => some ([], [])

/-- One digit or more. -/
def digits? (isDigit : Char → Bool) : List Char → Option (List Char × List Char)
  | c :: cs => if isDigit c then consChar c (moreDigits isDigit cs) else none
  | [] => none

/-- The digits of an integer; a zero stands alone. -/
def wholeDigits? : List Char → Option (List Char × List Char)
  | '0' :: cs => some (['0'], cs)
  | cs => digits? Char.isDigit cs

/-- The number with the given digits. -/
def ofDigits (base : Nat) (ds : List Char) : Nat :=
  ds.foldl (fun n d => base * n + (hexValue? d).getD 0) 0

/-- A sign, if there is one; `true` is the minus. -/
def sign : List Char → Bool × List Char
  | '+' :: cs => (false, cs)
  | '-' :: cs => (true, cs)
  | cs => (false, cs)

/-- An integer that has to be a word. -/
def integerNode (v : Int) (rest : List Char) : Option (Node × List Char) :=
  if Word.Fits v then some (.integer v, rest) else none

/-- An integer in another base, after its prefix. -/
def based? (base : Nat) (cs : List Char) : Option (Node × List Char) := do
  let (ds, rest) ← digits? (fun c => ((hexValue? c).any fun v => v < base)) cs
  integerNode (ofDigits base ds) rest

/-- The exponent of a float, if there is one. -/
def exponent? : List Char → Option (Option Int × List Char)
  | c :: cs =>
    if c = 'e' ∨ c = 'E' then do
      let (negative, cs) := sign cs
      let (ds, rest) ← digits? Char.isDigit cs
      let e : Int := ofDigits 10 ds
      return (some (if negative then -e else e), rest)
    else some (none, c :: cs)
  | [] => some (none, [])

/-- A float from its parts; one beyond the largest double is refused unless it is negative. -/
def floatNode (negative : Bool) (whole fraction : List Char) (exponent : Int) (rest : List Char) :
    Option (Node × List Char) :=
  let x := Decimal.nearestDouble (ofDigits 10 (whole ++ fraction)) (exponent - fraction.length)
  if negative then some (.float (-x), rest)
  else if x.isInf then none
  else some (.float x, rest)

/-- A decimal integer or a float, after its sign. -/
def decimal? (negative : Bool) (cs : List Char) : Option (Node × List Char) := do
  let (whole, rest) ← wholeDigits? cs
  match rest with
  | '.' :: rest =>
    let (fraction, rest) ← digits? Char.isDigit rest
    let (exponent, rest) ← exponent? rest
    floatNode negative whole fraction (exponent.getD 0) rest
  | rest =>
    match ← exponent? rest with
    | (some exponent, rest) => floatNode negative whole [] exponent rest
    | (none, rest) =>
      let v : Int := ofDigits 10 whole
      integerNode (if negative then -v else v) rest

/-- Infinity or not a number, after its sign. -/
def special? (negative : Bool) : List Char → Option (Node × List Char)
  | 'i' :: 'n' :: 'f' :: rest => some (.float (if negative then -1.0 / 0.0 else 1.0 / 0.0), rest)
  | 'n' :: 'a' :: 'n' :: rest => some (.float (0.0 / 0.0), rest)
  | _ => none

/-- Two digits whose number is in a range. -/
def twoDigits? (least greatest : Nat) : List Char → Option (Nat × List Char)
  | a :: b :: rest =>
    let v := ofDigits 10 [a, b]
    if a.isDigit ∧ b.isDigit ∧ least ≤ v ∧ v ≤ greatest then some (v, rest) else none
  | _ => none

/-- What is left after a given character. -/
def expect (c : Char) : List Char → Option (List Char)
  | d :: rest => if d = c then some rest else none
  | [] => none

def daysInMonth (year month : Nat) : Nat :=
  if month = 2 then
    if year % 4 = 0 ∧ (year % 100 ≠ 0 ∨ year % 400 = 0) then 29 else 28
  else if month = 4 ∨ month = 6 ∨ month = 9 ∨ month = 11 then 30
  else 31

/-- What is left after the digits of a fraction of a second, if there is one. -/
def secondFraction? : List Char → Option (List Char)
  | '.' :: c :: rest => if c.isDigit then some (rest.dropWhile Char.isDigit) else none
  | '.' :: [] => none
  | rest => some rest

/-- What is left after a time of day. -/
def time? (cs : List Char) : Option (List Char) := do
  let (_, rest) ← twoDigits? 0 23 cs
  let (_, rest) ← twoDigits? 0 59 (← expect ':' rest)
  let (_, rest) ← twoDigits? 0 60 (← expect ':' rest)
  secondFraction? rest

/-- What is left after the offset of a time, if there is one. -/
def offset? : List Char → Option (List Char)
  | c :: rest =>
    if c = 'Z' ∨ c = 'z' then some rest
    else if c = '+' ∨ c = '-' then do
      let (_, rest) ← twoDigits? 0 23 rest
      let (_, rest) ← twoDigits? 0 59 (← expect ':' rest)
      return rest
    else some (c :: rest)
  | [] => some []

/-- Two digits and a colon begin a time. -/
def beginsTime : List Char → Bool
  | a :: b :: ':' :: _ => a.isDigit && b.isDigit
  | _ => false

/-- What is left after a date, which may be followed by a time and its offset. -/
def date? : List Char → Option (List Char)
  | a :: b :: c :: d :: '-' :: rest => do
    let (month, rest) ← twoDigits? 1 12 rest
    let (day, rest) ← twoDigits? 1 31 (← expect '-' rest)
    if day > daysInMonth (ofDigits 10 [a, b, c, d]) month then none
    else
      match rest with
      | mark :: rest' =>
        if (mark = 'T' ∨ mark = 't' ∨ mark = ' ') ∧ beginsTime rest' then do
          offset? (← time? rest')
        else some rest
      | [] => some []
  | _ => none

/-- Four digits and a dash begin a date. -/
def beginsDate : List Char → Bool
  | a :: b :: c :: d :: '-' :: _ => a.isDigit && b.isDigit && c.isDigit && d.isDigit
  | _ => false

/-- A number, a date or a time. -/
def number? (cs : List Char) : Option (Node × List Char) :=
  if beginsDate cs then (date? cs).map fun rest => (.dateTime, rest)
  else if beginsTime cs then (time? cs).map fun rest => (.dateTime, rest)
  else
    match cs with
    | '0' :: 'x' :: rest => based? 16 rest
    | '0' :: 'o' :: rest => based? 8 rest
    | '0' :: 'b' :: rest => based? 2 rest
    | cs =>
      let (negative, rest) := sign cs
      match special? negative rest with
      | some result => some result
      | none => decimal? negative rest

end Linearization.Toml
