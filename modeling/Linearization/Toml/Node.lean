/-!
# The values of a TOML document

Tables are lists of entries in the order in which the entries were made. How a table came about
decides what may still be added to it: a table with a header of its own and a table on the way to
one may get sub-tables, a table made by dotted keys may get more dotted keys, and a table written as
a value is closed.
-/

namespace Linearization.Toml

/-- How a table came about. -/
inductive Origin where
  /-- Written between braces. -/
  | inline
  /-- It has a header. -/
  | header
  /-- It lies on the way to a header. -/
  | path
  /-- It lies on the way of a dotted key. -/
  | dotted
  deriving DecidableEq, Repr

/-- A value. -/
inductive Node where
  | string (s : String)
  | integer (v : Int)
  | float (x : Float)
  | boolean (b : Bool)
  | dateTime
  | array (items : List Node)
  | table (origin : Origin) (entries : List (String × Node))
  /-- The tables with the same header in double brackets, the last one first. -/
  | tables (items : List (List (String × Node)))

/-- The entries of a table. -/
abbrev Entries := List (String × Node)

namespace Entries

def find? (es : Entries) (key : String) : Option Node :=
  (List.find? (fun entry => entry.1 == key) es).map Prod.snd

/-- Change an entry in its place, or append it. -/
def put (es : Entries) (key : String) (n : Node) : Entries :=
  if (es.find? key).isSome then es.map fun entry => if entry.1 == key then (key, n) else entry
  else es ++ [(key, n)]

def erase (es : Entries) (key : String) : Entries := es.filter fun entry => entry.1 != key

/-- An entry that must not be there yet. -/
def insertNew (es : Entries) (key : String) (n : Node) : Option Entries :=
  if (es.find? key).isSome then none else some (es ++ [(key, n)])

/-- Change the table at the end of a path of headers. Tables missing on the way are made, and of
tables with the same header the last one is meant. -/
def atHeader (change : Entries → Option Entries) : List String → Entries → Option Entries
  | [], es => change es
  | key :: path, es =>
    match es.find? key with
    | none => do return es ++ [(key, .table .path (← atHeader change path []))]
    | some (.table .inline _) => none
    | some (.table origin inner) => do
      return es.put key (.table origin (← atHeader change path inner))
    | some (.tables (last :: others)) => do
      return es.put key (.tables ((← atHeader change path last) :: others))
    | some _ => none

/-- Add a value at the end of a dotted key, or under a plain one. Tables missing on the way are
made. The way may pass tables that other dotted keys made, tables on the way to a header and the
last table of those with the same header, but only a table of the first kind may take the value. -/
def atDotted (name : String) (n : Node) : Bool → List String → Entries → Option Entries
  | takes, [], es => if takes then es.insertNew name n else none
  | _, key :: path, es =>
    match es.find? key with
    | none => do return es ++ [(key, .table .dotted (← atDotted name n true path []))]
    | some (.table .dotted inner) => do
      return es.put key (.table .dotted (← atDotted name n true path inner))
    | some (.table .path inner) => do
      return es.put key (.table .path (← atDotted name n false path inner))
    | some (.tables (last :: others)) => do
      return es.put key (.tables ((← atDotted name n false path last) :: others))
    | some _ => none

/-- Add the value of a key with its dotted parts. -/
def addValue (key : List String) (n : Node) (es : Entries) : Option Entries :=
  atDotted (key.getLastD "") n true key.dropLast es

/-- Give a table a header of its own. -/
def openTable (key : String) (es : Entries) : Option Entries :=
  match es.find? key with
  | none => some (es ++ [(key, .table .header [])])
  | some (.table .path inner) => some (es.put key (.table .header inner))
  | some _ => none

/-- Begin one more table with the same header. -/
def openItem (key : String) (es : Entries) : Option Entries :=
  match es.find? key with
  | none => some (es ++ [(key, .tables [[]])])
  | some (.tables items) => some (es.put key (.tables ([] :: items)))
  | some _ => none

end Entries

end Linearization.Toml
