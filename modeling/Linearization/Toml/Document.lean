import Linearization.Toml.Number

/-!
# TOML documents

`parse` reads a document of version 1.0 into the entries of its root table, or refuses it.
-/

namespace Linearization.Toml

/-- What is left after blanks, line ends and comments. -/
def skipLines : Nat → List Char → List Char
  | 0, cs => cs
  | more + 1, cs =>
    let rest := skipComment (skipBlanks cs)
    match newline? rest with
    | some rest => skipLines more rest
    | none => rest

/-- Skip blanks, line ends and comments as far as they go. -/
def skipAll (cs : List Char) : List Char := skipLines (cs.length + 1) cs

mutual

/-- A value. The second argument says how many more levels of arrays and tables may be opened. -/
def value? : Nat → Nat → List Char → Option (Node × List Char)
  | 0, _, _ => none
  | fuel + 1, depth, cs =>
    match cs with
    | '\x22' :: _ => (string? cs).map fun (s, rest) => (.string s, rest)
    | '\x27' :: _ => (string? cs).map fun (s, rest) => (.string s, rest)
    | '[' :: rest =>
      match depth with
      | 0 => none
      | depth + 1 => (items? fuel depth rest).map fun (items, rest) => (.array items, rest)
    | '\x7b' :: rest =>
      match depth with
      | 0 => none
      | depth + 1 =>
        match skipBlanks rest with
        | '\x7d' :: rest => some (.table .inline [], rest)
        | rest =>
          (fields? fuel depth [] rest).map fun (entries, rest) => (.table .inline entries, rest)
    | 't' :: 'r' :: 'u' :: 'e' :: rest => some (.boolean true, rest)
    | 'f' :: 'a' :: 'l' :: 's' :: 'e' :: rest => some (.boolean false, rest)
    | cs => number? cs

/-- The items of an array up to its closing bracket. A comma may follow the last one. -/
def items? : Nat → Nat → List Char → Option (List Node × List Char)
  | 0, _, _ => none
  | fuel + 1, depth, cs =>
    match skipAll cs with
    | ']' :: rest => some ([], rest)
    | cs => do
      let (item, rest) ← value? fuel depth cs
      match skipAll rest with
      | ',' :: rest =>
        let (items, rest) ← items? fuel depth rest
        return (item :: items, rest)
      | ']' :: rest => return ([item], rest)
      | _ => none

/-- The fields of a table between braces up to the closing one. -/
def fields? : Nat → Nat → Entries → List Char → Option (Entries × List Char)
  | 0, _, _, _ => none
  | fuel + 1, depth, entries, cs => do
    let (key, rest) ← key? cs
    let (item, rest) ← value? fuel depth (skipBlanks (← expect '=' rest))
    let entries ← entries.addValue key item
    match skipBlanks rest with
    | ',' :: rest => fields? fuel depth entries rest
    | '\x7d' :: rest => return (entries, rest)
    | _ => none

end

/-- The tables read so far and the path of the header that the next lines belong to. -/
structure Progress where
  root : Entries := []
  header : List String := []

namespace Progress

/-- A line with a key and its value. -/
def assign (p : Progress) (key : List String) (n : Node) : Option Progress := do
  return { p with root := ← Entries.atHeader (Entries.addValue key n) p.header p.root }

/-- A line with a header, whose last part is opened as given. -/
def enter (p : Progress) (openLast : String → Entries → Option Entries) (key : List String) :
    Option Progress := do
  let root ← Entries.atHeader (openLast (key.getLastD "")) key.dropLast p.root
  return { root, header := key }

/-- One line that is not empty, up to its end. -/
def line? (p : Progress) (cs : List Char) : Option (Progress × List Char) :=
  match cs with
  | '[' :: '[' :: rest => do
    let (key, rest) ← key? rest
    let rest ← lineEnd? (← expect ']' (← expect ']' rest))
    return (← p.enter Entries.openItem key, rest)
  | '[' :: rest => do
    let (key, rest) ← key? rest
    let rest ← lineEnd? (← expect ']' rest)
    return (← p.enter Entries.openTable key, rest)
  | cs => do
    let (key, rest) ← key? cs
    let rest ← expect '=' rest
    let (n, rest) ← value? (2 * rest.length + 2) (nestingLimit - 1) (skipBlanks rest)
    let rest ← lineEnd? rest
    return (← p.assign key n, rest)

/-- The lines of a document, of which there may be as many as the first argument says. -/
def lines? (p : Progress) : Nat → List Char → Option Progress
  | 0, _ => none
  | more + 1, cs =>
    match skipAll cs with
    | [] => some p
    | cs => do
      let (p, rest) ← p.line? cs
      lines? p more rest

end Progress

/-- The entries of the root table of a document. A byte order mark in front is skipped. -/
def parse (text : String) : Option Entries := do
  let cs := match text.toList with
    | '\ufeff' :: cs => cs
    | cs => cs
  return (← Progress.lines? {} (cs.length + 1) cs).root

end Linearization.Toml
