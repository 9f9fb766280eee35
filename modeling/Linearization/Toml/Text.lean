/-!
# Characters and strings of a TOML document

Blanks, line ends, comments, keys and the four kinds of strings. Every reader takes the characters
that are left and gives its result with the characters after it, or nothing if the text is not well
formed.
-/

namespace Linearization.Toml

/-- A character that lines may hold anywhere: a tab or anything that is not a control character. -/
def isPrintable (c : Char) : Bool := c = '\t' || (c ≥ ' ' && c ≠ '\x7f')

def isBlank (c : Char) : Bool := c = ' ' || c = '\t'

/-- What is left after spaces and tabs. -/
def skipBlanks (cs : List Char) : List Char := cs.dropWhile isBlank

/-- What is left after a comment, if there is one. -/
def skipComment : List Char → List Char
  | '#' :: cs => cs.dropWhile isPrintable
  | cs => cs

/-- What is left after a line end. -/
def newline? : List Char → Option (List Char)
  | '\n' :: cs => some cs
  | '\r' :: '\n' :: cs => some cs
  | _ => none

/-- What is left after the rest of a line on which nothing but a comment may stand. -/
def lineEnd? (cs : List Char) : Option (List Char) :=
  match skipComment (skipBlanks cs) with
  | [] => some []
  | cs => newline? cs

/-- The value of a hexadecimal digit. -/
def hexValue? (c : Char) : Option Nat :=
  if '0' ≤ c ∧ c ≤ '9' then some (c.toNat - 48)
  else if 'a' ≤ c ∧ c ≤ 'f' then some (c.toNat - 87)
  else if 'A' ≤ c ∧ c ≤ 'F' then some (c.toNat - 55)
  else none

/-- The character with a hexadecimal code; surrogates and codes beyond the last character are no
characters. -/
def charOfHex? (ds : List Char) : Option Char := do
  let code ← ds.foldlM (fun n d => do return 16 * n + (← hexValue? d)) 0
  if code < 0xd800 ∨ (0xdfff < code ∧ code < 0x110000) then some (Char.ofNat code) else none

/-- The character of a one-letter escape. -/
def escape? : Char → Option Char
  | 'b' => some '\x08'
  | 't' => some '\t'
  | 'n' => some '\n'
  | 'f' => some '\x0c'
  | 'r' => some '\r'
  | '\x22' => some '\x22'
  | '\\' => some '\\'
  | _ => none

/-- Put a character in front of what is read. -/
def consChar (c : Char) (read : Option (List Char × List Char)) : Option (List Char × List Char) :=
  read.map fun (s, rest) => (c :: s, rest)

/-- The rest of a string in double quotes. -/
def basicString : List Char → Option (List Char × List Char)
  | '\x22' :: cs => some ([], cs)
  | '\\' :: 'u' :: a :: b :: c :: d :: cs => do
    consChar (← charOfHex? [a, b, c, d]) (basicString cs)
  | '\\' :: 'U' :: a :: b :: c :: d :: e :: f :: g :: h :: cs => do
    consChar (← charOfHex? [a, b, c, d, e, f, g, h]) (basicString cs)
  | '\\' :: c :: cs => do consChar (← escape? c) (basicString cs)
  | c :: cs => if isPrintable c ∧ c ≠ '\\' then consChar c (basicString cs) else none
  | [] => none

/-- The rest of a string in single quotes. -/
def literalString : List Char → Option (List Char × List Char)
  | '\x27' :: cs => some ([], cs)
  | c :: cs => if isPrintable c then consChar c (literalString cs) else none
  | [] => none

/-- Only blanks stand before the end of the line. -/
def blankToLineEnd (cs : List Char) : Bool := (newline? (skipBlanks cs)).isSome

/-- The rest of a string in triple double quotes. After a backslash at the end of a line everything
up to the next character that is neither a blank nor a line end is skipped. One or two quotes may
stand right before the closing ones. -/
def multilineBasic (skipping : Bool) : List Char → Option (List Char × List Char)
  | '\r' :: '\n' :: cs =>
    if skipping then multilineBasic true cs else consChar '\n' (multilineBasic false cs)
  | '\x22' :: '\x22' :: '\x22' :: '\x22' :: '\x22' :: cs => some (['\x22', '\x22'], cs)
  | '\x22' :: '\x22' :: '\x22' :: '\x22' :: cs => some (['\x22'], cs)
  | '\x22' :: '\x22' :: '\x22' :: cs => some ([], cs)
  | '\\' :: 'u' :: a :: b :: c :: d :: cs => do
    consChar (← charOfHex? [a, b, c, d]) (multilineBasic false cs)
  | '\\' :: 'U' :: a :: b :: c :: d :: e :: f :: g :: h :: cs => do
    consChar (← charOfHex? [a, b, c, d, e, f, g, h]) (multilineBasic false cs)
  | '\\' :: c :: cs =>
    if blankToLineEnd (c :: cs) then
      if c = '\r' then multilineBasic true (c :: cs) else multilineBasic true cs
    else do
      consChar (← escape? c) (multilineBasic false cs)
  | c :: cs =>
    if skipping ∧ (isBlank c ∨ c = '\n') then multilineBasic true cs
    else if c = '\n' ∨ (isPrintable c ∧ c ≠ '\\') then
      consChar c (multilineBasic false cs)
    else none
  | [] => none

/-- The rest of a string in triple single quotes. -/
def multilineLiteral : List Char → Option (List Char × List Char)
  | '\r' :: '\n' :: cs => consChar '\n' (multilineLiteral cs)
  | '\x27' :: '\x27' :: '\x27' :: '\x27' :: '\x27' :: cs => some (['\x27', '\x27'], cs)
  | '\x27' :: '\x27' :: '\x27' :: '\x27' :: cs => some (['\x27'], cs)
  | '\x27' :: '\x27' :: '\x27' :: cs => some ([], cs)
  | c :: cs => if c = '\n' ∨ isPrintable c then consChar c (multilineLiteral cs) else none
  | [] => none

/-- A line end right after the opening quotes is not part of the string. -/
def dropFirstNewline (cs : List Char) : List Char := (newline? cs).getD cs

/-- A string of any kind. -/
def string? (cs : List Char) : Option (String × List Char) :=
  let text (read : Option (List Char × List Char)) : Option (String × List Char) :=
    read.map fun (s, rest) => (String.ofList s, rest)
  match cs with
  | '\x22' :: '\x22' :: '\x22' :: cs => text (multilineBasic false (dropFirstNewline cs))
  | '\x27' :: '\x27' :: '\x27' :: cs => text (multilineLiteral (dropFirstNewline cs))
  | '\x22' :: cs => text (basicString cs)
  | '\x27' :: cs => text (literalString cs)
  | _ => none

/-- A character of a key without quotes. -/
def isBare (c : Char) : Bool :=
  ('a' ≤ c && c ≤ 'z') || ('A' ≤ c && c ≤ 'Z') || ('0' ≤ c && c ≤ '9') || c = '-' || c = '_'

/-- One part of a key. -/
def keyPart? (cs : List Char) : Option (String × List Char) :=
  match cs with
  | '\x22' :: rest => (basicString rest).map fun (s, rest) => (String.ofList s, rest)
  | '\x27' :: rest => (literalString rest).map fun (s, rest) => (String.ofList s, rest)
  | cs =>
    match cs.takeWhile isBare with
    | [] => none
    | name => some (String.ofList name, cs.dropWhile isBare)

/-- The parts of a key, of which there may be as many as the first argument says. Blanks around each
are skipped. -/
def keyParts? : Nat → List Char → Option (List String × List Char)
  | 0, _ => none
  | more + 1, cs => do
    let (part, rest) ← keyPart? (skipBlanks cs)
    match skipBlanks rest with
    | '.' :: rest =>
      let (parts, rest) ← keyParts? more rest
      return (part :: parts, rest)
    | rest => return ([part], rest)

/-- How deep keys and values may be nested, exclusively. -/
def nestingLimit : Nat := 80

/-- A key with its dotted parts. -/
def key? (cs : List Char) : Option (List String × List Char) := keyParts? (nestingLimit - 1) cs

end Linearization.Toml
