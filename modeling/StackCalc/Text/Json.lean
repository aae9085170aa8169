/-
JSON documents, and writing them as text.

A document is a value of `Json`; an object keeps its fields in the order given, since that
order shows in the text.  There are no fractions: every number written here counts
something.  Two layouts exist, one without any blanks and one with a line for every entry.
-/

namespace StackCalc

/-- A JSON document whose numbers are natural. -/
inductive Json where
  | null
  | bool (b : Bool)
  | num (n : Nat)
  | str (s : String)
  | arr (items : List Json)
  | obj (fields : List (String × Json))

namespace Json

/-- The two hexadecimal digits of a byte, in lower case. -/
def hexByte (n : Nat) : List Char :=
  [Nat.digitChar (n / 16 % 16), Nat.digitChar (n % 16)]

/-- How one character stands inside a string: the quote, the backslash and the controls are
escaped, and all else stands for itself. -/
def escapeChar (c : Char) : List Char :=
  if c = '"' then ['\\', '"']
  else if c = '\\' then ['\\', '\\']
  else if c.toNat = 0x08 then ['\\', 'b']
  else if c.toNat = 0x0C then ['\\', 'f']
  else if c = '\n' then ['\\', 'n']
  else if c = '\r' then ['\\', 'r']
  else if c = '\t' then ['\\', 't']
  else if c.toNat < 0x20 then ['\\', 'u', '0', '0'] ++ hexByte c.toNat
  else [c]

/-- A string between quotes. -/
def quote (s : String) : String :=
  "\"" ++ String.ofList (s.toList.flatMap escapeChar) ++ "\""

mutual

/-- The document on one line, without blanks. -/
def compact : Json → String
  | null => "null"
  | bool true => "true"
  | bool false => "false"
  | num n => toString n
  | str s => quote s
  | arr items => "[" ++ compactItems items ++ "]"
  | obj fields => "\x7b" ++ compactFields fields ++ "\x7d"

/-- The items of an array with commas between them. -/
def compactItems : List Json → String
  | [] => ""
  | [j] => j.compact
  | j :: k :: rest => j.compact ++ "," ++ compactItems (k :: rest)

/-- The fields of an object with commas between them. -/
def compactFields : List (String × Json) → String
  | [] => ""
  | [(name, j)] => quote name ++ ":" ++ j.compact
  | (name, j) :: f :: rest => quote name ++ ":" ++ j.compact ++ "," ++ compactFields (f :: rest)

end

/-- A line break and the margin of a nesting depth, two blanks for each level. -/
def margin (depth : Nat) : String :=
  "\n" ++ String.ofList (List.replicate (2 * depth) ' ')

mutual

/-- The document with every entry on a line of its own, seen from `depth` levels inside. -/
def prettyAt (depth : Nat) : Json → String
  | arr [] => "[]"
  | arr (j :: rest) =>
    "[" ++ margin (depth + 1) ++ j.prettyAt (depth + 1) ++ prettyItems (depth + 1) rest ++
      margin depth ++ "]"
  | obj [] => "\x7b\x7d"
  | obj ((name, j) :: rest) =>
    "\x7b" ++ margin (depth + 1) ++ quote name ++ ": " ++ j.prettyAt (depth + 1) ++
      prettyFields (depth + 1) rest ++ margin depth ++ "\x7d"
  | null => "null"
  | bool true => "true"
  | bool false => "false"
  | num n => toString n
  | str s => quote s

/-- The items after the first. -/
def prettyItems (depth : Nat) : List Json → String
  | [] => ""
  | j :: rest => "," ++ margin depth ++ j.prettyAt depth ++ prettyItems depth rest

/-- The fields after the first. -/
def prettyFields (depth : Nat) : List (String × Json) → String
  | [] => ""
  | (name, j) :: rest =>
    "," ++ margin depth ++ quote name ++ ": " ++ j.prettyAt depth ++ prettyFields depth rest

end

/-- The document with every entry on a line of its own. -/
def pretty (j : Json) : String :=
  j.prettyAt 0

end Json

end StackCalc
