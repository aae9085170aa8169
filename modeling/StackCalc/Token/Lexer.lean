/-
Cutting a source text into tokens.

At each place the longest piece is taken that is a token, a run of separators or a closed
comment.  `Piece.front` decides which from the text that starts there and says how many
characters follow the first one, so a piece is never empty and the pieces, put together,
are the text; the scan ends because each step leaves a shorter rest.

Where no piece starts the scan stops, and the error covers what could still have become
one: the rest of the line after an open quote, the rest of the text after an open comment,
and one character otherwise.
-/
import StackCalc.Source.Span
import StackCalc.Token.Kind

namespace StackCalc

/-- One token with its text (a string without its quotes) and where it stands. -/
structure Token where
  kind : TokenKind
  literal : String
  site : Site
deriving DecidableEq, Repr

/-- A place where no token starts, with the text that could not be used. -/
structure LexError where
  site : Site
  snippet : String
deriving DecidableEq, Repr

namespace LexError

/-- What the writer of the text may have meant. -/
def suggestion (e : LexError) : String :=
  match e.snippet.toList with
  | '"' :: _ => "Close the string with '\"' before the end of the line."
  | ':' :: _ => "Assignment is written ':='."
  | '\x7d' :: _ =>
    "Comments are written '\x7b ... \x7d'; this '\x7d' has no opening brace."
  | _ => "Unexpected character(s): '" ++ e.snippet ++ "'."

def message (e : LexError) : String :=
  "lexical error at " ++ toString e.site.position.line ++ ":" ++
    toString e.site.position.column ++ ": '" ++ e.snippet ++ "'. " ++ e.suggestion

end LexError

/-! ### Classes of characters -/

/-- A separator.  Other blanks, such as the no-break space, start no token. -/
def isSeparator (c : Char) : Bool :=
  c == ' ' || c == '\t' || c == '\r' || c == '\n' || c == '\x0c'

/-- A digit, or the tick that groups digits. -/
def isNumberChar (c : Char) : Bool :=
  c.isDigit || c == '\''

/-- What a name starts with. -/
def isNameStart (c : Char) : Bool :=
  c.isAlpha || c == '_'

/-- What a name goes on with. -/
def isNameChar (c : Char) : Bool :=
  c.isAlphanum || c == '_'

/-- What may stand between the quotes of a string. -/
def isStringChar (c : Char) : Bool :=
  c != '"' && c != '\n'

/-- What may stand inside a comment. -/
def isCommentChar (c : Char) : Bool :=
  c != '\x7d'

/-! ### The piece at the front of a text -/

/-- A piece at the front of a text, which covers the first character and `more` after it. -/
inductive Piece where
  /-- Separators or a closed comment. -/
  | gap (more : Nat)
  | lexeme (kind : TokenKind) (more : Nat)
  /-- Nothing starts here. -/
  | bad (more : Nat)
deriving DecidableEq, Repr

namespace Piece

/-- How many characters of the class stand at the front. -/
def run (p : Char → Bool) (cs : List Char) : Nat :=
  (cs.takeWhile p).length

/-- After the first digit of a number: the digits go on, and a point counts only when a
digit follows it. -/
def number (cs : List Char) : Piece :=
  let whole := run isNumberChar cs
  match cs.drop whole with
  | '.' :: d :: rest =>
    if d.isDigit then .lexeme (.number .double) (whole + 2 + run isNumberChar rest)
    else .lexeme (.number .integer) whole
  | _ => .lexeme (.number .integer) whole

/-- After an opening quote: the string closes on the same line or not at all. -/
def string (cs : List Char) : Piece :=
  let body := run isStringChar cs
  match cs.drop body with
  | '"' :: _ => .lexeme .string (body + 1)
  | _ => .bad body

/-- After an opening brace. -/
def comment (cs : List Char) : Piece :=
  let body := run isCommentChar cs
  match cs.drop body with
  | '\x7d' :: _ => .gap (body + 1)
  | _ => .bad body

/-- After the first character of a name: the whole name decides whether it is a keyword. -/
def name (c : Char) (cs : List Char) : Piece :=
  let more := run isNameChar cs
  match Keyword.ofSpelling? (String.ofList (c :: cs.take more)) with
  | some k => .lexeme (.keyword k) more
  | none => .lexeme .identifier more

/-- A mark of two symbols if there is one, else a mark of one. -/
def mark (c : Char) (cs : List Char) : Piece :=
  match Mark.ofSpelling? (String.ofList (c :: cs.take 1)), Mark.ofSpelling? (String.ofList [c]) with
  | some m, _ => .lexeme (.mark m) (cs.take 1).length
  | none, some m => .lexeme (.mark m) 0
  | none, none => .bad 0

/-- The piece at the front of the text that starts with `c` and goes on with `cs`. -/
def front (c : Char) (cs : List Char) : Piece :=
  if isSeparator c then .gap (run isSeparator cs)
  else if c = '\x7b' then comment cs
  else if c = '"' then string cs
  else if c.isDigit then number cs
  else if isNameStart c then name c cs
  else mark c cs

end Piece

/-! ### The scan -/

/-- A place in the text: the offset in bytes and the position shown for it. -/
structure Place where
  offset : Nat
  position : Position
deriving DecidableEq, Repr

namespace Place

def start : Place := ⟨0, ⟨1, 1⟩⟩

/-- The place after one more character. -/
def advance (p : Place) (c : Char) : Place :=
  if c = '\n' then ⟨p.offset + c.utf8Size, ⟨p.position.line + 1, 1⟩⟩
  else ⟨p.offset + c.utf8Size, ⟨p.position.line, p.position.column + c.utf8Size⟩⟩

/-- The place after a run of characters. -/
def after (p : Place) (cs : List Char) : Place :=
  cs.foldl advance p

/-- The site of a piece of text that starts here. -/
def siteOf (p : Place) (text : List Char) : Site :=
  ⟨p.position, ⟨p.offset, p.offset + byteLength text⟩⟩

end Place

namespace Token

/-- The literal of a token: its text, which for a string is what stands between the
quotes. -/
def literalOf (kind : TokenKind) (text : List Char) : String :=
  match kind with
  | .string => String.ofList (text.drop 1).dropLast
  | _ => String.ofList text

/-- Scans a text that starts at `p`, after the tokens `done`. -/
def scanFrom (p : Place) (done : Array Token) : List Char → Except LexError (Array Token)
  | [] => .ok done
  | c :: cs =>
    match Piece.front c cs with
    | .gap more => scanFrom (p.after (c :: cs.take more)) done (cs.drop more)
    | .lexeme kind more =>
      let text := c :: cs.take more
      scanFrom (p.after text) (done.push ⟨kind, literalOf kind text, p.siteOf text⟩)
        (cs.drop more)
    | .bad more =>
      let text := c :: cs.take more
      .error ⟨p.siteOf text, String.ofList text⟩
termination_by cs => cs.length
decreasing_by
  all_goals
    simp only [List.length_drop, List.length_cons]
    omega

/-- The tokens of a source text. -/
def scan (source : String) : Except LexError (List Token) :=
  (scanFrom .start #[] source.toList).map Array.toList

end Token

end StackCalc
