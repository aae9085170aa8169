/-
The kinds of token.

There are words with a fixed meaning, marks made of one or two symbols, numbers, strings
and names.  Only a few of the words and marks can take part in an expression; the others
belong to statements and declarations, which are scanned so that they can be refused by
name.
-/

namespace StackCalc

/-- Words with a fixed meaning. -/
inductive Keyword where
  | varWord
  | constWord
  | procedureWord
  | callWord
  | beginWord
  | endWord
  | ifWord
  | thenWord
  | elseWord
  | whileWord
  | doWord
  | forWord
  | printWord
  | oddWord
  | trueWord
  | falseWord
deriving DecidableEq, Repr

namespace Keyword

def all : List Keyword :=
  [varWord, constWord, procedureWord, callWord, beginWord, endWord, ifWord, thenWord,
    elseWord, whileWord, doWord, forWord, printWord, oddWord, trueWord, falseWord]

def spelling : Keyword → String
  | varWord => "var"
  | constWord => "const"
  | procedureWord => "procedure"
  | callWord => "call"
  | beginWord => "begin"
  | endWord => "end"
  | ifWord => "if"
  | thenWord => "then"
  | elseWord => "else"
  | whileWord => "while"
  | doWord => "do"
  | forWord => "for"
  | printWord => "print"
  | oddWord => "odd"
  | trueWord => "true"
  | falseWord => "false"

/-- The keyword that is spelled so; the spelling is exact. -/
def ofSpelling? (s : String) : Option Keyword :=
  all.find? fun k => k.spelling == s

theorem mem_all (k : Keyword) : k ∈ all := by
  cases k <;> decide

/-- Spellings name keywords and keywords have one spelling each. -/
theorem ofSpelling?_eq_some_iff {s : String} {k : Keyword} :
    ofSpelling? s = some k ↔ k.spelling = s := by
  constructor
  · intro h
    simpa using List.find?_some h
  · rintro rfl
    cases k <;> decide

end Keyword

/-- Marks of punctuation and operators. -/
inductive Mark where
  | dot
  | comma
  | semicolon
  | assign
  | leftParen
  | rightParen
  | plus
  | minus
  | star
  | slash
  | equal
  | equalEqual
  | bangEqual
  | hash
  | less
  | lessEqual
  | greater
  | greaterEqual
  | bang
deriving DecidableEq, Repr

namespace Mark

def all : List Mark :=
  [dot, comma, semicolon, assign, leftParen, rightParen, plus, minus, star, slash, equal,
    equalEqual, bangEqual, hash, less, lessEqual, greater, greaterEqual, bang]

def spelling : Mark → String
  | dot => "."
  | comma => ","
  | semicolon => ";"
  | assign => ":="
  | leftParen => "("
  | rightParen => ")"
  | plus => "+"
  | minus => "-"
  | star => "*"
  | slash => "/"
  | equal => "="
  | equalEqual => "=="
  | bangEqual => "!="
  | hash => "#"
  | less => "<"
  | lessEqual => "<="
  | greater => ">"
  | greaterEqual => ">="
  | bang => "!"

/-- The mark that is spelled so. -/
def ofSpelling? (s : String) : Option Mark :=
  all.find? fun m => m.spelling == s

theorem mem_all (m : Mark) : m ∈ all := by
  cases m <;> decide

/-- Spellings name marks and marks have one spelling each. -/
theorem ofSpelling?_eq_some_iff {s : String} {m : Mark} :
    ofSpelling? s = some m ↔ m.spelling = s := by
  constructor
  · intro h
    simpa using List.find?_some h
  · rintro rfl
    cases m <;> decide

end Mark

/-- What a number token stands for; a point between digits makes it a double. -/
inductive NumberKind where
  | integer
  | double
deriving DecidableEq, Repr

/-- The kinds of token. -/
inductive TokenKind where
  | keyword (k : Keyword)
  | mark (m : Mark)
  | number (n : NumberKind)
  | string
  | identifier
deriving DecidableEq, Repr

/-- The spelling of a fixed token, and a common noun for the others. -/
def TokenKind.symbol : TokenKind → String
  | keyword k => k.spelling
  | mark m => m.spelling
  | number .integer => "integer"
  | number .double => "double"
  | string => "string"
  | identifier => "identifier"

end StackCalc
