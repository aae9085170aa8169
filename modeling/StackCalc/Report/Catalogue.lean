/-
The catalogue of error codes.

Each code that a report can carry is listed with a summary of one line and an explanation.
The codes are grouped by the stage that reports them: scanning, parsing, lowering, running.
-/

namespace StackCalc

/-- What is said about one code. -/
structure CatalogueEntry where
  code : String
  summary : String
  explanation : String
deriving DecidableEq, Repr

namespace Catalogue

/-- A text of whole lines. -/
def lines (ls : List String) : String :=
  String.join (ls.map fun l => l ++ "\n")

/-- Every code, in the order in which they are listed. -/
def entries : List CatalogueEntry := [
  { code := "PL0-L001"
    summary := "unexpected character"
    explanation := lines [
      "## PL0-L001: unexpected character",
      "",
      "A character was found that does not start any token.",
      "",
      "**Example:**",
      "",
      "    1 + $2",
      "",
      "`$` is not part of the language. Note that assignment is written `:=`;",
      "a lone `:` is reported here too."] },
  { code := "PL0-L002"
    summary := "unterminated string literal"
    explanation := lines [
      "## PL0-L002: unterminated string literal",
      "",
      "A string literal must be closed with `\"` on the same line it was opened.",
      "",
      "**Example:**",
      "",
      "    \"hello + \"world\"",
      "",
      "**Fix:**",
      "",
      "    \"hello\" + \"world\""] },
  { code := "PL0-P001"
    summary := "unexpected token"
    explanation := lines [
      "## PL0-P001: unexpected token",
      "",
      "A token appeared where the grammar does not allow it: an operator with",
      "no left operand, a missing `)`, or anything left over after the",
      "expression and its optional closing `.`.",
      "",
      "**Examples:**",
      "",
      "    1 2",
      "    * 3",
      "    (1 + 2]"] },
  { code := "PL0-P002"
    summary := "unexpected end of input"
    explanation := lines [
      "## PL0-P002: unexpected end of input",
      "",
      "The program ended while an expression was still incomplete.",
      "",
      "**Examples:**",
      "",
      "    1 +",
      "    (1 + 2"] },
  { code := "PL0-P003"
    summary := "construct is not executable"
    explanation := lines [
      "## PL0-P003: construct is not executable",
      "",
      "Only flat expressions over literals can be compiled and run. Declarations",
      "(`var`, `const`, `procedure`), statements (`begin`, `if`, `while`, `call`,",
      "`print`, `:=`) and variable references are recognised by the lexer but",
      "are rejected here.",
      "",
      "**Example:**",
      "",
      "    var x; x := 1 + 2.",
      "",
      "**Fix:**",
      "",
      "    1 + 2."] },
  { code := "PL0-P004"
    summary := "expression nested too deeply"
    explanation := lines [
      "## PL0-P004: expression nested too deeply",
      "",
      "Parentheses and prefix operators (`-`, `+`, `!`, `odd`) may enclose one",
      "another at most 128 levels deep, and the whole expression tree may be at",
      "most 1024 levels tall. A long chain of binary operators counts one level",
      "per operator.",
      "",
      "**Example:**",
      "",
      "    ((((((((((1))))))))))   ...repeated past 128 levels",
      "",
      "Remove redundant parentheses or split the program."] },
  { code := "PL0-C001"
    summary := "too many constants"
    explanation := lines [
      "## PL0-C001: too many constants",
      "",
      "A chunk holds at most 256 constants because the constant index is a",
      "single byte. Every literal in the program takes one slot.",
      "",
      "Split the expression into smaller programs."] },
  { code := "PL0-C002"
    summary := "operator has no bytecode"
    explanation := lines [
      "## PL0-C002: operator has no bytecode",
      "",
      "The operator parses but the virtual machine has no instruction for it.",
      "`odd` is the usual cause.",
      "",
      "**Example:**",
      "",
      "    odd 3"] },
  { code := "PL0-C003"
    summary := "invalid literal"
    explanation := lines [
      "## PL0-C003: invalid literal",
      "",
      "A number literal does not fit its type. Integers are 32-bit signed, so",
      "the largest is `2'147'483'647`. Write a decimal point to get a double.",
      "",
      "**Example:**",
      "",
      "    2'147'483'648",
      "",
      "**Fix:**",
      "",
      "    2'147'483'648.0"] },
  { code := "PL0-C004"
    summary := "line number out of range"
    explanation := lines [
      "## PL0-C004: line number out of range",
      "",
      "The line table stores 16-bit line numbers. Source beyond line 65535",
      "cannot be attributed and is rejected."] },
  { code := "PL0-C005"
    summary := "expression tree too deep"
    explanation := lines [
      "## PL0-C005: expression tree too deep",
      "",
      "A syntax tree handed to the compiler directly, rather than parsed from",
      "source, is taller than 1024 levels. Source text never reaches this",
      "error because the parser reports PL0-P004 first."] },
  { code := "PL0-R001"
    summary := "unsupported operand types"
    explanation := lines [
      "## PL0-R001: unsupported operand types",
      "",
      "An operator was applied to values it is not defined for.",
      "",
      "- `+` works on numbers and on two strings.",
      "- `- * /` and `< <= > >=` work on numbers only.",
      "- `== = != #` compare two numbers, two booleans or two strings.",
      "- unary `-` needs a number; `!` needs a boolean.",
      "",
      "Integers mixed with doubles are promoted to double.",
      "",
      "**Example:**",
      "",
      "    1 + \"x\""] },
  { code := "PL0-R002"
    summary := "division by zero"
    explanation := lines [
      "## PL0-R002: division by zero",
      "",
      "The right operand of `/` was zero. This is an error for integers and for",
      "doubles alike."] },
  { code := "PL0-R003"
    summary := "integer overflow"
    explanation := lines [
      "## PL0-R003: integer overflow",
      "",
      "Integer arithmetic is checked. A result outside the 32-bit signed range",
      "is an error rather than a wrapped value.",
      "",
      "**Example:**",
      "",
      "    2'147'483'647 + 1"] },
  { code := "PL0-R004"
    summary := "ERROR instruction executed"
    explanation := lines [
      "## PL0-R004: ERROR instruction executed",
      "",
      "The chunk contained an `ERROR` instruction, which halts the machine",
      "unconditionally. The compiler never emits it; it appears only in",
      "hand-built bytecode."] },
  { code := "PL0-R005"
    summary := "malformed bytecode"
    explanation := lines [
      "## PL0-R005: malformed bytecode",
      "",
      "The virtual machine met bytecode it cannot execute: an unknown opcode,",
      "a constant instruction without its index byte or with an index past",
      "the constant pool, an operator with too few values on the stack, or a",
      "chunk that ends without `RETURN`.",
      "",
      "Compiled programs never produce this. If you see it for source code,",
      "please file a bug report."] },
  { code := "PL0-R006"
    summary := "virtual machine already halted"
    explanation := lines [
      "## PL0-R006: virtual machine already halted",
      "",
      "A machine runs its chunk once. After `RETURN` or an error it is halted",
      "and further runs fail. Create a new machine for the next program."] },
  { code := "PL0-R007"
    summary := "cannot read source"
    explanation := lines [
      "## PL0-R007: cannot read source",
      "",
      "The source file could not be read, or its contents are not valid UTF-8."] }]

/-- The entry of a code, which has to be written exactly so. -/
def find? (code : String) : Option CatalogueEntry :=
  entries.find? fun e => e.code == code

end Catalogue

end StackCalc
