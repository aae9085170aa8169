/-
Listings of code.

An instruction takes one line: its offset, the source line it came from, its mnemonic and,
for a constant, the place in the pool and the value.  The source line is left out when the
byte before came from the same one.  A listing never fails: a byte that is no instruction,
a constant that is missing and the end of the code have lines of their own.
-/
import StackCalc.Code.Chunk
import StackCalc.Text.Pad

namespace StackCalc.Chunk

/-- The column with the source line. -/
def lineColumn (c : Chunk) (offset : Nat) : String :=
  let line := c.lineAt offset
  if 0 < offset ∧ line = c.lineAt (offset - 1) then "   |" else padLeft 4 ' ' (toString line.toNat)

/-! ### Instructions with a constant -/

/-- The bytes that the listing gives to an instruction with a constant: its operand may be
missing. -/
def constantWidth (c : Chunk) (op : Opcode) (offset : Nat) : Nat :=
  match c.code[offset + 1]? with
  | none => 1
  | some _ => op.width

/-- What stands after the columns for an instruction with a constant. -/
def constantText (c : Chunk) (op : Opcode) (offset : Nat) : String :=
  padRight 16 op.mnemonic ++ " " ++
    match c.code[offset + 1]? with
    | none => "<missing operand>"
    | some place =>
      toString place.toNat ++ " " ++
        match c.constants[place.toNat]? with
        | some v => "'" ++ v.text
        | none => "<bad constant>"

/-! ### All instructions -/

/-- The bytes that the listing gives to the instruction at an offset: two for a constant
with its operand, and one for all else, also past the end. -/
def listedWidth (c : Chunk) (offset : Nat) : Nat :=
  match c.code[offset]?.bind Opcode.ofByte? with
  | none => 1
  | some op =>
    match op with
    | .constant | .constantLong => c.constantWidth op offset
    | _ => 1

/-- What stands after the columns. -/
def body (c : Chunk) (offset : Nat) : String :=
  match c.code[offset]? with
  | none => "<end of chunk>"
  | some b =>
    match Opcode.ofByte? b with
    | none => "unknown opcode " ++ toString b.toNat
    | some op =>
      match op with
      | .constant | .constantLong => c.constantText op offset
      | _ => op.mnemonic

/-- The listing takes one byte at a time, or two that are both there. -/
theorem listedWidth_cases (c : Chunk) (offset : Nat) :
    c.listedWidth offset = 1 ∨ c.listedWidth offset = 2 ∧ offset + 1 < c.size := by
  have hconstant : ∀ op, c.constantWidth op offset = 1 ∨
      c.constantWidth op offset = 2 ∧ offset + 1 < c.size := by
    intro op
    rw [constantWidth, Opcode.width_eq]
    split
    · exact Or.inl rfl
    · rename_i hplace
      have hlt : offset + 1 < c.size := (Array.getElem?_eq_some_iff.mp hplace).1
      split
      · exact Or.inr ⟨rfl, hlt⟩
      · exact Or.inl rfl
  unfold listedWidth
  split
  · exact Or.inl rfl
  · split
    · exact hconstant _
    · exact hconstant _
    · exact Or.inl rfl

/-- The line of the listing for the instruction at an offset, in the parts that are written one
after another. -/
def linePieces (c : Chunk) (offset : Nat) : List String :=
  [fourDigits offset ++ " ", c.lineColumn offset ++ " ", c.body offset ++ "\n"]

def instructionLine (c : Chunk) (offset : Nat) : String :=
  String.join (c.linePieces offset)

/-- The lines from an offset to the end of the code, after what has been written. -/
def linesFrom (c : Chunk) (offset : Nat) (done : String) : String :=
  if offset < c.size then
    c.linesFrom (offset + c.listedWidth offset) (done ++ c.instructionLine offset)
  else done
termination_by c.size - offset
decreasing_by
  have := c.listedWidth_cases offset
  omega

/-- The whole chunk under a title. -/
def listing (c : Chunk) (title : String) : String :=
  c.linesFrom 0 ("== " ++ title ++ " ==\n")

end StackCalc.Chunk
