/-
Chunks of code.

A chunk holds the bytes of the instructions, the pool of constants they refer to, and for
each byte the source line it came from.  The lines are kept as runs: an entry is a line
and how many bytes in a row came from it, both 16 bits wide, so a run of more than 65535
bytes takes several entries.
-/
import StackCalc.Code.Opcode

namespace StackCalc

/-! ### The line table -/

/-- Bytes in a row, `run` of them, that came from one line. -/
structure LineRun where
  line : UInt16
  run : UInt16
deriving DecidableEq, Repr

namespace LineRun

/-- The entry as one word, the line in its lower half. -/
def pack (e : LineRun) : UInt32 :=
  e.line.toUInt32 ||| (e.run.toUInt32 <<< 16)

/-- The entry that a word holds. -/
def unpack (w : UInt32) : LineRun :=
  ⟨(w &&& 0xFFFF).toUInt16, (w >>> 16).toUInt16⟩

theorem toNat_pack (e : LineRun) : e.pack.toNat = e.line.toNat + e.run.toNat * 65536 := by
  have hl := e.line.toNat_lt
  have hr := e.run.toNat_lt
  have hshift : UInt32.toNat 16 % 32 = 16 := rfl
  simp only [pack, UInt32.toNat_or, UInt32.toNat_shiftLeft, UInt16.toNat_toUInt32]
  rw [hshift, Nat.mod_eq_of_lt (by rw [Nat.shiftLeft_eq]; omega), Nat.or_comm,
    ← Nat.shiftLeft_add_eq_or_of_lt (by omega), Nat.shiftLeft_eq]
  omega

/-- Packing loses nothing. -/
@[simp] theorem unpack_pack (e : LineRun) : unpack e.pack = e := by
  have hl := e.line.toNat_lt
  have hr := e.run.toNat_lt
  have hp := e.toNat_pack
  have hline : (unpack e.pack).line = e.line := by
    apply UInt16.toNat_inj.mp
    have hmask : UInt32.toNat 0xFFFF = 2 ^ 16 - 1 := rfl
    simp only [unpack, UInt32.toNat_toUInt16, UInt32.toNat_and, hp]
    rw [hmask, Nat.and_two_pow_sub_one_eq_mod]
    omega
  have hrun : (unpack e.pack).run = e.run := by
    apply UInt16.toNat_inj.mp
    have hshift : UInt32.toNat 16 % 32 = 16 := rfl
    simp only [unpack, UInt32.toNat_toUInt16, UInt32.toNat_shiftRight, hp]
    rw [hshift, Nat.shiftRight_eq_div_pow]
    omega
  cases e
  simp_all [unpack]

end LineRun

/-- The runs of a chunk, in the order of its bytes. -/
structure LineTable where
  runs : Array LineRun
deriving DecidableEq, Repr

namespace LineTable

def empty : LineTable := ⟨#[]⟩

/-- Records the line of one more byte: the last run grows if it is of that line and has
room, and else a run starts. -/
def push (t : LineTable) (line : UInt16) : LineTable :=
  match t.runs.back? with
  | some last =>
    if last.line = line ∧ last.run < 65535 then
      ⟨t.runs.pop.push ⟨line, last.run + 1⟩⟩
    else ⟨t.runs.push ⟨line, 1⟩⟩
  | none => ⟨t.runs.push ⟨line, 1⟩⟩

/-- The line of a byte in a list of runs; 0 past the last run. -/
def lineIn : List LineRun → Nat → UInt16
  | [], _ => 0
  | e :: rest, index => if index < e.run.toNat then e.line else lineIn rest (index - e.run.toNat)

/-- The line of the byte at `index`, which is 0 past the end. -/
def lineAt (t : LineTable) (index : Nat) : UInt16 :=
  lineIn t.runs.toList index

end LineTable

/-! ### Chunks -/

/-- Code, its constants and its lines. -/
structure Chunk where
  code : Array UInt8
  constants : Array Value
  lines : LineTable
deriving DecidableEq

/-- The pool is full: a constant's place has to fit in one byte. -/
inductive PoolFull where
  | mk
deriving DecidableEq, Repr

/-- The most constants that a chunk holds. -/
def maxConstants : Nat := 256

def PoolFull.message (_ : PoolFull) : String :=
  "constant pool is full (" ++ toString maxConstants ++ " entries)"

/-- A place that the pool does not have. -/
structure MissingConstant where
  poolSize : Nat
  place : Nat
deriving DecidableEq, Repr

def MissingConstant.message (m : MissingConstant) : String :=
  "index out of bounds: the len is " ++ toString m.poolSize ++ " but the index is " ++
    toString m.place

namespace Chunk

def empty : Chunk := ⟨#[], #[], .empty⟩

/-- The number of bytes of code. -/
def size (c : Chunk) : Nat :=
  c.code.size

/-- Adds one byte that came from `line`. -/
def pushByte (c : Chunk) (b : UInt8) (line : UInt16) : Chunk :=
  { c with code := c.code.push b, lines := c.lines.push line }

/-- Adds an instruction of one byte. -/
def push (c : Chunk) (op : Opcode) (line : UInt16) : Chunk :=
  c.pushByte op.toByte line

/-- Adds a constant to the pool, and to the code the instruction followed by the constant's
place.  Nothing is added when the pool is full. -/
def pushConstant (c : Chunk) (op : Opcode) (v : Value) (line : UInt16) : Except PoolFull Chunk :=
  if c.constants.size < maxConstants then
    let place := c.constants.size.toUInt8
    .ok (({ c with constants := c.constants.push v }.push op line).pushByte place line)
  else .error .mk

/-- Reads the byte under a cursor and moves the cursor on; past the end there is none. -/
def fetch? (c : Chunk) (cursor : Nat) : Option (UInt8 × Nat) :=
  c.code[cursor]?.map fun b => (b, cursor + 1)

/-- The constant at a place that the pool is believed to have. -/
def constantAt (c : Chunk) (place : Nat) : Except MissingConstant Value :=
  match c.constants[place]? with
  | some v => .ok v
  | none => .error ⟨c.constants.size, place⟩

/-- The line that the byte at `index` came from, which is 0 past the end. -/
def lineAt (c : Chunk) (index : Nat) : UInt16 :=
  c.lines.lineAt index

end Chunk

/-! ### Building a chunk -/

/-- A step in building a chunk, which answers something or fails for want of room in the pool.
What was added before a failure stays in the chunk. -/
abbrev Builder := ExceptT PoolFull (StateM Chunk)

namespace Builder

/-- Takes the step: its answer, and the chunk that it leaves. -/
def on {α : Type} (step : Builder α) (c : Chunk) : Except PoolFull α × Chunk :=
  step.run.run c

/-- Adds one byte and answers its offset. -/
def byte (b : UInt8) (line : UInt16) : Builder Nat := do
  let offset := (← get).size
  modify fun c => c.pushByte b line
  return offset

/-- Adds an instruction of one byte and answers its offset. -/
def instruction (op : Opcode) (line : UInt16) : Builder Nat :=
  byte op.toByte line

/-- Adds a constant to the pool and answers its place, which has to fit in one byte. -/
def pool (v : Value) : Builder UInt8 := do
  let used := (← get).constants.size
  if used < maxConstants then
    modify fun c => { c with constants := c.constants.push v }
    return used.toUInt8
  else throw .mk

/-- Adds a constant to the pool, the instruction, and the constant's place; answers the offset
of the instruction. -/
def constant (op : Opcode) (v : Value) (line : UInt16) : Builder Nat := do
  let place ← pool v
  let offset ← instruction op line
  let _ ← byte place line
  return offset

end Builder

end StackCalc
