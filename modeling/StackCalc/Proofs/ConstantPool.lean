/-
The pool of constants while a chunk is built.

An instruction refers to its constant by one byte, so everything depends on that byte being
the constant's true place.  A constant enters the pool before anything is written: if the pool
has no room the step fails there and nothing has been changed, and otherwise the place is the
number of constants so far, which is below 256 and does not wrap.

The number of constants is a fact about the chunk.  Someone who builds it only sees answers,
so the last theorem counts those: `Chunk.build` takes a list of additions and keeps what each
of them answered, and the successes among its constants are what the pool holds.
-/
import StackCalc.Proofs.Chunk

namespace StackCalc

/-! ### What each step answers and leaves -/

namespace Builder

variable {α β : Type} {c c' : Chunk}

theorem on_bind_of_ok {step : Builder α} {next : α → Builder β} {a : α}
    (h : step.on c = (.ok a, c')) : (step >>= next).on c = (next a).on c' := by
  show (ExceptT.bindCont next (step.on c).1).run (step.on c).2 = _
  rw [h]
  rfl

/-- A failure ends the whole step, and what was added before it stays. -/
theorem on_bind_of_error {step : Builder α} {next : α → Builder β} {fault : PoolFull}
    (h : step.on c = (.error fault, c')) : (step >>= next).on c = (.error fault, c') := by
  show (ExceptT.bindCont next (step.on c).1).run (step.on c).2 = _
  rw [h]
  rfl

variable (op : Opcode) (v : Value) (line : UInt16)

theorem pool_on_of_lt (h : c.constants.size < maxConstants) :
    (pool v).on c =
      (.ok c.constants.size.toUInt8, { c with constants := c.constants.push v }) := by
  show (if c.constants.size < maxConstants then _ else _ : Builder UInt8).on c = _
  rw [if_pos h]
  rfl

theorem pool_on_of_le (h : maxConstants ≤ c.constants.size) : (pool v).on c = (.error .mk, c) := by
  show (if c.constants.size < maxConstants then _ else _ : Builder UInt8).on c = _
  rw [if_neg (Nat.not_lt.mpr h)]
  rfl

theorem constant_on_of_lt (h : c.constants.size < maxConstants) :
    (constant op v line).on c = (.ok c.size, c.withConstant op v line) := by
  rw [constant, on_bind_of_ok (pool_on_of_lt v h)]
  rfl

theorem constant_on_of_le (h : maxConstants ≤ c.constants.size) :
    (constant op v line).on c = (.error .mk, c) :=
  on_bind_of_error (pool_on_of_le v h)

end Builder

namespace Chunk

/-! ### Sequences of steps -/

/-- The step that an addition takes. -/
def Edit.step : Edit → Builder Nat
  | push op line => .instruction op line
  | pushByte b line => .byte b line
  | pushConstant op v line => .constant op v line

/-- Taking the step does to the chunk what the addition is said to do. -/
theorem Edit.step_on (e : Edit) (c : Chunk) : (e.step.on c).2 = e.apply c := by
  cases e with
  | push op line => rfl
  | pushByte b line => rfl
  | pushConstant op v line =>
      by_cases hroom : c.constants.size < maxConstants
      · simp only [step, apply, Builder.constant_on_of_lt op v line hroom, pushConstant_of_lt hroom]
      · have hfull : maxConstants ≤ c.constants.size := Nat.not_lt.mp hroom
        simp only [step, apply, Builder.constant_on_of_le op v line hfull,
          pushConstant_of_le hfull]

/-- A chunk that was built, with the additions made and what each of them answered. -/
structure Built where
  log : List (Edit × Except PoolFull Nat)
  chunk : Chunk

/-- Makes the additions one after the other, and goes on after one that is refused. -/
def build (c : Chunk) : List Edit → Built
  | [] => ⟨[], c⟩
  | e :: edits =>
    let after := (e.step.on c).2.build edits
    ⟨(e, (e.step.on c).1) :: after.log, after.chunk⟩

theorem chunk_build (edits : List Edit) : ∀ c : Chunk, (c.build edits).chunk = c.edited edits := by
  induction edits with
  | nil => intro c; rfl
  | cons e edits ih =>
      intro c
      show ((e.step.on c).2.build edits).chunk = (e.apply c).edited edits
      rw [ih, e.step_on c]

theorem build_append (later : List Edit) (edits : List Edit) :
    ∀ c : Chunk, c.build (edits ++ later) =
      ⟨(c.build edits).log ++ ((c.build edits).chunk.build later).log,
        ((c.build edits).chunk.build later).chunk⟩ := by
  induction edits with
  | nil => intro c; rfl
  | cons e edits ih =>
      intro c
      simp only [List.cons_append, build, ih]

/-- The addition was of a constant, and it was not refused. -/
def isPooled : Edit × Except PoolFull Nat → Bool
  | (.pushConstant _ _ _, .ok _) => true
  | _ => false

/-- The number of constants that the answers say were added. -/
def pooled (log : List (Edit × Except PoolFull Nat)) : Nat :=
  log.countP isPooled

theorem size_constants_step (e : Edit) (c : Chunk) :
    (e.step.on c).2.constants.size =
      c.constants.size + if isPooled (e, (e.step.on c).1) then 1 else 0 := by
  cases e with
  | push op line => rfl
  | pushByte b line => rfl
  | pushConstant op v line =>
      by_cases hroom : c.constants.size < maxConstants
      · simp [Edit.step, Builder.constant_on_of_lt op v line hroom, isPooled]
      · simp [Edit.step, Builder.constant_on_of_le op v line (Nat.not_lt.mp hroom), isPooled]

/-- The pool holds the constants whose addition was not refused. -/
theorem size_constants_build (edits : List Edit) :
    ∀ c : Chunk,
      (c.build edits).chunk.constants.size = c.constants.size + pooled (c.build edits).log := by
  induction edits with
  | nil => intro c; rfl
  | cons e edits ih =>
      intro c
      rw [build, ih, size_constants_step]
      simp only [pooled, List.countP_cons]
      omega

/-- The constant is where its instruction says it is, whatever is added later. -/
theorem getElem?_constants_build (c : Chunk) (op : Opcode) (v : Value) (line : UInt16)
    (later : List Edit) :
    ((c.withConstant op v line).build later).chunk.constants[c.constants.size]? = some v := by
  rw [chunk_build]
  apply (Extends.edited later (c.withConstant op v line)).getElem?_constants
  simp

/-- **The pool of a chunk that was built from nothing.**  After any additions, refused ones
among them, one more constant is accepted exactly when fewer than 256 were.  If it is, the
answer is the old size, the bytes added are the instruction and the number of constants
accepted before, and that place holds the value from then on.  If it is refused, the chunk is
the same as before, and everything that follows is answered, and builds, as if the refused
addition had not been tried. -/
theorem constant_on_build (edits : List Edit) (op : Opcode) (v : Value) (line : UInt16) :
    ((∃ offset, ((Builder.constant op v line).on (empty.build edits).chunk).1 = .ok offset) ↔
      pooled (empty.build edits).log < 256) ∧
    (∀ offset c, (Builder.constant op v line).on (empty.build edits).chunk = (.ok offset, c) →
      offset = (empty.build edits).chunk.size ∧
      ∃ place : UInt8, place.toNat = pooled (empty.build edits).log ∧
        c.code.toList = (empty.build edits).chunk.code.toList ++ [op.toByte, place] ∧
        ∀ later, (c.build later).chunk.constants[place.toNat]? = some v) ∧
    ∀ fault c, (Builder.constant op v line).on (empty.build edits).chunk = (.error fault, c) →
      fault = .mk ∧ c = (empty.build edits).chunk ∧
      ∀ later, ∃ rest final,
        empty.build (edits ++ later) = ⟨(empty.build edits).log ++ rest, final⟩ ∧
        empty.build (edits ++ .pushConstant op v line :: later) =
          ⟨(empty.build edits).log ++ (.pushConstant op v line, .error fault) :: rest, final⟩ := by
  have hused : (empty.build edits).chunk.constants.size = pooled (empty.build edits).log := by
    rw [size_constants_build]
    exact Nat.zero_add _
  by_cases hroom : (empty.build edits).chunk.constants.size < maxConstants
  · have hstep := Builder.constant_on_of_lt op v line hroom
    have hplace := toNat_place hroom
    rw [hstep]
    refine ⟨⟨fun _ => hused ▸ hroom, fun _ => ⟨_, rfl⟩⟩, ?_, ?_⟩
    · rintro offset c ⟨rfl, rfl⟩
      refine ⟨rfl, _, hplace.trans hused, toList_code_withConstant .., ?_⟩
      intro later
      rw [hplace]
      exact getElem?_constants_build _ op v line later
    · rintro fault c ⟨⟩
  · have hfull : maxConstants ≤ (empty.build edits).chunk.constants.size := Nat.not_lt.mp hroom
    have hle : 256 ≤ (empty.build edits).chunk.constants.size := hfull
    have hstep := Builder.constant_on_of_le op v line hfull
    rw [hstep]
    refine ⟨⟨?_, fun h => by omega⟩, ?_, ?_⟩
    · rintro ⟨offset, ⟨⟩⟩
    · rintro offset c ⟨⟩
    · rintro fault c ⟨rfl, rfl⟩
      -- The refused addition leaves the chunk, so both sequences go on from the same one.
      refine ⟨rfl, rfl, fun later => ⟨_, _, build_append later edits empty, ?_⟩⟩
      rw [build_append]
      simp only [build, Edit.step, hstep]

end Chunk

end StackCalc
