/-
How a chunk grows.

A chunk is only ever added to, one byte or one constant with its instruction at a time, so
what it held before stays where it was.  `Extends` says that of two chunks, and it is all
that a run or a lookup below the old end needs to know.

A sequence of additions is a list of `Edit`s.  What it writes can be said without any
chunk: `Edit.history` lists each byte with the line given for it, and counts the constants
only to know when the pool is full, because a refused constant writes nothing.  The last
theorem says that the chunk holds exactly this, and that its line table is the only
canonical one for it.
-/
import StackCalc.Proofs.LineTable

namespace StackCalc

namespace Chunk

/-! ### The parts of a chunk after an addition -/

@[simp] theorem size_pushByte (c : Chunk) (b : UInt8) (line : UInt16) :
    (c.pushByte b line).size = c.size + 1 := by
  simp [pushByte, size]

@[simp] theorem toList_code_pushByte (c : Chunk) (b : UInt8) (line : UInt16) :
    (c.pushByte b line).code.toList = c.code.toList ++ [b] := by
  simp [pushByte]

@[simp] theorem constants_pushByte (c : Chunk) (b : UInt8) (line : UInt16) :
    (c.pushByte b line).constants = c.constants := rfl

@[simp] theorem expand_lines_pushByte (c : Chunk) (b : UInt8) (line : UInt16) :
    (c.pushByte b line).lines.expand = c.lines.expand ++ [line] :=
  LineTable.expand_push c.lines line

theorem push_eq (c : Chunk) (op : Opcode) (line : UInt16) :
    c.push op line = c.pushByte op.toByte line := rfl

/-- The chunk with one more constant and the two bytes that push it. -/
def withConstant (c : Chunk) (op : Opcode) (v : Value) (line : UInt16) : Chunk :=
  ({ c with constants := c.constants.push v }.push op line).pushByte c.constants.size.toUInt8 line

@[simp] theorem size_withConstant (c : Chunk) (op : Opcode) (v : Value) (line : UInt16) :
    (c.withConstant op v line).size = c.size + 2 := by
  rw [withConstant, size_pushByte, push_eq, size_pushByte]
  rfl

@[simp] theorem toList_code_withConstant (c : Chunk) (op : Opcode) (v : Value) (line : UInt16) :
    (c.withConstant op v line).code.toList =
      c.code.toList ++ [op.toByte, c.constants.size.toUInt8] := by
  simp [withConstant, push_eq]

@[simp] theorem constants_withConstant (c : Chunk) (op : Opcode) (v : Value) (line : UInt16) :
    (c.withConstant op v line).constants = c.constants.push v := by
  simp [withConstant, push_eq]

@[simp] theorem expand_lines_withConstant (c : Chunk) (op : Opcode) (v : Value) (line : UInt16) :
    (c.withConstant op v line).lines.expand = c.lines.expand ++ [line, line] := by
  simp [withConstant, push_eq]

theorem code_push (c : Chunk) (op : Opcode) (line : UInt16) :
    (c.push op line).code[c.size]? = some op.toByte := by
  rw [← Array.getElem?_toList, push_eq, toList_code_pushByte]
  simp [size]

theorem code_withConstant (c : Chunk) (op : Opcode) (v : Value) (line : UInt16) :
    (c.withConstant op v line).code[c.size]? = some op.toByte := by
  rw [← Array.getElem?_toList, toList_code_withConstant]
  simp [size]

/-- While the pool has room, the place of the next constant fits in its byte. -/
theorem toNat_place {c : Chunk} (h : c.constants.size < maxConstants) :
    c.constants.size.toUInt8.toNat = c.constants.size := by
  unfold maxConstants at h
  simp
  omega

theorem pushConstant_of_lt {c : Chunk} (h : c.constants.size < maxConstants) (op : Opcode)
    (v : Value) (line : UInt16) : c.pushConstant op v line = .ok (c.withConstant op v line) := by
  rw [pushConstant, if_pos h]
  rfl

theorem pushConstant_of_le {c : Chunk} (h : maxConstants ≤ c.constants.size) (op : Opcode)
    (v : Value) (line : UInt16) : c.pushConstant op v line = .error .mk := by
  rw [pushConstant, if_neg (Nat.not_lt.mpr h)]

/-- A constant is only added while the pool has room. -/
theorem pushConstant_eq_ok {c c' : Chunk} {op : Opcode} {v : Value} {line : UInt16}
    (h : c.pushConstant op v line = .ok c') :
    c.constants.size < maxConstants ∧ c' = c.withConstant op v line := by
  by_cases hroom : c.constants.size < maxConstants
  · rw [pushConstant_of_lt hroom] at h
    exact ⟨hroom, (Except.ok.inj h).symm⟩
  · rw [pushConstant_of_le (Nat.not_lt.mp hroom)] at h
    simp at h

/-! ### Growth -/

/-- The line table has one line for each byte. -/
def Covered (c : Chunk) : Prop :=
  c.lines.expand.length = c.size

theorem Covered.length_eq {c : Chunk} (h : c.Covered) : c.lines.expand.length = c.size := h

theorem covered_empty : empty.Covered := rfl

theorem Covered.pushByte {c : Chunk} (h : c.Covered) (b : UInt8) (line : UInt16) :
    (c.pushByte b line).Covered := by
  unfold Covered at h ⊢
  simp [h]

theorem Covered.push {c : Chunk} (h : c.Covered) (op : Opcode) (line : UInt16) :
    (c.push op line).Covered :=
  h.pushByte op.toByte line

theorem Covered.withConstant {c : Chunk} (h : c.Covered) (op : Opcode) (v : Value)
    (line : UInt16) : (c.withConstant op v line).Covered := by
  unfold Covered at h ⊢
  simp [h]

/-- `c'` is `c` with something added. -/
structure Extends (c c' : Chunk) : Prop where
  code : c.code.toList <+: c'.code.toList
  constants : c.constants.toList <+: c'.constants.toList
  lines : c.lines.expand <+: c'.lines.expand

namespace Extends

theorem refl (c : Chunk) : c.Extends c :=
  ⟨List.prefix_rfl, List.prefix_rfl, List.prefix_rfl⟩

theorem trans {a b c : Chunk} (hab : a.Extends b) (hbc : b.Extends c) : a.Extends c :=
  ⟨hab.code.trans hbc.code, hab.constants.trans hbc.constants, hab.lines.trans hbc.lines⟩

theorem pushByte (c : Chunk) (b : UInt8) (line : UInt16) : c.Extends (c.pushByte b line) :=
  ⟨by simp, by simp, by simp⟩

theorem push (c : Chunk) (op : Opcode) (line : UInt16) : c.Extends (c.push op line) :=
  pushByte c op.toByte line

theorem withConstant (c : Chunk) (op : Opcode) (v : Value) (line : UInt16) :
    c.Extends (c.withConstant op v line) :=
  ⟨by simp, by simp, by simp⟩

private theorem getElem?_of_isPrefix {α : Type} {as bs : List α} (h : as <+: bs) {i : Nat} {x : α}
    (hx : as[i]? = some x) : bs[i]? = some x := by
  obtain ⟨hi, rfl⟩ := List.getElem?_eq_some_iff.mp hx
  exact List.prefix_iff_getElem?.mp h i hi

theorem getElem?_code {c c' : Chunk} (h : c.Extends c') {i : Nat} {b : UInt8}
    (hb : c.code[i]? = some b) : c'.code[i]? = some b := by
  rw [← Array.getElem?_toList] at hb ⊢
  exact getElem?_of_isPrefix h.code hb

theorem getElem?_constants {c c' : Chunk} (h : c.Extends c') {i : Nat} {v : Value}
    (hv : c.constants[i]? = some v) : c'.constants[i]? = some v := by
  rw [← Array.getElem?_toList] at hv ⊢
  exact getElem?_of_isPrefix h.constants hv

theorem getElem?_lines {c c' : Chunk} (h : c.Extends c') {i : Nat} {line : UInt16}
    (hl : c.lines.expand[i]? = some line) : c'.lines.expand[i]? = some line :=
  getElem?_of_isPrefix h.lines hl

end Extends

/-! ### Sequences of additions -/

/-- One addition to a chunk. -/
inductive Edit where
  | push (op : Opcode) (line : UInt16)
  | pushByte (b : UInt8) (line : UInt16)
  | pushConstant (op : Opcode) (v : Value) (line : UInt16)

namespace Edit

/-- The chunk after an addition.  A constant that is refused leaves it as it is. -/
def apply (c : Chunk) : Edit → Chunk
  | push op line => c.push op line
  | pushByte b line => c.pushByte b line
  | pushConstant op v line =>
    match c.pushConstant op v line with
    | .ok c' => c'
    | .error _ => c

/-- The bytes that an addition writes when the pool holds `used` constants, each with the
line given for it. -/
def written (used : Nat) : Edit → List (UInt8 × UInt16)
  | push op line => [(op.toByte, line)]
  | pushByte b line => [(b, line)]
  | pushConstant op _ line =>
    if used < maxConstants then [(op.toByte, line), (used.toUInt8, line)] else []

/-- The number of constants after an addition to a pool of `used`. -/
def usedAfter (used : Nat) : Edit → Nat
  | push _ _ => used
  | pushByte _ _ => used
  | pushConstant _ _ _ => if used < maxConstants then used + 1 else used

/-- All that a sequence of additions writes. -/
def history (used : Nat) : List Edit → List (UInt8 × UInt16)
  | [] => []
  | e :: edits => e.written used ++ history (e.usedAfter used) edits

end Edit

/-- The chunk after a sequence of additions. -/
def edited (c : Chunk) (edits : List Edit) : Chunk :=
  edits.foldl Edit.apply c

/-- An addition leaves what was there, and so does a refused one. -/
theorem Extends.apply (c : Chunk) (e : Edit) : c.Extends (e.apply c) := by
  cases e with
  | push op line => exact .push c op line
  | pushByte b line => exact .pushByte c b line
  | pushConstant op v line =>
      by_cases hroom : c.constants.size < maxConstants
      · simp only [Edit.apply, pushConstant_of_lt hroom]
        exact .withConstant c op v line
      · simp only [Edit.apply, pushConstant_of_le (Nat.not_lt.mp hroom)]
        exact .refl c

/-- What a chunk held stays where it was, whatever is added. -/
theorem Extends.edited (edits : List Edit) : ∀ c : Chunk, c.Extends (c.edited edits) := by
  induction edits with
  | nil => exact .refl
  | cons e edits ih =>
      intro c
      exact (Extends.apply c e).trans (ih (e.apply c))

/-- The chunk consists of these bytes, each recorded for its line, and its line table is
canonical. -/
structure Holds (c : Chunk) (bytes : List (UInt8 × UInt16)) : Prop where
  code : c.code.toList = bytes.map Prod.fst
  lines : c.lines.expand = bytes.map Prod.snd
  canonical : LineTable.Canonical c.lines.runs.toList

theorem holds_empty : empty.Holds [] :=
  ⟨rfl, rfl, LineTable.canonical_empty⟩

theorem Holds.pushByte {c : Chunk} {bytes : List (UInt8 × UInt16)} (h : c.Holds bytes)
    (b : UInt8) (line : UInt16) : (c.pushByte b line).Holds (bytes ++ [(b, line)]) := by
  refine ⟨?_, ?_, LineTable.canonical_push h.canonical line⟩
  · simp [h.code]
  · simp [h.lines]

theorem Holds.withConstant {c : Chunk} {bytes : List (UInt8 × UInt16)} (h : c.Holds bytes)
    (op : Opcode) (v : Value) (line : UInt16) :
    (c.withConstant op v line).Holds
      (bytes ++ [(op.toByte, line), (c.constants.size.toUInt8, line)]) := by
  have hpool : ({ c with constants := c.constants.push v } : Chunk).Holds bytes :=
    ⟨h.code, h.lines, h.canonical⟩
  have hboth := (hpool.pushByte op.toByte line).pushByte c.constants.size.toUInt8 line
  rw [List.append_assoc] at hboth
  exact hboth

/-- One addition writes what it says, and the pool counts on. -/
theorem Holds.apply {c : Chunk} {bytes : List (UInt8 × UInt16)} (h : c.Holds bytes) (e : Edit) :
    (e.apply c).Holds (bytes ++ e.written c.constants.size) ∧
      (e.apply c).constants.size = e.usedAfter c.constants.size := by
  cases e with
  | push op line => exact ⟨h.pushByte op.toByte line, rfl⟩
  | pushByte b line => exact ⟨h.pushByte b line, rfl⟩
  | pushConstant op v line =>
      by_cases hroom : c.constants.size < maxConstants
      · simp only [Edit.apply, Edit.written, Edit.usedAfter, pushConstant_of_lt hroom, if_pos hroom]
        exact ⟨h.withConstant op v line, by simp⟩
      · simp only [Edit.apply, Edit.written, Edit.usedAfter,
          pushConstant_of_le (Nat.not_lt.mp hroom), if_neg hroom, List.append_nil]
        exact ⟨h, trivial⟩

/-- A sequence of additions writes its history after what was there. -/
theorem Holds.edited :
    ∀ (edits : List Edit) {c : Chunk} {bytes : List (UInt8 × UInt16)}, c.Holds bytes →
      (c.edited edits).Holds (bytes ++ Edit.history c.constants.size edits) := by
  intro edits
  induction edits with
  | nil =>
      intro c bytes h
      rw [Edit.history, List.append_nil]
      exact h
  | cons e edits ih =>
      intro c bytes h
      obtain ⟨hstep, hused⟩ := h.apply e
      have hrest := ih hstep
      rw [hused, List.append_assoc] at hrest
      exact hrest

theorem Holds.size {c : Chunk} {bytes : List (UInt8 × UInt16)} (h : c.Holds bytes) :
    c.size = bytes.length := by
  rw [Chunk.size, ← Array.length_toList, h.code, List.length_map]

/-- A chunk of which the bytes are known with their lines has a line for each byte. -/
theorem Holds.covered {c : Chunk} {bytes : List (UInt8 × UInt16)} (h : c.Holds bytes) :
    c.Covered := by
  show c.lines.expand.length = c.size
  rw [h.lines, h.size, List.length_map]

theorem Holds.lineAt {c : Chunk} {bytes : List (UInt8 × UInt16)} (h : c.Holds bytes) (i : Nat) :
    c.lineAt i = (bytes[i]?.map Prod.snd).getD 0 := by
  rw [Chunk.lineAt, LineTable.lineAt_eq, h.lines, List.getElem?_map]

/-- **The line table of a chunk that was built from nothing.**  After any sequence of
additions, refused ones among them, the runs add up to the bytes; the line of each byte is
the one given for it and there is no line past the end; no run is empty or too long, and two
neighbours are of one line only when the first is full.  So the table is the only canonical
one for these lines, and the words it is packed into hold the same. -/
theorem lineTable_of_edits (edits : List Edit) :
    (((empty.edited edits).lines.runs.toList.map fun e => e.run.toNat).sum =
        (empty.edited edits).size) ∧
    (empty.edited edits).code.toList = (Edit.history 0 edits).map Prod.fst ∧
    (∀ i < (empty.edited edits).size,
      ((Edit.history 0 edits).map Prod.snd)[i]? = some ((empty.edited edits).lineAt i)) ∧
    (∀ i, (empty.edited edits).size ≤ i → (empty.edited edits).lineAt i = 0) ∧
    (∀ e ∈ (empty.edited edits).lines.runs.toList, 1 ≤ e.run.toNat ∧ e.run.toNat ≤ 65535) ∧
    (∀ i a b, (empty.edited edits).lines.runs[i]? = some a →
      (empty.edited edits).lines.runs[i + 1]? = some b → a.line = b.line →
        a.run.toNat = 65535) ∧
    (∀ runs, LineTable.Canonical runs →
      LineTable.expandRuns runs = (Edit.history 0 edits).map Prod.snd →
        runs = (empty.edited edits).lines.runs.toList) ∧
    (∀ e ∈ (empty.edited edits).lines.runs.toList,
      e.pack.toNat = e.line.toNat ||| e.run.toNat <<< 16 ∧ LineRun.unpack e.pack = e) ∧
    ∀ w, (LineRun.unpack w).pack = w := by
  have h : (empty.edited edits).Holds (Edit.history 0 edits) := holds_empty.edited edits
  refine ⟨?_, h.code, ?_, ?_, ?_, ?_, ?_, ?_, LineRun.pack_unpack⟩
  · rw [← LineTable.length_expandRuns, h.size, ← List.length_map (f := Prod.snd), ← h.lines]
    rfl
  · intro i hi
    rw [h.size] at hi
    rw [h.lineAt, List.getElem?_map, List.getElem?_eq_getElem hi]
    rfl
  · intro i hi
    rw [h.size] at hi
    rw [h.lineAt, List.getElem?_eq_none hi]
    rfl
  · intro e he
    have hmax := e.run.toNat_lt
    exact ⟨h.canonical.nonempty e he, by omega⟩
  · intro i a b ha hb hline
    rw [← Array.getElem?_toList] at ha hb
    obtain ⟨hi, rfl⟩ := List.getElem?_eq_some_iff.mp ha
    obtain ⟨hi', rfl⟩ := List.getElem?_eq_some_iff.mp hb
    rw [List.isChain_iff_getElem.mp h.canonical.chain i hi' hline]
    rfl
  · intro runs hruns hexpand
    exact hruns.unique h.canonical (hexpand.trans h.lines.symm)
  · intro e _
    exact ⟨e.toNat_pack_or, e.unpack_pack⟩

end Chunk

end StackCalc
