/-
Runs that later additions cannot change.

A run reads code, constants and lines, and an addition leaves all of these as they were.  So
the run over a longer chunk goes the same way, instruction by instruction, until it asks for
something that the shorter one does not have: a byte past the end, an operand, or a constant.
Each of these is a fault of its own over the shorter chunk, and `Fault.WantsMore` names the
three.  A run that ends in any other way was decided by what was there.

The line of a failure is the one thing that an addition could disturb, because the last entry
of the line table is rewritten by it.  But an instruction that was executed lies below the old
end, and the table of a chunk that was built by additions has a line for every byte there.
-/
import StackCalc.Proofs.Evaluation

namespace StackCalc

/-- The run asked for something that the chunk does not have, but may be given. -/
inductive Fault.WantsMore : Fault → Prop
  | unexpectedEnd : WantsMore .unexpectedEnd
  | missingOperand (op : Opcode) : WantsMore (.missingOperand op)
  | badConstant (place : UInt8) : WantsMore (.badConstant place)

/-- The step found what it asked for. -/
def Step.IsDecided : Step → Prop
  | .fail fault _ _ => ¬ fault.WantsMore
  | .next _ _ | .done _ _ => True

namespace Chunk

variable {c c' : Chunk}

/-! ### One instruction -/

theorem Extends.stepPush (h : c.Extends c') {op : Opcode} {offset : Nat} {stack : Stack}
    (hdecided : (c.stepPush op offset stack).IsDecided) :
    c'.stepPush op offset stack = c.stepPush op offset stack := by
  unfold Chunk.stepPush at hdecided ⊢
  cases hplace : c.code[offset + 1]? with
  | none =>
      rw [hplace] at hdecided
      exact absurd (.missingOperand op) hdecided
  | some place =>
      rw [hplace] at hdecided
      rw [h.getElem?_code hplace]
      cases hv : c.constants[place.toNat]? with
      | none =>
          simp only [hv] at hdecided
          exact absurd (.badConstant place) hdecided
      | some v => simp only [h.getElem?_constants hv, hv]

/-- **An instruction that found what it asked for does the same in a longer chunk.** -/
theorem Extends.step (h : c.Extends c') {offset : Nat} {b : UInt8} {stack : Stack}
    (hdecided : (c.step offset b stack).IsDecided) :
    c'.step offset b stack = c.step offset b stack := by
  unfold Chunk.step at hdecided ⊢
  cases hop : Opcode.ofByte? b with
  | none => rfl
  | some op =>
      rw [hop] at hdecided
      -- Only an instruction that pushes a constant reads the chunk.
      cases haction : op.action with
      | push =>
          simp only [haction] at hdecided ⊢
          exact h.stepPush hdecided
      | unary | binary | finish | fail => simp only [haction]

/-! ### Whole runs -/

/-- The run did not end for want of something. -/
def IsDecided (result : Except MachineError Value) : Prop :=
  ∀ err, result = .error err → ¬ err.fault.WantsMore

theorem Extends.lineAt (h : c.Extends c') (hc : c.Covered) {offset : Nat} (hlt : offset < c.size) :
    c'.lineAt offset = c.lineAt offset := by
  rw [← hc.length_eq] at hlt
  have hline := List.getElem?_eq_getElem hlt
  rw [Chunk.lineAt, Chunk.lineAt, LineTable.lineAt_eq, LineTable.lineAt_eq, hline,
    h.getElem?_lines hline]

/-- **A run that is decided ends the same in a longer chunk.** -/
theorem Extends.ending (h : c.Extends c') (hc : c.Covered) (offset : Nat) (stack : Stack)
    (hdecided : IsDecided (c.ending offset stack).result) :
    c'.ending offset stack = c.ending offset stack := by
  cases hb : c.code[offset]? with
  | none =>
      rw [ending_of_end hb] at hdecided
      exact absurd .unexpectedEnd (hdecided _ rfl)
  | some b =>
      have hlt : offset < c.code.size := (Array.getElem?_eq_some_iff.mp hb).1
      have hb' : c'.code[offset]? = some b := h.getElem?_code hb
      cases hstep : c.step offset b stack with
      | next extra stack' =>
          have hstep' : c'.step offset b stack = .next extra stack' := by
            rw [h.step (by rw [hstep]; trivial), hstep]
          rw [ending_of_next hb hstep] at hdecided
          rw [ending_of_next hb hstep, ending_of_next hb' hstep']
          exact h.ending hc (offset + 1 + extra) stack' hdecided
      | done v stack' =>
          have hstep' : c'.step offset b stack = .done v stack' := by
            rw [h.step (by rw [hstep]; trivial), hstep]
          rw [ending_of_done hb hstep, ending_of_done hb' hstep']
      | fail fault moved stack' =>
          rw [ending_of_fail hb hstep] at hdecided
          have hstep' : c'.step offset b stack = .fail fault moved stack' := by
            rw [h.step (by rw [hstep]; exact hdecided _ rfl), hstep]
          rw [ending_of_fail hb hstep, ending_of_fail hb' hstep', errorAt, errorAt,
            h.lineAt hc hlt]
termination_by c.code.size - offset

end Chunk

namespace Machine

/-- **Additions change nothing that is decided.**  A chunk is built by any additions, and its
run does not fail for want of code, of an operand or of a constant.  After any further
additions the run gives the same value, or the same fault at the same offset and line, and
leaves the machine with the same cursor and stack. -/
theorem run_edited_of_isDecided (edits later : List Chunk.Edit)
    (hdecided : ∀ err, (load (Chunk.empty.edited edits)).run.1 = .error err →
      ¬ err.fault.WantsMore) :
    (load ((Chunk.empty.edited edits).edited later)).run =
      ((load (Chunk.empty.edited edits)).run.1,
        { (load (Chunk.empty.edited edits)).run.2 with
          chunk := (Chunk.empty.edited edits).edited later }) := by
  have hcovered : (Chunk.empty.edited edits).Covered := (Chunk.holds_empty.edited edits).covered
  have hending := (Chunk.Extends.edited later (Chunk.empty.edited edits)).ending hcovered 0 []
    hdecided
  rw [run_load, run_load, hending]

/-- Negates a text, all on one line. -/
def negationEdits : List Chunk.Edit :=
  [.pushConstant .constant (.string "a") 3, .push .negate 3]

/-- What is added has the same line, so the last entry of the line table is rewritten; the
negation fails where it did. -/
theorem run_negationEdits :
    (load (Chunk.empty.edited negationEdits)).run.1 =
        .error ⟨.value (.unsupportedUnary .negate .string), 3, 2⟩ ∧
      (load ((Chunk.empty.edited negationEdits).edited
          [.push .ret 3, .pushByte 200 3, .pushConstant .constant (.integer 1) 4])).run.1 =
        .error ⟨.value (.unsupportedUnary .negate .string), 3, 2⟩ := by
  have hrun : (load (Chunk.empty.edited negationEdits)).run.1 =
      .error ⟨.value (.unsupportedUnary .negate .string), 3, 2⟩ := by
    cbv
  refine ⟨hrun, ?_⟩
  rw [run_edited_of_isDecided]
  · exact hrun
  · intro err herr hwants
    obtain rfl := Except.error.inj (hrun.symm.trans herr)
    cases hwants

-- A constant that is missing can still come, and then the run goes on.
example :
    (load (Chunk.empty.edited [.pushByte 1 1, .pushByte 0 1])).run.1 =
        .error ⟨.badConstant 0, 1, 0⟩ ∧
      (load ((Chunk.empty.edited [.pushByte 1 1, .pushByte 0 1]).edited
          [.pushConstant .constant (.integer 5) 1, .push .ret 1])).run.1 = .ok (.integer 5) := by
  constructor <;> cbv

end Machine

end StackCalc
