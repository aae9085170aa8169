/-
A machine runs once, and its run ends.

The loop of the machine has no bound of its own and leaves through many doors.  What bounds it
is the code: an instruction that lets the loop go on has been read in full, so the cursor has
moved past one byte or two and is still within the code.  There is thus at most one turn for
each byte, and one more at the end.  An instruction that stops the loop has read no more than
that either, though it may leave the cursor before its operand.

After the first call the machine is halted, however the run ended.  From then on a call looks
at nothing but the cursor, which no call moves any more.
-/
import StackCalc.Proofs.Boundaries

namespace StackCalc

namespace Chunk

/-! ### One turn of the loop -/

/-- The cursor moves on by one byte or by two, and not past the end of the code. -/
def Advances (c : Chunk) (a b : Nat) : Prop :=
  (b = a + 1 ∨ b = a + 2) ∧ b ≤ c.size

theorem advances_of_next {c : Chunk} {offset : Nat} {b : UInt8} {stack stack' : Stack}
    {extra : Nat} (hb : c.code[offset]? = some b)
    (h : c.step offset b stack = .next extra stack') : c.Advances offset (offset + 1 + extra) := by
  have hlt : offset < c.size := (Array.getElem?_eq_some_iff.mp hb).1
  have hwidth := listedWidth_of_next hb h
  have hcases := c.listedWidth_cases offset
  refine ⟨?_, ?_⟩ <;> omega

/-- An instruction that fails has read its first byte, and beyond it at most an operand that is
there. -/
theorem moved_of_fail {c : Chunk} {offset : Nat} {b : UInt8} {stack stack' : Stack}
    {fault : Fault} {moved : Nat} (h : c.step offset b stack = .fail fault moved stack') :
    moved = 1 ∨ moved = 2 ∧ offset + 1 < c.size := by
  unfold step at h
  split at h
  · exact Or.inl (Step.fail.inj h).2.1.symm
  · split at h
    · unfold stepPush at h
      split at h
      · exact Or.inl (Step.fail.inj h).2.1.symm
      · rename_i place hplace
        split at h
        · exact Or.inr ⟨(Step.fail.inj h).2.1.symm, (Array.getElem?_eq_some_iff.mp hplace).1⟩
        · simp at h
    · unfold stepUnary at h
      split at h
      · exact Or.inl (Step.fail.inj h).2.1.symm
      · split at h
        · exact Or.inl (Step.fail.inj h).2.1.symm
        · simp at h
    · unfold stepBinary at h
      split at h
      · exact Or.inl (Step.fail.inj h).2.1.symm
      · exact Or.inl (Step.fail.inj h).2.1.symm
      · split at h
        · exact Or.inl (Step.fail.inj h).2.1.symm
        · simp at h
    · unfold stepFinish at h
      split at h
      · exact Or.inl (Step.fail.inj h).2.1.symm
      · simp at h
    · exact Or.inl (Step.fail.inj h).2.1.symm

/-! ### A whole run -/

/-- What the turns of a run, by the offset at which each starts, and its ending keep to. -/
structure Orderly (c : Chunk) (offset : Nat) (turns : List Nat) (ending : Ending) : Prop where
  begins : turns.head? = some offset
  advances : turns.IsChain c.Advances
  short : turns.length + offset ≤ c.size + 1
  cursor : ending.cursor ≤ c.size
  error : ∀ err, ending.result = .error err →
    err.offset ≤ c.size ∧ err.line = c.lineAt err.offset

/-- A run that ends in its first turn. -/
theorem Orderly.single {c : Chunk} {offset : Nat} {ending : Ending} (hle : offset ≤ c.size)
    (hcursor : ending.cursor ≤ c.size)
    (herror : ∀ err, ending.result = .error err → ∃ fault, err = c.errorAt fault offset) :
    c.Orderly offset [offset] ending where
  begins := rfl
  advances := .singleton offset
  short := by
    rw [List.length_singleton]
    omega
  cursor := hcursor
  error := by
    intro err herr
    obtain ⟨fault, rfl⟩ := herror err herr
    exact ⟨hle, rfl⟩

/-- One more turn before the others. -/
theorem Orderly.behind {c : Chunk} {offset next : Nat} {turns : List Nat} {ending : Ending}
    (hnext : c.Advances offset next) (h : c.Orderly next turns ending) :
    c.Orderly offset (offset :: turns) ending where
  begins := rfl
  advances := by
    cases turns with
    | nil => exact .singleton offset
    | cons turn turns =>
        obtain rfl : turn = next := Option.some.inj h.begins
        exact .cons_cons hnext h.advances
  short := by
    have hshort := h.short
    have hone := hnext.1
    rw [List.length_cons]
    omega
  cursor := h.cursor
  error := h.error

/-- **A run keeps to the code**, whatever the bytes and wherever it starts. -/
theorem orderly_visits (c : Chunk) (offset : Nat) (stack : Stack) (hle : offset ≤ c.size) :
    c.Orderly offset ((c.visits offset stack).map Prod.fst) (c.ending offset stack) := by
  cases hb : c.code[offset]? with
  | none =>
      rw [visits_of_end hb, ending_of_end hb]
      exact .single hle hle fun err herr => ⟨_, (Except.error.inj herr).symm⟩
  | some b =>
      have hlt : offset < c.size := (Array.getElem?_eq_some_iff.mp hb).1
      cases hstep : c.step offset b stack with
      | next extra stack' =>
          have hnext := advances_of_next hb hstep
          rw [visits_of_next hb hstep, ending_of_next hb hstep]
          exact (c.orderly_visits (offset + 1 + extra) stack' hnext.2).behind hnext
      | done v stack' =>
          rw [visits_of_done hb hstep, ending_of_done hb hstep]
          exact .single hle hlt fun err herr => by simp at herr
      | fail fault moved stack' =>
          have hmoved := moved_of_fail hstep
          have hcursor : offset + moved ≤ c.size := by omega
          rw [visits_of_fail hb hstep, ending_of_fail hb hstep]
          exact .single hle hcursor fun err herr => ⟨_, (Except.error.inj herr).symm⟩
termination_by c.size - offset

end Chunk

/-! ### Calls -/

/-- One use of a machine: a run, or a run with a trace to some output. -/
inductive Call (ω : Type) where
  | run
  | trace (out : ω)

/-- The output that a call is given. -/
def Call.output? {ω : Type} : Call ω → Option ω
  | run => none
  | trace out => some out

/-- What a call gives back: its result, and the output that it was given. -/
structure Answer (ω : Type) where
  result : Except MachineError Value
  output? : Option ω

namespace Machine

variable {ω : Type} [Output ω]

/-- Makes a call. -/
def call (m : Machine) : Call ω → Answer ω × Machine
  | .run => (⟨m.run.1, none⟩, m.run.2)
  | .trace out => (⟨(m.runTraced out).1, some (m.runTraced out).2.2⟩, (m.runTraced out).2.1)

/-- Makes calls one after another. -/
def calls (m : Machine) : List (Call ω) → List (Answer ω) × Machine
  | [] => ([], m)
  | first :: later =>
    let (answer, m) := m.call first
    let (answers, m) := m.calls later
    (answer :: answers, m)

/-- A call has the result of a run, and leaves the machine that a run leaves. -/
theorem call_eq_run (m : Machine) (call : Call ω) :
    (m.call call).1.result = m.run.1 ∧ (m.call call).2 = m.run.2 := by
  cases call with
  | run => exact ⟨rfl, rfl⟩
  | trace out =>
      show (m.runTraced out).1 = m.run.1 ∧ (m.runTraced out).2.1 = m.run.2
      rw [runTraced_eq]
      exact ⟨rfl, rfl⟩

/-- A machine that has halted answers every call in the same way and stays as it is. -/
theorem call_of_halted {m : Machine} (h : m.halted = true) (call : Call ω) :
    m.call call = (⟨.error (m.chunk.errorAt .halted m.cursor), call.output?⟩, m) := by
  cases call with
  | run => simp [Machine.call, Call.output?, run, runWatched, h]
  | trace out => simp [Machine.call, Call.output?, runTraced, runWatched, h]

theorem calls_of_halted {m : Machine} (h : m.halted = true) (later : List (Call ω)) :
    m.calls later =
      (later.map fun call => ⟨.error (m.chunk.errorAt .halted m.cursor), call.output?⟩, m) := by
  induction later with
  | nil => rfl
  | cons call later ih =>
      rw [calls, call_of_halted h]
      simp only [ih, List.map_cons]

/-- **A machine runs once, and its run ends.**  Whatever the bytes of the code and whatever calls
are made, and whoever watches the first one: its loop takes at most one turn for each byte and
one more, from each turn to the next the cursor moves on by one byte or by two, and never past
the code.  The machine is halted then, and an error lies within the code and has the line of
its offset.  Every later call says that the machine has halted, at the offset where the cursor
stopped, and changes neither the machine nor the output that it is given. -/
theorem calls_load (c : Chunk) (first : Call ω) (later : List (Call ω)) :
    ∃ (turns : List (Nat × Stack)) (answer : Answer ω) (m : Machine),
      (∀ (σ : Type) (watch : σ → Nat → Stack → σ) (seen : σ),
        ((load c).runWatched watch seen).2.2 =
          turns.foldl (fun seen turn => watch seen turn.1 turn.2) seen) ∧
      turns.length ≤ c.size + 1 ∧ turns.head? = some (0, []) ∧
      (turns.map Prod.fst).IsChain (fun a b => (b = a + 1 ∨ b = a + 2) ∧ b ≤ c.size) ∧
      (load c).call first = (answer, m) ∧ m.halted = true ∧ m.chunk = c ∧ m.cursor ≤ c.size ∧
      (∀ err, answer.result = .error err →
        err.offset ≤ c.size ∧ err.line = c.lineAt err.offset) ∧
      (load c).calls (first :: later) =
        (answer :: later.map fun call =>
          ⟨.error ⟨.halted, c.lineAt m.cursor, m.cursor⟩, call.output?⟩, m) := by
  obtain ⟨hresult, hmachine⟩ := (load c).call_eq_run first
  have horderly := c.orderly_visits 0 [] (Nat.zero_le _)
  have hhalted : ((load c).call first).2.halted = true := by rw [hmachine, run_load]
  have hchunk : ((load c).call first).2.chunk = c := by rw [hmachine, run_load]
  refine ⟨(load c).visits, ((load c).call first).1, ((load c).call first).2, ?_, ?_, ?_,
    horderly.advances, rfl, hhalted, hchunk, ?_, ?_, ?_⟩
  · intro σ watch seen
    rw [runWatched_eq]
  · rw [← List.length_map (f := Prod.fst)]
    exact horderly.short
  · show (c.visits 0 []).head? = _
    rw [Chunk.visits]
    rfl
  · rw [hmachine, run_load]
    exact horderly.cursor
  · intro err herr
    rw [hresult, run_load] at herr
    exact horderly.error err herr
  · show (((load c).call first).1 :: (((load c).call first).2.calls later).1,
      (((load c).call first).2.calls later).2) = _
    rw [calls_of_halted hhalted, hchunk]
    rfl

example :
    ((load ⟨#[1], #[], .empty⟩).calls [.run, .trace "", .run]).1.map Answer.result =
      [.error ⟨.missingOperand .constant, 0, 0⟩, .error ⟨.halted, 0, 1⟩,
        .error ⟨.halted, 0, 1⟩] := by
  cbv

end Machine

end StackCalc
