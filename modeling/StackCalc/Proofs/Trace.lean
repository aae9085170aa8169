/-
Traced runs and runs that nobody watches.

A watcher is handed each state before the machine acts on it and gives nothing back, so
every run is two things side by side: the ending, which no watcher has a part in, and the
watcher's walk along the states the run visits.  `visits` lists these states without any
watcher, and `execute_eq` takes a run apart into the two.

With that a trace is about outputs alone.  A step of the trace asks for several small writes
and any of them may fail; the trace is dropped there, and of the writes that the whole walk
asks for a front is made.  For a sink where that happens is of no consequence, so the walk
leaves the sink that all of the trace was written to.
-/
import StackCalc.Proofs.Evaluation
import StackCalc.Proofs.Output

namespace StackCalc

/-! ### The states of a run -/

namespace Chunk

/-- The states that a run from an offset on acts on, the last one being that at which it
ends. -/
def visits (c : Chunk) (offset : Nat) (stack : Stack) : List (Nat × Stack) :=
  (offset, stack) ::
    if h : offset < c.code.size then
      match c.step offset c.code[offset] stack with
      | .next extra stack => c.visits (offset + 1 + extra) stack
      | .done _ _ | .fail _ _ _ => []
    else []
termination_by c.code.size - offset

theorem visits_of_next {c : Chunk} {offset : Nat} {b : UInt8} {stack stack' : Stack} {extra : Nat}
    (hb : c.code[offset]? = some b) (h : c.step offset b stack = .next extra stack') :
    c.visits offset stack = (offset, stack) :: c.visits (offset + 1 + extra) stack' := by
  obtain ⟨hlt, rfl⟩ := Array.getElem?_eq_some_iff.mp hb
  rw [visits, dif_pos hlt, h]

theorem visits_of_done {c : Chunk} {offset : Nat} {b : UInt8} {stack stack' : Stack} {v : Value}
    (hb : c.code[offset]? = some b) (h : c.step offset b stack = .done v stack') :
    c.visits offset stack = [(offset, stack)] := by
  obtain ⟨hlt, rfl⟩ := Array.getElem?_eq_some_iff.mp hb
  rw [visits, dif_pos hlt, h]

theorem visits_of_fail {c : Chunk} {offset : Nat} {b : UInt8} {stack stack' : Stack}
    {fault : Fault} {moved : Nat} (hb : c.code[offset]? = some b)
    (h : c.step offset b stack = .fail fault moved stack') :
    c.visits offset stack = [(offset, stack)] := by
  obtain ⟨hlt, rfl⟩ := Array.getElem?_eq_some_iff.mp hb
  rw [visits, dif_pos hlt, h]

theorem visits_of_end {c : Chunk} {offset : Nat} (h : c.code[offset]? = none) (stack : Stack) :
    c.visits offset stack = [(offset, stack)] := by
  rw [visits, dif_neg (Nat.not_lt.mpr (Array.getElem?_eq_none_iff.mp h))]

/-- **A watched run is the run that nobody watches, and the watcher's walk along its states.** -/
theorem execute_eq {σ : Type} (c : Chunk) (watch : σ → Nat → Stack → σ) (seen : σ) (offset : Nat)
    (stack : Stack) :
    c.execute watch seen offset stack =
      (c.ending offset stack,
        (c.visits offset stack).foldl (fun seen state => watch seen state.1 state.2) seen) := by
  fun_induction execute c watch seen offset stack with
  | case1 seen offset stack seen' hlt extra stack' hstep ih =>
      have hb := Array.getElem?_eq_getElem hlt
      rw [ih, ending_of_next hb hstep, visits_of_next hb hstep, List.foldl_cons]
  | case2 seen offset stack seen' hlt v stack' hstep =>
      have hb := Array.getElem?_eq_getElem hlt
      rw [ending_of_done hb hstep, visits_of_done hb hstep]
      rfl
  | case3 seen offset stack seen' hlt fault moved stack' hstep =>
      have hb := Array.getElem?_eq_getElem hlt
      rw [ending_of_fail hb hstep, visits_of_fail hb hstep]
      rfl
  | case4 seen offset stack seen' hge =>
      have hend : c.code[offset]? = none := Array.getElem?_eq_none_iff.mpr (Nat.not_lt.mp hge)
      rw [ending_of_end hend, visits_of_end hend]
      rfl

/-- An ending came about at an offset: an error names it, and a return lies right before the
cursor. -/
def HaltedAt (offset : Nat) (result : Except MachineError Value) (cursor : Nat) : Prop :=
  match result with
  | .ok _ => cursor = offset + 1
  | .error err => err.offset = offset

/-- The last state of a run is the one at which it halts. -/
theorem exists_last_visit (c : Chunk) (offset : Nat) (stack : Stack) :
    ∃ before last stack', c.visits offset stack = before ++ [(last, stack')] ∧
      HaltedAt last (c.ending offset stack).result (c.ending offset stack).cursor := by
  cases hb : c.code[offset]? with
  | none =>
      rw [visits_of_end hb, ending_of_end hb]
      exact ⟨[], offset, stack, rfl, rfl⟩
  | some b =>
      have hlt : offset < c.code.size := (Array.getElem?_eq_some_iff.mp hb).1
      cases hstep : c.step offset b stack with
      | next extra stack' =>
          rw [visits_of_next hb hstep, ending_of_next hb hstep]
          obtain ⟨before, last, top, hvisits, hhalted⟩ :=
            c.exists_last_visit (offset + 1 + extra) stack'
          refine ⟨(offset, stack) :: before, last, top, ?_, hhalted⟩
          rw [hvisits, List.cons_append]
      | done v stack' =>
          rw [visits_of_done hb hstep, ending_of_done hb hstep]
          exact ⟨[], offset, stack, rfl, rfl⟩
      | fail fault moved stack' =>
          rw [visits_of_fail hb hstep, ending_of_fail hb hstep]
          exact ⟨[], offset, stack, rfl, rfl⟩
termination_by c.code.size - offset

end Chunk

namespace Machine

/-- The states that the machine acts on when it runs. -/
def visits (m : Machine) : List (Nat × Stack) :=
  if m.halted then [] else m.chunk.visits m.cursor m.stack

/-- A watched run of a machine leaves what a run leaves, and the watcher's walk along it. -/
theorem runWatched_eq {σ : Type} (m : Machine) (watch : σ → Nat → Stack → σ) (seen : σ) :
    m.runWatched watch seen =
      (m.run.1, m.run.2, m.visits.foldl (fun seen state => watch seen state.1 state.2) seen) := by
  unfold run runWatched visits
  by_cases h : m.halted = true
  · simp [h]
  · simp [h, Chunk.execute_eq]

/-! ### The trace -/

/-- What the trace of a run shows at a state. -/
def traceText (c : Chunk) (offset : Nat) (stack : Stack) : String :=
  "[" ++ String.join (stack.reverse.map fun v => " " ++ v.text) ++ " ]\n" ++
    c.instructionLine offset

theorem join_tracePieces (c : Chunk) (offset : Nat) (stack : Stack) :
    String.join (tracePieces c offset stack) = traceText c offset stack := by
  simp [tracePieces, traceText, Chunk.instructionLine, String.append_assoc]

/-- The writes that the trace of a run asks for. -/
def traceWrites (m : Machine) : List String :=
  m.visits.flatMap fun state => tracePieces m.chunk state.1 state.2

/-- The trace of a run as a whole. -/
def trace (m : Machine) : String :=
  String.join (m.visits.map fun state => traceText m.chunk state.1 state.2)

theorem join_traceWrites (m : Machine) : String.join m.traceWrites = m.trace := by
  unfold traceWrites trace
  induction m.visits with
  | nil => rfl
  | cons state rest ih =>
      rw [List.flatMap_cons, String.join_append, join_tracePieces, ih, List.map_cons,
        String.join_cons]

theorem runTraced_eq {ω : Type} [Output ω] (m : Machine) (out : ω) :
    m.runTraced out =
      (m.run.1, m.run.2, (m.traceWrites.foldl Feed.write (.into out)).out) := by
  rw [runTraced, runWatched_eq, traceWrites, List.foldl_flatMap]
  rfl

/-- **A trace is dropped at the first write that fails**, whatever the output: the writes up to
that one are made, and none after it. -/
theorem exists_made_runTraced {ω : Type} [Output ω] (m : Machine) (out : ω) :
    ∃ made, Feed.Made out m.traceWrites made ∧
      (m.runTraced out).2.2 = made.foldl Output.write out := by
  rw [runTraced_eq]
  exact Feed.exists_made m.traceWrites out

-- An output that counts the writes and takes none of them is written to once.
example :
    letI : Output Nat := ⟨fun writes _ => writes + 1, fun _ => true⟩
    ((load ⟨#[1, 0, 1, 1, 4, 0], #[.integer 1, .integer 2], ⟨#[⟨1, 5⟩, ⟨0, 1⟩]⟩⟩).runTraced
      0).2.2 = 1 := by
  decide +kernel

theorem runTraced_ofRoom (m : Machine) (room : Option Nat) :
    (m.runTraced (Sink.ofRoom room)).2.2 = Sink.holding room m.trace := by
  rw [runTraced_eq, Sink.into_ofRoom, Sink.foldl_write_fed, String.empty_append, join_traceWrites]
  rfl

/-- **Tracing changes nothing, and an output that fills up only cuts the trace.**  Whatever the
output, the result and the machine are those of a run without a trace.  A sink for `n` bytes
takes the first `n` bytes of the trace that an unlimited one takes, which shows every state of
the run in order, up to and with the one at which it halts. -/
theorem runTraced_cuts_only_trace (m : Machine) (n : Nat) :
    (∀ (ω : Type) [Output ω] (out : ω),
      (m.runTraced out).1 = m.run.1 ∧ (m.runTraced out).2.1 = m.run.2) ∧
    (m.runTraced (Sink.ofRoom (some n))).2.2.taken =
      (m.runTraced (Sink.ofRoom none)).2.2.taken.extract 0
        (min n (m.runTraced (Sink.ofRoom none)).2.2.taken.size) ∧
    (m.runTraced (Sink.ofRoom none)).2.2.taken = m.trace.toUTF8 ∧
    (m.halted = true ∨ ∃ before last stack, m.visits = before ++ [(last, stack)] ∧
      Chunk.HaltedAt last m.run.1 m.run.2.cursor) := by
  refine ⟨?_, ?_, ?_, ?_⟩
  · intro ω _ out
    rw [runTraced_eq]
    exact ⟨rfl, rfl⟩
  · rw [runTraced_ofRoom, runTraced_ofRoom]
    exact Sink.taken_holding n m.trace
  · rw [runTraced_ofRoom]
    rfl
  · by_cases h : m.halted = true
    · exact Or.inl h
    · obtain ⟨before, last, stack, hvisits, hhalted⟩ := m.chunk.exists_last_visit m.cursor m.stack
      rw [visits, run, runWatched, if_neg h, if_neg h]
      exact Or.inr ⟨before, last, stack, hvisits, hhalted⟩

example :
    (load ⟨#[1, 0, 1, 1, 4, 0], #[.integer 1, .integer 2], ⟨#[⟨1, 5⟩, ⟨0, 1⟩]⟩⟩).trace =
      "[ ]\n0000    1 CONSTANT         0 '1\n" ++ "[ 1 ]\n0002    | CONSTANT         1 '2\n" ++
        "[ 1 2 ]\n0004    | ADD\n" ++ "[ 3 ]\n0005    0 RETURN\n" := by
  cbv

end Machine

end StackCalc
