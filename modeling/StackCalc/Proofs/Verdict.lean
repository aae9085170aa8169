/-
How any code ends, without running it.

The machine never jumps and an instruction changes the height of the stack by a fixed
amount, so a scan that keeps only a number where the machine keeps a stack visits the same
offsets.  `survey` is that scan, over bytes that nothing is known about: they may be cut
off, hold operands that look like instructions, or lack a return.  The one thing that it
cannot see is an operation on values that has no value.

`Follows` compares a step of the machine with a look of the scan at the same instruction,
one lemma for each shape of instruction, and a run is compared by going along the scan.
-/
import StackCalc.Proofs.Evaluation

namespace StackCalc

/-! ### The scan -/

/-- How code ends as far as a scan can tell. -/
inductive Outcome where
  | returns
  | faults (fault : Fault)

/-- What a scan makes of one instruction. -/
inductive Look where
  /-- On to the instruction `extra` bytes after the next one, with so many values on the
  stack. -/
  | on (extra depth : Nat)
  | stop (outcome : Outcome)

/-- The instruction needs so many values. -/
def Look.needing (least depth : Nat) (look : Look) : Look :=
  if least ≤ depth then look else .stop (.faults .stackUnderflow)

/-- What a scan makes of an instruction with `depth` values on the stack and a pool of `pool`
constants, when `operand` is the byte after it. -/
def Opcode.look (op : Opcode) (operand : Option UInt8) (pool depth : Nat) : Look :=
  match op with
  | .constant | .constantLong =>
    match operand with
    | none => .stop (.faults (.missingOperand op))
    | some place =>
      if place.toNat < pool then .on 1 (depth + 1) else .stop (.faults (.badConstant place))
  | .negate | .not => .needing 1 depth (.on 0 depth)
  | .add | .multiply | .subtract | .divide | .equal | .notEqual | .less | .lessEqual | .greater
  | .greaterEqual => .needing 2 depth (.on 0 (depth - 1))
  | .ret => .needing 1 depth (.stop .returns)
  | .error => .stop (.faults .errorInstruction)

/-- What a scan makes of a byte where an instruction should be. -/
def look (byte : UInt8) (operand : Option UInt8) (pool depth : Nat) : Look :=
  match Opcode.ofByte? byte with
  | none => .stop (.faults (.unknownOpcode byte))
  | some op => op.look operand pool depth

/-- What a scan finds: the offsets of the instructions it passed, and where and how it
ended. -/
structure Verdict where
  passed : List Nat
  offset : Nat
  outcome : Outcome

/-- Scans code from an offset on, with `depth` values on the stack. -/
def survey (code : Array UInt8) (pool offset depth : Nat) : Verdict :=
  if h : offset < code.size then
    match look code[offset] code[offset + 1]? pool depth with
    | .stop outcome => ⟨[], offset, outcome⟩
    | .on extra depth =>
      let rest := survey code pool (offset + 1 + extra) depth
      { rest with passed := offset :: rest.passed }
  else ⟨[], offset, .faults .unexpectedEnd⟩
termination_by code.size - offset

/-- The scan of a whole chunk. -/
def Chunk.verdict (c : Chunk) : Verdict :=
  survey c.code c.constants.size 0 0

/-- The instructions that operate on values. -/
def Opcode.operations : List Opcode :=
  [.negate, .not, .add, .multiply, .subtract, .divide, .equal, .notEqual, .less, .lessEqual,
    .greater, .greaterEqual]

/-! ### One instruction -/

/-- A step of the machine goes as the look at its instruction said, or the instruction is an
operation and has no value. -/
inductive Follows (op : Opcode) : Look → Step → Prop
  | next (extra : Nat) (stack : Stack) : Follows op (.on extra stack.length) (.next extra stack)
  | done (v : Value) (stack : Stack) : Follows op (.stop .returns) (.done v stack)
  | fail (fault : Fault) (moved : Nat) (stack : Stack) :
      Follows op (.stop (.faults fault)) (.fail fault moved stack)
  | value (extra depth : Nat) (x : ValueError) (moved : Nat) (stack : Stack)
      (hop : op ∈ Opcode.operations) : Follows op (.on extra depth) (.fail (.value x) moved stack)

namespace Chunk

theorem follows_stepUnary {op : Opcode} (hop : op ∈ Opcode.operations) (u : UnaryOp)
    (stack : Stack) :
    Follows op (.needing 1 stack.length (.on 0 stack.length)) (stepUnary u stack) := by
  cases stack with
  | nil => exact .fail _ _ _
  | cons a rest =>
      rw [stepUnary]
      cases a.unary u with
      | error x => exact .value _ _ _ _ _ hop
      | ok v => exact .next 0 (v :: rest)

theorem follows_stepBinary {op : Opcode} (hop : op ∈ Opcode.operations) (b : BinaryOp)
    (stack : Stack) :
    Follows op (.needing 2 stack.length (.on 0 (stack.length - 1))) (stepBinary b stack) := by
  rcases stack with _ | ⟨y, _ | ⟨x, rest⟩⟩
  · exact .fail _ _ _
  · exact .fail _ _ _
  · rw [stepBinary]
    cases x.binary b y with
    | error x => exact .value _ _ _ _ _ hop
    | ok v => exact .next 0 (v :: rest)

theorem follows_stepFinish (op : Opcode) (stack : Stack) :
    Follows op (.needing 1 stack.length (.stop .returns)) (stepFinish stack) := by
  cases stack with
  | nil => exact .fail _ _ _
  | cons v rest => exact .done v rest

theorem follows_stepPush (c : Chunk) (op : Opcode) (offset : Nat) (stack : Stack) :
    Follows op
      (match c.code[offset + 1]? with
        | none => .stop (.faults (.missingOperand op))
        | some place =>
          if place.toNat < c.constants.size then .on 1 (stack.length + 1)
          else .stop (.faults (.badConstant place)))
      (c.stepPush op offset stack) := by
  unfold stepPush
  cases c.code[offset + 1]? with
  | none => exact .fail _ _ _
  | some place =>
      by_cases hplace : place.toNat < c.constants.size
      · simp only [if_pos hplace, Array.getElem?_eq_getElem hplace]
        exact .next 1 (c.constants[place.toNat] :: stack)
      · simp only [if_neg hplace, Array.getElem?_eq_none (Nat.not_lt.mp hplace)]
        exact .fail _ _ _

/-- **A step does what the look at its instruction said.** -/
theorem follows_step (c : Chunk) {op : Opcode} {b : UInt8} (hop : Opcode.ofByte? b = some op)
    (offset : Nat) (stack : Stack) :
    Follows op (op.look c.code[offset + 1]? c.constants.size stack.length)
      (c.step offset b stack) := by
  unfold step
  rw [hop]
  cases op with
  | constant => exact c.follows_stepPush .constant offset stack
  | constantLong => exact c.follows_stepPush .constantLong offset stack
  | negate => exact follows_stepUnary (by decide) .negate stack
  | not => exact follows_stepUnary (by decide) .not stack
  | ret => exact follows_stepFinish .ret stack
  | error => exact .fail _ _ _
  | add => exact follows_stepBinary (by decide) .add stack
  | multiply => exact follows_stepBinary (by decide) .multiply stack
  | subtract => exact follows_stepBinary (by decide) .subtract stack
  | divide => exact follows_stepBinary (by decide) .divide stack
  | equal => exact follows_stepBinary (by decide) .equal stack
  | notEqual => exact follows_stepBinary (by decide) .notEqual stack
  | less => exact follows_stepBinary (by decide) .less stack
  | lessEqual => exact follows_stepBinary (by decide) .lessEqual stack
  | greater => exact follows_stepBinary (by decide) .greater stack
  | greaterEqual => exact follows_stepBinary (by decide) .greaterEqual stack

end Chunk

/-! ### Whole runs -/

theorem survey_of_stop {code : Array UInt8} {pool offset depth : Nat} {b : UInt8}
    {outcome : Outcome} (hb : code[offset]? = some b)
    (h : look b code[offset + 1]? pool depth = .stop outcome) :
    survey code pool offset depth = ⟨[], offset, outcome⟩ := by
  obtain ⟨hlt, rfl⟩ := Array.getElem?_eq_some_iff.mp hb
  rw [survey, dif_pos hlt, h]

theorem survey_of_on {code : Array UInt8} {pool offset depth extra depth' : Nat} {b : UInt8}
    (hb : code[offset]? = some b) (h : look b code[offset + 1]? pool depth = .on extra depth') :
    survey code pool offset depth =
      { survey code pool (offset + 1 + extra) depth' with
        passed := offset :: (survey code pool (offset + 1 + extra) depth').passed } := by
  obtain ⟨hlt, rfl⟩ := Array.getElem?_eq_some_iff.mp hb
  rw [survey, dif_pos hlt, h]

theorem survey_of_end {code : Array UInt8} {pool offset depth : Nat} (h : code[offset]? = none) :
    survey code pool offset depth = ⟨[], offset, .faults .unexpectedEnd⟩ := by
  rw [survey, dif_neg (Nat.not_lt.mpr (Array.getElem?_eq_none_iff.mp h))]

/-- What a scan passed lies before where it ended. -/
theorem lt_offset_of_passed (code : Array UInt8) (pool offset depth : Nat) :
    offset ≤ (survey code pool offset depth).offset ∧
      ∀ place ∈ (survey code pool offset depth).passed,
        place < (survey code pool offset depth).offset := by
  fun_induction survey code pool offset depth with
  | case1 offset depth hlt outcome hlook => simp
  | case2 offset depth hlt extra depth' hlook rest ih =>
      have hle : offset + 1 + extra ≤ rest.offset := ih.1
      refine ⟨show offset ≤ rest.offset by omega, ?_⟩
      intro place hplace
      show place < rest.offset
      rcases List.mem_cons.mp hplace with rfl | hplace
      · omega
      · exact ih.2 place hplace
  | case3 offset depth hge => simp

namespace Chunk

/-- A run from some state ends as a verdict says, or with an operation that has no value at an
instruction that the scan passed. -/
inductive EndsAs (c : Chunk) (v : Verdict) : Ending → Prop
  | value {x : ValueError} {place : Nat} {op : Opcode} {cursor : Nat} {stack : Stack}
      (hpassed : place ∈ v.passed) (hcode : c.code[place]?.bind Opcode.ofByte? = some op)
      (hop : op ∈ Opcode.operations) :
      EndsAs c v ⟨.error (c.errorAt (.value x) place), cursor, stack⟩
  | returns {value : Value} {stack : Stack} (h : v.outcome = .returns) :
      EndsAs c v ⟨.ok value, v.offset + 1, stack⟩
  | faults {fault : Fault} {cursor : Nat} {stack : Stack} (h : v.outcome = .faults fault) :
      EndsAs c v ⟨.error (c.errorAt fault v.offset), cursor, stack⟩

/-- One more instruction before the ones that the scan passed. -/
theorem EndsAs.behind {c : Chunk} {v : Verdict} {ending : Ending} (h : EndsAs c v ending)
    (offset : Nat) : EndsAs c { v with passed := offset :: v.passed } ending := by
  cases h with
  | value hpassed hcode hop => exact .value (List.mem_cons_of_mem offset hpassed) hcode hop
  | returns h => exact .returns h
  | faults h => exact .faults h

/-- **A run ends as the scan says.**  The scan starts with as many values as there are on the
stack, and this is what each step keeps. -/
theorem endsAs_survey (c : Chunk) (offset : Nat) (stack : Stack) :
    EndsAs c (survey c.code c.constants.size offset stack.length) (c.ending offset stack) := by
  cases hb : c.code[offset]? with
  | none =>
      rw [survey_of_end hb, ending_of_end hb]
      exact .faults rfl
  | some b =>
      have hlt : offset < c.code.size := (Array.getElem?_eq_some_iff.mp hb).1
      cases hop : Opcode.ofByte? b with
      | none =>
          have hlook : look b c.code[offset + 1]? c.constants.size stack.length =
              .stop (.faults (.unknownOpcode b)) := by rw [look, hop]
          have hstep : c.step offset b stack = .fail (.unknownOpcode b) 1 stack := by
            rw [step, hop]
          rw [survey_of_stop hb hlook, ending_of_fail hb hstep]
          exact .faults rfl
      | some op =>
          have hlook : look b c.code[offset + 1]? c.constants.size stack.length =
              op.look c.code[offset + 1]? c.constants.size stack.length := by rw [look, hop]
          have hfollows := c.follows_step hop offset stack
          rw [← hlook] at hfollows
          generalize hl : look b c.code[offset + 1]? c.constants.size stack.length = l at hfollows
          generalize hs : c.step offset b stack = s at hfollows
          cases hfollows with
          | next extra stack' =>
              rw [survey_of_on hb hl, ending_of_next hb hs]
              exact (c.endsAs_survey (offset + 1 + extra) stack').behind offset
          | done v stack' =>
              rw [survey_of_stop hb hl, ending_of_done hb hs]
              exact .returns rfl
          | fail fault moved stack' =>
              rw [survey_of_stop hb hl, ending_of_fail hb hs]
              exact .faults rfl
          | value extra depth x moved stack' hoperation =>
              rw [survey_of_on hb hl, ending_of_fail hb hs]
              exact .value (List.mem_cons_self ..) (by rw [hb]; exact hop) hoperation
termination_by c.code.size - offset

/-- An ending that is not an operation without a value. -/
def NoValueError (result : Except MachineError Value) : Prop :=
  ∀ err, result = .error err → ∀ x, err.fault ≠ .value x

/-- Two runs that end as one verdict says, and in no operation without a value, end alike. -/
theorem EndsAs.alike {c d : Chunk} {v : Verdict} {x y : Ending} (hx : EndsAs c v x)
    (hy : EndsAs d v y) (hlines : c.lines = d.lines) (hxv : NoValueError x.result)
    (hyv : NoValueError y.result) :
    (∃ a b, x.result = .ok a ∧ y.result = .ok b ∧ x.cursor = y.cursor) ∨
      ∃ err, x.result = .error err ∧ y.result = .error err := by
  cases hx with
  | value _ _ _ => exact absurd rfl (hxv _ rfl _)
  | returns hout =>
      cases hy with
      | value _ _ _ => exact absurd rfl (hyv _ rfl _)
      | returns _ => exact Or.inl ⟨_, _, rfl, rfl, rfl⟩
      | faults hout' =>
          rw [hout] at hout'
          simp at hout'
  | faults hout =>
      cases hy with
      | value _ _ _ => exact absurd rfl (hyv _ rfl _)
      | returns hout' =>
          rw [hout] at hout'
          simp at hout'
      | faults hout' =>
          rw [hout, Outcome.faults.injEq] at hout'
          subst hout'
          refine Or.inr ⟨_, rfl, ?_⟩
          rw [errorAt, errorAt, lineAt, lineAt, hlines]

end Chunk

namespace Machine

/-- **A static scan decides the fault of any code.**  The run of a chunk fails in an operation
on values, at an instruction that the scan passed, or it ends where and as the scan does: by
returning, or with the scan's fault at the scan's offset.  So two chunks that differ only in
the constants of their pools and run into no such operation end alike. -/
theorem run_eq_verdict :
    (∀ c : Chunk,
      (∃ x place op, (load c).run.1 = .error ⟨.value x, c.lineAt place, place⟩ ∧
        place ∈ c.verdict.passed ∧ place < c.verdict.offset ∧
        c.code[place]?.bind Opcode.ofByte? = some op ∧ op ∈ Opcode.operations) ∨
      (c.verdict.outcome = .returns ∧
        ∃ v, (load c).run.1 = .ok v ∧ (load c).run.2.cursor = c.verdict.offset + 1) ∨
      (∃ fault, c.verdict.outcome = .faults fault ∧
        (load c).run.1 = .error ⟨fault, c.lineAt c.verdict.offset, c.verdict.offset⟩)) ∧
    (∀ c d : Chunk, c.code = d.code → c.lines = d.lines → c.constants.size = d.constants.size →
      Chunk.NoValueError (load c).run.1 → Chunk.NoValueError (load d).run.1 →
      (∃ v w, (load c).run.1 = .ok v ∧ (load d).run.1 = .ok w ∧
        (load c).run.2.cursor = (load d).run.2.cursor) ∨
      ∃ err, (load c).run.1 = .error err ∧ (load d).run.1 = .error err) := by
  have hends : ∀ c : Chunk, c.EndsAs c.verdict (c.ending 0 []) := fun c => c.endsAs_survey 0 []
  constructor
  · intro c
    have hc := hends c
    rw [run_load]
    generalize c.ending 0 [] = ending at hc
    cases hc with
    | @value x place op cursor stack hpassed hcode hop =>
        have hlt := (lt_offset_of_passed c.code c.constants.size 0 0).2 place hpassed
        exact Or.inl ⟨x, place, op, rfl, hpassed, hlt, hcode, hop⟩
    | returns h => exact Or.inr (Or.inl ⟨h, _, rfl, rfl⟩)
    | faults h => exact Or.inr (Or.inr ⟨_, h, rfl⟩)
  · intro c d hcode hlines hpool hc hd
    have hverdict : d.verdict = c.verdict := by rw [Chunk.verdict, Chunk.verdict, hcode, hpool]
    exact (hends c).alike (hverdict ▸ hends d) hlines hc hd

/-- Code that pushes one value, by an operand that looks like a negation, and then adds. -/
def loneAddition (v : Value) : Chunk :=
  ⟨#[1, 3, 4], #[v, v, v, v], ⟨#[⟨7, 3⟩]⟩⟩

/-- The addition finds one value, whichever it is. -/
theorem run_loneAddition :
    (load (loneAddition (.bool true))).run.1 = .error ⟨.stackUnderflow, 7, 2⟩ ∧
      ∃ err, (load (loneAddition (.bool true))).run.1 = .error err ∧
        (load (loneAddition (.integer 5))).run.1 = .error err := by
  have hrun : ∀ v, (load (loneAddition v)).run.1 = .error ⟨.stackUnderflow, 7, 2⟩ := by
    intro v
    have hverdict : (loneAddition v).verdict = ⟨[0], 2, .faults .stackUnderflow⟩ := by cbv
    have hcases := run_eq_verdict.1 (loneAddition v)
    rw [hverdict] at hcases
    obtain ⟨x, place, op, -, hpassed, -, hcode, hop⟩ | ⟨hout, -⟩ | ⟨fault, hout, hrun⟩ := hcases
    · obtain rfl := List.mem_singleton.mp hpassed
      obtain rfl : Opcode.constant = op := Option.some.inj hcode
      exact absurd hop (by decide)
    · simp at hout
    · obtain rfl := Outcome.faults.inj hout
      exact hrun
  have hno : ∀ v, Chunk.NoValueError (load (loneAddition v)).run.1 := by
    intro v err herr x hx
    rw [hrun v] at herr
    obtain rfl := Except.error.inj herr
    simp at hx
  refine ⟨hrun _, ?_⟩
  obtain ⟨v, w, hv, -⟩ | halike := run_eq_verdict.2 (loneAddition (.bool true))
    (loneAddition (.integer 5)) rfl rfl rfl (hno _) (hno _)
  · rw [hrun] at hv
    simp at hv
  · exact halike

end Machine

end StackCalc
