/-
Where instructions begin.

A listing and a run each decide on their own where one instruction ends and the next begins:
the listing adds up widths, and the machine moves a cursor over what it reads.  Over bytes
that nothing is known about the two take different branches, at an unknown byte, at a
constant that has lost its operand and at a place that the pool does not have.  At each of
these the machine stops and the listing goes on, so what has to be shown is only that a step
which goes on moves the cursor by the width that the listing gives the instruction.

The walk of a listing is a list of offsets.  It has no gaps and no overlaps, and the offsets
of a run are a front of it, followed by the end of the code if the run gets that far.
-/
import StackCalc.Proofs.Trace

namespace StackCalc

namespace Chunk

/-! ### The walk of a listing -/

theorem listedWidth_pos (c : Chunk) (offset : Nat) : 0 < c.listedWidth offset := by
  have := c.listedWidth_cases offset
  omega

/-- An instruction of a listing ends within the code. -/
theorem listedWidth_le {c : Chunk} {offset : Nat} (h : offset < c.size) :
    offset + c.listedWidth offset ≤ c.size := by
  have := c.listedWidth_cases offset
  omega

/-- The offsets of the instructions that a listing shows, from one of them on. -/
def listedFrom (c : Chunk) (offset : Nat) : List Nat :=
  if offset < c.size then offset :: c.listedFrom (offset + c.listedWidth offset) else []
termination_by c.size - offset
decreasing_by
  have := c.listedWidth_pos offset
  omega

/-- The offsets of the instructions that the listing of a chunk shows. -/
def listed (c : Chunk) : List Nat :=
  c.listedFrom 0

theorem listedFrom_of_lt {c : Chunk} {offset : Nat} (h : offset < c.size) :
    c.listedFrom offset = offset :: c.listedFrom (offset + c.listedWidth offset) := by
  rw [listedFrom, if_pos h]

theorem listedFrom_of_le {c : Chunk} {offset : Nat} (h : c.size ≤ offset) :
    c.listedFrom offset = [] := by
  rw [listedFrom, if_neg (by omega)]

/-- A listing consists of the lines for these offsets. -/
theorem linesFrom_eq (c : Chunk) (offset : Nat) (done : String) :
    c.linesFrom offset done =
      done ++ String.join ((c.listedFrom offset).map c.instructionLine) := by
  fun_induction linesFrom c offset done with
  | case1 offset done hlt ih =>
      rw [ih, listedFrom_of_lt hlt, List.map_cons, String.join_cons, String.append_assoc]
  | case2 offset done hge =>
      rw [listedFrom_of_le (by omega)]
      simp

theorem bounds_of_mem_listedFrom (c : Chunk) (offset : Nat) :
    ∀ place ∈ c.listedFrom offset, offset ≤ place ∧ place < c.size := by
  fun_induction listedFrom c offset with
  | case1 offset hlt ih =>
      intro place hplace
      rcases List.mem_cons.mp hplace with rfl | hplace
      · omega
      · have := ih place hplace
        omega
  | case2 offset hge => simp

/-- An instruction ends before the next ones begin. -/
theorem listedFrom_increasing (c : Chunk) (offset : Nat) :
    (c.listedFrom offset).Pairwise (· < ·) := by
  fun_induction listedFrom c offset with
  | case1 offset hlt ih =>
      refine .cons ?_ ih
      intro place hplace
      have hbounds := c.bounds_of_mem_listedFrom _ place hplace
      have hpos := c.listedWidth_pos offset
      omega
  | case2 offset hge => exact .nil

/-- The last instruction ends where the code does. -/
theorem end_of_last_listedFrom (c : Chunk) (offset : Nat) :
    ∀ last ∈ (c.listedFrom offset).getLast?, last + c.listedWidth last = c.size := by
  fun_induction listedFrom c offset with
  | case1 offset hlt ih =>
      intro last hlast
      by_cases hmore : offset + c.listedWidth offset < c.size
      · refine ih last ?_
        rw [listedFrom_of_lt hmore] at hlast ⊢
        simpa using hlast
      · rw [listedFrom_of_le (Nat.not_lt.mp hmore)] at hlast
        obtain rfl : offset = last := by simpa using hlast
        have := listedWidth_le hlt
        omega
  | case2 offset hge => simp

/-- The byte at `index` belongs to the instruction that a listing shows at `place`. -/
def ListedAt (c : Chunk) (place index : Nat) : Prop :=
  place ≤ index ∧ index < place + c.listedWidth place

/-- Every byte belongs to one instruction and to no other. -/
theorem exists_listedAt (c : Chunk) (offset : Nat) :
    ∀ index, offset ≤ index → index < c.size →
      ∃ place ∈ c.listedFrom offset, c.ListedAt place index ∧
        ∀ other ∈ c.listedFrom offset, c.ListedAt other index → other = place := by
  fun_induction listedFrom c offset with
  | case1 offset hlt ih =>
      intro index hle hindex
      by_cases hhere : index < offset + c.listedWidth offset
      · refine ⟨offset, by simp, ⟨hle, hhere⟩, ?_⟩
        intro other hother hat
        rcases List.mem_cons.mp hother with rfl | hother
        · rfl
        · have hbounds := c.bounds_of_mem_listedFrom _ other hother
          have hbefore := hat.1
          omega
      · obtain ⟨place, hplace, hat, hunique⟩ := ih index (by omega) hindex
        refine ⟨place, by simp [hplace], hat, ?_⟩
        intro other hother hat'
        rcases List.mem_cons.mp hother with rfl | hother
        · exact absurd hat'.2 hhere
        · exact hunique other hother hat'
  | case2 offset hge =>
      intro index hle hindex
      omega

/-! ### Which instructions have an operand

The machine, the widths and the listing each have a table of their own for this.  The machine's
is the one to go by: an operand belongs to what it pushes a constant for. -/

section

variable {c : Chunk} {offset : Nat} {b : UInt8} {op : Opcode}

/-- The listing gives an operand to what the machine pushes a constant for. -/
theorem listedWidth_eq (hb : c.code[offset]? = some b) (hop : Opcode.ofByte? b = some op) :
    c.listedWidth offset = if op.action = .push then c.constantWidth op offset else 1 := by
  simp only [listedWidth, hb, Option.bind_some, hop]
  cases op <;> rfl

/-- The listing shows a constant for what the machine pushes one for. -/
theorem body_eq (hb : c.code[offset]? = some b) (hop : Opcode.ofByte? b = some op) :
    c.body offset = if op.action = .push then c.constantText op offset else op.mnemonic := by
  simp only [body, hb, hop]
  cases op <;> rfl

theorem listedWidth_of_push (hb : c.code[offset]? = some b) (hop : Opcode.ofByte? b = some op)
    (hpush : op.action = .push) (hoperand : (c.code[offset + 1]?).isSome) :
    c.listedWidth offset = 2 := by
  obtain ⟨place, hplace⟩ := Option.isSome_iff_exists.mp hoperand
  rw [listedWidth_eq hb hop, if_pos hpush]
  simp only [constantWidth, hplace, Opcode.width_eq, if_pos hpush]

theorem listedWidth_of_not_push (hb : c.code[offset]? = some b)
    (hop : Opcode.ofByte? b = some op) (hpush : op.action ≠ .push) : c.listedWidth offset = 1 := by
  rw [listedWidth_eq hb hop, if_neg hpush]

end

/-! ### A step and the width of its instruction -/

theorem stepUnary_next {u : UnaryOp} {stack stack' : Stack} {extra : Nat}
    (h : stepUnary u stack = .next extra stack') : extra = 0 := by
  unfold stepUnary at h
  split at h
  · simp at h
  · split at h
    · simp at h
    · exact (Step.next.inj h).1.symm

theorem stepBinary_next {b : BinaryOp} {stack stack' : Stack} {extra : Nat}
    (h : stepBinary b stack = .next extra stack') : extra = 0 := by
  unfold stepBinary at h
  split at h
  · simp at h
  · simp at h
  · split at h
    · simp at h
    · exact (Step.next.inj h).1.symm

theorem stepPush_next {c : Chunk} {op : Opcode} {offset : Nat} {stack stack' : Stack} {extra : Nat}
    (h : c.stepPush op offset stack = .next extra stack') :
    extra = 1 ∧ (c.code[offset + 1]?).isSome := by
  unfold stepPush at h
  split at h
  · simp at h
  · rename_i place hplace
    split at h
    · simp at h
    · exact ⟨(Step.next.inj h).1.symm, by simp [hplace]⟩

theorem stepFinish_ne_next (stack stack' : Stack) (extra : Nat) :
    stepFinish stack ≠ .next extra stack' := by
  unfold stepFinish
  split <;> simp

/-- **A step that goes on moves past the instruction as the listing shows it.** -/
theorem listedWidth_of_next {c : Chunk} {offset : Nat} {b : UInt8} {stack stack' : Stack}
    {extra : Nat} (hb : c.code[offset]? = some b)
    (h : c.step offset b stack = .next extra stack') : c.listedWidth offset = 1 + extra := by
  unfold step at h
  split at h
  · simp at h
  · rename_i op hop
    split at h
    · rename_i hpush
      obtain ⟨rfl, hoperand⟩ := stepPush_next h
      exact listedWidth_of_push hb hop hpush hoperand
    · rename_i u hunary
      rw [stepUnary_next h]
      exact listedWidth_of_not_push hb hop (by simp [hunary])
    · rename_i o hbinary
      rw [stepBinary_next h]
      exact listedWidth_of_not_push hb hop (by simp [hbinary])
    · exact absurd h (stepFinish_ne_next _ _ _)
    · simp at h

/-- No instruction fails by running out of code. -/
theorem step_ne_unexpectedEnd (c : Chunk) (offset : Nat) (b : UInt8) (stack stack' : Stack)
    (moved : Nat) : c.step offset b stack ≠ .fail .unexpectedEnd moved stack' := by
  unfold step
  split
  · simp
  · split
    · unfold stepPush
      split
      · simp
      · split <;> simp
    · unfold stepUnary
      split
      · simp
      · split <;> simp
    · unfold stepBinary
      split
      · simp
      · simp
      · split <;> simp
    · unfold stepFinish
      split <;> simp
    · simp

/-! ### The offsets of a run -/

/-- The run got to the end of the code. -/
def RanOut (result : Except MachineError Value) : Prop :=
  ∃ err, result = .error err ∧ err.fault = .unexpectedEnd

/-- The offsets that a run acts on are what a listing shows from where it starts: all of it
and the end of the code when the run gets there, and else a front of it. -/
def WalksListing (c : Chunk) (offset : Nat) (result : Except MachineError Value)
    (offsets : List Nat) : Prop :=
  (RanOut result ∧ offsets = c.listedFrom offset ++ [c.size]) ∨
    (¬ RanOut result ∧ offsets <+: c.listedFrom offset)

/-- One more instruction before a run. -/
theorem WalksListing.behind {c : Chunk} {offset : Nat} {result : Except MachineError Value}
    {offsets : List Nat} (hlt : offset < c.size)
    (h : c.WalksListing (offset + c.listedWidth offset) result offsets) :
    c.WalksListing offset result (offset :: offsets) := by
  unfold WalksListing at h ⊢
  rw [listedFrom_of_lt hlt]
  rcases h with ⟨hout, rfl⟩ | ⟨hout, hfront⟩
  · exact Or.inl ⟨hout, rfl⟩
  · exact Or.inr ⟨hout, List.cons_prefix_cons.mpr ⟨rfl, hfront⟩⟩

/-- A run that ends at its first instruction. -/
theorem WalksListing.single {c : Chunk} {offset : Nat} {result : Except MachineError Value}
    (hlt : offset < c.size) (hout : ¬ RanOut result) :
    c.WalksListing offset result [offset] := by
  refine Or.inr ⟨hout, ?_⟩
  rw [listedFrom_of_lt hlt]
  exact List.cons_prefix_cons.mpr ⟨rfl, List.nil_prefix⟩

/-- **A run walks along the listing.** -/
theorem visits_walksListing (c : Chunk) (offset : Nat) (stack : Stack) (hle : offset ≤ c.size) :
    c.WalksListing offset (c.ending offset stack).result
      ((c.visits offset stack).map Prod.fst) := by
  by_cases hlt : offset < c.size
  · have hb : c.code[offset]? = some c.code[offset] := Array.getElem?_eq_getElem hlt
    cases hstep : c.step offset c.code[offset] stack with
    | next extra stack' =>
        have hwidth := listedWidth_of_next hb hstep
        have hin := listedWidth_le hlt
        rw [ending_of_next hb hstep, visits_of_next hb hstep, List.map_cons]
        refine .behind hlt ?_
        rw [hwidth, ← Nat.add_assoc]
        exact c.visits_walksListing (offset + 1 + extra) stack' (by omega)
    | done v stack' =>
        rw [ending_of_done hb hstep, visits_of_done hb hstep]
        refine .single hlt ?_
        rintro ⟨err, herr, -⟩
        simp at herr
    | fail fault moved stack' =>
        rw [ending_of_fail hb hstep, visits_of_fail hb hstep]
        refine .single hlt ?_
        rintro ⟨err, herr, hfault⟩
        rw [← Except.error.inj herr] at hfault
        obtain rfl : fault = .unexpectedEnd := hfault
        exact c.step_ne_unexpectedEnd _ _ _ _ _ hstep
  · obtain rfl : offset = c.size := by omega
    have hend : c.code[c.size]? = none := Array.getElem?_eq_none (Nat.le_refl _)
    rw [ending_of_end hend, visits_of_end hend, WalksListing, listedFrom_of_le (Nat.le_refl _)]
    exact Or.inl ⟨⟨_, rfl, rfl⟩, rfl⟩
termination_by c.size - offset

end Chunk

namespace Machine

/-- The offsets at which a fresh machine acts when it runs a chunk, written down by a
watcher. -/
def executed (c : Chunk) : List Nat :=
  ((load c).runWatched (fun seen offset _ => seen ++ [offset]) []).2.2

theorem executed_eq (c : Chunk) : executed c = (c.visits 0 []).map Prod.fst := by
  rw [executed, runWatched_eq, List.foldl_append_eq_append, List.nil_append, ← List.flatMap_def]
  exact List.flatMap_pure_eq_map ..

/-- **Listings and runs agree on where instructions begin.**  Whatever the bytes, the listing of
a chunk shows instructions at offsets that start at 0 and increase, the last one ends where the
code does, and each byte belongs to exactly one of them.  A run acts on a front of these
offsets, or on all of them and the end of the code, and the latter exactly when it fails for
having reached the end. -/
theorem executed_walks_listing (c : Chunk) :
    (∀ title, c.listing title =
      "== " ++ title ++ " ==\n" ++ String.join (c.listed.map c.instructionLine)) ∧
    (c.listed.head? = if c.size = 0 then none else some 0) ∧
    c.listed.Pairwise (· < ·) ∧
    (∀ last ∈ c.listed.getLast?, last + c.listedWidth last = c.size) ∧
    (∀ index < c.size, ∃ place ∈ c.listed,
      (place ≤ index ∧ index < place + c.listedWidth place) ∧
      ∀ other ∈ c.listed, other ≤ index ∧ index < other + c.listedWidth other → other = place) ∧
    (((∃ err, (load c).run.1 = .error err ∧ err.fault = .unexpectedEnd) ∧
        executed c = c.listed ++ [c.size]) ∨
      (¬ (∃ err, (load c).run.1 = .error err ∧ err.fault = .unexpectedEnd) ∧
        executed c <+: c.listed)) := by
  refine ⟨?_, ?_, c.listedFrom_increasing 0, c.end_of_last_listedFrom 0, ?_, ?_⟩
  · intro title
    exact c.linesFrom_eq 0 _
  · by_cases hempty : c.size = 0
    · rw [if_pos hempty, Chunk.listed, Chunk.listedFrom_of_le (by omega)]
      rfl
    · rw [if_neg hempty, Chunk.listed, Chunk.listedFrom_of_lt (by omega)]
      rfl
  · intro index hindex
    exact c.exists_listedAt 0 index (Nat.zero_le _) hindex
  · rw [executed_eq]
    exact c.visits_walksListing 0 [] (Nat.zero_le _)

example :
    (⟨#[1, 9, 77, 2], #[], .empty⟩ : Chunk).listed = [0, 2, 3] ∧
      executed ⟨#[1, 9, 77, 2], #[], .empty⟩ = [0] ∧
      executed ⟨#[1, 0, 3], #[.integer 5], .empty⟩ = [0, 2, 3] := by
  cbv

end Machine

end StackCalc
