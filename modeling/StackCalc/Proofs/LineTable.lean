/-
What a line table holds.

A table of runs stands for one line a byte, and `expand` writes that list out.  Two facts
carry everything about lookups: a push adds one line at the end of the list and leaves the
rest alone, and looking a byte up reads the list.  Neither asks anything of the table, so
both hold along any sequence of pushes.  A table whose runs are packed into words can be used
as it is: both operations have a form on the words, and packing commutes with them.

The runs themselves are settled as well.  A table is canonical when no run is empty and a
run is followed by another of the same line only when it is full.  Pushes keep that, and
two canonical tables of one list of lines are the same table: if the first run of one were
shorter than that of the other, the run after it would be of the same line, so the shorter
run would have to be full.
-/
import Mathlib.Algebra.GroupWithZero.Nat
import Mathlib.Data.List.Chain
import StackCalc.Code.Chunk

namespace StackCalc

namespace LineRun

/-- The two halves of the packed word. -/
theorem toNat_pack_or (e : LineRun) : e.pack.toNat = e.line.toNat ||| e.run.toNat <<< 16 := by
  have hl := e.line.toNat_lt
  rw [toNat_pack, Nat.or_comm, ← Nat.shiftLeft_add_eq_or_of_lt (by omega), Nat.shiftLeft_eq]
  omega

/-- Every word is the packed form of an entry. -/
@[simp] theorem pack_unpack (w : UInt32) : (unpack w).pack = w := by
  apply UInt32.toNat_inj.mp
  have hw := w.toNat_lt
  have hmask : UInt32.toNat 0xFFFF = 2 ^ 16 - 1 := rfl
  have hshift : UInt32.toNat 16 % 32 = 16 := rfl
  rw [toNat_pack]
  simp only [unpack, UInt32.toNat_toUInt16, UInt32.toNat_and, UInt32.toNat_shiftRight]
  rw [hmask, hshift, Nat.and_two_pow_sub_one_eq_mod, Nat.shiftRight_eq_div_pow]
  omega

end LineRun

namespace LineTable

/-! ### One line for each byte -/

/-- The lines of the bytes that some runs cover, one for each byte. -/
def expandRuns (runs : List LineRun) : List UInt16 :=
  runs.flatMap fun e => List.replicate e.run.toNat e.line

/-- The lines of all bytes of a table. -/
def expand (t : LineTable) : List UInt16 :=
  expandRuns t.runs.toList

@[simp] theorem expandRuns_nil : expandRuns [] = [] := rfl

@[simp] theorem expandRuns_cons (e : LineRun) (runs : List LineRun) :
    expandRuns (e :: runs) = List.replicate e.run.toNat e.line ++ expandRuns runs := by
  simp [expandRuns]

@[simp] theorem expandRuns_append (as bs : List LineRun) :
    expandRuns (as ++ bs) = expandRuns as ++ expandRuns bs := by
  simp [expandRuns]

theorem length_expandRuns (runs : List LineRun) :
    (expandRuns runs).length = (runs.map fun e => e.run.toNat).sum := by
  induction runs with
  | nil => rfl
  | cons e runs ih => simp [ih]

theorem lineIn_eq (runs : List LineRun) :
    ∀ index, lineIn runs index = (expandRuns runs)[index]?.getD 0 := by
  induction runs with
  | nil => intro index; simp [lineIn]
  | cons e runs ih =>
      intro index
      rw [lineIn, expandRuns_cons, List.getElem?_append, List.length_replicate]
      by_cases h : index < e.run.toNat
      · rw [if_pos h, if_pos h, List.getElem?_replicate_of_lt h]
        rfl
      · rw [if_neg h, if_neg h, ih]

/-- Looking a byte up reads the expanded table. -/
theorem lineAt_eq (t : LineTable) (index : Nat) : t.lineAt index = t.expand[index]?.getD 0 :=
  lineIn_eq t.runs.toList index

/-! ### What a push can do -/

theorem toNat_succ_run {r : UInt16} (h : r < 65535) : (r + 1).toNat = r.toNat + 1 := by
  have hone : UInt16.toNat 1 = 1 := rfl
  have hmax : UInt16.toNat 65535 = 65535 := rfl
  rw [UInt16.lt_iff_toNat_lt, hmax] at h
  rw [UInt16.toNat_add, hone]
  omega

/-- A push makes the last run one longer, which then is of that line and not full, or it
starts a run, and then the last one is of another line or full. -/
theorem push_cases (t : LineTable) (line : UInt16) :
    (∃ front r, r < 65535 ∧ t.runs.toList = front ++ [⟨line, r⟩] ∧
      (t.push line).runs.toList = front ++ [⟨line, r + 1⟩]) ∨
    ((∀ last ∈ t.runs.toList.getLast?, last.line = line → last.run = 65535) ∧
      (t.push line).runs.toList = t.runs.toList ++ [⟨line, 1⟩]) := by
  unfold push
  split
  · rename_i last hlast
    rw [← Array.getLast?_toList] at hlast
    by_cases hroom : last.line = line ∧ last.run < 65535
    · obtain ⟨front, hfront⟩ := List.getLast?_eq_some_iff.mp hlast
      obtain ⟨rfl, hrun⟩ := hroom
      refine Or.inl ⟨front, last.run, hrun, hfront, ?_⟩
      rw [if_pos ⟨rfl, hrun⟩, Array.toList_push, Array.toList_pop, hfront, List.dropLast_concat]
    · refine Or.inr ⟨?_, by rw [if_neg hroom, Array.toList_push]⟩
      intro last' hmem hline
      rw [hlast, Option.mem_some_iff] at hmem
      subst hmem
      have hlt := last.run.toNat_lt
      have hge : ¬ last.run < 65535 := fun h => hroom ⟨hline, h⟩
      rw [UInt16.lt_iff_toNat_lt] at hge
      have hmax : UInt16.toNat 65535 = 65535 := rfl
      exact UInt16.toNat_inj.mp (by omega)
  · rename_i hnone
    rw [← Array.getLast?_toList] at hnone
    refine Or.inr ⟨?_, Array.toList_push ..⟩
    intro last hmem
    rw [hnone] at hmem
    simp at hmem

/-- **A push adds one line at the end.** -/
@[simp] theorem expand_push (t : LineTable) (line : UInt16) :
    (t.push line).expand = t.expand ++ [line] := by
  unfold expand
  obtain ⟨front, r, hr, hold, hnew⟩ | ⟨-, hnew⟩ := t.push_cases line
  · rw [hnew, hold]
    simp [toNat_succ_run hr, List.replicate_succ']
  · rw [hnew]
    simp

/-! ### Packed tables

A run takes one word.  Recording a line and looking one up can be done on the words without
unpacking the table, and packing takes the one to the other. -/

/-- The words that the runs are packed into. -/
def words (t : LineTable) : Array UInt32 :=
  t.runs.map LineRun.pack

/-- Records the line of one more byte in the words. -/
def pushWord (words : Array UInt32) (line : UInt16) : Array UInt32 :=
  match words.back? with
  | some word =>
    let last := LineRun.unpack word
    if last.line = line ∧ last.run < 65535 then
      words.pop.push (LineRun.pack ⟨line, last.run + 1⟩)
    else words.push (LineRun.pack ⟨line, 1⟩)
  | none => words.push (LineRun.pack ⟨line, 1⟩)

/-- The line of a byte in the words behind those that cover `covered` bytes. -/
def lineInWords (index covered : Nat) : List UInt32 → UInt16
  | [] => 0
  | word :: rest =>
    let e := LineRun.unpack word
    let covered := covered + e.run.toNat
    if index < covered then e.line else lineInWords index covered rest

/-- **Recording a line commutes with packing.** -/
theorem words_push (t : LineTable) (line : UInt16) :
    (t.push line).words = pushWord t.words line := by
  unfold push pushWord words
  rw [Array.back?_map]
  rcases t.runs.back? with _ | last
  · exact Array.map_push
  · simp only [Option.map_some, LineRun.unpack_pack]
    by_cases hroom : last.line = line ∧ last.run < 65535
    · rw [if_pos hroom, if_pos hroom, Array.map_push, Array.map_pop]
    · rw [if_neg hroom, if_neg hroom, Array.map_push]

theorem lineInWords_map_pack (index : Nat) (runs : List LineRun) :
    ∀ {covered : Nat}, covered ≤ index →
      lineInWords index covered (runs.map LineRun.pack) = lineIn runs (index - covered) := by
  induction runs with
  | nil => intro covered _; rfl
  | cons e runs ih =>
      intro covered hcovered
      rw [List.map_cons, lineInWords, LineRun.unpack_pack, lineIn]
      by_cases hlt : index < covered + e.run.toNat
      · have hhere : index - covered < e.run.toNat := by omega
        rw [if_pos hlt, if_pos hhere]
      · have hlater : ¬ index - covered < e.run.toNat := by omega
        rw [if_neg hlt, if_neg hlater, ih (Nat.not_lt.mp hlt), Nat.sub_sub]

/-- **Looking a line up commutes with packing.** -/
theorem lineInWords_words (t : LineTable) (index : Nat) :
    lineInWords index 0 t.words.toList = t.lineAt index := by
  rw [words, Array.toList_map, lineInWords_map_pack index _ (Nat.zero_le index)]
  rfl

/-! ### Canonical tables -/

/-- A run may be followed by one of another line, and by one of its own line when it is
full. -/
def MayPrecede (a b : LineRun) : Prop :=
  a.line = b.line → a.run = 65535

/-- No run is empty, and none is split that would fit in one entry. -/
structure Canonical (runs : List LineRun) : Prop where
  nonempty : ∀ e ∈ runs, 1 ≤ e.run.toNat
  chain : runs.IsChain MayPrecede

theorem canonical_empty : Canonical empty.runs.toList := by
  refine ⟨?_, .nil⟩
  intro e he
  simp [empty] at he

theorem Canonical.tail {e : LineRun} {runs : List LineRun} (h : Canonical (e :: runs)) :
    Canonical runs :=
  ⟨fun a ha => h.nonempty a (List.mem_cons_of_mem e ha), h.chain.tail⟩

theorem canonical_push {t : LineTable} (h : Canonical t.runs.toList) (line : UInt16) :
    Canonical (t.push line).runs.toList := by
  obtain ⟨front, r, hr, hold, hnew⟩ | ⟨hlast, hnew⟩ := t.push_cases line
  · rw [hold] at h
    rw [hnew]
    obtain ⟨hfront, -, hjoin⟩ := List.isChain_append.mp h.chain
    refine ⟨?_, List.isChain_append.mpr ⟨hfront, .singleton _, ?_⟩⟩
    · intro e he
      rcases List.mem_append.mp he with hmem | hmem
      · exact h.nonempty e (List.mem_append.mpr (Or.inl hmem))
      · rw [List.mem_singleton.mp hmem]
        show 1 ≤ (r + 1).toNat
        rw [toNat_succ_run hr]
        omega
    -- Only the length of the last run changed, and what precedes it looks at its line.
    · intro a ha b hb
      have hline : b.line = line := by
        rw [List.head?_cons, Option.mem_some_iff] at hb
        rw [← hb]
      intro hab
      exact hjoin a ha ⟨line, r⟩ rfl (hab.trans hline)
  · rw [hnew]
    refine ⟨?_, List.isChain_append.mpr ⟨h.chain, .singleton _, ?_⟩⟩
    · intro e he
      rcases List.mem_append.mp he with hmem | hmem
      · exact h.nonempty e hmem
      · rw [List.mem_singleton.mp hmem]
        exact Nat.le_refl 1
    · intro a ha b hb hab
      rw [List.head?_cons, Option.mem_some_iff] at hb
      exact hlast a ha (by rw [hab, ← hb])

/-- The first line of a canonical table is that of its first run. -/
theorem Canonical.head_expandRuns {e : LineRun} {runs : List LineRun}
    (h : Canonical (e :: runs)) : (expandRuns (e :: runs))[0]? = some e.line := by
  have hpos := h.nonempty e (List.mem_cons_self ..)
  rw [expandRuns_cons, List.getElem?_append_left (by simp; omega),
    List.getElem?_replicate_of_lt (by omega)]

/-- The first run of a canonical table is as long as the line lasts, up to the limit: a
table of the same lines cannot have a longer first run. -/
theorem Canonical.first_run_le {a b : LineRun} {as bs : List LineRun}
    (ha : Canonical (a :: as)) (h : expandRuns (a :: as) = expandRuns (b :: bs))
    (hline : a.line = b.line) : b.run.toNat ≤ a.run.toNat := by
  by_contra hlt
  have hmax := b.run.toNat_lt
  -- The line right after the first run of `a` still belongs to the first run of `b`.
  have hnext : (expandRuns as)[0]? = some a.line := by
    have hat := congrArg (fun lines => lines[a.run.toNat]?) h
    simp only [expandRuns_cons] at hat
    rw [List.getElem?_append_right (by simp), List.length_replicate, Nat.sub_self,
      List.getElem?_append_left (by simp; omega), List.getElem?_replicate_of_lt (by omega)] at hat
    rw [hat, hline]
  cases as with
  | nil => simp at hnext
  | cons a' as =>
      rw [ha.tail.head_expandRuns] at hnext
      have hfull : a.run = 65535 :=
        (List.isChain_cons_cons.mp ha.chain).1 (Option.some.inj hnext).symm
      rw [hfull] at hlt
      have hlimit : UInt16.toNat 65535 = 65535 := rfl
      omega

/-- **A list of lines has one canonical table.** -/
theorem Canonical.unique :
    ∀ {as bs : List LineRun}, Canonical as → Canonical bs → expandRuns as = expandRuns bs →
      as = bs := by
  intro as
  induction as with
  | nil =>
      intro bs _ hb h
      cases bs with
      | nil => rfl
      | cons b bs =>
          have hfirst := hb.head_expandRuns
          rw [← h] at hfirst
          simp at hfirst
  | cons a as ih =>
      intro bs ha hb h
      cases bs with
      | nil =>
          have hfirst := ha.head_expandRuns
          rw [h] at hfirst
          simp at hfirst
      | cons b bs =>
          have hline : a.line = b.line := by
            have hfirst := ha.head_expandRuns
            rw [h, hb.head_expandRuns] at hfirst
            exact (Option.some.inj hfirst).symm
          have hrun : a.run = b.run :=
            UInt16.toNat_inj.mp
              (Nat.le_antisymm (hb.first_run_le h.symm hline.symm) (ha.first_run_le h hline))
          have hab : a = b := by
            cases a
            cases b
            simp_all
          subst hab
          rw [expandRuns_cons, expandRuns_cons] at h
          rw [ih ha.tail hb.tail (List.append_cancel_left h)]

end LineTable

end StackCalc
