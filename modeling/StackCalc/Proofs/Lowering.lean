/-
What lowering adds to a chunk.

`Lowered` lists everything that a lowering which succeeds can do, one rule for each shape of
node, with the checks that were passed on the way.  Later arguments go by induction on it
and never open the walk itself.

A node is named by the way down to it, since a tree may hold the same subtree twice.  How
many bytes a subtree takes can be read off the tree, so the place of the instruction that
belongs to a node can too: it stands after the code of the node's operands.  `emitted` says
that lowering does put the instruction there, for the node's own line.
-/
import StackCalc.Lowering
import StackCalc.Proofs.Chunk
import StackCalc.Proofs.Except

namespace StackCalc

namespace Expr

/-! ### Nodes and their instructions -/

/-- A turn on the way down from the root. -/
inductive Turn where
  /-- To the only operand. -/
  | inner
  | left
  | right
deriving DecidableEq, Repr

/-- The node at the end of a way down. -/
def nodeAt? : Expr → List Turn → Option Expr
  | e, [] => some e
  | unary _ _ e, .inner :: path => e.nodeAt? path
  | grouping _ e, .inner :: path => e.nodeAt? path
  | primary _ e, .inner :: path => e.nodeAt? path
  | binary _ _ _ l _, .left :: path => l.nodeAt? path
  | binary _ _ _ _ r, .right :: path => r.nodeAt? path
  | _, _ => none

/-- The instruction that belongs to the node itself.  Parentheses, the wrapper around a
literal and a plus sign have none. -/
def ownOpcode? : Expr → Option Opcode
  | literal _ _ _ => some .constant
  | unary _ op _ =>
    match op.prefixMeaning? with
    | some (.compute u) => some u.opcode
    | _ => none
  | binary _ _ op _ _ => op.binaryOp?.map BinaryOp.opcode
  | grouping _ _ => none
  | primary _ _ => none

/-- The bytes of the node's own instruction. -/
def ownSize (e : Expr) : Nat :=
  e.ownOpcode?.elim 0 Opcode.width

/-- The bytes of the code of an expression. -/
def codeSize : Expr → Nat
  | e@(literal _ _ _) => e.ownSize
  | e@(unary _ _ x) => x.codeSize + e.ownSize
  | e@(binary _ _ _ l r) => l.codeSize + r.codeSize + e.ownSize
  | grouping _ x => x.codeSize
  | primary _ x => x.codeSize

/-- How far the instruction of a node is from the start of the code. -/
def opcodeOffset : Expr → List Turn → Nat
  | unary _ _ e, .inner :: path => e.opcodeOffset path
  | grouping _ e, .inner :: path => e.opcodeOffset path
  | primary _ e, .inner :: path => e.opcodeOffset path
  | binary _ _ _ l _, .left :: path => l.opcodeOffset path
  | binary _ _ _ l r, .right :: path => l.codeSize + r.opcodeOffset path
  | e, _ => e.codeSize - e.ownSize

@[simp] theorem nodeAt?_nil (e : Expr) : e.nodeAt? [] = some e := by
  cases e <;> rfl

@[simp] theorem opcodeOffset_nil (e : Expr) : e.opcodeOffset [] = e.codeSize - e.ownSize := by
  cases e <;> rfl

/-- The node has the expression as its only operand. -/
inductive OnlyOperand : Expr → Expr → Prop
  | unary (s : Site) (op : TokenKind) (e : Expr) : OnlyOperand (.unary s op e) e
  | grouping (s : Site) (e : Expr) : OnlyOperand (.grouping s e) e
  | primary (s : Site) (e : Expr) : OnlyOperand (.primary s e) e

namespace OnlyOperand

/-- There is one way down from such a node. -/
theorem nodeAt?_cons {outer e : Expr} (h : OnlyOperand outer e) {turn : Turn} {path : List Turn}
    {n : Expr} :
    outer.nodeAt? (turn :: path) = some n ↔ turn = .inner ∧ e.nodeAt? path = some n := by
  cases h <;> cases turn <;> simp [nodeAt?]

/-- Such a node is the first on a way down, and the rest are below its operand. -/
theorem nodeAt?_cases {outer e : Expr} (h : OnlyOperand outer e) {path : List Turn} {n : Expr}
    (hn : outer.nodeAt? path = some n) :
    (path = [] ∧ n = outer) ∨ ∃ below, path = .inner :: below ∧ e.nodeAt? below = some n := by
  cases path with
  | nil =>
      rw [nodeAt?_nil] at hn
      exact Or.inl ⟨rfl, (Option.some.inj hn).symm⟩
  | cons turn below =>
      obtain ⟨rfl, hbelow⟩ := h.nodeAt?_cons.mp hn
      exact Or.inr ⟨below, rfl, hbelow⟩

theorem opcodeOffset_inner {outer e : Expr} (h : OnlyOperand outer e) (path : List Turn) :
    outer.opcodeOffset (.inner :: path) = e.opcodeOffset path := by
  cases h <;> rfl

end OnlyOperand

@[simp] theorem ownSize_literal (s : Site) (kind : LiteralKind) (text : String) :
    (literal s kind text).ownSize = 2 := rfl

theorem ownSize_plus {op : TokenKind} (h : op.prefixMeaning? = some .nothing) (s : Site)
    (e : Expr) : (unary s op e).ownSize = 0 := by
  simp [ownSize, ownOpcode?, h]

theorem ownSize_unary {op : TokenKind} {u : UnaryOp} (h : op.prefixMeaning? = some (.compute u))
    (s : Site) (e : Expr) : (unary s op e).ownSize = 1 := by
  simp [ownSize, ownOpcode?, h, Opcode.width_eq]

theorem ownSize_binary {op : TokenKind} {b : BinaryOp} (h : op.binaryOp? = some b) (s : Site)
    (level : Level) (l r : Expr) : (binary s level op l r).ownSize = 1 := by
  simp [ownSize, ownOpcode?, h, Opcode.width_eq]

/-! ### Lowering that succeeds -/

/-- A line that the table can hold is held as it is. -/
theorem tableLine_eq_ok {s : Site} {line : UInt16} (h : tableLine s = .ok line) :
    line.toNat = s.position.line := by
  unfold tableLine at h
  split at h
  · rename_i hle
    rw [← Except.ok.inj h, Nat.toUInt16_eq, UInt16.toNat_ofNat_of_lt']
    unfold maxLine at hle
    simp [UInt16.size]
    omega
  · simp at h

/-- `c'` is `c` with the code of the expression added. -/
inductive Lowered : Expr → Chunk → Chunk → Prop
  | literal {s : Site} {kind : LiteralKind} {text : String} {c : Chunk} {line : UInt16} {v : Value}
      (hline : tableLine s = .ok line) (hv : Value.ofLiteral kind text = .ok v)
      (hroom : c.constants.size < maxConstants) :
      Lowered (.literal s kind text) c (c.withConstant .constant v line)
  | plus {s : Site} {op : TokenKind} {e : Expr} {c c' : Chunk} {line : UInt16}
      (he : Lowered e c c') (hline : tableLine s = .ok line)
      (hop : op.prefixMeaning? = some .nothing) : Lowered (.unary s op e) c c'
  | unary {s : Site} {op : TokenKind} {u : UnaryOp} {e : Expr} {c c' : Chunk} {line : UInt16}
      (he : Lowered e c c') (hline : tableLine s = .ok line)
      (hop : op.prefixMeaning? = some (.compute u)) :
      Lowered (.unary s op e) c (c'.push u.opcode line)
  | binary {s : Site} {level : Level} {op : TokenKind} {b : BinaryOp} {l r : Expr}
      {c c₁ c₂ : Chunk} {line : UInt16} (hl : Lowered l c c₁) (hr : Lowered r c₁ c₂)
      (hop : op.binaryOp? = some b) (hline : tableLine s = .ok line) :
      Lowered (.binary s level op l r) c (c₂.push b.opcode line)
  | grouping {s : Site} {e : Expr} {c c' : Chunk} (he : Lowered e c c') :
      Lowered (.grouping s e) c c'
  | primary {s : Site} {e : Expr} {c c' : Chunk} (he : Lowered e c c') :
      Lowered (.primary s e) c c'

theorem lowered_of_lowerLiteral {s : Site} {kind : LiteralKind} {text : String} {c c' : Chunk}
    (h : lowerLiteral s kind text c = .ok c') : Lowered (.literal s kind text) c c' := by
  obtain ⟨line, hline, h⟩ := bind_eq_ok h
  split at h
  · simp at h
  · rename_i v hv
    split at h
    · simp at h
    · rename_i c₁ hpush
      obtain ⟨hroom, rfl⟩ := Chunk.pushConstant_eq_ok hpush
      rw [← Except.ok.inj h]
      exact .literal hline hv hroom

theorem lowered_of_lowerPrefix {s : Site} {op : TokenKind} {e : Expr} {c c₁ c' : Chunk}
    (he : Lowered e c c₁) (h : lowerPrefix s op c₁ = .ok c') : Lowered (.unary s op e) c c' := by
  obtain ⟨line, hline, h⟩ := bind_eq_ok h
  split at h
  · rename_i hop
    rw [← Except.ok.inj h]
    exact .plus he hline hop
  · rename_i u hop
    rw [← Except.ok.inj h]
    exact .unary he hline hop
  · simp at h

theorem lowered_of_lowerOperator {s : Site} {level : Level} {op : TokenKind} {l r : Expr}
    {c c₁ c₂ c' : Chunk} (hl : Lowered l c c₁) (hr : Lowered r c₁ c₂)
    (h : lowerOperator s op c₂ = .ok c') : Lowered (.binary s level op l r) c c' := by
  unfold lowerOperator at h
  split at h
  · simp at h
  · rename_i b hop
    obtain ⟨line, hline, h⟩ := bind_eq_ok h
    rw [← Except.ok.inj h]
    exact .binary hl hr hop hline

theorem lowered_of_lowerAt :
    ∀ (e : Expr) {depth : Nat} {c c' : Chunk}, e.lowerAt depth c = .ok c' → Lowered e c c' := by
  intro e
  induction e with
  | literal s kind text =>
      intro depth c c' h
      rw [lowerAt] at h
      split at h
      · simp at h
      · exact lowered_of_lowerLiteral h
  | unary s op e ih =>
      intro depth c c' h
      rw [lowerAt] at h
      split at h
      · simp at h
      · obtain ⟨c₁, he, h⟩ := bind_eq_ok h
        exact lowered_of_lowerPrefix (ih he) h
  | binary s level op l r ihl ihr =>
      intro depth c c' h
      rw [lowerAt] at h
      split at h
      · simp at h
      · obtain ⟨c₁, hl, h⟩ := bind_eq_ok h
        obtain ⟨c₂, hr, h⟩ := bind_eq_ok h
        exact lowered_of_lowerOperator (ihl hl) (ihr hr) h
  | grouping s e ih =>
      intro depth c c' h
      rw [lowerAt] at h
      split at h
      · simp at h
      · exact .grouping (ih h)
  | primary s e ih =>
      intro depth c c' h
      rw [lowerAt] at h
      split at h
      · simp at h
      · exact .primary (ih h)

/-- The code of an expression is what its walk adds to nothing, and a return. -/
theorem lowered_of_lower {e : Expr} {c : Chunk} (h : e.lower = .ok c) :
    ∃ c₁, Lowered e .empty c₁ ∧ c = c₁.push .ret 0 := by
  obtain ⟨c₁, he, h⟩ := bind_eq_ok h
  exact ⟨c₁, lowered_of_lowerAt e he, (Except.ok.inj h).symm⟩

/-! ### How the chunk grows -/

namespace Lowered

/-- Nothing that was there is changed. -/
theorem extends_start {e : Expr} {c c' : Chunk} (h : Lowered e c c') : c.Extends c' := by
  induction h with
  | literal _ _ _ => exact .withConstant _ _ _ _
  | plus _ _ _ ih => exact ih
  | unary _ _ _ ih => exact ih.trans (.push _ _ _)
  | binary _ _ _ _ ihl ihr => exact (ihl.trans ihr).trans (.push _ _ _)
  | grouping _ ih => exact ih
  | primary _ ih => exact ih

theorem covered {e : Expr} {c c' : Chunk} (h : Lowered e c c') (hc : c.Covered) :
    c'.Covered := by
  induction h with
  | literal _ _ _ => exact hc.withConstant _ _ _
  | plus _ _ _ ih => exact ih hc
  | unary _ _ _ ih => exact (ih hc).push _ _
  | binary _ _ _ _ ihl ihr => exact (ihr (ihl hc)).push _ _
  | grouping _ ih => exact ih hc
  | primary _ ih => exact ih hc

theorem size {e : Expr} {c c' : Chunk} (h : Lowered e c c') : c'.size = c.size + e.codeSize := by
  induction h with
  | literal _ _ _ => simp [codeSize]
  | plus _ _ hop ih => simp [codeSize, ownSize_plus hop, ih]
  | unary _ _ hop ih => simp [codeSize, ownSize_unary hop, Chunk.push_eq, ih, Nat.add_assoc]
  | binary _ _ hop _ ihl ihr =>
      simp [codeSize, ownSize_binary hop, Chunk.push_eq, ihl, ihr, Nat.add_assoc]
  | grouping _ ih => simpa [codeSize] using ih
  | primary _ ih => simpa [codeSize] using ih

end Lowered

/-! ### Where instructions are put -/

/-- The instruction of the node stands at the offset, recorded for the node's line. -/
structure EmittedAt (c : Chunk) (offset : Nat) (n : Expr) (op : Opcode) : Prop where
  opcode : n.ownOpcode? = some op
  code : c.code[offset]? = some op.toByte
  line : ∃ line, c.lines.expand[offset]? = some line ∧ line.toNat = n.site.position.line

theorem EmittedAt.mono {c c' : Chunk} {offset : Nat} {n : Expr} {op : Opcode}
    (h : EmittedAt c offset n op) (hext : c.Extends c') : EmittedAt c' offset n op := by
  obtain ⟨line, hline, hnode⟩ := h.line
  exact ⟨h.opcode, hext.getElem?_code h.code, line, hext.getElem?_lines hline, hnode⟩

theorem EmittedAt.lineAt {c : Chunk} {offset : Nat} {n : Expr} {op : Opcode}
    (h : EmittedAt c offset n op) : (c.lineAt offset).toNat = n.site.position.line := by
  obtain ⟨line, hline, hnode⟩ := h.line
  rw [Chunk.lineAt, LineTable.lineAt_eq, hline]
  exact hnode

theorem emittedAt_push {c : Chunk} {n : Expr} {op : Opcode} {line : UInt16} (hc : c.Covered)
    (hop : n.ownOpcode? = some op) (hline : tableLine n.site = .ok line) :
    EmittedAt (c.push op line) c.size n op := by
  refine ⟨hop, Chunk.code_push c op line, line, ?_, tableLine_eq_ok hline⟩
  rw [Chunk.push_eq, Chunk.expand_lines_pushByte, ← hc.length_eq]
  simp

theorem emittedAt_withConstant {c : Chunk} {n : Expr} {v : Value} {line : UInt16}
    (hc : c.Covered) (hop : n.ownOpcode? = some .constant) (hline : tableLine n.site = .ok line) :
    EmittedAt (c.withConstant .constant v line) c.size n .constant := by
  refine ⟨hop, Chunk.code_withConstant c .constant v line, line, ?_, tableLine_eq_ok hline⟩
  rw [Chunk.expand_lines_withConstant, ← hc.length_eq]
  simp

/-- The instructions of the expression stand where the tree says, from an offset on. -/
def Emitted (c : Chunk) (e : Expr) (start : Nat) : Prop :=
  ∀ ⦃path : List Turn⦄ ⦃n : Expr⦄ ⦃op : Opcode⦄, e.nodeAt? path = some n →
    n.ownOpcode? = some op → EmittedAt c (start + e.opcodeOffset path) n op

theorem Emitted.mono {c c' : Chunk} {e : Expr} {start : Nat} (h : Emitted c e start)
    (hext : c.Extends c') : Emitted c' e start := by
  intro path n op hn hop
  exact (h hn hop).mono hext

/-- A node over one operand has its own instruction, if any, after those of the operand. -/
theorem Emitted.above {c : Chunk} {outer e : Expr} {start : Nat} (h : Emitted c e start)
    (houter : OnlyOperand outer e)
    (hown : ∀ op : Opcode, outer.ownOpcode? = some op →
      EmittedAt c (start + outer.opcodeOffset []) outer op) :
    Emitted c outer start := by
  intro path n op hn hop
  rcases houter.nodeAt?_cases hn with ⟨rfl, rfl⟩ | ⟨below, rfl, hbelow⟩
  · exact hown op hop
  · rw [houter.opcodeOffset_inner]
    exact h hbelow hop

/-- A node without an instruction is made of those of its operand. -/
theorem Emitted.transparent {c : Chunk} {outer e : Expr} {start : Nat} (h : Emitted c e start)
    (houter : OnlyOperand outer e) (hown : outer.ownOpcode? = none) : Emitted c outer start := by
  refine h.above houter ?_
  intro op hop
  rw [hown] at hop
  simp at hop

/-- **Every instruction stands where the tree says.** -/
theorem Lowered.emitted {e : Expr} {c c' : Chunk} (h : Lowered e c c') (hc : c.Covered) :
    Emitted c' e c.size := by
  induction h with
  | literal hline hv hroom =>
      intro path n op hn hop
      cases path with
      | nil =>
          obtain rfl := Option.some.inj hn
          obtain rfl := Option.some.inj hop
          exact emittedAt_withConstant hc rfl hline
      | cons turn path => simp [nodeAt?] at hn
  | plus he hline hmeaning ih =>
      refine (ih hc).transparent (.unary ..) ?_
      simp [ownOpcode?, hmeaning]
  | @unary s op u e c c' line he hline hmeaning ih =>
      refine ((ih hc).mono (.push _ _ _)).above (.unary ..) ?_
      intro op' hop
      have hown : (Expr.unary s op e).ownOpcode? = some u.opcode := by
        simp [ownOpcode?, hmeaning]
      obtain rfl := Option.some.inj (hown.symm.trans hop)
      rw [opcodeOffset_nil, codeSize, Nat.add_sub_cancel, ← he.size]
      exact emittedAt_push (he.covered hc) hown hline
  | @binary s level op b l r c c₁ c₂ line hl hr hmeaning hline ihl ihr =>
      intro path n op' hn hop
      cases path with
      | nil =>
          obtain rfl := Option.some.inj hn
          have hown : (Expr.binary s level op l r).ownOpcode? = some b.opcode := by
            simp [ownOpcode?, hmeaning]
          obtain rfl := Option.some.inj (hown.symm.trans hop)
          rw [opcodeOffset_nil, codeSize, Nat.add_sub_cancel, ← Nat.add_assoc, ← hl.size, ← hr.size]
          exact emittedAt_push (hr.covered (hl.covered hc)) hown hline
      | cons turn path =>
          cases turn with
          | inner => simp [nodeAt?] at hn
          | left => exact (ihl hc hn hop).mono (hr.extends_start.trans (.push _ _ _))
          | right =>
              have hright := ihr (hl.covered hc) hn hop
              rw [hl.size, Nat.add_assoc] at hright
              exact hright.mono (.push _ _ _)
  | grouping he ih => exact (ih hc).transparent (.grouping ..) rfl
  | primary he ih => exact (ih hc).transparent (.primary ..) rfl

end Expr

end StackCalc
