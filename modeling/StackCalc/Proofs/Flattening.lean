/-
Exactly what lowering accepts, writes and refuses.

What it accepts can be said of a tree without walking it: how high it is, how many literals
it has, and what each node is.  What it writes is the tree flattened in post-order.  What it
refuses is said by a list of everything that is wrong with a tree, in the order in which a
walk meets it: a node too far down on the way in, and everything else on the way out.  The
list goes on where lowering would have stopped, so it needs no notion of stopping, and the
error is simply its head.
-/
import StackCalc.Proofs.Lowering

namespace StackCalc

namespace Expr

/-! ### What the walk meets -/

/-- The kinds and texts of the literals from left to right. -/
def literals : Expr → List (LiteralKind × String)
  | literal _ kind text => [(kind, text)]
  | unary _ _ e => e.literals
  | binary _ _ _ l r => l.literals ++ r.literals
  | grouping _ e => e.literals
  | primary _ e => e.literals

/-- The operators that may stand before an operand, with their instructions.  A plus sign
has none. -/
def prefixTable : List (TokenKind × Option Opcode) :=
  [(.mark .minus, some .negate), (.mark .bang, some .not), (.mark .plus, none)]

/-- The operators that may stand between operands, with their instructions. -/
def infixTable : List (TokenKind × Opcode) :=
  [(.mark .plus, .add), (.mark .minus, .subtract), (.mark .star, .multiply),
    (.mark .slash, .divide), (.mark .greater, .greater), (.mark .greaterEqual, .greaterEqual),
    (.mark .less, .less), (.mark .lessEqual, .lessEqual), (.mark .bangEqual, .notEqual),
    (.mark .hash, .notEqual), (.mark .equalEqual, .equal), (.mark .equal, .equal)]

/-- What lowering asks of a node by itself. -/
def NodeOk : Expr → Prop
  | literal s kind text =>
    s.position.line ≤ 65535 ∧ ∃ v, Value.ofLiteral kind text = .ok v
  | unary s op _ => s.position.line ≤ 65535 ∧ op ∈ prefixTable.map Prod.fst
  | binary s _ op _ _ => s.position.line ≤ 65535 ∧ op ∈ infixTable.map Prod.fst
  | grouping _ _ => True
  | primary _ _ => True

/-- The trees that have code. -/
structure Lowerable (e : Expr) : Prop where
  height : e.height ≤ 1024
  literals : e.literals.length ≤ 256
  nodes : ∀ n ∈ e.nodes, n.NodeOk

/-- The bytes of the code of a tree, each with the line of its node, when `used` literals
stand to the left of the tree. -/
def flatten (used : Nat) : Expr → List (UInt8 × Nat)
  | literal s _ _ =>
    [(Opcode.constant.toByte, s.position.line), (used.toUInt8, s.position.line)]
  | unary s op e =>
    e.flatten used ++
      ((prefixTable.lookup op).join.toList.map fun o => (o.toByte, s.position.line))
  | binary s _ op l r =>
    l.flatten used ++ r.flatten (used + l.literals.length) ++
      ((infixTable.lookup op).toList.map fun o => (o.toByte, s.position.line))
  | grouping _ e => e.flatten used
  | primary _ e => e.flatten used

/-- The whole code of a tree: a return follows, which belongs to no line. -/
def program (e : Expr) : List (UInt8 × Nat) :=
  e.flatten 0 ++ [(Opcode.ret.toByte, 0)]

/-- One thing that is wrong, if it is. -/
def violationIf (wrong : Prop) [Decidable wrong] (fault : LowerFault) (s : Site) :
    List LowerError :=
  if wrong then [⟨fault, s⟩] else []

/-- What is wrong with the text of a literal. -/
def textViolations (s : Site) (kind : LiteralKind) (text : String) : List LowerError :=
  match Value.ofLiteral kind text with
  | .ok _ => []
  | .error x => [⟨.invalidLiteral x, s⟩]

/-- All that is wrong with a tree, in the order in which a walk meets it, when `depth` nodes
stand above the tree and `used` literals to the left of it. -/
def violations (depth used : Nat) : Expr → List LowerError
  | literal s kind text =>
    violationIf (1024 ≤ depth) .tooDeep s ++
      (violationIf (65535 < s.position.line) .lineOutOfRange s ++
        (textViolations s kind text ++ violationIf (256 ≤ used) .tooManyConstants s))
  | unary s op e =>
    violationIf (1024 ≤ depth) .tooDeep s ++
      (e.violations (depth + 1) used ++
        (violationIf (65535 < s.position.line) .lineOutOfRange s ++
          violationIf (op ∉ prefixTable.map Prod.fst) (.unsupportedOperator op) s))
  | binary s _ op l r =>
    violationIf (1024 ≤ depth) .tooDeep s ++
      (l.violations (depth + 1) used ++
        (r.violations (depth + 1) (used + l.literals.length) ++
          (violationIf (op ∉ infixTable.map Prod.fst) (.unsupportedOperator op) s ++
            violationIf (65535 < s.position.line) .lineOutOfRange s)))
  | grouping s e =>
    violationIf (1024 ≤ depth) .tooDeep s ++ e.violations (depth + 1) used
  | primary s e =>
    violationIf (1024 ≤ depth) .tooDeep s ++ e.violations (depth + 1) used

/-! ### The tables say what lowering knows of operators -/

theorem lookup_prefixTable (op : TokenKind) :
    prefixTable.lookup op = op.prefixMeaning?.map fun
      | .nothing => none
      | .compute u => some u.opcode := by
  rcases op with k | m | n | _ | _
  · cases k <;> rfl
  · cases m <;> rfl
  · cases n <;> rfl
  · rfl
  · rfl

theorem lookup_infixTable (op : TokenKind) :
    infixTable.lookup op = op.binaryOp?.map BinaryOp.opcode := by
  rcases op with k | m | n | _ | _
  · cases k <;> rfl
  · cases m <;> rfl
  · cases n <;> rfl
  · rfl
  · rfl

/-- What a table does not list, it does not find. -/
theorem notMem_keys_iff {β : Type} {table : List (TokenKind × β)} {op : TokenKind} :
    op ∉ table.map Prod.fst ↔ table.lookup op = none := by
  rw [List.lookup_eq_none_iff, List.mem_map]
  constructor
  · intro h entry hentry
    rw [bne_iff_ne]
    exact fun heq => h ⟨entry, hentry, heq.symm⟩
  · rintro h ⟨entry, hentry, rfl⟩
    exact absurd rfl (bne_iff_ne.mp (h entry hentry))

theorem notMem_prefixTable {op : TokenKind} :
    op ∉ prefixTable.map Prod.fst ↔ op.prefixMeaning? = none := by
  rw [notMem_keys_iff, lookup_prefixTable, Option.map_eq_none_iff]

theorem notMem_infixTable {op : TokenKind} :
    op ∉ infixTable.map Prod.fst ↔ op.binaryOp? = none := by
  rw [notMem_keys_iff, lookup_infixTable, Option.map_eq_none_iff]

/-! ### The first violation decides -/

/-- An outcome is what a list of violations makes it: the first one, or success. -/
def Decides {α : Type} (violations : List LowerError) (outcome : Except LowerError α) : Prop :=
  match violations with
  | [] => ∃ a, outcome = .ok a
  | err :: _ => outcome = .error err

theorem Decides.ok_iff {α : Type} {vs : List LowerError} {x : Except LowerError α}
    (h : Decides vs x) : (∃ a, x = .ok a) ↔ vs = [] := by
  cases vs with
  | nil => exact ⟨fun _ => rfl, fun _ => h⟩
  | cons err vs =>
      have herr : x = .error err := h
      simp [herr]

theorem Decides.error_iff {α : Type} {vs : List LowerError} {x : Except LowerError α}
    (h : Decides vs x) (err : LowerError) : x = .error err ↔ vs.head? = some err := by
  cases vs with
  | nil =>
      obtain ⟨a, rfl⟩ := h
      simp
  | cons first vs =>
      have herr : x = .error first := h
      simp [herr]

/-- The violations of two steps in sequence. -/
theorem Decides.bind {α β : Type} {vs ws : List LowerError} {x : Except LowerError α}
    {f : α → Except LowerError β} (hx : Decides vs x)
    (hf : ∀ a, x = .ok a → Decides ws (f a)) : Decides (vs ++ ws) (x >>= f) := by
  cases vs with
  | nil =>
      obtain ⟨a, rfl⟩ := hx
      exact hf a rfl
  | cons err vs =>
      have herr : x = .error err := hx
      rw [herr]
      rfl

theorem Decides.violationIf {α : Type} {wrong : Prop} [Decidable wrong] {fault : LowerFault}
    {s : Site} {x : Except LowerError α} {ws : List LowerError}
    (hx : ¬ wrong → Decides ws x) :
    Decides (violationIf wrong fault s ++ ws) (if wrong then .error ⟨fault, s⟩ else x) := by
  unfold Expr.violationIf
  by_cases h : wrong
  · rw [if_pos h, if_pos h]
    rfl
  · rw [if_neg h, if_neg h]
    exact hx h

theorem decides_tableLine (s : Site) :
    Decides (violationIf (65535 < s.position.line) .lineOutOfRange s) (tableLine s) := by
  unfold violationIf tableLine maxLine
  by_cases h : s.position.line ≤ 65535
  · rw [if_neg (by omega), if_pos h]
    exact ⟨_, rfl⟩
  · rw [if_pos (by omega), if_neg h]
    rfl

theorem decides_lowerLiteral (s : Site) (kind : LiteralKind) (text : String) (c : Chunk) :
    Decides
      (violationIf (65535 < s.position.line) .lineOutOfRange s ++
        (textViolations s kind text ++
          violationIf (256 ≤ c.constants.size) .tooManyConstants s))
      (lowerLiteral s kind text c) := by
  refine (decides_tableLine s).bind ?_
  intro line _
  unfold textViolations violationIf
  cases hv : Value.ofLiteral kind text with
  | error x => rfl
  | ok v =>
      by_cases h : 256 ≤ c.constants.size
      · simp only [Chunk.pushConstant_of_le h, if_pos h]
        rfl
      · simp only [Chunk.pushConstant_of_lt (Nat.not_le.mp h), if_neg h]
        exact ⟨_, rfl⟩

theorem decides_lowerPrefix (s : Site) (op : TokenKind) (c : Chunk) :
    Decides
      (violationIf (65535 < s.position.line) .lineOutOfRange s ++
        violationIf (op ∉ prefixTable.map Prod.fst) (.unsupportedOperator op) s)
      (lowerPrefix s op c) := by
  refine (decides_tableLine s).bind ?_
  intro line _
  unfold violationIf
  cases hop : op.prefixMeaning? with
  | none =>
      rw [if_pos (notMem_prefixTable.mpr hop)]
      rfl
  | some meaning =>
      rw [if_neg (by rw [notMem_prefixTable, hop]; simp)]
      cases meaning <;> exact ⟨_, rfl⟩

theorem decides_lowerOperator (s : Site) (op : TokenKind) (c : Chunk) :
    Decides
      (violationIf (op ∉ infixTable.map Prod.fst) (.unsupportedOperator op) s ++
        violationIf (65535 < s.position.line) .lineOutOfRange s)
      (lowerOperator s op c) := by
  unfold lowerOperator
  cases hop : op.binaryOp? with
  | none =>
      unfold violationIf
      rw [if_pos (notMem_infixTable.mpr hop)]
      rfl
  | some b =>
      have hknown : violationIf (op ∉ infixTable.map Prod.fst) (.unsupportedOperator op) s = [] :=
        if_neg (by rw [notMem_infixTable, hop]; simp)
      rw [hknown, List.nil_append,
        ← List.append_nil (violationIf (65535 < s.position.line) .lineOutOfRange s)]
      exact (decides_tableLine s).bind fun line _ => ⟨_, rfl⟩

/-! ### What is written -/

namespace Lowered

/-- The constants are the values of the literals, in order. -/
theorem constants {e : Expr} {c c' : Chunk} (h : Lowered e c c') :
    c'.constants.toList.map Except.ok =
      c.constants.toList.map Except.ok ++
        e.literals.map fun l => Value.ofLiteral l.1 l.2 := by
  induction h with
  | literal _ hv _ => simp [literals, hv]
  | plus _ _ _ ih => exact ih
  | unary _ _ _ ih => exact ih
  | binary _ _ _ _ ihl ihr =>
      rw [Chunk.push_eq, Chunk.constants_pushByte, ihr, ihl, List.append_assoc, literals,
        List.map_append]
  | grouping _ ih => exact ih
  | primary _ ih => exact ih

theorem size_constants {e : Expr} {c c' : Chunk} (h : Lowered e c c') :
    c'.constants.size = c.constants.size + e.literals.length := by
  have hlength := congrArg List.length h.constants
  simpa using hlength

/-- The bytes are the flattened tree, each recorded for the line of its node. -/
theorem holds {e : Expr} {c c' : Chunk} (h : Lowered e c c') :
    ∀ {bytes : List (UInt8 × UInt16)}, c.Holds bytes →
      ∃ more, c'.Holds (bytes ++ more) ∧
        more.map (fun p => (p.1, p.2.toNat)) = e.flatten c.constants.size := by
  induction h with
  | literal hline _ _ =>
      intro bytes hc
      refine ⟨_, hc.withConstant _ _ _, ?_⟩
      simp [flatten, tableLine_eq_ok hline]
  | @plus s op e c c' line _ hline hop ih =>
      intro bytes hc
      obtain ⟨more, hc', hmore⟩ := ih hc
      refine ⟨more, hc', ?_⟩
      simp [flatten, lookup_prefixTable, hop, hmore]
  | @unary s op u e c c' line _ hline hop ih =>
      intro bytes hc
      obtain ⟨more, hc', hmore⟩ := ih hc
      refine ⟨more ++ [(u.opcode.toByte, line)], ?_, ?_⟩
      · rw [← List.append_assoc]
        exact hc'.pushByte _ _
      · simp [flatten, lookup_prefixTable, hop, hmore, tableLine_eq_ok hline]
  | @binary s level op b l r c c₁ c₂ line hl _ hop hline ihl ihr =>
      intro bytes hc
      obtain ⟨left, hc₁, hleft⟩ := ihl hc
      obtain ⟨right, hc₂, hright⟩ := ihr hc₁
      refine ⟨left ++ right ++ [(b.opcode.toByte, line)], ?_, ?_⟩
      · rw [← List.append_assoc, ← List.append_assoc]
        exact hc₂.pushByte _ _
      · rw [hl.size_constants] at hright
        simp [flatten, lookup_infixTable, hop, hleft, hright, tableLine_eq_ok hline]
  | grouping _ ih => exact ih
  | primary _ ih => exact ih

end Lowered

/-! ### All trees -/

/-- **The first violation decides how lowering ends.** -/
theorem decides_lowerAt (e : Expr) : ∀ (depth : Nat) (c : Chunk),
    Decides (e.violations depth c.constants.size) (e.lowerAt depth c) := by
  induction e with
  | literal s kind text =>
      intro depth c
      exact Decides.violationIf fun _ => decides_lowerLiteral s kind text c
  | unary s op e ih =>
      intro depth c
      refine Decides.violationIf fun _ => (ih (depth + 1) c).bind ?_
      intro c' _
      exact decides_lowerPrefix s op c'
  | binary s level op l r ihl ihr =>
      intro depth c
      refine Decides.violationIf fun _ => (ihl (depth + 1) c).bind ?_
      intro c₁ hl
      rw [← (lowered_of_lowerAt l hl).size_constants]
      refine (ihr (depth + 1) c₁).bind ?_
      intro c₂ _
      exact decides_lowerOperator s op c₂
  | grouping s e ih =>
      intro depth c
      exact Decides.violationIf fun _ => ih (depth + 1) c
  | primary s e ih =>
      intro depth c
      exact Decides.violationIf fun _ => ih (depth + 1) c

theorem violationIf_eq_nil_iff {wrong : Prop} [Decidable wrong] {fault : LowerFault} {s : Site} :
    violationIf wrong fault s = [] ↔ ¬ wrong := by
  unfold violationIf
  split <;> simp_all

theorem textViolations_eq_nil_iff {s : Site} {kind : LiteralKind} {text : String} :
    textViolations s kind text = [] ↔ ∃ v, Value.ofLiteral kind text = .ok v := by
  unfold textViolations
  split <;> simp_all

/-- Nothing is wrong with a tree exactly when it meets the bounds that its surroundings leave
it and each of its nodes is fit by itself. -/
theorem violations_eq_nil_iff (e : Expr) : ∀ depth used,
    e.violations depth used = [] ↔
      depth + e.height ≤ 1024 ∧ used + e.literals.length ≤ 256 ∧ ∀ n ∈ e.nodes, n.NodeOk := by
  induction e with
  | literal s kind text =>
      intro depth used
      simp only [violations, List.append_eq_nil_iff, violationIf_eq_nil_iff,
        textViolations_eq_nil_iff, height, literals, nodes, List.forall_mem_singleton, NodeOk,
        List.length_singleton]
      grind
  | unary s op e ih =>
      intro depth used
      simp only [violations, List.append_eq_nil_iff, violationIf_eq_nil_iff, ih, height,
        literals, nodes, List.forall_mem_cons, NodeOk]
      grind
  | binary s level op l r ihl ihr =>
      intro depth used
      simp only [violations, List.append_eq_nil_iff, violationIf_eq_nil_iff, ihl, ihr, height,
        literals, nodes, List.forall_mem_cons, List.forall_mem_append, NodeOk,
        List.length_append]
      grind
  | grouping s e ih =>
      intro depth used
      simp only [violations, List.append_eq_nil_iff, violationIf_eq_nil_iff, ih, height,
        literals, nodes, List.forall_mem_cons, NodeOk]
      grind
  | primary s e ih =>
      intro depth used
      simp only [violations, List.append_eq_nil_iff, violationIf_eq_nil_iff, ih, height,
        literals, nodes, List.forall_mem_cons, NodeOk]
      grind

theorem decides_lower (e : Expr) : Decides (e.violations 0 0) e.lower := by
  rw [← List.append_nil (e.violations 0 0)]
  exact (decides_lowerAt e 0 .empty).bind fun c _ => ⟨_, rfl⟩

theorem lowerable_iff (e : Expr) : e.violations 0 0 = [] ↔ e.Lowerable := by
  rw [violations_eq_nil_iff, Nat.zero_add, Nat.zero_add]
  exact ⟨fun ⟨hheight, hliterals, hnodes⟩ => ⟨hheight, hliterals, hnodes⟩,
    fun h => ⟨h.height, h.literals, h.nodes⟩⟩

theorem holds_of_lower {e : Expr} {c : Chunk} (h : e.lower = .ok c) :
    ∃ bytes, c.Holds bytes ∧ bytes.map (fun p => (p.1, p.2.toNat)) = e.program := by
  obtain ⟨c₁, hlow, rfl⟩ := lowered_of_lower h
  obtain ⟨bytes, hbytes, hflat⟩ := hlow.holds Chunk.holds_empty
  refine ⟨bytes ++ [(Opcode.ret.toByte, 0)], hbytes.pushByte _ _, ?_⟩
  rw [List.map_append, hflat]
  rfl

/-- **What lowering accepts, writes and refuses.**  A tree has code exactly when its height,
its literals and its nodes are within the bounds.  The code is then the flattened tree and a
return, the constants are the values of the literals from left to right, and each byte is
recorded for the line of its node.  Otherwise the error is the first thing wrong that a walk
over the tree meets. -/
theorem lower_iff_lowerable (e : Expr) :
    ((∃ c, e.lower = .ok c) ↔ e.Lowerable) ∧
    (∀ c, e.lower = .ok c →
      c.code.toList = e.program.map Prod.fst ∧
      c.constants.toList.map Except.ok = (e.literals.map fun l => Value.ofLiteral l.1 l.2) ∧
      ∀ i, (c.lineAt i).toNat = (e.program[i]?.map Prod.snd).getD 0) ∧
    (∀ err, e.lower = .error err ↔ (e.violations 0 0).head? = some err) := by
  refine ⟨?_, ?_, e.decides_lower.error_iff⟩
  · rw [← lowerable_iff]
    exact e.decides_lower.ok_iff
  · intro c h
    obtain ⟨bytes, hbytes, hprogram⟩ := holds_of_lower h
    refine ⟨?_, ?_, ?_⟩
    · rw [hbytes.code, ← hprogram, List.map_map]
      rfl
    · obtain ⟨c₁, hlow, rfl⟩ := lowered_of_lower h
      exact hlow.constants
    · intro i
      rw [hbytes.lineAt, ← hprogram, List.getElem?_map]
      cases bytes[i]? <;> rfl

/-- A grouping may stand on a line beyond the table.  A literal may not, and that is met before
the literal without a value and the unknown operator that come after it. -/
theorem lower_farLines :
    (∃ c, (Expr.unary ⟨⟨3, 1⟩, ⟨0, 6⟩⟩ (.mark .minus)
          (.grouping ⟨⟨70000, 1⟩, ⟨1, 6⟩⟩ (.literal ⟨⟨2, 1⟩, ⟨2, 5⟩⟩ .string "a"))).lower = .ok c ∧
        c.code.toList = [1, 0, 3, 0] ∧ (c.lineAt 1).toNat = 2 ∧ (c.lineAt 2).toNat = 3) ∧
      (Expr.binary ⟨⟨2, 1⟩, ⟨0, 9⟩⟩ .binary .identifier
          (.literal ⟨⟨70000, 1⟩, ⟨0, 1⟩⟩ .string "a")
          (.literal ⟨⟨3, 1⟩, ⟨8, 9⟩⟩ .bool "b")).lower =
        .error ⟨.lineOutOfRange, ⟨⟨70000, 1⟩, ⟨0, 1⟩⟩⟩ := by
  constructor
  · have hlowerable : (Expr.unary ⟨⟨3, 1⟩, ⟨0, 6⟩⟩ (.mark .minus)
        (.grouping ⟨⟨70000, 1⟩, ⟨1, 6⟩⟩
          (.literal ⟨⟨2, 1⟩, ⟨2, 5⟩⟩ .string "a"))).Lowerable := by
      refine ⟨by decide, by decide, ?_⟩
      intro n hn
      simp only [nodes, List.mem_cons, List.not_mem_nil, or_false] at hn
      obtain rfl | rfl | rfl := hn
      · exact ⟨by decide, by decide⟩
      · trivial
      · exact ⟨by decide, _, rfl⟩
    obtain ⟨c, hc⟩ := (lower_iff_lowerable _).1.mpr hlowerable
    obtain ⟨hcode, -, hlines⟩ := (lower_iff_lowerable _).2.1 c hc
    exact ⟨c, hc, hcode, hlines 1, hlines 2⟩
  · exact ((lower_iff_lowerable _).2.2 _).mpr rfl

end Expr

end StackCalc
