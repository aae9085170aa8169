/-
Types that can be told before running.

The type of an expression can be read off the tree: a literal shows its own, and an operator
has rules that give the type of its result from those of its operands, or none.  The rules
say nothing about values, so an expression that has a type can still fail, by dividing by
zero or by leaving the range of integers; but it can fail in no other way, and the value it
has otherwise is of that type.

For an expression that no rule gives a type there is a first node at which the rules fail,
first in the order in which evaluation performs operations.  Evaluation gets there or fails
before, and what it says when it gets there is said of that node.  Both halves are one
induction over what lowering accepts, and `Judged` is what it carries.
-/
import StackCalc.Proofs.Evaluation

namespace StackCalc

/-! ### The rules -/

/-- The types of numbers. -/
def Tag.isNumeric : Tag → Bool
  | integer | double => true
  | bool | string => false

/-- The type of a literal. -/
def LiteralKind.tag : LiteralKind → Tag
  | number .integer => .integer
  | number .double => .double
  | string => .string
  | bool => .bool

/-- The type that an operator gives to what stands after it. -/
def TokenKind.prefixTag? : TokenKind → Tag → Option Tag
  | .mark .plus, t => some t
  | .mark .minus, .integer => some .integer
  | .mark .minus, .double => some .double
  | .mark .bang, .bool => some .bool
  | _, _ => none

/-- Two integers make an integer, and any other two numbers a double. -/
def arithmeticTag? (a b : Tag) : Option Tag :=
  if a = .integer ∧ b = .integer then some .integer
  else if a.isNumeric ∧ b.isNumeric then some .double
  else none

/-- Two numbers can be ordered. -/
def orderTag? (a b : Tag) : Option Tag :=
  if a.isNumeric ∧ b.isNumeric then some .bool else none

/-- Two numbers, two truth values and two strings can be equal. -/
def equalityTag? (a b : Tag) : Option Tag :=
  if (a.isNumeric ∧ b.isNumeric) ∨ (a = .bool ∧ b = .bool) ∨ (a = .string ∧ b = .string) then
    some .bool
  else none

/-- The type that an operator gives to what stands on its two sides. -/
def TokenKind.infixTag? (op : TokenKind) (a b : Tag) : Option Tag :=
  match op with
  | .mark .plus => if a = .string ∧ b = .string then some .string else arithmeticTag? a b
  | .mark .minus | .mark .star | .mark .slash => arithmeticTag? a b
  | .mark .less | .mark .lessEqual | .mark .greater | .mark .greaterEqual => orderTag? a b
  | .mark .equalEqual | .mark .equal | .mark .bangEqual | .mark .hash => equalityTag? a b
  | _ => none

namespace Expr

/-- The type of an expression, if the rules give it one. -/
def staticTag? : Expr → Option Tag
  | literal _ kind _ => some kind.tag
  | unary _ op e => e.staticTag?.bind op.prefixTag?
  | binary _ _ op l r => l.staticTag?.bind fun a => r.staticTag?.bind fun b => op.infixTag? a b
  | grouping _ e => e.staticTag?
  | primary _ e => e.staticTag?

/-- The nodes of an expression, each after all that is below it. -/
def postorder : Expr → List Expr
  | e@(literal _ _ _) => [e]
  | e@(unary _ _ x) => x.postorder ++ [e]
  | e@(binary _ _ _ l r) => l.postorder ++ r.postorder ++ [e]
  | e@(grouping _ x) => x.postorder ++ [e]
  | e@(primary _ x) => x.postorder ++ [e]

/-- The first node that the rules give no type. -/
def firstUntyped? (e : Expr) : Option Expr :=
  e.postorder.find? fun n => n.staticTag?.isNone

end Expr

/-! ### Errors -/

/-- The errors of operations that the rules allow. -/
inductive ValueError.IsArithmetic : ValueError → Prop
  | divisionByZero : IsArithmetic .divisionByZero
  | integerOverflow (symbol : String) : IsArithmetic (.integerOverflow symbol)

/-- The errors of operations that the rules do not allow. -/
inductive ValueError.IsUnsupported : ValueError → Prop
  | operation (op : BinaryOp) (left right : Tag) :
      IsUnsupported (.unsupportedOperation op left right)
  | unary (op : UnaryOp) (operand : Tag) : IsUnsupported (.unsupportedUnary op operand)

/-! ### Operations keep the rules -/

namespace Value

/-- The outcome of an operation is what the type of its result, or the lack of one, allows. -/
inductive Allowed : Option Tag → Except ValueError Value → Prop
  | value {t : Tag} {v : Value} (h : v.tag = t) : Allowed (some t) (.ok v)
  | arithmetic (t : Tag) {x : ValueError} (h : x.IsArithmetic) : Allowed (some t) (.error x)
  | unsupported {x : ValueError} (h : x.IsUnsupported) : Allowed none (.error x)

theorem allowed_checked (symbol : String) (n : Int) :
    Allowed (some .integer) (checked symbol n) := by
  unfold checked
  split
  · exact .value rfl
  · exact .arithmetic _ (.integerOverflow symbol)

theorem tag_ofLiteral {kind : LiteralKind} {text : String} {v : Value}
    (h : ofLiteral kind text = .ok v) : v.tag = kind.tag := by
  unfold ofLiteral at h
  split at h
  · unfold integerOf? at h
    cases hread : readInt? magnitudeBound (withoutTicks text) with
    | none => simp [hread] at h
    | some n =>
        by_cases hrange : inRange n = true
        · simp [hread, hrange] at h
          rw [← h]
          rfl
        · simp [hread, hrange] at h
  · split at h
    · rw [← Except.ok.inj h]
      rfl
    · simp at h
  · rw [← Except.ok.inj h]
    rfl
  · split at h
    · rw [← Except.ok.inj h]
      rfl
    · split at h
      · rw [← Except.ok.inj h]
        rfl
      · simp at h

end Value

/-- The type of an operator's result on two operands of a type of numbers. -/
def BinaryOp.tagOver : BinaryOp → Tag → Tag
  | .add, t | .subtract, t | .multiply, t | .divide, t => t
  | _, _ => .bool

/-- The rules again, told by the types of the operands, which is how operations are carried
out. -/
def BinaryOp.tag? (op : BinaryOp) : Tag → Tag → Option Tag
  | .integer, .integer => some (op.tagOver .integer)
  | .integer, .double | .double, .integer | .double, .double => some (op.tagOver .double)
  | .string, .string =>
    match op with
    | .add => some .string
    | .equal | .notEqual => some .bool
    | _ => none
  | .bool, .bool =>
    match op with
    | .equal | .notEqual => some .bool
    | _ => none
  | _, _ => none

theorem TokenKind.infixTag?_eq {op : TokenKind} {o : BinaryOp} (h : op.binaryOp? = some o)
    (a b : Tag) : op.infixTag? a b = o.tag? a b := by
  unfold binaryOp? at h
  split at h <;> simp at h
  all_goals
    subst h
    cases a <;> cases b <;> rfl

namespace Value

theorem allowed_onIntegers (op : BinaryOp) (a b : Int) :
    Allowed (some (op.tagOver .integer)) (onIntegers op a b) := by
  unfold onIntegers
  split
  · exact allowed_checked _ _
  · exact allowed_checked _ _
  · exact allowed_checked _ _
  · split
    · exact .arithmetic _ .divisionByZero
    · exact allowed_checked _ _
  all_goals exact .value rfl

theorem allowed_onDoubles (op : BinaryOp) (a b : Float) :
    Allowed (some (op.tagOver .double)) (onDoubles op a b) := by
  unfold onDoubles
  split
  case h_4 =>
    split
    · exact .arithmetic _ .divisionByZero
    · exact .value rfl
  all_goals exact .value rfl

/-- **An operation on two values keeps the rules.** -/
theorem allowed_binary (op : BinaryOp) (a b : Value) :
    Allowed (op.tag? a.tag b.tag) (a.binary op b) := by
  unfold binary
  split
  · exact allowed_onIntegers _ _ _
  · exact allowed_onDoubles _ _ _
  · exact allowed_onDoubles _ _ _
  · exact allowed_onDoubles _ _ _
  · cases op with
    | add | equal | notEqual => exact .value rfl
    | _ => exact .unsupported (.operation _ _ _)
  · cases op with
    | equal | notEqual => exact .value rfl
    | _ => exact .unsupported (.operation _ _ _)
  · -- The types of the operands that are left have no rule.
    cases a <;> cases b <;> simp_all [tag, BinaryOp.tag?] <;>
      exact .unsupported (.operation _ _ _)

theorem allowed_unary {op : TokenKind} {u : UnaryOp} (h : op.prefixMeaning? = some (.compute u))
    (a : Value) : Allowed (op.prefixTag? a.tag) (a.unary u) := by
  unfold TokenKind.prefixMeaning? at h
  split at h <;> simp at h
  all_goals subst h
  · cases a with
    | integer n => exact allowed_checked _ _
    | double x => exact .value rfl
    | bool b => exact .unsupported (.unary _ _)
    | string s => exact .unsupported (.unary _ _)
  · cases a with
    | bool b => exact .value rfl
    | integer n => exact .unsupported (.unary _ _)
    | double x => exact .unsupported (.unary _ _)
    | string s => exact .unsupported (.unary _ _)

end Value

/-! ### Expressions keep the rules -/

namespace Expr

/-- The first node of a kind is looked for below a node with one operand, then at the node. -/
theorem OnlyOperand.find?_postorder {outer e : Expr} (h : OnlyOperand outer e) (p : Expr → Bool) :
    outer.postorder.find? p = (e.postorder.find? p).or (if p outer then some outer else none) := by
  cases h <;> simp [postorder, List.find?_append, List.find?_singleton]

theorem find?_postorder_binary (p : Expr → Bool) (s : Site) (level : Level) (op : TokenKind)
    (l r : Expr) :
    (binary s level op l r).postorder.find? p =
      (l.postorder.find? p).or ((r.postorder.find? p).or
        (if p (binary s level op l r) then some (binary s level op l r) else none)) := by
  simp [postorder, List.find?_append, List.find?_singleton]

theorem OnlyOperand.firstUntyped? {outer e : Expr} (h : OnlyOperand outer e) :
    outer.firstUntyped? =
      e.firstUntyped?.or (if outer.staticTag?.isNone then some outer else none) :=
  h.find?_postorder _

theorem firstUntyped?_binary (s : Site) (level : Level) (op : TokenKind) (l r : Expr) :
    (binary s level op l r).firstUntyped? =
      l.firstUntyped?.or (r.firstUntyped?.or
        (if (binary s level op l r).staticTag?.isNone then some (binary s level op l r)
          else none)) :=
  find?_postorder_binary _ s level op l r

/-- In an expression with a type, every node has one. -/
theorem firstUntyped?_of_tag (e : Expr) : ∀ {t : Tag}, e.staticTag? = some t →
    e.firstUntyped? = none := by
  induction e with
  | literal s kind text =>
      intro t h
      simp [firstUntyped?, postorder, h]
  | unary s op e ih =>
      intro t h
      obtain ⟨a, ha, -⟩ := Option.bind_eq_some_iff.mp h
      rw [(OnlyOperand.unary s op e).firstUntyped?, ih ha, h]
      rfl
  | binary s level op l r ihl ihr =>
      intro t h
      obtain ⟨a, ha, hr⟩ := Option.bind_eq_some_iff.mp h
      obtain ⟨b, hb, -⟩ := Option.bind_eq_some_iff.mp hr
      rw [firstUntyped?_binary, ihl ha, ihr hb, h]
      rfl
  | grouping s e ih =>
      intro t h
      rw [(OnlyOperand.grouping s e).firstUntyped?, ih h, h]
      rfl
  | primary s e ih =>
      intro t h
      rw [(OnlyOperand.primary s e).firstUntyped?, ih h, h]
      rfl

/-- The outcome of evaluating an expression is what its type, or the lack of one, allows. -/
inductive Judged (e : Expr) : Except EvalError Value → Prop
  | value {v : Value} (h : e.staticTag? = some v.tag) : Judged e (.ok v)
  | arithmetic {x : ValueError} {path : List Turn} (h : x.IsArithmetic) :
      Judged e (.error ⟨.value x, path⟩)
  | unsupported {x : ValueError} {path : List Turn} {n : Expr} (h : x.IsUnsupported)
      (hnode : e.nodeAt? path = some n) (hfirst : e.firstUntyped? = some n) :
      Judged e (.error ⟨.value x, path⟩)

/-- An operation that the root performs, when everything below it has a type. -/
theorem Judged.ofOperation {e : Expr} {outcome : Except ValueError Value}
    (h : Value.Allowed e.staticTag? outcome)
    (hbelow : e.staticTag? = none → e.firstUntyped? = some e) :
    Judged e (ofOperation outcome) := by
  generalize htag : e.staticTag? = tag at h
  cases h with
  | @value t v hv =>
      refine .value ?_
      rw [htag, hv]
  | arithmetic t hx => exact .arithmetic hx
  | unsupported hx => exact .unsupported hx (nodeAt?_nil e) (hbelow htag)

/-- A failure below a node with one operand is a failure of the node. -/
theorem Judged.fails_inner {outer e : Expr} {err : EvalError} (h : Judged e (.error err))
    (houter : OnlyOperand outer e) :
    Judged outer (.error ⟨err.fault, .inner :: err.path⟩) := by
  cases h with
  | arithmetic hx => exact .arithmetic hx
  | unsupported hx hnode hfirst =>
      refine .unsupported hx (houter.nodeAt?_cons.mpr ⟨rfl, hnode⟩) ?_
      rw [houter.firstUntyped?, hfirst]
      rfl

/-- A node that evaluates as the node below it and has its type. -/
theorem Judged.transparent {outer e : Expr} (h : Judged e e.eval) (houter : OnlyOperand outer e)
    (heval : outer.eval = seenFrom .inner e.eval) (htag : outer.staticTag? = e.staticTag?) :
    Judged outer outer.eval := by
  rw [heval]
  cases hv : e.eval with
  | ok v =>
      rw [hv] at h
      cases h with
      | value h => exact .value (htag.trans h)
  | error err =>
      rw [hv] at h
      exact h.fails_inner houter

theorem Judged.unary {e : Expr} {op : TokenKind} {u : UnaryOp} (h : Judged e e.eval)
    (hop : op.prefixMeaning? = some (.compute u)) (s : Site) :
    Judged (.unary s op e) (Expr.unary s op e).eval := by
  cases hv : e.eval with
  | error err =>
      rw [hv] at h
      rw [eval_unary_error hv]
      exact h.fails_inner (.unary s op e)
  | ok a =>
      rw [hv] at h
      cases h with
      | value ha =>
          have htag : (Expr.unary s op e).staticTag? = op.prefixTag? a.tag := by
            rw [staticTag?, ha]
            rfl
          rw [eval_unary_ok hop hv]
          refine .ofOperation ?_ ?_
          · rw [htag]
            exact Value.allowed_unary hop a
          · intro hnone
            rw [(OnlyOperand.unary s op e).firstUntyped?, firstUntyped?_of_tag e ha, hnone]
            rfl

theorem Judged.binary {l r : Expr} {op : TokenKind} {o : BinaryOp} (hl : Judged l l.eval)
    (hr : Judged r r.eval) (hop : op.binaryOp? = some o) (s : Site) (level : Level) :
    Judged (.binary s level op l r) (Expr.binary s level op l r).eval := by
  cases hlv : l.eval with
  | error err =>
      rw [hlv] at hl
      rw [eval_binary_left hlv]
      cases hl with
      | arithmetic hx => exact .arithmetic hx
      | unsupported hx hnode hfirst =>
          refine .unsupported hx hnode ?_
          rw [firstUntyped?_binary, hfirst]
          rfl
  | ok a =>
      rw [hlv] at hl
      cases hl with
      | value ha =>
          cases hrv : r.eval with
          | error err =>
              rw [hrv] at hr
              rw [eval_binary_right hlv hrv]
              cases hr with
              | arithmetic hx => exact .arithmetic hx
              | unsupported hx hnode hfirst =>
                  refine .unsupported hx hnode ?_
                  rw [firstUntyped?_binary, firstUntyped?_of_tag l ha, hfirst]
                  rfl
          | ok b =>
              rw [hrv] at hr
              cases hr with
              | value hb =>
                  have htag : (Expr.binary s level op l r).staticTag? = o.tag? a.tag b.tag := by
                    rw [staticTag?, ha, hb, ← TokenKind.infixTag?_eq hop]
                    rfl
                  rw [eval_binary_ok hop hlv hrv]
                  refine .ofOperation ?_ ?_
                  · rw [htag]
                    exact Value.allowed_binary o a b
                  · intro hnone
                    rw [firstUntyped?_binary, firstUntyped?_of_tag l ha, firstUntyped?_of_tag r hb,
                      hnone]
                    rfl

/-- **What has been lowered evaluates as its type says.** -/
theorem Lowered.judged {e : Expr} {c c' : Chunk} (h : Lowered e c c') : Judged e e.eval := by
  induction h with
  | literal _ hv _ =>
      rw [eval_literal hv]
      refine .value ?_
      rw [staticTag?, Value.tag_ofLiteral hv]
  | @plus s op e c c' line _ _ hop ih =>
      refine ih.transparent (.unary ..) (eval_plus hop _ _) ?_
      have hplus : ∀ t, op.prefixTag? t = some t := by
        intro t
        unfold TokenKind.prefixMeaning? at hop
        split at hop <;> simp at hop
        rfl
      rw [staticTag?]
      cases e.staticTag? with
      | none => rfl
      | some t => exact hplus t
  | unary _ _ hop ih => exact ih.unary hop _
  | binary _ _ hop _ ihl ihr => exact ihl.binary ihr hop _ _
  | grouping _ ih => exact ih.transparent (.grouping ..) rfl rfl
  | primary _ ih => exact ih.transparent (.primary ..) rfl rfl

end Expr

namespace Machine

/-- The ways in which the run of an expression can end. -/
theorem run_of_judged {e : Expr} {c : Chunk} (h : e.lower = .ok c) :
    (∃ v, (load c).run.1 = .ok v ∧ e.staticTag? = some v.tag) ∨
    ∃ err x, (load c).run.1 = .error err ∧ err.fault = .value x ∧
      (x.IsArithmetic ∨ x.IsUnsupported ∧
        ∃ n, e.firstUntyped? = some n ∧ err.line.toNat = n.site.position.line) := by
  obtain ⟨c₁, hlowered, -⟩ := Expr.lowered_of_lower h
  have hjudged := hlowered.judged
  cases heval : e.eval with
  | ok v =>
      rw [heval] at hjudged
      cases hjudged with
      | value htag =>
          refine Or.inl ⟨v, ?_, htag⟩
          rw [run_load, ending_of_eval_ok h heval]
  | error evalErr =>
      obtain ⟨n, x, op, hstopped, hemitted, hresult⟩ := ending_of_eval_error h heval
      refine Or.inr ⟨_, x, hresult, rfl, ?_⟩
      have hfault := hstopped.fault
      have hnode := hstopped.node
      rw [heval] at hjudged
      cases hjudged with
      | arithmetic hx =>
          obtain rfl := Expr.EvalFault.value.inj hfault
          exact Or.inl hx
      | unsupported hx hnode' hfirst =>
          obtain rfl := Expr.EvalFault.value.inj hfault
          obtain rfl := Option.some.inj (hnode'.symm.trans hnode)
          exact Or.inr ⟨hx, _, hfirst, hemitted.lineAt⟩

/-- **The type of an expression says how its run can end.**  With a type, the run gives a value
of that type or fails in arithmetic, by a division by zero or an integer out of range.
Without one, the run gives no value, and when it fails for the types of operands, it does so
on the line of the first node that has no type. -/
theorem run_keeps_staticTag {e : Expr} {c : Chunk} (h : e.lower = .ok c) :
    (∀ t, e.staticTag? = some t →
      (∃ v, (load c).run.1 = .ok v ∧ v.tag = t) ∨
      ∃ err x, (load c).run.1 = .error err ∧ err.fault = .value x ∧ x.IsArithmetic) ∧
    (e.staticTag? = none →
      ∃ err x, (load c).run.1 = .error err ∧ err.fault = .value x ∧
        (x.IsArithmetic ∨ x.IsUnsupported ∧
          ∃ n, e.firstUntyped? = some n ∧ err.line.toNat = n.site.position.line)) := by
  constructor
  · intro t ht
    rcases run_of_judged h with ⟨v, hrun, hv⟩ | ⟨err, x, hrun, hx, hkind⟩
    · exact Or.inl ⟨v, hrun, Option.some.inj (hv.symm.trans ht)⟩
    · rcases hkind with harith | ⟨-, n, hfirst, -⟩
      · exact Or.inr ⟨err, x, hrun, hx, harith⟩
      · rw [Expr.firstUntyped?_of_tag e ht] at hfirst
        simp at hfirst
  · intro hnone
    rcases run_of_judged h with ⟨v, -, hv⟩ | herror
    · rw [hnone] at hv
      simp at hv
    · exact herror

/-- Denies a sum, on the line after it, of a text and a truth value. -/
def deniedSum : Expr :=
  .unary ⟨⟨1, 1⟩, ⟨0, 13⟩⟩ (.mark .bang)
    (.grouping ⟨⟨1, 2⟩, ⟨1, 13⟩⟩
      (.binary ⟨⟨2, 1⟩, ⟨2, 12⟩⟩ .term (.mark .plus)
        (.primary ⟨⟨1, 3⟩, ⟨2, 5⟩⟩ (.literal ⟨⟨1, 3⟩, ⟨2, 5⟩⟩ .string "a"))
        (.primary ⟨⟨2, 3⟩, ⟨8, 12⟩⟩ (.literal ⟨⟨2, 3⟩, ⟨8, 12⟩⟩ .bool "true"))))

def deniedSumCode : Chunk :=
  ⟨#[1, 0, 1, 1, 4, 15, 0], #[.string "a", .bool true], ⟨#[⟨1, 2⟩, ⟨2, 3⟩, ⟨1, 1⟩, ⟨0, 1⟩]⟩⟩

/-- Neither the sum nor its denial has a type, and the run fails for the sum, which comes
first. -/
theorem run_deniedSum :
    deniedSum.lower = .ok deniedSumCode ∧ deniedSum.staticTag? = none ∧
      ∃ err x, (load deniedSumCode).run.1 = .error err ∧ err.fault = .value x ∧
        (x.IsArithmetic ∨ x.IsUnsupported ∧ err.line.toNat = 2) := by
  have hlower : deniedSum.lower = .ok deniedSumCode := rfl
  have htag : deniedSum.staticTag? = none := rfl
  refine ⟨hlower, htag, ?_⟩
  obtain ⟨err, x, hrun, hx, hkind⟩ := (run_keeps_staticTag hlower).2 htag
  refine ⟨err, x, hrun, hx, hkind.imp_right ?_⟩
  rintro ⟨hunsupported, n, hfirst, hline⟩
  obtain rfl := Option.some.inj hfirst
  exact ⟨hunsupported, hline⟩

end Machine

end StackCalc
