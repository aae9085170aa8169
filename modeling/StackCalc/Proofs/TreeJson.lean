/-
The JSON form determines the tree.

A text gives back its document, so what is left to see is that a document gives back its tree.
A node is an object with two fields, and the one field of what stands under the first is named
for the kind of the node.  No two kinds share a name, and neither do two kinds of token: a
keyword and a mark could, since they are named apart, but do not.  What a kind of node holds is
shown field by field, so the operands are found by induction.  Of a site only the position is
shown, which is why nothing can be said about spans.
-/
import StackCalc.Expr.Printer
import StackCalc.Proofs.JsonReading
import StackCalc.Proofs.Relocation

namespace StackCalc

/-! ### Names -/

namespace TokenKind

/-- The kinds that are shown by a name alone. -/
def named : List (String × TokenKind) :=
  Keyword.all.map (fun k => (k.tag, keyword k)) ++ Mark.all.map (fun m => (m.tag, mark m)) ++
    [("Str", string), ("Ident", identifier)]

/-- The kind that is shown so. -/
def ofJson? : Json → Option TokenKind
  | .str tag => named.lookup tag
  | .obj [(_, .str tag)] =>
    [("Integer", number .integer), ("Double", number .double)].lookup tag
  | _ => none

theorem ofJson?_toJson (kind : TokenKind) : ofJson? kind.toJson = some kind := by
  cases kind with
  | keyword k => cases k <;> rfl
  | mark m => cases m <;> rfl
  | number n => cases n <;> rfl
  | string => rfl
  | identifier => rfl

theorem toJson_inj {kind kind' : TokenKind} (h : kind.toJson = kind'.toJson) : kind = kind' := by
  have hread := ofJson?_toJson kind
  rw [h, ofJson?_toJson] at hread
  exact (Option.some.inj hread).symm

end TokenKind

theorem LiteralKind.toJson_inj {kind kind' : LiteralKind} (h : kind.toJson = kind'.toJson) :
    kind = kind' := by
  cases kind with
  | number n =>
      cases kind' with
      | number n' =>
          cases n <;> cases n' <;> simp [toJson, NumberKind.toJson, NumberKind.tag] at h ⊢
      | string => simp [toJson, NumberKind.toJson] at h
      | bool => simp [toJson, NumberKind.toJson] at h
  | string => cases kind' <;> simp [toJson, NumberKind.toJson] at h ⊢
  | bool => cases kind' <;> simp [toJson, NumberKind.toJson] at h ⊢

theorem Level.tag_inj {level level' : Level} (h : level.tag = level'.tag) : level = level' := by
  revert h
  cases level <;> cases level' <;> decide

/-- The names of levels are not those of other kinds of node. -/
theorem Level.tag_notMem (level : Level) :
    level.tag ∉ ["Literal", "Unary", "Grouping", "Primary"] := by
  cases level <;> decide

theorem Position.toJson_inj {p q : Position} (h : p.toJson = q.toJson) : p = q := by
  cases p
  cases q
  simpa [toJson] using h

namespace Expr

theorem nodeJson_inj {tag tag' : String} {content content' : Json} {s s' : Site}
    (h : nodeJson tag content s = nodeJson tag' content' s') :
    tag = tag' ∧ content = content' ∧ s.position = s'.position := by
  simp only [nodeJson, Json.obj.injEq, List.cons.injEq, Prod.mk.injEq, true_and, and_true] at h
  exact ⟨h.1.1, h.1.2, Position.toJson_inj h.2⟩

/-- The tree without its spans. -/
def withoutSpans : Expr → Expr :=
  mapSites fun s => ⟨s.position, .unknown⟩

/-- Spans are not shown. -/
theorem toJson_withoutSpans (e : Expr) : e.withoutSpans.toJson = e.toJson := by
  unfold withoutSpans
  induction e with
  | literal s kind text => rfl
  | unary s op e ih => simp [mapSites, toJson, ih, nodeJson]
  | binary s level op l r ihl ihr => simp [mapSites, toJson, ihl, ihr, nodeJson]
  | grouping s e ih => simp [mapSites, toJson, ih, nodeJson]
  | primary s e ih => simp [mapSites, toJson, ih, nodeJson]

/-- The nodes are of one kind. -/
def SameKind : Expr → Expr → Prop
  | literal _ _ _, literal _ _ _ => True
  | unary _ _ _, unary _ _ _ => True
  | binary _ level _ _ _, binary _ level' _ _ _ => level = level'
  | grouping _ _, grouping _ _ => True
  | primary _ _, primary _ _ => True
  | _, _ => False

/-- No two kinds of node share a name. -/
theorem sameKind_of_tag_eq {e e' : Expr} (h : e.tag = e'.tag) : SameKind e e' := by
  cases e with
  | binary s level op l r =>
      cases e' with
      | binary s' level' op' l' r' => exact Level.tag_inj h
      | _ =>
          have hnot := level.tag_notMem
          rw [show level.tag = _ from h] at hnot
          simp [tag] at hnot
  | _ =>
      cases e' with
      | binary s' level' op' l' r' =>
          have hnot := level'.tag_notMem
          rw [show level'.tag = _ from h.symm] at hnot
          simp [tag] at hnot
      | _ => simp_all [tag, SameKind]

theorem sameKind_of_toJson_eq {e e' : Expr} (h : e.toJson = e'.toJson) : SameKind e e' := by
  have hnode : ∀ e : Expr, ∃ content, e.toJson = nodeJson e.tag content e.site := by
    intro e
    cases e <;> exact ⟨_, rfl⟩
  obtain ⟨content, hcontent⟩ := hnode e
  obtain ⟨content', hcontent'⟩ := hnode e'
  exact sameKind_of_tag_eq (nodeJson_inj (hcontent.symm.trans (h.trans hcontent'))).1

/-- **A document shows one tree only**, but for spans. -/
theorem withoutSpans_eq_of_toJson_eq (e : Expr) :
    ∀ {e' : Expr}, e.toJson = e'.toJson → e.withoutSpans = e'.withoutSpans := by
  unfold withoutSpans
  induction e with
  | literal s kind text =>
      intro e' h
      have hkind := sameKind_of_toJson_eq h
      cases e' with
      | literal s' kind' text' =>
          obtain ⟨-, hcontent, hposition⟩ := nodeJson_inj h
          simp only [Json.obj.injEq, List.cons.injEq, Prod.mk.injEq, Json.str.injEq, true_and,
            and_true] at hcontent
          rw [mapSites, mapSites, hposition, LiteralKind.toJson_inj hcontent.1, hcontent.2]
      | _ => exact hkind.elim
  | unary s op e ih =>
      intro e' h
      have hkind := sameKind_of_toJson_eq h
      cases e' with
      | unary s' op' e' =>
          obtain ⟨-, hcontent, hposition⟩ := nodeJson_inj h
          simp only [Json.obj.injEq, List.cons.injEq, Prod.mk.injEq, true_and, and_true] at hcontent
          rw [mapSites, mapSites, hposition, TokenKind.toJson_inj hcontent.1, ih hcontent.2]
      | _ => exact hkind.elim
  | binary s level op l r ihl ihr =>
      intro e' h
      have hkind := sameKind_of_toJson_eq h
      cases e' with
      | binary s' level' op' l' r' =>
          obtain rfl : level = level' := hkind
          obtain ⟨-, hcontent, hposition⟩ := nodeJson_inj h
          simp only [Json.obj.injEq, List.cons.injEq, Prod.mk.injEq, true_and, and_true] at hcontent
          obtain ⟨hleft, hop, hright⟩ := hcontent
          rw [mapSites, mapSites, hposition, ihl hleft, TokenKind.toJson_inj hop, ihr hright]
      | _ => exact hkind.elim
  | grouping s e ih =>
      intro e' h
      have hkind := sameKind_of_toJson_eq h
      cases e' with
      | grouping s' e' =>
          obtain ⟨-, hcontent, hposition⟩ := nodeJson_inj h
          rw [mapSites, mapSites, hposition, ih hcontent]
      | _ => exact hkind.elim
  | primary s e ih =>
      intro e' h
      have hkind := sameKind_of_toJson_eq h
      cases e' with
      | primary s' e' =>
          obtain ⟨-, hcontent, hposition⟩ := nodeJson_inj h
          rw [mapSites, mapSites, hposition, ih hcontent]
      | _ => exact hkind.elim

/-- **The JSON form determines the tree but for spans, and shows no spans.**  Any two trees, read
from a text or put together by hand, are written the same exactly when they have the same nodes,
operators, literals and positions. -/
theorem compact_toJson_eq_iff (e e' : Expr) :
    e.toJson.compact = e'.toJson.compact ↔ e.withoutSpans = e'.withoutSpans := by
  constructor
  · intro h
    exact withoutSpans_eq_of_toJson_eq e (Json.compact_inj h)
  · intro h
    rw [← toJson_withoutSpans e, ← toJson_withoutSpans e', h]

end Expr

end StackCalc
