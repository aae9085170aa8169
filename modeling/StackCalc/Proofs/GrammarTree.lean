/-
Which trees the grammar builds.

A tree can be judged without a derivation.  Read from left to right it yields the terminals
of a phrase, and it fits a category when every node is one that the category may hold: an
operator node has an operator of its own level, a right operand of a tighter category and a
left operand of the same one, and literals are wrapped.  Derivations build such trees, and
every such tree is built, up to its places, by a derivation of any tokens that it yields.
With the grammar unambiguous, the yield and the fit determine the tree.
-/
import StackCalc.Proofs.Grammar

namespace StackCalc

open Grammar

namespace Expr

/-- The terminals of a tree from left to right, with the parentheses. -/
def yield : Expr → List Terminal
  | literal _ kind text => [.literal kind text]
  | unary _ op e => .fixed op :: e.yield
  | binary _ _ op l r => l.yield ++ .fixed op :: r.yield
  | grouping _ e => .fixed (.mark .leftParen) :: e.yield ++ [.fixed (.mark .rightParen)]
  | primary _ e => e.yield

/-- Every node stands where the category allows it. -/
inductive Fits : Rank → Expr → Prop
  | binary {rank inner : Rank} {level : Level} {s : Site} {op : TokenKind} {l r : Expr}
      (hrank : rank.joins = some (level, inner)) (hop : op ∈ operatorsOf level)
      (hl : Fits rank l) (hr : Fits inner r) : Fits rank (.binary s level op l r)
  | inner {rank inner : Rank} {level : Level} {e : Expr}
      (hrank : rank.joins = some (level, inner)) (he : Fits inner e) : Fits rank e
  | unary {s : Site} {op : TokenKind} {e : Expr} (hop : op ∈ prefixOperators)
      (he : Fits .unary e) : Fits .unary (.unary s op e)
  | primary {e : Expr} (he : Fits .primary e) : Fits .unary e
  | literal {s s' : Site} {kind : LiteralKind} {text : String} :
      Fits .primary (.primary s (.literal s' kind text))
  | grouping {s : Site} {e : Expr} (he : Fits .equality e) : Fits .primary (.grouping s e)

end Expr

namespace Grammar

theorem terminalOf_operator {t : Token} {level : Level} (h : t.kind ∈ operatorsOf level) :
    terminalOf t = .fixed t.kind := by
  have hmark : ∃ m, t.kind = .mark m := by
    cases level <;> simp only [operatorsOf, List.mem_cons, List.not_mem_nil, or_false] at h
    · rcases h with h | h | h | h <;> exact ⟨_, h⟩
    · rcases h with h | h | h | h <;> exact ⟨_, h⟩
    · rcases h with h | h <;> exact ⟨_, h⟩
    · rcases h with h | h <;> exact ⟨_, h⟩
  obtain ⟨m, hm⟩ := hmark
  rw [terminalOf_mark hm, hm]

/-- A token that counts as a fixed symbol is of that kind. -/
theorem kind_of_terminalOf {t : Token} {kind : TokenKind} (h : terminalOf t = .fixed kind) :
    t.kind = kind := by
  unfold terminalOf at h
  split at h
  · simp at h
  · simp at h
  · simp at h
  · simp at h
  · exact Terminal.fixed.inj h

/-! ### The trees of derivations -/

theorem Derives.fits {rank : Rank} {ts : List Token} {e : Expr} (h : Derives rank ts e) :
    e.Fits rank := by
  induction h using Derives.linkInduction with
  | inner hrank _ ih => exact .inner hrank ih
  | snoc hrank _ hop _ ihl ihr => exact .binary hrank hop ihl ihr
  | prefixed hop _ ih => exact .unary hop ih
  | primary _ ih => exact .primary ih
  | literal _ => exact .literal
  | grouping _ _ _ ih => exact .grouping ih

/-- The tree of a phrase yields the phrase. -/
theorem Derives.yield {rank : Rank} {ts : List Token} {e : Expr} (h : Derives rank ts e) :
    e.yield = ts.map terminalOf := by
  induction h using Derives.linkInduction with
  | inner _ _ ih => exact ih
  | snoc _ _ hop _ ihl ihr => simp [joined, Expr.yield, ihl, ihr, terminalOf_operator hop]
  | prefixed hop _ ih => simp [Expr.yield, ih, terminalOf_prefixOperator hop]
  | primary _ ih => exact ih
  | literal ht => simp [Expr.yield, ht]
  | grouping hopener hcloser _ ih =>
      simp [Expr.yield, ih, terminalOf_mark hopener, terminalOf_mark hcloser]

/-! ### A derivation for every fitting tree -/

/-- A fitting tree is, up to its places, the tree of any tokens that it yields. -/
theorem exists_derives {rank : Rank} {e' : Expr} (h : e'.Fits rank) :
    ∀ {ts : List Token}, e'.yield = ts.map terminalOf →
      ∃ e, Derives rank ts e ∧ e.bare = e'.bare := by
  induction h with
  | @binary rank inner level s op l' r' hrank hop _ _ ihl ihr =>
      intro ts hts
      obtain ⟨us, vs, rfl, hus, hvs⟩ := List.map_eq_append_iff.mp hts.symm
      obtain ⟨t, ws, rfl, ht, hws⟩ := List.map_eq_cons_iff.mp hvs
      obtain ⟨l, hl, hlbare⟩ := ihl hus.symm
      obtain ⟨r, hr, hrbare⟩ := ihr hws.symm
      have hkind := kind_of_terminalOf ht
      refine ⟨joined level t l r, hl.snoc hrank (by rw [hkind]; exact hop) hr, ?_⟩
      simp [joined, Expr.bare, hkind, hlbare, hrbare]
  | inner hrank _ ih =>
      intro ts hts
      obtain ⟨e, he, hbare⟩ := ih hts
      exact ⟨e, he.ofInner hrank, hbare⟩
  | unary hop _ ih =>
      intro ts hts
      obtain ⟨t, us, rfl, ht, hus⟩ := List.map_eq_cons_iff.mp hts.symm
      obtain ⟨e, he, hbare⟩ := ih hus.symm
      have hkind := kind_of_terminalOf ht
      refine ⟨_, .prefixed (by rw [hkind]; exact hop) he, ?_⟩
      simp [Expr.bare, hkind, hbare]
  | primary _ ih =>
      intro ts hts
      obtain ⟨e, he, hbare⟩ := ih hts
      exact ⟨e, .primary he, hbare⟩
  | literal =>
      intro ts hts
      obtain ⟨t, rfl, ht⟩ := List.map_eq_singleton_iff.mp hts.symm
      exact ⟨_, .literal ht, rfl⟩
  | grouping _ ih =>
      intro ts hts
      obtain ⟨us, vs, rfl, hus, hvs⟩ := List.map_eq_append_iff.mp hts.symm
      obtain ⟨opener, ws, rfl, hopener, hws⟩ := List.map_eq_cons_iff.mp hus
      obtain ⟨closer, rfl, hcloser⟩ := List.map_eq_singleton_iff.mp hvs
      obtain ⟨e, he, hbare⟩ := ih hws.symm
      refine ⟨_, .grouping (kind_of_terminalOf hopener) (kind_of_terminalOf hcloser) he, ?_⟩
      simp [Expr.bare, hbare]

/-! ### Programs -/

/-- The tokens without a dot at their end. -/
def withoutDot (ts : List Token) : List Token :=
  match ts.getLast? with
  | some t => if t.kind = .mark .dot then ts.dropLast else ts
  | none => ts

/-- There are no dots in a phrase. -/
theorem Derives.no_dot {rank : Rank} {ts : List Token} {e : Expr} (h : Derives rank ts e) :
    ∀ t ∈ ts, t.kind ≠ .mark .dot := by
  induction h using Derives.linkInduction with
  | inner _ _ ih => exact ih
  | @snoc rank inner level ts us op l r _ _ hop _ ihl ihr =>
      intro t ht
      rcases List.mem_append.mp ht with ht | ht
      · exact ihl t ht
      rcases List.mem_cons.mp ht with rfl | ht
      · intro hdot
        rw [hdot] at hop
        cases level <;> simp [operatorsOf] at hop
      · exact ihr t ht
  | prefixed hop _ ih =>
      intro t ht
      rcases List.mem_cons.mp ht with rfl | ht
      · intro hdot
        rw [hdot] at hop
        simp [prefixOperators] at hop
      · exact ih t ht
  | primary _ ih => exact ih
  | literal ht =>
      intro t hmem hdot
      rw [List.mem_singleton.mp hmem] at hdot
      rw [terminalOf_mark hdot] at ht
      simp at ht
  | grouping hopener hcloser _ ih =>
      intro t ht
      rcases List.mem_append.mp ht with ht | ht
      · rcases List.mem_cons.mp ht with rfl | ht
        · simp [hopener]
        · exact ih t ht
      · rw [List.mem_singleton.mp ht, hcloser]
        decide

/-- The expression of a program is all of it but the dot. -/
theorem Program.derives_withoutDot {ts : List Token} {e : Expr} (h : Program ts e) :
    Derives .equality (withoutDot ts) e := by
  obtain ⟨body, tail, hderives, htail, rfl⟩ := h
  have hbody : withoutDot (body ++ tail) = body := by
    rcases htail with rfl | ⟨dot, hdot, rfl⟩
    · unfold withoutDot
      rw [List.append_nil]
      split
      · rename_i t ht
        rw [if_neg (hderives.no_dot t (List.mem_of_getLast? ht))]
      · rfl
    · simp [withoutDot, hdot]
  rw [hbody]
  exact hderives

/-- A fitting tree that yields the program is its tree. -/
theorem Program.bare_unique {ts : List Token} {e e' : Expr} (h : Program ts e)
    (hfits : e'.Fits .equality) (hyield : e'.yield = (withoutDot ts).map terminalOf) :
    e'.bare = e.bare := by
  obtain ⟨e'', hderives, hbare⟩ := exists_derives hfits hyield
  obtain ⟨-, rfl⟩ := h.derives_withoutDot.unrivalled hderives (stops_nil _) (stops_nil _) rfl
  exact hbare.symm

end Grammar

end StackCalc
