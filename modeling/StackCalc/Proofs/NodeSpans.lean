/-
The span of a node is its text.

Each node of a tree that was read comes from a run of tokens, and its span reaches from the
first of them to the last.  The merging of spans along the tree gives just that, because
tokens stand in order and are not empty; so do the runs of the operands inside the run of
their operator, with the operator between them.

The run can be cut out of the text and read on its own.  It is a phrase of some category,
hence a program, and the bounds on trees hold for what is below a node if they hold above.
Only a literal without its wrapper is no phrase: what is read for its text is the wrapper.
-/
import StackCalc.Lowering
import StackCalc.Proofs.Parsing
import StackCalc.Proofs.Relocation

namespace StackCalc

open Grammar

/-! ### Below a node -/

namespace Expr

/-- The nodes right below a node. -/
def children : Expr → List Expr
  | literal _ _ _ => []
  | unary _ _ e => [e]
  | binary _ _ _ l r => [l, r]
  | grouping _ e => [e]
  | primary _ e => [e]

/-- The node is a literal without its wrapper. -/
def isLiteral : Expr → Bool
  | literal _ _ _ => true
  | _ => false

/-- What is below a node is no taller and no more nested. -/
theorem bounds_of_mem_nodes {e n : Expr} (h : n ∈ e.nodes) :
    n.height ≤ e.height ∧ n.nesting ≤ e.nesting := by
  induction e with
  | literal s kind text =>
      rw [nodes, List.mem_singleton] at h
      rw [h]
      exact ⟨Nat.le_refl _, Nat.le_refl _⟩
  | binary s level op l r ihl ihr =>
      rcases List.mem_cons.mp h with rfl | h
      · exact ⟨Nat.le_refl _, Nat.le_refl _⟩
      simp only [height, nesting]
      rcases List.mem_append.mp h with h | h
      · have := ihl h
        omega
      · have := ihr h
        omega
  | unary s op e ih | grouping s e ih | primary s e ih =>
      rcases List.mem_cons.mp h with rfl | h
      · exact ⟨Nat.le_refl _, Nat.le_refl _⟩
      · have := ih h
        simp only [height, nesting]
        omega

end Expr

/-! ### The tokens of a node -/

namespace Grammar

/-- Every phrase is an expression. -/
theorem Derives.toEquality {rank : Rank} {ts : List Token} {e : Expr} (h : Derives rank ts e) :
    Derives .equality ts e := by
  have hcomparison : Derives .comparison ts e → Derives .equality ts e := .ofInner rfl
  have hterm : Derives .term ts e → Derives .comparison ts e := .ofInner rfl
  have hfactor : Derives .factor ts e → Derives .term ts e := .ofInner rfl
  have hunary : Derives .unary ts e → Derives .factor ts e := .ofInner rfl
  cases rank with
  | equality => exact h
  | comparison => exact hcomparison h
  | term => exact hcomparison (hterm h)
  | factor => exact hcomparison (hterm (hfactor h))
  | unary => exact hcomparison (hterm (hfactor (hunary h)))
  | primary => exact hcomparison (hterm (hfactor (hunary (.primary h))))

/-- The tokens are those that the node was read from. -/
inductive TokensOf : List Token → Expr → Prop
  | phrase {ts : List Token} {e : Expr} (h : Derives .equality ts e) : TokensOf ts e
  | literal (t : Token) (kind : LiteralKind) (text : String) :
      TokensOf [t] (.literal t.site kind text)

/-- Each node of the tree was read from a run of the tokens. -/
def ReadFrom (ts : List Token) (e : Expr) : Prop :=
  ∀ n ∈ e.nodes, ∃ us, us <:+: ts ∧ TokensOf us n

/-- What is found in an operand is found in the whole, where the operand's tokens are. -/
theorem ReadFrom.mono {ts us : List Token} {e : Expr} (h : ReadFrom us e) (hus : us <:+: ts) :
    ReadFrom ts e := by
  intro n hn
  obtain ⟨vs, hvs, hof⟩ := h n hn
  exact ⟨vs, hvs.trans hus, hof⟩

theorem Derives.readFrom {rank : Rank} {ts : List Token} {e : Expr} (h : Derives rank ts e) :
    ReadFrom ts e := by
  induction h using Derives.linkInduction with
  | inner _ _ ih => exact ih
  | @snoc rank inner level ts us op l r hrank hl hop hr ihl ihr =>
      intro n hn
      rcases List.mem_cons.mp hn with rfl | hn
      · exact ⟨_, List.infix_rfl, .phrase (hl.snoc hrank hop hr).toEquality⟩
      rcases List.mem_append.mp hn with hn | hn
      · exact ihl.mono (List.prefix_append ts (op :: us)).isInfix n hn
      · have hsuffix : us <:+ ts ++ op :: us := ⟨ts ++ [op], by simp⟩
        exact ihr.mono hsuffix.isInfix n hn
  | @prefixed op ts e hop he ih =>
      intro n hn
      rcases List.mem_cons.mp hn with rfl | hn
      · exact ⟨_, List.infix_rfl, .phrase (Derives.prefixed hop he).toEquality⟩
      · exact ih.mono (List.suffix_cons op ts).isInfix n hn
  | primary _ ih => exact ih
  | @literal t kind text ht =>
      intro n hn
      simp only [Expr.nodes, List.mem_cons, List.not_mem_nil, or_false] at hn
      rcases hn with rfl | rfl
      · exact ⟨_, List.infix_rfl, .phrase (Derives.literal ht).toEquality⟩
      · exact ⟨_, List.infix_rfl, .literal t kind text⟩
  | @grouping opener closer ts e hopener hcloser he ih =>
      intro n hn
      rcases List.mem_cons.mp hn with rfl | hn
      · exact ⟨_, List.infix_rfl, .phrase (Derives.grouping hopener hcloser he).toEquality⟩
      · exact ih.mono (List.infix_append [opener] ts [closer]) n hn

end Grammar

/-! ### The span of a node -/

namespace Span

/-- The bytes of the span are all in the other. -/
def Within (a b : Span) : Prop :=
  b.start ≤ a.start ∧ a.stop ≤ b.stop

theorem within_merge_left (a b : Span) : a.Within (a.merge b) :=
  ⟨Nat.min_le_left .., Nat.le_max_left ..⟩

theorem within_merge_right (a b : Span) : b.Within (a.merge b) :=
  ⟨Nat.min_le_right .., Nat.le_max_right ..⟩

end Span

namespace Token

/-- The tokens stand one after the other, and none is empty. -/
structure InOrder (ts : List Token) : Prop where
  ordered : ts.Pairwise fun a b => a.site.span.stop ≤ b.site.span.start
  nonempty : ∀ t ∈ ts, t.site.span.start < t.site.span.stop

namespace InOrder

variable {xs ys : List Token}

theorem of_sublist (h : InOrder ys) (hxs : xs.Sublist ys) : InOrder xs :=
  ⟨h.ordered.sublist hxs, fun t ht => h.nonempty t (hxs.subset ht)⟩

theorem left (h : InOrder (xs ++ ys)) : InOrder xs :=
  h.of_sublist (List.sublist_append_left xs ys)

theorem right (h : InOrder (xs ++ ys)) : InOrder ys :=
  h.of_sublist (List.sublist_append_right xs ys)

theorem eq_of_start {t u : Token} (h : InOrder xs) (ht : t ∈ xs) (hu : u ∈ xs)
    (hstart : t.site.span.start = u.site.span.start) : t = u := by
  induction xs with
  | nil => cases ht
  | cons x xs ih =>
      have hbehind := (List.pairwise_cons.mp h.ordered).1
      have hx := h.nonempty x List.mem_cons_self
      rcases List.mem_cons.mp ht with rfl | htail <;> rcases List.mem_cons.mp hu with rfl | hutail
      · rfl
      · have := hbehind u hutail
        omega
      · have := hbehind t htail
        omega
      · exact ih (@right [x] xs h) htail hutail

theorem of_scan {source : String} {ts : List Token} (h : scan source = .ok ts) : InOrder ts := by
  refine ⟨?_, fun t ht => (placed_of_scan h t ht).nonempty⟩
  obtain ⟨tiles, last, -, rfl⟩ := exists_tiling_of_scan h
  exact Tile.tokens_ordered source tiles 0

end InOrder

namespace Extent

variable {xs ys zs : List Token} {a b : Span}

theorem singleton (t : Token) : Extent [t] t.site.span :=
  ⟨t, rfl, t, rfl, rfl⟩

theorem nonempty (h : Extent xs a) (horder : InOrder xs) : a.start < a.stop := by
  obtain ⟨first, hfirst, last, hlast, rfl⟩ := h
  obtain ⟨rest, rfl⟩ := List.head?_eq_some_iff.mp hfirst
  have hpos := horder.nonempty first List.mem_cons_self
  have hpos' := horder.nonempty last (List.mem_of_getLast? hlast)
  rcases List.mem_cons.mp (List.mem_of_getLast? hlast) with rfl | hmem
  · exact hpos
  · have hle := (List.pairwise_cons.mp horder.ordered).1 last hmem
    show first.site.span.start < last.site.span.stop
    omega

/-- A run of tokens ends before the run behind it starts. -/
theorem stop_le_start (ha : Extent xs a) (hb : Extent ys b) (horder : InOrder (xs ++ ys)) :
    a.stop ≤ b.start := by
  obtain ⟨-, -, last, hlast, rfl⟩ := ha
  obtain ⟨first, hfirst, -, -, rfl⟩ := hb
  exact (List.pairwise_append.mp horder.ordered).2.2 last (List.mem_of_getLast? hlast) first
    (List.mem_of_head? hfirst)

/-- Merging the spans of the runs at both ends gives that of all the tokens. -/
theorem merge (ha : Extent xs a) (hb : Extent zs b) (horder : InOrder (xs ++ (ys ++ zs))) :
    Extent (xs ++ (ys ++ zs)) (a.merge b) := by
  have hmerge : a.merge b = ⟨a.start, b.stop⟩ := by
    have hxs := ha.nonempty horder.left
    have hzs := hb.nonempty horder.right.right
    have hle := ha.stop_le_start hb
      (horder.of_sublist ((List.Sublist.refl xs).append (List.sublist_append_right ys zs)))
    simp only [Span.merge, Span.mk.injEq]
    omega
  rw [hmerge]
  obtain ⟨first, hfirst, -, -, rfl⟩ := ha
  obtain ⟨-, -, last, hlast, rfl⟩ := hb
  refine ⟨first, ?_, last, ?_, rfl⟩
  · rw [List.head?_append, hfirst]
    rfl
  · rw [List.getLast?_append, List.getLast?_append, hlast]
    rfl

end Extent

end Token

namespace Grammar

open Token

/-- The span of a node reaches over its tokens. -/
theorem Derives.extent {rank : Rank} {ts : List Token} {e : Expr} (h : Derives rank ts e) :
    InOrder ts → Extent ts e.site.span := by
  induction h using Derives.linkInduction with
  | inner _ _ ih => exact ih
  | @snoc rank inner level ts us op l r _ _ _ _ ihl ihr =>
      intro horder
      have hright : InOrder us := @InOrder.right [op] us horder.right
      exact @Extent.merge ts [op] us _ _ (ihl horder.left) (ihr hright) horder
  | @prefixed op ts e _ _ ih =>
      intro horder
      have hinner : InOrder ts := @InOrder.right [op] ts horder
      exact @Extent.merge [op] [] ts _ _ (.singleton op) (ih hinner) horder
  | primary _ ih => exact ih
  | @literal t _ _ _ =>
      intro _
      exact .singleton t
  | @grouping opener closer ts _ _ _ _ _ =>
      intro horder
      exact @Extent.merge [opener] ts [closer] _ _ (.singleton opener) (.singleton closer) horder

theorem TokensOf.extent {ts : List Token} {e : Expr} (h : TokensOf ts e) (horder : InOrder ts) :
    Extent ts e.site.span := by
  cases h with
  | phrase h => exact h.extent horder
  | literal t kind text => exact .singleton t

/-- How the nodes right below a node stand to it, and to its operator. -/
structure Layout (ts : List Token) (e : Expr) : Prop where
  children : ∀ c ∈ e.children, c.site.span.Within e.site.span
  operator : ∀ {s : Site} {level : Level} {op : TokenKind} {l r : Expr},
    e = .binary s level op l r → ∃ t ∈ ts, t.kind = op ∧ t.site.position = s.position ∧
      l.site.span.stop ≤ t.site.span.start ∧ t.site.span.stop ≤ r.site.span.start

theorem Derives.layout {rank : Rank} {ts : List Token} {e : Expr} (h : Derives rank ts e) :
    InOrder ts → Layout ts e := by
  induction h using Derives.linkInduction with
  | inner _ _ ih => exact ih
  | @snoc rank inner level ts us op l r _ hl _ hr _ _ =>
      intro horder
      have hright : InOrder ([op] ++ us) := horder.right
      have hleft : InOrder (ts ++ [op]) := by
        rw [List.append_cons] at horder
        exact horder.left
      refine ⟨?_, ?_⟩
      · intro c hc
        simp only [joined, Expr.children, List.mem_cons, List.not_mem_nil, or_false] at hc
        rcases hc with rfl | rfl
        · exact Span.within_merge_left ..
        · exact Span.within_merge_right ..
      · rintro _ _ _ _ _ ⟨⟩
        refine ⟨op, by simp, rfl, rfl, ?_, ?_⟩
        · exact (hl.extent hleft.left).stop_le_start (.singleton op) hleft
        · exact (Extent.singleton op).stop_le_start (hr.extent hright.right) hright
  | @prefixed op ts e _ _ _ =>
      intro _
      refine ⟨?_, by simp⟩
      intro c hc
      rw [List.mem_singleton.mp hc]
      exact Span.within_merge_right ..
  | primary _ ih => exact ih
  | @literal t kind text _ =>
      intro _
      refine ⟨?_, by simp⟩
      intro c hc
      rw [List.mem_singleton.mp hc]
      exact ⟨Nat.le_refl _, Nat.le_refl _⟩
  | @grouping opener closer ts e _ _ he _ =>
      intro horder
      have hfront : InOrder ([opener] ++ ts) := horder.left
      have hback : InOrder (ts ++ [closer]) := @InOrder.right [opener] _ horder
      refine ⟨?_, by simp⟩
      intro c hc
      rw [List.mem_singleton.mp hc]
      have hinner := he.extent hback.left
      have hopen := (Extent.singleton opener).stop_le_start hinner hfront
      have hclose := hinner.stop_le_start (.singleton closer) hback
      have hopener := horder.nonempty opener (by simp)
      have hcloser := horder.nonempty closer (by simp)
      refine ⟨Nat.le_trans (Nat.min_le_left ..) ?_, Nat.le_trans ?_ (Nat.le_max_right ..)⟩
      · omega
      · omega

theorem TokensOf.layout {ts : List Token} {e : Expr} (h : TokensOf ts e) (horder : InOrder ts) :
    Layout ts e := by
  cases h with
  | phrase h => exact h.layout horder
  | literal t kind text => exact ⟨by simp [Expr.children], by simp⟩

end Grammar

/-! ### The token at a position -/

namespace Place

/-- A place moves to the right over what is on its line. -/
theorem column_after_of_notMem (cs : List Char) : ∀ p : Place, '\n' ∉ cs →
    (p.after cs).position.column = p.position.column + byteLength cs := by
  induction cs with
  | nil => intro p _; rfl
  | cons c cs ih =>
      intro p hcs
      rw [List.mem_cons, not_or] at hcs
      show ((p.advance c).after cs).position.column = _
      have hadvance : (p.advance c).position.column = p.position.column + c.utf8Size := by
        rw [advance, if_neg (Ne.symm hcs.1)]
      rw [ih _ hcs.2, hadvance, byteLength_cons, Nat.add_assoc]

/-- Text that leaves the position as it was is empty. -/
theorem eq_nil_of_position_after {p : Place} {cs : List Char}
    (h : (p.after cs).position = p.position) : cs = [] := by
  have hline : '\n' ∉ cs := by
    intro hmem
    have hlines := line_after cs p
    have hpos := List.count_pos_iff.mpr hmem
    rw [h] at hlines
    omega
  have hcolumn := column_after_of_notMem cs p hline
  rw [h] at hcolumn
  cases cs with
  | nil => rfl
  | cons c cs =>
      have hpos := c.utf8Size_pos
      rw [byteLength_cons] at hcolumn
      omega

/-- One of two places in a text is the other if they have the same position. -/
theorem eq_of_position_after {as bs : List Char} (hfront : as <+: bs)
    (h : (start.after as).position = (start.after bs).position) : as = bs := by
  obtain ⟨cs, rfl⟩ := hfront
  rw [after_append] at h
  rw [eq_nil_of_position_after h.symm, List.append_nil]

end Place

namespace Token

/-- The text before a token, and the position that follows from it. -/
theorem Placed.exists_before {source : String} {t : Token} (h : t.Placed source) :
    ∃ before, before <+: source.toList ∧ t.site.span.start = byteLength before ∧
      t.site.position = (Place.start.after before).position := by
  obtain ⟨before, after, hsource, hspan⟩ := h.covers
  have hcut : source.toList = before.toList ++ (t.written ++ after).toList := by
    rw [hsource]
    simp
  have hstart : t.site.span.start = byteLength before.toList := by
    rw [hspan, byteLength_toList]
  refine ⟨before.toList, ⟨_, hcut.symm⟩, hstart, ?_⟩
  rw [h.position, hstart, LineMap.lookup_ofSource hcut]

/-- Tokens of one text at one position start at the same byte. -/
theorem Placed.start_eq {source : String} {t u : Token} (ht : t.Placed source)
    (hu : u.Placed source) (h : t.site.position = u.site.position) :
    t.site.span.start = u.site.span.start := by
  obtain ⟨as, has, hstart, hposition⟩ := ht.exists_before
  obtain ⟨bs, hbs, hstart', hposition'⟩ := hu.exists_before
  have hsame := hposition.symm.trans (h.trans hposition')
  have heq : as = bs := by
    rcases List.prefix_or_prefix_of_prefix has hbs with hfront | hfront
    · exact Place.eq_of_position_after hfront hsame
    · exact (Place.eq_of_position_after hfront hsame.symm).symm
  rw [hstart, hstart', heq]

/-- **A position has at most one token.** -/
theorem eq_of_position {source : String} {ts : List Token} (h : scan source = .ok ts)
    {t u : Token} (ht : t ∈ ts) (hu : u ∈ ts) (heq : t.site.position = u.site.position) :
    t = u := by
  have horder := InOrder.of_scan h
  have hplaced := placed_of_scan h
  exact horder.eq_of_start ht hu ((hplaced t ht).start_eq (hplaced u hu) heq)

end Token

/-! ### Reading a node again -/

namespace Expr

theorem ofSource_eq_ok {source : String} {e : Expr} (h : ofSource source = .ok e) :
    ∃ ts, Token.scan source = .ok ts ∧ ofTokens ts = .ok e := by
  obtain ⟨ts, hscan, hparse⟩ := bind_eq_ok h
  exact ⟨ts, mapError_eq_ok hscan, mapError_eq_ok hparse⟩

theorem ofSource_of_ofTokens {source : String} {ts : List Token} {e : Expr}
    (hscan : Token.scan source = .ok ts) (hparse : ofTokens ts = .ok e) :
    ofSource source = .ok e := by
  unfold ofSource
  rw [hscan]
  show (ofTokens ts).mapError _ = _
  rw [hparse]
  rfl

/-- The bytes of a node are cut out of the text, and those of a phrase within the bounds are
read as its tree. -/
theorem exists_text {source : String} {ts us : List Token} {n : Expr}
    (hscan : Token.scan source = .ok ts) (hus : us <:+: ts) (h : TokensOf us n)
    (hnesting : n.nesting ≤ maxNesting) (hheight : n.height ≤ maxHeight) :
    ∃ text, n.site.span.Covers source text ∧
      (n.isLiteral = false → ∃ e, ofSource text = .ok e ∧
        (e.shift n.site.span.start).unplaced = n.unplaced) := by
  have horder := (Token.InOrder.of_scan hscan).of_sublist hus.sublist
  obtain ⟨text, vs, hcovers, hvs, hmoved⟩ := Token.exists_cut hscan hus (h.extent horder)
  refine ⟨text, hcovers, ?_⟩
  intro hliteral
  cases h with
  | literal t kind text => simp [isLiteral] at hliteral
  | phrase h =>
      obtain ⟨e, he, heq⟩ := h.relocate hmoved
      obtain ⟨hsameHeight, hsameNesting⟩ := bounds_of_unplaced_shift heq
      refine ⟨e, ofSource_of_ofTokens hvs ?_, heq⟩
      refine Parser.ofTokens_of_program ⟨vs, [], he, Or.inl rfl, (List.append_nil vs).symm⟩ ?_ ?_
      · rw [hsameNesting]
        exact hnesting
      · rw [hsameHeight]
        exact hheight

/-- What the place of a node in the source says about it. -/
structure Placed (source : String) (ts : List Token) (n : Expr) : Prop where
  nonempty : n.site.span.start < n.site.span.stop
  start_valid : String.Pos.Raw.IsValid source ⟨n.site.span.start⟩
  stop_valid : String.Pos.Raw.IsValid source ⟨n.site.span.stop⟩
  children : ∀ c ∈ n.children, c.site.span.Within n.site.span
  /-- The one token at the node's position is the operator, and it parts the operands. -/
  operator : ∀ {s : Site} {level : Level} {op : TokenKind} {l r : Expr},
    n = .binary s level op l r →
      ∃ t ∈ ts, (∀ u ∈ ts, u.site.position = s.position ↔ u = t) ∧ t.kind = op ∧
        l.site.span.stop ≤ t.site.span.start ∧ t.site.span.stop ≤ r.site.span.start
  /-- The bytes of the node are read as the node. -/
  reread : ∃ text, n.site.span.Covers source text ∧
    (n.isLiteral = false → ∃ e, ofSource text = .ok e ∧
      (e.shift n.site.span.start).unplaced = n.unplaced)

/-- **The span of a node is its text.**  It is not empty, its ends lie between characters, the
nodes below are inside it, and the operator of two operands stands between them.  Read on
its own, the text gives the node again, with other positions and with all spans counted from
its start; only the text of a bare literal is read as more, namely with its wrapper. -/
theorem placed_of_ofSource {source : String} {root : Expr} (h : ofSource source = .ok root) :
    ∃ ts, Token.scan source = .ok ts ∧ ∀ n ∈ root.nodes, n.Placed source ts := by
  obtain ⟨ts, hscan, hparse⟩ := ofSource_eq_ok h
  obtain ⟨⟨body, tail, hderives, -, rfl⟩, hnesting, hheight⟩ := Parser.program_of_ofTokens hparse
  refine ⟨_, hscan, ?_⟩
  intro n hn
  obtain ⟨us, hus, hof⟩ := hderives.readFrom.mono (List.prefix_append body tail).isInfix n hn
  have horder := (Token.InOrder.of_scan hscan).of_sublist hus.sublist
  obtain ⟨hlower, hshallower⟩ := bounds_of_mem_nodes hn
  obtain ⟨text, hcovers, hread⟩ := exists_text hscan hus hof (Nat.le_trans hshallower hnesting)
    (Nat.le_trans hlower hheight)
  have hlayout := hof.layout horder
  refine ⟨(hof.extent horder).nonempty horder, hcovers.isValid.1, hcovers.isValid.2,
    hlayout.children, ?_, text, hcovers, hread⟩
  intro s level op l r hbinary
  obtain ⟨t, ht, hkind, hposition, hleft, hright⟩ := hlayout.operator hbinary
  have hmem := hus.subset ht
  refine ⟨t, hmem, ?_, hkind, hleft, hright⟩
  intro u hu
  constructor
  · intro hsame
    exact Token.eq_of_position hscan hu hmem (hsame.trans hposition.symm)
  · rintro rfl
    exact hposition

/-- The product of `1 - 2.5 * 3`, which stands on the second line behind a comment of four
bytes. -/
def farProduct : Expr :=
  .binary ⟨⟨2, 4⟩, ⟨7, 12⟩⟩ .factor (.mark .star)
    (.primary ⟨⟨2, 1⟩, ⟨7, 10⟩⟩ (.literal ⟨⟨2, 1⟩, ⟨7, 10⟩⟩ (.number .double) "2.5"))
    (.primary ⟨⟨2, 5⟩, ⟨11, 12⟩⟩ (.literal ⟨⟨2, 5⟩, ⟨11, 12⟩⟩ (.number .integer) "3"))

theorem placed_farProduct :
    ofSource "\x7bé\x7d1-\n2.5*3." =
        .ok (.binary ⟨⟨1, 6⟩, ⟨4, 12⟩⟩ .term (.mark .minus)
          (.primary ⟨⟨1, 5⟩, ⟨4, 5⟩⟩ (.literal ⟨⟨1, 5⟩, ⟨4, 5⟩⟩ (.number .integer) "1"))
          farProduct) ∧
      ∃ text, (⟨7, 12⟩ : Span).Covers "\x7bé\x7d1-\n2.5*3." text ∧
        ∃ e, ofSource text = .ok e ∧ (e.shift 7).unplaced = farProduct.unplaced := by
  have h : ofSource "\x7bé\x7d1-\n2.5*3." =
      .ok (.binary ⟨⟨1, 6⟩, ⟨4, 12⟩⟩ .term (.mark .minus)
        (.primary ⟨⟨1, 5⟩, ⟨4, 5⟩⟩ (.literal ⟨⟨1, 5⟩, ⟨4, 5⟩⟩ (.number .integer) "1"))
        farProduct) :=
    eq_ok_of_toOption (by decide +kernel)
  obtain ⟨ts, -, hplaced⟩ := placed_of_ofSource h
  obtain ⟨text, hcovers, hread⟩ := (hplaced farProduct (by simp [nodes, farProduct])).reread
  exact ⟨h, text, hcovers, hread rfl⟩

end Expr

end StackCalc
