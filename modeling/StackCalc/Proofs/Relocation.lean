/-
A part of a text, read on its own.

A run of tokens can be cut out of a text: from the start of its first lexeme to the end of
its last one.  What is cut out is tiled as before.  A lexeme that was the longest with all of
the rest after it is still so with less of it, which is all that the cut behind the last
lexeme takes away, and the cut before the first one takes away its gap.  So the same tokens
are found again, nearer to the front by what was cut off there, and on other lines.

The grammar looks at what tokens are and not at where they stand.  The same tokens elsewhere
are therefore the same phrase, and its tree differs only in its places.
-/
import StackCalc.Proofs.GrammarTree
import StackCalc.Proofs.Tiling

namespace StackCalc

open Grammar

/-! ### Other places -/

/-- The span, `k` bytes further on. -/
def Span.shift (k : Nat) (s : Span) : Span :=
  ⟨s.start + k, s.stop + k⟩

theorem Span.shift_merge (k : Nat) (a b : Span) :
    (a.merge b).shift k = (a.shift k).merge (b.shift k) := by
  simp only [shift, merge, Span.mk.injEq]
  omega

def Site.shift (k : Nat) (s : Site) : Site :=
  ⟨s.position, s.span.shift k⟩

/-- The site with its bytes only. -/
def Site.unplaced (s : Site) : Site :=
  ⟨⟨0, 0⟩, s.span⟩

namespace Token

def shift (k : Nat) (t : Token) : Token :=
  ⟨t.kind, t.literal, t.site.shift k⟩

/-- The token without its position. -/
def unplaced (t : Token) : Token :=
  ⟨t.kind, t.literal, t.site.unplaced⟩

theorem unplaced_shift_eq_iff {k : Nat} {u t : Token} :
    (u.shift k).unplaced = t.unplaced ↔
      u.kind = t.kind ∧ u.literal = t.literal ∧ u.site.span.shift k = t.site.span := by
  simp [unplaced, shift, Site.unplaced, Site.shift]

end Token

namespace Expr

/-- The tree with each of its sites replaced. -/
def mapSites (f : Site → Site) : Expr → Expr
  | literal s kind text => .literal (f s) kind text
  | unary s op e => .unary (f s) op (e.mapSites f)
  | binary s level op l r => .binary (f s) level op (l.mapSites f) (r.mapSites f)
  | grouping s e => .grouping (f s) (e.mapSites f)
  | primary s e => .primary (f s) (e.mapSites f)

/-- The tree with all of its spans `k` bytes further on. -/
def shift (k : Nat) : Expr → Expr :=
  mapSites (Site.shift k)

/-- The tree without its positions. -/
def unplaced : Expr → Expr :=
  mapSites Site.unplaced

@[simp] theorem site_mapSites (f : Site → Site) (e : Expr) : (e.mapSites f).site = f e.site := by
  cases e <;> rfl

@[simp] theorem height_mapSites (f : Site → Site) (e : Expr) :
    (e.mapSites f).height = e.height := by
  induction e with
  | literal s kind text => rfl
  | binary s level op l r ihl ihr => simp [mapSites, height, ihl, ihr]
  | unary s op e ih | grouping s e ih | primary s e ih => simp [mapSites, height, ih]

@[simp] theorem nesting_mapSites (f : Site → Site) (e : Expr) :
    (e.mapSites f).nesting = e.nesting := by
  induction e with
  | literal s kind text => rfl
  | binary s level op l r ihl ihr => simp [mapSites, nesting, ihl, ihr]
  | unary s op e ih | grouping s e ih | primary s e ih => simp [mapSites, nesting, ih]

variable {k : Nat} {e n : Expr}

theorem span_of_unplaced_shift (h : (e.shift k).unplaced = n.unplaced) :
    e.site.span.shift k = n.site.span := by
  have hsite := congrArg (fun x => x.site.span) h
  simpa [unplaced, shift, Site.unplaced, Site.shift] using hsite

/-- Trees that differ in their places keep the same bounds. -/
theorem bounds_of_unplaced_shift (h : (e.shift k).unplaced = n.unplaced) :
    e.height = n.height ∧ e.nesting = n.nesting := by
  have hheight := congrArg height h
  have hnesting := congrArg nesting h
  simp only [unplaced, shift, height_mapSites, nesting_mapSites] at hheight hnesting
  exact ⟨hheight, hnesting⟩

end Expr

/-! ### The same phrase elsewhere -/

namespace Grammar

/-- **The same tokens elsewhere are the same phrase**, and its tree has moved with them. -/
theorem Derives.relocate {k : Nat} {rank : Rank} {ts : List Token} {n : Expr}
    (h : Derives rank ts n) :
    ∀ {us : List Token}, us.map (fun u => (u.shift k).unplaced) = ts.map Token.unplaced →
      ∃ e, Derives rank us e ∧ (e.shift k).unplaced = n.unplaced := by
  induction h using Derives.linkInduction with
  | inner hrank _ ih =>
      intro us hus
      obtain ⟨e, he, heq⟩ := ih hus
      exact ⟨e, he.ofInner hrank, heq⟩
  | @snoc rank inner level ts₁ ts₂ op l r hrank _ hop _ ihl ihr =>
      intro us hus
      rw [List.map_append, List.map_cons] at hus
      obtain ⟨us₁, vs, rfl, hus₁, hvs⟩ := List.map_eq_append_iff.mp hus
      obtain ⟨u, us₂, rfl, hu, hus₂⟩ := List.map_eq_cons_iff.mp hvs
      obtain ⟨l', hl', hl⟩ := ihl hus₁
      obtain ⟨r', hr', hr⟩ := ihr hus₂
      obtain ⟨hkind, -, -⟩ := Token.unplaced_shift_eq_iff.mp hu
      refine ⟨joined level u l' r', hl'.snoc hrank (by rw [hkind]; exact hop) hr', ?_⟩
      have hspan : (l'.site.span.merge r'.site.span).shift k = l.site.span.merge r.site.span := by
        rw [Span.shift_merge, Expr.span_of_unplaced_shift hl, Expr.span_of_unplaced_shift hr]
      unfold Expr.unplaced Expr.shift at *
      simp [joined, Expr.mapSites, Site.unplaced, Site.shift, hkind, hspan, hl, hr]
  | @prefixed op ts n hop _ ih =>
      intro us hus
      obtain ⟨u, us, rfl, hu, hus⟩ := List.map_eq_cons_iff.mp hus
      obtain ⟨e, he, heq⟩ := ih hus
      obtain ⟨hkind, -, hsite⟩ := Token.unplaced_shift_eq_iff.mp hu
      refine ⟨_, .prefixed (by rw [hkind]; exact hop) he, ?_⟩
      have hspan : (u.site.span.merge e.site.span).shift k = op.site.span.merge n.site.span := by
        rw [Span.shift_merge, hsite, Expr.span_of_unplaced_shift heq]
      unfold Expr.unplaced Expr.shift at *
      simp [Expr.mapSites, Site.unplaced, Site.shift, hkind, hspan, heq]
  | primary _ ih =>
      intro us hus
      obtain ⟨e, he, heq⟩ := ih hus
      exact ⟨e, .primary he, heq⟩
  | @literal t kind text ht =>
      intro us hus
      obtain ⟨u, rfl, hu⟩ := List.map_eq_singleton_iff.mp hus
      obtain ⟨hkind, hliteral, hsite⟩ := Token.unplaced_shift_eq_iff.mp hu
      have hterminal : terminalOf u = .literal kind text := by
        rw [← ht]
        unfold terminalOf
        rw [hkind, hliteral]
      refine ⟨_, .literal hterminal, ?_⟩
      simp [Expr.unplaced, Expr.shift, Expr.mapSites, Site.unplaced, Site.shift, hsite]
  | @grouping opener closer ts n hopener hcloser _ ih =>
      intro us hus
      rw [List.map_append, List.map_cons] at hus
      obtain ⟨vs, ws, rfl, hvs, hws⟩ := List.map_eq_append_iff.mp hus
      obtain ⟨u, us, rfl, hu, hinner⟩ := List.map_eq_cons_iff.mp hvs
      obtain ⟨w, rfl, hw⟩ := List.map_eq_singleton_iff.mp hws
      obtain ⟨e, he, heq⟩ := ih hinner
      obtain ⟨hkind, -, hsite⟩ := Token.unplaced_shift_eq_iff.mp hu
      obtain ⟨hkind', -, hsite'⟩ := Token.unplaced_shift_eq_iff.mp hw
      refine ⟨_, .grouping (hkind.trans hopener) (hkind'.trans hcloser) he, ?_⟩
      have hspan : (u.site.span.merge w.site.span).shift k =
          opener.site.span.merge closer.site.span := by
        rw [Span.shift_merge, hsite, hsite']
      unfold Expr.unplaced Expr.shift at *
      simp [Expr.mapSites, Site.unplaced, Site.shift, hspan, heq]

end Grammar

/-! ### Cutting a tiling -/

/-- A tiled text can be cut between any two tokens. -/
theorem Tiling.split {source : String} {cs : List Char} {tiles : List Tile} {last : List Char}
    (h : Tiling cs tiles last) :
    ∀ {offset : Nat} {xs ys : List Token}, Tile.tokens source offset tiles = xs ++ ys →
      ∃ front back tx ty, cs = front ++ back ∧ Tiling front tx [] ∧ Tiling back ty last ∧
        Tile.tokens source offset tx = xs ∧
        Tile.tokens source (offset + byteLength front) ty = ys := by
  induction h with
  | @last gap hgap =>
      intro offset xs ys htokens
      obtain ⟨rfl, rfl⟩ := List.append_eq_nil_iff.mp htokens.symm
      exact ⟨[], gap, [], [], rfl, .last .empty, .last hgap, rfl, rfl⟩
  | @cons tile rest last tiles hgap hlexeme hlongest hrest ih =>
      intro offset xs ys htokens
      cases xs with
      | nil =>
          exact ⟨[], _, [], tile :: tiles, rfl, .last .empty,
            .cons tile hgap hlexeme hlongest hrest, rfl, htokens⟩
      | cons x xs =>
          obtain ⟨rfl, hbehind⟩ := List.cons.inj htokens
          obtain ⟨front, back, tx, ty, rfl, hfront, hback, rfl, rfl⟩ := ih hbehind
          refine ⟨tile.gap ++ (tile.text ++ front), back, tile :: tx, ty, by simp, ?_, hback, rfl,
            ?_⟩
          · exact .cons tile hgap hlexeme (hlongest.shorten (List.prefix_append front back)) hfront
          · simp [Nat.add_assoc]

/-- The tiles have the same tokens in any text, but for the place where they start. -/
theorem Tile.tokens_moved (source source' : String) (k : Nat) (tiles : List Tile) : ∀ offset,
    (tokens source offset tiles).map (fun u => (u.shift k).unplaced) =
      (tokens source' (offset + k) tiles).map Token.unplaced := by
  induction tiles with
  | nil => intro offset; rfl
  | cons tile tiles ih =>
      intro offset
      have hstart : offset + k + byteLength tile.gap = offset + byteLength tile.gap + k := by omega
      have hstop : offset + byteLength tile.gap + k + byteLength tile.text =
          offset + byteLength tile.gap + byteLength tile.text + k := by omega
      simp only [tokens, List.map_cons, hstart, hstop, ih, List.cons.injEq, and_true]
      exact Token.unplaced_shift_eq_iff.mpr ⟨rfl, rfl, rfl⟩

/-- Where the last of the tokens ends, if there is one, and where they start otherwise. -/
def Token.stopOf (offset : Nat) (ts : List Token) : Nat :=
  ts.getLast?.elim offset fun t => t.site.span.stop

theorem Token.stopOf_cons (offset : Nat) (t : Token) (ts : List Token) :
    stopOf offset (t :: ts) = stopOf t.site.span.stop ts := by
  unfold stopOf
  rw [List.getLast?_cons]
  cases ts.getLast? <;> rfl

/-- The tokens of a text without a last gap end where it does. -/
theorem Tiling.stopOf_tokens {source : String} {cs : List Char} {tiles : List Tile}
    {last : List Char} (h : Tiling cs tiles last) (hlast : last = []) : ∀ offset,
    Token.stopOf offset (Tile.tokens source offset tiles) = offset + byteLength cs := by
  induction h with
  | last _ =>
      intro offset
      rw [hlast]
      rfl
  | cons tile _ _ _ _ ih =>
      intro offset
      rw [Tile.tokens, Token.stopOf_cons, ih hlast]
      simp [Nat.add_assoc]

/-! ### Cutting a text -/

namespace Token

/-- The span reaches from the first of the tokens to the last. -/
def Extent (ts : List Token) (span : Span) : Prop :=
  ∃ first ∈ ts.head?, ∃ last ∈ ts.getLast?, span = ⟨first.site.span.start, last.site.span.stop⟩

/-- **A run of tokens can be cut out of a text**, and what is cut out has the same tokens,
nearer to the front by what was before them. -/
theorem exists_cut {source : String} {ts us : List Token} {span : Span} (h : scan source = .ok ts)
    (hus : us <:+: ts) (hspan : Extent us span) :
    ∃ text vs, span.Covers source text ∧ scan text = .ok vs ∧
      vs.map (fun v => (v.shift span.start).unplaced) = us.map unplaced := by
  obtain ⟨first, hfirst, last, hlast, rfl⟩ := hspan
  obtain ⟨tiles, lastGap, htiling, rfl⟩ := exists_tiling_of_scan h
  obtain ⟨xs, ys, hts⟩ := hus
  rw [List.append_assoc] at hts
  obtain ⟨front, back, -, tb, hsource, -, hback, -, htb⟩ := htiling.split hts.symm
  obtain ⟨mid, after, tu, -, rfl, hmid, -, rfl, -⟩ := hback.split htb
  have hstop : last.site.span.stop = 0 + byteLength front + byteLength mid := by
    rw [← @Tiling.stopOf_tokens source _ _ _ hmid rfl, stopOf, hlast]
    rfl
  cases hmid with
  | last _ => simp [Tile.tokens] at hfirst
  | @cons tile rest _ tiles _ hlexeme hlongest hrest =>
      -- The gap before the first lexeme is not part of what is cut out.
      have hbare : Tiling (String.ofList (tile.text ++ rest)).toList
          (⟨[], tile.kind, tile.text⟩ :: tiles) [] := by
        rw [String.toList_ofList]
        exact .cons ⟨[], tile.kind, tile.text⟩ .empty hlexeme hlongest hrest
      have hstart : first.site.span.start = byteLength front + byteLength tile.gap := by
        rw [← Option.some.inj hfirst, Nat.zero_add]
      refine ⟨String.ofList (tile.text ++ rest), _, ?_, scan_of_tiling hbare, ?_⟩
      · refine ⟨String.ofList (front ++ tile.gap), String.ofList after, ?_, ?_⟩
        · rw [← @String.ofList_toList source, hsource, ← String.ofList_append,
            ← String.ofList_append]
          simp
        · simp only [utf8ByteSize_ofList, byteLength_append] at hstop ⊢
          rw [hstart, hstop, Span.mk.injEq]
          omega
      · rw [Tile.tokens_moved _ source, hstart]
        simp [Tile.tokens]

end Token

end StackCalc
