/-
The counters of the parser tell the truth.

The walk is compared with the reader of the tokens ahead of it.  `Follows` says that the two
come to the same, and where a success leaves the counters; a step of the one is a step of
the other.  The comparison is by induction on the openers that may still follow, which is
the recursion of the reader, and for a chain by the recursion of its loop, where the copy of
the height that the loop keeps has to agree with the one in the counters at every turn.

What is known of the tree that the reader answers with (`Reads`) then becomes what the
counters say.  One category has no reader of its own: an operand without prefix operators.
The walk refuses a prefix operator there, and reads anything else as an operand.
-/
import StackCalc.Proofs.Parsing
import StackCalc.Proofs.Walk

namespace StackCalc

open Grammar StackCalc.Parser

namespace Walk

/-! ### The walk and the reader of the tokens ahead -/

/-- The counters after a phrase has been read at the depth. -/
structure Lands (tokens : List Token) (depth : Nat) {ts : List Token} (p : Parsed ts)
    (s : Counters) : Prop where
  ahead : tokens.drop s.pos = p.rest
  inside : s.pos ≤ tokens.length
  depth : s.depth = depth
  /-- The height that was recorded is the one that the reader hands on. -/
  height : s.height = p.height

/-- The walk has come to the same as the reader, and is back at the depth. -/
inductive Follows (tokens : List Token) (depth : Nat) {ts : List Token} :
    Except ParseError (Parsed ts) → Except ParseError Expr × Counters → Prop
  | ok {p : Parsed ts} {s : Counters} (h : Lands tokens depth p s) :
      Follows tokens depth (.ok p) (.ok p.expr, s)
  | error {e : ParseError} {s : Counters} (h : s.depth = depth) :
      Follows tokens depth (.error e) (.error e, s)

/-- Started at the depth, the walk does what the reader does with the tokens ahead. -/
def Tracks (tokens : List Token) (depth : Nat) (category : Category)
    (walk : (s : Counters) → Led s Expr) : Prop :=
  ∀ s, s.depth = depth → Follows tokens depth (category (tokens.drop s.pos)) (walk s).result

/-- What holds of the operands, and of a chain if it does of its parts, holds of all the
categories above the tightest one. -/
theorem parserOf_induct {motive : Rank → Category → Prop} {operand : Category}
    (hunary : motive .unary operand)
    (hchain : ∀ {rank inner : Rank} {level : Level} {category : Category},
      rank.joins = some (level, inner) → motive inner category →
        motive rank (chain level category))
    {rank : Rank} (hrank : rank ≠ .primary) : motive rank (parserOf operand rank) := by
  have hfactor : motive .factor _ := hchain rfl hunary
  have hterm : motive .term _ := hchain rfl hfactor
  have hcomparison : motive .comparison _ := hchain rfl hterm
  cases rank with
  | equality => exact hchain rfl hcomparison
  | comparison => exact hcomparison
  | term => exact hterm
  | factor => exact hfactor
  | unary => exact hunary
  | primary => exact absurd rfl hrank

section Follows

variable {tokens : List Token} {depth : Nat} {s : Counters} {ts us : List Token}

/-- A second part follows if it does wherever the first part can land. -/
theorem Follows.andThen {first : Except ParseError (Parsed ts)} {r : Led s Expr}
    {next : Parsed ts → Except ParseError (Parsed us)}
    {step : Expr → (s' : Counters) → s.pos ≤ s'.pos → Led s' Expr}
    (h : Follows tokens depth first r.result)
    (hnext : ∀ {p : Parsed ts} {s' : Counters} (hs' : s.pos ≤ s'.pos), Lands tokens depth p s' →
      Follows tokens depth (next p) (step p.expr s' hs').result) :
    Follows tokens depth (first >>= next) (r.andThen step).result := by
  obtain ⟨outcome, after, onward⟩ := r
  cases h with
  | ok hlands => exact hnext onward hlands
  | error hdepth => exact .error hdepth

/-- Back out of a level, the depth is the one before, after a failure as after a success. -/
theorem Follows.leave {read : Except ParseError (Parsed ts)}
    {r : Led { s with depth := s.depth + 1 } Expr} (h : Follows tokens (depth + 1) read r.result) :
    Follows tokens depth read r.leave.result := by
  obtain ⟨outcome, after, onward⟩ := r
  cases h with
  | ok hlands =>
      have hdepth : after.depth - 1 = depth := by rw [hlands.depth, Nat.add_sub_cancel]
      exact .ok ⟨hlands.ahead, hlands.inside, hdepth, hlands.height⟩
  | error h =>
      have hdepth : after.depth - 1 = depth := by rw [h, Nat.add_sub_cancel]
      exact .error hdepth

/-- A node is built if it is not too tall, and its height is recorded. -/
theorem follows_grow {height : Nat} {blamed : Token} {next : Except ParseError (Parsed ts)}
    {step : Unit → (s' : Counters) → s.pos ≤ s'.pos → Led s' Expr} (hdepth : s.depth = depth)
    (hnext : ∀ hs', Follows tokens depth next (step () { s with height := height } hs').result) :
    Follows tokens depth (do checkHeight height blamed; next)
      ((grow height blamed s).andThen step).result := by
  rw [grow]
  cases checkHeight height blamed with
  | ok u => exact hnext (Nat.le_refl _)
  | error e => exact .error hdepth

/-- The loop over a chain follows if the operands do. -/
theorem follows_links {level : Level} {inner : Rank} {operand : Category}
    (hoperand : Tracks tokens depth operand (phrase tokens inner)) (left : Parsed ts) :
    ∀ {s : Counters}, Lands tokens depth left s →
      Follows tokens depth (chainFrom level operand left)
        (links tokens level inner left.expr left.height s).result := by
  fun_induction chainFrom level operand left with
  | case1 left hrest =>
      intro s h
      have heat : eat tokens level.accepts s = none :=
        eat_of_unwanted (by rw [h.ahead, hrest]; simp)
      rw [links, heat]
      exact .ok h
  | case2 left op afterOp hrest haccepts ih =>
      intro s h
      have hahead := h.ahead.trans hrest
      rw [links, eat_of_wanted hahead haccepts]
      have hright := hoperand { s with pos := s.pos + 1 } h.depth
      rw [(drop_eq_cons hahead).2.1] at hright
      refine hright.andThen ?_
      intro right s' _ h'
      -- The height that the counters show is now that of the right operand.
      rw [h'.height]
      refine follows_grow h'.depth ?_
      intro _
      exact ih right ⟨h'.ahead, h'.inside, h'.depth, rfl⟩
  | case3 left op afterOp hrest haccepts =>
      intro s h
      have heat : eat tokens level.accepts s = none :=
        eat_of_unwanted (by rw [h.ahead, hrest]; simpa using haccepts)
      rw [links, heat]
      exact .ok h

theorem Tracks.chain {rank inner : Rank} {level : Level} {operand : Category}
    (hrank : rank.joins = some (level, inner))
    (h : Tracks tokens depth operand (phrase tokens inner)) :
    Tracks tokens depth (chain level operand) (phrase tokens rank) := by
  intro s hs
  rw [phrase_of_joins hrank]
  refine (h s hs).andThen ?_
  intro first s' _ h'
  rw [h'.height]
  exact follows_links h first h'

/-- The categories of operators follow if the operands do. -/
theorem Tracks.parserOf {operand : Category}
    (h : Tracks tokens depth operand (phrase tokens .unary)) {rank : Rank}
    (hrank : rank ≠ .primary) :
    Tracks tokens depth (parserOf operand rank) (phrase tokens rank) :=
  parserOf_induct (motive := fun rank category => Tracks tokens depth category (phrase tokens rank))
    h (fun hjoins => Tracks.chain hjoins) hrank

end Follows

/-! ### Openers -/

/-- What stands behind an opener, if anything may. -/
def behind (inner : Option Category) (opener : Token) (rank : Rank) : Category := fun ts =>
  match inner with
  | none => .error ⟨.tooNested, opener.site⟩
  | some operand => parserOf operand rank ts

theorem operandStep_of_prefixOperator {t : Token} (ht : t.kind.isPrefixOperator = true)
    (finish : Site) (inner : Option Category) (rest : List Token) :
    operandStep finish inner (t :: rest) = behind inner t .unary rest >>= prefixed t := by
  simp only [operandStep, if_pos ht]
  cases inner <;> rfl

theorem operandStep_of_leftParen {t : Token} (ht : t.kind = .mark .leftParen)
    (finish : Site) (inner : Option Category) (rest : List Token) :
    operandStep finish inner (t :: rest) = behind inner t .equality rest >>= closed finish t := by
  have hsign : ¬ t.kind.isPrefixOperator = true := by rw [ht]; decide
  have hliteral : t.kind.literalKind? = none := by rw [ht]; rfl
  simp only [operandStep, if_neg hsign, hliteral, if_pos ht]
  cases inner <;> rfl

/-- What is read behind an opener at the depth is what the walk does one level further in,
and there is such a level just as long as the depth is below the bound. -/
inductive Opens (tokens : List Token) (depth : Nat) : Option Category → Prop
  | full (h : maxNesting ≤ depth) : Opens tokens depth none
  | room {operand : Category} (h : depth < maxNesting)
      (htracks : Tracks tokens (depth + 1) operand (phrase tokens .unary)) :
      Opens tokens depth (some operand)

section Opens

variable {tokens : List Token} {depth : Nat} {s : Counters} {inner : Option Category}

/-- **Behind an opener the walk follows, and comes back to the depth of the opener**, also
when what is enclosed fails. -/
theorem tracks_nested (hinner : Opens tokens depth inner) (opener : Token) (rank : Rank)
    (hrank : rank ≠ .primary) :
    Tracks tokens depth (behind inner opener rank) (nested tokens opener rank) := by
  intro s hs
  rw [nested]
  cases hinner with
  | full h =>
      rw [if_pos (by omega)]
      exact .error hs
  | @room operand h htracks =>
      rw [if_neg (by omega)]
      have hphrase : Follows tokens (depth + 1) (parserOf operand rank (tokens.drop s.pos))
          (phrase tokens rank { s with depth := s.depth + 1 }).result :=
        htracks.parserOf hrank { s with depth := s.depth + 1 } (congrArg (· + 1) hs)
      exact hphrase.leave

theorem follows_close {ts : List Token} {opener : Token} {x : Parsed ts}
    (h : Lands tokens depth x s) :
    Follows tokens depth (closed (endOf tokens) opener x)
      (close tokens opener x.expr s).result := by
  rw [close]
  cases hrest : x.rest with
  | nil =>
      rw [closed_of_nil hrest, advance_of_nil (h.ahead.trans hrest)]
      exact .error h.depth
  | cons t after =>
      have hahead := h.ahead.trans hrest
      obtain ⟨-, hafter, hinside⟩ := drop_eq_cons hahead
      rw [advance_of_cons hahead]
      by_cases ht : t.kind = .mark .rightParen
      · obtain ⟨p, hp, hexpr, hheight, hprest⟩ :=
          closed_of_paren (endOf tokens) opener hrest ht
        simp only [if_pos ht, Led.result_since]
        rw [hp, ← hexpr, ← h.height]
        refine follows_grow h.depth ?_
        intro _
        refine .ok ⟨hafter.trans hprest.symm, hinside, h.depth, ?_⟩
        exact (congrArg (· + 1) h.height).trans hheight.symm
      · simp only [if_neg ht, Led.result_since]
        rw [closed_of_other (endOf tokens) opener hrest ht]
        exact .error h.depth

/-- The walk reads an operand without a prefix operator as the reader does. -/
theorem follows_primary (hinner : Opens tokens depth inner) (hs : s.depth = depth)
    (hnot : ∀ t ∈ (tokens.drop s.pos).head?, ¬ t.kind.isPrefixOperator = true) :
    Follows tokens depth (operandStep (endOf tokens) inner (tokens.drop s.pos))
      (primary tokens s).result := by
  rw [primary]
  cases hahead : tokens.drop s.pos with
  | nil =>
      rw [advance_of_nil hahead]
      exact .error hs
  | cons t rest =>
      rw [hahead] at hnot
      obtain ⟨-, hafter, hinside⟩ := drop_eq_cons hahead
      rw [advance_of_cons hahead]
      cases hliteral : t.kind.literalKind? with
      | some kind =>
          simp only [operandStep, if_neg (hnot t rfl), hliteral]
          exact .ok ⟨hafter, hinside, hs, rfl⟩
      | none =>
          by_cases hparen : t.kind = .mark .leftParen
          · rw [operandStep_of_leftParen hparen]
            simp only [hliteral, if_pos hparen, Led.result_since]
            have hbehind := tracks_nested hinner t .equality (by simp)
              { s with pos := s.pos + 1 } hs
            rw [hafter] at hbehind
            refine hbehind.andThen ?_
            intro x s' _ h'
            exact follows_close h'
          · simp only [operandStep, if_neg (hnot t rfl), hliteral, if_neg hparen]
            exact .error hs

/-- The walk reads any operand as the reader does. -/
theorem tracks_operandStep (hinner : Opens tokens depth inner) :
    Tracks tokens depth (operandStep (endOf tokens) inner) (phrase tokens .unary) := by
  intro s hs
  rw [phrase_unary, unary]
  by_cases hsign : ∃ t ∈ (tokens.drop s.pos).head?, t.kind.isPrefixOperator = true
  · obtain ⟨t, hmem, ht⟩ := hsign
    obtain ⟨rest, hahead⟩ := List.head?_eq_some_iff.mp hmem
    rw [eat_of_wanted hahead ht, hahead, operandStep_of_prefixOperator ht]
    have hbehind := tracks_nested hinner t .unary (by simp) { s with pos := s.pos + 1 } hs
    rw [(drop_eq_cons hahead).2.1] at hbehind
    refine hbehind.andThen ?_
    intro x s' _ h'
    rw [h'.height]
    refine follows_grow h'.depth ?_
    intro _
    exact .ok ⟨h'.ahead, h'.inside, h'.depth, rfl⟩
  · have hnot : ∀ t ∈ (tokens.drop s.pos).head?, ¬ t.kind.isPrefixOperator = true :=
      fun t hmem ht => hsign ⟨t, hmem, ht⟩
    rw [eat_of_unwanted hnot]
    exact follows_primary hinner hs hnot

end Opens

/-- What is read behind an opener at the depth, with as many openers as are left to it. -/
theorem opens_innerOf (tokens : List Token) :
    ∀ budget depth, budget = maxNesting - depth →
      Opens tokens depth (innerOf (endOf tokens) budget) := by
  intro budget
  induction budget with
  | zero =>
      intro depth hbudget
      exact .full (Nat.le_of_sub_eq_zero hbudget.symm)
  | succ budget ih =>
      intro depth hbudget
      refine .room (by omega) ?_
      rw [operand_eq]
      exact tracks_operandStep (ih (depth + 1) (by omega))

/-! ### Whole phrases -/

/-- A walk at some depth reads with as many openers as are left to it. -/
theorem tracks_phrase (tokens : List Token) (depth : Nat) {rank : Rank} (hrank : rank ≠ .primary) :
    Tracks tokens depth (parserOf (operand (endOf tokens) (maxNesting - depth)) rank)
      (phrase tokens rank) := by
  refine Tracks.parserOf ?_ hrank
  rw [operand_eq]
  exact tracks_operandStep (opens_innerOf tokens (maxNesting - depth) depth rfl)

/-- Where an operand without prefix operators is asked for, one that has them is refused. -/
theorem primary_of_prefixOperator {tokens rest : List Token} {s : Counters} {t : Token}
    (hahead : tokens.drop s.pos = t :: rest) (ht : t.kind.isPrefixOperator = true) :
    (primary tokens s).result =
      (.error ⟨refusal t, t.site⟩, { s with pos := s.pos + 1 }) := by
  have hliteral : t.kind.literalKind? = none := by
    cases hkind : t.kind.literalKind? with
    | none => rfl
    | some kind =>
        have hterminal := literalKind?_eq_some_iff.mp hkind
        rw [terminalOf_prefixOperator (isPrefixOperator_iff.mp ht)] at hterminal
        simp at hterminal
  have hparen : t.kind ≠ .mark .leftParen := by
    intro hkind
    rw [hkind] at ht
    exact absurd ht (by decide)
  rw [primary, advance_of_cons hahead]
  simp only [hliteral, if_neg hparen]
  rfl

/-- **A phrase is read as the reader of its category reads it**, unless it is refused because
it starts with a prefix operator where none may stand. -/
theorem follows_phrase (tokens : List Token) (rank : Rank) (s : Counters) :
    Follows tokens s.depth
        (parserOf (operand (endOf tokens) (maxNesting - s.depth)) rank (tokens.drop s.pos))
        (phrase tokens rank s).result ∨
      ∃ e s', (phrase tokens rank s).result = (.error e, s') ∧ s'.depth = s.depth := by
  by_cases hrank : rank = .primary
  · subst hrank
    rw [phrase_primary]
    by_cases hsign : ∃ t ∈ (tokens.drop s.pos).head?, t.kind.isPrefixOperator = true
    · obtain ⟨t, hmem, ht⟩ := hsign
      obtain ⟨rest, hahead⟩ := List.head?_eq_some_iff.mp hmem
      exact Or.inr ⟨_, _, primary_of_prefixOperator hahead ht, rfl⟩
    · refine Or.inl ?_
      show Follows tokens s.depth (operand (endOf tokens) (maxNesting - s.depth) _) _
      rw [operand_eq]
      exact follows_primary (opens_innerOf tokens _ s.depth rfl) rfl
        (fun t hmem ht => hsign ⟨t, hmem, ht⟩)
  · exact Or.inl (tracks_phrase tokens s.depth hrank s rfl)

/-- Every category is read soundly, the tightest one with prefix operators. -/
theorem exists_sound_parserOf {budget : Nat} {operand : Category}
    (h : Sound .unary budget operand) (rank : Rank) :
    ∃ kind, Sound kind budget (parserOf operand rank) := by
  by_cases hrank : rank = .primary
  · subst hrank
    exact ⟨.unary, h⟩
  · exact ⟨rank, parserOf_induct (motive := fun rank category => Sound rank budget category) h
      (fun hjoins => Sound.chain hjoins) hrank⟩

/-- A phrase takes at least one token. -/
theorem Lands.advanced {tokens : List Token} {s s' : Counters}
    {p : Parsed (tokens.drop s.pos)} (h : Lands tokens s.depth p s') : s.pos < s'.pos := by
  have hshorter := p.shorter
  rw [← h.ahead, List.length_drop, List.length_drop] at hshorter
  omega

/-! ### Whole programs -/

theorem outcome_allTaken (tokens : List Token) (e : Expr) (s : Counters) :
    (allTaken tokens e s).outcome = match tokens.drop s.pos with
      | [] => .ok e
      | t :: _ => .error ⟨.trailing t.literal, t.site⟩ := by
  rw [allTaken]
  cases hahead : tokens.drop s.pos with
  | nil => rw [advance_of_nil hahead]; rfl
  | cons t rest => rw [advance_of_cons hahead]; rfl

theorem outcome_finish (tokens : List Token) (e : Expr) (s : Counters) :
    (finish tokens e s).outcome = match dropDot (tokens.drop s.pos) with
      | [] => .ok e
      | t :: _ => .error ⟨.trailing t.literal, t.site⟩ := by
  rw [finish]
  cases hahead : tokens.drop s.pos with
  | nil =>
      rw [eat_of_unwanted (by rw [hahead]; simp)]
      show (allTaken tokens e s).outcome = _
      rw [outcome_allTaken, hahead, dropDot]
  | cons t rest =>
      by_cases hdot : t.kind = .mark .dot
      · rw [eat_of_wanted hahead (by simp [hdot]), dropDot, if_pos hdot]
        show (allTaken tokens e { s with pos := s.pos + 1 }).outcome = _
        rw [outcome_allTaken, (drop_eq_cons hahead).2.1]
      · rw [eat_of_unwanted (by rw [hahead]; simp [hdot]), dropDot, if_neg hdot]
        show (allTaken tokens e s).outcome = _
        rw [outcome_allTaken, hahead]

/-- **The walk over all of the tokens comes to what the parser comes to.** -/
theorem outcome_program (tokens : List Token) :
    (program tokens ⟨0, 0, 0⟩).outcome = Expr.ofTokens tokens := by
  cases tokens with
  | nil => rfl
  | cons t rest =>
      have hfollows : Follows (t :: rest) 0
          (parserOf (operand (endOf (t :: rest)) maxNesting) .equality (t :: rest))
          (phrase (t :: rest) .equality ⟨0, 0, 0⟩).result :=
        tracks_phrase (t :: rest) 0 (by simp) ⟨0, 0, 0⟩ rfl
      show ((phrase (t :: rest) .equality ⟨0, 0, 0⟩).andThen fun e s _ =>
          finish (t :: rest) e s).outcome =
        parserOf (operand (endOf (t :: rest)) maxNesting) .equality (t :: rest) >>= _
      generalize parserOf _ _ _ = read at hfollows ⊢
      generalize phrase (t :: rest) .equality _ = r at hfollows ⊢
      obtain ⟨outcome, after, onward⟩ := r
      cases hfollows with
      | @ok p _ hlands =>
          show (finish (t :: rest) p.expr after).outcome = _
          rw [outcome_finish, hlands.ahead]
          rfl
      | error hdepth => rfl

/-- **The counters tell the truth.**  From every state, every category comes back to the
depth at which it was started, whether it succeeds or fails.  If it succeeds then it has
taken some of the tokens, the height that it leaves is that of its tree and within the bound,
and on no way down the tree are there more openers than the depth had left.  The walk that
starts with nothing counted is the parser. -/
theorem phrase_counters (tokens : List Token) (rank : Rank) (s : Counters) :
    (∃ outcome s', (phrase tokens rank s).result = (outcome, s') ∧ s'.depth = s.depth ∧
      match outcome with
      | .ok e =>
        s.pos < s'.pos ∧ s'.pos ≤ tokens.length ∧ s'.height = e.height ∧ s'.height ≤ 1024 ∧
          e.nesting ≤ 128 - s.depth
      | .error _ => True) ∧
    (program tokens ⟨0, 0, 0⟩).outcome = Expr.ofTokens tokens := by
  refine ⟨?_, outcome_program tokens⟩
  rcases follows_phrase tokens rank s with hfollows | ⟨e, s', hrefused, hdepth⟩
  · obtain ⟨kind, hsound⟩ :=
      exists_sound_parserOf (operand_sound (endOf tokens) (maxNesting - s.depth)) rank
    generalize hread : parserOf _ rank (tokens.drop s.pos) = read at hfollows
    generalize (phrase tokens rank s).result = result at hfollows
    cases hfollows with
    | @ok p s' hlands =>
        have hreads := hsound _ p hread
        have hheight := hlands.height.trans hreads.height
        have hshort : s'.height ≤ maxHeight := by
          rw [hheight]
          exact hreads.short
        exact ⟨.ok p.expr, s', rfl, hlands.depth, hlands.advanced, hlands.inside, hheight,
          hshort, hreads.nesting⟩
    | @error e s' hdepth => exact ⟨.error e, s', rfl, hdepth, trivial⟩
  · exact ⟨.error e, s', hrefused, hdepth, trivial⟩

/-- The tokens of `--1`. -/
def minusTwice : List Token :=
  [⟨.mark .minus, "-", ⟨⟨1, 1⟩, ⟨0, 1⟩⟩⟩, ⟨.mark .minus, "-", ⟨⟨1, 2⟩, ⟨1, 2⟩⟩⟩,
    ⟨.number .integer, "1", ⟨⟨1, 3⟩, ⟨2, 3⟩⟩⟩]

-- One level below the bound the second minus is refused and the depth is set back, while the
-- height is still what was there before.  From the second minus on there is room.
example :
    (phrase minusTwice .equality ⟨0, 127, 9⟩).result =
        (.error ⟨.tooNested, ⟨⟨1, 2⟩, ⟨1, 2⟩⟩⟩, ⟨2, 127, 9⟩) ∧
      (phrase minusTwice .equality ⟨1, 127, 9⟩).after = ⟨3, 127, 3⟩ := by
  constructor <;> cbv

end Walk

end StackCalc
