/-
What reaches an output, and what a sink holds.

A feed makes the writes that it is asked for up to the first one that fails, and that one is
the last, whatever the output is.

A sink may fill up at any byte of any write, and what writes to it may stop as soon as it
has.  Neither matters to what it holds: `Sink.holding` is the sink that all of a text was
written to, a further write makes it the sink for the longer text, and a sink that has
overflowed already is the sink for every longer text.  So how a text is cut into writes,
and whether the writes after a failed one are made, cannot be told from the sink.
-/
import StackCalc.Text.Output

namespace StackCalc

namespace Feed

variable {ω : Type} [Output ω]

theorem write_of_dropped {f : Feed ω} (h : f.dropped = true) (text : String) :
    f.write text = f := by
  rw [write, if_pos h]

/-- Nothing is written to a feed that has been dropped. -/
theorem foldl_write_of_dropped {f : Feed ω} (h : f.dropped = true) (texts : List String) :
    texts.foldl write f = f := by
  induction texts with
  | nil => rfl
  | cons text rest ih => rw [List.foldl_cons, write_of_dropped h, ih]

/-- The texts of `made` were written to `out`, and nothing else of `texts`: each write but the
last was taken whole, and unless all of `texts` was written the last one failed. -/
structure Made (out : ω) (texts made : List String) : Prop where
  front : made <+: texts
  taken : ∀ n < made.length, 0 < n →
    Output.failed ((made.take n).foldl Output.write out) = false
  stopped : made = texts ∨ made ≠ [] ∧ Output.failed (made.foldl Output.write out) = true

theorem Made.nil (out : ω) : Made out [] [] :=
  ⟨List.prefix_refl [], by simp, Or.inl rfl⟩

/-- A write that fails is the last. -/
theorem Made.single {out : ω} {text : String} (h : Output.failed (Output.write out text) = true)
    (rest : List String) : Made out (text :: rest) [text] where
  front := List.cons_prefix_cons.mpr ⟨rfl, List.nil_prefix⟩
  taken n hn hpos := absurd hpos (by simpa using hn)
  stopped := Or.inr ⟨List.cons_ne_nil _ _, h⟩

/-- After a write that is taken whole comes the next one. -/
theorem Made.cons {out : ω} {text : String} {rest made : List String}
    (h : Output.failed (Output.write out text) = false)
    (hmade : Made (Output.write out text) rest made) : Made out (text :: rest) (text :: made) where
  front := List.cons_prefix_cons.mpr ⟨rfl, hmade.front⟩
  taken := by
    intro n hn hpos
    obtain ⟨k, rfl⟩ := Nat.exists_eq_add_one_of_ne_zero (Nat.ne_of_gt hpos)
    rw [List.take_succ_cons, List.foldl_cons]
    by_cases hk : k = 0
    · simpa [hk] using h
    · exact hmade.taken k (by simpa using hn) (Nat.pos_of_ne_zero hk)
  stopped := by
    rcases hmade.stopped with rfl | ⟨hne, hfailed⟩
    · exact Or.inl rfl
    · exact Or.inr ⟨List.cons_ne_nil _ _, hfailed⟩

/-- **The first write that fails is the last**, whatever the output. -/
theorem exists_made (texts : List String) : ∀ out : ω, ∃ made, Made out texts made ∧
    (texts.foldl write (into out)).out = made.foldl Output.write out := by
  induction texts with
  | nil =>
      intro out
      exact ⟨[], .nil out, rfl⟩
  | cons text rest ih =>
      intro out
      have hwrite : (into out).write text =
          ⟨Output.write out text, Output.failed (Output.write out text)⟩ := rfl
      rw [List.foldl_cons, hwrite]
      by_cases hfailed : Output.failed (Output.write out text) = true
      · refine ⟨[text], .single hfailed rest, ?_⟩
        rw [foldl_write_of_dropped hfailed]
        rfl
      · rw [Bool.not_eq_true] at hfailed
        obtain ⟨made, hmade, hout⟩ := ih (Output.write out text)
        refine ⟨text :: made, .cons hfailed hmade, ?_⟩
        rw [hfailed]
        exact hout

end Feed

namespace Sink

/-- A sink for `room` bytes that a text was written to. -/
def holding (room : Option Nat) (text : String) : Sink :=
  match room with
  | none => ⟨none, text.toByteArray, false⟩
  | some n =>
    ⟨some (n - text.utf8ByteSize), text.toByteArray.extract 0 n, decide (n < text.utf8ByteSize)⟩

theorem ofRoom_eq_holding (room : Option Nat) : ofRoom room = holding room "" := by
  cases room with
  | none => rfl
  | some n =>
      have htaken : ByteArray.empty.extract 0 n = ByteArray.empty := by simp
      simp [ofRoom, holding, htaken]

/-- A write adds to the text, wherever in it the sink fills up. -/
theorem write_holding (room : Option Nat) (a b : String) :
    (holding room a).write b = holding room (a ++ b) := by
  cases room with
  | none => simp [holding, write]
  | some n =>
      have htaken : a.toByteArray.extract 0 n ++ b.toByteArray.extract 0 (n - a.utf8ByteSize) =
          (a ++ b).toByteArray.extract 0 n := by
        rw [String.toByteArray_append, ByteArray.extract_append, String.size_toByteArray,
          Nat.zero_sub]
      have hroom : n - a.utf8ByteSize - b.utf8ByteSize = n - (a ++ b).utf8ByteSize := by
        rw [String.utf8ByteSize_append, Nat.sub_sub]
      have hover : (decide (n < a.utf8ByteSize) || decide (n - a.utf8ByteSize < b.utf8ByteSize)) =
          decide (n < (a ++ b).utf8ByteSize) := by
        rw [String.utf8ByteSize_append, ← Bool.decide_or, decide_eq_decide]
        omega
      simp only [holding, write, String.toUTF8_eq_toByteArray, String.size_toByteArray, htaken,
        hroom, hover]

/-- A sink that has overflowed does not change with what comes after. -/
theorem holding_append_of_overflowed {room : Option Nat} {a : String}
    (h : (holding room a).overflowed = true) (b : String) :
    holding room (a ++ b) = holding room a := by
  cases room with
  | none => exact absurd h Bool.false_ne_true
  | some n =>
      have hfull : n < a.utf8ByteSize := of_decide_eq_true h
      have hsize := @String.utf8ByteSize_append a b
      have htaken : (a ++ b).toByteArray.extract 0 n = a.toByteArray.extract 0 n := by
        rw [String.toByteArray_append, ByteArray.extract_append, String.size_toByteArray,
          Nat.zero_sub, Nat.sub_eq_zero_of_le (Nat.le_of_lt hfull), ByteArray.extract_same,
          ByteArray.append_empty]
      have hroom : n - (a ++ b).utf8ByteSize = n - a.utf8ByteSize := by omega
      have hover : decide (n < (a ++ b).utf8ByteSize) = decide (n < a.utf8ByteSize) := by
        rw [decide_eq_decide]
        omega
      simp only [holding, htaken, hroom, hover]

/-- The feed that a text was written to. -/
def fed (room : Option Nat) (text : String) : Feed Sink :=
  ⟨holding room text, (holding room text).overflowed⟩

theorem into_ofRoom (room : Option Nat) : Feed.into (ofRoom room) = fed room "" := by
  rw [fed, ← ofRoom_eq_holding]
  rfl

/-- A write to a feed adds to the text, whether or not it is still made. -/
theorem write_fed (room : Option Nat) (a b : String) :
    (fed room a).write b = fed room (a ++ b) := by
  by_cases hover : (holding room a).overflowed = true
  · rw [fed, fed, Feed.write, if_pos hover, holding_append_of_overflowed hover]
  · have hwrite : Output.write (holding room a) b = holding room (a ++ b) := write_holding room a b
    rw [fed, Feed.write, if_neg hover]
    simp only [hwrite]
    rfl

/-- **Writes that stop at the first failure leave what all of them would.** -/
theorem foldl_write_fed (pieces : List String) : ∀ (room : Option Nat) (a : String),
    pieces.foldl Feed.write (fed room a) = fed room (a ++ String.join pieces) := by
  induction pieces with
  | nil => intro room a; simp
  | cons text rest ih =>
      intro room a
      rw [List.foldl_cons, write_fed, ih, String.join_cons, String.append_assoc]

/-- A limited sink takes the front of what an unlimited one takes. -/
theorem taken_holding (n : Nat) (text : String) :
    (holding (some n) text).taken =
      (holding none text).taken.extract 0 (min n (holding none text).taken.size) := by
  show text.toByteArray.extract 0 n =
    text.toByteArray.extract 0 (min n text.toByteArray.size)
  rcases Nat.le_total n text.toByteArray.size with h | h
  · rw [Nat.min_eq_left h]
  · rw [Nat.min_eq_right h, ByteArray.extract_zero_size, ← Nat.max_eq_left h,
      ByteArray.extract_zero_max_size]

end Sink

end StackCalc
