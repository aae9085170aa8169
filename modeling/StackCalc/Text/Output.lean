/-
Where text goes.

Whatever writes text is written once, over any output.  A string is an output that takes
all it is given.  A sink takes bytes until it has no room left and then takes nothing more:
a write that does not fit is taken in part and counts as failed, so what a sink has taken
is always the front of all that was written to it.

Some text is written only as long as that works.  A feed is an output for such text: the
first write that fails is the last one that is made.
-/

namespace StackCalc

/-- Something that text can be written to, and that may fail. -/
class Output (ω : Type) where
  write : ω → String → ω
  /-- Some write was not taken whole. -/
  failed : ω → Bool

/-- An output that is left alone once a write to it has failed. -/
structure Feed (ω : Type) where
  out : ω
  /-- A write has failed, and none is made any more. -/
  dropped : Bool

namespace Feed

/-- A feed into an output, to which no write has been made yet. -/
def into {ω : Type} (out : ω) : Feed ω :=
  ⟨out, false⟩

@[simp] theorem out_into {ω : Type} (out : ω) : (into out).out = out := rfl

/-- Writes a text, unless a write has failed before. -/
def write {ω : Type} [Output ω] (f : Feed ω) (text : String) : Feed ω :=
  if f.dropped then f
  else
    let out := Output.write f.out text
    ⟨out, Output.failed out⟩

end Feed

instance : Output String where
  write done text := done ++ text
  failed _ := false

/-- An output for a limited number of bytes. -/
structure Sink where
  /-- How many more bytes it takes; without a number it never fills up. -/
  room : Option Nat
  taken : ByteArray
  /-- Some write did not fit. -/
  overflowed : Bool

namespace Sink

/-- A sink for `room` bytes that has taken none. -/
def ofRoom (room : Option Nat) : Sink :=
  ⟨room, .empty, false⟩

/-- Writes a text, as far as it fits. -/
def write (s : Sink) (text : String) : Sink :=
  let bytes := text.toUTF8
  match s.room with
  | none => { s with taken := s.taken ++ bytes }
  | some room =>
    { room := some (room - bytes.size)
      taken := s.taken ++ bytes.extract 0 room
      overflowed := s.overflowed || decide (room < bytes.size) }

instance : Output Sink where
  write := write
  failed := overflowed

end Sink

end StackCalc
