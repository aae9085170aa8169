/-
Reading numbers written in decimal.

An integer is an optional sign and at least one digit.  A double is an optional sign and
then either a word for infinity or for a NaN, in any case, or digits with an optional point
and an optional exponent; some digit has to stand on one side of the point.  What is read
is the double nearest to the number written, which is infinity when the number is too large
and zero when it is too small.

A text can be long, and the arithmetic must not grow with it.  So the digits of an integer
and of an exponent count only until they pass a bound (`valueUpTo`), and those of a double
only as far as they can decide between two neighbours (`decisiveDigits`).  For an integer
the bound is out of range anyway, so nothing is lost.  An exponent above its bound does keep
the value that it had when it passed it.
-/

namespace StackCalc

/-! ### Digits -/

/-- The number with one more digit at its end. -/
def pushDigit (n : Nat) (d : Char) : Nat :=
  10 * n + (d.toNat - '0'.toNat)

/-- The value of a run of digits. -/
def digitsValue (ds : List Char) : Nat :=
  ds.foldl pushDigit 0

/-- The value of a run of digits, of which those no longer count that stand behind the one
that takes the value above `bound`. -/
def valueUpTo (bound : Nat) (ds : List Char) : Nat :=
  ds.foldl (fun n d => if n ≤ bound then pushDigit n d else n) 0

theorem le_foldl_pushDigit (ds : List Char) (n : Nat) : n ≤ ds.foldl pushDigit n := by
  induction ds generalizing n with
  | nil => exact Nat.le_refl n
  | cons d ds ih =>
    have := ih (pushDigit n d)
    simp only [List.foldl_cons]
    unfold pushDigit at this ⊢
    omega

/-- A value above the bound stays as it is. -/
theorem foldl_pushDigit_above (bound : Nat) (ds : List Char) (n : Nat) (h : bound < n) :
    ds.foldl (fun n d => if n ≤ bound then pushDigit n d else n) n = n := by
  induction ds with
  | nil => rfl
  | cons d ds ih => rw [List.foldl_cons, if_neg (by omega), ih]

/-- Up to the bound nothing is lost, and above it the value is above it too. -/
theorem foldl_pushDigit_upTo (bound : Nat) (ds : List Char) (n : Nat) :
    (ds.foldl pushDigit n ≤ bound →
      ds.foldl (fun n d => if n ≤ bound then pushDigit n d else n) n = ds.foldl pushDigit n) ∧
    (bound < ds.foldl pushDigit n →
      bound < ds.foldl (fun n d => if n ≤ bound then pushDigit n d else n) n) := by
  induction ds generalizing n with
  | nil => exact ⟨fun _ => rfl, fun h => h⟩
  | cons d ds ih =>
    by_cases h : n ≤ bound
    · simp only [List.foldl_cons, if_pos h]
      exact ih (pushDigit n d)
    · have hn : bound < n := by omega
      have hle := le_foldl_pushDigit (d :: ds) n
      rw [foldl_pushDigit_above bound (d :: ds) n hn]
      exact ⟨fun hv => by omega, fun _ => hn⟩

theorem valueUpTo_of_le {bound : Nat} {ds : List Char} (h : digitsValue ds ≤ bound) :
    valueUpTo bound ds = digitsValue ds :=
  (foldl_pushDigit_upTo bound ds 0).1 h

theorem lt_valueUpTo {bound : Nat} {ds : List Char} (h : bound < digitsValue ds) :
    bound < valueUpTo bound ds :=
  (foldl_pushDigit_upTo bound ds 0).2 h

/-! ### Integers -/

/-- At least one character, and all of them ASCII digits. -/
def isDigits (cs : List Char) : Bool :=
  !cs.isEmpty && cs.all Char.isDigit

/-- Takes one sign off the front; `true` is a minus. -/
def splitSign : List Char → Bool × List Char
  | '-' :: cs => (true, cs)
  | '+' :: cs => (false, cs)
  | cs => (false, cs)

/-- Reads an integer, with its digits counted up to `bound`. -/
def readInt? (bound : Nat) (cs : List Char) : Option Int :=
  let (negative, ds) := splitSign cs
  if isDigits ds then
    some (if negative then -(valueUpTo bound ds : Int) else valueUpTo bound ds)
  else none

/-! ### Doubles -/

/-- The double above all others. -/
def infinity : Float := Float.ofBits 0x7FF0000000000000

/-- A power of ten that is out of the range of the doubles, and so is its inverse. -/
def powerLimit : Int := 400

/-- More digits than a number halfway between two doubles has. -/
def digitLimit : Nat := 800

/-- The digits that decide which double is nearest, for digits that do not start with a
zero.  A number halfway between two doubles ends before `digitLimit` digits, so of what
follows it matters only whether it is zero, and a single one says that it is not. -/
def decisiveDigits (ds : List Char) : List Char :=
  if (ds.drop digitLimit).all (· == '0') then ds.take digitLimit
  else ds.take digitLimit ++ ['1']

/-- The double nearest to the value of the digits times `10 ^ e`. -/
def nearestDouble (ds : List Char) (e : Int) : Float :=
  let ds := ds.dropWhile (· == '0')
  -- The number is below this power of ten, and not below the one before it.
  let top := ds.length + e
  if ds.isEmpty || top < -powerLimit then 0
  else if powerLimit < top then infinity
  else
    let decisive := decisiveDigits ds
    let power := top - decisive.length
    Float.ofScientific (digitsValue decisive) (power < 0) power.natAbs

/-- An exponent counts until it is above this. -/
def exponentBound : Nat := 65535

/-- What follows the digits of a double: nothing, or an exponent. -/
def readExponent? : List Char → Option Int
  | [] => some 0
  | c :: cs => if c = 'e' ∨ c = 'E' then readInt? exponentBound cs else none

/-- Reads a double that has no sign. -/
def readMagnitude? (cs : List Char) : Option Float :=
  let word := String.ofList (cs.map Char.toLower)
  if word = "inf" ∨ word = "infinity" then some infinity
  else if word = "nan" then some (Float.ofBits 0x7FF8000000000000)
  else
    let whole := cs.takeWhile Char.isDigit
    let (fraction, rest) := match cs.dropWhile Char.isDigit with
      | '.' :: rest => (rest.takeWhile Char.isDigit, rest.dropWhile Char.isDigit)
      | rest => ([], rest)
    if whole.isEmpty && fraction.isEmpty then none
    else (readExponent? rest).map fun e => nearestDouble (whole ++ fraction) (e - fraction.length)

/-- Reads a double. -/
def readDouble? (cs : List Char) : Option Float :=
  let (negative, rest) := splitSign cs
  (readMagnitude? rest).map fun x => if negative then -x else x

end StackCalc
