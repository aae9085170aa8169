/-
The fewest decimal digits that name a double.

A finite double is m · 2^q, and an interval of reals around it rounds to it.  A decimal
names the double when it lies in that interval, so the shortest name is on the coarsest
grid of multiples of 10^k that meets the interval.  If a grid meets the interval at all,
one of the two grid points next to the double does, and testing those two is exact
arithmetic on naturals once everything is put over one denominator.  Of two points that
both lie inside, the nearer one is taken, and the upper one when neither is nearer.
-/

namespace StackCalc

/-- The number `digits · 10 ^ exponent`. -/
structure Decimal where
  digits : Nat
  exponent : Int

/-- The interval of reals that round to one double.  All three numbers are counts of
`1 / unit`. -/
structure Rounding where
  low : Nat
  value : Nat
  high : Nat
  unit : Nat
  /-- The ends belong to the interval: halves round to the even mantissa. -/
  closed : Bool

namespace Rounding

/-- The interval around `m · 2 ^ q`.  It reaches half a step to either side, but only a
quarter below a power of two, where the steps below are half as long. -/
def around (m : Nat) (q : Int) (powerOfTwo : Bool) : Rounding :=
  let scale := Nat.pow 2 (q - 2).toNat
  { low := (if powerOfTwo then 4 * m - 1 else 4 * m - 2) * scale
    value := 4 * m * scale
    high := (4 * m + 2) * scale
    unit := Nat.pow 2 (2 - q).toNat
    closed := m % 2 == 0 }

/-- The multiple of `10 ^ k` that names the double, given as its factor. -/
def onGrid? (r : Rounding) (k : Int) : Option Nat :=
  let finer := Nat.pow 10 (-k).toNat
  let step := r.unit * Nat.pow 10 k.toNat
  let value := r.value * finer
  let n := value / step
  let below := if r.closed then r.low * finer ≤ n * step else r.low * finer < n * step
  let above := if r.closed then (n + 1) * step ≤ r.high * finer else (n + 1) * step < r.high * finer
  if below then
    if above then
      if 2 * (value - n * step) < step then some n else some (n + 1)
    else some n
  else if above then some (n + 1)
  else none

/-- A grid so coarse that no finer one is needed to find the shortest name: the exponent is
above the decimal logarithm of the double, estimated from its binary logarithm. -/
def coarsest (r : Rounding) : Int :=
  ((r.value.log2 : Int) - r.unit.log2 + 1) * 30103 / 100000 + 2

/-- The name on the coarsest grid that has one.  Seventeen digits always suffice, and the
first few grids may lie wholly above the double. -/
def shortest (r : Rounding) : Decimal :=
  let found := (List.range 24).findSome? fun (j : Nat) =>
    let k := r.coarsest - j
    (r.onGrid? k).map fun n => { digits := n, exponent := k }
  found.getD { digits := 0, exponent := 0 }

end Rounding

/-- The decimal in positional notation, however many zeros that takes. -/
def Decimal.positional (d : Decimal) : String :=
  let ds := (toString d.digits).toList
  if 0 ≤ d.exponent then
    String.ofList (ds ++ List.replicate d.exponent.toNat '0')
  else
    let places := (-d.exponent).toNat
    if places < ds.length then
      String.ofList (ds.take (ds.length - places) ++ '.' :: ds.drop (ds.length - places))
    else
      String.ofList ('0' :: '.' :: (List.replicate (places - ds.length) '0' ++ ds))

/-- The width of the fraction of a double, as the number of fractions. -/
def fractions : Nat := 4503599627370496

/-- The number of exponents of a double. -/
def exponents : Nat := 2048

/-- The text of a double: its shortest name in positional notation, with a sign on negative
zero and on negative infinity, and none on a NaN. -/
def doubleText (x : Float) : String :=
  let bits := x.toBits.toNat
  let sign := if fractions * exponents ≤ bits then "-" else ""
  let power : Nat := bits / fractions % exponents
  let fraction : Nat := bits % fractions
  if power = exponents - 1 then
    if fraction = 0 then sign ++ "inf" else "NaN"
  else if power = 0 then
    if fraction = 0 then sign ++ "0"
    else sign ++ (Rounding.around fraction (-1074) false).shortest.positional
  else
    sign ++ (Rounding.around (fractions + fraction) ((power : Int) - 1075)
      (fraction = 0 && 1 < power)).shortest.positional

end StackCalc
