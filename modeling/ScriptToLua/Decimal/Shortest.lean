import ScriptToLua.Decimal.Binary

/-!
The shortest decimal that reads back as a given double. A decimal reads back when it lies in the
interval of reals that round to the double; the coarsest decimal grid with a point in that interval
gives the digits, and of two such points the nearer one is taken.
-/

namespace ScriptToLua.Decimal

/-- The number `digits * 10 ^ exponent`. -/
structure Scaled where
  digits : Nat
  exponent : Int
  deriving DecidableEq, Repr

/-- The positive reals that round to one double, as fractions over one denominator; the ends belong
to it when `closed` is set. -/
structure Interval where
  low : Nat
  value : Nat
  high : Nat
  denominator : Nat
  closed : Bool
  deriving DecidableEq, Repr

/-- The interval reaches half way to either neighbour. Below a power of two the neighbours are half
as far apart. -/
def Binary.interval (b : Binary) : Interval :=
  let below := if b.mantissa = Nat.pow 2 52 ∧ -1074 < b.exponent then 1 else 2
  let scale := Nat.pow 2 (b.exponent - 2).toNat
  { low := (4 * b.mantissa - below) * scale
    value := 4 * b.mantissa * scale
    high := (4 * b.mantissa + 2) * scale
    denominator := Nat.pow 2 (2 - b.exponent).toNat
    closed := b.mantissa % 2 = 0 }

/-- The interval in units of `10 ^ k`. -/
def Interval.inUnits (i : Interval) (k : Int) : Interval :=
  let up := Nat.pow 10 (-k).toNat
  { i with
    low := i.low * up
    value := i.value * up
    high := i.high * up
    denominator := i.denominator * Nat.pow 10 k.toNat }

/-- Whether the natural number `n` lies in the interval. -/
def Interval.contains (i : Interval) (n : Nat) : Bool :=
  let x := n * i.denominator
  if i.closed then i.low ≤ x && x ≤ i.high else i.low < x && x < i.high

/-- The natural number in the interval that is nearest to its value, the larger of two. -/
def Interval.nearest? (i : Interval) : Option Nat :=
  let floor := i.value / i.denominator
  let up := i.contains (floor + 1)
  if i.contains floor then
    if up && i.denominator ≤ 2 * (i.value % i.denominator) then some (floor + 1) else some floor
  else if up then some (floor + 1) else none

/-- The number of decimal digits of `n`. -/
def digitCount (n : Nat) : Nat := (Nat.toDigits 10 n).length

/-- The largest `e` with `10 ^ e` at most the value of the interval. -/
def Interval.magnitude (i : Interval) : Int :=
  if i.denominator ≤ i.value then digitCount (i.value / i.denominator) - 1
  else Int.negOfNat (digitCount ((i.denominator + i.value - 1) / i.value - 1))

/-- The point of the coarsest grid that has one in the interval; seventeen digits always suffice. -/
def Interval.shortest (i : Interval) : Scaled :=
  let grids := (List.range 19).map fun (step : Nat) => i.magnitude + 1 - step
  let hit := grids.findSome? fun k => (i.inUnits k).nearest?.map fun n => (⟨n, k⟩ : Scaled)
  hit.getD ⟨0, 0⟩

/-- The shortest decimal for a positive magnitude, zero for zero. -/
def Binary.shortest (b : Binary) : Scaled :=
  if b.mantissa = 0 then ⟨0, 0⟩ else b.interval.shortest

end ScriptToLua.Decimal
