import QuantityLayout.Binary64.Basic
/-!
The shortest decimal that reads back as a given number: of all decimals nearer to it than to its neighbours, one on the
coarsest grid of powers of ten, and there the nearest, of two the even one.
-/
set_option autoImplicit false

namespace QuantityLayout.Binary64

/-- The decimals that round to a number, in quarters of a unit; the ends belong to it if the number is even. -/
structure Interval where
  low : Nat
  value : Nat
  high : Nat
  closed : Bool

/-- Below a power of two the neighbour is half as far away as above it. -/
def interval (magnitude : Nat) : Interval :=
  let u := 4 * unitsOf magnitude
  let gap := gapOf magnitude
  let below := if magnitude % pow2 52 = 0 ∧ pow2 53 ≤ magnitude then gap else 2 * gap
  ⟨u - below, u, u + 2 * gap, magnitude % 2 = 0⟩

def Interval.holds (i : Interval) (x : Nat) : Bool :=
  if i.closed then i.low ≤ x && x ≤ i.high else i.low < x && x < i.high

/-- The point of the grid of step `step` that is nearest to the value, among its two neighbours that lie inside. -/
def Interval.pick (i : Interval) (step : Nat) : Option Nat :=
  let d := i.value / step
  let r := i.value % step
  match i.holds (d * step), i.holds ((d + 1) * step) with
  | true, true => some (if 2 * r < step ∨ 2 * r = step ∧ d % 2 = 0 then d else d + 1)
  | true, false => some d
  | false, true => some (d + 1)
  | false, false => none

def Interval.scale (i : Interval) (k : Nat) : Interval := ⟨i.low * k, i.value * k, i.high * k, i.closed⟩

def Interval.onGrid (i : Interval) : Int → Option Nat
  | .ofNat e => i.pick (pow10 e * pow2 1076)
  | .negSucc e => (i.scale (pow10 (e + 1))).pick (pow2 1076)

def Interval.search (i : Interval) : Nat → Int → Nat × Int
  | 0, e => (0, e)
  | n + 1, e =>
    match i.onGrid e with
    | some m => (m, e)
    | none => i.search n (e - 1)

def stripZeros : Nat → Nat × Int → Nat × Int
  | 0, d => d
  | n + 1, (m, e) => if m ≠ 0 ∧ m % 10 = 0 then stripZeros n (m / 10, e + 1) else (m, e)

def coarsest (magnitude : Nat) : Int := ((Nat.log2 (unitsOf magnitude) : Int) - 1074) * 3 / 10 + 4

/-- The decimal `m · 10ᵉ` of a finite number that is not zero. -/
def shortest (magnitude : Nat) : Nat × Int :=
  stripZeros 20 ((interval magnitude).search 1100 (coarsest magnitude))

end QuantityLayout.Binary64
