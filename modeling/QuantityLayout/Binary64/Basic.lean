/-!
Binary floating-point numbers of 64 bits, kept as their bits. The size of a finite number is a whole number of units,
where a unit is the smallest positive number, 2⁻¹⁰⁷⁴.
-/
set_option autoImplicit false

namespace QuantityLayout

structure Binary64 where
  bits : UInt64
  deriving DecidableEq, Repr

namespace Binary64

def pow2 (k : Nat) : Nat := Nat.pow 2 k

def pow10 (k : Nat) : Nat := Nat.pow 10 k

def zero : Binary64 := ⟨0⟩

def signBit : Nat := pow2 63

/-- The bits of positive infinity; greater ones belong to no number. -/
def infinityBits : Nat := 2047 * pow2 52

def magnitude (x : Binary64) : Nat := x.bits.toNat % signBit

def isNegative (x : Binary64) : Bool := signBit ≤ x.bits.toNat

def isNaN (x : Binary64) : Bool := infinityBits < x.magnitude

def isFinite (x : Binary64) : Bool := x.magnitude < infinityBits

def isZero (x : Binary64) : Bool := x.magnitude == 0

def unitsOf (magnitude : Nat) : Nat :=
  if magnitude < pow2 52 then magnitude
  else (pow2 52 + magnitude % pow2 52) * pow2 (magnitude / pow2 52 - 1)

def units (x : Binary64) : Nat := unitsOf x.magnitude

/-- The distance from the numbers with the exponent of these bits to the next greater ones. -/
def gapOf (magnitude : Nat) : Nat := pow2 (magnitude / pow2 52 - 1)

def ofMagnitude (negative : Bool) (magnitude : Nat) : Binary64 :=
  ⟨UInt64.ofNat (if negative then signBit + magnitude else magnitude)⟩

/-- The integer nearest to a quotient, of two the even one. -/
def nearest (a b : Nat) : Nat :=
  if 2 * (a % b) < b then a / b
  else if b < 2 * (a % b) then a / b + 1
  else a / b + a / b % 2

/-- The bits of the number nearest to `a / b` units: 53 binary digits are kept, and the rest is rounded. -/
def roundMagnitude (a b : Nat) : Nat :=
  let dropped := Nat.log2 (a / b) - 52
  min infinityBits (dropped * pow2 52 + nearest a (b * pow2 dropped))

def ofRatio (negative : Bool) (a b : Nat) : Binary64 :=
  ofMagnitude negative (roundMagnitude (a * pow2 1074) b)

def ofNat (n : Nat) : Binary64 := ofRatio false n 1

def mulSize (x y : Binary64) : Binary64 := ofMagnitude false (roundMagnitude (x.units * y.units) (pow2 1074))

/-- The quotient of two finite numbers, without signs; the divisor is not zero. -/
def divSize (x y : Binary64) : Binary64 := ofMagnitude false (roundMagnitude (x.units * pow2 1074) y.units)

def withSign (negative : Bool) (x : Binary64) : Binary64 := ofMagnitude negative x.magnitude

end Binary64
end QuantityLayout
