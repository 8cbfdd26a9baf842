/-!
# Binary numbers

The interchange formats of binary floating point as exact numbers: a finite value is a sign, a
significand and a power of two. Everything that is printed or compared elsewhere starts from
this reading, so that it is a matter of natural numbers only.
-/

namespace Interlock.Decimal

/-- A binary interchange format: the widths of its fraction and exponent fields. -/
structure Format where
  fractionBits : Nat
  exponentBits : Nat
  deriving Repr, DecidableEq

def binary64 : Format := ⟨52, 11⟩

def binary32 : Format := ⟨23, 8⟩

/-- What a bit pattern denotes. A finite number is `significand * 2 ^ exponent`, negated if
`negative`; both zeros are finite. -/
inductive Number where
  | nan
  | infinite (negative : Bool)
  | finite (negative : Bool) (significand : Nat) (exponent : Int)
  deriving Repr, DecidableEq

namespace Format

/-- The exponent that the smallest numbers have. -/
def leastExponent (f : Format) : Int :=
  2 - (1 <<< (f.exponentBits - 1) : Nat) - f.fractionBits

/-- The number that a bit pattern denotes. -/
def read (f : Format) (bits : Nat) : Number :=
  let fraction := bits % (1 <<< f.fractionBits)
  let field := (bits >>> f.fractionBits) % (1 <<< f.exponentBits)
  let negative := bits.testBit (f.fractionBits + f.exponentBits)
  if field = (1 <<< f.exponentBits) - 1 then
    if fraction = 0 then .infinite negative else .nan
  else if field = 0 then .finite negative fraction f.leastExponent
  else .finite negative ((1 <<< f.fractionBits) + fraction) (f.leastExponent + (field - 1 : Nat))

end Format

/-- The number that a 64-bit float denotes. -/
def ofFloat (x : Float) : Number :=
  binary64.read x.toBits.toNat

/-- The number that a 32-bit float denotes. -/
def ofFloat32 (x : Float32) : Number :=
  binary32.read x.toBits.toNat

/-- The numerator of `significand * 2 ^ exponent` over `denominator exponent`. -/
def numerator (significand : Nat) (exponent : Int) : Nat :=
  significand <<< exponent.toNat

/-- The power of two that a negative exponent divides by. -/
def denominator (exponent : Int) : Nat :=
  1 <<< (-exponent).toNat

example : binary64.read 0x3ff8000000000000 = .finite false 0x18000000000000 (-52) := by decide

example : binary32.read 0x80000000 = .finite true 0 (-149) := by decide

end Interlock.Decimal
