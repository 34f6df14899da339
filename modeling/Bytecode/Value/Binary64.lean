/-!
# Binary floating point on bit patterns

Arithmetic and comparison of 64-bit floats given by their bits. Sum, difference, product and
quotient are the rounded operations of the machine's floats. The remainder needs no rounding: it is
computed exactly on significands and exponents.
-/

namespace Bytecode.Binary64

/-! ## Rounded operations -/

def add (x y : UInt64) : UInt64 := (Float.ofBits x + Float.ofBits y).toBits

def sub (x y : UInt64) : UInt64 := (Float.ofBits x - Float.ofBits y).toBits

def mul (x y : UInt64) : UInt64 := (Float.ofBits x * Float.ofBits y).toBits

def div (x y : UInt64) : UInt64 := (Float.ofBits x / Float.ofBits y).toBits

/-! ## Parts of a float -/

/-- The bit of the sign. -/
def signBit : UInt64 := 0x8000000000000000

/-- The bits of infinity. -/
def infinity : UInt64 := 0x7FF0000000000000

/-- The bits of a NaN. -/
def nan : UInt64 := 0x7FF8000000000000

/-- The bits without the sign. -/
def magnitude (x : UInt64) : UInt64 := x &&& 0x7FFFFFFFFFFFFFFF

def isNaN (x : UInt64) : Bool := infinity < magnitude x

/-- Opposite sign. -/
def neg (x : UInt64) : UInt64 := x ^^^ signBit

/-- A finite float as its significand and the exponent of its last place, counted from the
smallest float: the magnitude is `significand <<< exponent` smallest floats. -/
structure Scaled where
  significand : Nat
  exponent : Nat

/-- The least significand of a normal float; the bits below it are the fraction. -/
def leading : Nat := 1 <<< 52

/-- Take the magnitude of a finite float apart. -/
def Scaled.ofBits (x : UInt64) : Scaled :=
  let field := (magnitude x).toNat / leading
  let fraction := (magnitude x).toNat % leading
  if field = 0 then ⟨fraction, 0⟩ else ⟨leading + fraction, field - 1⟩

/-- The bits of `significand <<< exponent` smallest floats, for a significand of at most 53 bits.
The significand is moved up as far as the format asks and the exponent allows. -/
def Scaled.toBits (s : Scaled) : UInt64 :=
  if s.significand = 0 then 0
  else
    let shift := min s.exponent (52 - s.significand.log2)
    UInt64.ofNat ((s.exponent - shift) * leading + (s.significand <<< shift))

/-! ## Remainder -/

/-- The remainder of `x` by `y` with the sign of `x`. It is a NaN if either is, if `x` is infinite
or if `y` is zero; an infinite `y` leaves `x` as it is. -/
def rem (x y : UInt64) : UInt64 :=
  if isNaN x || isNaN y || magnitude x == infinity || magnitude y == 0 then nan
  else if magnitude y == infinity then x
  else
    let a := Scaled.ofBits x
    let b := Scaled.ofBits y
    let place := min a.exponent b.exponent
    let r := (a.significand <<< (a.exponent - place)) % (b.significand <<< (b.exponent - place))
    (x &&& signBit) ||| Scaled.toBits ⟨r, place⟩

/-! ## Comparison -/

/-- Numerical equality: the two zeros are equal and a NaN equals nothing. -/
def equal (x y : UInt64) : Bool := Float.ofBits x == Float.ofBits y

/-- Numerical order; a NaN is ordered with nothing. -/
def compare? (x y : UInt64) : Option Ordering :=
  if Float.ofBits x < Float.ofBits y then some .lt
  else if Float.ofBits y < Float.ofBits x then some .gt
  else if equal x y then some .eq
  else none

end Bytecode.Binary64
