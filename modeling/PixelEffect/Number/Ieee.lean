open Float.Model

namespace PixelEffect

/-- A number of the interchange format `fmt`, kept as its bit pattern. Two numbers are equal
exactly if their bits are, so the two zeros differ and a NaN equals itself. Arithmetic rounds to
nearest with ties to even. -/
structure Ieee (fmt : Format) where
  bits : BitVec fmt.numBits
deriving DecidableEq

/-- Single precision: the channels, points and coefficients of effects. -/
abbrev Single := Ieee Format.binary32

/-- Double precision: the numbers of a JSON text. -/
abbrev Double := Ieee Format.binary64

namespace Ieee

variable {fmt : Format}

/-- Sign, mantissa and exponent of a number. -/
def unpack (x : Ieee fmt) : UnpackedFloat :=
  UnpackedFloat.unpack fmt x.bits

/-- The bit that carries the sign. -/
def signMask (fmt : Format) : BitVec fmt.numBits :=
  UnpackedFloat.packedZero fmt .negative

def neg (x : Ieee fmt) : Ieee fmt :=
  ⟨x.bits ^^^ signMask fmt⟩

/-- The result of an operation that has none, such as zero times infinity: the quiet NaN with
its sign bit set. -/
def invalid : Ieee fmt :=
  ⟨UnpackedFloat.packedNaN fmt ||| signMask fmt⟩

def pack : UnpackedFloat → Ieee fmt
  | .notANumber => invalid
  | u => ⟨UnpackedFloat.pack fmt u⟩

def isNaN (x : Ieee fmt) : Bool :=
  match x.unpack with
  | .notANumber => true
  | _ => false

def isFinite (x : Ieee fmt) : Bool :=
  match x.unpack with
  | .notANumber | .infinity _ => false
  | _ => true

/-- A NaN that took part in an operation comes out quiet, its other bits kept. -/
def quiet (x : Ieee fmt) : Ieee fmt :=
  ⟨x.bits ||| BitVec.twoPow _ (fmt.mantissaBitsWithoutImplicit - 1)⟩

/-- Applies a rounded operation. A NaN operand is the result, the left one if both are. -/
def lift₂ (op : UnpackedFloat → UnpackedFloat → UnpackedFloat) (x y : Ieee fmt) : Ieee fmt :=
  if x.isNaN then x.quiet else if y.isNaN then y.quiet else pack (op x.unpack y.unpack)

instance : Add (Ieee fmt) := ⟨lift₂ (UnpackedFloat.add fmt)⟩
instance : Sub (Ieee fmt) := ⟨lift₂ (UnpackedFloat.sub fmt)⟩
instance : Mul (Ieee fmt) := ⟨lift₂ (UnpackedFloat.mul fmt)⟩
instance : Div (Ieee fmt) := ⟨lift₂ (UnpackedFloat.div fmt)⟩
instance : Neg (Ieee fmt) := ⟨neg⟩

/-- Numerical order; a NaN is below nothing and above nothing. -/
def lt (x y : Ieee fmt) : Bool := UnpackedFloat.lt x.unpack y.unpack

def le (x y : Ieee fmt) : Bool := UnpackedFloat.le x.unpack y.unpack

/-- Numerical equality: the two zeros are equal and a NaN equals nothing. -/
def eq (x y : Ieee fmt) : Bool := UnpackedFloat.beq x.unpack y.unpack

/-- The number nearest to an integer. -/
def ofInt (n : Int) : Ieee fmt := pack (UnpackedFloat.ofInt fmt n)

/-- The number nearest to `significand * 10 ^ exponent`, with the sign bit set if `negative`. -/
def ofDecimal (negative : Bool) (significand : Nat) (exponent : Int) : Ieee fmt :=
  let x := pack (UnpackedFloat.ofScientific fmt significand exponent)
  if negative then neg x else x

instance : Zero (Ieee fmt) := ⟨⟨UnpackedFloat.packedZero fmt .positive⟩⟩
instance : One (Ieee fmt) := ⟨ofInt 1⟩

/-- The single-precision number with the given bits. -/
def ofUInt32 (w : UInt32) : Single := ⟨w.toBitVec⟩

def toUInt32 (x : Single) : UInt32 := ⟨x.bits⟩

/-- Rounds a double to single precision; a double beyond the range becomes an infinity. -/
def toSingle (x : Double) : Single :=
  match x.unpack with
  | .finite sign mantissa exponent _ =>
    pack (UnpackedFloat.round Format.binary32 sign mantissa exponent)
  | u => pack u

end Ieee

end PixelEffect
