/-!
Coordinates are binary64 numbers kept by their bits, so that the two zeros stay apart and a NaN keeps
its sign and payload. Sums and quotients round as the binary64 operations do.
-/

namespace Hypermesh

structure Coord where
  bits : UInt64
  deriving DecidableEq, Inhabited

namespace Coord

def toFloat (c : Coord) : Float := .ofBits c.bits

def ofFloat (x : Float) : Coord := ⟨x.toBits⟩

def ofNat (n : Nat) : Coord := .ofFloat (.ofNat n)

def zero : Coord := ⟨0⟩

def isNaN (c : Coord) : Bool := 0x7ff0000000000000 < c.bits &&& 0x7fffffffffffffff

def quiet (c : Coord) : Coord := ⟨c.bits ||| 0x0008000000000000⟩

/-- The result of an operation without a value, such as the sum of the two infinities. -/
def undefined : Coord := ⟨0xfff8000000000000⟩

/-- An operand that is no number is the result, and the left one goes first. -/
def lift (f : Float → Float → Float) (a b : Coord) : Coord :=
  if a.isNaN then a.quiet
  else if b.isNaN then b.quiet
  else
    let c := f a.toFloat b.toFloat
    if c.isNaN then undefined else .ofFloat c

instance : Add Coord := ⟨lift (· + ·)⟩

instance : HDiv Coord Nat Coord := ⟨fun c n => lift (· / ·) c (.ofNat n)⟩

/-- A full turn, the binary64 number nearest to 2π. -/
def turn : Float := .ofBits 0x401921fb54442d18

/-- The `i`-th of `count` points spread evenly over the unit circle. -/
def onCircle (i count : Nat) : Coord × Coord :=
  let angle := turn * .ofNat i / .ofNat count
  (.ofFloat angle.cos, .ofFloat angle.sin)

end Coord

end Hypermesh
