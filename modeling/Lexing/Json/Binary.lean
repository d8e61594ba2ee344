namespace Lexing.Json

def roundEven (x : Rat) : Nat :=
  let below := x.floor.toNat
  let rest := x - below
  if rest < 1 / 2 then below
  else if 1 / 2 < rest then below + 1
  else below + below % 2

structure Binary where
  significand : Nat
  exponent : Int
  deriving DecidableEq, Repr

namespace Binary

def minExponent : Int := -1074

def value (b : Binary) : Rat := b.significand * (2 : Rat) ^ b.exponent

def zero : Binary := ⟨0, minExponent⟩

def nearest (x : Rat) : Binary :=
  let scale : Int := Nat.log2 x.num.toNat - Nat.log2 x.den
  let log := if (2 : Rat) ^ scale ≤ x then scale else scale - 1
  let exponent := max (log - 52) minExponent
  ⟨roundEven (x / (2 : Rat) ^ exponent), exponent⟩

def isHuge (b : Binary) : Bool := (2 : Rat) ^ (1024 : Int) ≤ b.value

def powerOfTen (n : Nat) : Binary := nearest ((10 : Rat) ^ n)

def mul (a b : Binary) : Binary := nearest (a.value * b.value)

def div (a b : Binary) : Binary := nearest (a.value / b.value)

def maxPower : Nat := 308

def timesPower? (b : Binary) (n : Nat) : Option Binary :=
  if b.significand = 0 then some zero
  else if maxPower < n then none
  else
    let product := b.mul (powerOfTen n)
    if product.isHuge then none else some product

/-- The quotient by a power of ten. A power that would be huge is split in two, and each division
rounds. Beyond that, an integer of 64 bits leaves nothing but zero. -/
def overPower (b : Binary) (n : Nat) : Binary :=
  if n ≤ maxPower then b.div (powerOfTen n)
  else if n ≤ 2 * maxPower then
    (b.div (powerOfTen maxPower)).div (powerOfTen (n - maxPower))
  else zero

def shift? (b : Binary) (places : Int) : Option Binary :=
  if 0 ≤ places then b.timesPower? places.toNat else some (b.overPower (-places).toNat)

/-- The numbers for which `b` is the nearest value reach halfway to its neighbours, and include
these ends if the significand is even. -/
def represents (b : Binary) (x : Rat) : Bool :=
  let unit := (2 : Rat) ^ b.exponent
  let gap := if b.significand = 1 <<< 52 ∧ minExponent < b.exponent then unit / 2 else unit
  let low := b.value - gap / 2
  let high := b.value + unit / 2
  (low < x && x < high) || (b.significand % 2 = 0 && (x = low || x = high))

/-- Digits and their power of ten: the coarsest decimal grid on which a point stands for `b`, and
on it the point closest to `b`, the upper one of two. -/
def shortest (b : Binary) : Nat × Int :=
  let onGrid := fun (steps : Nat) =>
    let place : Int := 310 - steps
    let unit := (10 : Rat) ^ place
    let below := (b.value / unit).floor.toNat
    let above := below + 1
    let closer := if b.value - below * unit < above * unit - b.value then below else above
    let hits := [closer, below, above].filter fun (n : Nat) => b.represents (n * unit)
    hits.head?.map fun n => (n, place)
  ((List.range 660).findSome? onGrid).getD (0, 0)

def render (b : Binary) : String :=
  if b.significand = 0 then "0"
  else
    let (n, place) := b.shortest
    let ds := Nat.toDigits 10 n
    if 0 ≤ place then String.ofList (ds ++ List.replicate place.toNat '0')
    else
      let places := (-place).toNat
      let ds := List.replicate (places + 1 - ds.length) '0' ++ ds
      let (before, after) := ds.splitAt (ds.length - places)
      String.ofList (before ++ '.' :: after)

end Binary

end Lexing.Json
