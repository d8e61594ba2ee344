import Lexing.Json.Binary

namespace Lexing.Json

structure Number where
  negative : Bool
  significand : Nat
  exponent : Int
  /-- Neither a point nor an exponent was written, and no digit was left out. -/
  whole : Bool
  deriving DecidableEq, Repr

def digitValue (d : Char) : Nat := d.toNat - '0'.toNat

def digitsValue (ds : List Char) : Nat := ds.foldl (fun n d => 10 * n + digitValue d) 0

def appendDigits (n : Nat) : List Char → Nat × List Char
  | [] => (n, [])
  | d :: ds =>
    if 10 * n + digitValue d < 2 ^ 64 then appendDigits (10 * n + digitValue d) ds else (n, d :: ds)

namespace Number

def tail? (cs : List Char) : Option (List Char × List Char) :=
  let (ds, rest) := cs.span Char.isDigit
  if ds.isEmpty then none else some (ds, rest)

def fraction? : List Char → Option (List Char × List Char)
  | '.' :: rest => tail? rest
  | rest => some ([], rest)

def power? : List Char → Option (Int × List Char)
  | c :: rest =>
    if c = 'e' ∨ c = 'E' then
      match rest with
      | '-' :: rest => (tail? rest).map fun (ds, rest) => (-(digitsValue ds : Int), rest)
      | '+' :: rest => (tail? rest).map fun (ds, rest) => ((digitsValue ds : Int), rest)
      | rest => (tail? rest).map fun (ds, rest) => ((digitsValue ds : Int), rest)
    else some (0, c :: rest)
  | [] => some (0, [])

/-- Reads a number that takes up the whole text. No needless zero may stand in front. Digits of
the integer that are left out still move the point; the fraction goes on behind the digits that
are kept. -/
def parse? (cs : List Char) : Option Number := do
  let (negative, cs) := match cs with
    | '-' :: rest => (true, rest)
    | rest => (false, rest)
  let (before, afterInt) ← tail? cs
  if before.length > 1 ∧ before.head? = some '0' then none
  let (after, afterFraction) ← fraction? afterInt
  let (power, rest) ← power? afterFraction
  if rest ≠ [] then none
  let (leading, dropped) := appendDigits 0 before
  let (significand, unused) := appendDigits leading after
  return {
    negative
    significand
    exponent := power + dropped.length + unused.length - after.length
    whole := afterInt.isEmpty && dropped.isEmpty }

/-- An integer of 64 bits, of which a negative one spends one on the sign. A negative zero is
none. -/
def integer? (n : Number) : Option Int :=
  if n.whole ∧ ¬n.negative then some n.significand
  else if n.whole ∧ 0 < n.significand ∧ Int64.minValue.toInt ≤ -n.significand then
    some (-n.significand)
  else none

def binary? (n : Number) : Option Binary := (Binary.nearest n.significand).shift? n.exponent

def isZero (n : Number) : Bool :=
  match n.integer? with
  | some value => value = 0
  | none => n.binary?.all fun b => b.significand = 0

def render (n : Number) : String :=
  match n.integer? with
  | some value => toString value
  | none =>
    let magnitude := (n.binary?.map Binary.render).getD ""
    if n.negative then "-" ++ magnitude else magnitude

end Number

end Lexing.Json
