namespace Lexing

/-- Ranges keep the order in which they were added. -/
structure CharSet where
  chars : List Char := []
  ranges : List (Char × Char) := []
  deriving DecidableEq, Repr

namespace CharSet

def insertChar (c : Char) : List Char → List Char
  | [] => [c]
  | d :: rest =>
    if c < d then c :: d :: rest else if c = d then d :: rest else d :: insertChar c rest

def lookup (c : Char) : List Char → Bool
  | [] => false
  | d :: rest => if c < d then false else c = d || lookup c rest

def insertRange (ranges : List (Char × Char)) (r : Char × Char) : List (Char × Char) :=
  if r ∈ ranges then ranges else ranges ++ [r]

def empty : CharSet := {}

def ofList (cs : List Char) : CharSet := { chars := cs.foldr insertChar [] }

def singleton (c : Char) : CharSet := { chars := [c] }

def withRange (s : CharSet) (a b : Char) : CharSet :=
  { s with ranges := s.ranges ++ [if a ≤ b then (a, b) else (b, a)] }

def range (a b : Char) : CharSet := empty.withRange a b

def union (s t : CharSet) : CharSet where
  chars := t.chars.foldr insertChar s.chars
  ranges := t.ranges.foldl insertRange s.ranges

def withChars (s : CharSet) (cs : List Char) : CharSet := s.union (ofList cs)

def inRange (c : Char) (r : Char × Char) : Bool := r.1 ≤ c && c ≤ r.2

def contains (s : CharSet) (c : Char) : Bool := lookup c s.chars || s.ranges.any (inRange c)

def isEmpty (s : CharSet) : Bool := s.chars.isEmpty && s.ranges.isEmpty

end CharSet

end Lexing
