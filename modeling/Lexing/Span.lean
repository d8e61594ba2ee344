namespace Lexing

structure Position where
  offset : Nat
  line : Nat
  column : Nat
  deriving DecidableEq, Repr

def Position.origin : Position := ⟨0, 1, 1⟩

def Position.render (p : Position) : String := s!"{p.line}:{p.column}"

structure Span where
  start : Position
  stop : Position
  deriving DecidableEq, Repr

namespace Span

def size (s : Span) : Nat := s.stop.offset + 1 - s.start.offset

/-- The span starts behind its end, which is not the case for any that lies within one text. -/
def isReversed (s : Span) : Bool := s.stop.offset + 1 < s.start.offset

def bound (s : Span) : Nat := s.stop.offset + 1

def covers (s t : Span) : Bool :=
  s.start.offset ≤ t.start.offset && t.stop.offset ≤ s.stop.offset

def union (s t : Span) : Span where
  start := if t.start.offset < s.start.offset then t.start else s.start
  stop := if s.stop.offset < t.stop.offset then t.stop else s.stop

def merge : Option Span → Span → Span
  | none, t => t
  | some s, t => s.union t

def render (s : Span) : String := s!"{s.start.render}-{s.stop.render}"

end Span

end Lexing
