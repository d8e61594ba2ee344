import Lexing.Matcher.Layer

namespace Lexing

structure FixedMatcher where
  name : String
  size : Nat
  firstChars : Option CharSet
  text : List Char := []
  start : Option Position := none
  stop : Option Position := none
  spent : Bool := false
  deriving DecidableEq, Repr

namespace FixedMatcher

def accept (m : FixedMatcher) (c : Char) (cur : Cursor) : Reply FixedMatcher :=
  let count := m.text.length
  if m.spent || count = m.size then ⟨false, { m with spent := true }, cur⟩
  else
    ⟨true,
      { m with
        start := if count = 0 then some cur.position else m.start
        text := m.text ++ [c]
        stop := if count + 1 = m.size then some cur.position else m.stop },
      cur⟩

def span (m : FixedMatcher) : Option Span :=
  match m.start, m.stop with
  | some start, some stop => some ⟨start, stop⟩
  | _, _ => none

def fresh (m : FixedMatcher) : FixedMatcher :=
  { name := m.name, size := m.size, firstChars := m.firstChars }

end FixedMatcher

instance : CustomMatcher FixedMatcher where
  name := FixedMatcher.name
  isComplete m := !m.spent && m.stop.isSome
  isFailed := FixedMatcher.spent
  span := FixedMatcher.span
  text := FixedMatcher.text
  accept := FixedMatcher.accept
  reset m := m
  copy := FixedMatcher.fresh
  canRecycle _ := false
  firstChars := FixedMatcher.firstChars

end Lexing
