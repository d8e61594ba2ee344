import Lexing.CharSet.Written
import Lexing.Matcher.Progress

namespace Lexing

inductive CharRule where
  /-- Exactly one character of the set. -/
  | one (set : CharSet)
  /-- A longest run: a character of `first`, then characters of `body`. -/
  | run (first body : CharSet)
  /-- Anything up to a character of the set; further characters of the set prolong the match. -/
  | upTo (set : CharSet)
  /-- As `upTo`, but characters right behind one of `escapes` do not count. -/
  | upToUnescaped (set escapes : CharSet)
  /-- A longest run in which single separators may stand between characters of `body`. -/
  | identifier (first body : CharSet) (separator : Char)
  deriving DecidableEq, Repr

structure CharMatcher where
  name : String
  rule : CharRule
  progress : Progress := {}
  escaped : Bool := false
  deriving DecidableEq, Repr

def CharSet.containsSome (s : CharSet) (c : Option Char) : Bool := c.any s.contains

namespace CharRule

def firstChars : CharRule → CharSet
  | .one set => set
  | .run first _ => first
  | .upTo set => set
  | .upToUnescaped set _ => set
  | .identifier first _ _ => first

def render : CharRule → String
  | .one set => s!"[{set.render}]"
  | .run first body => s!"[{first.render}][{body.render}]*"
  | .upTo set => s!"..[{set.render}]"
  | .upToUnescaped set escapes => s!"..[^{escapes.render}][{set.render}]"
  | .identifier first body separator =>
    s!"[{first.render}][{body.render}{separator.toString}]*"

end CharRule

namespace CharMatcher

def acceptOne (set : CharSet) (p : Progress) (c : Char) (cur : Cursor) : Bool × Progress :=
  if p.complete || p.failed || !set.contains c then (false, p.fail)
  else (true, p.pushAs true c cur.position)

def acceptRun (first body : CharSet) (p : Progress) (c : Char) (cur : Cursor) : Bool × Progress :=
  if p.complete then (false, p.fail)
  else if !(if p.taken = [] then first else body).contains c then (false, p)
  else (true, p.pushAs (!body.containsSome cur.peek) c cur.position)

def acceptIdentifier (first body : CharSet) (separator : Char) (p : Progress) (c : Char)
    (cur : Cursor) : Bool × Progress :=
  let fits :=
    if p.taken = [] then first.contains c
    else body.contains c || (c = separator && body.containsSome cur.peek)
  let goesOn :=
    body.containsSome cur.peek ||
      (cur.peek = some separator && body.containsSome (cur.peekNth 1))
  if p.complete then (false, p.fail)
  else if !fits then (false, p)
  else (true, p.pushAs (!goesOn) c cur.position)

def acceptUpTo (set : CharSet) (p : Progress) (c : Char) (cur : Cursor) : Bool × Progress :=
  if p.failed then (false, p)
  else if p.complete && !set.contains c then (false, p)
  else (true, p.pushAs (set.contains c) c cur.position)

/-- An escape is taken silently, and the character behind it starts the run anew. The character
before the first one offered may be an escape too. -/
def acceptUpToUnescaped (set escapes : CharSet) (p : Progress) (escaped : Bool) (c : Char)
    (cur : Cursor) : Bool × Progress × Bool :=
  if p.failed || p.complete then
    let (accepted, p) := acceptUpTo set p c cur
    (accepted, p, escaped)
  else if escapes.contains c then (true, p, true)
  else if escaped || (p.taken = [] && escapes.containsSome cur.previous) then (true, {}, false)
  else
    let (accepted, p) := acceptUpTo set p c cur
    (accepted, p, false)

def accept (m : CharMatcher) (c : Char) (cur : Cursor) : Reply CharMatcher :=
  let keep : Bool × Progress → Reply CharMatcher := fun (accepted, p) =>
    ⟨accepted, { m with progress := p }, cur⟩
  match m.rule with
  | .one set => keep (acceptOne set m.progress c cur)
  | .run first body => keep (acceptRun first body m.progress c cur)
  | .upTo set => keep (acceptUpTo set m.progress c cur)
  | .identifier first body separator => keep (acceptIdentifier first body separator m.progress c cur)
  | .upToUnescaped set escapes =>
    let (accepted, p, escaped) := acceptUpToUnescaped set escapes m.progress m.escaped c cur
    ⟨accepted, { m with progress := p, escaped := escaped }, cur⟩

def fresh (m : CharMatcher) : CharMatcher := { name := m.name, rule := m.rule }

def reset (m : CharMatcher) : CharMatcher :=
  { m with progress := m.progress.reset, escaped := false }

def render (m : CharMatcher) : String := m.name ++ m.rule.render

end CharMatcher

end Lexing
