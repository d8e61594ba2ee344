import Lexing.Error
import Lexing.Matcher.Bag
import Lexing.Matcher.Progress

/-! Matchers that look for one of several words, place by place. -/

namespace Lexing

inductive WordRule where
  /-- The first word to be complete; nothing is taken after it. -/
  | shortest
  /-- A word, which a longer one may prolong. -/
  | longest
  /-- Anything up to one of the words. -/
  | upTo
  deriving DecidableEq, Repr

structure WordMatcher where
  name : String
  rule : WordRule
  words : List (List Char)
  live : List Nat := List.range words.length
  progress : Progress := {}
  deriving DecidableEq, Repr

namespace WordMatcher

inductive Found where
  | nothing
  | part
  | whole
  deriving DecidableEq, Repr

def Found.max : Found → Found → Found
  | .whole, _ | _, .whole => .whole
  | .part, _ | _, .part => .part
  | .nothing, .nothing => .nothing

/-- There must be a word, and no word may be empty: an empty one would be complete before any
character is offered. -/
def make (name : String) (rule : WordRule) (words : List String) : Except Error WordMatcher :=
  let words := words.map String.toList
  if words = [] ∨ [] ∈ words then .error (.noWords name) else .ok { name, rule, words }

def restart (m : WordMatcher) : WordMatcher := { m with live := List.range m.words.length }

def reset (m : WordMatcher) : WordMatcher := { m with progress := m.progress.reset }.restart

def fresh (m : WordMatcher) : WordMatcher := m.reset

def visit (words : List (List Char)) (c : Char) (offset : Nat) (i : Nat) (found : Found) :
    Bool × Found :=
  match words[i]? with
  -- never the case: the bag only ever loses places of words
  | none => (false, found)
  | some word =>
    if word[offset]? = some c then
      (true, found.max (if word.length = offset + 1 then .whole else .part))
    else (false, found)

def update (m : WordMatcher) (c : Char) (offset : Nat) : Found × WordMatcher :=
  let (live, found) := Bag.walk (visit m.words c offset) m.live.length m.live .nothing
  (found, { m with live })

def replay (m : WordMatcher) (text : List Char) : WordMatcher :=
  text.zipIdx.foldl (fun m (c, offset) => (m.update c offset).2) m.restart

def push (m : WordMatcher) (whole : Bool) (c : Char) (cur : Cursor) : WordMatcher :=
  { m with progress := m.progress.pushAs whole c cur.position }

def acceptWord (m : WordMatcher) (c : Char) (cur : Cursor) : Bool × WordMatcher :=
  if m.progress.failed || (m.rule = .shortest && m.progress.complete) then
    (false, { m with progress := m.progress.fail })
  else
    let (found, m) := m.update c m.progress.taken.length
    if found = .nothing then (false, { m with progress := m.progress.fail })
    else (true, m.push (found = .whole) c cur)

/-- The match without its first characters, if some word begins with what is left of it and `c`. -/
def shiftBy? (m : WordMatcher) (c : Char) (cur : Cursor) (skip : Nat) : Option WordMatcher :=
  let kept := m.progress.text.drop skip
  let (found, s) := (m.replay kept).update c kept.length
  if s.live.isEmpty then none
  else
    some
      { s with
        progress :=
          { complete := found = .whole
            failed := false
            start := m.progress.start.map fun start => cur.positionAt (start.offset + skip)
            stop := if found = .whole then some cur.position else none
            taken := (kept ++ [c]).reverse } }

/-- Starts the match later, with as few characters dropped as can be. From a complete match at least
its last character is kept, unless it is the only one. -/
def shift? (m : WordMatcher) (c : Char) (cur : Cursor) : Option WordMatcher :=
  let size := m.progress.taken.length
  let most := if m.progress.complete then max (size - 1) 1 else size
  let skips := if size = 0 then [] else List.range' 1 most
  skips.findSome? (m.shiftBy? c cur)

def acceptOnward (m : WordMatcher) (c : Char) (cur : Cursor) : WordMatcher :=
  let (found, m) := m.update c m.progress.taken.length
  if found = .nothing then (m.shift? c cur).getD m.reset else m.push (found = .whole) c cur

/-- Every character is taken until the matcher fails, which it never does by itself. A complete
match that goes on is moved along, or given up for a new one. -/
def acceptUpTo (m : WordMatcher) (c : Char) (cur : Cursor) : Bool × WordMatcher :=
  if m.progress.failed then (false, m)
  else if m.progress.complete then (true, (m.shift? c cur).getD (m.reset.acceptOnward c cur))
  else (true, m.acceptOnward c cur)

def accept (m : WordMatcher) (c : Char) (cur : Cursor) : Reply WordMatcher :=
  let (accepted, m) :=
    match m.rule with
    | .upTo => m.acceptUpTo c cur
    | .shortest | .longest => m.acceptWord c cur
  ⟨accepted, m, cur⟩

theorem accept_eq_acceptWord {m : WordMatcher} (h : m.rule ≠ .upTo) (c : Char) (cur : Cursor) :
    m.accept c cur = ⟨(m.acceptWord c cur).1, (m.acceptWord c cur).2, cur⟩ := by
  rw [accept]
  cases hrule : m.rule with
  | upTo => exact absurd hrule h
  | shortest => rfl
  | longest => rfl

def firstChars (m : WordMatcher) : CharSet := .ofList (m.words.filterMap List.head?)

def render (m : WordMatcher) : String :=
  let dots := if m.rule = .upTo then ".." else ""
  m.name ++ dots ++ Text.quoteList (m.words.map String.ofList)

end WordMatcher

end Lexing
