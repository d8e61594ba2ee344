import Lexing.CharSet
import Lexing.Error
import Lexing.Matcher.Bag
import Lexing.Matcher.Progress

namespace Lexing

inductive ChoiceRule where
  /-- Goes on as long as some member does. -/
  | any
  /-- Skips characters until a member matches, and takes nothing after that. -/
  | seek
  deriving DecidableEq, Repr

structure Choice (α : Type) where
  name : String
  rule : ChoiceRule
  members : List α
  alive : List Nat := List.range members.length
  progress : Progress := {}
  broken : Bool := false
  deriving DecidableEq, Repr

variable {α β : Type}

namespace Choice

def map (f : α → β) (m : Choice α) : Choice β := { m with members := m.members.map f }

def make (name : String) (rule : ChoiceRule) (members : List α) : Except Error (Choice α) :=
  if members.isEmpty then .error (.noBranches name) else .ok { name, rule, members }

def fresh (m : Choice α) : Choice α := { name := m.name, rule := m.rule, members := m.members }

def reset (m : Choice α) : Choice α :=
  { m with
    alive := List.range m.members.length
    progress := m.progress.reset
    broken := false }

def restart [Member α] (m : Choice α) : Choice α :=
  { (m.map Member.recycle).reset with broken := m.broken || m.members.any Member.isBroken }

structure Round (α : Type) where
  members : List α
  complete : Bool := false
  broken : Bool := false
  cursor : Cursor

def visit [Member α] (offer : Offer α) (c : Char) (i : Nat) (r : Round α) : Bool × Round α :=
  match r.members[i]? with
  | none => (false, { r with broken := true })
  | some a =>
    if Member.isFailed a then (false, r)
    else
      let s := offer a c r.cursor
      (s.accepted,
        { r with
          members := r.members.set i s.state
          complete := r.complete || (s.accepted && Member.isComplete s.state)
          cursor := s.cursor })

def update [Member α] (offer : Offer α) (m : Choice α) (c : Char) (cur : Cursor) :
    Bool × Choice α × Cursor :=
  let start : Round α := { members := m.members, cursor := cur }
  let (alive, r) := Bag.walk (visit offer c) m.alive.length m.alive start
  (r.complete, { m with members := r.members, alive, broken := m.broken || r.broken }, r.cursor)

def push (m : Choice α) (complete : Bool) (c : Char) (cur : Cursor) : Choice α :=
  { m with progress := m.progress.pushAs complete c cur.position }

def acceptAny [Member α] (offer : Offer α) (m : Choice α) (c : Char) (cur : Cursor) :
    Reply (Choice α) :=
  let (complete, m, cur) := m.update offer c cur
  if m.alive.isEmpty then
    ⟨false, { m with progress := { m.progress with complete := false, failed := true } }, cur⟩
  else ⟨true, m.push complete c cur, cur⟩

/-- A character that ends a partial match of all members may begin a new one. -/
def acceptSeek [Member α] (offer : Offer α) (m : Choice α) (c : Char) (cur : Cursor) :
    Reply (Choice α) :=
  let (complete, m, cur) := m.update offer c cur
  let (complete, m, cur) :=
    if m.alive.isEmpty && !m.progress.taken.isEmpty then m.restart.update offer c cur
    else (complete, m, cur)
  ⟨true, if m.alive.isEmpty then m.restart else m.push complete c cur, cur⟩

def accept [Member α] (offer : Offer α) (m : Choice α) (c : Char) (cur : Cursor) :
    Reply (Choice α) :=
  if m.progress.failed then ⟨false, m, cur⟩
  else
    match m.rule with
    | .any => m.acceptAny offer c cur
    | .seek =>
      if m.progress.complete then ⟨false, { m with progress := m.progress.fail }, cur⟩
      else m.acceptSeek offer c cur

def firstChars (m : Choice (Option CharSet)) : Option CharSet :=
  m.members.foldlM (fun known chars => chars.map known.union) CharSet.empty

def render [Member α] (m : Choice α) : String :=
  let mark := match m.rule with
    | .any => "|"
    | .seek => "..|"
  s!"{m.name}({mark.intercalate (m.members.map Member.name)})"

end Choice

end Lexing
