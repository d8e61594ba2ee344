import Lexing.CharSet
import Lexing.Error
import Lexing.Matcher.Progress

/-!
Sequencing: a chain holds groups of members, and one of these members is the current one. Here is
what a chain is made of and how it goes from member to member.
-/

namespace Lexing

inductive ChainRule where
  /-- Every member of every group, one after another. -/
  | inOrder
  /-- A later group is entered only if its first member takes the next character; where none is
  entered the chain is complete. -/
  | suffixed
  /-- A complete member is offered further characters as long as it takes them, and one that
  refuses a character is skipped in favour of those after it. -/
  | skipping
  /-- Elements with separators between them, in a cycle; the chain is complete with every
  element. -/
  | separated
  deriving DecidableEq, Repr

def utf8Length (text : List Char) : Nat := text.foldr (fun c n => c.utf8Size + n) 0

def takeBytes : Nat → List Char → List Char
  | _, [] => []
  | n, c :: rest => if c.utf8Size ≤ n then c :: takeBytes (n - c.utf8Size) rest else []

/-- So many bytes of a text end within a character. -/
def splitsChar : Nat → List Char → Bool
  | _, [] => false
  | n, c :: rest => if c.utf8Size ≤ n then splitsChar (n - c.utf8Size) rest else n != 0

/-- The point where a chain was complete last: the span, and the length of the text in bytes of
its UTF-8 form. -/
structure Settled where
  span : Option Span
  bytes : Nat
  deriving DecidableEq, Repr

structure Chain (α : Type) where
  name : String
  rule : ChainRule
  groups : List (List α)
  /-- The span of the very first member does not count. -/
  hideFirst : Bool := false
  group : Nat := 0
  index : Nat := 0
  active : Bool := true
  complete : Bool := false
  failed : Bool := false
  span : Option Span := none
  taken : List Char := []
  /-- A character that the current member has taken ahead of its turn. -/
  ahead : Option Char := none
  settled : Option Settled := none
  broken : Bool := false
  deriving DecidableEq, Repr

variable {α β : Type}

namespace Chain

def map (f : α → β) (m : Chain α) : Chain β :=
  { m with groups := m.groups.map (List.map f) }

def members (m : Chain α) : List α := m.groups.flatten

def make (name : String) (rule : ChainRule) (groups : List (List α)) : Except Error (Chain α) :=
  if groups.isEmpty then .error (.noGroups name)
  else
    match groups.findIdx? List.isEmpty with
    | some index => .error (.emptyGroup name index)
    | none =>
      if rule = .separated ∧ groups.length > 2 then .error (.tooManyGroups name groups.length)
      else .ok { name, rule, groups }

def fresh (m : Chain α) : Chain α :=
  { name := m.name, rule := m.rule, groups := m.groups, hideFirst := m.hideFirst }

def reset (m : Chain α) : Chain α :=
  { m with
    group := 0
    index := 0
    active := true
    complete := false
    failed := false
    span := none
    taken := []
    ahead := none
    settled := none
    broken := false }

def text (m : Chain α) : List Char := m.taken.reverse

def isComplete (m : Chain α) : Bool := m.complete && !m.failed

def current (m : Chain α) : Option α := m.groups[m.group]?.bind fun group => group[m.index]?

def modifyCurrent (f : α → α) (m : Chain α) : Chain α :=
  { m with groups := m.groups.modify m.group fun group => group.modify m.index f }

section Moving

variable [Member α]

def currentComplete (m : Chain α) : Bool := m.current.any Member.isComplete

def currentFailed (m : Chain α) : Bool := m.current.any Member.isFailed

def recycleCurrent (m : Chain α) : Chain α :=
  { m.modifyCurrent Member.recycle with broken := m.broken || m.current.any Member.isBroken }

def offerCurrent (offer : Offer α) (m : Chain α) (c : Char) (cur : Cursor) : Reply (Chain α) :=
  match m.current with
  | none => ⟨false, m, cur⟩
  | some a => (offer a c cur).map fun a => m.modifyCurrent fun _ => a

def commit (m : Chain α) : Chain α :=
  if m.hideFirst ∧ m.group = 0 ∧ m.index = 0 then m
  else
    match m.current.bind Member.span with
    | none => m
    | some span => { m with span := some (Span.merge m.span span) }

def finish (accepted : Bool) (m : Chain α) (c : Char) (cur : Cursor) : Reply (Chain α) :=
  ⟨accepted, if accepted then { m with taken := c :: m.taken } else { m with failed := true }, cur⟩

def close (m : Chain α) : Chain α := { m with complete := true, active := false }

def reopen (m : Chain α) : Chain α := { m with complete := false }

/-- Remembers where the chain was complete last, if that is behind `c`. -/
def settle (m : Chain α) (c : Char) : Chain α :=
  if m.complete then { m with settled := some ⟨m.span, utf8Length m.text + c.utf8Size⟩ } else m

def groupSize (m : Chain α) : Nat := (m.groups[m.group]?.map List.length).getD 0

/-- Gives up the current group and goes back to where the chain was complete last. A text cannot be cut
within a character: that breaks the chain. -/
def fallBack (m : Chain α) : Chain α :=
  let m := m.recycleCurrent
  match m.settled with
  | none => { m with failed := true }
  | some s =>
    { m with
      span := s.span
      taken := (takeBytes s.bytes m.text).reverse
      broken := m.broken || splitsChar s.bytes m.text }.close

/-- Moves on to the next member and says whether there is one. The member left behind is made
ready for another run; a group that is finished completes the chain, but for a separator. -/
def advance (m : Chain α) : Bool × Chain α :=
  let m := m.recycleCurrent
  if m.index + 1 < m.groupSize then (true, { m with index := m.index + 1 })
  else if m.rule = .separated then
    let next := if m.group = 0 then 1 % m.groups.length else 0
    (true,
      { m with
        complete := m.complete || m.group = 0
        group := next
        index := 0
        groups := m.groups.modify next (List.map Member.recycle)
        broken := m.broken || m.groups[next]?.any (List.any · Member.isBroken) })
  else if m.group + 1 < m.groups.length then
    (true, { m with complete := true, group := m.group + 1, index := 0 })
  else (false, { m with complete := true, index := 0, active := false })

def moveOn (m : Chain α) : Chain α :=
  if m.index + 1 < m.groupSize then { m with index := m.index + 1 }
  else if m.group + 1 < m.groups.length then { m with group := m.group + 1, index := 0 }
  else m.close

def render (m : Chain α) : String :=
  let joint := match m.rule with
    | .inOrder => ", then "
    | .suffixed | .skipping => ", optional then "
    | .separated => ", separator "
  let list := fun group : List α => "(" ++ ", ".intercalate (group.map Member.name) ++ ")"
  m.name ++ joint.intercalate (m.groups.map list)

end Moving

def firstChars (m : Chain (Option CharSet)) : Option CharSet := m.members.head?.join

end Chain

end Lexing
