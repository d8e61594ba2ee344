import Lexing.Cursor
import Lexing.Span

namespace Lexing

/-- The state of one run. The last place is known once the run has been complete. The characters
taken are kept in reverse, the latest first, so that taking one more is cheap. -/
structure Progress where
  complete : Bool := false
  failed : Bool := false
  start : Option Position := none
  stop : Option Position := none
  taken : List Char := []
  deriving DecidableEq, Repr

namespace Progress

def isComplete (p : Progress) : Bool := p.complete && !p.failed

def span (p : Progress) : Option Span :=
  match p.start, p.stop with
  | some start, some stop => some ⟨start, stop⟩
  | _, _ => none

def text (p : Progress) : List Char := p.taken.reverse

def fail (p : Progress) : Progress := { p with failed := true }

def reset (p : Progress) : Progress :=
  { p with complete := false, failed := false, start := none, stop := none, taken := [] }

def push (p : Progress) (c : Char) (pos : Position) : Progress :=
  { p with
    start := if p.taken = [] then some pos else p.start
    taken := c :: p.taken }

def pushAs (p : Progress) (complete : Bool) (c : Char) (pos : Position) : Progress :=
  { p.push c pos with
    complete := complete
    stop := if complete then some pos else p.stop }

theorem isComplete_of_live {p : Progress} (h : p.failed = false) : p.isComplete = p.complete := by
  rw [isComplete, h, Bool.not_false, Bool.and_true]

@[simp] theorem text_push (p : Progress) (c : Char) (pos : Position) :
    (p.push c pos).text = p.text ++ [c] := by
  simp [text, push]

@[simp] theorem text_pushAs (p : Progress) (complete : Bool) (c : Char) (pos : Position) :
    (p.pushAs complete c pos).text = p.text ++ [c] := p.text_push c pos

end Progress

/-- The answer to an offered character: whether it was taken, what became of the matcher, and the
cursor as the matcher left it. -/
structure Reply (α : Type) where
  accepted : Bool
  state : α
  cursor : Cursor

def Reply.map {α β : Type} (f : α → β) (r : Reply α) : Reply β := ⟨r.accepted, f r.state, r.cursor⟩

/-- What a matcher that is made of other matchers has to know of them. How a member takes a character
is handed over separately, as a function of type `Offer`. -/
class Member (α : Type) where
  name : α → String
  isComplete : α → Bool
  isFailed : α → Bool
  /-- An offer has not come back with an answer. -/
  isBroken : α → Bool
  span : α → Option Span
  recycle : α → α

abbrev Offer (α : Type) := α → Char → Cursor → Reply α

/-- Something about members that neither an offer nor recycling changes. -/
structure Kept {α γ : Type} [Member α] (offer : Offer α) (g : α → γ) : Prop where
  offer_eq : ∀ a c cur, g (offer a c cur).state = g a
  recycle_eq : ∀ a, g (Member.recycle a) = g a

end Lexing
