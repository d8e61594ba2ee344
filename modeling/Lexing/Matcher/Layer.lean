import Lexing.Matcher.Chain.Accept
import Lexing.Matcher.Chars
import Lexing.Matcher.Choice
import Lexing.Matcher.Words

namespace Lexing

/-- Matchers of the user's own, beside the kinds that are built in. -/
class CustomMatcher (κ : Type) where
  name : κ → String
  isComplete : κ → Bool
  isFailed : κ → Bool
  span : κ → Option Span
  text : κ → List Char
  accept : κ → Char → Cursor → Reply κ
  reset : κ → κ
  copy : κ → κ
  canRecycle : κ → Bool
  firstChars : κ → Option CharSet

instance : CustomMatcher Empty where
  name := nofun
  isComplete := nofun
  isFailed := nofun
  span := nofun
  text := nofun
  accept := nofun
  reset := nofun
  copy := nofun
  canRecycle := nofun
  firstChars := nofun

inductive Layer (κ α : Type) where
  | chars (m : CharMatcher)
  | words (m : WordMatcher)
  | choice (m : Choice α)
  | chain (m : Chain α)
  | custom (m : κ)

variable {κ α β : Type}

namespace Layer

def map (f : α → β) : Layer κ α → Layer κ β
  | .chars m => .chars m
  | .words m => .words m
  | .choice m => .choice (m.map f)
  | .chain m => .chain (m.map f)
  | .custom m => .custom m

def members : Layer κ α → List α
  | .choice m => m.members
  | .chain m => m.members
  | _ => []

variable [CustomMatcher κ]

def name : Layer κ α → String
  | .chars m => m.name
  | .words m => m.name
  | .choice m => m.name
  | .chain m => m.name
  | .custom m => CustomMatcher.name m

def isComplete : Layer κ α → Bool
  | .chars m => m.progress.isComplete
  | .words m => m.progress.isComplete
  | .choice m => m.progress.isComplete
  | .chain m => m.isComplete
  | .custom m => CustomMatcher.isComplete m

def isFailed : Layer κ α → Bool
  | .chars m => m.progress.failed
  | .words m => m.progress.failed
  | .choice m => m.progress.failed
  | .chain m => m.failed
  | .custom m => CustomMatcher.isFailed m

def isBroken : Layer κ Bool → Bool
  | .choice m => m.broken || m.members.any id
  | .chain m => m.broken || m.members.any id
  | _ => false

def span : Layer κ α → Option Span
  | .chars m => m.progress.span
  | .words m => m.progress.span
  | .choice m => m.progress.span
  | .chain m => m.span
  | .custom m => CustomMatcher.span m

def text : Layer κ α → List Char
  | .chars m => m.progress.text
  | .words m => m.progress.text
  | .choice m => m.progress.text
  | .chain m => m.text
  | .custom m => CustomMatcher.text m

def copy : Layer κ α → Layer κ α
  | .chars m => .chars m.fresh
  | .words m => .words m.fresh
  | .choice m => .choice m.fresh
  | .chain m => .chain m.fresh
  | .custom m => .custom (CustomMatcher.copy m)

def reset : Layer κ α → Layer κ α
  | .chars m => .chars m.reset
  | .words m => .words m.reset
  | .choice m => .choice m.reset
  | .chain m => .chain m.reset
  | .custom m => .custom (CustomMatcher.reset m)

def canRecycle : Layer κ Bool → Bool
  | .custom m => CustomMatcher.canRecycle m
  | m => m.members.all id

def firstChars : Layer κ (Option CharSet) → Option CharSet
  | .chars m => some m.rule.firstChars
  | .words m => some m.firstChars
  | .choice m => m.firstChars
  | .chain m => m.firstChars
  | .custom m => CustomMatcher.firstChars m

def accept [Member α] (offer : Offer α) (l : Layer κ α) (c : Char) (cur : Cursor) :
    Reply (Layer κ α) :=
  match l with
  | .chars m => (m.accept c cur).map .chars
  | .words m => (m.accept c cur).map .words
  | .choice m => (m.accept offer c cur).map .choice
  | .chain m => (m.accept offer c cur).map .chain
  | .custom m => (CustomMatcher.accept m c cur).map .custom

def render [Member α] : Layer κ α → String
  | .chars m => m.render
  | .words m => m.render
  | .choice m => m.render
  | .chain m => m.render
  | .custom m => CustomMatcher.name m

end Layer

end Lexing
