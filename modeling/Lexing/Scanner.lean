import Lexing.Event
import Lexing.Token
import Lexing.TokenRule

/-!
Scanning a text with several rules at once. Simple rules read a token on the spot; compound rules
leave open matches behind, which are offered every character that no simple token has taken.
-/

namespace Lexing

structure OpenMatch (κ : Type) where
  start : Position
  rule : Nat
  matcher : Matcher κ

/-- Rules that come first take precedence. The open matches are a stack, the latest on top. -/
structure Scanner (κ : Type) where
  rules : List (TokenRule κ)
  opened : List (OpenMatch κ) := []

abbrev Report := Nat × Token

variable {κ : Type} [CustomMatcher κ]

def Matcher.toToken (m : Matcher κ) (kind : String) (start : Position) (cur : Cursor) : Token where
  kind := kind
  text := String.ofList m.text
  span := m.span.getD ⟨start, cur.position⟩

structure Launch (κ : Type) where
  rules : List (TokenRule κ)
  opened : List (OpenMatch κ)
  found : Option (Report × Nat)
  cursor : Cursor
  events : List Event
  broken : Bool := false

structure Offered (κ : Type) where
  rules : List (TokenRule κ)
  opened : List (OpenMatch κ)
  found : Option Report := none
  error : Option Error := none
  cursor : Cursor
  events : List Event := []
  broken : Bool := false

structure Step (κ : Type) where
  scanner : Scanner κ
  cursor : Cursor
  /-- The number of characters of a simple token, or zero. -/
  result : Except Error Nat
  reports : List Report
  events : List Event
  broken : Bool := false

namespace Scanner

def readSimple (r : TokenRule κ) (cur : Cursor) :
    TokenRule κ × Option (Token × Nat) × Cursor × Bool :=
  let (m, r) := r.create
  let (count, m, after) := m.read (cur.unread 1)
  if m.isComplete then
    (r.release m, some (m.toToken r.name cur.position after, count), after, m.isBroken)
  else (r.release m, none, after.restore cur.mark, m.isBroken)

/-- Lets the rules begin with the character just read, in order, up to the first simple one that
finds a token. The first of the rules given has the index `index`. -/
def launch (c : Char) (cur : Cursor) (opened : List (OpenMatch κ)) :
    (index : Nat) → List (TokenRule κ) → Launch κ
  | _, [] => { rules := [], opened, found := none, cursor := cur, events := [] }
  | index, r :: rest =>
    if !r.startsWith c then
      let l := launch c cur opened (index + 1) rest
      { l with rules := r :: l.rules }
    else if r.compound then
      let (m, r) := r.create
      let l := launch c cur (⟨cur.position, index, m⟩ :: opened) (index + 1) rest
      { l with
        rules := r :: l.rules
        events := .compoundStarted r.name cur.position :: l.events }
    else
      match readSimple r cur with
      | (r, some (t, count), cur, broken) =>
        ⟨r :: rest, opened, some ((index, t), count), cur, [.simpleCompleted r.name t.span], broken⟩
      | (r, none, cur, broken) =>
        let l := launch c cur opened (index + 1) rest
        { l with rules := r :: l.rules, broken := broken || l.broken }

def ruleName (rules : List (TokenRule κ)) (index : Nat) : String :=
  (rules[index]?.map TokenRule.name).getD ""

def release (rules : List (TokenRule κ)) (m : OpenMatch κ) : List (TokenRule κ) :=
  rules.modify m.rule (·.release m.matcher)

/-- Shows the enclosing matches a character that is a token by itself. They may take it, but none
may end with it; the first that does is given together with how it ended. -/
def shareChar (c : Char) :
    List (OpenMatch κ) → Cursor → List (OpenMatch κ) × Option (OpenMatch κ × Ending) × Cursor
  | [], cur => ([], none, cur)
  | m :: older, cur =>
    let r := m.matcher.accept c cur
    let m := { m with matcher := r.state }
    if m.matcher.isComplete then (m :: older, some (m, .complete), r.cursor)
    else if m.matcher.isFailed then (m :: older, some (m, .fail), r.cursor)
    else
      let (older, ended, cur) := shareChar c older r.cursor
      (m :: older, ended, cur)

/-- Ends the match `m` with a token. A token that ends before it starts has no size: to ask for it is as
bad as a matcher that breaks. -/
def complete (rules : List (TokenRule κ)) (m : OpenMatch κ) (older : List (OpenMatch κ)) (c : Char)
    (cur : Cursor) : Offered κ :=
  let name := ruleName rules m.rule
  let t := m.matcher.toToken name m.start cur
  let done : Offered κ :=
    { rules := release rules m
      opened := older
      found := some (m.rule, t)
      cursor := cur
      events := [.compoundCompleted name t.span]
      broken := m.matcher.isBroken || t.span.isReversed }
  if t.size ≠ 1 then done
  else
    match shareChar c older cur with
    | (older, none, cur) =>
      { done with
        opened := older
        cursor := cur
        broken := done.broken || older.any (·.matcher.isBroken) }
    | (older, some (other, ending), cur) =>
      { done with
        opened := older
        cursor := cur
        broken := done.broken || older.any (·.matcher.isBroken)
        error := some <| .reuse
          { matcher := ruleName rules other.rule
            matcherStart := other.start
            ending
            char := c
            place := cur.describePosition
            owner := t.kind
            ownerStart := t.span.start } }

def offerOpened (c : Char) (rules : List (TokenRule κ)) :
    List (OpenMatch κ) → Cursor → Offered κ
  | [], cur => { rules, opened := [], cursor := cur }
  | m :: older, cur =>
    let r := m.matcher.accept c cur
    let m := { m with matcher := r.state }
    if m.matcher.isComplete then complete rules m older c r.cursor
    else if m.matcher.isFailed then
      let o := offerOpened c (release rules m) older r.cursor
      { o with
        events := .compoundFailed (ruleName rules m.rule) m.start :: o.events
        broken := m.matcher.isBroken || o.broken }
    else
      let o := offerOpened c rules older r.cursor
      { o with opened := m :: o.opened, broken := m.matcher.isBroken || o.broken }

/-- Handles the character just read from the cursor. With a simple token the cursor ends up behind
the token; otherwise it stays, and the open matches are offered the character. -/
def step (s : Scanner κ) (c : Char) (cur : Cursor) : Step κ :=
  let l := launch c cur s.opened 0 s.rules
  match l.found with
  | some (report, count) =>
    ⟨⟨l.rules, l.opened⟩, l.cursor, .ok count, [report], l.events, l.broken⟩
  | none =>
    let o := offerOpened c l.rules l.opened l.cursor
    { scanner := ⟨o.rules, o.opened⟩
      cursor := o.cursor
      result := match o.error with
        | none => .ok 0
        | some e => .error e
      reports := o.found.toList
      events := l.events ++ o.events
      broken := l.broken || o.broken }

/-- As `step`, but without an answer where a matcher breaks. -/
def step? (s : Scanner κ) (c : Char) (cur : Cursor) : Option (Step κ) :=
  let t := s.step c cur
  if t.broken then none else some t

def finish (s : Scanner κ) : Scanner κ × List Event :=
  let dropped := s.opened.reverse
  (⟨dropped.foldl release s.rules, []⟩,
    dropped.map fun m => .matchDropped (ruleName s.rules m.rule) m.start)

end Scanner

end Lexing
