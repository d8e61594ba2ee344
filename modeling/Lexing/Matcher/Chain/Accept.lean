import Lexing.Matcher.Chain

namespace Lexing.Chain

variable {α : Type} [Member α]

def acceptInOrder (offer : Offer α) (m : Chain α) (c : Char) (cur : Cursor) : Reply (Chain α) :=
  let r := m.offerCurrent offer c cur
  let m := if r.state.currentComplete then r.state.commit.moveOn else r.state
  finish r.accepted m c r.cursor

def tryNext (offer : Offer α) (m : Chain α) (cur : Cursor) : Reply (Chain α) :=
  let r : Reply (Chain α) :=
    match cur.read? with
    | none => ⟨false, m, cur⟩
    | some (next, after) => m.offerCurrent offer next after
  ⟨r.accepted, r.state.recycleCurrent, r.cursor.restore cur.mark⟩

def enter (offer : Offer α) (m : Chain α) (c : Char) (cur : Cursor) : Chain α × Cursor :=
  let m := m.commit.advance.2.settle c
  if m.group = 0 then (m, cur)
  else if m.active && cur.hasNext then
    let r := m.tryNext offer cur
    (if r.accepted then r.state.reopen else r.state.close, r.cursor)
  else if m.rule = .suffixed then (m.close, cur)
  else (m, cur)

/-- Only the first group can fail the chain: what goes wrong in a later one leads back to where
the chain was complete. -/
def acceptEntering (offer : Offer α) (m : Chain α) (c : Char) (cur : Cursor) : Reply (Chain α) :=
  let r := m.offerCurrent offer c cur
  let m := r.state
  if m.group > 0 && (!r.accepted || m.currentFailed) then ⟨false, m.fallBack, r.cursor⟩
  else
    let s := if m.currentComplete then m.enter offer c r.cursor else (m, r.cursor)
    finish r.accepted s.1 c s.2

/-- Moves on until a member takes `next`, at most `fuel` times. With `peeking`, the character is
not due yet, and no member keeps it. -/
def seekMember (offer : Offer α) (peeking : Bool) (next : Char) :
    Nat → Chain α → Cursor → Reply (Chain α)
  | 0, m, cur => ⟨false, m, cur⟩
  | fuel + 1, m, cur =>
    let a := m.advance
    if !a.1 then ⟨false, a.2, cur⟩
    else
      let r := a.2.offerCurrent offer next cur
      let m := if peeking then r.state.recycleCurrent else r.state
      if !r.accepted then seekMember offer peeking next fuel m r.cursor
      else
        let m := m.reopen
        ⟨true, if !peeking && m.currentComplete then m.commit.advance.2 else m, r.cursor⟩

/-- A member has ended, by `c` or before it. The character to go on with is the next one if `c`
was taken, and `c` itself if not. A complete member may take it too and is then still current. -/
def goOn (offer : Offer α) (taken complete : Bool) (next : Char) (m : Chain α) (cur : Cursor) :
    Reply (Chain α) :=
  let r : Reply (Chain α) := if complete then m.offerCurrent offer next cur else ⟨false, m, cur⟩
  if r.accepted then
    ⟨true, { r.state.reopen with ahead := if taken then some next else r.state.ahead }, r.cursor⟩
  else seekMember offer taken next m.members.length r.state r.cursor

def offerDue (offer : Offer α) (m : Chain α) (c : Char) (cur : Cursor) : Reply (Chain α) :=
  let due := { m with ahead := none }
  if m.ahead = some c then ⟨true, due, cur⟩ else due.offerCurrent offer c cur

/-- Where a member has ended, the members after it are looked at. A refused character is offered
to them, and of a taken one the next character is tried. -/
def acceptSkipping (offer : Offer α) (m : Chain α) (c : Char) (cur : Cursor) : Reply (Chain α) :=
  let r := m.offerDue offer c cur
  let complete := r.state.currentComplete
  if !complete && !r.state.currentFailed then finish r.accepted r.state c r.cursor
  else
    let m := if complete then r.state.commit else r.state
    if !r.accepted then
      let s := m.goOn offer false complete c r.cursor
      finish s.accepted s.state c (s.cursor.restore r.cursor.mark)
    else
      match r.cursor.read? with
      | some (next, after) =>
        let s := m.goOn offer true complete next after
        finish true s.state c (s.cursor.restore r.cursor.mark)
      | none => finish true (if complete then m.close else m) c r.cursor

def accept (offer : Offer α) (m : Chain α) (c : Char) (cur : Cursor) : Reply (Chain α) :=
  if !m.active then ⟨false, { m with failed := true }, cur⟩
  else
    match m.rule with
    | .inOrder => m.acceptInOrder offer c cur
    | .suffixed | .separated => m.acceptEntering offer c cur
    | .skipping => m.acceptSkipping offer c cur

end Lexing.Chain
