import Lexing.Matcher.Layer

/-!
Matchers of all kinds, nested to any depth: layers over matchers. Whatever goes down to the leaves
goes through `Matcher.build`, which hands a layer the values of its members.
-/

namespace Lexing

inductive Matcher (κ : Type) where
  | mk (layer : Layer κ (Matcher κ))

variable {κ β : Type}

namespace Matcher

def layer : Matcher κ → Layer κ (Matcher κ)
  | mk l => l

mutual

/-- Computes a value from the leaves up: `f` sees a layer with every member beside its value. -/
def build (f : Layer κ (Matcher κ × β) → β) : Matcher κ → β
  | mk l => f (buildLayer f l)

def buildLayer (f : Layer κ (Matcher κ × β) → β) : Layer κ (Matcher κ) → Layer κ (Matcher κ × β)
  | .chars m => .chars m
  | .words m => .words m
  | .choice m => .choice (buildChoice f m)
  | .chain m => .chain (buildChain f m)
  | .custom m => .custom m

def buildChoice (f : Layer κ (Matcher κ × β) → β) : Choice (Matcher κ) → Choice (Matcher κ × β)
  | ⟨name, rule, members, alive, progress, broken⟩ =>
    ⟨name, rule, buildGroup f members, alive, progress, broken⟩

def buildChain (f : Layer κ (Matcher κ × β) → β) : Chain (Matcher κ) → Chain (Matcher κ × β)
  | ⟨name, rule, groups, hideFirst, group, index, active, complete, failed, span, taken, ahead,
      settled, broken⟩ =>
    ⟨name, rule, buildGroups f groups, hideFirst, group, index, active, complete, failed, span, taken,
      ahead, settled, broken⟩

def buildGroups (f : Layer κ (Matcher κ × β) → β) :
    List (List (Matcher κ)) → List (List (Matcher κ × β))
  | [] => []
  | g :: rest => buildGroup f g :: buildGroups f rest

def buildGroup (f : Layer κ (Matcher κ × β) → β) : List (Matcher κ) → List (Matcher κ × β)
  | [] => []
  | m :: rest => (m, build f m) :: buildGroup f rest

end

theorem buildGroup_eq (f : Layer κ (Matcher κ × β) → β) (g : List (Matcher κ)) :
    buildGroup f g = g.map fun m => (m, build f m) := by
  induction g with
  | nil => rfl
  | cons m rest ih => simp [buildGroup, ih]

theorem buildGroups_eq (f : Layer κ (Matcher κ × β) → β) (gs : List (List (Matcher κ))) :
    buildGroups f gs = gs.map (List.map fun m => (m, build f m)) := by
  induction gs with
  | nil => rfl
  | cons g rest ih => simp [buildGroups, buildGroup_eq, ih]

theorem build_mk (f : Layer κ (Matcher κ × β) → β) (l : Layer κ (Matcher κ)) :
    build f (mk l) = f (l.map fun m => (m, build f m)) := by
  cases l with
  | chars m => rfl
  | words m => rfl
  | custom m => rfl
  | choice m => cases m; simp [build, buildLayer, buildChoice, buildGroup_eq, Layer.map, Choice.map]
  | chain m => cases m; simp [build, buildLayer, buildChain, buildGroups_eq, Layer.map, Chain.map]

def depth : Matcher κ → Nat :=
  build fun l => (l.members.map Prod.snd).foldr max 0 + 1

variable [CustomMatcher κ]

def name (m : Matcher κ) : String := m.layer.name

def isComplete (m : Matcher κ) : Bool := m.layer.isComplete

def isFailed (m : Matcher κ) : Bool := m.layer.isFailed

/-- The matcher or one of its members is broken: an offer has not come back with an answer. -/
def isBroken : Matcher κ → Bool :=
  build fun l => (l.map Prod.snd).isBroken

def span (m : Matcher κ) : Option Span := m.layer.span

def text (m : Matcher κ) : List Char := m.layer.text

def copy : Matcher κ → Matcher κ :=
  build fun l => mk (l.map Prod.snd).copy

def canRecycle : Matcher κ → Bool :=
  build fun l => (l.map Prod.snd).canRecycle

def reset : Matcher κ → Matcher κ :=
  build fun l => mk (l.map fun (m, r) => if m.canRecycle then r else m.copy).reset

def recycle (m : Matcher κ) : Matcher κ := if m.canRecycle then m.reset else m.copy

def firstChars : Matcher κ → Option CharSet :=
  build fun l => (l.map Prod.snd).firstChars

instance : Member (Matcher κ) where
  name := name
  isComplete := isComplete
  isFailed := isFailed
  isBroken := isBroken
  span := span
  recycle := recycle

def render (m : Matcher κ) : String := m.layer.render

def acceptWithin : Nat → Matcher κ → Char → Cursor → Reply (Matcher κ)
  | 0, m, _, cur => ⟨false, m, cur⟩
  | n + 1, m, c, cur => (m.layer.accept (acceptWithin n) c cur).map mk

/-- Offers a character, which has just been read from the cursor. The matcher may look ahead, but
leaves the cursor where it was. -/
def accept (m : Matcher κ) (c : Char) (cur : Cursor) : Reply (Matcher κ) :=
  m.acceptWithin m.depth c cur

def accept? (m : Matcher κ) (c : Char) (cur : Cursor) : Option (Reply (Matcher κ)) :=
  let r := m.accept c cur
  if r.state.isBroken then none else some r

def chars (name : String) (rule : CharRule) : Matcher κ := mk (.chars { name, rule })

def words (name : String) (rule : WordRule) (words : List String) : Except Error (Matcher κ) :=
  (WordMatcher.make name rule words).map fun m => mk (.words m)

def choice (name : String) (rule : ChoiceRule) (members : List (Matcher κ)) :
    Except Error (Matcher κ) :=
  (Choice.make name rule members).map fun m => mk (.choice m)

def chain (name : String) (rule : ChainRule) (groups : List (List (Matcher κ)))
    (hideFirst : Bool) : Except Error (Matcher κ) :=
  (Chain.make name rule groups).map fun m => mk (.chain { m with hideFirst })

def readWithin : Nat → Matcher κ → Cursor → Nat × Matcher κ × Cursor
  | 0, m, cur => (0, m, cur)
  | n + 1, m, cur =>
    match cur.read? with
    | none => (0, m, cur)
    | some (c, cur) =>
      let r := m.accept c cur
      if !r.accepted || r.state.isFailed || r.state.isComplete then (1, r.state, r.cursor)
      else
        let (count, m, cur) := readWithin n r.state r.cursor
        (count + 1, m, cur)

def read (m : Matcher κ) (cur : Cursor) : Nat × Matcher κ × Cursor := m.readWithin cur.remaining cur

end Matcher

end Lexing
