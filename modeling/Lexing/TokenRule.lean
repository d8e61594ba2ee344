import Lexing.Matcher.Basic

namespace Lexing

/-- The tokens of a compound rule may contain other tokens; a simple rule reads its token at
once. -/
structure TokenRule (κ : Type) where
  name : String
  compound : Bool
  firstChars : CharSet
  prototype : Matcher κ
  pool : List (Matcher κ) := []

variable {κ : Type} [CustomMatcher κ]

namespace TokenRule

def maxPooled : Nat := 16

def jointFirstChars (ms : List (Matcher κ)) : Except Error CharSet :=
  ms.foldlM
    (fun known m =>
      match m.firstChars with
      | none => .error (.unknownFirstChars m.name)
      | some chars => .ok (known.union chars))
    CharSet.empty

def withFirstChars (name : String) (compound : Bool) (firstChars : CharSet)
    (ms : List (Matcher κ)) : Except Error (TokenRule κ) :=
  match ms with
  | [] => .error (.noMatchers name)
  | [prototype] => .ok { name, compound, firstChars, prototype }
  | ms => (Matcher.choice name .any ms).map fun prototype => { name, compound, firstChars, prototype }

/-- Without a given set the matchers have to say with which characters a match may start. -/
def make (name : String) (compound : Bool) (firstChars : Option CharSet)
    (ms : List (Matcher κ)) : Except Error (TokenRule κ) :=
  match firstChars with
  | some chars => withFirstChars name compound chars ms
  | none => (jointFirstChars ms).bind fun chars => withFirstChars name compound chars ms

def startsWith (r : TokenRule κ) (c : Char) : Bool := r.firstChars.contains c

def create (r : TokenRule κ) : Matcher κ × TokenRule κ :=
  match r.pool with
  | [] => (r.prototype.copy, r)
  | m :: rest => (m, { r with pool := rest })

def release (r : TokenRule κ) (m : Matcher κ) : TokenRule κ :=
  if m.canRecycle && r.pool.length < maxPooled then { r with pool := m.reset :: r.pool } else r

def render (r : TokenRule κ) : String := if r.compound then "compound " ++ r.name else r.name

end TokenRule

end Lexing
