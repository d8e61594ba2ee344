import Lexing.TokenRule.Part
import Lexing.Tokenizer

namespace Lexing

inductive Shape where
  | words (name : String) (words : List String)
  | chars (name : String) (set : CharSet)
  | run (name : String) (set : CharSet) (first : Option CharSet)
  | identifier (name : String) (first body : CharSet) (separator : Char)
  | bounded (name start stop : String) (escape : Option Char)
  deriving DecidableEq, Repr

structure RuleSpec where
  name : String
  compound : Bool := false
  firstChars : Option CharSet := none
  shapes : List Shape
  deriving DecidableEq, Repr

structure Settings where
  rules : List RuleSpec
  deriving DecidableEq, Repr

variable {κ : Type}

def single? (s : String) : Option Char :=
  match s.toList with
  | [c] => some c
  | _ => none

def Delimiter.ofString (s : String) : Delimiter :=
  match single? s with
  | some c => .char c
  | none => .word s

def Shape.toPart : Shape → Except Error (Part κ)
  | .words name list => .ok (.words name list)
  | .chars name set => .ok (.oneOf name set)
  | .run name set first => .ok (.run name (first.getD set) set)
  | .identifier name first body separator => .ok (.identifier name first body separator)
  | .bounded name start stop none => .ok (.bounded name (.ofString start) (.ofString stop))
  | .bounded name start stop (some escape) =>
    match single? start, single? stop with
    | some start, some stop => .ok (.boundedUnescaped name start escape stop)
    | _, _ => .error (.escapedDelimiter name)

variable [CustomMatcher κ]

/-- The error of a shape comes before that of a part, wherever the two stand. -/
def RuleSpec.toRule (r : RuleSpec) : Except Error (TokenRule κ) :=
  (r.shapes.mapM Shape.toPart).bind (TokenRule.ofParts r.name r.compound r.firstChars)

namespace Settings

def toRules (s : Settings) : Except Error (List (TokenRule κ)) := s.rules.mapM RuleSpec.toRule

def tokenizer (s : Settings) : Except Error (Tokenizer κ) := s.toRules.map Tokenizer.ofRules

end Settings

end Lexing
