import Lexing.TokenRule

namespace Lexing

inductive Delimiter where
  | char (c : Char)
  | word (s : String)
  deriving DecidableEq, Repr

inductive Part (κ : Type) where
  | bounded (name : String) (start stop : Delimiter)
  | boundedUnescaped (name : String) (start escape stop : Char)
  | words (name : String) (words : List String)
  | oneOf (name : String) (set : CharSet)
  | run (name : String) (first body : CharSet)
  | identifier (name : String) (first body : CharSet) (separator : Char)
  | matcher (m : Matcher κ)

variable {κ : Type} [CustomMatcher κ]

namespace Delimiter

def opening (name : String) : Delimiter → Except Error (Matcher κ)
  | .char c => .ok (.chars name (.one (.singleton c)))
  | .word s => Matcher.words name .shortest [s]

def closing (name : String) : Delimiter → Except Error (Matcher κ)
  | .char c => .ok (.chars name (.upTo (.singleton c)))
  | .word s => Matcher.words name .upTo [s]

end Delimiter

namespace Part

def toMatcher : Part κ → Except Error (Matcher κ)
  | .bounded name start stop => do
    let opening ← start.opening (name ++ "-start")
    let closing ← stop.closing (name ++ "-end")
    Matcher.chain name .inOrder [[opening, closing]] false
  | .boundedUnescaped name start escape stop =>
    Matcher.chain name .inOrder
      [[.chars (name ++ "-start") (.one (.singleton start)),
        .chars (name ++ "-end") (.upToUnescaped (.singleton stop) (.singleton escape))]]
      false
  | .words name list => Matcher.words name .longest list
  | .oneOf name set => .ok (.chars name (.one set))
  | .run name first body => .ok (.chars name (.run first body))
  | .identifier name first body separator => .ok (.chars name (.identifier first body separator))
  | .matcher m => .ok m

end Part

def TokenRule.ofParts (name : String) (compound : Bool) (firstChars : Option CharSet)
    (parts : List (Part κ)) : Except Error (TokenRule κ) :=
  (parts.mapM Part.toMatcher).bind (TokenRule.make name compound firstChars)

end Lexing
