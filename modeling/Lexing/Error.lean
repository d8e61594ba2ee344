import Lexing.CharSet.Written
import Lexing.Span

namespace Lexing

inductive Ending where
  | complete
  | fail
  deriving DecidableEq, Repr

def Ending.word : Ending → String
  | .complete => "complete"
  | .fail => "fail"

/-- A character that had already completed a token of one character was used again: it also ended
the enclosing matcher `matcher`. -/
structure Reuse where
  matcher : String
  matcherStart : Position
  ending : Ending
  char : Char
  place : String
  owner : String
  ownerStart : Position
  deriving DecidableEq, Repr

def Reuse.message (r : Reuse) : String :=
  s!"compound matcher {Text.quote r.matcher} (started at {r.matcherStart.render}) used " ++
  s!"{Text.quoteChar r.char} ({r.place}) to {r.ending.word} but the character had already been " ++
  s!"used by {Text.quote r.owner} (started at {r.ownerStart.render}) to complete a token"

inductive Error where
  | noGroups (name : String)
  | emptyGroup (name : String) (index : Nat)
  | tooManyGroups (name : String) (count : Nat)
  | noBranches (name : String)
  | noMatchers (name : String)
  | noWords (name : String)
  | unknownFirstChars (name : String)
  | escapedDelimiter (name : String)
  | reuse (r : Reuse)
  | charSet (e : CharSet.ParseError)
  | settings
  deriving DecidableEq, Repr

def Error.message : Error → String
  | .noGroups name => s!"pipe condition {Text.quote name} has no condition sets"
  | .emptyGroup name index => s!"condition set {index} of pipe condition {Text.quote name} is empty"
  | .tooManyGroups name count =>
    s!"repeatable separator {Text.quote name} accepts at most 2 condition sets, " ++
    s!"the element set and the separator set, got {count}"
  | .noBranches name => s!"filter condition {Text.quote name} has no alternatives"
  | .noMatchers name => s!"factory {Text.quote name} has no conditions"
  | .noWords name =>
    s!"string condition {Text.quote name} requires at least one non-empty candidate string"
  | .unknownFirstChars name =>
    s!"condition {Text.quote name} does not provide first characters, " ++
    "an explicit first character set is required"
  | .escapedDelimiter name =>
    s!"bounded marker {Text.quote name} has an escape character, " ++
    "its start and end markers must be single characters"
  | .reuse r => r.message
  | .charSet e => e.message
  | .settings => "failed to load configuration"

end Lexing
