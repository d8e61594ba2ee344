import Lexing.Span

namespace Lexing

inductive Event where
  | compoundStarted (rule : String) (start : Position)
  | simpleCompleted (rule : String) (span : Span)
  | compoundFailed (rule : String) (start : Position)
  | compoundCompleted (rule : String) (span : Span)
  | matchDropped (rule : String) (start : Position)
  | matchesDropped (count : Nat)
  | textScanned (tokens chars : Nat)
  | settingsLoaded (rules : Nat) (file : String)
  deriving DecidableEq, Repr

inductive Level where
  | trace
  | debug
  deriving DecidableEq, Repr

def Level.word : Level → String
  | .trace => "TRACE"
  | .debug => "DEBUG"

namespace Event

def level : Event → Level
  | .compoundStarted .. | .simpleCompleted .. | .compoundFailed .. | .compoundCompleted .. => .trace
  | .matchDropped .. | .matchesDropped .. | .textScanned .. | .settingsLoaded .. => .debug

def message : Event → String
  | .compoundStarted rule start => s!"compound matcher {rule} started at {start.render}"
  | .simpleCompleted rule span => s!"simple token {rule} completed at {span.render}"
  | .compoundFailed rule start => s!"compound matcher {rule} started at {start.render} failed"
  | .compoundCompleted rule span => s!"compound token {rule} completed at {span.render}"
  | .matchDropped rule start => s!"dropping unfinished {rule} started at {start.render}"
  | .matchesDropped count => s!"{count} unfinished compound matchers dropped at end of input"
  | .textScanned tokens chars => s!"{tokens} tokens found in {chars} characters"
  | .settingsLoaded rules file => s!"loaded {rules} tokenizer rules from {file}"

def render (e : Event) : String := s!"{e.level.word} {e.message}"

end Event

end Lexing
