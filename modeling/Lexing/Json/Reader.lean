import Lexing.Json.Lexeme

namespace Lexing.Json

inductive Frame where
  | array (items : List Json)
  | object (fields : List (String × Json))
  | field (fields : List (String × Json)) (key : String)

inductive Phase where
  | value
  | valueOrEnd
  | key
  | keyOrEnd
  | colon
  | more
  | done (v : Json)

structure Assembly where
  frames : List Frame := []
  phase : Phase := .value

def maxDepth : Nat := 127

namespace Assembly

/-- A finished value goes into the innermost open container. Of equal keys the last one counts. -/
def deliver (v : Json) : List Frame → Option Assembly
  | [] => some ⟨[], .done v⟩
  | .array items :: rest => some ⟨.array (items ++ [v]) :: rest, .more⟩
  | .field fields key :: rest => some ⟨.object (insert key v fields) :: rest, .more⟩
  | .object _ :: _ => none

def takesValue : Phase → Bool
  | .value | .valueOrEnd => true
  | _ => false

def takesKey : Phase → Bool
  | .key | .keyOrEnd => true
  | _ => false

def opens (a : Assembly) (f : Frame) (phase : Phase) : Option Assembly :=
  if takesValue a.phase ∧ a.frames.length < maxDepth then some ⟨f :: a.frames, phase⟩ else none

def put (a : Assembly) : Lexeme → Option Assembly
  | .value v => if takesValue a.phase then deliver v a.frames else none
  | .string s =>
    if takesValue a.phase then deliver (.string s) a.frames
    else
      match takesKey a.phase, a.frames with
      | true, .object fields :: rest => some ⟨.field fields s :: rest, .colon⟩
      | _, _ => none
  | .punctuation c =>
    if c = '[' then a.opens (.array []) .valueOrEnd
    else if c = '\x7b' then a.opens (.object []) .keyOrEnd
    else if c = ']' then
      match a.phase, a.frames with
      | .valueOrEnd, .array items :: rest | .more, .array items :: rest =>
        deliver (.array items) rest
      | _, _ => none
    else if c = '\x7d' then
      match a.phase, a.frames with
      | .keyOrEnd, .object fields :: rest | .more, .object fields :: rest =>
        deliver (.object fields) rest
      | _, _ => none
    else if c = ',' then
      match a.phase, a.frames with
      | .more, .array items :: rest => some ⟨.array items :: rest, .value⟩
      | .more, .object fields :: rest => some ⟨.object fields :: rest, .key⟩
      | _, _ => none
    else if c = ':' then
      match a.phase with
      | .colon => some { a with phase := .value }
      | _ => none
    else none

end Assembly

def parse? (text : String) : Option Json := do
  let a ← (← lexemes? .between text.toList).foldlM Assembly.put {}
  match a.phase with
  | .done v => some v
  | _ => none

end Lexing.Json
