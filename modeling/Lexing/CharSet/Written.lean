import Lexing.CharSet
import Lexing.Text.Quoted

/-!
The written form of a character set: single characters and ranges such as a-z stand one after
another, and a backslash takes the meaning from a dash or a backslash or gives one to n, t, r, s.
-/

namespace Lexing.CharSet

inductive ParseError where
  | empty
  | danglingEscape (text : String)
  | reversedRange (first last : Char)
  deriving DecidableEq, Repr

def ParseError.message : ParseError → String
  | .empty => "character set is empty"
  | .danglingEscape text => s!"character set {Text.quote text} ends with a dangling escape"
  | .reversedRange first last =>
    s!"character range {Text.quoteChar first}-{Text.quoteChar last} is reversed"

/-- A written character, or a dash that may join its neighbours into a range. -/
inductive Item where
  | char (c : Char)
  | dash
  deriving DecidableEq, Repr

def unescape (c : Char) : Char :=
  if c = 'n' then '\n' else if c = 't' then '\t' else if c = 'r' then '\r'
  else if c = 's' then ' ' else c

def escape (c : Char) : List Char :=
  if c = '\n' then ['\\', 'n'] else if c = '\t' then ['\\', 't'] else if c = '\r' then ['\\', 'r']
  else if c = ' ' then ['\\', 's'] else if c = '\\' ∨ c = '-' then ['\\', c] else [c]

/-- Splits a text into items. A dash joins only between two neighbours: at the start, where
`leading` holds, and at the end of the text it stands for itself. Nothing is read from a text that
ends in an open escape. -/
def items? (leading : Bool) : List Char → Option (List Item)
  | [] => some []
  | c :: rest =>
    if c = '\\' then
      match rest with
      | [] => none
      | d :: rest => (items? false rest).map (.char (unescape d) :: ·)
    else if c = '-' ∧ leading = false ∧ rest ≠ [] then (items? false rest).map (.dash :: ·)
    else (items? false rest).map (.char c :: ·)

def assemble : List Item → Except ParseError (List (Char × Char) × List Char)
  | .char a :: .dash :: .char b :: rest =>
    if b < a then .error (.reversedRange a b)
    else (assemble rest).map fun (ranges, chars) => ((a, b) :: ranges, chars)
  | .char c :: rest => (assemble rest).map fun (ranges, chars) => (ranges, c :: chars)
  | .dash :: rest => (assemble rest).map fun (ranges, chars) => (ranges, '-' :: chars)
  | [] => .ok ([], [])

def parse (text : String) : Except ParseError CharSet :=
  match items? true text.toList with
  | none => .error (.danglingEscape text)
  | some items =>
    match assemble items with
    | .error e => .error e
    | .ok (ranges, chars) =>
      let s := withChars { ranges } chars
      if s.isEmpty then .error .empty else .ok s

def write (s : CharSet) : List Char :=
  s.ranges.flatMap (fun (a, b) => escape a ++ '-' :: escape b) ++ s.chars.flatMap escape

def render (s : CharSet) : String := String.ofList s.write

end Lexing.CharSet
