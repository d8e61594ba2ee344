import Lexing.Scanner

namespace Lexing

structure Tokenizer (κ : Type) where
  scanner : Scanner κ

structure Scan (κ : Type) where
  tokenizer : Tokenizer κ
  result : Except Error (List Token)
  events : List Event

variable {κ : Type} [CustomMatcher κ]

namespace Tokenizer

def ofRules (rules : List (TokenRule κ)) : Tokenizer κ := ⟨{ rules }⟩

structure Course (κ : Type) where
  scanner : Scanner κ
  reports : List Report := []
  error : Option Error := none
  events : List Event := []

def Course.tokens (c : Course κ) : List Token := c.reports.map Prod.snd

/-- Steps through the text up to its end or the first error. A step reads at least one character,
so the number of characters left bounds the number of steps. -/
def run : Nat → Scanner κ → Cursor → Course κ
  | 0, s, _ => { scanner := s }
  | n + 1, s, cur =>
    match cur.read? with
    | none => { scanner := s }
    | some (c, cur) =>
      let t := s.step c cur
      match t.result with
      | .error e =>
        { scanner := t.scanner, reports := t.reports, error := some e, events := t.events }
      | .ok _ =>
        let rest := run n t.scanner t.cursor
        { rest with reports := t.reports ++ rest.reports, events := t.events ++ rest.events }

def course (t : Tokenizer κ) (text : String) : Course κ :=
  let cur := Cursor.ofString text
  run cur.remaining t.scanner cur

def tokenize (t : Tokenizer κ) (text : String) : Scan κ :=
  let course := t.course text
  let dropped := course.scanner.opened.length
  let (scanner, dropping) := course.scanner.finish
  let events :=
    course.events ++ dropping ++ if dropped = 0 then [] else [.matchesDropped dropped]
  match course.error with
  | some e => ⟨⟨scanner⟩, .error e, events⟩
  | none =>
    let chars := (Cursor.ofString text).size
    ⟨⟨scanner⟩, .ok course.tokens, events ++ [.textScanned course.tokens.length chars]⟩

end Tokenizer

def Scan.trees (s : Scan κ) : Except Error (List TokenTree) := s.result.map TokenTree.ofTokens

end Lexing
