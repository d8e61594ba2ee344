import Lexing.Json

namespace Lexing.Json

inductive Lexeme where
  | punctuation (c : Char)
  | string (s : String)
  | value (v : Json)

inductive Mode where
  | between
  | bare (taken : List Char)
  | string (taken : List Char)
  | escape (taken : List Char)
  /-- In the four digits of a character number, after the first half of a surrogate pair if
  there was one. -/
  | code (taken : List Char) (high : Option Nat) (digits : List Char)
  | pair (taken : List Char) (high : Nat) (escaped : Bool)

def isBlank (c : Char) : Bool := c = ' ' || c = '\t' || c = '\n' || c = '\r'

def isPunctuation (c : Char) : Bool := c ∈ ['\x7b', '\x7d', '[', ']', ',', ':']

def bare? (cs : List Char) : Option Json :=
  if cs = "null".toList then some .null
  else if cs = "true".toList then some (.bool true)
  else if cs = "false".toList then some (.bool false)
  else do
    let n ← Number.parse? cs
    if n.binary?.isNone then none else some (.number n)

def unescape? (c : Char) : Option Char :=
  match c with
  | '"' | '\\' | '/' => some c
  | 'b' => some '\x08'
  | 'f' => some '\x0c'
  | 'n' => some '\n'
  | 'r' => some '\r'
  | 't' => some '\t'
  | _ => none

def hexValue? (c : Char) : Option Nat :=
  if '0' ≤ c ∧ c ≤ '9' then some (c.toNat - '0'.toNat)
  else if 'a' ≤ c ∧ c ≤ 'f' then some (c.toNat - 'a'.toNat + 10)
  else if 'A' ≤ c ∧ c ≤ 'F' then some (c.toNat - 'A'.toNat + 10)
  else none

def endCode (taken : List Char) (high : Option Nat) (code : Nat) : Option Mode :=
  let isHigh := 0xd800 ≤ code ∧ code < 0xdc00
  let isLow := 0xdc00 ≤ code ∧ code < 0xe000
  match high with
  | none =>
    if isHigh then some (.pair taken code false)
    else if isLow then none
    else some (.string (Char.ofNat code :: taken))
  | some high =>
    if isLow then
      some (.string (Char.ofNat (0x10000 + (high - 0xd800) * 0x400 + (code - 0xdc00)) :: taken))
    else none

def enter (c : Char) : Mode × List Lexeme :=
  if isBlank c then (.between, [])
  else if isPunctuation c then (.between, [.punctuation c])
  else if c = '"' then (.string [], [])
  else (.bare [c], [])

def split (mode : Mode) (c : Char) : Option (Mode × List Lexeme) :=
  match mode with
  | .between => some (enter c)
  | .bare taken =>
    if isBlank c || isPunctuation c || c = '"' then
      (bare? taken.reverse).map fun v =>
        let (mode, more) := enter c
        (mode, .value v :: more)
    else some (.bare (c :: taken), [])
  | .string taken =>
    if c = '"' then some (.between, [.string (String.ofList taken.reverse)])
    else if c = '\\' then some (.escape taken, [])
    else if c < ' ' then none
    else some (.string (c :: taken), [])
  | .escape taken =>
    if c = 'u' then some (.code taken none [], [])
    else (unescape? c).map fun c => (.string (c :: taken), [])
  | .code taken high digits =>
    let digits := digits ++ [c]
    if digits.length < 4 then some (.code taken high digits, [])
    else do
      let values ← digits.mapM hexValue?
      let mode ← endCode taken high (values.foldl (fun n d => 16 * n + d) 0)
      return (mode, [])
  | .pair taken high escaped =>
    if escaped then if c = 'u' then some (.code taken (some high) [], []) else none
    else if c = '\\' then some (.pair taken high true, [])
    else none

def lexemes? (mode : Mode) : List Char → Option (List Lexeme)
  | [] =>
    match mode with
    | .between => some []
    | .bare taken => (bare? taken.reverse).map fun v => [.value v]
    | _ => none
  | c :: rest => do
    let (mode, found) ← split mode c
    return found ++ (← lexemes? mode rest)

end Lexing.Json
