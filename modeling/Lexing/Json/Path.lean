import Lexing.Json

namespace Lexing.Json

/-- One step down into a container. A negative index counts from the end. -/
inductive Step where
  | key (name : String)
  | index (i : Int)
  deriving DecidableEq, Repr

inductive Place where
  | name (taken : List Char)
  | index (taken : List Char)
  | closed

namespace Step

def isNameChar (c : Char) : Bool := c.isAlphanum || c = '_' || c = '-'

def isPadding (c : Char) : Bool := c = ' ' || c = '\t'

def key? (taken : List Char) : Option Step :=
  if taken.isEmpty then none else some (.key (String.ofList taken.reverse))

def index? (taken : List Char) : Option Step :=
  let cs := ((taken.dropWhile isPadding).reverse).dropWhile isPadding
  let (negative, ds) := match cs with
    | '-' :: rest => (true, rest)
    | rest => (false, rest)
  let i : Int := if negative then -digitsValue ds else digitsValue ds
  let fits := Int64.minValue.toInt ≤ i ∧ i ≤ Int64.maxValue.toInt
  if ¬ds.isEmpty ∧ ds.all Char.isDigit ∧ fits then some (.index i) else none

def opens? (c : Char) : Option Place :=
  if c = '.' then some (.name []) else if c = '[' then some (.index []) else none

def read? (place : Place) : List Char → Option (List Step)
  | [] =>
    match place with
    | .name taken => (key? taken).map ([·])
    | .index _ => none
    | .closed => some []
  | c :: rest =>
    match place with
    | .name taken =>
      if isNameChar c then read? (.name (c :: taken)) rest
      else do return (← key? taken) :: (← read? (← opens? c) rest)
    | .index taken =>
      if c = ']' then do return (← index? taken) :: (← read? .closed rest)
      else read? (.index (c :: taken)) rest
    | .closed => do read? (← opens? c) rest

def path (text : String) : List Step := (read? (.name []) text.toList).getD [.key text]

end Step

def modifyField (key : String) (f : Json → Json) (v : Json) : Json :=
  let fields := v.object?.getD []
  .object (insert key (f ((lookup key fields).getD .null)) fields)

def modifyItem (i : Int) (f : Json → Json) (v : Json) : Json :=
  let items := v.array?.getD []
  if 0 ≤ i then
    let missing := i.toNat + 1 - items.length
    .array ((items ++ List.replicate missing null).modify i.toNat f)
  else
    let back := (-i).toNat
    let missing := back - items.length
    .array ((List.replicate missing null ++ items).modify (items.length - back) f)

def modifyAt : List Step → (Json → Json) → Json → Json
  | [], f => f
  | .key name :: rest, f => modifyField name (modifyAt rest f)
  | .index i :: rest, f => modifyItem i (modifyAt rest f)

mutual

/-- Merges the first value into the second one: fields of an object one by one, and anything else
as a whole. -/
def merge : Json → Json → Json
  | .object fields, old => mergeFields fields (.object (old.object?.getD []))
  | v, _ => v

def mergeFields : List (String × Json) → Json → Json
  | [], old => old
  | (key, v) :: rest, old => mergeFields rest (modifyField key (merge v) old)

end

/-- Lays the fields of a document over a document. The keys of these fields, and only they, are
paths. -/
def overlay (fields : List (String × Json)) (base : Json) : Json :=
  fields.foldl (fun doc (key, v) => modifyAt (Step.path key) (merge v) doc) base

end Lexing.Json
