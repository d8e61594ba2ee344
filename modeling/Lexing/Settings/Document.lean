import Lexing.Json
import Lexing.Settings

/-!
Settings as a JSON document. Fields of a rule are read loosely, as suits hand-edited
configurations: numbers and truth values may stand for text. Fields of a shape are read strictly.
Keys that have no meaning are passed over. Rules and shapes may also be arrays, whose items stand
for the fields in order.
-/

namespace Lexing

namespace Json

def looseString? : Json → Option String
  | .string s => some s
  | .bool b => some (if b then "true" else "false")
  | .number n => some n.render
  | _ => none

def looseBool? : Json → Option Bool
  | .bool b => some b
  | .number n => some (!n.isZero)
  | .string s =>
    let word := s.toLower
    if word ∈ ["1", "true", "on", "yes"] then some true
    else if word ∈ ["0", "false", "off", "no"] then some false
    else none
  | _ => none

def charSet? (v : Json) : Option CharSet := do (CharSet.parse (← v.string?)).toOption

def char? (v : Json) : Option Char := do single? (← v.string?)

def optional {α : Type} (read : Json → Option α) : Option Json → Option (Option α)
  | none | some .null => some none
  | some v => (read v).map some

def ofOption {α : Type} (write : α → Json) : Option α → Json
  | none => .null
  | some a => write a

def ofCharSet (s : CharSet) : Json := .string s.render

def ofChar (c : Char) : Json := .string (String.singleton c)

end Json

namespace Shape

def keys? : String → Option (List String)
  | "literal" => some ["kind", "name", "values"]
  | "chars" => some ["kind", "name", "chars"]
  | "contains" => some ["kind", "name", "chars", "first"]
  | "identifier" => some ["kind", "name", "first", "body", "separator"]
  | "bounded" => some ["kind", "name", "start", "end", "escape"]
  | _ => none

def ofFields? (fields : List (String × Json)) : Option Shape := do
  let field := fun key => Json.lookup key fields
  let kind ← (← field "kind").string?
  let name ← (← field "name").string?
  match kind with
  | "literal" => do
    let values ← (← field "values").array?
    return .words name (← values.mapM Json.string?)
  | "chars" => return .chars name (← (← field "chars").charSet?)
  | "contains" =>
    return .run name (← (← field "chars").charSet?) (← Json.optional Json.charSet? (field "first"))
  | "identifier" =>
    return .identifier name (← (← field "first").charSet?) (← (← field "body").charSet?)
      (← (← field "separator").char?)
  | "bounded" =>
    return .bounded name (← (← field "start").string?) (← (← field "end").string?)
      (← Json.optional Json.char? (field "escape"))
  | _ => none

/-- An array must not have more items than its kind has fields. -/
def ofJson? : Json → Option Shape
  | .object fields => ofFields? fields
  | .array items => do
    let keys ← keys? (← (← items.head?).string?)
    if keys.length < items.length then none else ofFields? (keys.zip items)
  | _ => none

def toFields : Shape → List (String × Json)
  | .words name list =>
    [("kind", .string "literal"), ("name", .string name), ("values", .array (list.map .string))]
  | .chars name set => [("kind", .string "chars"), ("name", .string name), ("chars", .ofCharSet set)]
  | .run name set first =>
    [("kind", .string "contains"), ("name", .string name), ("chars", .ofCharSet set),
      ("first", .ofOption .ofCharSet first)]
  | .identifier name first body separator =>
    [("kind", .string "identifier"), ("name", .string name), ("first", .ofCharSet first),
      ("body", .ofCharSet body), ("separator", .ofChar separator)]
  | .bounded name start stop escape =>
    [("kind", .string "bounded"), ("name", .string name), ("start", .string start),
      ("end", .string stop), ("escape", .ofOption .ofChar escape)]

def toJson (s : Shape) : Json := .object s.toFields

end Shape

namespace RuleSpec

def keys : List String := ["name", "compound", "first-chars", "markers"]

def ofFields? (fields : List (String × Json)) : Option RuleSpec := do
  let field := fun key => Json.lookup key fields
  let name ← (← field "name").looseString?
  let compound ← match field "compound" with
    | none => some false
    | some v => v.looseBool?
  let firstChars ← Json.optional
    (fun v => v.looseString?.bind fun s => (CharSet.parse s).toOption) (field "first-chars")
  let shapes ← (← field "markers").array?
  return { name, compound, firstChars, shapes := ← shapes.mapM Shape.ofJson? }

def ofJson? : Json → Option RuleSpec
  | .object fields => ofFields? fields
  | .array items => ofFields? (keys.zip items)
  | _ => none

def toJson (r : RuleSpec) : Json :=
  .object [("name", .string r.name), ("compound", .bool r.compound),
    ("first-chars", .ofOption .ofCharSet r.firstChars),
    ("markers", .array (r.shapes.map Shape.toJson))]

end RuleSpec

namespace Settings

def ofJson? (v : Json) : Option Settings := do
  let rules ← (← Json.lookup "rules" (← v.object?)).array?
  return { rules := ← rules.mapM RuleSpec.ofJson? }

def toJson (s : Settings) : Json := .object [("rules", .array (s.rules.map RuleSpec.toJson))]

end Settings

end Lexing
