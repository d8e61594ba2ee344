import Lexing.Proofs.CharSet.RoundTrip
import Lexing.Settings.Default
import Lexing.Settings.Document

namespace Lexing

variable {α β : Type}

theorem mapM_map_eq_some {read : β → Option α} {write : α → β} {l : List α}
    (h : ∀ a ∈ l, read (write a) = some a) : (l.map write).mapM read = some l := by
  induction l with
  | nil => rfl
  | cons a rest ih =>
    obtain ⟨ha, hrest⟩ := List.forall_mem_cons.1 h
    rw [List.map_cons, List.mapM_cons, ha, ih hrest]
    rfl

def CharSet.Written (s : CharSet) : Prop := s.Ordered ∧ s.isEmpty = false

namespace Json

theorem ofCharSet_ne_null (s : CharSet) : ofCharSet s ≠ .null := nofun

theorem ofChar_ne_null (c : Char) : ofChar c ≠ .null := nofun

theorem charSet?_ofCharSet {s : CharSet} (h : s.Written) : (ofCharSet s).charSet? = some s := by
  simp [charSet?, ofCharSet, string?, h.1.parse_eq h.2, Except.toOption]

theorem char?_ofChar (c : Char) : (ofChar c).char? = some c := by
  simp [char?, ofChar, string?, single?]

theorem optional_ofOption {read : Json → Option α} {write : α → Json} {o : Option α}
    (h : ∀ a, o = some a → read (write a) = some a) (hnull : ∀ a, write a ≠ .null) :
    optional read (some (ofOption write o)) = some o := by
  cases o with
  | none => rfl
  | some a =>
    rw [ofOption]
    generalize hv : write a = v
    have ha := hv ▸ h a rfl
    have hne := hv ▸ hnull a
    cases v with
    | null => exact absurd rfl hne
    | _ => simp [optional, ha]

end Json

namespace Shape

def sets : Shape → List CharSet
  | .words .. => []
  | .chars _ set => [set]
  | .run _ set first => set :: first.toList
  | .identifier _ first body _ => [first, body]
  | .bounded .. => []

theorem ofJson?_toJson {s : Shape} (h : ∀ set ∈ s.sets, set.Written) : ofJson? s.toJson = some s := by
  cases s with
  | words name list =>
    have hlist : (list.map Json.string).mapM Json.string? = some list :=
      mapM_map_eq_some fun _ _ => rfl
    simp [toJson, ofJson?, toFields, ofFields?, Json.lookup, Json.string?, Json.array?, hlist]
  | chars name set =>
    have hset := Json.charSet?_ofCharSet (h set (by simp [sets]))
    simp [toJson, ofJson?, toFields, ofFields?, Json.lookup, Json.string?, hset]
  | run name set first =>
    have hset := Json.charSet?_ofCharSet (h set (by simp [sets]))
    have hfirst := Json.optional_ofOption (o := first)
      (fun a ha => Json.charSet?_ofCharSet (h a (by simp [sets, ha]))) Json.ofCharSet_ne_null
    simp [toJson, ofJson?, toFields, ofFields?, Json.lookup, Json.string?, hset, hfirst]
  | identifier name first body separator =>
    have hfirst := Json.charSet?_ofCharSet (h first (by simp [sets]))
    have hbody := Json.charSet?_ofCharSet (h body (by simp [sets]))
    simp [toJson, ofJson?, toFields, ofFields?, Json.lookup, Json.string?, hfirst, hbody,
      Json.char?_ofChar]
  | bounded name start stop escape =>
    have hescape := Json.optional_ofOption (o := escape) (fun a _ => Json.char?_ofChar a)
      Json.ofChar_ne_null
    simp [toJson, ofJson?, toFields, ofFields?, Json.lookup, Json.string?, hescape]

end Shape

namespace RuleSpec

def sets (r : RuleSpec) : List CharSet := r.firstChars.toList ++ r.shapes.flatMap Shape.sets

theorem ofJson?_toJson {r : RuleSpec} (h : ∀ set ∈ r.sets, set.Written) : ofJson? r.toJson = some r := by
  have hname : (Json.string r.name).looseString? = some r.name := rfl
  have hfirst : Json.optional (fun v => v.looseString?.bind fun s => (CharSet.parse s).toOption)
      (some (Json.ofOption Json.ofCharSet r.firstChars)) = some r.firstChars :=
    Json.optional_ofOption (fun set hset => Json.charSet?_ofCharSet (h set (by simp [sets, hset])))
      Json.ofCharSet_ne_null
  have hshapes : (r.shapes.map Shape.toJson).mapM Shape.ofJson? = some r.shapes :=
    mapM_map_eq_some fun shape hshape => Shape.ofJson?_toJson fun set hset =>
      h set (List.mem_append_right _ (List.mem_flatMap.2 ⟨shape, hshape, hset⟩))
  simp [toJson, ofJson?, ofFields?, Json.lookup, Json.looseBool?, Json.array?, hname, hfirst, hshapes]

end RuleSpec

namespace Settings

def sets (s : Settings) : List CharSet := s.rules.flatMap RuleSpec.sets

theorem ofJson?_toJson {s : Settings} (h : ∀ set ∈ s.sets, set.Written) : ofJson? s.toJson = some s := by
  have hrules : (s.rules.map RuleSpec.toJson).mapM RuleSpec.ofJson? = some s.rules :=
    mapM_map_eq_some fun rule hrule => RuleSpec.ofJson?_toJson fun set hset =>
      h set (List.mem_flatMap.2 ⟨rule, hrule, hset⟩)
  simp [toJson, ofJson?, Json.lookup, Json.object?, Json.array?, hrules]

example : ofJson? standard.toJson = some standard := by decide +kernel

end Settings

end Lexing
