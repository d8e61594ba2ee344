import Lexing.Proofs.Chain.Enclosed
import Lexing.Proofs.Matcher.FirstChars
import Lexing.Proofs.Settings.Rules

namespace Lexing

variable {κ : Type}

namespace Shape

def IsProper : Shape → Prop
  | .words _ list => list ≠ [] ∧ "" ∉ list
  | .bounded _ start stop none => start ≠ "" ∧ stop ≠ ""
  | .bounded _ start stop (some _) => start.toList.length = 1 ∧ stop.toList.length = 1
  | _ => True

def firstChars : Shape → CharSet
  | .words _ list => .ofList (list.filterMap fun word => word.toList.head?)
  | .chars _ set => set
  | .run _ set first => first.getD set
  | .identifier _ first _ _ => first
  | .bounded _ start _ _ => .ofList start.toList.head?.toList

instance : DecidablePred IsProper
  | .words _ list => inferInstanceAs (Decidable (list ≠ [] ∧ "" ∉ list))
  | .bounded _ start stop none => inferInstanceAs (Decidable (start ≠ "" ∧ stop ≠ ""))
  | .bounded _ start stop (some _) =>
    inferInstanceAs (Decidable (start.toList.length = 1 ∧ stop.toList.length = 1))
  | .chars .. | .run .. | .identifier .. => inferInstanceAs (Decidable True)

end Shape

def RuleSpec.IsProper (r : RuleSpec) : Prop := r.shapes ≠ [] ∧ ∀ s ∈ r.shapes, s.IsProper

theorem single?_eq_some_iff {s : String} {c : Char} : single? s = some c ↔ s.toList = [c] := by
  unfold single?
  split
  · next d h => simp [h]
  · next h => simpa using h c

theorem Delimiter.chars_ofString (s : String) : (ofString s).chars = s.toList := by
  unfold ofString
  split
  · next c h => exact (single?_eq_some_iff.1 h).symm
  · rfl

theorem Part.exists_bounded_iff {name : String} {start stop : Delimiter} :
    (∃ m : Matcher κ, (bounded name start stop).toMatcher = .ok m) ↔
      start.chars ≠ [] ∧ stop.chars ≠ [] := by
  constructor
  · rintro ⟨m, h⟩
    obtain ⟨o, ho, h⟩ := exists_of_bind_eq_ok h
    obtain ⟨e, he, -⟩ := exists_of_bind_eq_ok h
    exact ⟨Delimiter.exists_opening_iff.1 ⟨o, ho⟩, Delimiter.exists_closing_iff.1 ⟨e, he⟩⟩
  · rintro ⟨hstart, hstop⟩
    obtain ⟨o, ho⟩ : ∃ m : Matcher κ, start.opening (name ++ "-start") = .ok m :=
      Delimiter.exists_opening_iff.2 hstart
    obtain ⟨e, he⟩ : ∃ m : Matcher κ, stop.closing (name ++ "-end") = .ok m :=
      Delimiter.exists_closing_iff.2 hstop
    refine ⟨.opening name o e [], ?_⟩
    simp only [toMatcher, ho, he]
    rfl

namespace Shape

theorem exists_single?_iff {s : String} : (∃ c, single? s = some c) ↔ s.toList.length = 1 := by
  simp only [single?_eq_some_iff, List.length_eq_one_iff]

def toMatcher (s : Shape) : Except Error (Matcher κ) := s.toPart.bind Part.toMatcher

theorem isProper_iff (s : Shape) : s.IsProper ↔ ∃ m : Matcher κ, s.toMatcher = .ok m := by
  cases s with
  | words name list => exact Matcher.exists_words_iff.symm
  | bounded name start stop escape =>
    -- with an escape it is the part that cannot be made, without one it is the matcher for the part
    cases escape with
    | none =>
      change _ ↔ ∃ m : Matcher κ,
        (Part.bounded name (.ofString start) (.ofString stop)).toMatcher = .ok m
      simp only [Part.exists_bounded_iff, Delimiter.chars_ofString, ne_eq, String.toList_eq_nil_iff,
        IsProper]
    | some escape =>
      rw [IsProper, ← exists_single?_iff, ← exists_single?_iff]
      constructor
      · rintro ⟨⟨a, ha⟩, b, hb⟩
        simp only [toMatcher, toPart, ha, hb]
        exact ⟨_, rfl⟩
      · rintro ⟨m, hm⟩
        obtain ⟨p, hp, -⟩ := exists_of_bind_eq_ok hm
        simp only [toPart] at hp
        split at hp
        · next a b ha hb => exact ⟨⟨a, ha⟩, b, hb⟩
        · cases hp
  | _ => exact iff_of_true trivial ⟨_, rfl⟩

end Shape

variable [CustomMatcher κ]

theorem Matcher.firstChars_words {name : String} {rule : WordRule} {list : List String} {m : Matcher κ}
    (h : words name rule list = .ok m) :
    m.firstChars = some (.ofList (list.filterMap fun word => word.toList.head?)) := by
  rw [eq_of_words h, firstChars_mk]
  change some (CharSet.ofList ((list.map String.toList).filterMap List.head?)) = _
  rw [List.filterMap_map]
  rfl

theorem Delimiter.firstChars_eq {d : Delimiter} {name : String} {m : Matcher κ}
    (h : d.opening name = .ok m) : m.firstChars = some (.ofList d.chars.head?.toList) := by
  cases d with
  | char c =>
    cases h
    exact Matcher.firstChars_mk _
  | word s =>
    rw [Matcher.firstChars_words h, chars, List.filterMap_cons]
    cases s.toList <;> rfl

theorem Shape.firstChars_eq {s : Shape} {m : Matcher κ} (h : s.toMatcher = .ok m) :
    m.firstChars = some s.firstChars := by
  obtain ⟨p, hp, hm⟩ := exists_of_bind_eq_ok h
  cases s with
  | words name list =>
    cases hp
    exact Matcher.firstChars_words hm
  | bounded name start stop escape =>
    cases escape with
    | none =>
      cases hp
      obtain ⟨o, ho, hm⟩ := exists_of_bind_eq_ok hm
      obtain ⟨e, -, hm⟩ := exists_of_bind_eq_ok hm
      have heq : m = .opening name o e [] := Matcher.eq_of_chain hm
      rw [heq, Matcher.firstChars_opening_chain, Delimiter.firstChars_eq ho, Delimiter.chars_ofString]
      rfl
    | some escape =>
      simp only [toPart] at hp
      split at hp
      · next a b ha hb =>
        cases hp
        have heq : m = .opening name (.chars (name ++ "-start") (.one (.singleton a)))
            (.chars (name ++ "-end") (.upToUnescaped (.singleton b) (.singleton escape))) [] :=
          Matcher.eq_of_chain hm
        rw [heq, Matcher.firstChars_opening_chain, firstChars, single?_eq_some_iff.1 ha]
        exact Matcher.firstChars_mk _
      · cases hp
  | _ =>
    cases hp
    cases hm
    exact Matcher.firstChars_mk _

namespace TokenRule

variable {name : String} {compound : Bool} {firstChars : Option CharSet} {ms : List (Matcher κ)}

theorem make_eq_withFirstChars {sets : List CharSet}
    (h : List.Forall₂ (fun m set => m.firstChars = some set) ms sets) :
    make name compound firstChars ms =
      withFirstChars name compound (firstChars.getD (.join sets)) ms := by
  cases firstChars with
  | some chars => rfl
  | none =>
    rw [make, jointFirstChars_eq h]
    rfl

end TokenRule

namespace RuleSpec

variable {spec : RuleSpec} {r : TokenRule κ}

theorem toRule_eq_ok_iff : spec.toRule = .ok r ↔
    ∃ ms, spec.shapes.mapM Shape.toMatcher = .ok ms ∧
      TokenRule.withFirstChars spec.name spec.compound
        (spec.firstChars.getD (.join (spec.shapes.map Shape.firstChars))) ms = .ok r := by
  have hmake : ∀ {ms : List (Matcher κ)}, spec.shapes.mapM Shape.toMatcher = .ok ms →
      TokenRule.make spec.name spec.compound spec.firstChars ms =
        TokenRule.withFirstChars spec.name spec.compound
          (spec.firstChars.getD (.join (spec.shapes.map Shape.firstChars))) ms := by
    intro ms hms
    apply TokenRule.make_eq_withFirstChars
    rw [List.forall₂_map_right_iff]
    exact ((mapM_eq_ok_iff.1 hms).imp fun _ _ => Shape.firstChars_eq).flip
  constructor
  · intro h
    obtain ⟨ps, hps, h⟩ := exists_of_bind_eq_ok h
    obtain ⟨ms, hms, h⟩ := exists_of_bind_eq_ok h
    have hms := exists_mapM_mapM_iff.1 ⟨ps, hps, hms⟩
    exact ⟨ms, hms, (hmake hms).symm.trans h⟩
  · rintro ⟨ms, hms, h⟩
    obtain ⟨ps, hps, hps'⟩ := exists_mapM_mapM_iff.2 hms
    rw [toRule, hps]
    change TokenRule.ofParts _ _ _ ps = _
    rw [TokenRule.ofParts, hps']
    exact (hmake hms).trans h

theorem isProper_iff : spec.IsProper ↔ ∃ r : TokenRule κ, spec.toRule = .ok r := by
  constructor
  · rintro ⟨hsome, hproper⟩
    obtain ⟨ms, hms⟩ := exists_mapM_eq_ok_iff.2 fun s hs =>
      (Shape.isProper_iff (κ := κ) s).1 (hproper s hs)
    have hlength := (mapM_eq_ok_iff.1 hms).length_eq
    have hms' : ms ≠ [] := by
      rintro rfl
      exact hsome (List.length_eq_zero_iff.1 hlength)
    obtain ⟨r, hr, -⟩ := TokenRule.exists_withFirstChars spec.name spec.compound
      (spec.firstChars.getD (.join (spec.shapes.map Shape.firstChars))) hms'
    exact ⟨r, toRule_eq_ok_iff.2 ⟨ms, hms, hr⟩⟩
  · rintro ⟨r, h⟩
    obtain ⟨ms, hms, h⟩ := toRule_eq_ok_iff.1 h
    refine ⟨?_, fun s hs => (Shape.isProper_iff s).2 (exists_mapM_eq_ok_iff.1 ⟨ms, hms⟩ s hs)⟩
    intro hnil
    rw [hnil] at hms
    cases hms
    cases h

theorem spec_of_toRule (h : spec.toRule = .ok r) :
    r.name = spec.name ∧ r.compound = spec.compound ∧
      r.firstChars = spec.firstChars.getD (.join (spec.shapes.map Shape.firstChars)) := by
  obtain ⟨ms, -, h⟩ := toRule_eq_ok_iff.1 h
  exact TokenRule.fields_of_withFirstChars h

end RuleSpec

/-- Settings can be built just if they are proper: every rule has a shape, words are given and none of
them is empty, delimiters have characters, and just one where there is an escape. Each description then
gives one rule, in the same order, with its name, and compound if it says so. The rule begins its matches
with the given characters, or else with the first characters of its shapes. -/
theorem Settings.toRules_ok_iff (s : Settings) :
    ((∃ rules : List (TokenRule κ), s.toRules = .ok rules) ↔ ∀ spec ∈ s.rules, spec.IsProper) ∧
      ∀ rules : List (TokenRule κ), s.toRules = .ok rules → List.Forall₂ (fun spec r =>
        r.name = spec.name ∧ r.compound = spec.compound ∧
          r.firstChars = spec.firstChars.getD (.join (spec.shapes.map Shape.firstChars)))
        s.rules rules := by
  constructor
  · rw [toRules, exists_mapM_eq_ok_iff]
    exact forall₂_congr fun spec _ => RuleSpec.isProper_iff.symm
  · intro rules h
    exact (mapM_eq_ok_iff.1 h).imp fun _ _ hr => RuleSpec.spec_of_toRule hr

-- a delimiter of two characters goes with no escape
example : ¬(Shape.bounded "heredoc" "<<" ">" (some '\\')).IsProper := by decide

end Lexing
