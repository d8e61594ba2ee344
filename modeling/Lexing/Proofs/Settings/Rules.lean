import Lexing.Proofs.TokenRule.Parts
import Lexing.Settings

namespace Lexing

variable {κ : Type}

namespace Shape

def isBounded : Shape → Bool
  | .bounded .. => true
  | _ => false

theorem isPlain_of_toPart {s : Shape} {p : Part κ} (h : s.toPart = .ok p) :
    p.isPlain = true ∧ p.isBounded = s.isBounded := by
  cases s with
  | bounded name start stop escape =>
    cases escape with
    | none =>
      cases h
      exact ⟨rfl, rfl⟩
    | some escape =>
      simp only [toPart] at h
      split at h
      · cases h
        exact ⟨rfl, rfl⟩
      · cases h
  | _ =>
    cases h
    exact ⟨rfl, rfl⟩

end Shape

theorem TokenRule.fields_of_withFirstChars {name : String} {compound : Bool} {firstChars : CharSet}
    {ms : List (Matcher κ)} {r : TokenRule κ}
    (h : withFirstChars name compound firstChars ms = .ok r) :
    r.name = name ∧ r.compound = compound ∧ r.firstChars = firstChars := by
  simp only [withFirstChars] at h
  split at h
  · cases h
  · cases h
    exact ⟨rfl, rfl, rfl⟩
  · obtain ⟨m, -, rfl⟩ := exists_of_map_eq_ok h
    exact ⟨rfl, rfl, rfl⟩

variable [CustomMatcher κ]

theorem RuleSpec.parts_of_toRule {spec : RuleSpec} {r : TokenRule κ} (h : spec.toRule = .ok r) :
    ∃ parts, TokenRule.ofParts spec.name spec.compound spec.firstChars parts = .ok r ∧
      ∀ p ∈ parts, p.isPlain = true ∧ ∃ s ∈ spec.shapes, p.isBounded = s.isBounded := by
  obtain ⟨parts, hparts, h⟩ := exists_of_bind_eq_ok h
  refine ⟨parts, h, fun p hp => ?_⟩
  obtain ⟨s, hs, hsp⟩ := (exists_of_mapM_eq_ok hparts).1 p hp
  obtain ⟨hplain, hbounded⟩ := Shape.isPlain_of_toPart hsp
  exact ⟨hplain, s, hs, hbounded⟩

theorem RuleSpec.isPlain_of_toRule {spec : RuleSpec} {r : TokenRule κ} (h : spec.toRule = .ok r) :
    r.IsPlain ∧ r.Built ∧ r.compound = spec.compound := by
  obtain ⟨parts, h, hparts⟩ := parts_of_toRule h
  refine ⟨⟨_, _, _, parts, h, fun p hp => (hparts p hp).1⟩, ?_, ?_⟩
  · obtain ⟨ms, -, h⟩ := exists_of_bind_eq_ok h
    exact ⟨_, _, _, ms, h⟩
  · obtain ⟨ms, -, h⟩ := exists_of_bind_eq_ok h
    obtain ⟨chars, h⟩ := TokenRule.withFirstChars_of_make h
    exact (TokenRule.fields_of_withFirstChars h).2.1

namespace Settings

variable {s : Settings} {rules : List (TokenRule κ)} (h : s.toRules = .ok rules)
include h

theorem exists_of_mem_toRules {r : TokenRule κ} (hr : r ∈ rules) :
    ∃ spec ∈ s.rules, spec.toRule = .ok r :=
  (exists_of_mapM_eq_ok h).1 r hr

theorem isPlain_of_toRules {r : TokenRule κ} (hr : r ∈ rules) : r.IsPlain := by
  obtain ⟨spec, -, hspec⟩ := exists_of_mem_toRules h hr
  exact (RuleSpec.isPlain_of_toRule hspec).1

theorem built_of_toRules {r : TokenRule κ} (hr : r ∈ rules) : r.Built := by
  obtain ⟨spec, -, hspec⟩ := exists_of_mem_toRules h hr
  exact (RuleSpec.isPlain_of_toRule hspec).2.1

theorem map_compound_toRules : rules.map TokenRule.compound = s.rules.map RuleSpec.compound := by
  have hmap := map_eq_of_mapM_eq_ok h
  clear h
  generalize s.rules = specs at hmap
  induction specs generalizing rules with
  | nil =>
    rw [List.map_eq_nil_iff.1 hmap.symm]
    rfl
  | cons spec rest ih =>
    obtain ⟨r, rules', rfl, hr, hrest⟩ := List.map_eq_cons_iff.1 hmap.symm
    rw [List.map_cons, List.map_cons, ih hrest.symm, (RuleSpec.isPlain_of_toRule hr.symm).2.2]

end Settings

end Lexing
