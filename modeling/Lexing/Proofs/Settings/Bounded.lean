import Lexing.Proofs.Settings.Rules
import Lexing.Proofs.Tokenizer.Wide
import Lexing.Settings.Default

namespace Lexing

variable {κ : Type} [CustomMatcher κ] [LawfulCopy κ] [LawfulCursor κ] {rules : List (TokenRule κ)}

namespace Settings

omit [LawfulCopy κ] in
theorem wideRules_of_isBounded {s : Settings} (h : s.toRules = .ok rules)
    (hbounded : ∀ spec ∈ s.rules, spec.compound = true → ∀ shape ∈ spec.shapes, shape.isBounded = true) :
    WideRules rules := by
  intro r hr hcompound
  obtain ⟨spec, hspec, htoRule⟩ := exists_of_mem_toRules h hr
  obtain ⟨hplain, -, hsame⟩ := RuleSpec.isPlain_of_toRule htoRule
  obtain ⟨parts, hparts, hfrom⟩ := RuleSpec.parts_of_toRule htoRule
  rw [hplain.copy_prototype]
  refine TokenRule.wide_of_ofParts hparts fun p hp => ?_
  obtain ⟨-, shape, hshape, heq⟩ := hfrom p hp
  rw [heq]
  exact hbounded spec hspec (hsame ▸ hcompound) shape hshape

/-- No text fails, nor any one of a sequence of texts, if all shapes of the compound rules are bounded:
whatever their delimiters, and with or without an escape. -/
theorem tokenizeAll_ok_of_isBounded {s : Settings} {t : Tokenizer κ} (h : s.tokenizer = .ok t)
    (hbounded : ∀ spec ∈ s.rules, spec.compound = true → ∀ shape ∈ spec.shapes, shape.isBounded = true)
    (texts : List String) : ∀ scan ∈ t.tokenizeAll texts, ∃ tokens, scan.result = .ok tokens := by
  obtain ⟨rules, hrules, rfl⟩ := exists_of_map_eq_ok h
  exact Tokenizer.tokenizeAll_ok_of_wide (fun r hr => (built_of_toRules hrules hr).ready)
    (wideRules_of_isBounded hrules hbounded) texts

theorem tokenizeAll_ok_of_isBounded_standard :
    let texts := ["f(a[1])", "((/*)*/)", "]\x7b)"]
    (∀ spec ∈ standard.rules, spec.compound = true → ∀ shape ∈ spec.shapes, shape.isBounded = true) ∧
      ∃ t : Tokenizer Empty, standard.tokenizer = .ok t ∧
        ∀ scan ∈ t.tokenizeAll texts, ∃ tokens, scan.result = .ok tokens := by
  -- in the second text all matches of the group that are open miss the bracket that a comment has
  -- taken, and the third text begins with a bracket that closes nothing
  have hbounded : ∀ spec ∈ standard.rules, spec.compound = true →
      ∀ shape ∈ spec.shapes, shape.isBounded = true := by decide +kernel
  have hsome : (standard.tokenizer : Except Error (Tokenizer Empty)).toOption.isSome = true := by
    decide +kernel
  obtain ⟨t, ht⟩ := Option.isSome_iff_exists.1 hsome
  have ht := eq_ok_of_toOption ht
  exact ⟨hbounded, t, ht, tokenizeAll_ok_of_isBounded ht hbounded _⟩

end Settings

end Lexing
