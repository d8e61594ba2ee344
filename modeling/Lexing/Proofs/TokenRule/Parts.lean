import Lexing.Proofs.Chain.Bracket
import Lexing.Proofs.Scanner.Pool
import Lexing.TokenRule.Part

namespace Lexing

theorem WordMatcher.eq_of_make {name : String} {rule : WordRule} {words : List String}
    {m : WordMatcher} (h : make name rule words = .ok m) :
    m = { name, rule, words := words.map String.toList } := by
  simp only [make] at h
  split at h
  · cases h
  · cases h
    rfl

variable {κ : Type}

namespace Matcher

theorem eq_of_words {name : String} {rule : WordRule} {list : List String} {m : Matcher κ}
    (h : words name rule list = .ok m) :
    m = mk (.words { name, rule, words := list.map String.toList }) := by
  obtain ⟨w, hw, rfl⟩ := exists_of_map_eq_ok h
  rw [WordMatcher.eq_of_make hw]

theorem eq_of_chain {name : String} {rule : ChainRule} {groups : List (List (Matcher κ))}
    {m : Matcher κ} (h : chain name rule groups false = .ok m) :
    m = mk (.chain { name, rule, groups }) := by
  obtain ⟨s, hs, rfl⟩ := exists_of_map_eq_ok h
  rw [(Chain.eq_of_make hs).1]

theorem eq_of_choice {name : String} {rule : ChoiceRule} {members : List (Matcher κ)} {m : Matcher κ}
    (h : choice name rule members = .ok m) :
    m = mk (.choice { name, rule, members }) := by
  obtain ⟨s, hs, rfl⟩ := exists_of_map_eq_ok h
  rw [Choice.make] at hs
  split at hs
  · cases hs
  · cases hs
    rfl

theorem delimited_of_choice {name : String} {members : List (Matcher κ)} {m : Matcher κ}
    (h : choice name .any members = .ok m) : m.Delimited := by
  rw [eq_of_choice h]
  exact .choice rfl rfl

end Matcher

variable [CustomMatcher κ]

namespace Delimiter

variable {d : Delimiter} {name : String} {m : Matcher κ}

theorem strict_of_opening (h : d.opening name = .ok m) :
    m.Made ∧ ∃ l : Layer κ (Matcher κ), m = .mk l ∧ l.Strict ∧ l.progress? = some {} := by
  cases d with
  | char c =>
    cases h
    exact ⟨.chars _ _, _, rfl, ⟨_, rfl⟩, rfl⟩
  | word s => exact ⟨.words h, _, Matcher.eq_of_words h, nofun, rfl⟩

theorem progress?_of_closing (h : d.closing name = .ok m) :
    m.Made ∧ ∃ l : Layer κ (Matcher κ), m = .mk l ∧ l.progress? = some {} := by
  cases d with
  | char c =>
    cases h
    exact ⟨.chars _ _, _, rfl, rfl⟩
  | word s => exact ⟨.words h, _, Matcher.eq_of_words h, rfl⟩

end Delimiter

namespace Part

def isBounded : Part κ → Bool
  | .bounded .. => true
  | .boundedUnescaped .. => true
  | _ => false

def isPlain : Part κ → Bool
  | .matcher _ => false
  | _ => true

variable {p : Part κ} {m : Matcher κ}

theorem made_delimited_of_isBounded (hp : p.isBounded = true) (h : p.toMatcher = .ok m) :
    m.Made ∧ m.Delimited := by
  have hchain : ∀ {name : String} {o e : Matcher κ}, o.Made → e.Made →
      Matcher.chain name .inOrder [[o, e]] false = .ok m → m.Made := by
    intro name o e ho he h
    refine .chain ?_ h
    simp only [List.forall_mem_cons]
    exact ⟨⟨ho, he, by simp⟩, by simp⟩
  cases p with
  | bounded name start stop =>
    obtain ⟨o, ho, h⟩ := exists_of_bind_eq_ok h
    obtain ⟨e, he, h⟩ := exists_of_bind_eq_ok h
    obtain ⟨homade, l, rfl, hl, hprogress⟩ := Delimiter.strict_of_opening ho
    obtain ⟨hemade, l', rfl, hprogress'⟩ := Delimiter.progress?_of_closing he
    refine ⟨hchain homade hemade h, ?_⟩
    rw [Matcher.eq_of_chain h]
    exact .chain hl hprogress hprogress'
  | boundedUnescaped name start escape stop =>
    refine ⟨hchain (.chars _ _) (.chars _ _) h, ?_⟩
    rw [Matcher.eq_of_chain h]
    exact .chain ⟨_, rfl⟩ rfl rfl
  | _ => cases hp

omit [CustomMatcher κ] in
theorem chain_of_isBounded (hp : p.isBounded = true) (h : p.toMatcher = .ok m) :
    ∃ G, m = .mk (.chain G) := by
  cases p with
  | bounded name start stop =>
    obtain ⟨o, -, h⟩ := exists_of_bind_eq_ok h
    obtain ⟨e, -, h⟩ := exists_of_bind_eq_ok h
    exact ⟨_, Matcher.eq_of_chain h⟩
  | boundedUnescaped name start escape stop => exact ⟨_, Matcher.eq_of_chain h⟩
  | _ => cases hp

theorem made_plain_of_isPlain (hp : p.isPlain = true) (h : p.toMatcher = .ok m) :
    m.Made ∧ m.Plain := by
  cases p with
  | bounded name start stop => exact (made_delimited_of_isBounded rfl h).imp_right .inl
  | boundedUnescaped name start escape stop =>
    exact (made_delimited_of_isBounded rfl h).imp_right .inl
  | words name list => exact ⟨.words h, .inr ⟨_, Matcher.eq_of_words h, rfl⟩⟩
  | matcher m => cases hp
  | _ =>
    cases h
    exact ⟨.chars _ _, .inr ⟨_, rfl, rfl⟩⟩

end Part

namespace TokenRule

def IsPlain (r : TokenRule κ) : Prop :=
  ∃ name compound firstChars parts, ofParts name compound firstChars parts = .ok r ∧
    ∀ p ∈ parts, p.isPlain = true

def IsBounded (r : TokenRule κ) : Prop :=
  ∃ name compound firstChars parts, ofParts name compound firstChars parts = .ok r ∧
    (∀ p ∈ parts, p.isPlain = true) ∧ ∃ p ∈ parts, p.isBounded = true

theorem IsBounded.isPlain {r : TokenRule κ} (h : r.IsBounded) : r.IsPlain := by
  obtain ⟨name, compound, firstChars, parts, h, hplain, -⟩ := h
  exact ⟨name, compound, firstChars, parts, h, hplain⟩

omit [CustomMatcher κ] in
theorem prototype_of_withFirstChars {name : String} {compound : Bool} {firstChars : CharSet}
    {ms : List (Matcher κ)} {r : TokenRule κ}
    (h : withFirstChars name compound firstChars ms = .ok r) :
    ms = [r.prototype] ∨ Matcher.choice name .any ms = .ok r.prototype := by
  simp only [withFirstChars] at h
  split at h
  · cases h
  · cases h
    exact .inl rfl
  · obtain ⟨m, hm, rfl⟩ := exists_of_map_eq_ok h
    exact .inr hm

theorem withFirstChars_of_make {name : String} {compound : Bool} {firstChars : Option CharSet}
    {ms : List (Matcher κ)} {r : TokenRule κ} (h : make name compound firstChars ms = .ok r) :
    ∃ chars, withFirstChars name compound chars ms = .ok r := by
  cases firstChars with
  | some chars => exact ⟨chars, h⟩
  | none =>
    obtain ⟨chars, -, h⟩ := exists_of_bind_eq_ok h
    exact ⟨chars, h⟩

theorem prototype_of_ofParts {name : String} {compound : Bool} {firstChars : Option CharSet}
    {parts : List (Part κ)} {r : TokenRule κ} (h : ofParts name compound firstChars parts = .ok r) :
    ∃ ms, (∀ m ∈ ms, ∃ p ∈ parts, p.toMatcher = .ok m) ∧
      (∀ p ∈ parts, ∃ m ∈ ms, p.toMatcher = .ok m) ∧
      (ms = [r.prototype] ∨ Matcher.choice name .any ms = .ok r.prototype) := by
  obtain ⟨ms, hms, h⟩ := exists_of_bind_eq_ok h
  obtain ⟨hfrom, hto⟩ := exists_of_mapM_eq_ok hms
  obtain ⟨chars, h⟩ := withFirstChars_of_make h
  exact ⟨ms, hfrom, hto, prototype_of_withFirstChars h⟩

variable {r : TokenRule κ}

theorem IsPlain.copy_prototype (h : r.IsPlain) : r.prototype.copy = r.prototype := by
  obtain ⟨name, compound, firstChars, parts, h, hplain⟩ := h
  obtain ⟨ms, hfrom, -, hprototype⟩ := prototype_of_ofParts h
  have hmade : ∀ m ∈ ms, m.Made := by
    intro m hm
    obtain ⟨p, hp, hpm⟩ := hfrom m hm
    exact (Part.made_plain_of_isPlain (hplain p hp) hpm).1
  rcases hprototype with rfl | hchoice
  · exact (hmade r.prototype (List.mem_singleton_self _)).copy_eq
  · exact (Matcher.Made.choice hmade hchoice).copy_eq

theorem IsPlain.plain (h : r.IsPlain) : r.prototype.Plain := by
  obtain ⟨name, compound, firstChars, parts, h, hplain⟩ := h
  obtain ⟨ms, hfrom, -, rfl | hchoice⟩ := prototype_of_ofParts h
  · obtain ⟨p, hp, hpm⟩ := hfrom r.prototype (List.mem_singleton_self _)
    exact (Part.made_plain_of_isPlain (hplain p hp) hpm).2
  · exact .inl (Matcher.delimited_of_choice hchoice)

theorem IsBounded.delimited (h : r.IsBounded) : r.prototype.Delimited := by
  obtain ⟨name, compound, firstChars, parts, h, -, p, hp, hbounded⟩ := h
  obtain ⟨ms, -, hto, rfl | hchoice⟩ := prototype_of_ofParts h
  · obtain ⟨m, hm, hpm⟩ := hto p hp
    obtain rfl := List.mem_singleton.1 hm
    exact (Part.made_delimited_of_isBounded hbounded hpm).2
  · exact Matcher.delimited_of_choice hchoice

end TokenRule

end Lexing
