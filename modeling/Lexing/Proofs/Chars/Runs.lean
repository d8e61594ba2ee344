import Mathlib.Computability.Language
import Lexing.Proofs.Matcher.Covers
import Lexing.Proofs.Matcher.FirstMatch

namespace Lexing

open scoped Computability

def CharSet.language (s : CharSet) : Language Char := {w | ∃ c, s.contains c = true ∧ w = [c]}

theorem CharSet.containsSome_iff {s : CharSet} {c? : Option Char} :
    s.containsSome c? = true ↔ ∃ c, c? = some c ∧ s.contains c = true := by
  cases c? <;> simp [containsSome]

def Stands (units : Language Char) (t : List Char) : Prop := ∃ u ∈ units, u ≠ [] ∧ u <+: t

def SuffixClosed (units : Language Char) : Prop := ∀ u ∈ units, ∀ v, v ≠ [] → v <:+ u → v ∈ units

section Units

variable {units : Language Char} {first : CharSet} {text w rest : List Char} {i j : Nat} {c : Char}

theorem not_stands_nil (units : Language Char) : ¬Stands units [] := by
  rintro ⟨u, -, hu, hprefix⟩
  exact hu (List.prefix_nil.1 hprefix)

theorem stands_of_mem_kstar (hclosed : SuffixClosed units) (h : w ∈ units∗) (rest : List Char) :
    ∀ k < w.length, Stands units ((w ++ rest).drop k) := by
  obtain ⟨parts, rfl, hunits⟩ := Language.mem_kstar.1 h
  clear h
  induction parts with
  | nil =>
    intro k hk
    cases hk
  | cons u parts ih =>
    obtain ⟨hu, hunits⟩ := List.forall_mem_cons.1 hunits
    intro k hk
    rw [List.flatten_cons, List.append_assoc]
    rcases Nat.lt_or_ge k u.length with hku | hku
    · have hne : u.drop k ≠ [] := by simpa [List.drop_eq_nil_iff] using hku
      rw [List.drop_append_of_le_length (Nat.le_of_lt hku)]
      exact ⟨_, hclosed u hu _ hne (List.drop_suffix k u), hne, List.prefix_append ..⟩
    · rw [List.drop_append, List.drop_eq_nil_of_le hku, List.nil_append]
      rw [List.flatten_cons, List.length_append] at hk
      exact ih hunits (k - u.length) (by omega)

theorem mem_kstar_of_stands (hclosed : SuffixClosed units) (hstop : ¬Stands units rest)
    (hstands : ∀ k < w.length, Stands units ((w ++ rest).drop k)) : w ∈ units∗ := by
  induction hn : w.length using Nat.strong_induction_on generalizing w with
  | h n ih =>
    rcases eq_or_ne w [] with rfl | hw
    · exact Language.nil_mem_kstar units
    obtain ⟨u, hu, hne, tail, htail⟩ := hstands 0 (List.length_pos_iff.2 hw)
    rcases List.append_eq_append_iff.1 htail with ⟨v, rfl, -⟩ | ⟨v, rfl, rfl⟩
    · have hlength : v.length < n := by
        have := List.length_pos_iff.2 hne
        simp only [List.length_append] at hn
        omega
      have hv : v ∈ units∗ := by
        refine ih v.length hlength (fun k hk => ?_) rfl
        have hk := hstands (u.length + k) (by simpa using hk)
        rwa [List.append_assoc, ← List.drop_drop, List.drop_left] at hk
      rw [← Language.one_add_self_mul_kstar_eq_kstar]
      exact .inr (Language.append_mem_mul hu hv)
    · rcases eq_or_ne v [] with rfl | hv
      · rw [List.append_nil] at hu
        exact Language.mem_kstar.2 ⟨[w], by simp, by simpa using hu⟩
      · have hsuffix := List.suffix_append w v
        exact absurd ⟨v, hclosed _ hu v hv hsuffix, hv, List.prefix_append v tail⟩ hstop

theorem mem_first_mul_iff {L : Language Char} : w ∈ first.language * L ↔
    ∃ c v, w = c :: v ∧ first.contains c = true ∧ v ∈ L := by
  rw [Language.mem_mul]
  constructor
  · rintro ⟨_, ⟨c, hc, rfl⟩, v, hv, rfl⟩
    exact ⟨c, v, rfl, hc, hv⟩
  · rintro ⟨c, v, rfl, hc, hv⟩
    exact ⟨[c], ⟨c, hc, rfl⟩, v, hv, rfl⟩

theorem isGreatest_run (hclosed : SuffixClosed units) (hc : text[i]? = some c)
    (hfirst : first.contains c = true)
    (hleast : IsLeast {e | i ≤ e ∧ e ≤ text.length ∧ i < e ∧ ¬Stands units (text.drop e)} j) :
    IsGreatest {n | i + n ≤ text.length ∧ slice text i (i + n) ∈ first.language * units∗} (j - i) := by
  obtain ⟨⟨-, hj, hij, hstop⟩, hnone⟩ := hleast
  have hstands : ∀ e, i < e → e < j → Stands units (text.drop e) := by
    intro e hie hej
    by_contra hstop
    exact Nat.not_le_of_lt hej (hnone ⟨Nat.le_of_lt hie, by omega, hie, hstop⟩)
  constructor
  · refine ⟨by omega, ?_⟩
    rw [Nat.add_sub_cancel' (Nat.le_of_lt hij), slice_cons hc hij]
    refine mem_first_mul_iff.2 ⟨c, _, rfl, hfirst, mem_kstar_of_stands hclosed hstop fun k hk => ?_⟩
    rw [length_slice hj] at hk
    rw [slice_append_drop hij, List.drop_drop]
    exact hstands _ (by omega) (by omega)
  · rintro n ⟨hn, hmem⟩
    by_contra hlt
    have hjn : j < i + n := by omega
    rw [slice_cons hc (Nat.lt_trans hij hjn)] at hmem
    obtain ⟨_, v, heq, -, hv⟩ := mem_first_mul_iff.1 hmem
    cases heq
    have hlength : j - (i + 1) < (slice text (i + 1) (i + n)).length := by
      rw [length_slice hn]
      omega
    have hunit := stands_of_mem_kstar hclosed hv (text.drop (i + n)) _ hlength
    rw [slice_append_drop (by omega), List.drop_drop, Nat.add_sub_cancel' hij] at hunit
    exact hstop hunit

end Units

namespace CharRule

inductive Runs (first : CharSet) : CharRule → Language Char → Prop
  | run (body : CharSet) : Runs first (.run first body) body.language
  | identifier (body : CharSet) (separator : Char) :
      Runs first (.identifier first body separator) ((1 + {[separator]}) * body.language)

def goesOn : CharRule → List Char → Bool
  | .run _ body, t => body.containsSome t[0]?
  | .identifier _ body separator, t =>
    body.containsSome t[0]? || (t[0]? = some separator && body.containsSome t[1]?)
  | _, _ => false

variable {first body : CharSet} {separator : Char} {rule : CharRule} {units : Language Char}
  {w : List Char}

theorem mem_separated_iff : w ∈ (1 + {[separator]}) * body.language ↔
    ∃ c, body.contains c = true ∧ (w = [c] ∨ w = [separator, c]) := by
  rw [Language.mem_mul]
  constructor
  · rintro ⟨_, rfl | rfl, _, ⟨c, hc, rfl⟩, rfl⟩
    · exact ⟨c, hc, .inl rfl⟩
    · exact ⟨c, hc, .inr rfl⟩
  · rintro ⟨c, hc, rfl | rfl⟩
    · exact ⟨[], .inl rfl, [c], ⟨c, hc, rfl⟩, rfl⟩
    · exact ⟨[separator], .inr rfl, [c], ⟨c, hc, rfl⟩, rfl⟩

theorem Runs.suffixClosed (h : Runs first rule units) : SuffixClosed units := by
  intro u hu v hv hsuffix
  cases h with
  | run body =>
    obtain ⟨c, hc, rfl⟩ := hu
    rcases List.suffix_cons_iff.1 hsuffix with rfl | hnil
    · exact ⟨c, hc, rfl⟩
    · exact absurd (List.suffix_nil.1 hnil) hv
  | identifier body separator =>
    obtain ⟨c, hc, rfl | rfl⟩ := mem_separated_iff.1 hu
    · rcases List.suffix_cons_iff.1 hsuffix with rfl | hnil
      · exact hu
      · exact absurd (List.suffix_nil.1 hnil) hv
    · rcases List.suffix_cons_iff.1 hsuffix with rfl | hsuffix
      · exact hu
      · rcases List.suffix_cons_iff.1 hsuffix with rfl | hnil
        · exact mem_separated_iff.2 ⟨c, hc, .inl rfl⟩
        · exact absurd (List.suffix_nil.1 hnil) hv

theorem singleton_prefix_iff {t : List Char} {c : Char} : [c] <+: t ↔ t[0]? = some c := by
  cases t <;> simp [eq_comm]

theorem pair_prefix_iff {t : List Char} {c d : Char} :
    [c, d] <+: t ↔ t[0]? = some c ∧ t[1]? = some d := by
  cases t with
  | nil => simp
  | cons e rest => simp [singleton_prefix_iff, List.cons_prefix_cons, eq_comm]

theorem Runs.goesOn_iff (h : Runs first rule units) (t : List Char) :
    rule.goesOn t = true ↔ Stands units t := by
  cases h with
  | run body =>
    rw [goesOn, CharSet.containsSome_iff]
    constructor
    · rintro ⟨c, ht, hc⟩
      exact ⟨[c], ⟨c, hc, rfl⟩, List.cons_ne_nil c [], singleton_prefix_iff.2 ht⟩
    · rintro ⟨_, ⟨c, hc, rfl⟩, -, hprefix⟩
      exact ⟨c, singleton_prefix_iff.1 hprefix, hc⟩
  | identifier body separator =>
    rw [goesOn, Bool.or_eq_true, Bool.and_eq_true, decide_eq_true_iff,
      CharSet.containsSome_iff, CharSet.containsSome_iff]
    constructor
    · rintro (⟨c, ht, hc⟩ | ⟨hseparator, c, ht, hc⟩)
      · exact ⟨[c], mem_separated_iff.2 ⟨c, hc, .inl rfl⟩, List.cons_ne_nil c [],
          singleton_prefix_iff.2 ht⟩
      · exact ⟨[separator, c], mem_separated_iff.2 ⟨c, hc, .inr rfl⟩, List.cons_ne_nil separator [c],
          pair_prefix_iff.2 ⟨hseparator, ht⟩⟩
    · rintro ⟨u, hu, -, hprefix⟩
      obtain ⟨c, hc, rfl | rfl⟩ := mem_separated_iff.1 hu
      · exact .inl ⟨c, singleton_prefix_iff.1 hprefix, hc⟩
      · obtain ⟨hseparator, ht⟩ := pair_prefix_iff.1 hprefix
        exact .inr ⟨hseparator, c, ht, hc⟩

end CharRule

namespace CharMatcher

variable {first : CharSet} {units : Language Char} {text : List Char} {i j : Nat} {m : CharMatcher}
  {c : Char}

structure Runs (rule : CharRule) (text : List Char) (i j : Nat) (m : CharMatcher) : Prop where
  rule_eq : m.rule = rule
  live : m.progress.failed = false
  covers : m.progress.Covers text i j
  complete_iff : m.progress.complete = true ↔ i < j ∧ rule.goesOn (text.drop j) = false

theorem accept_of_runs (hruns : CharRule.Runs first m.rule units) (hopen : m.progress.complete = false)
    (hc : text[j]? = some c) :
    m.accept c (.past text (j + 1)) =
      if (if m.progress.taken = [] then first.contains c else m.rule.goesOn (text.drop j)) then
        ⟨true,
          { m with
            progress := m.progress.pushAs (!m.rule.goesOn (text.drop (j + 1))) c
              (Cursor.past text (j + 1)).position },
          .past text (j + 1)⟩
      else ⟨false, m, .past text (j + 1)⟩ := by
  have hj := (List.getElem?_eq_some_iff.1 hc).1
  have hpeek : ∀ k, (Cursor.past text (j + 1)).peekNth k = text[j + 1 + k]? := by
    intro k
    rw [Cursor.peekNth_past, Nat.min_eq_left hj]
  obtain ⟨name, rule, progress, escaped⟩ := m
  cases hruns with
  | run body =>
    have hopen : progress.complete = false := hopen
    simp only [accept, acceptRun, hopen, Cursor.peek, hpeek, CharRule.goesOn, List.getElem?_drop, hc,
      CharSet.containsSome, Option.any_some, Nat.add_zero]
    have hfits : (if progress.taken = [] then first else body).contains c =
        if progress.taken = [] then first.contains c else body.contains c := by split <;> rfl
    rw [hfits]
    generalize (if progress.taken = [] then first.contains c else body.contains c) = fits
    cases fits <;> rfl
  | identifier body separator =>
    have hopen : progress.complete = false := hopen
    simp only [accept, acceptIdentifier, hopen, Cursor.peek, hpeek, CharRule.goesOn, List.getElem?_drop,
      hc, CharSet.containsSome, Option.any_some, Nat.add_zero, Option.some.injEq]
    generalize (if progress.taken = [] then first.contains c else _) = fits
    cases fits <;> rfl

namespace Runs

variable {rule : CharRule}

theorem new (name : String) (rule : CharRule) (text : List Char) (i : Nat) :
    ({ name, rule } : CharMatcher).Runs rule text i i where
  rule_eq := rfl
  live := rfl
  covers := Progress.covers_empty text i
  complete_iff := by simp

theorem accept (h : m.Runs rule text i j) (hruns : CharRule.Runs first rule units)
    (hfirst : first.containsSome text[i]? = true) (hopen : m.progress.complete = false)
    (hc : text[j]? = some c) :
    (m.accept c (.past text (j + 1))).accepted = true ∧
      (m.accept c (.past text (j + 1))).state.Runs rule text i (j + 1) := by
  obtain rfl := h.rule_eq
  have hj := (List.getElem?_eq_some_iff.1 hc).1
  have hij := h.covers.le
  have hfits : (if m.progress.taken = [] then first.contains c else m.rule.goesOn (text.drop j)) =
      true := by
    split
    · next hnil =>
      obtain rfl := (h.covers.taken_eq_nil_iff (Nat.le_of_lt hj)).1 hnil
      simpa [hc, CharSet.containsSome] using hfirst
    · next hne =>
      have hij := Nat.lt_of_le_of_ne hij (mt (h.covers.taken_eq_nil_iff (Nat.le_of_lt hj)).2 hne)
      by_contra hstop
      have hcomplete := h.complete_iff.2 ⟨hij, Bool.eq_false_iff.2 hstop⟩
      rw [hopen] at hcomplete
      cases hcomplete
  rw [accept_of_runs hruns hopen hc, if_pos hfits]
  refine ⟨rfl, rfl, h.live, h.covers.pushAs hc _, ?_⟩
  simp [Progress.pushAs, Nat.lt_succ_of_le hij]

end Runs

end CharMatcher

namespace Matcher

variable {κ : Type} [CustomMatcher κ] {first : CharSet} {rule : CharRule} {units : Language Char}
  {text : List Char} {i : Nat}

theorem follows_runs (hruns : CharRule.Runs first rule units)
    (hfirst : first.containsSome text[i]? = true) (name : String) :
    Follows (fun j s => ∃ m, s = mk (.chars m) ∧ m.Runs rule text i j)
      (fun j => i < j ∧ ¬Stands units (text.drop j)) text (chars name rule : Matcher κ) i where
  start := ⟨_, rfl, .new name rule text i⟩
  waiting := rfl
  accept := by
    rintro j _ c hij ⟨m, rfl, hm⟩ hwaiting hc
    have hopen := (Progress.isComplete_of_live hm.live).symm.trans hwaiting
    obtain ⟨htaken, hm⟩ := hm.accept hruns hfirst hopen hc
    rw [accept_mk]
    exact ⟨htaken, _, rfl, hm⟩
  isComplete_iff := by
    rintro j _ - ⟨m, rfl, hm⟩
    change m.progress.isComplete = true ↔ _
    rw [Progress.isComplete_of_live hm.live, hm.complete_iff, ← hruns.goesOn_iff, Bool.not_eq_true]

theorem feed_of_not_first (hruns : CharRule.Runs first rule units)
    (hfirst : ¬first.containsSome text[i]? = true) (name : String) :
    (feed text (chars name rule : Matcher κ) i).1.isComplete = false := by
  cases hc : text[i]? with
  | none =>
    rw [feed_of_none hc]
    rfl
  | some c =>
    have haccept := CharMatcher.accept_of_runs (m := { name, rule }) hruns rfl hc
    rw [if_pos rfl, if_neg (by simpa [hc, CharSet.containsSome] using hfirst)] at haccept
    rw [chars, feed_of_refused hc, state_accept_mk, Layer.accept, haccept]
    · rfl
    · rw [accept_mk, Layer.accept, haccept]
      rfl

/-- Reading from offset `i` on is complete where a character of `first` stands, and has then read the
longest piece of text that is a word of the language. -/
def ReadsLongest (m : Matcher κ) (first : CharSet) (words : Language Char) (text : List Char) (i : Nat) :
    Prop :=
  let r := m.read (.past text i)
  (r.2.1.isComplete = true ↔ first.containsSome text[i]? = true) ∧
    (r.2.1.isComplete = true →
      IsGreatest {n | i + n ≤ text.length ∧ slice text i (i + n) ∈ words} r.1 ∧
      r.2.2 = .past text (i + r.1) ∧
      r.2.1.text = slice text i (i + r.1) ∧
      r.2.1.span = some ⟨(Cursor.ofList text).positionAt i,
        (Cursor.ofList text).positionAt (i + r.1 - 1)⟩)

theorem readsLongest_of_runs [LawfulCursor κ] (hruns : CharRule.Runs first rule units) (name : String)
    (text : List Char) (i : Nat) :
    ReadsLongest (chars name rule : Matcher κ) first (first.language * units∗) text i := by
  simp only [ReadsLongest, read_past]
  by_cases hfirst : first.containsSome text[i]? = true
  · obtain ⟨c, hc, hcontains⟩ := CharSet.containsSome_iff.1 hfirst
    have hi := (List.getElem?_eq_some_iff.1 hc).1
    have hfeed := (follows_runs (κ := κ) hruns hfirst name).feed
      (by rintro j _ ⟨m, rfl, hm⟩; exact hm.live) (Nat.le_of_lt hi)
    generalize feed text (chars name rule : Matcher κ) i = fed at hfeed ⊢
    obtain ⟨s, j⟩ := fed
    obtain ⟨⟨m, rfl, hm⟩, hleast, hnone⟩ := hfeed
    have hcomplete : (mk (.chars m) : Matcher κ).isComplete = true := by
      by_contra hwaiting
      refine hnone (Bool.eq_false_iff.2 hwaiting) text.length (Nat.le_of_lt hi) (Nat.le_refl _) ⟨hi, ?_⟩
      rw [List.drop_length]
      exact not_stands_nil units
    have hleast := hleast hcomplete
    have hij : i < j := hleast.1.2.2.1
    rw [iff_true_right hfirst, Nat.add_sub_cancel' (Nat.le_of_lt hij)]
    refine ⟨hcomplete, fun _ => ⟨isGreatest_run hruns.suffixClosed hc hcontains hleast, rfl, ?_, ?_⟩⟩
    · exact hm.covers.text_eq
    · exact hm.covers.span_eq hij ((Progress.isComplete_of_live hm.live).symm.trans hcomplete)
  · have hwaiting := feed_of_not_first (κ := κ) hruns hfirst name
    simp [hwaiting, hfirst]

/-- Runs and identifiers take the longest match, whatever their sets have in common with each other or
with the separator. -/
theorem reads_longest [LawfulCursor κ] (name : String) (first body : CharSet) (separator : Char)
    (text : List Char) (i : Nat) :
    ReadsLongest (chars name (.run first body) : Matcher κ) first
      (first.language * body.language∗) text i ∧
    ReadsLongest (chars name (.identifier first body separator) : Matcher κ) first
      (first.language * ((1 + {[separator]}) * body.language)∗) text i :=
  ⟨readsLongest_of_runs (.run body) name text i,
    readsLongest_of_runs (.identifier body separator) name text i⟩

theorem reads_longest_dotted :
    let letters := CharSet.range 'a' 'c'
    let m : Matcher Empty := chars "name" (.identifier letters letters '.')
    let text := "a.b..c".toList
    (m.read (.past text 0)).2.1.isComplete = true ∧ (m.read (.past text 0)).1 = 3 ∧
      ReadsLongest m letters (letters.language * ((1 + {['.']}) * letters.language)∗) text 0 := by
  -- the second dot of `a.b..c` ends the identifier
  intro letters m text
  exact ⟨by decide +kernel, by decide +kernel, (reads_longest "name" letters letters '.' text 0).2⟩

end Matcher

end Lexing
