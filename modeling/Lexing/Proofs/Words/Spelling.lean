import Lexing.Proofs.Matcher.Covers
import Lexing.Proofs.Words.Held
import Lexing.Proofs.Words.UpTo

namespace Lexing

namespace WordMatcher

def Admits (rule : WordRule) (words : List (List Char)) (w : List Char) : Prop :=
  Begins words w ∧ (rule = .shortest → ∀ word ∈ words, word <+: w → word = w)

structure Spelling (rule : WordRule) (words : List (List Char)) (text : List Char) (i j : Nat)
    (m : WordMatcher) : Prop where
  rule_eq : m.rule = rule
  holds : m.Holds words (slice text i j)
  covers : m.progress.Covers text i j
  admits : Admits rule words (slice text i j)

variable {κ : Type} [CustomMatcher κ] {rule : WordRule} {words : List (List Char)}
  {held text w : List Char} {i j : Nat} {m : WordMatcher} {c : Char}

theorem admits_nil (hsome : words ≠ []) (rule : WordRule) : Admits rule words [] :=
  ⟨.nil hsome, fun _ _ _ => List.prefix_nil.1⟩

theorem admits_concat_iff : Admits rule words (w ++ [c]) ↔
    Admits rule words w ∧ (rule = .shortest → w ∉ words) ∧ Begins words (w ++ [c]) := by
  constructor
  · rintro ⟨hbegins, hfirst⟩
    have hnone : rule = .shortest → ∀ word ∈ words, ¬word <+: w := by
      intro hrule word hword hfront
      have heq := hfirst hrule word hword (hfront.trans (List.prefix_append w [c]))
      have hle := hfront.length_le
      rw [heq, List.length_append, List.length_singleton] at hle
      exact Nat.not_succ_le_self _ hle
    refine ⟨⟨hbegins.of_prefix (List.prefix_append w [c]), fun hrule word hword hfront => ?_⟩,
      fun hrule hword => hnone hrule w hword (List.prefix_refl w), hbegins⟩
    exact absurd hfront (hnone hrule word hword)
  · rintro ⟨⟨-, hfirst⟩, hopen, hbegins⟩
    refine ⟨hbegins, fun hrule word hword hfront => ?_⟩
    rcases List.prefix_concat_iff.1 hfront with heq | hshort
    · exact heq
    · exact absurd (hfirst hrule word hword hshort ▸ hword) (hopen hrule)

theorem Holds.accept_of_done (h : m.Holds words held) (hrule : m.rule = .shortest)
    (hword : held ∈ words) (c : Char) (cur : Cursor) :
    m.accept c cur = ⟨false, { m with progress := m.progress.fail }, cur⟩ := by
  rw [accept_eq_acceptWord h.rule, acceptWord, h.complete_iff.2 hword]
  simp [hrule]

theorem spelling_new (hrule : rule ≠ .upTo) (hsome : words ≠ []) (hproper : [] ∉ words)
    (name : String) (text : List Char) (i : Nat) :
    Spelling rule words text i i { name, rule, words } where
  rule_eq := rfl
  holds := slice_self text i ▸ holds_new hrule hproper name
  covers := Progress.covers_empty text i
  admits := slice_self text i ▸ admits_nil hsome rule

namespace Spelling

theorem accept (h : Spelling rule words text i j m) (hc : text[j]? = some c) :
    (Admits rule words (slice text i (j + 1)) ∧
      ∃ v, m.accept c (.past text (j + 1)) = ⟨true, v, .past text (j + 1)⟩ ∧
        Spelling rule words text i (j + 1) v) ∨
    (¬Admits rule words (slice text i (j + 1)) ∧
      (m.accept c (.past text (j + 1))).accepted = false ∧
        (m.accept c (.past text (j + 1))).state.progress = m.progress.fail) := by
  have hslice := slice_succ h.covers.le hc
  have hadmits : Admits rule words (slice text i (j + 1)) ↔
      (rule = .shortest → slice text i j ∉ words) ∧ Begins words (slice text i j ++ [c]) := by
    rw [hslice, admits_concat_iff]
    exact and_iff_right h.admits
  by_cases hdone : rule = .shortest ∧ slice text i j ∈ words
  · rw [h.holds.accept_of_done (h.rule_eq.trans hdone.1) hdone.2]
    exact .inr ⟨fun hnext => (hadmits.1 hnext).1 hdone.1 hdone.2, rfl, rfl⟩
  · have hopen := not_and.1 hdone
    rw [h.holds.accept_eq (h.rule_eq ▸ hopen)]
    dsimp only
    by_cases hbegins : Begins words (slice text i j ++ [c])
    · have hnext := hadmits.2 ⟨hopen, hbegins⟩
      rw [if_pos hbegins]
      refine .inl ⟨hnext, _, rfl, h.rule_eq, ?_, h.covers.pushAs hc _, hnext⟩
      exact hslice ▸ h.holds.push c _
    · rw [if_neg hbegins]
      exact .inr ⟨fun hnext => hbegins (hadmits.1 hnext).2, rfl, rfl⟩

theorem of_takes (h : Spelling rule words text i i m) {s : Matcher κ}
    (htakes : Matcher.Takes (fun _ => True) text (.mk (.words m)) i j s) :
    ∃ v, s = .mk (.words v) ∧ Spelling rule words text i j v := by
  induction htakes with
  | start => exact ⟨m, rfl, h⟩
  | take _ hc htaken _ ih =>
    obtain ⟨v, rfl, hv⟩ := ih
    rw [Matcher.accept_words] at htaken ⊢
    rcases hv.accept hc with ⟨-, v', haccept, hv'⟩ | ⟨-, hrefused, -⟩
    · exact ⟨v', by rw [haccept]; rfl, hv'⟩
    · rw [Reply.map, hrefused] at htaken
      cases htaken

theorem exists_takes (h : Spelling rule words text i i m) (hij : i ≤ j) (hj : j ≤ text.length)
    (hadmits : Admits rule words (slice text i j)) :
    ∃ s : Matcher κ, Matcher.Takes (fun _ => True) text (.mk (.words m)) i j s := by
  induction j, hij using Nat.le_induction with
  | base => exact ⟨_, .start⟩
  | succ j hij ih =>
    have hc := List.getElem?_eq_getElem hj
    have hshort := (admits_concat_iff.1 (slice_succ hij hc ▸ hadmits)).1
    obtain ⟨s, htakes⟩ := ih (Nat.le_of_lt hj) hshort
    obtain ⟨v, rfl, hv⟩ := h.of_takes htakes
    rcases hv.accept hc with ⟨-, v', haccept, -⟩ | ⟨hnot, -⟩
    · refine ⟨_, htakes.take hc ?_ trivial⟩
      rw [Matcher.accept_words, haccept]
      rfl
    · exact absurd hadmits hnot

theorem exists_takes_iff (h : Spelling rule words text i i m) (hij : i ≤ j) (hj : j ≤ text.length) :
    (∃ s : Matcher κ, Matcher.Takes (fun _ => True) text (.mk (.words m)) i j s) ↔
      Admits rule words (slice text i j) := by
  refine ⟨?_, h.exists_takes hij hj⟩
  rintro ⟨s, htakes⟩
  obtain ⟨v, -, hv⟩ := h.of_takes htakes
  exact hv.admits

theorem refused (h : Spelling rule words text i j m) (hc : text[j]? = some c)
    (hrefused : (m.accept c (.past text (j + 1))).accepted = false) :
    (m.accept c (.past text (j + 1))).state.progress = m.progress.fail := by
  rcases h.accept hc with ⟨-, v, haccept, -⟩ | ⟨-, -, hfail⟩
  · rw [haccept] at hrefused
    cases hrefused
  · exact hfail

theorem span_eq (h : Spelling rule words text i j m) (hproper : [] ∉ words)
    (hcomplete : m.progress.isComplete = true) : m.progress.span =
      some ⟨(Cursor.ofList text).positionAt i, (Cursor.ofList text).positionAt (j - 1)⟩ := by
  have hword := h.holds.isComplete_iff.1 hcomplete
  refine h.covers.span_eq (Nat.lt_of_le_of_ne h.covers.le ?_) (h.holds.complete_iff.2 hword)
  rintro rfl
  exact hproper (slice_self text i ▸ hword)

end Spelling

end WordMatcher

namespace Matcher

variable {κ : Type} [CustomMatcher κ]

/-- A matcher for words takes a piece of the text exactly if a word begins with it and, where it ends
with its first word, no shorter word begins the piece. It is complete if the piece is a word, and its
span is then this piece. The first character that it refuses leaves it failed with the same text. -/
theorem recognises_words {list : List String} (hsome : list ≠ []) (hproper : "" ∉ list)
    {rule : WordRule} (hrule : rule ≠ .upTo) (name : String) :
    ∃ m : Matcher κ, words name rule list = .ok m ∧
      ∀ (text : List Char) (i j : Nat), i ≤ j → j ≤ text.length →
        ((∃ s, Takes (fun _ => True) text m i j s) ↔
          (∃ word ∈ list.map String.toList, slice text i j <+: word) ∧
          (rule = .shortest → ∀ word ∈ list.map String.toList, word <+: slice text i j →
            word = slice text i j)) ∧
        ∀ s, Takes (fun _ => True) text m i j s →
          s.isFailed = false ∧ s.text = slice text i j ∧
          (s.isComplete = true ↔ slice text i j ∈ list.map String.toList) ∧
          (s.isComplete = true → s.span =
            some ⟨(Cursor.ofList text).positionAt i, (Cursor.ofList text).positionAt (j - 1)⟩) ∧
          ∀ c, text[j]? = some c → (s.accept c (.past text (j + 1))).accepted = false →
            (s.accept c (.past text (j + 1))).state.isFailed = true ∧
            (s.accept c (.past text (j + 1))).state.text = slice text i j := by
  refine ⟨_, words_eq_ok hsome hproper name rule, fun text i j hij hj => ?_⟩
  have hsome : list.map String.toList ≠ [] := by simp [hsome]
  have hproper : [] ∉ list.map String.toList := by simp [hproper]
  have hstart := WordMatcher.spelling_new hrule hsome hproper name text i
  refine ⟨hstart.exists_takes_iff hij hj, fun s htakes => ?_⟩
  obtain ⟨m, rfl, hm⟩ := hstart.of_takes htakes
  refine ⟨hm.holds.live, hm.covers.text_eq, hm.holds.isComplete_iff, hm.span_eq hproper, ?_⟩
  intro c hc hrefused
  rw [accept_words] at hrefused ⊢
  have hstate := hm.refused hc hrefused
  refine ⟨?_, ?_⟩
  · change (m.accept c (.past text (j + 1))).state.progress.failed = true
    rw [hstate]
    rfl
  · change (m.accept c (.past text (j + 1))).state.progress.text = slice text i j
    rw [hstate]
    exact hm.covers.text_eq

theorem recognises_words_in_between :
    let text := "xabcd".toList
    let list := ["a", "abc", "a"]
    list ≠ [] ∧ "" ∉ list ∧ WordRule.longest ≠ .upTo ∧ WordRule.shortest ≠ .upTo ∧
      (∃ m : Matcher Empty, words "longest" .longest list = .ok m ∧
        (∃ s, Takes (fun _ => True) text m 1 3 s ∧ s.isComplete = false) ∧
        ∃ s, Takes (fun _ => True) text m 1 4 s ∧ s.isComplete = true ∧
          s.span = some ⟨(Cursor.ofList text).positionAt 1, (Cursor.ofList text).positionAt 3⟩ ∧
          ¬∃ t, Takes (fun _ => True) text m 1 5 t) ∧
      ∃ m : Matcher Empty, words "shortest" .shortest list = .ok m ∧
        (∃ s, Takes (fun _ => True) text m 1 2 s ∧ s.isComplete = true) ∧
        ¬∃ t, Takes (fun _ => True) text m 1 3 t := by
  -- between two words, one of them given twice, the matcher is not complete, and behind the longer
  -- one it fails. One that ends with its first word takes only that one.
  intro text list
  refine ⟨by decide, by decide, by decide, by decide, ?_, ?_⟩
  · obtain ⟨m, hm, h⟩ := recognises_words (κ := Empty) (by decide : list ≠ []) (by decide)
      (by decide : WordRule.longest ≠ .upTo) "longest"
    obtain ⟨s, htakes⟩ := (h text 1 3 (by decide) (by decide)).1.2 (by decide)
    have hshort := (h text 1 3 (by decide) (by decide)).2 s htakes
    have hwaiting : s.isComplete = false := Bool.eq_false_iff.2 (mt hshort.2.2.1.1 (by decide))
    obtain ⟨t, htakes'⟩ := (h text 1 4 (by decide) (by decide)).1.2 (by decide)
    have hlong := (h text 1 4 (by decide) (by decide)).2 t htakes'
    have hcomplete := hlong.2.2.1.2 (by decide)
    exact ⟨m, hm, ⟨s, htakes, hwaiting⟩, t, htakes', hcomplete, hlong.2.2.2.1 hcomplete,
      mt (h text 1 5 (by decide) (by decide)).1.1 (by decide)⟩
  · obtain ⟨m, hm, h⟩ := recognises_words (κ := Empty) (by decide : list ≠ []) (by decide)
      (by decide : WordRule.shortest ≠ .upTo) "shortest"
    obtain ⟨s, htakes⟩ := (h text 1 2 (by decide) (by decide)).1.2 (by decide)
    have hword := (h text 1 2 (by decide) (by decide)).2 s htakes
    exact ⟨m, hm, ⟨s, htakes, hword.2.2.1.2 (by decide)⟩,
      mt (h text 1 3 (by decide) (by decide)).1.1 (by decide)⟩

end Matcher

end Lexing
