import Lexing.Proofs.Words.UpTo

namespace Lexing

def Found (words : List (List Char)) (text : List Char) (i j : Nat) : Prop :=
  ∃ k, Longest words text i j k ∧ slice text k j ∈ words

/-- A part of a word that is not a word itself, but ends with one for the first time. -/
structure Hides (words : List (List Char)) (part : List Char) : Prop where
  begins : Begins words part
  not_mem : part ∉ words
  endsWith : EndsWith words part
  first : ∀ w, w <+: part → EndsWith words w → w = part

section Found

variable {words : List (List Char)} {text part : List Char} {i j : Nat}

theorem Found.endsWith (h : Found words text i j) : EndsWith words (slice text i j) := by
  obtain ⟨k, hlongest, hmem⟩ := h
  exact ⟨_, hmem, slice_suffix_slice hlongest.1.1 text j⟩

theorem isLeast_found_iff (hwords : words ≠ []) (hopen : ∀ part, ¬Hides words part) :
    IsLeast {e | i ≤ e ∧ e ≤ text.length ∧ Found words text i e} j ↔
      IsLeast {e | i ≤ e ∧ e ≤ text.length ∧ EndsWith words (slice text i e)} j := by
  -- where no word is hidden, the first word at the end of the text is found: what is in front of it
  -- in the longest piece ends with no word
  refine (isLeast_congr_of_first fun e hie he hnone => ⟨fun hend => ?_, Found.endsWith⟩).symm
  obtain ⟨k, hlongest⟩ := Longest.exists_of_le hwords hie text
  refine ⟨k, hlongest, ?_⟩
  by_contra hmem
  refine hopen _ ⟨hlongest.begins, hmem, (hlongest.endsWith_iff he).1 hend, fun w hw hwend => ?_⟩
  obtain ⟨hik, hke, -⟩ := hlongest.1
  obtain ⟨hle, heq⟩ := eq_slice_of_prefix hke he hw
  rcases Nat.lt_or_eq_of_le hle with hlt | hlast
  · rw [heq] at hwend
    exact absurd (hwend.mono (slice_suffix_slice hik text _)) (hnone _ (by omega) hlt)
  · exact hlast ▸ heq

theorem Hides.not_found (h : Hides words part) :
    IsLeast {e | 0 ≤ e ∧ e ≤ part.length ∧ EndsWith words (slice part 0 e)} part.length ∧
      ¬Found words part 0 part.length := by
  have hall := slice_zero_length part
  refine ⟨⟨⟨Nat.zero_le _, Nat.le_refl _, hall.symm ▸ h.endsWith⟩, ?_⟩, ?_⟩
  · rintro e ⟨-, he, hend⟩
    have hprefix : slice part 0 e <+: slice part 0 part.length := slice_prefix_slice he
    rw [hall] at hprefix
    have hlength := length_slice he 0
    rw [h.first _ hprefix hend] at hlength
    omega
  · rintro ⟨k, hlongest, hmem⟩
    obtain rfl := Nat.le_zero.1 (hlongest.2 ⟨Nat.le_refl 0, Nat.zero_le _, hall.symm ▸ h.begins⟩)
    exact h.not_mem (hall ▸ hmem)

end Found

namespace Matcher

variable {κ : Type} [CustomMatcher κ]

theorem follows_upTo {words : List (List Char)} (hproper : [] ∉ words) {w : WordMatcher}
    {text : List Char} {i : Nat} (h : w.Seeking words text i i) :
    Follows (fun j s => ∃ v k, s = mk (.words v) ∧ v.Seeking words text k j ∧
      Longest words text i j k) (Found words text i) text (mk (.words w) : Matcher κ) i where
  start := ⟨w, i, rfl, h, .of_begins (Nat.le_refl i) h.begins⟩
  waiting := by
    refine Bool.eq_false_iff.2 fun hcomplete => hproper ?_
    exact slice_self text i ▸ h.isComplete_iff.1 hcomplete
  accept := by
    rintro j _ c - ⟨v, k, rfl, hseeking, hlongest⟩ hwaiting hc
    have hopen : v.progress.complete = false :=
      (Progress.isComplete_of_live hseeking.live).symm.trans hwaiting
    obtain ⟨htaken, k', hseeking', hlongest'⟩ := hseeking.accept hproper hc
    rw [hopen, if_neg Bool.false_ne_true] at hlongest'
    rw [accept_words]
    exact ⟨htaken, _, k', rfl, hseeking', hlongest.succ hlongest'⟩
  isComplete_iff := by
    rintro j _ - ⟨v, k, rfl, hseeking, hlongest⟩
    refine hseeking.isComplete_iff.trans ⟨fun hmem => ⟨k, hlongest, hmem⟩, ?_⟩
    rintro ⟨k', hlongest', hmem⟩
    exact hlongest'.unique hlongest ▸ hmem

/-- A matcher for anything up to a word has its first match where the longest piece that begins a word
is a word. These are the first ends of words in all texts just if no word is hidden in a part of another
one. -/
theorem exists_match_upTo_iff {list : List String} (hsome : list ≠ []) (hproper : "" ∉ list)
    (name : String) : ∃ m : Matcher κ, words name .upTo list = .ok m ∧
      let chars := list.map String.toList
      (∀ (text : List Char) (i j : Nat), (∃ s, Match text m i j s) ↔
        IsLeast {e | i ≤ e ∧ e ≤ text.length ∧ Found chars text i e} j) ∧
      ((∀ (text : List Char) (i j : Nat), (∃ s, Match text m i j s) ↔
        IsLeast {e | i ≤ e ∧ e ≤ text.length ∧ EndsWith chars (slice text i e)} j) ↔
          ∀ part, ¬Hides chars part) := by
  refine ⟨_, words_eq_ok hsome hproper name .upTo, ?_⟩
  have hsome : list.map String.toList ≠ [] := by simp [hsome]
  have hproper : [] ∉ list.map String.toList := by simp [hproper]
  generalize list.map String.toList = chars at hsome hproper
  intro _
  have hfirst : ∀ (text : List Char) (i j : Nat),
      (∃ s, Match text (mk (.words { name, rule := .upTo, words := chars }) : Matcher κ) i j s) ↔
        IsLeast {e | i ≤ e ∧ e ≤ text.length ∧ Found chars text i e} j := fun text i _ =>
    (follows_upTo hproper (WordMatcher.seeking_new hsome hproper name text i)).exists_match_iff
  refine ⟨hfirst, ?_, fun hopen text i j => (hfirst text i j).trans (isLeast_found_iff hsome hopen)⟩
  intro hends part hhides
  obtain ⟨hend, hmissed⟩ := hhides.not_found
  exact hmissed ((hfirst ..).1 ((hends ..).2 hend)).1.2.2

theorem exists_match_upTo_iff_nested :
    let list := ["-->", "->", ">"]
    let chars := list.map String.toList
    let text := "a--->".toList
    list ≠ [] ∧ "" ∉ list ∧ ∃ m : Matcher Empty, words "stop" .upTo list = .ok m ∧
      (∃ s, Match text m 0 5 s) ∧
      IsLeast {e | 0 ≤ e ∧ e ≤ text.length ∧ EndsWith chars (slice text 0 e)} 5 := by
  -- the shorter word is also the end of the longer one, so none is hidden
  intro list chars text
  obtain ⟨m, hm, -, hopen⟩ :=
    exists_match_upTo_iff (κ := Empty) (by decide : list ≠ []) (by decide) "stop"
  have hends : IsLeast {e | 0 ≤ e ∧ e ≤ text.length ∧ EndsWith chars (slice text 0 e)} 5 :=
    isLeast_of_forall_not (by decide) (by decide)
  refine ⟨by decide, by decide, m, hm, (hopen.2 ?_ text 0 5).2 hends, hends⟩
  intro part hhides
  obtain ⟨word, hword, hprefix⟩ := hhides.begins
  have hparts : ∀ word ∈ chars, ∀ n ≤ word.length, EndsWith chars (word.take n) →
      word.take n ∈ chars := by decide
  have hpart := hparts word hword part.length hprefix.length_le
  rw [← List.prefix_iff_eq_take.1 hprefix] at hpart
  exact hhides.not_mem (hpart hhides.endsWith)

/-- At `c` the word `bc` is hidden at the end of a part of `abcd`, which `x` then breaks. -/
theorem not_match_upTo_hidden :
    let list := ["abcd", "bc"]
    let chars := list.map String.toList
    let text := "abcx".toList
    ∃ m : Matcher Empty, words "stop" .upTo list = .ok m ∧
      IsLeast {e | 0 ≤ e ∧ e ≤ text.length ∧ EndsWith chars (slice text 0 e)} 3 ∧
      ∀ j s, ¬Match text m 0 j s := by
  intro list chars text
  refine ⟨_, words_eq_ok (by decide) (by decide) "stop" .upTo, ?_, ?_⟩
  · exact isLeast_of_forall_not (by decide) (by decide)
  · intro j s hmatch
    have hseeking := WordMatcher.seeking_new (by decide : chars ≠ []) (by decide) "stop" text 0
    have hfound := ((follows_upTo (κ := Empty) (by decide) hseeking).exists_match_iff.1 ⟨s, hmatch⟩).1
    obtain ⟨-, hj, k, hlongest, hmem⟩ := hfound
    -- the only word in the text is the hidden one, and it is not the longest piece
    obtain ⟨rfl, rfl⟩ := (by decide : ∀ j ≤ text.length, ∀ k ≤ j, slice text k j ∈ chars →
      j = 3 ∧ k = 1) j hj k hlongest.1.2.1 hmem
    exact absurd (hlongest.2 (by decide : 0 ≤ 0 ∧ 0 ≤ 3 ∧ Begins chars (slice text 0 3))) (by decide)

end Matcher

end Lexing
