import Mathlib.Data.List.Basic
import Lexing.Matcher.Words

/-!
The words that a matcher still has in question. They are kept as a bag of indices, in an order that depends
on the way there; as a set, they are the words that begin with the text so far (`Tracks`).
-/

namespace Lexing

def Begins (words : List (List Char)) (w : List Char) : Prop := ∃ word ∈ words, w <+: word

variable {words : List (List Char)} {held v w : List Char}

instance : Decidable (Begins words w) := inferInstanceAs (Decidable (∃ word ∈ words, w <+: word))

theorem Begins.of_mem (h : w ∈ words) : Begins words w := ⟨w, h, List.prefix_refl w⟩

theorem Begins.nil (h : words ≠ []) : Begins words [] := by
  obtain ⟨word, hword⟩ := List.exists_mem_of_ne_nil words h
  exact ⟨word, hword, List.nil_prefix⟩

theorem Begins.of_prefix (h : Begins words w) (hv : v <+: w) : Begins words v := by
  obtain ⟨word, hword, hw⟩ := h
  exact ⟨word, hword, hv.trans hw⟩

theorem concat_prefix_iff {word : List Char} {c : Char} :
    held ++ [c] <+: word ↔ held <+: word ∧ word[held.length]? = some c := by
  constructor
  · rintro ⟨rest, rfl⟩
    exact ⟨⟨c :: rest, by simp⟩, by simp⟩
  · rintro ⟨⟨rest, rfl⟩, hc⟩
    rw [List.getElem?_append_right (Nat.le_refl _), Nat.sub_self] at hc
    cases rest with
    | nil => cases hc
    | cons d rest =>
      cases hc
      exact ⟨rest, by simp⟩

namespace WordMatcher

namespace Found

@[simp] theorem max_eq_nothing_iff {a b : Found} : a.max b = .nothing ↔ a = .nothing ∧ b = .nothing := by
  cases a <;> cases b <;> simp [max]

@[simp] theorem max_eq_whole_iff {a b : Found} : a.max b = .whole ↔ a = .whole ∨ b = .whole := by
  cases a <;> cases b <;> simp [max]

end Found

def GoesOn (words : List (List Char)) (c : Char) (offset i : Nat) : Prop :=
  ∃ word, words[i]? = some word ∧ word[offset]? = some c

theorem visit_fst_iff {c : Char} {offset i : Nat} {found : Found} :
    (visit words c offset i found).1 = true ↔ GoesOn words c offset i := by
  rw [visit, GoesOn]
  split
  · simp [*]
  · split <;> simp [*]

theorem visit_of_goesOn {c : Char} {offset i : Nat} {word : List Char} (hword : words[i]? = some word)
    (hc : word[offset]? = some c) (found : Found) : visit words c offset i found =
      (true, found.max (if word.length = offset + 1 then .whole else .part)) := by
  simp [visit, hword, hc]

theorem visit_of_not_goesOn {c : Char} {offset i : Nat} (h : ¬GoesOn words c offset i) (found : Found) :
    visit words c offset i found = (false, found) := by
  rw [visit]
  split
  · rfl
  · next word hword => exact if_neg fun hc => h ⟨word, hword, hc⟩

variable {c : Char} {offset : Nat} {bag : List Nat}

theorem mem_sweep_visit_iff {i : Nat} : i ∈ (Bag.sweep (visit words c offset) bag .nothing).1 ↔
    i ∈ bag ∧ GoesOn words c offset i := by
  induction bag with
  | nil => simp [Bag.sweep]
  | cons a rest ih =>
    rw [Bag.sweep]
    dsimp only
    by_cases ha : GoesOn words c offset a
    · rw [if_pos (visit_fst_iff.2 ha), List.mem_cons, ih, List.mem_cons, or_and_right]
      exact or_congr_left ⟨fun h => ⟨h, h ▸ ha⟩, And.left⟩
    · rw [if_neg (mt visit_fst_iff.1 ha), ih, List.mem_cons, or_and_right, iff_comm]
      exact or_iff_right fun h => ha (h.1 ▸ h.2)

theorem sweep_visit_eq_nothing_iff : (Bag.sweep (visit words c offset) bag .nothing).2 = .nothing ↔
    ∀ i ∈ bag, ¬GoesOn words c offset i := by
  induction bag with
  | nil => simp [Bag.sweep]
  | cons a rest ih =>
    rw [Bag.sweep, List.forall_mem_cons, ← ih]
    dsimp only
    by_cases ha : GoesOn words c offset a
    · obtain ⟨word, hword, hc⟩ := ha
      rw [visit_of_goesOn hword hc, Found.max_eq_nothing_iff]
      have ha : GoesOn words c offset a := ⟨word, hword, hc⟩
      split <;> simp [ha]
    · rw [visit_of_not_goesOn ha, and_iff_right ha]

theorem sweep_visit_eq_whole_iff : (Bag.sweep (visit words c offset) bag .nothing).2 = .whole ↔
    ∃ i ∈ bag, ∃ word, words[i]? = some word ∧ word[offset]? = some c ∧ word.length = offset + 1 := by
  induction bag with
  | nil => simp [Bag.sweep]
  | cons a rest ih =>
    rw [Bag.sweep, List.exists_mem_cons_iff, ← ih]
    dsimp only
    by_cases ha : GoesOn words c offset a
    · obtain ⟨word, hword, hc⟩ := ha
      rw [visit_of_goesOn hword hc, Found.max_eq_whole_iff, or_comm]
      refine or_congr_left ?_
      simp only [hword, Option.some.injEq, exists_eq_left', hc, true_and]
      split <;> simp [*]
    · rw [visit_of_not_goesOn ha, iff_comm]
      refine or_iff_right ?_
      rintro ⟨word, hword, hc, -⟩
      exact ha ⟨word, hword, hc⟩

/-- The words in question are those that begin with the text so far, and none of them is counted
twice. -/
structure Tracks (m : WordMatcher) (held : List Char) : Prop where
  nodup : m.live.Nodup
  mem_iff : ∀ i, i ∈ m.live ↔ ∃ word, m.words[i]? = some word ∧ held <+: word

variable {m : WordMatcher}

theorem tracks_restart (m : WordMatcher) : m.restart.Tracks [] where
  nodup := List.nodup_range
  mem_iff i := by simp [restart, List.getElem?_eq_some_iff]

theorem tracks_new (name : String) (rule : WordRule) (words : List (List Char)) :
    ({ name, rule, words } : WordMatcher).Tracks [] := tracks_restart { name, rule, words }

namespace Tracks

theorem of_live_eq {s : WordMatcher} (h : m.Tracks held) (hlive : s.live = m.live)
    (hwords : s.words = m.words) : s.Tracks held := by
  obtain ⟨hnodup, hmem⟩ := h
  exact ⟨hlive ▸ hnodup, by rw [hlive, hwords]; exact hmem⟩

theorem live_eq_nil_iff (h : m.Tracks held) : m.live = [] ↔ ¬Begins m.words held := by
  rw [List.eq_nil_iff_forall_not_mem, ← not_exists, not_iff_not]
  constructor
  · rintro ⟨i, hi⟩
    obtain ⟨word, hword, hheld⟩ := (h.mem_iff i).1 hi
    exact ⟨word, List.mem_of_getElem? hword, hheld⟩
  · rintro ⟨word, hword, hheld⟩
    obtain ⟨i, hi⟩ := List.mem_iff_getElem?.1 hword
    exact ⟨i, (h.mem_iff i).2 ⟨word, hi, hheld⟩⟩

theorem mem_and_goesOn_iff (h : m.Tracks held) (c : Char) (i : Nat) :
    i ∈ m.live ∧ GoesOn m.words c held.length i ↔
      ∃ word, m.words[i]? = some word ∧ held ++ [c] <+: word := by
  rw [h.mem_iff]
  constructor
  · rintro ⟨⟨word, hword, hheld⟩, word', hword', hc⟩
    rw [hword] at hword'
    cases hword'
    exact ⟨word, hword, concat_prefix_iff.2 ⟨hheld, hc⟩⟩
  · rintro ⟨word, hword, hheld⟩
    obtain ⟨hheld, hc⟩ := concat_prefix_iff.1 hheld
    exact ⟨⟨word, hword, hheld⟩, word, hword, hc⟩

theorem update (h : m.Tracks held) (c : Char) :
    (m.update c held.length).2.Tracks (held ++ [c]) := by
  obtain ⟨-, hperm⟩ := Bag.walk_eq (visit m.words c held.length) m.live .nothing
  refine ⟨hperm.nodup_iff.2 ((Bag.sweep_sublist ..).nodup h.nodup), fun i => ?_⟩
  exact hperm.mem_iff.trans (mem_sweep_visit_iff.trans (h.mem_and_goesOn_iff c i))

theorem found_eq_nothing_iff (h : m.Tracks held) (c : Char) :
    (m.update c held.length).1 = .nothing ↔ ¬Begins m.words (held ++ [c]) := by
  obtain ⟨hfound, -⟩ := Bag.walk_eq (visit m.words c held.length) m.live .nothing
  rw [WordMatcher.update]
  dsimp only
  rw [hfound, sweep_visit_eq_nothing_iff]
  simp only [← not_and, ← not_exists]
  refine not_congr ⟨?_, ?_⟩
  · rintro ⟨i, hi, hgoes⟩
    obtain ⟨word, hword, hheld⟩ := (h.mem_and_goesOn_iff c i).1 ⟨hi, hgoes⟩
    exact ⟨word, List.mem_of_getElem? hword, hheld⟩
  · rintro ⟨word, hword, hheld⟩
    obtain ⟨i, hi⟩ := List.mem_iff_getElem?.1 hword
    obtain ⟨hi, hgoes⟩ := (h.mem_and_goesOn_iff c i).2 ⟨word, hi, hheld⟩
    exact ⟨i, hi, hgoes⟩

theorem found_eq_whole_iff (h : m.Tracks held) (c : Char) :
    (m.update c held.length).1 = .whole ↔ held ++ [c] ∈ m.words := by
  obtain ⟨hfound, -⟩ := Bag.walk_eq (visit m.words c held.length) m.live .nothing
  rw [WordMatcher.update]
  dsimp only
  rw [hfound, sweep_visit_eq_whole_iff]
  constructor
  · rintro ⟨i, hi, word, hword, hc, hlength⟩
    obtain ⟨word', hword', hheld⟩ := (h.mem_iff i).1 hi
    rw [hword] at hword'
    cases hword'
    have heq : held ++ [c] = word :=
      (concat_prefix_iff.2 ⟨hheld, hc⟩).eq_of_length (by simp [hlength])
    exact heq ▸ List.mem_of_getElem? hword
  · intro hmem
    obtain ⟨i, hi⟩ := List.mem_iff_getElem?.1 hmem
    refine ⟨i, (h.mem_iff i).2 ⟨_, hi, List.prefix_append held [c]⟩, _, hi, ?_, ?_⟩ <;> simp

theorem found_singleton {e : Char} (h : m.Tracks []) (hwords : m.words = [[e]]) (c : Char) :
    (m.update c 0).1 = if c = e then .whole else .nothing := by
  have hnothing := h.found_eq_nothing_iff c
  have hwhole := h.found_eq_whole_iff c
  split
  · next heq => exact hwhole.2 (by simp [hwords, heq])
  · next hne => exact hnothing.2 (by simp [Begins, hwords, hne])

end Tracks

theorem tracks_replay (m : WordMatcher) (text : List Char) : (m.replay text).Tracks text := by
  suffices h : ∀ (rest held : List Char) (s : WordMatcher), s.Tracks held →
      ((rest.zipIdx held.length).foldl (fun m step => (m.update step.1 step.2).2) s).Tracks
        (held ++ rest) from h text [] m.restart (tracks_restart m)
  intro rest
  induction rest with
  | nil => exact fun held s h => (List.append_nil held).symm ▸ h
  | cons c rest ih =>
    intro held s h
    have hnext := ih (held ++ [c]) _ (h.update c)
    rwa [List.length_append, List.length_singleton, List.append_assoc, List.singleton_append] at hnext

end WordMatcher

end Lexing
