import Mathlib.Order.Lattice.Nat
import Lexing.Proofs.Matcher.Takes

namespace Lexing

theorem isLeast_of_forall_not {P : Nat → Prop} {i n j : Nat} (h : i ≤ j ∧ j ≤ n ∧ P j)
    (hnone : ∀ e < j, i ≤ e → ¬P e) : IsLeast {e | i ≤ e ∧ e ≤ n ∧ P e} j := by
  refine ⟨h, ?_⟩
  rintro e ⟨hie, -, he⟩
  by_contra hlt
  exact hnone e (Nat.lt_of_not_le hlt) hie he

theorem isLeast_congr_of_first {P Q : Nat → Prop} {i n j : Nat}
    (h : ∀ e, i ≤ e → e ≤ n → (∀ d, i ≤ d → d < e → ¬P d) → (P e ↔ Q e)) :
    IsLeast {e | i ≤ e ∧ e ≤ n ∧ P e} j ↔ IsLeast {e | i ≤ e ∧ e ≤ n ∧ Q e} j := by
  have hfirst : ∀ {j}, IsLeast {e | i ≤ e ∧ e ≤ n ∧ P e} j →
      IsLeast {e | i ≤ e ∧ e ≤ n ∧ Q e} j := by
    rintro j ⟨⟨hij, hjn, hj⟩, hleast⟩
    have hnone : ∀ d, i ≤ d → d < j → ¬P d := fun d hid hdj hd =>
      Nat.not_lt_of_le (hleast ⟨hid, Nat.le_trans (Nat.le_of_lt hdj) hjn, hd⟩) hdj
    refine ⟨⟨hij, hjn, (h j hij hjn hnone).1 hj⟩, ?_⟩
    rintro e ⟨hie, hen, he⟩
    by_contra hlt
    have hej : e < j := Nat.lt_of_not_le hlt
    exact hnone e hie hej
      ((h e hie hen fun d hid hde => hnone d hid (Nat.lt_trans hde hej)).2 he)
  refine ⟨hfirst, fun hj => ?_⟩
  by_cases hsome : {e | i ≤ e ∧ e ≤ n ∧ P e}.Nonempty
  · obtain ⟨l, hl⟩ : ∃ l, IsLeast _ l := ⟨_, isLeast_csInf hsome⟩
    exact hj.unique (hfirst hl) ▸ hl
  · obtain ⟨hij, hjn, hq⟩ := hj.1
    refine absurd ⟨j, hij, hjn, (h j hij hjn fun d hid hdj hd => hsome ?_).2 hq⟩ hsome
    exact ⟨d, hid, Nat.le_trans (Nat.le_of_lt hdj) hjn, hd⟩

namespace Matcher

variable {κ : Type} [CustomMatcher κ]

/-- `Known j s` holds of the matcher `s` that `m` has become at offset `j`. While it waits it takes every
character, and it is complete where `Done` holds. -/
structure Follows (Known : Nat → Matcher κ → Prop) (Done : Nat → Prop) (text : List Char)
    (m : Matcher κ) (i : Nat) : Prop where
  start : Known i m
  waiting : m.Waiting
  accept : ∀ {j s c}, i ≤ j → Known j s → s.Waiting → text[j]? = some c →
    (s.accept c (.past text (j + 1))).accepted = true ∧
      Known (j + 1) (s.accept c (.past text (j + 1))).state
  isComplete_iff : ∀ {j s}, i ≤ j → Known j s → (s.isComplete = true ↔ Done j)

namespace Follows

variable {Known : Nat → Matcher κ → Prop} {Done : Nat → Prop} {text : List Char} {m s : Matcher κ}
  {i j : Nat}

theorem not_done (h : Follows Known Done text m i) (hij : i ≤ j) (hs : Known j s)
    (hwaiting : s.Waiting) : ¬Done j := by
  intro hdone
  have hcomplete := (h.isComplete_iff hij hs).2 hdone
  rw [hwaiting] at hcomplete
  cases hcomplete

theorem waiting_of_not_done (h : Follows Known Done text m i) (hij : i ≤ j) (hs : Known j s)
    (hdone : ¬Done j) : s.Waiting :=
  Bool.eq_false_iff.2 (mt (h.isComplete_iff hij hs).1 hdone)

theorem of_takes (h : Follows Known Done text m i) (htakes : Takes Waiting text m i j s) :
    Known j s ∧ s.Waiting ∧ ∀ e, i ≤ e → e ≤ j → ¬Done e := by
  induction htakes with
  | start =>
    refine ⟨h.start, h.waiting, fun e hie hei => ?_⟩
    obtain rfl := Nat.le_antisymm hie hei
    exact h.not_done hie h.start h.waiting
  | @take j s c htakes hc _ hnext ih =>
    obtain ⟨hs, hwaiting, hnone⟩ := ih
    have hle := htakes.le
    have hs' := (h.accept hle hs hwaiting hc).2
    refine ⟨hs', hnext, fun e hie hej => ?_⟩
    rcases Nat.lt_or_eq_of_le hej with hlt | rfl
    · exact hnone e hie (Nat.le_of_lt_succ hlt)
    · exact h.not_done hie hs' hnext

theorem exists_takes (h : Follows Known Done text m i) (hij : i ≤ j) (hj : j ≤ text.length)
    (hnone : ∀ e, i ≤ e → e ≤ j → ¬Done e) : ∃ s, Takes Waiting text m i j s := by
  induction j, hij using Nat.le_induction with
  | base => exact ⟨m, .start⟩
  | succ j hij ih =>
    obtain ⟨s, htakes⟩ := ih (by omega) fun e hie hej => hnone e hie (by omega)
    obtain ⟨hs, hwaiting, -⟩ := h.of_takes htakes
    have hc := List.getElem?_eq_getElem hj
    obtain ⟨htaken, hs'⟩ := h.accept hij hs hwaiting hc
    have hnext := h.waiting_of_not_done (by omega) hs' (hnone (j + 1) (by omega) (Nat.le_refl _))
    exact ⟨_, htakes.take hc htaken hnext⟩

theorem of_match (h : Follows Known Done text m i) (hmatch : Match text m i j s) : Known j s := by
  cases hmatch with
  | mk htakes hc _ _ =>
    obtain ⟨hs, hwaiting, -⟩ := h.of_takes htakes
    exact (h.accept htakes.le hs hwaiting hc).2

theorem exists_match_iff (h : Follows Known Done text m i) :
    (∃ s, Match text m i j s) ↔ IsLeast {e | i ≤ e ∧ e ≤ text.length ∧ Done e} j := by
  constructor
  · rintro ⟨s, hmatch⟩
    have hs := h.of_match hmatch
    have hij := Nat.le_of_lt hmatch.lt
    cases hmatch with
    | @mk j s c htakes hc _ hcomplete =>
      refine ⟨⟨hij, (List.getElem?_eq_some_iff.1 hc).1, (h.isComplete_iff hij hs).1 hcomplete⟩, ?_⟩
      rintro e ⟨hie, -, hdone⟩
      by_contra hlt
      exact (h.of_takes htakes).2.2 e hie (by omega) hdone
  · rintro ⟨⟨hij, hj, hdone⟩, hleast⟩
    have hne : i ≠ j := by
      rintro rfl
      exact h.not_done hij h.start h.waiting hdone
    obtain ⟨e, rfl⟩ := Nat.exists_eq_succ_of_ne_zero (Nat.ne_of_gt (by omega : 0 < j))
    obtain ⟨s, htakes⟩ := h.exists_takes (j := e) (by omega) (by omega) fun d hid hde hdone => by
      have := hleast ⟨hid, by omega, hdone⟩
      omega
    obtain ⟨hs, hwaiting, -⟩ := h.of_takes htakes
    have hc := List.getElem?_eq_getElem (Nat.lt_of_succ_le hj)
    obtain ⟨htaken, hs'⟩ := h.accept htakes.le hs hwaiting hc
    exact ⟨_, .mk htakes hc htaken ((h.isComplete_iff hij hs').2 hdone)⟩

theorem congr {Done' : Nat → Prop} (h : Follows Known Done text m i) (hi : i ≤ text.length)
    (hdone : ∀ j, i ≤ j → j ≤ text.length → (Done j ↔ Done' j)) :
    Follows (fun j s => Known j s ∧ j ≤ text.length) Done' text m i where
  start := ⟨h.start, hi⟩
  waiting := h.waiting
  accept := by
    rintro j s c hij ⟨hs, -⟩ hwaiting hc
    obtain ⟨htaken, hs⟩ := h.accept hij hs hwaiting hc
    exact ⟨htaken, hs, (List.getElem?_eq_some_iff.1 hc).1⟩
  isComplete_iff hij hs := (h.isComplete_iff hij hs.1).trans (hdone _ hij hs.2)

theorem feed_of_takes (h : Follows Known Done text m i)
    (hlive : ∀ {j s}, Known j s → s.isFailed = false) (htakes : Takes Waiting text m i j s) :
    feed text m i = feed text s j := by
  induction htakes with
  | start => rfl
  | @take j s c htakes hc htaken hnext ih =>
    have hlive := hlive (h.of_takes (htakes.take hc htaken hnext)).1
    rw [ih, feed_of_taken hc htaken hlive hnext]

theorem feed (h : Follows Known Done text m i) (hlive : ∀ {j s}, Known j s → s.isFailed = false)
    (hi : i ≤ text.length) :
    Known (Matcher.feed text m i).2 (Matcher.feed text m i).1 ∧
      ((Matcher.feed text m i).1.isComplete = true →
        IsLeast {e | i ≤ e ∧ e ≤ text.length ∧ Done e} (Matcher.feed text m i).2) ∧
      ((Matcher.feed text m i).1.isComplete = false →
        ∀ e, i ≤ e → e ≤ text.length → ¬Done e) := by
  by_cases hsome : {e | i ≤ e ∧ e ≤ text.length ∧ Done e}.Nonempty
  · obtain ⟨j, hleast⟩ : ∃ j, IsLeast _ j := ⟨_, isLeast_csInf hsome⟩
    obtain ⟨s, hmatch⟩ := h.exists_match_iff.2 hleast
    have hs := h.of_match hmatch
    cases hmatch with
    | mk htakes hc htaken hcomplete =>
      rw [h.feed_of_takes hlive htakes, feed_of_complete hc hcomplete]
      exact ⟨hs, fun _ => hleast, fun hwaiting => by simp [hcomplete] at hwaiting⟩
  · have hnone : ∀ e, i ≤ e → e ≤ text.length → ¬Done e := fun e hie he hdone =>
      hsome ⟨e, hie, he, hdone⟩
    obtain ⟨s, htakes⟩ := h.exists_takes hi (Nat.le_refl _) hnone
    obtain ⟨hs, hwaiting, -⟩ := h.of_takes htakes
    rw [h.feed_of_takes hlive htakes, feed_of_none (List.getElem?_eq_none (Nat.le_refl _))]
    refine ⟨hs, fun hcomplete => ?_, fun _ => hnone⟩
    rw [hwaiting] at hcomplete
    cases hcomplete

end Follows

end Matcher

end Lexing
