import Lexing.Proofs.Chain.Moves
import Lexing.Proofs.Matcher.Places

namespace Lexing

theorem CharMatcher.state_of_refused {m : CharMatcher} {c : Char} {cur : Cursor}
    (hrefused : (m.accept c cur).accepted = false)
    (hcomplete : (m.accept c cur).state.progress.isComplete = true) :
    (m.accept c cur).state = m := by
  have hprogress : (m.accept c cur).state.progress = m.progress :=
    (m.answer_accept c).moves.refused hrefused hcomplete
  have hescaped : (m.accept c cur).state.escaped = m.escaped := by
    obtain ⟨name, rule, p, escaped⟩ := m
    cases rule with
    | upToUnescaped set escapes =>
      simp only [accept, acceptUpToUnescaped] at hrefused ⊢
      split
      · rfl
      · next hopen =>
        rw [if_neg hopen] at hrefused
        rw [Bool.or_eq_true, not_or] at hopen
        split at hrefused
        · cases hrefused
        · split at hrefused
          · cases hrefused
          · simp [acceptUpTo, hopen] at hrefused
    | _ => rfl
  have hfresh := m.fresh_accept c cur
  generalize (m.accept c cur).state = s at *
  obtain ⟨name, rule, p, escaped⟩ := m
  obtain ⟨name', rule', p', escaped'⟩ := s
  cases hprogress
  cases hescaped
  cases hfresh
  rfl

theorem WordMatcher.isComplete_of_refused {m : WordMatcher} {c : Char} {cur : Cursor}
    (hrefused : (m.accept c cur).accepted = false) :
    (m.accept c cur).state.progress.isComplete = false := by
  cases hrule : m.rule with
  | upTo =>
    simp only [accept, hrule, acceptUpTo] at hrefused ⊢
    split
    · next hfailed => simp [Progress.isComplete, hfailed]
    · next hlive =>
      rw [if_neg hlive] at hrefused
      split at hrefused <;> cases hrefused
  | _ =>
    have hword : m.rule ≠ .upTo := by simp [hrule]
    rw [accept_eq_acceptWord hword] at hrefused ⊢
    simp only [acceptWord] at hrefused ⊢
    split
    · exact Bool.and_false _
    · next hfits =>
      rw [if_neg hfits] at hrefused
      split
      · exact Bool.and_false _
      · next hfound =>
        rw [if_neg hfound] at hrefused
        cases hrefused

section Layers

variable {α : Type} [Member α] {offer : Offer α} {c : Char} {cur : Cursor}

theorem Choice.isComplete_of_refused {m : Choice α} (hrefused : (m.accept offer c cur).accepted = false) :
    (m.accept offer c cur).state.progress.isComplete = false := by
  rw [accept] at hrefused ⊢
  split
  · next hfailed => simp [Progress.isComplete, hfailed]
  · next hfailed =>
    rw [if_neg hfailed] at hrefused
    cases hrule : m.rule with
    | any =>
      simp only [hrule, acceptAny] at hrefused ⊢
      split
      · rfl
      · next hlive =>
        rw [if_neg hlive] at hrefused
        cases hrefused
    | seek =>
      simp only [hrule] at hrefused ⊢
      split
      · exact Bool.and_false _
      · next hopen =>
        rw [if_neg hopen] at hrefused
        cases hrefused

theorem Chain.active_of_refused_acceptEntering {m : Chain α}
    (hrefused : (m.acceptEntering offer c cur).accepted = false)
    (hcomplete : (m.acceptEntering offer c cur).state.isComplete = true) :
    (m.acceptEntering offer c cur).state.active = false := by
  simp only [acceptEntering] at hrefused hcomplete ⊢
  split
  · next hback =>
    rw [if_pos hback] at hcomplete
    simp only [fallBack] at hcomplete ⊢
    split
    · next hnone => simp [hnone, isComplete] at hcomplete
    · rfl
  · next hback =>
    rw [if_neg hback] at hrefused hcomplete
    have hrefused : (m.offerCurrent offer c cur).accepted = false := hrefused
    rw [isComplete_finish_of_refused hrefused] at hcomplete
    cases hcomplete

theorem Chain.active_of_refused {m : Chain α} (hrefused : (m.accept offer c cur).accepted = false)
    (hcomplete : (m.accept offer c cur).state.isComplete = true) :
    (m.accept offer c cur).state.active = false := by
  rw [accept] at hrefused hcomplete ⊢
  split
  · next hactive => simpa using hactive
  · next hactive =>
    rw [if_neg hactive] at hrefused hcomplete
    cases hrule : m.rule with
    | inOrder =>
      simp only [hrule, acceptInOrder] at hrefused hcomplete
      have hrefused : (m.offerCurrent offer c cur).accepted = false := hrefused
      rw [isComplete_finish_of_refused hrefused] at hcomplete
      cases hcomplete
    | suffixed =>
      simp only [hrule] at hrefused hcomplete ⊢
      exact active_of_refused_acceptEntering hrefused hcomplete
    | separated =>
      simp only [hrule] at hrefused hcomplete ⊢
      exact active_of_refused_acceptEntering hrefused hcomplete
    | skipping =>
      simp only [hrule] at hrefused hcomplete
      have htaken : (m.acceptSkipping offer c cur).accepted = true ∨
          (m.acceptSkipping offer c cur).state.isComplete = false :=
        m.taken_or_incomplete_acceptSkipping c cur
      rcases htaken with h | h
      · rw [h] at hrefused
        cases hrefused
      · rw [h] at hcomplete
        cases hcomplete

variable {κ : Type} [CustomMatcher κ] [LawfulPlaces κ]

theorem Layer.accept_again {l : Layer κ α} (hrefused : (l.accept offer c cur).accepted = false)
    (hcomplete : (l.accept offer c cur).state.isComplete = true) :
    ((l.accept offer c cur).state.accept offer c cur).accepted = false := by
  cases l with
  | chars m =>
    have hstate : (m.accept c cur).state = m := m.state_of_refused hrefused hcomplete
    change ((m.accept c cur).state.accept c cur).accepted = false
    rw [hstate]
    exact hrefused
  | words m =>
    have hincomplete : (m.accept c cur).state.progress.isComplete = false :=
      m.isComplete_of_refused hrefused
    have hcomplete : (m.accept c cur).state.progress.isComplete = true := hcomplete
    rw [hincomplete] at hcomplete
    cases hcomplete
  | choice m =>
    have hincomplete : (m.accept offer c cur).state.progress.isComplete = false :=
      m.isComplete_of_refused hrefused
    have hcomplete : (m.accept offer c cur).state.progress.isComplete = true := hcomplete
    rw [hincomplete] at hcomplete
    cases hcomplete
  | chain m =>
    have hactive : (m.accept offer c cur).state.active = false := m.active_of_refused hrefused hcomplete
    change ((m.accept offer c cur).state.accept offer c cur).accepted = false
    rw [Chain.accept, hactive]
    rfl
  | custom k => exact LawfulPlaces.accept_again k c cur hrefused hcomplete

end Layers

theorem Matcher.accept_again {κ : Type} [CustomMatcher κ] [LawfulPlaces κ] {m : Matcher κ} {c : Char}
    {cur : Cursor} (hrefused : (m.accept c cur).accepted = false)
    (hcomplete : (m.accept c cur).state.isComplete = true) :
    ((m.accept c cur).state.accept c cur).accepted = false := by
  obtain ⟨l⟩ := m
  rw [accept_mk] at hrefused hcomplete ⊢
  rw [Reply.map, accept_mk]
  exact Layer.accept_again hrefused hcomplete

end Lexing
