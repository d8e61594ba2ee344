import Lexing.Proofs.Chain.Moves
import Lexing.Proofs.Matcher.Copy
import Lexing.Proofs.Matcher.Steady

namespace Lexing

namespace Chain

variable {α : Type} [Member α] {offer : Offer α} {m : Chain α} {c : Char} {cur : Cursor}

omit [Member α] in
theorem failed_of_frame {m s : Chain α} (h : s.frame = m.frame) : s.failed = m.failed := by
  change s.frame.failed = m.frame.failed
  rw [h]

theorem failed_commit (m : Chain α) : m.commit.failed = m.failed := by rw [commit_eq]

theorem failed_advance_commit (m : Chain α) : m.commit.advance.2.failed = m.failed :=
  (failed_of_frame (frame_advance m.commit)).trans (failed_commit m)

omit [Member α] in
theorem failed_offerCurrent (m : Chain α) (c : Char) (cur : Cursor) :
    (m.offerCurrent offer c cur).state.failed = m.failed :=
  failed_of_frame (frame_offerCurrent m c cur)

omit [Member α] in
theorem failed_of_taken_finish {accepted : Bool} (h : (finish accepted m c cur).accepted = true) :
    (finish accepted m c cur).state.failed = m.failed := by
  have haccepted : accepted = true := h
  rw [haccepted]
  rfl

theorem failed_acceptInOrder (h : (m.acceptInOrder offer c cur).accepted = true) :
    (m.acceptInOrder offer c cur).state.failed = m.failed := by
  rw [acceptInOrder, failed_of_taken_finish h]
  split
  · rw [failed_of_frame (frame_moveOn _), failed_commit, failed_offerCurrent]
  · exact failed_offerCurrent m c cur

theorem failed_enter (m : Chain α) (c : Char) (cur : Cursor) :
    (m.enter offer c cur).1.failed = m.failed := by
  have hsettled : (m.commit.advance.2.settle c).failed = m.failed := by
    rw [settle_eq]
    exact failed_advance_commit m
  rw [enter]
  generalize m.commit.advance.2.settle c = s at hsettled ⊢
  dsimp only
  split
  · exact hsettled
  · split
    · have htried : (s.tryNext offer cur).state.failed = s.failed :=
        failed_of_frame (frame_tryNext s cur)
      split <;> exact htried.trans hsettled
    · split <;> exact hsettled

theorem failed_acceptEntering (h : (m.acceptEntering offer c cur).accepted = true) :
    (m.acceptEntering offer c cur).state.failed = m.failed := by
  rw [acceptEntering] at h ⊢
  dsimp only at h ⊢
  split at h
  · cases h
  · next hstay =>
    rw [if_neg hstay, failed_of_taken_finish h]
    split
    · rw [failed_enter, failed_offerCurrent]
    · exact failed_offerCurrent m c cur

theorem failed_seekMember (peeking : Bool) (next : Char) (fuel : Nat) (m : Chain α) (cur : Cursor) :
    (seekMember offer peeking next fuel m cur).state.failed = m.failed := by
  induction fuel generalizing m cur with
  | zero => rfl
  | succ fuel ih =>
    have hadvance : m.advance.2.failed = m.failed := failed_of_frame (frame_advance m)
    have hoffer : (m.advance.2.offerCurrent offer next cur).state.failed = m.failed :=
      (failed_offerCurrent _ next cur).trans hadvance
    rw [seekMember]
    dsimp only
    split
    · exact hadvance
    · generalize m.advance.2.offerCurrent offer next cur = r at hoffer ⊢
      generalize hs : (if peeking = true then r.state.recycleCurrent else r.state) = s
      have hs : s.failed = m.failed := by
        rw [← hs]
        split
        · exact (failed_of_frame (frame_recycleCurrent r.state)).trans hoffer
        · exact hoffer
      split
      · exact (ih s r.cursor).trans hs
      · split
        · exact (failed_advance_commit s.reopen).trans hs
        · exact hs

theorem failed_goOn (taken complete : Bool) (next : Char) (m : Chain α) (cur : Cursor) :
    (m.goOn offer taken complete next cur).state.failed = m.failed := by
  cases complete with
  | true =>
    simp only [goOn, if_true]
    split
    · exact failed_offerCurrent m next cur
    · rw [failed_seekMember, failed_offerCurrent]
  | false => exact failed_seekMember taken next m.members.length m cur

omit [Member α] in
theorem failed_offerDue (m : Chain α) (c : Char) (cur : Cursor) :
    (m.offerDue offer c cur).state.failed = m.failed := by
  simp only [offerDue]
  split
  · rfl
  · exact failed_offerCurrent _ c cur

theorem failed_acceptSkipping (h : (m.acceptSkipping offer c cur).accepted = true) :
    (m.acceptSkipping offer c cur).state.failed = m.failed := by
  have hdue : (m.offerDue offer c cur).state.failed = m.failed := failed_offerDue m c cur
  rw [acceptSkipping] at h ⊢
  generalize m.offerDue offer c cur = r at h hdue ⊢
  dsimp only at h ⊢
  have hcommit : (if r.state.currentComplete = true then r.state.commit else r.state).failed =
      m.failed := by
    split
    · exact (failed_commit r.state).trans hdue
    · exact hdue
  split at h
  · next hstay =>
    rw [if_pos hstay, failed_of_taken_finish h, hdue]
  · next hend =>
    rw [if_neg hend]
    split at h
    · next hrefused =>
      rw [if_pos hrefused, failed_of_taken_finish h, failed_goOn, hcommit]
    · next htaken =>
      rw [if_neg htaken]
      split
      · rw [failed_of_taken_finish rfl, failed_goOn, hcommit]
      · rw [failed_of_taken_finish rfl]
        split
        · exact (failed_commit r.state).trans hdue
        · exact hdue

theorem failed_of_taken (h : (m.accept offer c cur).accepted = true) :
    (m.accept offer c cur).state.failed = m.failed := by
  rw [accept] at h ⊢
  split at h
  · cases h
  · next hactive =>
    rw [if_neg hactive]
    cases hrule : m.rule with
    | inOrder =>
      rw [hrule] at h
      exact failed_acceptInOrder h
    | suffixed =>
      rw [hrule] at h
      exact failed_acceptEntering h
    | separated =>
      rw [hrule] at h
      exact failed_acceptEntering h
    | skipping =>
      rw [hrule] at h
      exact failed_acceptSkipping h

end Chain

namespace Matcher

variable {κ : Type} [CustomMatcher κ]

def Unfailing (text : List Char) (i : Nat) (m : Matcher κ) : Prop :=
  ∀ ⦃j s⦄, Takes (fun _ => True) text m i j s → s.isFailed = false

theorem unfailing_chain {m : Chain (Matcher κ)} (hm : m.failed = false) (text : List Char) (i : Nat) :
    (mk (.chain m)).Unfailing text i := by
  have hchain : ∀ {j s}, Takes (fun _ => True) text (mk (.chain m)) i j s →
      ∃ n : Chain (Matcher κ), s = mk (.chain n) ∧ n.failed = false := by
    intro j s htakes
    induction htakes with
    | start => exact ⟨m, rfl, hm⟩
    | take _ _ htaken _ ih =>
      obtain ⟨n, rfl, hn⟩ := ih
      rw [accept_mk] at htaken ⊢
      exact ⟨_, rfl, (Chain.failed_of_taken htaken).trans hn⟩
  intro j s htakes
  obtain ⟨n, rfl, hn⟩ := hchain htakes
  exact hn

theorem Made.waiting_unfailing [LawfulCursor κ] [LawfulSpan κ] {m : Matcher κ} (h : m.Made)
    (text : List Char) (i : Nat) : m.Waiting ∧ m.Unfailing text i := by
  have hsteady : ∀ {m : Matcher κ}, m.Steady → m.Waiting ∧ m.Unfailing text i := fun h =>
    ⟨h.waiting, fun _ _ htakes => h.unfailed htakes⟩
  cases h with
  | chars name rule => exact hsteady (steady_of_progress? rfl)
  | words h =>
    obtain ⟨w, hw, rfl⟩ := exists_of_map_eq_ok h
    rw [← WordMatcher.fresh_of_make hw]
    exact hsteady (steady_of_progress? rfl)
  | choice _ h =>
    obtain ⟨s, hs, rfl⟩ := exists_of_map_eq_ok h
    rw [← (Choice.fresh_of_make hs).1]
    exact hsteady (steady_of_progress? rfl)
  | chain _ h =>
    obtain ⟨s, hs, rfl⟩ := exists_of_map_eq_ok h
    rw [← (Chain.fresh_of_make hs).1]
    exact ⟨rfl, unfailing_chain rfl text i⟩
  | @custom k h =>
    have hk := hsteady (LawfulSpan.steady k)
    rwa [h] at hk

end Matcher

end Lexing
