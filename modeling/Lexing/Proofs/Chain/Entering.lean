import Lexing.Proofs.Chain.Ends

namespace Lexing.Chain

variable {κ : Type} [CustomMatcher κ] {G m s : Chain (Matcher κ)} {text : List Char} {j : Nat}
  {c : Char} {cur : Cursor}

variable [LawfulCopy κ]

theorem exists_state_tryNext (hG : ∀ a ∈ G.members, a.copy = a) (h : m.groups = G.groups)
    (cur : Cursor) : ∃ broken, (m.tryNext Matcher.accept cur).state = { m with broken } := by
  have hframe : ∀ s : Chain (Matcher κ), s = { m with groups := s.groups, broken := s.broken } →
      s.groups = G.groups → s = { m with broken := s.broken } := by
    intro s hs hgroups
    rw [hs, hgroups, ← h]
  refine ⟨_, hframe _ ?_ ?_⟩
  · simp only [tryNext]
    split
    · rfl
    · rw [offerCurrent]
      split <;> rfl
  · simp only [tryNext]
    split
    · exact groups_recycleCurrent hG h
    · exact (groups_recycleCurrent_offerCurrent ..).trans (groups_recycleCurrent hG h)

theorem between_enter (hG : ∀ a ∈ G.members, a.copy = a) (hbounded : m.Bounded j)
    (hrule : m.rule = G.rule) (hgroups : m.recycleCurrent.groups = G.groups) {b : Matcher κ}
    (hb : m.current = some b) (hends : EndsAt j b.span) (c : Char) (cur : Cursor) :
    (m.enter Matcher.accept c cur).1.Between G j := by
  have hbetween := (between_advance hG hbounded hrule hgroups hb hends).settle c
  rw [enter]
  generalize m.commit.advance.2.settle c = s at hbetween
  have hclose : s.close.Between G j :=
    ⟨hbetween.rule_eq, hbetween.bounded.of_frame rfl, hbetween.endsAt, hbetween.groups_eq⟩
  dsimp only
  split
  · exact hbetween
  · split
    · obtain ⟨broken, hstate⟩ := exists_state_tryNext hG hbetween.groups_eq cur
      rw [hstate]
      split
      · exact ⟨hbetween.rule_eq, hbetween.bounded.of_frame rfl, hbetween.endsAt, hbetween.groups_eq⟩
      · exact ⟨hbetween.rule_eq, hbetween.bounded.of_frame rfl, hbetween.endsAt, hbetween.groups_eq⟩
    · split
      · exact hclose
      · exact hbetween

structure Entering (m G : Chain (Matcher κ)) (text : List Char) (j : Nat) : Prop where
  entering : G.rule = .suffixed ∨ G.rule = .separated
  rule_eq : m.rule = G.rule
  bounded : m.Bounded j
  incomplete : m.complete = false
  groups_eq : m.recycleCurrent.groups = G.groups
  current : m.Holds Matcher.Waiting G text j

theorem Between.entering (h : m.Between G j) (hG : ∀ a ∈ G.members, a.copy = a)
    (hentering : G.rule = .suffixed ∨ G.rule = .separated) (hincomplete : m.complete = false)
    (text : List Char) : m.Entering G text j where
  entering := hentering
  rule_eq := h.rule_eq
  bounded := h.bounded
  incomplete := hincomplete
  groups_eq := groups_recycleCurrent hG h.groups_eq
  current := holds_of_groups h.groups_eq _ text j

omit [LawfulCopy κ] in
theorem active_advance (hincomplete : m.complete = false)
    (hlength : m.rule = .separated → m.recycleCurrent.groups.length ≠ 1)
    (hgroup : m.advance.2.group = 0) (hcomplete : m.advance.2.complete = true) :
    m.advance.2.active = false := by
  have hincomplete : m.recycleCurrent.complete = false := hincomplete
  have hrule : m.recycleCurrent.rule = m.rule := rfl
  rw [advance] at hgroup hcomplete ⊢
  rw [← hrule] at hlength
  generalize m.recycleCurrent = m at *
  dsimp only at hgroup hcomplete ⊢
  split
  · next h =>
    rw [if_pos h] at hcomplete
    cases hincomplete.symm.trans hcomplete
  · next h =>
    rw [if_neg h] at hgroup hcomplete
    split
    · next hseparated =>
      rw [if_pos hseparated] at hgroup hcomplete
      have hone := hlength hseparated
      simp only [hincomplete, Bool.false_or, decide_eq_true_eq] at hcomplete
      rw [if_pos hcomplete, Nat.one_mod_eq_zero_iff] at hgroup
      exact absurd hgroup hone
    · next hseparated =>
      rw [if_neg hseparated] at hgroup hcomplete
      split
      · next hnext =>
        rw [if_pos hnext] at hgroup
        cases hgroup
      · rfl

omit [LawfulCopy κ] in
theorem ended_enter (hincomplete : m.complete = false)
    (hlength : m.rule = .separated → m.recycleCurrent.groups.length ≠ 1)
    (hcomplete : (m.enter Matcher.accept c (.past text j)).1.complete = true) :
    (m.enter Matcher.accept c (.past text j)).1.active = false ∨ text.length ≤ j := by
  have hfirst : (m.commit.advance.2.settle c).group = 0 →
      (m.commit.advance.2.settle c).complete = true →
      (m.commit.advance.2.settle c).active = false := by
    have hadvance := active_advance (m := m.commit)
    rw [commit_eq] at hadvance ⊢
    have hadvance := hadvance hincomplete hlength
    rw [settle]
    split
    · exact hadvance
    · exact hadvance
  rw [enter] at hcomplete ⊢
  generalize m.commit.advance.2.settle c = s at hfirst hcomplete
  dsimp only at hcomplete ⊢
  split
  · next hgroup =>
    rw [if_pos hgroup] at hcomplete
    exact .inl (hfirst hgroup hcomplete)
  · next hgroup =>
    rw [if_neg hgroup] at hcomplete
    split
    · next hnext =>
      rw [if_pos hnext] at hcomplete
      dsimp only at hcomplete ⊢
      split
      · next htry =>
        rw [if_pos htry] at hcomplete
        cases hcomplete
      · exact .inl rfl
    · next hnext =>
      split
      · exact .inl rfl
      · rw [Bool.and_eq_true, not_and, Bool.not_eq_true] at hnext
        cases hactive : s.active with
        | false => exact .inl rfl
        | true =>
          right
          have hend := hnext hactive
          rw [Cursor.hasNext_past, decide_eq_false_iff_not] at hend
          exact Nat.le_of_not_lt hend

omit [LawfulCopy κ] in
theorem Entering.finish (h : m.Entering G text j) (c : Char) (cur : Cursor) :
    (finish true m c cur).state.Entering G text j :=
  ⟨h.entering, h.rule_eq, h.bounded.finish c cur, h.incomplete, h.groups_eq, h.current⟩

theorem Entering.accept [LawfulCursor κ] (h : m.Entering G text j)
    (hG : ∀ a ∈ G.members, a.copy = a) (hends : ∀ a ∈ G.members, a.Ending)
    (hc : text[j]? = some c)
    (htaken : (m.acceptEntering Matcher.accept c (.past text (j + 1))).accepted = true) :
    (m.acceptEntering Matcher.accept c (.past text (j + 1))).state.Entering G text (j + 1) ∨
      (m.acceptEntering Matcher.accept c (.past text (j + 1))).state.Done G text (j + 1) := by
  have hrecycled := groups_recycleCurrent_offerCurrent m c (.past text (j + 1))
  have hcursor := cursor_offerCurrent Matcher.cursor_accept m c (.past text (j + 1))
  have hoffer := h.current.offer hc
  rw [acceptEntering] at htaken ⊢
  generalize m.offerCurrent Matcher.accept c (.past text (j + 1)) = r at *
  dsimp only at htaken ⊢
  split
  · next hback =>
    rw [if_pos hback] at htaken
    cases htaken
  · next hback =>
    rw [if_neg hback] at htaken
    have htaken : r.accepted = true := htaken
    obtain ⟨b, a, i, ha, hstate, hb, htakes, hmatch⟩ := hoffer htaken
    have hbounded : (m.modifyCurrent fun _ => b).Bounded (j + 1) := by
      apply Bounded.succ
      exact h.bounded.of_frame rfl
    rw [hstate] at hrecycled
    rw [htaken, hstate, hcursor, currentComplete_of_current hb]
    cases hdone : b.isComplete with
    | false =>
      left
      have hstay : (m.modifyCurrent fun _ => b).Entering G text (j + 1) := by
        refine ⟨h.entering, h.rule_eq, hbounded, h.incomplete, ?_, ?_⟩
        · rw [hrecycled]
          exact h.groups_eq
        · intro b' hb'
          cases hb.symm.trans hb'
          exact ⟨a, ha, i, htakes hdone⟩
      exact hstay.finish c _
    | true =>
      have hgroups := (hrecycled).trans h.groups_eq
      have hbetween := between_enter hG hbounded h.rule_eq hgroups hb
        (hends a ha (hmatch rfl hdone)) c (.past text (j + 1))
      have hended : _ → _ → (enter Matcher.accept (m.modifyCurrent fun _ => b) c
          (.past text (j + 1))).1.active = false ∨ text.length ≤ j + 1 := ended_enter h.incomplete
      rw [if_pos rfl]
      generalize (m.modifyCurrent fun _ => b).enter Matcher.accept c (.past text (j + 1)) = s at *
      cases hcomplete : s.1.complete with
      | false => exact .inl ((hbetween.entering hG h.entering hcomplete text).finish c s.2)
      | true =>
        right
        apply Done.finish
        refine ⟨hbetween.bounded, hbetween.endsAt, hcomplete, ?_⟩
        intro hregular
        apply hended _ hcomplete
        rw [hgroups]
        intro hseparated
        exact hregular.2 (h.rule_eq.symm.trans hseparated)

omit [LawfulCopy κ] in
theorem Entering.refused (h : m.Entering G text j)
    (hrefused : (m.acceptEntering Matcher.accept c cur).accepted = false)
    (hcomplete : (m.acceptEntering Matcher.accept c cur).state.isComplete = true) :
    EndsBefore j (m.acceptEntering Matcher.accept c cur).state.span ∧
      (m.acceptEntering Matcher.accept c cur).state.active = false := by
  have hframe : (m.offerCurrent Matcher.accept c cur).state.frame = m.frame :=
    frame_offerCurrent ..
  have hbounded : (m.offerCurrent Matcher.accept c cur).state.Bounded j := h.bounded.of_frame hframe
  have hincomplete : (m.offerCurrent Matcher.accept c cur).state.complete = false := by
    rw [offerCurrent]
    split
    · exact h.incomplete
    · exact h.incomplete
  rw [acceptEntering] at hrefused hcomplete ⊢
  generalize m.offerCurrent Matcher.accept c cur = r at *
  dsimp only at hrefused hcomplete ⊢
  split
  · next hback =>
    rw [if_pos hback] at hcomplete
    rw [fallBack] at hcomplete ⊢
    dsimp only at hcomplete ⊢
    cases hsettled : r.state.settled with
    | none => simp [recycleCurrent, modifyCurrent, hsettled, isComplete] at hcomplete
    | some s =>
      simp only [recycleCurrent, modifyCurrent, hsettled]
      exact ⟨hbounded.settled s hsettled, rfl⟩
  · next hback =>
    rw [if_neg hback] at hrefused hcomplete
    have hrefused : r.accepted = false := hrefused
    rw [isComplete_finish_of_refused hrefused] at hcomplete
    cases hcomplete

end Lexing.Chain
