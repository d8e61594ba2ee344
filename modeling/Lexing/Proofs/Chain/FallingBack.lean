import Lexing.Proofs.Chain.Passing
import Lexing.Proofs.Matcher.Unfailing
import Mathlib.Order.Bounds.Basic

/-!
Where a chain with suffixes or separators falls back to. As long as it takes all characters, a chain
behind its first group is `Anchored`: it keeps the span and the length of the text that it had when
it last finished a group, and goes back to them with the character that its current member refuses
(`falls_back_to_finished`).
-/

namespace Lexing

namespace Chain

section Moves

variable {α : Type} [Member α] {offer : Offer α}

theorem text_enter (m : Chain α) (c : Char) (cur : Cursor) :
    (m.enter offer c cur).1.text = m.text := by
  have htaken : (m.enter offer c cur).1.taken = m.taken := by
    rcases @kept_enter α _ offer m c cur with h | ⟨span, h⟩
    · exact congrArg Prod.fst h
    · exact congrArg Prod.fst h
  rw [text, text, htaken]

variable (offer) in
theorem settled_enter_or (m : Chain α) (c : Char) (cur : Cursor) :
    (m.enter offer c cur).1.settled = m.settled ∨
      ∃ span, (m.enter offer c cur).1.settled = some ⟨span, utf8Length m.text + c.utf8Size⟩ := by
  rcases @kept_enter α _ offer m c cur with h | ⟨span, h⟩
  · exact .inl (congrArg Prod.snd h)
  · exact .inr ⟨span, congrArg Prod.snd h⟩

theorem boundary_enter {m : Chain α}
    (h : ∀ t, m.settled = some t → ∃ w, w <+: m.text ∧ t.bytes = utf8Length w) (c : Char)
    (cur : Cursor) : ∀ t, (m.enter offer c cur).1.settled = some t →
      ∃ w, w <+: m.text ++ [c] ∧ t.bytes = utf8Length w := by
  intro t ht
  rcases settled_enter_or offer m c cur with hsame | ⟨span, hnew⟩
  · obtain ⟨w, hw, hbytes⟩ := h t (hsame.symm.trans ht)
    exact ⟨w, hw.trans (List.prefix_append ..), hbytes⟩
  · cases hnew.symm.trans ht
    exact ⟨m.text ++ [c], List.prefix_rfl, (utf8Length_append m.text [c]).symm⟩

theorem cases_advance (m : Chain α) :
    (m.index + 1 < m.groupSize ∧ m.advance.2.group = m.group ∧
      m.advance.2.complete = m.complete) ∨
    (m.groupSize ≤ m.index + 1 ∧
      (m.completes m.group = true ∧ m.advance.2.complete = true ∨
        m.completes m.group = false ∧ m.advance.2.group = 0)) := by
  have hsize : m.recycleCurrent.groupSize = m.groupSize := groupSize_modifyCurrent _ m
  have hindex : m.recycleCurrent.index = m.index := rfl
  rw [advance]
  dsimp only
  rw [hsize, hindex]
  split
  · next hlt => exact .inl ⟨hlt, rfl, rfl⟩
  · next hle =>
    refine .inr ⟨Nat.le_of_not_lt hle, ?_⟩
    have hrule : m.recycleCurrent.rule = m.rule := rfl
    have hgroup : m.recycleCurrent.group = m.group := rfl
    rw [hrule, hgroup, completes]
    split
    · next hseparated =>
      by_cases hzero : m.group = 0
      · exact .inl ⟨by simp [hzero], by simp [hzero]⟩
      · exact .inr ⟨by simp [hseparated, hzero], by simp [hzero]⟩
    · next hrule => split <;> exact .inl ⟨by simp [hrule], rfl⟩

variable (offer) in
theorem frame_enter (m : Chain α) (c : Char) (cur : Cursor) :
    (m.enter offer c cur).1.frame = (m.commit.advance.2.settle c).frame := by
  rw [enter]
  generalize m.commit.advance.2.settle c = s
  dsimp only
  split
  · rfl
  · split
    · split <;> simp
    · split <;> rfl

theorem rule_enter (m : Chain α) (c : Char) (cur : Cursor) :
    (m.enter offer c cur).1.rule = m.rule := by
  refine (congrArg Chain.rule (frame_enter offer m c cur)).trans ?_
  rw [settle_eq]
  refine (congrArg Chain.rule (frame_advance m.commit)).trans ?_
  rw [commit_eq]
  rfl

variable (offer) in
theorem group_enter (m : Chain α) (c : Char) (cur : Cursor) :
    (m.enter offer c cur).1.group = m.commit.advance.2.group := by
  have hsettled : (m.commit.advance.2.settle c).group = m.commit.advance.2.group := by
    rw [settle_eq]
  rw [enter, ← hsettled]
  generalize m.commit.advance.2.settle c = s
  have htried : (s.tryNext offer cur).state.group = s.group := by
    simp only [tryNext]
    split
    · rfl
    · exact group_offerCurrent ..
  dsimp only
  split
  · rfl
  · split
    · split <;> exact htried
    · split <;> rfl

variable (offer) in
theorem settled_enter (m : Chain α) (c : Char) (cur : Cursor) :
    (m.enter offer c cur).1.settled =
      if m.commit.advance.2.complete then
        some ⟨(m.enter offer c cur).1.span, utf8Length m.text + c.utf8Size⟩
      else m.settled := by
  have hframe := frame_enter offer m c cur
  obtain ⟨htaken, hkept⟩ := Prod.mk.inj ((kept_advance m.commit).trans (kept_commit m))
  have hsettled : (m.enter offer c cur).1.settled = (m.commit.advance.2.settle c).settled :=
    congrArg Prod.snd (kept_of_frame hframe)
  have hspan : (m.enter offer c cur).1.span = m.commit.advance.2.span := by
    refine (congrArg Chain.span hframe).trans ?_
    rw [settle_eq]
    rfl
  rw [hsettled, hspan, settle]
  split
  · rw [text, text, htaken]
  · exact hkept

variable (offer) in
theorem cases_enter (m : Chain α) (c : Char) (cur : Cursor) :
    let s := (m.enter offer c cur).1
    (m.index + 1 < m.groupSize ∧ s.group = m.group ∧
      (m.complete = false → s.settled = m.settled)) ∨
    (m.groupSize ≤ m.index + 1 ∧ m.completes m.group = true ∧
      s.settled = some ⟨s.span, utf8Length m.text + c.utf8Size⟩) ∨
    s.group = 0 := by
  have hcommit : m.commit.index = m.index ∧ m.commit.groupSize = m.groupSize ∧
      m.commit.group = m.group ∧ m.commit.complete = m.complete ∧
      m.commit.completes m.commit.group = m.completes m.group := by
    rw [commit_eq]
    exact ⟨rfl, rfl, rfl, rfl, rfl⟩
  obtain ⟨hindex, hsize, hgroup, hcomplete, hcompletes⟩ := hcommit
  have hadvance := cases_advance m.commit
  rw [hcompletes, hindex, hsize, hgroup, hcomplete] at hadvance
  intro s
  have hsettled := settled_enter offer m c cur
  have hentered := group_enter offer m c cur
  rcases hadvance with ⟨hlt, hsame, hcomplete⟩ | ⟨hle, ⟨hcompletes, hcomplete⟩ | ⟨-, hzero⟩⟩
  · refine .inl ⟨hlt, hentered.trans hsame, fun hincomplete => ?_⟩
    rw [hcomplete, hincomplete] at hsettled
    exact hsettled
  · rw [hcomplete] at hsettled
    exact .inr (.inl ⟨hle, hcompletes, hsettled⟩)
  · exact .inr (.inr (hentered.trans hzero))

theorem open_enter {text : List Char} {j : Nat} (m : Chain α) (c : Char) :
    (m.enter offer c (.past text j)).1.group ≠ 0 →
      (m.enter offer c (.past text j)).1.active = true →
      (m.enter offer c (.past text j)).1.complete = true → text.length ≤ j := by
  rw [enter]
  generalize m.commit.advance.2.settle c = s
  dsimp only
  split
  · next hgroup => exact fun hlater => absurd hgroup hlater
  · split
    · split
      · exact fun _ _ hcomplete => absurd hcomplete Bool.false_ne_true
      · exact fun _ hactive => absurd hactive Bool.false_ne_true
    · next hnext =>
      split
      · exact fun _ hactive => absurd hactive Bool.false_ne_true
      · intro _ hactive _
        rw [hactive, Bool.true_and, Cursor.hasNext_past, decide_eq_true_eq] at hnext
        exact Nat.le_of_not_lt hnext

/-- Behind its first group the chain knows a point to fall back to. -/
def Backed (m : Chain α) : Prop := m.group ≠ 0 → m.settled ≠ none

theorem Backed.enter {m : Chain α} (h : m.Backed) (c : Char) (cur : Cursor) :
    (m.enter offer c cur).1.Backed := by
  intro hlater
  rcases cases_enter offer m c cur with ⟨-, hsame, -⟩ | ⟨-, -, hsettled⟩ | hzero
  · rcases settled_enter_or offer m c cur with hkept | ⟨span, hnew⟩
    · rw [hkept]
      exact h (hsame ▸ hlater)
    · rw [hnew]
      nofun
  · rw [hsettled]
    nofun
  · exact absurd hzero hlater

theorem Backed.accept {m : Chain α} (h : m.Backed)
    (hrule : m.rule = .suffixed ∨ m.rule = .separated) (c : Char) (cur : Cursor) :
    (m.accept offer c cur).state.Backed := by
  have hoffered : (m.offerCurrent offer c cur).state.Backed := by
    rw [offerCurrent]
    split <;> exact h
  have hfinish : ∀ (accepted : Bool) (s : Chain α) (cur : Cursor), s.Backed →
      (finish accepted s c cur).state.Backed := by
    intro accepted s cur hs
    cases accepted <;> exact hs
  have hentering : (m.acceptEntering offer c cur).state.Backed := by
    rw [acceptEntering]
    generalize m.offerCurrent offer c cur = r at hoffered
    dsimp only
    split
    · rw [fallBack]
      dsimp only
      split <;> exact hoffered
    · apply hfinish
      split
      · exact hoffered.enter c r.cursor
      · exact hoffered
  rw [Chain.accept]
  split
  · exact h
  · rcases hrule with hrule | hrule <;> rw [hrule] <;> exact hentering

end Moves

variable {κ : Type} [CustomMatcher κ]

def Finishes (m : Chain (Matcher κ)) (c : Char) (cur : Cursor) : Prop :=
  m.completes m.group = true ∧ m.index + 1 = m.groupSize ∧
    ∃ a, m.current = some a ∧ (a.accept c cur).state.isComplete = true

end Chain

namespace Matcher

variable {κ : Type} [CustomMatcher κ]

def FinishesAt (m : Matcher κ) (text : List Char) (i k : Nat) : Prop :=
  ∃ n c, Takes (fun _ => True) text m i k (mk (.chain n)) ∧ text[k]? = some c ∧
    n.Finishes c (.past text (k + 1))

end Matcher

namespace Chain

variable {κ : Type} [CustomMatcher κ] {m : Matcher κ} {n : Chain (Matcher κ)} {text : List Char}
  {i j k : Nat} {c : Char}

structure Anchored (n : Chain (Matcher κ)) (m : Matcher κ) (text : List Char) (i j : Nat) :
    Prop where
  entering : n.rule = .suffixed ∨ n.rule = .separated
  unfailed : n.failed = false
  incomplete : n.group ≠ 0 → n.active = true → n.complete = true → text.length ≤ j
  boundary : ∀ t, n.settled = some t → ∃ w, w <+: n.text ∧ t.bytes = utf8Length w
  anchor : n.group ≠ 0 → ∃ k s, IsGreatest {k | k < j ∧ m.FinishesAt text i k} k ∧
    Matcher.Takes (fun _ => True) text m i (k + 1) s ∧ s.text <+: n.text ∧
    n.settled = some ⟨s.span, utf8Length s.text⟩

theorem finishes_of_finishesAt (htakes : Matcher.Takes (fun _ => True) text m i j (.mk (.chain n)))
    (hc : text[j]? = some c) (h : m.FinishesAt text i j) : n.Finishes c (.past text (j + 1)) := by
  obtain ⟨n', c', htakes', hc', hfinishes⟩ := h
  cases htakes.unique htakes'
  cases hc.symm.trans hc'
  exact hfinishes

theorem isGreatest_succ {P : Nat → Prop} (h : IsGreatest {k | k < j ∧ P k} k) (hj : ¬P j) :
    IsGreatest {k | k < j + 1 ∧ P k} k := by
  refine ⟨⟨Nat.lt_succ_of_lt h.1.1, h.1.2⟩, ?_⟩
  rintro l ⟨hl, hP⟩
  rcases Nat.lt_succ_iff_lt_or_eq.1 hl with hl | rfl
  · exact h.2 ⟨hl, hP⟩
  · exact absurd hP hj

theorem isGreatest_self {P : Nat → Prop} (hj : P j) : IsGreatest {k | k < j + 1 ∧ P k} j :=
  ⟨⟨Nat.lt_succ_self j, hj⟩, fun _ hl => Nat.le_of_lt_succ hl.1⟩

theorem not_finishesAt_of_incomplete {a : Matcher κ}
    (htakes : Matcher.Takes (fun _ => True) text m i j (.mk (.chain n))) (hc : text[j]? = some c)
    (ha : n.current = some a) (hdone : (a.accept c (.past text (j + 1))).state.isComplete = false) :
    ¬m.FinishesAt text i j := by
  intro hfinishes
  obtain ⟨-, -, b, hb, hcomplete⟩ := finishes_of_finishesAt htakes hc hfinishes
  cases ha.symm.trans hb
  exact Bool.false_ne_true (hdone.symm.trans hcomplete)

theorem takes_accept (htakes : Matcher.Takes (fun _ => True) text m i j (.mk (.chain n)))
    (hc : text[j]? = some c)
    (htaken : (n.accept Matcher.accept c (.past text (j + 1))).accepted = true) :
    Matcher.Takes (fun _ => True) text m i (j + 1)
      (.mk (.chain (n.accept Matcher.accept c (.past text (j + 1))).state)) := by
  have hmk := Matcher.accept_mk (.chain n) c (.past text (j + 1))
  have hnext := htakes.take hc ((congrArg Reply.accepted hmk).trans htaken) trivial
  rw [hmk] at hnext
  exact hnext

namespace Anchored

variable {s : Chain (Matcher κ)}

theorem complete_eq (h : n.Anchored m text i j) (hlater : n.group ≠ 0) (hactive : n.active = true)
    (hc : text[j]? = some c) : n.complete = false := by
  apply eq_false_of_ne_true
  intro hcomplete
  have hlt := (List.getElem?_eq_some_iff.1 hc).1
  exact absurd (h.incomplete hlater hactive hcomplete) (Nat.not_le_of_lt hlt)

theorem keep (h : n.Anchored m text i j) (hj : ¬m.FinishesAt text i j) (hlater : n.group ≠ 0)
    (htext : s.text = n.text) (hsettled : s.settled = n.settled) (c : Char) (cur : Cursor) :
    ∃ k t, IsGreatest {k | k < j + 1 ∧ m.FinishesAt text i k} k ∧
      Matcher.Takes (fun _ => True) text m i (k + 1) t ∧
      t.text <+: (finish true s c cur).state.text ∧
      s.settled = some ⟨t.span, utf8Length t.text⟩ := by
  obtain ⟨k, t, hk, htakes, hprefix, ht⟩ := h.anchor hlater
  refine ⟨k, t, isGreatest_succ hk hj, htakes, ?_, hsettled.trans ht⟩
  rw [text_finish_true, htext]
  exact hprefix.trans (List.prefix_append ..)

theorem reach (hj : m.FinishesAt text i j) (htext : s.text = n.text)
    (hsettled : s.settled = some ⟨s.span, utf8Length n.text + c.utf8Size⟩) (cur : Cursor)
    (hnext : Matcher.Takes (fun _ => True) text m i (j + 1)
      (.mk (.chain (finish true s c cur).state))) :
    ∃ k t, IsGreatest {k | k < j + 1 ∧ m.FinishesAt text i k} k ∧
      Matcher.Takes (fun _ => True) text m i (k + 1) t ∧
      t.text <+: (finish true s c cur).state.text ∧
      s.settled = some ⟨t.span, utf8Length t.text⟩ := by
  refine ⟨j, _, isGreatest_self hj, hnext, List.prefix_rfl, ?_⟩
  have hnextText : (Matcher.mk (.chain (finish true s c cur).state)).text = n.text ++ [c] :=
    (text_finish_true s c cur).trans (congrArg (· ++ [c]) htext)
  rw [hnextText, utf8Length_append]
  exact hsettled

theorem leave (h : n.Anchored m text i j)
    (htakes : Matcher.Takes (fun _ => True) text m i j (.mk (.chain n))) (hactive : n.active = true)
    (hc : text[j]? = some c) {a b : Matcher κ} (ha : n.current = some a)
    (hb : (a.accept c (.past text (j + 1))).state = b) (hdone : b.isComplete = true)
    (hs : ((n.modifyCurrent fun _ => b).enter Matcher.accept c (.past text (j + 1))).1 = s)
    (cur : Cursor)
    (hnext : Matcher.Takes (fun _ => True) text m i (j + 1)
      (.mk (.chain (finish true s c cur).state))) :
    (finish true s c cur).state.Anchored m text i (j + 1) := by
  have htext : s.text = n.text := by
    rw [← hs, text_enter]
    rfl
  have hrule : s.rule = n.rule := by
    rw [← hs, rule_enter]
    rfl
  have hfailed : s.failed = n.failed := by
    rw [← hs, failed_enter]
    rfl
  have hopen : s.group ≠ 0 → s.active = true → s.complete = true → text.length ≤ j + 1 := by
    rw [← hs]
    exact open_enter _ c
  refine ⟨hrule ▸ h.entering, hfailed.trans h.unfailed, hopen, ?_, ?_⟩
  · intro t ht
    have hsettled : s.settled = some t := ht
    rw [← hs] at hsettled
    rw [text_finish_true, htext]
    exact boundary_enter (m := n.modifyCurrent fun _ => b) h.boundary c _ t hsettled
  · intro hlater
    have hcases := cases_enter Matcher.accept (n.modifyCurrent fun _ => b) c (.past text (j + 1))
    rw [groupSize_modifyCurrent, hs] at hcases
    rcases hcases with ⟨hlt, hsame, hsettled⟩ | ⟨hle, hcompletes, hsettled⟩ | hzero
    · have hlt : n.index + 1 < n.groupSize := hlt
      have hlater : n.group ≠ 0 := fun hzero => hlater (hsame.trans hzero)
      have hj : ¬m.FinishesAt text i j := fun hfinishes =>
        absurd (finishes_of_finishesAt htakes hc hfinishes).2.1 (Nat.ne_of_lt hlt)
      exact h.keep hj hlater htext (hsettled (h.complete_eq hlater hactive hc)) c cur
    · have hlast : n.index + 1 = n.groupSize := Nat.le_antisymm (index_lt_of_current ha) hle
      have hj : m.FinishesAt text i j :=
        ⟨n, c, htakes, hc, hcompletes, hlast, a, ha, hb ▸ hdone⟩
      exact reach hj htext hsettled cur hnext
    · exact absurd hzero hlater

theorem stay (h : n.Anchored m text i j) (hj : ¬m.FinishesAt text i j)
    (hc : text[j]? = some c) (b : Matcher κ) (cur : Cursor) :
    (finish true (n.modifyCurrent fun _ => b) c cur).state.Anchored m text i (j + 1) where
  entering := h.entering
  unfailed := h.unfailed
  incomplete hlater hactive hcomplete :=
    absurd (hcomplete.symm.trans (h.complete_eq hlater hactive hc)) Bool.noConfusion
  boundary t ht := by
    obtain ⟨w, hw, hbytes⟩ := h.boundary t ht
    rw [text_finish_true]
    exact ⟨w, hw.trans (List.prefix_append ..), hbytes⟩
  anchor hlater := h.keep hj hlater rfl rfl c cur

theorem accept [LawfulCursor κ] (h : n.Anchored m text i j)
    (htakes : Matcher.Takes (fun _ => True) text m i j (.mk (.chain n))) (hc : text[j]? = some c)
    (htaken : (n.accept Matcher.accept c (.past text (j + 1))).accepted = true) :
    (n.accept Matcher.accept c (.past text (j + 1))).state.Anchored m text i (j + 1) := by
  have hactive := active_of_taken htaken
  have hnext := takes_accept htakes hc htaken
  rw [accept_of_entering hactive h.entering, acceptEntering] at htaken hnext ⊢
  dsimp only at htaken hnext ⊢
  split at htaken
  · cases htaken
  · next hback =>
    have htaken : (n.offerCurrent Matcher.accept c (.past text (j + 1))).accepted = true := htaken
    rw [if_neg hback, htaken] at hnext
    rw [if_neg hback, htaken]
    obtain ⟨a, ha⟩ := exists_current_of_accepted htaken
    rw [offerCurrent_of_current ha] at hnext ⊢
    simp only [Reply.map, Matcher.cursor_accept] at hnext ⊢
    generalize hb : (a.accept c (.past text (j + 1))).state = b at hnext ⊢
    have hcurrent : (n.modifyCurrent fun _ => b).current = some b := by
      rw [current_modifyCurrent, ha]
      rfl
    rw [currentComplete_of_current hcurrent] at hnext ⊢
    cases hdone : b.isComplete with
    | false =>
      exact h.stay (not_finishesAt_of_incomplete htakes hc ha (hb ▸ hdone)) hc b _
    | true =>
      rw [hdone] at hnext
      exact h.leave htakes hactive hc ha hb hdone rfl _ hnext

theorem refused (h : n.Anchored m text i j) (hactive : n.active = true) (hlater : n.group ≠ 0)
    {a : Matcher κ} (ha : n.current = some a) {cur : Cursor}
    (hrefused : (a.accept c cur).accepted = false ∨ (a.accept c cur).state.isFailed = true) :
    let r := n.accept Matcher.accept c cur
    r.accepted = false ∧ r.state.complete = true ∧ r.state.failed = false ∧
      ∃ k s, IsGreatest {k | k < j ∧ m.FinishesAt text i k} k ∧
        Matcher.Takes (fun _ => True) text m i (k + 1) s ∧ r.state.text = s.text ∧
        r.state.span = s.span := by
  obtain ⟨k, s, hk, htakes, hprefix, hsettled⟩ := h.anchor hlater
  have hcurrent : (n.modifyCurrent fun _ => (a.accept c cur).state).current =
      some (a.accept c cur).state := by
    rw [current_modifyCurrent, ha]
    rfl
  have hback : (decide (0 < n.group) && (!(a.accept c cur).accepted ||
      (a.accept c cur).state.isFailed)) = true := by
    rcases hrefused with hrefused | hrefused <;> simp [Nat.pos_of_ne_zero hlater, hrefused]
  intro r
  have hr : r = ⟨false, (n.modifyCurrent fun _ => (a.accept c cur).state).fallBack,
      (a.accept c cur).cursor⟩ := by
    simp only [r, accept_of_entering hactive h.entering, acceptEntering,
      offerCurrent_of_current ha, Reply.map, currentFailed_of_current hcurrent]
    exact if_pos hback
  have hstate : r.state = { (n.modifyCurrent fun _ => (a.accept c cur).state).recycleCurrent with
      span := s.span, taken := (takeBytes (utf8Length s.text) n.text).reverse,
      complete := true, active := false,
      broken := (n.modifyCurrent fun _ => (a.accept c cur).state).recycleCurrent.broken ||
        splitsChar (utf8Length s.text) n.text } := by
    rw [hr, fallBack]
    dsimp only
    rw [show ((n.modifyCurrent fun _ => (a.accept c cur).state).recycleCurrent).settled = _
      from hsettled]
    rfl
  rw [hstate]
  refine ⟨congrArg Reply.accepted hr, rfl, h.unfailed, k, s, hk, htakes, ?_, rfl⟩
  rw [Chain.text, List.reverse_reverse]
  exact takeBytes_of_prefix hprefix

end Anchored

theorem anchored_of_takes [LawfulCursor κ] {G : Chain (Matcher κ)}
    (hentering : G.rule = .suffixed ∨ G.rule = .separated) (hfresh : G.fresh = G)
    {s : Matcher κ} (h : Matcher.Takes (fun _ => True) text (.mk (.chain G)) i j s) :
    ∃ n, s = .mk (.chain n) ∧ n.Anchored (.mk (.chain G)) text i j := by
  induction h with
  | start =>
    refine ⟨G, rfl, ?_⟩
    rw [← hfresh]
    exact ⟨hentering, rfl, nofun, nofun, fun hlater => absurd rfl hlater⟩
  | take htakes hc htaken _ ih =>
    obtain ⟨n, rfl, hn⟩ := ih
    rw [Matcher.accept_mk] at htaken ⊢
    exact ⟨_, rfl, hn.accept htakes hc htaken⟩

theorem backed_of_actAll {G : Chain (Matcher κ)}
    (hentering : G.rule = .suffixed ∨ G.rule = .separated) (hG : G.Backed)
    (actions : List Matcher.Action) :
    ∃ n, (Matcher.mk (.chain G)).actAll actions = .mk (.chain n) ∧ n.rule = G.rule ∧ n.Backed := by
  induction actions generalizing G with
  | nil => exact ⟨G, rfl, rfl, hG⟩
  | cons action rest ih =>
    have hact : ∃ n, (Matcher.mk (.chain G)).act action = .mk (.chain n) ∧ n.rule = G.rule ∧
        n.Backed := by
      cases action with
      | accept c cur =>
        exact ⟨_, Matcher.state_accept_mk (.chain G) c cur, rule_accept G c cur,
          hG.accept hentering c cur⟩
      | reset => exact ⟨_, Matcher.reset_mk (.chain G), rfl, fun hlater => absurd rfl hlater⟩
      | recycle =>
        rw [Matcher.act, Matcher.recycle]
        split
        · exact ⟨_, Matcher.reset_mk (.chain G), rfl, fun hlater => absurd rfl hlater⟩
        · exact ⟨_, Matcher.copy_mk (.chain G), rfl, fun hlater => absurd rfl hlater⟩
    obtain ⟨n, hn, hrule, hbacked⟩ := hact
    obtain ⟨n', hn', hrule', hbacked'⟩ := ih (hrule ▸ hentering) hbacked
    refine ⟨n', ?_, hrule'.trans hrule, hbacked'⟩
    rw [Matcher.actAll, List.foldl_cons, hn]
    exact hn'

end Chain

namespace Matcher

variable {κ : Type} [CustomMatcher κ]

/-- A chain with suffixes or separators that has taken all characters so far, and whose current
member in a later group refuses the next one or fails with it, is complete with the text and the
span that it had behind the last character to finish a group. What it remembers as the length of the
text is always that of a beginning of the text, and however it is used it has such a point to go
back to in every later group. -/
theorem falls_back_to_finished [LawfulCursor κ] {name : String} {rule : ChainRule}
    {groups : List (List (Matcher κ))} {hideFirst : Bool} {m : Matcher κ}
    (hrule : rule = .suffixed ∨ rule = .separated)
    (hm : chain name rule groups hideFirst = .ok m) :
    (∀ text i j n, Takes (fun _ => True) text m i j (mk (.chain n)) →
      (∀ t, n.settled = some t → ∃ w, w <+: n.text ∧ t.bytes = utf8Length w) ∧
      ∀ c a, n.active = true → n.group ≠ 0 → text[j]? = some c → n.current = some a →
        (a.accept c (.past text (j + 1))).accepted = false ∨
          (a.accept c (.past text (j + 1))).state.isFailed = true →
        let r := (mk (.chain n)).accept c (.past text (j + 1))
        r.accepted = false ∧ r.state.isComplete = true ∧ r.state.isFailed = false ∧
          ∃ k s, IsGreatest {k | k < j ∧ m.FinishesAt text i k} k ∧
            Takes (fun _ => True) text m i (k + 1) s ∧
            r.state.text = s.text ∧ r.state.span = s.span) ∧
    ∀ actions n, m.actAll actions = mk (.chain n) → n.group ≠ 0 → n.settled ≠ none := by
  obtain ⟨made, hmake, rfl⟩ := exists_of_map_eq_ok hm
  obtain ⟨rfl, -⟩ := Chain.eq_of_make hmake
  generalize hG : ({ name, rule, groups, hideFirst } : Chain (Matcher κ)) = G
  have hentering : G.rule = .suffixed ∨ G.rule = .separated := hG ▸ hrule
  have hfresh : G.fresh = G := by
    rw [← hG]
    rfl
  constructor
  · intro text i j n htakes
    obtain ⟨n', hn', hanchored⟩ := Chain.anchored_of_takes hentering hfresh htakes
    cases hn'
    refine ⟨hanchored.boundary, ?_⟩
    intro c a hactive hlater hc ha hrefused
    obtain ⟨haccepted, hcomplete, hfailed, hback⟩ := hanchored.refused hactive hlater ha hrefused
    intro r
    have hr : r = _ := accept_mk (.chain n) c (.past text (j + 1))
    rw [hr]
    refine ⟨haccepted, ?_, hfailed, hback⟩
    exact Bool.and_eq_true_iff.2 ⟨hcomplete, by simp [hfailed]⟩
  · intro actions n hn
    have hbacked : G.Backed := by
      rw [← hfresh]
      exact fun hlater => absurd rfl hlater
    obtain ⟨n', hn', -, hbacked⟩ := Chain.backed_of_actAll hentering hbacked actions
    cases hn.symm.trans hn'
    exact hbacked

theorem falls_back_to_finished_accented :
    let groups : List (List (Matcher Empty)) := [[.chars "one" (.one (.singleton 'é'))],
      [mk (.words { name := "word", rule := .longest, words := [['à', 'b']] })]]
    let m : Matcher Empty := mk (.chain { name := "row", rule := .suffixed, groups })
    let text := ['é', 'à', 'x']
    chain "row" .suffixed groups false = .ok m ∧ ∃ n a,
      Takes (fun _ => True) text m 0 2 (mk (.chain n)) ∧ n.active = true ∧ n.group ≠ 0 ∧
        n.text = ['é', 'à'] ∧ n.current = some a ∧
        (a.accept 'x' (.past text 3)).accepted = false ∧
        let r := (mk (.chain n)).accept 'x' (.past text 3)
        r.state.text = ['é'] ∧ r.accepted = false ∧ r.state.isComplete = true ∧
          r.state.isFailed = false ∧
          ∃ k s, IsGreatest {k | k < 2 ∧ m.FinishesAt text 0 k} k ∧
            Takes (fun _ => True) text m 0 (k + 1) s ∧
            r.state.text = s.text ∧ r.state.span = s.span := by
  -- at `x` the word of the second group is given up, and with it its first character, which has two
  -- bytes
  intro groups m text
  have hone : Takes (fun _ => True) text m 0 1 _ :=
    Chain.takes_accept (c := 'é') .start rfl (by decide +kernel)
  obtain ⟨n, htwo, hactive, hlater, htext, hback, hsome, hrefused⟩ : ∃ n,
      Takes (fun _ => True) text m 0 2 (mk (.chain n)) ∧ n.active = true ∧ n.group ≠ 0 ∧
        n.text = ['é', 'à'] ∧ ((mk (.chain n)).accept 'x' (.past text 3)).state.text = ['é'] ∧
        ∃ hsome, ((n.current.get hsome).accept 'x' (.past text 3)).accepted = false :=
    ⟨_, Chain.takes_accept (c := 'à') hone rfl (by decide +kernel), by decide +kernel,
      by decide +kernel, by decide +kernel, by decide +kernel, by decide +kernel, by decide +kernel⟩
  have hcurrent := (Option.some_get hsome).symm
  have hm : chain "row" .suffixed groups false = .ok m := rfl
  refine ⟨hm, n, _, htwo, hactive, hlater, htext, hcurrent, hrefused, hback, ?_⟩
  exact ((falls_back_to_finished (.inl rfl) hm).1 text 0 2 n htwo).2 'x' _ hactive hlater rfl
    hcurrent (.inl hrefused)

end Matcher

end Lexing
