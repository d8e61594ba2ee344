import Lexing.Proofs.Chain.Moves
import Lexing.Proofs.Matcher.Copy
import Lexing.Proofs.Matcher.Steady

namespace Lexing

theorem Span.stop_union (s t : Span) :
    (s.union t).stop.offset = max s.stop.offset t.stop.offset := by
  simp only [union]
  split <;> omega

namespace Chain

section Bounded

variable {α : Type} {m s : Chain α} {j : Nat}

structure Bounded (m : Chain α) (j : Nat) : Prop where
  shown : m.hideFirst = false
  unfailed : m.failed = false
  span : ∀ s, m.span = some s → s.stop.offset < j
  settled : ∀ s, m.settled = some s → EndsBefore j s.span

namespace Bounded

theorem of_frame (h : m.Bounded j) (hs : s.frame = m.frame) : s.Bounded j where
  shown := (congrArg hideFirst hs).trans h.shown
  unfailed := (congrArg failed hs).trans h.unfailed
  span t ht := h.span t ((congrArg Chain.span hs).symm.trans ht)
  settled t ht := h.settled t ((congrArg Chain.settled hs).symm.trans ht)

theorem succ (h : m.Bounded j) : m.Bounded (j + 1) where
  shown := h.shown
  unfailed := h.unfailed
  span t ht := Nat.lt_succ_of_lt (h.span t ht)
  settled t ht := by
    obtain ⟨u, hu, hlt⟩ := h.settled t ht
    exact ⟨u, hu, Nat.lt_succ_of_lt hlt⟩

theorem finish (h : m.Bounded j) (c : Char) (cur : Cursor) :
    (Chain.finish true m c cur).state.Bounded j :=
  ⟨h.shown, h.unfailed, h.span, h.settled⟩

variable [Member α]

theorem span_commit (h : m.Bounded j) :
    m.commit.span = match m.current.bind Member.span with
      | none => m.span
      | some t => some (Span.merge m.span t) := by
  rw [Chain.commit, if_neg (by simp [h.shown])]
  cases m.current.bind Member.span <;> rfl

theorem commit (h : m.Bounded j) {b : α} (hb : m.current = some b)
    (hspan : ∀ t, Member.span b = some t → t.stop.offset < j) : m.commit.Bounded j := by
  have hs := h.span_commit
  rw [commit_eq]
  refine ⟨h.shown, h.unfailed, ?_, h.settled⟩
  intro u hu
  rw [show m.commit.span = some u from hu, hb, Option.bind_some] at hs
  cases ht : Member.span b with
  | none =>
    rw [ht] at hs
    exact h.span u hs.symm
  | some t =>
    have hlt := hspan t ht
    simp only [ht, Option.some.injEq] at hs
    rw [hs]
    cases hm : m.span with
    | none => exact hlt
    | some v =>
      have hv := h.span v hm
      simp only [Span.merge, Span.stop_union]
      omega

theorem commit_endsAt (h : m.Bounded j) {b : α} (hb : m.current = some b)
    (hends : EndsAt j (Member.span b)) : m.commit.Bounded j ∧ EndsAt j m.commit.span := by
  obtain ⟨t, ht, hstop⟩ := hends
  constructor
  · apply h.commit hb
    intro u hu
    cases ht.symm.trans hu
    omega
  rw [h.span_commit, hb, Option.bind_some, ht]
  refine ⟨_, rfl, ?_⟩
  cases hm : m.span with
  | none => exact hstop
  | some v =>
    have hv := h.span v hm
    simp only [Span.merge, Span.stop_union]
    omega

end Bounded

end Bounded

variable {κ : Type} [CustomMatcher κ] {G m s : Chain (Matcher κ)} {text : List Char} {j : Nat}
  {c : Char} {cur : Cursor} {P : Matcher κ → Prop}

def Holds (m : Chain (Matcher κ)) (P : Matcher κ → Prop) (G : Chain (Matcher κ)) (text : List Char)
    (j : Nat) : Prop :=
  ∀ b, m.current = some b → ∃ a ∈ G.members, ∃ i, Matcher.Takes P text a i j b

def Regular (G : Chain (Matcher κ)) : Prop :=
  G.rule ≠ .skipping ∧ (G.rule = .separated → G.groups.length ≠ 1)

structure Done (m G : Chain (Matcher κ)) (text : List Char) (j : Nat) : Prop where
  bounded : m.Bounded j
  endsAt : EndsAt j m.span
  complete : m.complete = true
  ended : G.Regular → m.active = false ∨ text.length ≤ j

omit [CustomMatcher κ] in
theorem Done.finish (h : m.Done G text j) (c : Char) (cur : Cursor) :
    (finish true m c cur).state.Done G text j :=
  ⟨h.bounded.finish c cur, h.endsAt, h.complete, h.ended⟩

theorem currentComplete_of_current {b : Matcher κ} (h : m.current = some b) :
    m.currentComplete = b.isComplete := by
  rw [currentComplete, h]
  rfl

theorem currentFailed_of_current {b : Matcher κ} (h : m.current = some b) :
    m.currentFailed = b.isFailed := by
  rw [currentFailed, h]
  rfl

theorem Holds.offer (h : m.Holds P G text j) (hc : text[j]? = some c)
    (htaken : (m.offerCurrent Matcher.accept c (.past text (j + 1))).accepted = true) :
    ∃ b a i, a ∈ G.members ∧
      (m.offerCurrent Matcher.accept c (.past text (j + 1))).state = m.modifyCurrent (fun _ => b) ∧
      (m.modifyCurrent fun _ => b).current = some b ∧
      (P b → Matcher.Takes P text a i (j + 1) b) ∧
      (P = Matcher.Waiting → b.isComplete = true → Matcher.Match text a i (j + 1) b) := by
  obtain ⟨b, hb⟩ := exists_current_of_accepted htaken
  obtain ⟨a, ha, i, htakes⟩ := h b hb
  rw [offerCurrent_of_current hb] at htaken ⊢
  refine ⟨_, a, i, ha, rfl, ?_, htakes.take hc htaken, ?_⟩
  · rw [current_modifyCurrent, hb]
    rfl
  · rintro rfl
    exact .mk htakes hc htaken

section InOrder

structure InOrder (m G : Chain (Matcher κ)) (text : List Char) (j : Nat) : Prop where
  rule_eq : m.rule = .inOrder
  bounded : m.Bounded j
  incomplete : m.complete = false
  later : ∀ g i, m.group < g ∨ m.group = g ∧ m.index < i → m.memberAt g i = G.memberAt g i
  current : m.Holds Matcher.Waiting G text j

theorem inOrder_or_done_moveOn (hbounded : m.Bounded j) (hends : EndsAt j m.span)
    (hrule : m.rule = .inOrder) (hincomplete : m.complete = false)
    (hlater : ∀ g i, m.group < g ∨ m.group = g ∧ m.index < i → m.memberAt g i = G.memberAt g i)
    (text : List Char) : m.moveOn.InOrder G text j ∨ m.moveOn.Done G text j := by
  have hmoved : m.moveOn.Bounded j := hbounded.of_frame (frame_moveOn m)
  rcases m.cases_moveOn with ⟨g, i, hbehind, heq⟩ | heq
  · rw [heq] at hmoved ⊢
    left
    refine ⟨hrule, hmoved, hincomplete, ?_, ?_⟩
    · intro g' i' hi
      apply hlater
      dsimp only at hi
      omega
    · intro b hb
      have hb : G.memberAt g i = some b := (hlater g i hbehind).symm.trans hb
      exact ⟨b, mem_members_of_memberAt hb, j, .start⟩
  · rw [heq] at hmoved ⊢
    exact .inr ⟨hmoved, hends, rfl, fun _ => .inl rfl⟩

theorem InOrder.finish (h : m.InOrder G text j) (c : Char) (cur : Cursor) :
    (finish true m c cur).state.InOrder G text j :=
  ⟨h.rule_eq, h.bounded.finish c cur, h.incomplete, h.later, h.current⟩

theorem InOrder.accept (h : m.InOrder G text j) (hG : ∀ a ∈ G.members, a.Ending)
    (hc : text[j]? = some c)
    (htaken : (m.acceptInOrder Matcher.accept c (.past text (j + 1))).accepted = true) :
    (m.acceptInOrder Matcher.accept c (.past text (j + 1))).state.InOrder G text (j + 1) ∨
      (m.acceptInOrder Matcher.accept c (.past text (j + 1))).state.Done G text (j + 1) := by
  have htaken : (m.offerCurrent Matcher.accept c (.past text (j + 1))).accepted = true := htaken
  obtain ⟨b, a, i, ha, hstate, hb, htakes, hmatch⟩ := h.current.offer hc htaken
  have hbounded : (m.modifyCurrent fun _ => b).Bounded (j + 1) := by
    apply Bounded.succ
    exact h.bounded.of_frame rfl
  have hlater : ∀ g i, m.group < g ∨ m.group = g ∧ m.index < i →
      (m.modifyCurrent fun _ => b).memberAt g i = G.memberAt g i := by
    intro g i hi
    rw [memberAt_modifyCurrent, if_neg (by omega), h.later g i hi]
  simp only [acceptInOrder, htaken, hstate, currentComplete_of_current hb]
  cases hdone : b.isComplete with
  | false =>
    left
    have hstay : (m.modifyCurrent fun _ => b).InOrder G text (j + 1) := by
      refine ⟨h.rule_eq, hbounded, h.incomplete, hlater, ?_⟩
      intro b' hb'
      cases hb.symm.trans hb'
      exact ⟨a, ha, i, htakes hdone⟩
    exact hstay.finish c _
  | true =>
    have hends : EndsAt (j + 1) b.span := hG a ha (hmatch rfl hdone)
    obtain ⟨hcommit, hspan⟩ := hbounded.commit_endsAt hb hends
    rw [commit_eq] at hcommit hspan
    have hmoved := inOrder_or_done_moveOn hcommit hspan h.rule_eq h.incomplete hlater text
    rw [← commit_eq] at hmoved
    rcases hmoved with hin | hout
    · exact .inl (hin.finish c _)
    · exact .inr (hout.finish c _)

end InOrder

section Fresh

variable [LawfulCopy κ]

theorem groups_recycleCurrent_offerCurrent (m : Chain (Matcher κ)) (c : Char) (cur : Cursor) :
    (m.offerCurrent Matcher.accept c cur).state.recycleCurrent.groups = m.recycleCurrent.groups := by
  cases hb : m.current with
  | none => simp [offerCurrent, hb]
  | some b =>
    rw [offerCurrent_of_current hb, Reply.map]
    change ((m.modifyCurrent fun _ => (b.accept c cur).state).modifyCurrent Member.recycle).groups =
      (m.modifyCurrent Member.recycle).groups
    rw [modifyCurrent_modifyCurrent, modifyCurrent_congr (g := Member.recycle)]
    intro a ha
    cases hb.symm.trans ha
    change (b.accept c cur).state.recycle = b.recycle
    rw [Matcher.recycle_eq_copy, Matcher.recycle_eq_copy, Matcher.copy_accept]

theorem groups_recycleCurrent (hG : ∀ a ∈ G.members, a.copy = a) (h : m.groups = G.groups) :
    m.recycleCurrent.groups = G.groups := by
  refine (congrArg groups (modifyCurrent_eq_self fun a ha => ?_)).trans h
  have hmem : a ∈ G.groups.flatten := h ▸ mem_members_of_current ha
  exact (Matcher.recycle_eq_copy a).trans (hG a hmem)

theorem groups_advance (hG : ∀ a ∈ G.members, a.copy = a)
    (h : m.recycleCurrent.groups = G.groups) : m.advance.2.groups = G.groups := by
  simp only [advance]
  split
  · exact h
  · split
    · dsimp only
      rw [h, modify_congr (g := id), List.modify_id]
      intro group hgroup
      refine (List.map_congr_left fun a ha => ?_).trans (List.map_id group)
      have hmem : a ∈ G.members := List.mem_flatten.2 ⟨group, List.mem_of_getElem? hgroup, ha⟩
      exact (Matcher.recycle_eq_copy a).trans (hG a hmem)
    · split
      · exact h
      · exact h

structure Between (m G : Chain (Matcher κ)) (j : Nat) : Prop where
  rule_eq : m.rule = G.rule
  bounded : m.Bounded j
  endsAt : EndsAt j m.span
  groups_eq : m.groups = G.groups

omit [CustomMatcher κ] [LawfulCopy κ] in
theorem Between.settle (h : m.Between G j) (c : Char) : (m.settle c).Between G j := by
  rw [Chain.settle]
  split
  · refine ⟨h.rule_eq, ⟨h.bounded.shown, h.bounded.unfailed, h.bounded.span, ?_⟩, h.endsAt, h.groups_eq⟩
    intro s hs
    cases hs
    exact h.endsAt.endsBefore
  · exact h

theorem between_advance (hG : ∀ a ∈ G.members, a.copy = a) (hbounded : m.Bounded j)
    (hrule : m.rule = G.rule) (hgroups : m.recycleCurrent.groups = G.groups) {b : Matcher κ}
    (hb : m.current = some b) (hends : EndsAt j b.span) : m.commit.advance.2.Between G j := by
  obtain ⟨hcommit, hspan⟩ := hbounded.commit_endsAt hb hends
  have hframe : m.commit.advance.2.frame = m.commit.frame := frame_advance m.commit
  constructor
  · rw [← hrule]
    refine (congrArg rule hframe).trans ?_
    rw [commit_eq]
    rfl
  · exact hcommit.of_frame hframe
  · exact (congrArg span hframe) ▸ hspan
  · apply groups_advance hG
    rw [commit_eq]
    exact hgroups

omit [LawfulCopy κ] in
theorem holds_of_groups (h : m.groups = G.groups) (P : Matcher κ → Prop) (text : List Char)
    (j : Nat) : m.Holds P G text j := by
  intro b hb
  have hmem : b ∈ G.groups.flatten := h ▸ mem_members_of_current hb
  exact ⟨b, hmem, j, .start⟩

end Fresh

end Chain

end Lexing
