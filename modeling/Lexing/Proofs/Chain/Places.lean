import Lexing.Proofs.Chain.Entering
import Lexing.Proofs.Chain.Skipping
import Lexing.Proofs.Matcher.Again

namespace Lexing

namespace Chain

section Spanned

variable {α : Type} {m s : Chain α} {text : List Char} {lo n i : Nat}

structure Spanned (m : Chain α) (text : List Char) (lo n : Nat) : Prop where
  span : ∀ t, m.span = some t → t.Lies text lo n
  settled : ∀ p t, m.settled = some p → p.span = some t → t.Lies text lo n

namespace Spanned

theorem mono (h : m.Spanned text lo n) (hni : n ≤ i) : m.Spanned text lo i where
  span t ht := (h.span t ht).mono hni
  settled p t hp ht := (h.settled p t hp ht).mono hni

theorem of_frame (h : m.Spanned text lo n) (hs : s.frame = m.frame) : s.Spanned text lo n where
  span t ht := h.span t ((congrArg Chain.span hs).symm.trans ht)
  settled p t hp := h.settled p t ((congrArg Chain.settled hs).symm.trans hp)

theorem finish (h : m.Spanned text lo n) (accepted : Bool) (c : Char) (cur : Cursor) :
    (Chain.finish accepted m c cur).state.Spanned text lo n := by
  rw [Chain.finish]
  split
  · exact ⟨h.span, h.settled⟩
  · exact ⟨h.span, h.settled⟩

theorem settle (h : m.Spanned text lo n) (c : Char) : (m.settle c).Spanned text lo n := by
  rw [Chain.settle]
  split
  · refine ⟨h.span, ?_⟩
    rintro p t ⟨⟩ ht
    exact h.span t ht
  · exact h

variable [Member α]

theorem commit (h : m.Spanned text lo n)
    (hcurrent : ∀ b, m.current = some b → ∀ t, Member.span b = some t → t.Lies text lo n) :
    m.commit.Spanned text lo n := by
  rw [Chain.commit]
  split
  · exact h
  · cases ht : m.current.bind Member.span with
    | none => exact h
    | some t =>
      obtain ⟨b, hb, ht⟩ := Option.bind_eq_some_iff.1 ht
      refine ⟨?_, h.settled⟩
      rintro u ⟨⟩
      exact Span.Lies.merge h.span (hcurrent b hb t ht)

theorem fallBack (h : m.Spanned text lo n) : m.fallBack.Spanned text lo n := by
  simp only [Chain.fallBack]
  split
  · exact ⟨h.span, h.settled⟩
  · next p hp => exact ⟨fun t ht => h.settled p t hp ht, h.settled⟩

end Spanned

end Spanned

variable {κ : Type} [CustomMatcher κ] {G m s : Chain (Matcher κ)} {text : List Char} {lo n i : Nat}
  {c : Char}

def Serves (m G : Chain (Matcher κ)) (text : List Char) (lo n : Nat) : Prop :=
  ∀ b, m.current = some b → ∃ a ∈ G.members, Matcher.Served text lo a n b

theorem Serves.mono (h : m.Serves G text lo n) (hni : n ≤ i) : m.Serves G text lo i := by
  intro b hb
  obtain ⟨a, ha, hserved⟩ := h b hb
  exact ⟨a, ha, hserved.mono hni⟩

theorem Serves.offerCurrent (h : m.Serves G text lo i) (hc : text[i]? = some c) :
    (m.offerCurrent Matcher.accept c (.past text (i + 1))).state.Serves G text lo (i + 1) := by
  intro b' hb'
  rw [current_offerCurrent, Option.map_eq_some_iff] at hb'
  obtain ⟨b, hb, rfl⟩ := hb'
  obtain ⟨a, ha, hserved⟩ := h b hb
  exact ⟨a, ha, hserved.next hc⟩

theorem serves_of_groups (h : m.groups = G.groups) (text : List Char) (hlo : lo ≤ n) :
    m.Serves G text lo n := by
  intro b hb
  have hmem : b ∈ G.groups.flatten := h ▸ mem_members_of_current hb
  exact ⟨b, hmem, .start hlo⟩

theorem Spanned.commit_of_serves (h : m.Spanned text lo n) (hserves : m.Serves G text lo n)
    (horderly : ∀ a ∈ G.members, a.Orderly) : m.commit.Spanned text lo n := by
  apply h.commit
  intro b hb t ht
  obtain ⟨a, ha, hserved⟩ := hserves b hb
  exact horderly a ha hserved t ht

section InOrder

structure PlacedInOrder (m G : Chain (Matcher κ)) (text : List Char) (lo n : Nat) : Prop where
  spanned : m.Spanned text lo n
  later : ∀ g i, m.group < g ∨ m.group = g ∧ m.index < i → m.memberAt g i = G.memberAt g i
  serves : m.Serves G text lo n

theorem PlacedInOrder.finish (h : m.PlacedInOrder G text lo n) (accepted : Bool) (c : Char)
    (cur : Cursor) : (finish accepted m c cur).state.PlacedInOrder G text lo n := by
  have hspanned := h.spanned.finish accepted c cur
  rw [Chain.finish] at hspanned ⊢
  cases accepted with
  | true => exact ⟨hspanned, h.later, h.serves⟩
  | false => exact ⟨hspanned, h.later, h.serves⟩

theorem PlacedInOrder.moveOn (h : m.PlacedInOrder G text lo n) (hlo : lo ≤ n) :
    m.moveOn.PlacedInOrder G text lo n := by
  have hspanned := h.spanned.of_frame (frame_moveOn m)
  rcases m.cases_moveOn with ⟨g, i, hbehind, heq⟩ | heq
  · rw [heq] at hspanned ⊢
    refine ⟨hspanned, ?_, ?_⟩
    · intro g' i' hi
      apply h.later
      dsimp only at hi
      omega
    · intro b hb
      have hb : G.memberAt g i = some b := (h.later g i hbehind).symm.trans hb
      exact ⟨b, mem_members_of_memberAt hb, .start hlo⟩
  · rw [heq] at hspanned ⊢
    exact ⟨hspanned, h.later, h.serves⟩

theorem PlacedInOrder.accept (h : m.PlacedInOrder G text lo i)
    (horderly : ∀ a ∈ G.members, a.Orderly) (hlo : lo ≤ i) (hc : text[i]? = some c) :
    (m.acceptInOrder Matcher.accept c (.past text (i + 1))).state.PlacedInOrder G text lo
      (i + 1) := by
  have hoffered : (m.offerCurrent Matcher.accept c (.past text (i + 1))).state.PlacedInOrder G text
      lo (i + 1) := by
    refine ⟨?_, ?_, h.serves.offerCurrent hc⟩
    · exact (h.spanned.of_frame (frame_offerCurrent ..)).mono (Nat.le_succ i)
    · cases hb : m.current with
      | none =>
        rw [Chain.offerCurrent, hb]
        exact h.later
      | some b =>
        rw [offerCurrent_of_current hb]
        intro g k hk
        refine (memberAt_modifyCurrent _ m g k).trans ?_
        rw [if_neg, h.later g k hk]
        simp only [Reply.map, modifyCurrent] at hk
        omega
  rw [acceptInOrder]
  apply PlacedInOrder.finish
  split
  · have hcommit := hoffered.spanned.commit_of_serves hoffered.serves horderly
    apply PlacedInOrder.moveOn ?_ (Nat.le_succ_of_le hlo)
    rw [commit_eq] at hcommit ⊢
    exact ⟨hcommit, hoffered.later, hoffered.serves⟩
  · exact hoffered

end InOrder

section Fresh

structure Framed (m G : Chain (Matcher κ)) (text : List Char) (lo n : Nat) : Prop where
  spanned : m.Spanned text lo n
  groups_eq : m.recycleCurrent.groups = G.groups
  ahead_eq : m.ahead = none

structure Placed (m G : Chain (Matcher κ)) (text : List Char) (lo n : Nat) : Prop
    extends m.Framed G text lo n where
  serves : m.Serves G text lo n

variable (horderly : ∀ a ∈ G.members, a.Orderly)

namespace Framed

theorem of_frame (h : m.Framed G text lo n) (hframe : s.frame = m.frame)
    (hgroups : s.recycleCurrent.groups = G.groups) : s.Framed G text lo n :=
  ⟨h.spanned.of_frame hframe, hgroups, (congrArg ahead hframe).trans h.ahead_eq⟩

theorem mono (h : m.Framed G text lo n) (hni : n ≤ i) : m.Framed G text lo i :=
  ⟨h.spanned.mono hni, h.groups_eq, h.ahead_eq⟩

variable [LawfulCopy κ] (hG : ∀ a ∈ G.members, a.copy = a)

include hG in
theorem placed (h : m.Framed G text lo n) (hlo : lo ≤ n) (hgroups : s.groups = G.groups)
    (hframe : s.frame = m.frame) : s.Placed G text lo n where
  toFramed := h.of_frame hframe (groups_recycleCurrent hG hgroups)
  serves := serves_of_groups hgroups text hlo

include hG in
theorem advance (h : m.Framed G text lo n) (hlo : lo ≤ n) : m.advance.2.Placed G text lo n :=
  h.placed hG hlo (groups_advance hG h.groups_eq) (frame_advance m)

theorem offerCurrent (h : m.Framed G text lo n) (c : Char) (cur : Cursor) :
    (m.offerCurrent Matcher.accept c cur).state.Framed G text lo n := by
  apply h.of_frame (frame_offerCurrent ..)
  rw [groups_recycleCurrent_offerCurrent, h.groups_eq]

end Framed

namespace Placed

theorem mono (h : m.Placed G text lo n) (hni : n ≤ i) : m.Placed G text lo i :=
  ⟨h.toFramed.mono hni, h.serves.mono hni⟩

theorem finish (h : m.Placed G text lo n) (accepted : Bool) (c : Char) (cur : Cursor) :
    (Chain.finish accepted m c cur).state.Placed G text lo n := by
  have hspanned := h.spanned.finish accepted c cur
  rw [Chain.finish] at hspanned ⊢
  cases accepted with
  | true => exact ⟨⟨hspanned, h.groups_eq, h.ahead_eq⟩, h.serves⟩
  | false => exact ⟨⟨hspanned, h.groups_eq, h.ahead_eq⟩, h.serves⟩

theorem close (h : m.Placed G text lo n) : m.close.Placed G text lo n :=
  ⟨h.toFramed.of_frame (frame_close m) h.groups_eq, h.serves⟩

theorem of_broken (h : m.Placed G text lo n) (broken : Bool) :
    ({ m with broken } : Chain (Matcher κ)).Placed G text lo n :=
  ⟨h.toFramed.of_frame rfl h.groups_eq, h.serves⟩

theorem reopen (h : m.Placed G text lo n) : m.reopen.Placed G text lo n :=
  ⟨h.toFramed.of_frame (frame_reopen m) h.groups_eq, h.serves⟩

theorem settle (h : m.Placed G text lo n) (c : Char) : (m.settle c).Placed G text lo n := by
  have hspanned := h.spanned.settle c
  rw [settle_eq] at hspanned ⊢
  exact ⟨⟨hspanned, h.groups_eq, h.ahead_eq⟩, h.serves⟩

include horderly in
theorem commit (h : m.Placed G text lo n) : m.commit.Placed G text lo n := by
  have hspanned := h.spanned.commit_of_serves h.serves horderly
  rw [commit_eq] at hspanned ⊢
  exact ⟨⟨hspanned, h.groups_eq, h.ahead_eq⟩, h.serves⟩

variable [LawfulCopy κ] (hG : ∀ a ∈ G.members, a.copy = a)

theorem offerCurrent (h : m.Placed G text lo i) (hc : text[i]? = some c) :
    (m.offerCurrent Matcher.accept c (.past text (i + 1))).state.Placed G text lo (i + 1) where
  toFramed := (h.toFramed.offerCurrent c _).mono (Nat.le_succ i)
  serves := h.serves.offerCurrent hc

include hG in
theorem fallBack (h : m.Placed G text lo n) (hlo : lo ≤ n) : m.fallBack.Placed G text lo n := by
  have hspanned := h.spanned.fallBack
  have hgroups : m.fallBack.groups = G.groups := by
    rw [← h.groups_eq]
    simp only [Chain.fallBack]
    split <;> rfl
  have hahead : m.fallBack.ahead = m.ahead := by
    simp only [Chain.fallBack]
    split <;> rfl
  have hframed : m.fallBack.Framed G text lo n :=
    ⟨hspanned, groups_recycleCurrent hG hgroups, hahead.trans h.ahead_eq⟩
  exact ⟨hframed, serves_of_groups hgroups text hlo⟩

include horderly hG in
theorem enter (h : m.Placed G text lo n) (hlo : lo ≤ n) (c : Char) (cur : Cursor) :
    (m.enter Matcher.accept c cur).1.Placed G text lo n := by
  have hgroups : (m.commit.advance.2.settle c).groups = G.groups := by
    rw [settle_eq]
    exact groups_advance hG (h.commit horderly).groups_eq
  have hs := ((h.commit horderly).advance hG hlo).settle c
  rw [Chain.enter]
  generalize m.commit.advance.2.settle c = s at hgroups hs
  dsimp only
  split
  · exact hs
  · split
    · obtain ⟨broken, hstate⟩ := exists_state_tryNext hG hgroups cur
      rw [hstate]
      split
      · exact (hs.of_broken broken).reopen
      · exact (hs.of_broken broken).close
    · split
      · exact hs.close
      · exact hs

include horderly hG in
theorem acceptEntering (h : m.Placed G text lo i) (hlo : lo ≤ i) (hc : text[i]? = some c) :
    (m.acceptEntering Matcher.accept c (.past text (i + 1))).state.Placed G text lo (i + 1) := by
  have hoffered := h.offerCurrent hc
  have hlo : lo ≤ i + 1 := Nat.le_succ_of_le hlo
  rw [Chain.acceptEntering]
  generalize m.offerCurrent Matcher.accept c (.past text (i + 1)) = r at hoffered
  dsimp only
  split
  · exact hoffered.fallBack hG hlo
  · apply Placed.finish
    split
    · exact hoffered.enter horderly hG hlo ..
    · exact hoffered

end Placed

end Fresh

section Skipping

structure PlacedAhead (m G : Chain (Matcher κ)) (text : List Char) (lo n : Nat) : Prop where
  spanned : m.Spanned text lo n
  groups_eq : m.recycleCurrent.groups = G.groups
  due : ∀ i c, n ≤ i → text[i]? = some c →
    m.Serves G text lo (if m.ahead = some c then i + 1 else i)

theorem Placed.placedAhead (h : m.Placed G text lo n) : m.PlacedAhead G text lo n where
  spanned := h.spanned
  groups_eq := h.groups_eq
  due i c hni _ := by
    rw [if_neg (by simp [h.ahead_eq])]
    exact h.serves.mono hni

namespace PlacedAhead

theorem mono (h : m.PlacedAhead G text lo n) (hni : n ≤ i) : m.PlacedAhead G text lo i :=
  ⟨h.spanned.mono hni, h.groups_eq, fun k c hik => h.due k c (Nat.le_trans hni hik)⟩

theorem finish (h : m.PlacedAhead G text lo n) (accepted : Bool) (c : Char) (cur : Cursor) :
    (Chain.finish accepted m c cur).state.PlacedAhead G text lo n := by
  have hspanned := h.spanned.finish accepted c cur
  rw [Chain.finish] at hspanned ⊢
  cases accepted with
  | true => exact ⟨hspanned, h.groups_eq, h.due⟩
  | false => exact ⟨hspanned, h.groups_eq, h.due⟩

variable [LawfulCopy κ]

theorem offerDue (h : m.PlacedAhead G text lo i) (hc : text[i]? = some c) :
    (m.offerDue Matcher.accept c (.past text (i + 1))).state.Placed G text lo (i + 1) := by
  have hdue := h.due i c (Nat.le_refl i) hc
  have hframed : Chain.Framed { m with ahead := none } G text lo i :=
    ⟨⟨h.spanned.span, h.spanned.settled⟩, h.groups_eq, rfl⟩
  rw [Chain.offerDue]
  split
  · next hahead =>
    rw [if_pos hahead] at hdue
    exact ⟨hframed.mono (Nat.le_succ i), hdue⟩
  · next hahead =>
    rw [if_neg hahead] at hdue
    have hplaced : Chain.Placed { m with ahead := none } G text lo i := ⟨hframed, hdue⟩
    exact hplaced.offerCurrent hc

end PlacedAhead

variable [LawfulCopy κ] (hG : ∀ a ∈ G.members, a.copy = a) (horderly : ∀ a ∈ G.members, a.Orderly)

include hG horderly in
theorem Framed.seekMember [LawfulCursor κ] (h : m.Framed G text lo (i + 1)) (hlo : lo ≤ i)
    (hc : text[i]? = some c) {fuel : Nat} (hfuel : fuel = 0 → m.Serves G text lo (i + 1)) :
    (seekMember Matcher.accept false c fuel m (.past text (i + 1))).state.Placed G text lo
      (i + 1) := by
  induction fuel generalizing m with
  | zero => exact ⟨h, hfuel rfl⟩
  | succ fuel ih =>
    have hadvance := h.advance hG (Nat.le_succ_of_le hlo)
    have hserves : m.advance.2.Serves G text lo i :=
      serves_of_groups (groups_advance hG h.groups_eq) text hlo
    rw [Chain.seekMember]
    generalize m.advance = a at *
    have hoffered : (a.2.offerCurrent Matcher.accept c (.past text (i + 1))).state.Placed G text lo
        (i + 1) := ⟨hadvance.toFramed.offerCurrent c _, hserves.offerCurrent hc⟩
    have hcursor := cursor_offerCurrent Matcher.cursor_accept a.2 c (.past text (i + 1))
    generalize a.2.offerCurrent Matcher.accept c (.past text (i + 1)) = r at *
    simp only [Bool.false_eq_true, if_false, hcursor, Bool.not_false, Bool.true_and]
    split
    · exact hadvance
    · split
      · exact ih hoffered.toFramed fun _ => hoffered.serves
      · split
        · exact (hoffered.reopen.commit horderly).advance hG (Nat.le_succ_of_le hlo)
        · exact hoffered.reopen

include hG in
theorem Placed.goOn_ahead (h : m.Placed G text lo n) (hlo : lo ≤ n) (hc : text[n]? = some c)
    (complete : Bool) :
    (m.goOn Matcher.accept true complete c (.past text (n + 1))).state.PlacedAhead G text lo n := by
  have hempty : m.members.length = 0 → m.groups = G.groups := by
    intro hzero
    rw [← h.groups_eq, recycleCurrent, modifyCurrent_eq_self]
    rw [current_of_empty hzero]
    intro b hb
    cases hb
  have hseek : ∀ {r : Chain (Matcher κ)} (cur : Cursor), r.Framed G text lo n →
      (m.members.length = 0 → r = m) →
      (Chain.seekMember Matcher.accept true c m.members.length r cur).state.PlacedAhead G text lo
        n := by
    intro r cur hr hsame
    have hfuel : m.members.length = 0 → r.groups = G.groups := fun hzero => hsame hzero ▸ hempty hzero
    obtain ⟨hgroups, hframe⟩ := seekMember_peeking hG c hr.groups_eq hfuel cur
    exact (hr.placed hG hlo hgroups hframe).placedAhead
  rw [goOn]
  cases complete with
  | false => exact hseek _ h.toFramed fun _ => rfl
  | true =>
    have hframed := h.toFramed.offerCurrent c (.past text (n + 1))
    have hserves := h.serves.offerCurrent hc
    have hsame : m.members.length = 0 →
        (m.offerCurrent Matcher.accept c (.past text (n + 1))).state = m := by
      intro hzero
      rw [Chain.offerCurrent, current_of_empty hzero]
    simp only [if_true]
    generalize m.offerCurrent Matcher.accept c (.past text (n + 1)) = r at *
    split
    · refine ⟨⟨hframed.spanned.span, hframed.spanned.settled⟩, hframed.groups_eq, ?_⟩
      intro k d hnk hd
      simp only [Option.some.injEq]
      split
      · exact hserves.mono (Nat.succ_le_succ hnk)
      · next hne =>
        apply hserves.mono
        apply Nat.lt_of_le_of_ne hnk
        rintro rfl
        exact hne (Option.some.inj (hc.symm.trans hd))
    · exact hseek _ hframed hsame

include hG horderly in
theorem Placed.goOn_due [LawfulCursor κ] (h : m.Placed G text lo (i + 1)) (hlo : lo ≤ i)
    (hc : text[i]? = some c) {complete : Bool}
    (hagain : complete = true → ∀ b, m.current = some b →
      (b.accept c (.past text (i + 1))).accepted = false) :
    (m.goOn Matcher.accept false complete c (.past text (i + 1))).state.Placed G text lo
      (i + 1) := by
  rw [goOn]
  cases complete with
  | false => exact h.toFramed.seekMember hG horderly hlo hc fun _ => h.serves
  | true =>
    have hframed := h.toFramed.offerCurrent c (.past text (i + 1))
    have hcursor := cursor_offerCurrent Matcher.cursor_accept m c (.past text (i + 1))
    have hrefused : (m.offerCurrent Matcher.accept c (.past text (i + 1))).accepted = false := by
      cases hb : m.current with
      | none => rw [Chain.offerCurrent, hb]
      | some b =>
        rw [offerCurrent_of_current hb]
        exact hagain rfl b hb
    simp only [if_true, hrefused, Bool.false_eq_true, if_false, hcursor]
    apply hframed.seekMember hG horderly hlo hc
    intro hzero
    rw [Chain.offerCurrent, current_of_empty hzero]
    exact h.serves

omit [LawfulCopy κ] in
theorem accept_current_offerDue [LawfulPlaces κ] {cur : Cursor}
    (hrefused : (m.offerDue Matcher.accept c cur).accepted = false)
    (hcomplete : (m.offerDue Matcher.accept c cur).state.currentComplete = true) (b : Matcher κ)
    (hb : (m.offerDue Matcher.accept c cur).state.current = some b) :
    (b.accept c cur).accepted = false := by
  rw [currentComplete_of_current hb] at hcomplete
  rw [offerDue] at hrefused hb
  split at hrefused
  · cases hrefused
  · next hahead =>
    rw [if_neg hahead, current_offerCurrent, Option.map_eq_some_iff] at hb
    obtain ⟨a, ha, rfl⟩ := hb
    rw [offerCurrent_of_current ha] at hrefused
    exact Matcher.accept_again hrefused hcomplete

include hG horderly in
theorem PlacedAhead.accept [LawfulCursor κ] [LawfulPlaces κ] (h : m.PlacedAhead G text lo i)
    (hlo : lo ≤ i) (hc : text[i]? = some c) :
    (m.acceptSkipping Matcher.accept c (.past text (i + 1))).state.PlacedAhead G text lo
      (i + 1) := by
  have hplaced := h.offerDue hc
  have hcursor := cursor_offerDue Matcher.cursor_accept m c (.past text (i + 1))
  have hagain : (m.offerDue Matcher.accept c (.past text (i + 1))).accepted = false →
      (m.offerDue Matcher.accept c (.past text (i + 1))).state.currentComplete = true → ∀ b,
        (m.offerDue Matcher.accept c (.past text (i + 1))).state.current = some b →
          (b.accept c (.past text (i + 1))).accepted = false :=
    accept_current_offerDue
  rw [acceptSkipping]
  generalize m.offerDue Matcher.accept c (.past text (i + 1)) = r at *
  dsimp only
  have hended : (if r.state.currentComplete then r.state.commit else r.state).Placed G text lo
      (i + 1) := by
    split
    · exact hplaced.commit horderly
    · exact hplaced
  have hcurrent : (if r.state.currentComplete then r.state.commit else r.state).current =
      r.state.current := by
    split
    · rw [commit_eq]
      rfl
    · rfl
  split
  · exact (hplaced.finish ..).placedAhead
  · generalize (if r.state.currentComplete = true then r.state.commit else r.state) = s at *
    split
    · next hrefused =>
      rw [hcursor]
      apply PlacedAhead.finish
      apply Placed.placedAhead
      apply hended.goOn_due hG horderly hlo hc
      intro hcomplete b hb
      exact hagain (by simpa using hrefused) hcomplete b (hcurrent.symm.trans hb)
    · rw [hcursor, Cursor.read?_past]
      cases hnext : text[i + 1]? with
      | none =>
        apply PlacedAhead.finish
        apply Placed.placedAhead
        split
        · exact hended.close
        · exact hended
      | some d =>
        apply PlacedAhead.finish
        exact hended.goOn_ahead hG (Nat.le_succ_of_le hlo) hnext _

end Skipping

section Orderly

/-- The span of a chain made of the members of `G` is in order, with what its rule needs for the
next character. -/
inductive Tidy (m G : Chain (Matcher κ)) (text : List Char) (lo n : Nat) : Prop
  | inOrder : G.rule = .inOrder → m.PlacedInOrder G text lo n → Tidy m G text lo n
  | entering : G.rule = .suffixed ∨ G.rule = .separated → m.Placed G text lo n → Tidy m G text lo n
  | skipping : G.rule = .skipping → m.PlacedAhead G text lo n → Tidy m G text lo n

namespace Tidy

theorem spanned (h : m.Tidy G text lo n) : m.Spanned text lo n := by
  cases h with
  | inOrder _ h => exact h.spanned
  | entering _ h => exact h.spanned
  | skipping _ h => exact h.spanned

theorem mono (h : m.Tidy G text lo n) (hni : n ≤ i) : m.Tidy G text lo i := by
  cases h with
  | inOrder hrule h => exact .inOrder hrule ⟨h.spanned.mono hni, h.later, h.serves.mono hni⟩
  | entering hrule h => exact .entering hrule (h.mono hni)
  | skipping hrule h => exact .skipping hrule (h.mono hni)

theorem finish (h : m.Tidy G text lo n) (accepted : Bool) (c : Char) (cur : Cursor) :
    (Chain.finish accepted m c cur).state.Tidy G text lo n := by
  cases h with
  | inOrder hrule h => exact .inOrder hrule (h.finish ..)
  | entering hrule h => exact .entering hrule (h.finish ..)
  | skipping hrule h => exact .skipping hrule (h.finish ..)

variable [LawfulCopy κ] (hG : ∀ a ∈ G.members, a.copy = a)

include hG in
theorem fresh (hfresh : G.fresh = G) (text : List Char) (hlo : lo ≤ n) : G.Tidy G text lo n := by
  have hspanned : G.Spanned text lo n := by
    rw [← hfresh]
    exact ⟨nofun, nofun⟩
  have hserves : G.Serves G text lo n := serves_of_groups rfl text hlo
  have hframed : G.Framed G text lo n := by
    refine ⟨hspanned, groups_recycleCurrent hG rfl, ?_⟩
    rw [← hfresh]
    rfl
  cases hrule : G.rule with
  | inOrder => exact .inOrder hrule ⟨hspanned, fun _ _ _ => rfl, hserves⟩
  | suffixed => exact .entering (.inl hrule) ⟨hframed, hserves⟩
  | separated => exact .entering (.inr hrule) ⟨hframed, hserves⟩
  | skipping => exact .skipping hrule (Placed.placedAhead ⟨hframed, hserves⟩)

variable (horderly : ∀ a ∈ G.members, a.Orderly)

include hG horderly in
theorem accept [LawfulCursor κ] [LawfulPlaces κ] (h : m.Tidy G text lo i) (hrule : m.rule = G.rule)
    (hlo : lo ≤ i) (hc : text[i]? = some c) :
    (m.accept Matcher.accept c (.past text (i + 1))).state.Tidy G text lo (i + 1) := by
  rw [Chain.accept]
  split
  · exact (h.mono (Nat.le_succ i)).finish false c (.past text (i + 1))
  · rw [hrule]
    cases h with
    | inOrder hrule h =>
      rw [hrule]
      exact .inOrder hrule (h.accept horderly hlo hc)
    | entering hrule h =>
      have h := h.acceptEntering horderly hG hlo hc
      rcases hrule with hrule | hrule
      · rw [hrule]
        exact .entering (.inl hrule) h
      · rw [hrule]
        exact .entering (.inr hrule) h
    | skipping hrule h =>
      rw [hrule]
      exact .skipping hrule (h.accept hG horderly hlo hc)

end Tidy

theorem orderly_chain [LawfulCopy κ] [LawfulCursor κ] [LawfulPlaces κ] (hfresh : G.fresh = G)
    (hG : ∀ a ∈ G.members, a.copy = a ∧ a.Orderly) :
    (Matcher.mk (.chain G)).Orderly := by
  have hcopy : ∀ a ∈ G.members, a.copy = a := fun a ha => (hG a ha).1
  intro text lo n s hserved span hspan
  obtain ⟨m, rfl, -, htidy⟩ : ∃ m : Chain (Matcher κ), s = .mk (.chain m) ∧ m.rule = G.rule ∧
      m.Tidy G text lo n := by
    clear hspan
    induction hserved with
    | start hlo => exact ⟨G, rfl, rfl, .fresh hcopy hfresh text hlo⟩
    | offer hserved hc hlt ih =>
      obtain ⟨m, rfl, hrule, htidy⟩ := ih
      rw [Matcher.accept_mk]
      have haccept := htidy.accept hcopy (fun a ha => (hG a ha).2) hrule hserved.le hc
      exact ⟨_, rfl, (rule_accept ..).trans hrule, haccept.mono hlt⟩
  exact htidy.spanned.span span hspan

end Orderly

end Chain

theorem Matcher.orderly_copy {κ : Type} [CustomMatcher κ] [LawfulCopy κ] [LawfulCursor κ]
    [LawfulPlaces κ] (m : Matcher κ) : m.copy.Orderly := by
  induction m using Matcher.induction with
  | step l ih =>
    rw [copy_mk]
    cases l with
    | chars m => exact orderly_of_progress? rfl
    | words m => exact orderly_of_progress? rfl
    | choice m => exact orderly_of_progress? rfl
    | chain m =>
      apply Chain.orderly_chain rfl
      intro a ha
      rw [Chain.members_fresh, Chain.members_map] at ha
      obtain ⟨b, hb, rfl⟩ := List.mem_map.1 ha
      exact ⟨b.copy_copy, ih b hb⟩
    | custom k => exact LawfulPlaces.orderly k

end Lexing
