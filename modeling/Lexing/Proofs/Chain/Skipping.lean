import Lexing.Proofs.Chain.Ends

namespace Lexing.Chain

variable {κ : Type} [CustomMatcher κ] {G m s : Chain (Matcher κ)} {text : List Char} {j : Nat}
  {c : Char} {cur : Cursor}

variable [LawfulCopy κ]

structure Skipping (m G : Chain (Matcher κ)) (text : List Char) (j : Nat) : Prop where
  rule_eq : m.rule = G.rule
  bounded : m.Bounded j
  incomplete : m.complete = false
  groups_eq : m.recycleCurrent.groups = G.groups
  due : m.ahead = none →
    m.Holds (fun _ => True) G text j ∧ ∀ b, m.current = some b → b.Waiting
  early : ∀ d, m.ahead = some d → text[j]? = some d ∧ m.Holds (fun _ => True) G text (j + 1)

structure Poised (m G : Chain (Matcher κ)) (j : Nat) : Prop where
  rule_eq : m.rule = G.rule
  bounded : m.Bounded j
  groups_eq : m.recycleCurrent.groups = G.groups
  ahead_eq : m.ahead = none

omit [LawfulCopy κ] in
theorem Poised.succ (h : m.Poised G j) : m.Poised G (j + 1) :=
  ⟨h.rule_eq, h.bounded.succ, h.groups_eq, h.ahead_eq⟩

omit [LawfulCopy κ] in
theorem Poised.of_frame (h : m.Poised G j) (hframe : s.frame = m.frame)
    (hgroups : s.recycleCurrent.groups = G.groups) : s.Poised G j where
  rule_eq := (congrArg rule hframe).trans h.rule_eq
  bounded := h.bounded.of_frame hframe
  groups_eq := hgroups
  ahead_eq := (congrArg ahead hframe).trans h.ahead_eq

theorem Poised.offerCurrent (h : m.Poised G j) (c : Char) (cur : Cursor) :
    (m.offerCurrent Matcher.accept c cur).state.Poised G j := by
  apply h.of_frame (frame_offerCurrent ..)
  rw [groups_recycleCurrent_offerCurrent, h.groups_eq]

omit [LawfulCopy κ] in
theorem Poised.commit (h : m.Poised G j) {b : Matcher κ} (hb : m.current = some b)
    (hspan : ∀ t, b.span = some t → t.stop.offset < j) : m.commit.Poised G j := by
  have hcommit := h.bounded.commit hb hspan
  rw [commit_eq] at hcommit ⊢
  exact ⟨h.rule_eq, hcommit, h.groups_eq, h.ahead_eq⟩

omit [LawfulCopy κ] in
theorem Skipping.finish (h : m.Skipping G text j) (c : Char) (cur : Cursor) :
    (finish true m c cur).state.Skipping G text j :=
  ⟨h.rule_eq, h.bounded.finish c cur, h.incomplete, h.groups_eq, h.due, h.early⟩

variable (hG : ∀ a ∈ G.members, a.copy = a) (hsteady : ∀ a ∈ G.members, a.Steady)

omit [LawfulCopy κ] in
include hsteady in
theorem Holds.endsAt (h : m.Holds (fun _ => True) G text j) {b : Matcher κ}
    (hb : m.current = some b) (hcomplete : b.isComplete = true) : EndsAt j b.span := by
  obtain ⟨a, ha, i, htakes⟩ := h b hb
  exact (hsteady a ha).endsAt htakes hcomplete

omit [LawfulCopy κ] in
include hsteady in
theorem Holds.unfailed (h : m.Holds (fun _ => True) G text j) : m.currentFailed = false := by
  cases hb : m.current with
  | none => rw [currentFailed, hb, Option.any_none]
  | some b =>
    obtain ⟨a, ha, i, htakes⟩ := h b hb
    rw [currentFailed_of_current hb, (hsteady a ha).unfailed htakes]

omit [LawfulCopy κ] in
theorem Holds.offerCurrent (h : m.Holds (fun _ => True) G text j) (hc : text[j]? = some c)
    (htaken : (m.offerCurrent Matcher.accept c (.past text (j + 1))).accepted = true) :
    (m.offerCurrent Matcher.accept c (.past text (j + 1))).state.Holds (fun _ => True) G text
      (j + 1) := by
  obtain ⟨b, a, i, ha, hstate, hb, htakes, -⟩ := h.offer hc htaken
  rw [hstate]
  intro b' hb'
  cases hb.symm.trans hb'
  exact ⟨a, ha, i, htakes trivial⟩

include hG hsteady in
theorem Between.skipping_or_done (h : m.Between G j) (hskip : G.rule = .skipping)
    (hahead : m.ahead = none) (text : List Char) : m.Skipping G text j ∨ m.Done G text j := by
  cases hcomplete : m.complete with
  | true =>
    right
    exact ⟨h.bounded, h.endsAt, hcomplete, fun hregular => absurd hskip hregular.1⟩
  | false =>
    left
    refine ⟨h.rule_eq, h.bounded, hcomplete, ?_, fun _ => ⟨?_, ?_⟩, ?_⟩
    · exact groups_recycleCurrent hG h.groups_eq
    · exact holds_of_groups h.groups_eq _ text j
    · intro b hb
      have hmem : b ∈ G.groups.flatten := h.groups_eq ▸ mem_members_of_current hb
      exact (hsteady b hmem).waiting
    · intro d hd
      cases hahead.symm.trans hd

include hG hsteady in
theorem Poised.leave (h : m.Poised G j) (hskip : G.rule = .skipping)
    (hholds : m.Holds (fun _ => True) G text j) (hincomplete : m.complete = false) :
    (if m.currentComplete then m.commit.advance.2 else m).Skipping G text j ∨
      (if m.currentComplete then m.commit.advance.2 else m).Done G text j := by
  cases hdone : m.currentComplete with
  | true =>
    obtain ⟨b, hb, hcomplete⟩ := (Option.any_eq_true ..).1 hdone
    have hends := hholds.endsAt hsteady hb hcomplete
    have hframe := (frame_advance m.commit).trans (congrArg frame (commit_eq m))
    have hbetween := between_advance hG h.bounded h.rule_eq h.groups_eq hb hends
    exact hbetween.skipping_or_done hG hsteady hskip ((congrArg ahead hframe).trans h.ahead_eq) text
  | false =>
    left
    refine ⟨h.rule_eq, h.bounded, hincomplete, h.groups_eq, fun _ => ⟨hholds, ?_⟩, ?_⟩
    · intro b hb
      exact (currentComplete_of_current hb).symm.trans hdone
    · intro d hd
      cases h.ahead_eq.symm.trans hd

include hG in
theorem seekMember_peeking (next : Char) {fuel : Nat} (h : m.recycleCurrent.groups = G.groups)
    (hfuel : fuel = 0 → m.groups = G.groups) (cur : Cursor) :
    (seekMember Matcher.accept true next fuel m cur).state.groups = G.groups ∧
      (seekMember Matcher.accept true next fuel m cur).state.frame = m.frame := by
  induction fuel generalizing m cur with
  | zero => exact ⟨hfuel rfl, rfl⟩
  | succ fuel ih =>
    have hadvance := groups_advance hG h
    have hframe := frame_advance m
    rw [seekMember]
    generalize m.advance = a at hadvance hframe
    have hrecycled : (a.2.offerCurrent Matcher.accept next cur).state.recycleCurrent.groups = G.groups :=
      (groups_recycleCurrent_offerCurrent ..).trans (groups_recycleCurrent hG hadvance)
    have hrest : (a.2.offerCurrent Matcher.accept next cur).state.recycleCurrent.frame = m.frame :=
      (frame_recycleCurrent _).trans ((frame_offerCurrent ..).trans hframe)
    dsimp only
    split
    · exact ⟨hadvance, hframe⟩
    · simp only [if_true, Bool.not_true, Bool.false_and, Bool.false_eq_true, if_false]
      generalize (a.2.offerCurrent Matcher.accept next cur).state.recycleCurrent = s at hrecycled hrest
      split
      · obtain ⟨hgroups, hframe⟩ := ih (m := s) (groups_recycleCurrent hG hrecycled)
          (fun _ => hrecycled) (a.2.offerCurrent Matcher.accept next cur).cursor
        exact ⟨hgroups, hframe.trans hrest⟩
      · exact ⟨hrecycled, hrest⟩

include hG hsteady in
theorem Poised.seekMember [LawfulCursor κ] (h : m.Poised G j) (hskip : G.rule = .skipping)
    (hc : text[j]? = some c) {fuel : Nat}
    (htaken : (seekMember Matcher.accept false c fuel m (.past text (j + 1))).accepted = true) :
    (seekMember Matcher.accept false c fuel m (.past text (j + 1))).state.Skipping G text (j + 1) ∨
      (seekMember Matcher.accept false c fuel m (.past text (j + 1))).state.Done G text (j + 1) := by
  induction fuel generalizing m with
  | zero => cases htaken
  | succ fuel ih =>
    have hadvance := groups_advance hG h.groups_eq
    have hpoised : m.advance.2.Poised G j :=
      h.of_frame (frame_advance m) (groups_recycleCurrent hG hadvance)
    rw [Chain.seekMember] at htaken ⊢
    generalize m.advance = a at *
    have hholds := (holds_of_groups hadvance (fun _ => True) text j).offerCurrent hc
    have hpoised := hpoised.offerCurrent c (.past text (j + 1))
    have hcursor := cursor_offerCurrent Matcher.cursor_accept a.2 c (.past text (j + 1))
    generalize a.2.offerCurrent Matcher.accept c (.past text (j + 1)) = r at *
    dsimp only at htaken ⊢
    split
    · next hend =>
      rw [if_pos hend] at htaken
      cases htaken
    · next hgo =>
      rw [if_neg hgo] at htaken
      simp only [Bool.false_eq_true, if_false, hcursor, Bool.not_false, Bool.true_and] at htaken ⊢
      split
      · next hrefused =>
        rw [if_pos hrefused] at htaken
        exact ih hpoised htaken
      · next haccepted =>
        have hholds : r.state.reopen.Holds (fun _ => True) G text (j + 1) :=
          hholds (by simpa using haccepted)
        have hpoised : r.state.reopen.Poised G (j + 1) :=
          hpoised.succ.of_frame (frame_reopen _) hpoised.groups_eq
        exact hpoised.leave hG hsteady hskip hholds rfl

include hG hsteady in
theorem Poised.goOn_ahead (h : m.Poised G j) (hskip : G.rule = .skipping)
    (hends : EndsAt j m.span) (hholds : m.Holds (fun _ => True) G text j) {b : Matcher κ}
    (hb : m.current = some b) (hc : text[j]? = some c) :
    (m.goOn Matcher.accept true true c (.past text (j + 1))).state.Skipping G text j ∨
      (m.goOn Matcher.accept true true c (.past text (j + 1))).state.Done G text j := by
  have hholds := hholds.offerCurrent hc
  have hpoised := h.offerCurrent c (.past text (j + 1))
  have hframe : (m.offerCurrent Matcher.accept c (.past text (j + 1))).state.frame = m.frame :=
    frame_offerCurrent ..
  have hfuel : m.members.length = 0 → False := by
    intro hzero
    cases (current_of_empty hzero).symm.trans hb
  simp only [goOn, if_true]
  generalize m.offerCurrent Matcher.accept c (.past text (j + 1)) = r at *
  split
  · next htaken =>
    left
    have hbounded := hpoised.bounded
    refine ⟨hpoised.rule_eq, ⟨hbounded.shown, hbounded.unfailed, hbounded.span, hbounded.settled⟩,
      rfl, hpoised.groups_eq, ?_, ?_⟩
    · intro hnone
      cases hnone
    · rintro d ⟨⟩
      exact ⟨hc, hholds htaken⟩
  · obtain ⟨hgroups, hrest⟩ := seekMember_peeking hG c hpoised.groups_eq
      (fun hzero => (hfuel hzero).elim) r.cursor
    have hframe := hrest.trans hframe
    generalize (Chain.seekMember Matcher.accept true c m.members.length r.state r.cursor).state = s at *
    have hbetween : s.Between G j :=
      ⟨(congrArg rule hframe).trans h.rule_eq, h.bounded.of_frame hframe,
        (congrArg span hframe) ▸ hends, hgroups⟩
    exact hbetween.skipping_or_done hG hsteady hskip ((congrArg ahead hframe).trans h.ahead_eq) text

include hG hsteady in
theorem Poised.goOn_due [LawfulCursor κ] (h : m.Poised G j) (hskip : G.rule = .skipping)
    (hc : text[j]? = some c) {complete : Bool}
    (hclosed : complete = true → ∀ b, m.current = some b →
      ∀ d cur, (b.accept d cur).accepted = false)
    (htaken : (m.goOn Matcher.accept false complete c (.past text (j + 1))).accepted = true) :
    (m.goOn Matcher.accept false complete c (.past text (j + 1))).state.Skipping G text (j + 1) ∨
      (m.goOn Matcher.accept false complete c (.past text (j + 1))).state.Done G text (j + 1) := by
  have hcursor := cursor_offerCurrent Matcher.cursor_accept m c (.past text (j + 1))
  rw [goOn] at htaken ⊢
  cases complete with
  | false => exact h.seekMember hG hsteady hskip hc htaken
  | true =>
    have hrefused : (m.offerCurrent Matcher.accept c (.past text (j + 1))).accepted = false := by
      cases hb : m.current with
      | none => simp [Chain.offerCurrent, hb]
      | some b =>
        rw [offerCurrent_of_current hb]
        exact hclosed rfl b hb c _
    simp only [if_true, hrefused, Bool.false_eq_true, if_false, hcursor] at htaken ⊢
    exact (h.offerCurrent c _).seekMember hG hsteady hskip hc htaken

theorem Skipping.poised_offerDue (h : m.Skipping G text j) (c : Char) (cur : Cursor) :
    (m.offerDue Matcher.accept c cur).state.Poised G j := by
  have hbounded := h.bounded
  have hpoised : Chain.Poised { m with ahead := none } G j :=
    ⟨h.rule_eq, ⟨hbounded.shown, hbounded.unfailed, hbounded.span, hbounded.settled⟩,
      h.groups_eq, rfl⟩
  rw [offerDue]
  split
  · exact hpoised
  · exact hpoised.offerCurrent c cur

omit [LawfulCopy κ] in
theorem complete_offerDue (m : Chain (Matcher κ)) (c : Char) (cur : Cursor) :
    (m.offerDue Matcher.accept c cur).state.complete = m.complete := by
  rw [offerDue]
  split
  · rfl
  · rw [Chain.offerCurrent]
    split <;> rfl

omit [LawfulCopy κ] in
theorem Skipping.offerDue_taken (h : m.Skipping G text j) (hc : text[j]? = some c)
    (htaken : (m.offerDue Matcher.accept c (.past text (j + 1))).accepted = true) :
    (m.offerDue Matcher.accept c (.past text (j + 1))).state.Holds (fun _ => True) G text
      (j + 1) := by
  rw [offerDue] at htaken ⊢
  cases hahead : m.ahead with
  | none =>
    have hholds : Chain.Holds { m with ahead := none } (fun _ => True) G text j := (h.due hahead).1
    simp only [hahead, reduceCtorEq, if_false] at htaken ⊢
    exact hholds.offerCurrent hc htaken
  | some d =>
    obtain ⟨hd, hholds⟩ := h.early d hahead
    cases hc.symm.trans hd
    simp only [if_true]
    exact hholds

omit [LawfulCopy κ] in
theorem Skipping.offerDue_refused (h : m.Skipping G text j)
    (hsettles : ∀ a ∈ G.members, a.Settles fun _ => True) (hc : text[j]? = some c)
    (hrefused : (m.offerDue Matcher.accept c (.past text (j + 1))).accepted = false) (b : Matcher κ)
    (hb : (m.offerDue Matcher.accept c (.past text (j + 1))).state.current = some b)
    (hcomplete : b.isComplete = true) :
    EndsBefore j b.span ∧ ∀ d cur, (b.accept d cur).accepted = false := by
  rw [offerDue] at hrefused hb
  split at hrefused
  · cases hrefused
  · next hdue =>
    rw [if_neg hdue] at hb
    have hahead : m.ahead = none := by
      cases hahead : m.ahead with
      | none => rfl
      | some d =>
        cases hc.symm.trans (h.early d hahead).1
        exact absurd hahead hdue
    obtain ⟨hholds, hwaiting⟩ := h.due hahead
    rw [current_offerCurrent, Option.map_eq_some_iff] at hb
    obtain ⟨b, hb, rfl⟩ := hb
    obtain ⟨a, ha, i, htakes⟩ := hholds b hb
    rw [offerCurrent_of_current hb] at hrefused
    exact hsettles a ha htakes (hwaiting b hb) hc hrefused hcomplete

include hG hsteady in
theorem Skipping.accept [LawfulCursor κ] (h : m.Skipping G text j) (hskip : G.rule = .skipping)
    (hsettles : ∀ a ∈ G.members, a.Settles fun _ => True) (hc : text[j]? = some c)
    (htaken : (m.acceptSkipping Matcher.accept c (.past text (j + 1))).accepted = true) :
    (m.acceptSkipping Matcher.accept c (.past text (j + 1))).state.Skipping G text (j + 1) ∨
      (m.acceptSkipping Matcher.accept c (.past text (j + 1))).state.Done G text (j + 1) := by
  have hcursor := cursor_offerDue Matcher.cursor_accept m c (.past text (j + 1))
  have hincomplete := (complete_offerDue m c (.past text (j + 1))).trans h.incomplete
  have hpoised := h.poised_offerDue c (.past text (j + 1))
  have hholds := h.offerDue_taken hc
  have hsettled := h.offerDue_refused hsettles hc
  rw [acceptSkipping] at htaken ⊢
  generalize m.offerDue Matcher.accept c (.past text (j + 1)) = r at *
  dsimp only at htaken ⊢
  have hgone : ∀ {s : Chain (Matcher κ)} (d : Char) (cur : Cursor),
      s.Skipping G text (j + 1) ∨ s.Done G text (j + 1) →
        (Chain.finish true s d cur).state.Skipping G text (j + 1) ∨
          (Chain.finish true s d cur).state.Done G text (j + 1) :=
    fun d cur hs => hs.imp (·.finish d cur) (·.finish d cur)
  cases hdone : r.state.currentComplete with
  | false =>
    cases haccepted : r.accepted with
    | false =>
      simp only [hdone, haccepted, hcursor, Bool.not_false, Bool.true_and, Bool.false_eq_true,
        if_false, if_true] at htaken ⊢
      split
      · next hwait =>
        rw [if_pos hwait] at htaken
        cases htaken
      · next hwait =>
        rw [if_neg hwait] at htaken
        have hgo : (r.state.goOn Matcher.accept false false c (.past text (j + 1))).accepted = true :=
          htaken
        rw [hgo]
        refine hgone c _ (hpoised.goOn_due hG hsteady hskip hc ?_ hgo)
        intro hcomplete
        cases hcomplete
    | true =>
      have hleave := hpoised.succ.leave hG hsteady hskip (hholds haccepted) hincomplete
      simp only [hdone, Bool.false_eq_true, if_false] at hleave
      simp only [(hholds haccepted).unfailed hsteady, Bool.not_false, Bool.and_self, if_true]
      exact hgone c _ hleave
  | true =>
    obtain ⟨b, hb, hcomplete⟩ := (Option.any_eq_true ..).1 hdone
    simp only [hdone, hcursor, Bool.not_true, Bool.false_and, Bool.false_eq_true, if_false,
      if_true] at htaken ⊢
    cases haccepted : r.accepted with
    | false =>
      obtain ⟨⟨t, ht, hlt⟩, hclosed⟩ := hsettled haccepted b hb hcomplete
      have hcommit : r.state.commit.Poised G j := by
        apply hpoised.commit hb
        intro u hu
        cases ht.symm.trans hu
        exact hlt
      have hcurrent : r.state.commit.current = some b := by
        rw [commit_eq]
        exact hb
      simp only [haccepted, Bool.not_false, if_true] at htaken ⊢
      have hgo : (r.state.commit.goOn Matcher.accept false true c (.past text (j + 1))).accepted = true :=
        htaken
      rw [hgo]
      refine hgone c _ (hcommit.goOn_due hG hsteady hskip hc ?_ hgo)
      intro _ b' hb'
      cases hcurrent.symm.trans hb'
      exact hclosed
    | true =>
      have hholds := hholds haccepted
      have hends := hholds.endsAt hsteady hb hcomplete
      have hspan := (hpoised.bounded.succ.commit_endsAt hb hends).2
      have hcommit : r.state.commit.Poised G (j + 1) := by
        apply hpoised.succ.commit hb
        intro u hu
        obtain ⟨t, ht, hstop⟩ := hends
        cases ht.symm.trans hu
        omega
      simp only [Cursor.read?_past, Bool.not_true, Bool.false_eq_true, if_false]
      cases hnext : text[j + 1]? with
      | none =>
        right
        apply Done.finish
        exact ⟨hcommit.bounded.of_frame rfl, hspan, rfl, fun hregular => absurd hskip hregular.1⟩
      | some d =>
        apply hgone
        have hcurrent : r.state.commit.current = some b := by
          rw [commit_eq]
          exact hb
        refine hcommit.goOn_ahead hG hsteady hskip hspan ?_ hcurrent hnext
        rw [commit_eq]
        exact hholds

end Lexing.Chain
