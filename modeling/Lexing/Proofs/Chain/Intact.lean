import Lexing.Proofs.Chain.Checked
import Lexing.Proofs.Chain.FallingBack

/-!
Chains that do not break. A member that has refused a character with which it has failed must not be
offered another one; a chain leaves such a member, or has failed itself. The length to which a chain cuts
its text is that of a beginning of it, as long as the chain has not failed.
-/

namespace Lexing

variable {α : Type}

theorem splitsChar_of_prefix {s t : List Char} (h : s <+: t) : splitsChar (utf8Length s) t = false := by
  obtain ⟨rest, rfl⟩ := h
  induction s with
  | nil =>
    cases rest with
    | nil => rfl
    | cons c rest => simp [splitsChar, utf8Length, Nat.not_le_of_lt c.utf8Size_pos]
  | cons c s ih => simpa [splitsChar, utf8Length] using ih

variable [Member α]

/-- The last character is refused, and the member has failed with it. -/
structure Reply.Fails (r : Reply α) : Prop where
  refused : r.accepted = false
  failed : Member.isFailed r.state = true
  incomplete : Member.isComplete r.state = false

/-- Members with the property do not break with the next character, and lose the property only by failing
with it. -/
structure Offer.Spares (offer : Offer α) (S : α → Prop) : Prop where
  unbroken : ∀ a, S a → Member.isBroken a = false
  recycle : ∀ a, S (Member.recycle a)
  offer_unbroken : ∀ a c cur, S a → Member.isBroken (offer a c cur).state = false
  offer : ∀ a c cur, S a → S (offer a c cur).state ∨ (offer a c cur).Fails

namespace Chain

variable {S : α → Prop} {m s : Chain α} {offer : Offer α}

structure Ready (S : α → Prop) (m : Chain α) : Prop where
  unbroken : m.broken = false
  members : ∀ group ∈ m.groups, ∀ a ∈ group, S a

/-- The current member may have lost the property, but has not broken. -/
structure Usable (S : α → Prop) (m : Chain α) : Prop where
  unbroken : m.broken = false
  current : ∀ a, m.current = some a → Member.isBroken a = false
  others : ∀ group ∈ (m.modifyCurrent Member.recycle).groups, ∀ a ∈ group, S a

omit [Member α] in
theorem eq_current_or_mem (f : α → α) {group : List α} {a : α} (hgroup : group ∈ m.groups)
    (ha : a ∈ group) :
    m.current = some a ∨ ∃ other ∈ (m.modifyCurrent f).groups, a ∈ other := by
  obtain ⟨g, hg⟩ := List.mem_iff_getElem?.1 hgroup
  obtain ⟨i, hi⟩ := List.mem_iff_getElem?.1 ha
  have hat : m.memberAt g i = some a := by rw [memberAt, hg, Option.bind_some, hi]
  by_cases hplace : g = m.group ∧ i = m.index
  · rw [hplace.1, hplace.2] at hat
    exact .inl hat
  · have hsame : (m.modifyCurrent f).memberAt g i = some a := by
      rw [memberAt_modifyCurrent, if_neg hplace, hat]
    obtain ⟨other, hother, ha⟩ := Option.bind_eq_some_iff.1 hsame
    exact .inr ⟨other, List.mem_of_getElem? hother, List.mem_of_getElem? ha⟩

omit [Member α] in
theorem forall_mem_modifyCurrent {f : α → α} (h : ∀ group ∈ m.groups, ∀ a ∈ group, S a)
    (hf : ∀ a, S (f a)) : ∀ group ∈ (m.modifyCurrent f).groups, ∀ a ∈ group, S a :=
  forall_mem_modify h fun group hgroup =>
    forall_mem_modify (h group (List.mem_of_getElem? hgroup)) fun a _ => hf a

namespace Usable

theorem of_eq (h : m.Usable S) (hgroups : s.groups = m.groups) (hgroup : s.group = m.group)
    (hindex : s.index = m.index) (hbroken : s.broken = m.broken) : s.Usable S := by
  refine ⟨hbroken.trans h.unbroken, fun a ha => h.current a ?_, ?_⟩
  · rwa [Chain.current, hgroups, hgroup, hindex] at ha
  · rw [modifyCurrent, hgroups, hgroup, hindex]
    exact h.others

theorem commit (h : m.Usable S) : m.commit.Usable S := by
  rw [commit_eq]
  exact h.of_eq rfl rfl rfl rfl

theorem ready (h : m.Usable S) (hcurrent : ∀ a, m.current = some a → S a) : m.Ready S := by
  refine ⟨h.unbroken, fun group hgroup a ha => ?_⟩
  rcases eq_current_or_mem Member.recycle hgroup ha with ha | ⟨other, hother, ha⟩
  · exact hcurrent a ha
  · exact h.others other hother a ha

theorem recycleCurrent (h : m.Usable S) : m.recycleCurrent.Ready S := by
  refine ⟨?_, h.others⟩
  rw [Chain.recycleCurrent, h.unbroken, Bool.false_or]
  cases ha : m.current with
  | none => rfl
  | some a => exact h.current a ha

theorem isBroken_eq_false (h : m.Usable S) (hS : ∀ a, S a → Member.isBroken a = false) :
    m.isBroken = false := by
  rw [isBroken, h.unbroken, Bool.false_or, List.any_eq_false]
  intro group hgroup hbroken
  obtain ⟨a, ha, hbroken⟩ := List.any_eq_true.1 hbroken
  have hwhole : Member.isBroken a = false := by
    rcases eq_current_or_mem Member.recycle hgroup ha with ha | ⟨other, hother, ha⟩
    · exact h.current a ha
    · exact hS a (h.others other hother a ha)
  cases hwhole.symm.trans hbroken

end Usable

namespace Ready

omit [Member α] in
theorem of_eq (h : m.Ready S) (hgroups : s.groups = m.groups) (hbroken : s.broken = m.broken) :
    s.Ready S := ⟨hbroken.trans h.unbroken, hgroups ▸ h.members⟩

theorem commit (h : m.Ready S) : m.commit.Ready S := by
  rw [commit_eq]
  exact h.of_eq rfl rfl

omit [Member α] in
theorem settle (h : m.Ready S) (c : Char) : (m.settle c).Ready S := by
  rw [settle_eq]
  exact h.of_eq rfl rfl

omit [Member α] in
theorem moveOn (h : m.Ready S) : m.moveOn.Ready S := by
  rcases m.cases_moveOn with ⟨g, i, -, heq⟩ | heq <;> rw [heq]
  · exact h.of_eq rfl rfl
  · exact h.of_eq rfl rfl

omit [Member α] in
theorem of_current (h : m.Ready S) {a : α} (ha : m.current = some a) : S a := by
  obtain ⟨group, hgroup, ha⟩ := Option.bind_eq_some_iff.1 ha
  exact h.members group (List.mem_of_getElem? hgroup) a (List.mem_of_getElem? ha)

theorem isBroken_eq_false (h : m.Ready S) (hS : ∀ a, S a → Member.isBroken a = false) :
    m.isBroken = false := by
  rw [isBroken, h.unbroken, Bool.false_or, List.any_eq_false]
  intro group hgroup hbroken
  obtain ⟨a, ha, hbroken⟩ := List.any_eq_true.1 hbroken
  cases (hS a (h.members group hgroup a ha)).symm.trans hbroken

variable (hS : offer.Spares S)
include hS

theorem usable (h : m.Ready S) : m.Usable S where
  unbroken := h.unbroken
  current a ha := hS.unbroken a (h.of_current ha)
  others := forall_mem_modifyCurrent h.members hS.recycle

theorem offerCurrent (h : m.Ready S) (c : Char) (cur : Cursor) :
    let r := m.offerCurrent offer c cur
    r.state.Usable S ∧ (r.accepted = true ∨ r.state.currentComplete = true → r.state.Ready S) := by
  cases ha : m.current with
  | none =>
    rw [Chain.offerCurrent, ha]
    exact ⟨h.usable hS, fun _ => h⟩
  | some a =>
    have hcurrent : (m.modifyCurrent fun _ => (offer a c cur).state).current =
        some (offer a c cur).state := by
      rw [current_modifyCurrent, ha]
      rfl
    have husable : (m.modifyCurrent fun _ => (offer a c cur).state).Usable S := by
      refine ⟨h.unbroken, fun b hb => ?_, ?_⟩
      · cases hcurrent.symm.trans hb
        exact hS.offer_unbroken a c cur (h.of_current ha)
      · rw [modifyCurrent_modifyCurrent]
        exact forall_mem_modifyCurrent h.members fun _ => hS.recycle _
    rw [offerCurrent_of_current ha]
    refine ⟨husable, fun hgood => husable.ready fun b hb => ?_⟩
    cases hcurrent.symm.trans hb
    rcases hS.offer a c cur (h.of_current ha) with hgoes | hfails
    · exact hgoes
    · rcases hgood with haccepted | hcomplete
      · cases hfails.refused.symm.trans haccepted
      · have hcomplete : (m.modifyCurrent fun _ => (offer a c cur).state).current.any
            Member.isComplete = true := hcomplete
        rw [hcurrent, Option.any_some] at hcomplete
        cases hfails.incomplete.symm.trans hcomplete

theorem tryNext (h : m.Ready S) (cur : Cursor) : (m.tryNext offer cur).state.Ready S := by
  refine Usable.recycleCurrent ?_
  split
  · exact h.usable hS
  · exact (h.offerCurrent hS ..).1

end Ready

namespace Usable

variable (hS : offer.Spares S)
include hS

theorem advance (h : m.Usable S) : m.advance.2.Ready S := by
  have h := h.recycleCurrent
  rw [Chain.advance]
  generalize m.recycleCurrent = m at h
  dsimp only
  split
  · exact h.of_eq rfl rfl
  · split
    · refine ⟨?_, ?_⟩
      · have hwhole : ∀ next : Nat, m.groups[next]?.any (List.any · Member.isBroken) = false := by
          intro next
          cases hnext : m.groups[next]? with
          | none => rfl
          | some group =>
            refine List.any_eq_false.2 fun a ha hbroken => ?_
            have hsound := h.members group (List.mem_of_getElem? hnext) a ha
            cases (hS.unbroken a hsound).symm.trans hbroken
        simp [h.unbroken, hwhole]
      · exact forall_mem_modify h.members fun _ _ => List.forall_mem_map.2 fun a _ => hS.recycle a
    · split <;> exact h.of_eq rfl rfl

theorem enter (h : m.Usable S) (c : Char) (cur : Cursor) : (m.enter offer c cur).1.Ready S := by
  have h := (h.commit.advance hS).settle c
  rw [Chain.enter]
  generalize m.commit.advance.2.settle c = m at h
  dsimp only
  split
  · exact h
  · split
    · have hnext := h.tryNext hS cur
      split <;> exact hnext.of_eq rfl rfl
    · split
      · exact h.of_eq rfl rfl
      · exact h

omit hS in
theorem fallBack (h : m.Usable S)
    (hback : ∀ t, m.settled = some t → ∃ w, w <+: m.text ∧ t.bytes = utf8Length w) :
    m.fallBack.Ready S := by
  have h := h.recycleCurrent
  have hkept : ∀ t, m.recycleCurrent.settled = some t →
      splitsChar t.bytes m.recycleCurrent.text = false := by
    intro t ht
    obtain ⟨w, hw, hbytes⟩ := hback t ht
    rw [hbytes]
    exact splitsChar_of_prefix hw
  rw [Chain.fallBack]
  generalize m.recycleCurrent = m at h hkept
  split
  · exact h.of_eq rfl rfl
  · next t ht =>
    refine h.of_eq rfl ?_
    rw [hkept t ht, Bool.or_false]
    rfl

theorem seekMember (peeking : Bool) (next : Char) (fuel : Nat) (h : m.Usable S) (cur : Cursor) :
    let r := Chain.seekMember offer peeking next fuel m cur
    r.state.Usable S ∧
      (r.accepted = true ∨ peeking = true ∧ (0 < fuel ∨ m.Ready S) → r.state.Ready S) := by
  induction fuel generalizing m cur with
  | zero =>
    refine ⟨h, ?_⟩
    rintro (haccepted | ⟨-, hlt | hready⟩)
    · cases haccepted
    · exact absurd hlt (Nat.lt_irrefl 0)
    · exact hready
  | succ fuel ih =>
    have hadvance := h.advance hS
    obtain ⟨husable, hready⟩ := hadvance.offerCurrent hS next cur
    rw [Chain.seekMember]
    dsimp only
    generalize m.advance = a at *
    generalize a.2.offerCurrent offer next cur = r at *
    generalize hs : (if peeking = true then r.state.recycleCurrent else r.state) = s
    have hs : s.Usable S ∧ (r.accepted = true ∨ peeking = true → s.Ready S) := by
      rw [← hs]
      split
      · exact ⟨husable.recycleCurrent.usable hS, fun _ => husable.recycleCurrent⟩
      · next hpeeking =>
        refine ⟨husable, fun htaken => hready (.inl ?_)⟩
        exact htaken.resolve_right hpeeking
    split
    · exact ⟨hadvance.usable hS, fun _ => hadvance⟩
    · split
      · obtain ⟨husable, hready⟩ := ih hs.1 r.cursor
        refine ⟨husable, fun hgood => hready (hgood.imp_right fun hpeeking => ?_)⟩
        exact ⟨hpeeking.1, .inr (hs.2 (.inr hpeeking.1))⟩
      · next hrefused =>
        have htaken : r.accepted = true := by simpa using hrefused
        have hs : s.reopen.Ready S := (hs.2 (.inl htaken)).of_eq rfl rfl
        dsimp only
        split
        · have hon := (hs.usable hS).commit.advance hS
          exact ⟨hon.usable hS, fun _ => hon⟩
        · exact ⟨hs.usable hS, fun _ => hs⟩

theorem goOn (taken complete : Bool) (next : Char) (h : m.Usable S) (hcomplete : complete = true → m.Ready S)
    (cur : Cursor) :
    let r := m.goOn offer taken complete next cur
    r.state.Usable S ∧ (r.accepted = true ∨ taken = true → r.state.Ready S) := by
  rw [Chain.goOn]
  generalize hr' : (if complete = true then m.offerCurrent offer next cur else ⟨false, m, cur⟩) = r
  have hr : r.state.Usable S ∧ (r.accepted = true → r.state.Ready S) := by
    rw [← hr']
    split
    · next hcomplete' =>
      obtain ⟨husable, hready⟩ := (hcomplete hcomplete').offerCurrent hS next cur
      exact ⟨husable, fun haccepted => hready (.inl haccepted)⟩
    · exact ⟨h, fun haccepted => absurd haccepted Bool.false_ne_true⟩
  dsimp only
  split
  · next haccepted =>
    have hready := (hr.2 haccepted).of_eq (s := { r.state.reopen with
      ahead := if taken then some next else r.state.ahead }) rfl rfl
    exact ⟨hready.usable hS, fun _ => hready⟩
  · obtain ⟨husable, hready⟩ := hr.1.seekMember hS taken next m.members.length r.cursor
    refine ⟨husable, fun hgood => hready (hgood.imp_right fun htaken => ⟨htaken, ?_⟩)⟩
    rcases Nat.eq_zero_or_pos m.members.length with hempty | hpos
    · -- there is no member to be offered the character
      have hcurrent := current_of_empty hempty
      have hready : m.Ready S := h.ready fun a ha => by cases hcurrent.symm.trans ha
      have hsame : r.state = m := by
        rw [← hr']
        split
        · rw [offerCurrent, hcurrent]
        · rfl
      exact .inr (hsame ▸ hready)
    · exact .inl hpos

end Usable

variable (hS : offer.Spares S)
include hS

theorem Ready.offerDue (h : m.Ready S) (c : Char) (cur : Cursor) :
    let r := m.offerDue offer c cur
    r.state.Usable S ∧ (r.accepted = true ∨ r.state.currentComplete = true → r.state.Ready S) := by
  have hdue : Ready S { m with ahead := none } := h.of_eq rfl rfl
  rw [Chain.offerDue]
  split
  · exact ⟨hdue.usable hS, fun _ => hdue⟩
  · exact hdue.offerCurrent hS c cur

/-- A chain that may be offered a character. If it falls back, what it keeps is a beginning of its text;
if it has ended, it does not matter any more what its members are like. -/
inductive Intact (S : α → Prop) (m : Chain α) : Prop
  | going : m.Ready S → (m.rule = .suffixed ∨ m.rule = .separated → ∀ t, m.settled = some t →
      ∃ w, w <+: m.text ∧ t.bytes = utf8Length w) → Intact S m
  | closed : m.isBroken = false → m.active = false → Intact S m

omit hS in
theorem Intact.isBroken_eq_false (h : m.Intact S) (hS : ∀ a, S a → Member.isBroken a = false) :
    m.isBroken = false := by
  cases h with
  | going hready => exact hready.isBroken_eq_false hS
  | closed hwhole => exact hwhole

omit hS in
theorem intact_of_fallBack (h : m.fallBack.Ready S) (hbroken : m.fallBack.isBroken = false) :
    m.fallBack.Intact S := by
  cases hsettled : m.settled with
  | none =>
    have hkept : m.recycleCurrent.settled = none := hsettled
    have heq : m.fallBack = { m.recycleCurrent with failed := true } := by simp [fallBack, hkept]
    rw [heq] at h ⊢
    exact .going h fun _ t ht => by cases hsettled.symm.trans ht
  | some t =>
    refine .closed hbroken ?_
    rw [fallBack, show m.recycleCurrent.settled = some t from hsettled]
    rfl

def Withstands (S : α → Prop) (r : Reply (Chain α)) : Prop :=
  r.state.isBroken = false ∧ (r.state.Intact S ∨ r.accepted = false ∧ r.state.failed = true)

theorem Usable.withstands (h : m.Usable S) {accepted : Bool} (hgood : accepted = true → m.Ready S)
    (c : Char) (cur : Cursor) (hback : accepted = true → m.rule = .suffixed ∨ m.rule = .separated →
      ∀ t, m.settled = some t → ∃ w, w <+: m.text ++ [c] ∧ t.bytes = utf8Length w) :
    Withstands S (finish accepted m c cur) := by
  cases accepted with
  | false => exact ⟨(h.of_eq rfl rfl rfl rfl).isBroken_eq_false hS.unbroken, .inr ⟨rfl, rfl⟩⟩
  | true =>
    have hready : (finish true m c cur).state.Ready S := (hgood rfl).of_eq rfl rfl
    refine ⟨hready.isBroken_eq_false hS.unbroken, .inl (.going hready fun hrule => ?_)⟩
    rw [text_finish_true]
    exact hback rfl hrule

theorem Ready.acceptInOrder (h : m.Ready S) (hrule : m.rule = .inOrder) (c : Char) (cur : Cursor) :
    Withstands S (m.acceptInOrder offer c cur) := by
  obtain ⟨husable, hready⟩ := h.offerCurrent hS c cur
  have hrule' : (m.offerCurrent offer c cur).state.rule = .inOrder :=
    (rule_of_frame (frame_offerCurrent ..)).trans hrule
  rw [Chain.acceptInOrder]
  generalize m.offerCurrent offer c cur = r at *
  generalize hs : (if r.state.currentComplete = true then r.state.commit.moveOn else r.state) = s
  have hs : s.Usable S ∧ (r.accepted = true → s.Ready S) ∧ s.rule = .inOrder := by
    rw [← hs]
    split
    · next hcomplete =>
      have hon := (hready (.inr hcomplete)).commit.moveOn
      refine ⟨hon.usable hS, fun _ => hon, ?_⟩
      rw [rule_of_frame (frame_moveOn _), commit_eq, ← hrule']
    · exact ⟨husable, fun haccepted => hready (.inl haccepted), hrule'⟩
  refine hs.1.withstands hS hs.2.1 c r.cursor fun _ hback => ?_
  rw [hs.2.2] at hback
  rcases hback with hback | hback <;> cases hback

theorem Ready.acceptEntering (h : m.Ready S)
    (hback : ∀ t, m.settled = some t → ∃ w, w <+: m.text ∧ t.bytes = utf8Length w) (c : Char)
    (cur : Cursor) : Withstands S (m.acceptEntering offer c cur) := by
  obtain ⟨husable, hready⟩ := h.offerCurrent hS c cur
  have hkept : (m.offerCurrent offer c cur).state.kept = m.kept := kept_offerCurrent m c cur
  have hback : ∀ t, (m.offerCurrent offer c cur).state.settled = some t →
      ∃ w, w <+: (m.offerCurrent offer c cur).state.text ∧ t.bytes = utf8Length w := by
    intro t ht
    have htaken : (m.offerCurrent offer c cur).state.taken = m.taken := congrArg Prod.fst hkept
    rw [text, htaken]
    exact hback t ((congrArg Prod.snd hkept).symm.trans ht)
  rw [Chain.acceptEntering]
  generalize m.offerCurrent offer c cur = r at *
  dsimp only
  split
  · have hfell := husable.fallBack hback
    have hwhole := hfell.isBroken_eq_false hS.unbroken
    exact ⟨hwhole, .inl (intact_of_fallBack hfell hwhole)⟩
  · split
    · next hcomplete =>
      have hentered := ((hready (.inr hcomplete)).usable hS).enter hS c r.cursor
      refine (hentered.usable hS).withstands hS (fun _ => hentered) c _ fun _ _ => ?_
      rw [text_enter]
      exact boundary_enter hback c r.cursor
    · refine husable.withstands hS (fun haccepted => hready (.inl haccepted)) c _ fun _ _ t ht => ?_
      obtain ⟨w, hw, hbytes⟩ := hback t ht
      exact ⟨w, hw.trans (List.prefix_append ..), hbytes⟩

theorem Ready.acceptSkipping (h : m.Ready S) (hrule : m.rule = .skipping) (c : Char) (cur : Cursor) :
    Withstands S (m.acceptSkipping offer c cur) := by
  -- such a chain does not fall back
  have hfinish : ∀ {s : Chain α} {accepted : Bool} (cur : Cursor), s.Usable S →
      (accepted = true → s.Ready S) → s.rule = .skipping →
      Withstands S (finish accepted s c cur) := by
    intro s accepted cur husable hready hrule
    refine husable.withstands hS hready c cur fun _ hback => ?_
    rw [hrule] at hback
    rcases hback with hback | hback <;> cases hback
  obtain ⟨husable, hready⟩ := h.offerDue hS c cur
  have hrule' := (rule_offerDue offer m c cur).trans hrule
  rw [Chain.acceptSkipping]
  generalize m.offerDue offer c cur = r at *
  dsimp only
  split
  · exact hfinish _ husable (fun haccepted => hready (.inl haccepted)) hrule'
  · generalize hs : (if r.state.currentComplete = true then r.state.commit else r.state) = s
    have hs : s.Usable S ∧ (r.accepted = true ∨ r.state.currentComplete = true → s.Ready S) ∧
        s.rule = .skipping := by
      rw [← hs]
      split
      · refine ⟨husable.commit, fun hgood => (hready hgood).commit, ?_⟩
        rw [commit_eq, ← hrule']
      · exact ⟨husable, hready, hrule'⟩
    obtain ⟨husable, hready, hrule⟩ := hs
    split
    · obtain ⟨hwent, hgood⟩ := husable.goOn hS false r.state.currentComplete c
        (fun hcomplete => hready (.inr hcomplete)) r.cursor
      refine hfinish _ hwent (fun haccepted => hgood (.inl haccepted)) ?_
      exact (rule_goOn ..).trans hrule
    · next htaken =>
      have haccepted : r.accepted = true := by simpa using htaken
      split
      · next next after _ =>
        obtain ⟨hwent, hgood⟩ := husable.goOn hS true r.state.currentComplete next
          (fun hcomplete => hready (.inr hcomplete)) after
        refine hfinish _ hwent (fun _ => hgood (.inr rfl)) ?_
        exact (rule_goOn ..).trans hrule
      · have hs := hready (.inl haccepted)
        split
        · exact hfinish _ (husable.of_eq rfl rfl rfl rfl) (fun _ => hs.of_eq rfl rfl) hrule
        · exact hfinish _ husable (fun _ => hs) hrule

theorem Intact.accept (h : m.Intact S) (c : Char) (cur : Cursor) :
    Withstands S (m.accept offer c cur) := by
  rw [Chain.accept]
  cases h with
  | closed hwhole hclosed =>
    rw [if_pos (by rw [hclosed]; rfl)]
    exact ⟨hwhole, .inl (.closed hwhole hclosed)⟩
  | going hready hback =>
    split
    · exact ⟨(hready.of_eq rfl rfl).isBroken_eq_false hS.unbroken, .inr ⟨rfl, rfl⟩⟩
    · split
      · next hrule => exact hready.acceptInOrder hS hrule c cur
      · next hrule => exact hready.acceptEntering hS (hback (.inl hrule)) c cur
      · next hrule => exact hready.acceptEntering hS (hback (.inr hrule)) c cur
      · next hrule => exact hready.acceptSkipping hS hrule c cur

end Chain

end Lexing
