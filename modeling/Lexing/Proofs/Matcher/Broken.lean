import Lexing.Matcher.Unfold

/-!
A matcher breaks where an offer does not come back with an answer. No further offer can mend it
(`isBroken_accept`), so that it is enough to look at what has become of it; a matcher that is ready for
another run is whole.
-/

namespace Lexing

variable {α : Type}

theorem any_modify {p : α → Bool} {f : α → α} {l : List α} {i : Nat}
    (hf : ∀ a, l[i]? = some a → p a = true → p (f a) = true) (h : l.any p = true) :
    (l.modify i f).any p = true := by
  induction l generalizing i with
  | nil => cases h
  | cons a rest ih =>
    rw [List.any_cons, Bool.or_eq_true] at h
    cases i with
    | zero => simpa using h.imp_left (hf a rfl)
    | succ i => simpa using h.imp_right (ih fun b hb => hf b (by simpa using hb))

def Offer.Breaks [Member α] (offer : Offer α) : Prop :=
  ∀ a c cur, Member.isBroken a = true → Member.isBroken (offer a c cur).state = true

variable [Member α] {offer : Offer α}

namespace Choice

def isBroken (m : Choice α) : Bool := m.broken || m.members.any Member.isBroken

theorem isBroken_visit (h : offer.Breaks) (c : Char) (i : Nat) {r : Round α}
    (hr : (r.broken || r.members.any Member.isBroken) = true) :
    ((visit offer c i r).2.broken || (visit offer c i r).2.members.any Member.isBroken) = true := by
  rw [visit]
  split
  · rfl
  · next a ha =>
    split
    · exact hr
    · obtain ⟨hi, rfl⟩ := List.getElem?_eq_some_iff.1 ha
      rw [Bool.or_eq_true] at hr ⊢
      refine hr.imp_right fun hany => ?_
      obtain ⟨b, hb, hbroken⟩ := List.any_eq_true.1 hany
      obtain ⟨k, hk, rfl⟩ := List.getElem_of_mem hb
      refine List.any_eq_true.2 ⟨_, List.getElem_mem (by simpa using hk), ?_⟩
      rw [List.getElem_set]
      split
      · next hik => exact h _ c r.cursor (hik ▸ hbroken)
      · exact hbroken

theorem isBroken_update (h : offer.Breaks) {m : Choice α} (hm : m.isBroken = true) (c : Char)
    (cur : Cursor) : (m.update offer c cur).2.1.isBroken = true := by
  rw [isBroken, Bool.or_eq_true] at hm
  rw [update]
  generalize hw : Bag.walk (visit offer c) m.alive.length m.alive { members := m.members, cursor := cur } = w
  rcases hm with hm | hm
  · simp [isBroken, hm]
  · have hround := Bag.walk_induction
      (P := fun r : Round α => (r.broken || r.members.any Member.isBroken) = true)
      (fun i r => isBroken_visit h c i) m.alive.length m.alive
      (s := { members := m.members, cursor := cur }) hm
    rw [hw] at hround
    simp only [isBroken, Bool.or_assoc, hround, Bool.or_true]

theorem isBroken_restart {m : Choice α} (hm : m.isBroken = true) : m.restart.isBroken = true :=
  Bool.or_eq_true_iff.2 (.inl hm)

theorem isBroken_acceptSeek (h : offer.Breaks) {m : Choice α} (hm : m.isBroken = true) (c : Char)
    (cur : Cursor) : (m.acceptSeek offer c cur).state.isBroken = true := by
  have hu := isBroken_update h hm c cur
  rw [acceptSeek]
  generalize m.update offer c cur = u at hu
  dsimp only
  generalize hs : (if (u.2.1.alive.isEmpty && !u.2.1.progress.taken.isEmpty) = true then
    u.2.1.restart.update offer c u.2.2 else (u.1, u.2.1, u.2.2)) = s
  have hs : s.2.1.isBroken = true := by
    rw [← hs]
    split
    · exact isBroken_update h (isBroken_restart hu) c u.2.2
    · exact hu
  split
  · exact isBroken_restart hs
  · exact hs

theorem isBroken_accept (h : offer.Breaks) {m : Choice α} (hm : m.isBroken = true) (c : Char)
    (cur : Cursor) : (m.accept offer c cur).state.isBroken = true := by
  have hu := isBroken_update h hm c cur
  rw [accept]
  split
  · exact hm
  · split
    · rw [acceptAny]
      dsimp only
      split
      · exact hu
      · exact hu
    · split
      · exact hm
      · exact isBroken_acceptSeek h hm c cur

end Choice

namespace Chain

def isBroken (m : Chain α) : Bool := m.broken || m.groups.any (List.any · Member.isBroken)

variable {m s : Chain α}

theorem isBroken_of_eq (hm : m.isBroken = true) (hgroups : s.groups = m.groups)
    (hbroken : s.broken = m.broken) : s.isBroken = true := by
  rw [isBroken, hgroups, hbroken]
  exact hm

theorem isBroken_modifyCurrent {f : α → α} (hm : m.isBroken = true)
    (hf : ∀ a, m.current = some a → Member.isBroken a = true → Member.isBroken (f a) = true) :
    (m.modifyCurrent f).isBroken = true := by
  rw [isBroken, Bool.or_eq_true] at hm ⊢
  refine hm.imp_right (any_modify fun group hgroup => any_modify fun a ha => hf a ?_)
  rw [current, hgroup, Option.bind_some, ha]

theorem isBroken_recycleCurrent (hm : m.isBroken = true) : m.recycleCurrent.isBroken = true := by
  cases hcurrent : m.current.any Member.isBroken with
  | true => simp [isBroken, recycleCurrent, hcurrent]
  | false =>
    have hrecycled := isBroken_modifyCurrent (f := Member.recycle) hm fun a ha hbroken => by
      simp [ha, hbroken] at hcurrent
    refine isBroken_of_eq hrecycled rfl ?_
    simp [recycleCurrent, hcurrent, modifyCurrent]

theorem isBroken_offerCurrent (h : offer.Breaks) (hm : m.isBroken = true) (c : Char) (cur : Cursor) :
    (m.offerCurrent offer c cur).state.isBroken = true := by
  rw [offerCurrent]
  split
  · exact hm
  · next a ha =>
    refine isBroken_modifyCurrent hm fun b hb hbroken => ?_
    rw [ha] at hb
    cases hb
    exact h a c cur hbroken

theorem isBroken_commit (hm : m.isBroken = true) : m.commit.isBroken = true := by
  rw [commit]
  split
  · exact hm
  · split <;> exact hm

theorem isBroken_settle (hm : m.isBroken = true) (c : Char) : (m.settle c).isBroken = true := by
  rw [settle]
  split <;> exact hm

theorem isBroken_finish (hm : m.isBroken = true) (accepted : Bool) (c : Char) (cur : Cursor) :
    (finish accepted m c cur).state.isBroken = true := by
  rw [finish]
  split <;> exact hm

theorem isBroken_moveOn (hm : m.isBroken = true) : m.moveOn.isBroken = true := by
  rw [moveOn]
  split
  · exact hm
  · split <;> exact hm

theorem isBroken_advance (hm : m.isBroken = true) : m.advance.2.isBroken = true := by
  have hm := isBroken_recycleCurrent hm
  rw [advance]
  generalize m.recycleCurrent = m at hm
  dsimp only
  split
  · exact hm
  · split
    · generalize (if m.group = 0 then 1 % m.groups.length else 0) = next
      cases hnext : m.groups[next]?.any (List.any · Member.isBroken) with
      | true => simp [isBroken]
      | false =>
        rw [isBroken, Bool.or_eq_true] at hm ⊢
        refine hm.imp (fun hbroken => by simp [hbroken]) (any_modify fun group hgroup hbroken => ?_)
        rw [hgroup, Option.any_some, hbroken] at hnext
        cases hnext
    · split <;> exact hm

theorem isBroken_fallBack (hm : m.isBroken = true) : m.fallBack.isBroken = true := by
  have hm := isBroken_recycleCurrent hm
  rw [fallBack]
  generalize m.recycleCurrent = m at hm
  split
  · exact hm
  · rw [isBroken, Bool.or_eq_true] at hm
    rw [close, isBroken, Bool.or_eq_true]
    exact hm.imp_left fun hbroken => by simp [hbroken]

theorem isBroken_acceptInOrder (h : offer.Breaks) (hm : m.isBroken = true) (c : Char) (cur : Cursor) :
    (m.acceptInOrder offer c cur).state.isBroken = true := by
  have hr := isBroken_offerCurrent h hm c cur
  refine isBroken_finish ?_ ..
  split
  · exact isBroken_moveOn (isBroken_commit hr)
  · exact hr

theorem isBroken_tryNext (h : offer.Breaks) (hm : m.isBroken = true) (cur : Cursor) :
    (m.tryNext offer cur).state.isBroken = true := by
  refine isBroken_recycleCurrent ?_
  split
  · exact hm
  · exact isBroken_offerCurrent h hm ..

theorem isBroken_enter (h : offer.Breaks) (hm : m.isBroken = true) (c : Char) (cur : Cursor) :
    (m.enter offer c cur).1.isBroken = true := by
  have hm := isBroken_settle (isBroken_advance (isBroken_commit hm)) c
  rw [enter]
  generalize m.commit.advance.2.settle c = m at hm
  dsimp only
  split
  · exact hm
  · split
    · have hnext := isBroken_tryNext h hm cur
      split <;> exact hnext
    · split <;> exact hm

theorem isBroken_acceptEntering (h : offer.Breaks) (hm : m.isBroken = true) (c : Char) (cur : Cursor) :
    (m.acceptEntering offer c cur).state.isBroken = true := by
  have hr := isBroken_offerCurrent h hm c cur
  rw [acceptEntering]
  dsimp only
  split
  · exact isBroken_fallBack hr
  · refine isBroken_finish ?_ ..
    split
    · exact isBroken_enter h hr c _
    · exact hr

theorem isBroken_seekMember (h : offer.Breaks) (peeking : Bool) (next : Char) (fuel : Nat)
    (hm : m.isBroken = true) (cur : Cursor) :
    (seekMember offer peeking next fuel m cur).state.isBroken = true := by
  induction fuel generalizing m cur with
  | zero => exact hm
  | succ fuel ih =>
    have ha := isBroken_advance hm
    have hr := isBroken_offerCurrent h ha next cur
    have hm' : (if peeking = true then (m.advance.2.offerCurrent offer next cur).state.recycleCurrent
        else (m.advance.2.offerCurrent offer next cur).state).isBroken = true := by
      split
      · exact isBroken_recycleCurrent hr
      · exact hr
    rw [seekMember]
    dsimp only
    generalize (if peeking = true then (m.advance.2.offerCurrent offer next cur).state.recycleCurrent
      else (m.advance.2.offerCurrent offer next cur).state) = s at hm'
    split
    · exact ha
    · split
      · exact ih hm' _
      · dsimp only
        split
        · exact isBroken_advance (isBroken_commit hm')
        · exact hm'

theorem isBroken_goOn (h : offer.Breaks) (taken complete : Bool) (next : Char) (hm : m.isBroken = true)
    (cur : Cursor) : (m.goOn offer taken complete next cur).state.isBroken = true := by
  rw [goOn]
  generalize hr : (if complete = true then m.offerCurrent offer next cur else ⟨false, m, cur⟩) = r
  have hr : r.state.isBroken = true := by
    rw [← hr]
    split
    · exact isBroken_offerCurrent h hm ..
    · exact hm
  dsimp only
  split
  · exact hr
  · exact isBroken_seekMember h taken next _ hr _

theorem isBroken_acceptSkipping (h : offer.Breaks) (hm : m.isBroken = true) (c : Char) (cur : Cursor) :
    (m.acceptSkipping offer c cur).state.isBroken = true := by
  have hr : (m.offerDue offer c cur).state.isBroken = true := by
    rw [offerDue]
    split
    · exact hm
    · exact isBroken_offerCurrent h (m := { m with ahead := none }) hm ..
  rw [acceptSkipping]
  generalize m.offerDue offer c cur = r at hr
  dsimp only
  split
  · exact isBroken_finish hr ..
  · generalize hs : (if r.state.currentComplete = true then r.state.commit else r.state) = s
    have hs : s.isBroken = true := by
      rw [← hs]
      split
      · exact isBroken_commit hr
      · exact hr
    split
    · exact isBroken_finish (isBroken_goOn h _ _ _ hs _) ..
    · split
      · exact isBroken_finish (isBroken_goOn h _ _ _ hs _) ..
      · refine isBroken_finish ?_ ..
        split
        · exact hs
        · exact hs

theorem isBroken_accept (h : offer.Breaks) (hm : m.isBroken = true) (c : Char) (cur : Cursor) :
    (m.accept offer c cur).state.isBroken = true := by
  rw [accept]
  split
  · exact hm
  · split
    · exact isBroken_acceptInOrder h hm c cur
    · exact isBroken_acceptEntering h hm c cur
    · exact isBroken_acceptEntering h hm c cur
    · exact isBroken_acceptSkipping h hm c cur

end Chain

namespace Matcher

variable {κ : Type} [CustomMatcher κ]

theorem isBroken_choice (m : Choice (Matcher κ)) : (mk (.choice m)).isBroken = m.isBroken := by
  rw [isBroken_mk]
  simp [Layer.map, Layer.isBroken, Choice.isBroken, Choice.map]
  rfl

theorem isBroken_chain (m : Chain (Matcher κ)) : (mk (.chain m)).isBroken = m.isBroken := by
  rw [isBroken_mk]
  simp [Layer.map, Layer.isBroken, Chain.isBroken, Chain.members, Chain.map, Function.comp_def]
  rfl

theorem breaks_acceptWithin (n : Nat) : Offer.Breaks (acceptWithin (κ := κ) n) := by
  induction n with
  | zero => exact fun _ _ _ h => h
  | succ n ih =>
    intro m c cur h
    obtain ⟨l⟩ := m
    change (mk l).isBroken = true at h
    change (mk (l.accept (acceptWithin n) c cur).state).isBroken = true
    cases l with
    | choice m =>
      rw [isBroken_choice] at h
      exact (isBroken_choice _).trans (Choice.isBroken_accept ih h c cur)
    | chain m =>
      rw [isBroken_chain] at h
      exact (isBroken_chain _).trans (Chain.isBroken_accept ih h c cur)
    | _ =>
      rw [isBroken_mk] at h
      cases h

/-- A matcher that is broken stays so. -/
theorem isBroken_accept {m : Matcher κ} (h : m.isBroken = true) (c : Char) (cur : Cursor) :
    (m.accept c cur).state.isBroken = true :=
  breaks_acceptWithin m.depth m c cur h

theorem isBroken_copy_map {f : Matcher κ → Matcher κ} {l : Layer κ (Matcher κ)}
    (h : ∀ a ∈ l.members, (f a).isBroken = false) : (mk (l.map f).copy).isBroken = false := by
  have hcongr : l.map (isBroken ∘ f) = l.map fun _ => false := Layer.map_congr h
  rw [isBroken_mk, ← Layer.map_copy, Layer.map_map, hcongr]
  cases l <;> simp [Layer.map, Layer.copy, Layer.isBroken, Choice.map, Choice.fresh, Chain.map,
    Chain.fresh, Chain.members]

theorem isBroken_reset_map {f : Matcher κ → Matcher κ} {l : Layer κ (Matcher κ)}
    (h : ∀ a ∈ l.members, (f a).isBroken = false) : (mk (l.map f).reset).isBroken = false := by
  cases l with
  | custom k => exact isBroken_mk _
  | _ => exact isBroken_copy_map h

@[simp] theorem isBroken_copy (m : Matcher κ) : m.copy.isBroken = false := by
  induction m using Matcher.induction with
  | step l ih =>
    rw [copy_mk]
    exact isBroken_copy_map ih

@[simp] theorem isBroken_recycle (m : Matcher κ) : m.recycle.isBroken = false := by
  induction m using Matcher.induction with
  | step l ih =>
    rw [recycle]
    split
    · rw [reset_mk]
      exact isBroken_reset_map ih
    · exact isBroken_copy _

@[simp] theorem isBroken_reset (m : Matcher κ) : m.reset.isBroken = false := by
  cases m with
  | mk l =>
    rw [reset_mk]
    exact isBroken_reset_map fun a _ => isBroken_recycle a

end Matcher

end Lexing
