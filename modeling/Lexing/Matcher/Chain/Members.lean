import Lexing.Matcher.Chain.Accept

namespace Lexing

variable {α γ : Type}

theorem map_modify_eq {f : α → α} {g : α → γ} (l : List α) (i : Nat)
    (h : ∀ a, l[i]? = some a → g (f a) = g a) : (l.modify i f).map g = l.map g := by
  induction l generalizing i with
  | nil => cases i <;> rfl
  | cons a rest ih =>
    cases i with
    | zero => simpa using h a rfl
    | succ i => simpa using ih i (by simpa using h)

namespace Chain

theorem map_modifyCurrent {f : α → α} {g : α → γ} (m : Chain α)
    (h : ∀ a, m.current = some a → g (f a) = g a) :
    ((m.modifyCurrent f).map g).fresh = (m.map g).fresh := by
  simp only [modifyCurrent, map, fresh]
  congr 1
  apply map_modify_eq
  intro group hgroup
  apply map_modify_eq
  intro a ha
  apply h
  simp [current, hgroup, ha]

theorem members_map (g : α → γ) (m : Chain α) : (m.map g).members = m.members.map g := by
  simp [members, map, List.map_flatten]

theorem members_fresh (m : Chain α) : m.fresh.members = m.members := rfl

variable {g : α → γ}

theorem map_finish (accepted : Bool) (m : Chain α) (c : Char) (cur : Cursor) :
    ((finish accepted m c cur).state.map g).fresh = (m.map g).fresh := by
  rw [finish]
  split <;> rfl

theorem map_settle (m : Chain α) (c : Char) : ((m.settle c).map g).fresh = (m.map g).fresh := by
  rw [settle]
  split <;> rfl

theorem map_moveOn (m : Chain α) : (m.moveOn.map g).fresh = (m.map g).fresh := by
  rw [moveOn]
  split
  · rfl
  · split <;> rfl

variable [Member α] {offer : Offer α}

theorem map_recycleCurrent (hg : Kept offer g) (m : Chain α) :
    (m.recycleCurrent.map g).fresh = (m.map g).fresh :=
  map_modifyCurrent m fun a _ => hg.recycle_eq a

theorem map_offerCurrent (hg : Kept offer g) (m : Chain α) (c : Char) (cur : Cursor) :
    ((m.offerCurrent offer c cur).state.map g).fresh = (m.map g).fresh := by
  rw [offerCurrent]
  split
  · rfl
  · next a h =>
    apply map_modifyCurrent
    intro b hb
    rw [h] at hb
    cases hb
    exact hg.offer_eq a c cur

theorem map_commit (m : Chain α) : (m.commit.map g).fresh = (m.map g).fresh := by
  rw [commit]
  split
  · rfl
  · split <;> rfl

theorem map_fallBack (hg : Kept offer g) (m : Chain α) :
    (m.fallBack.map g).fresh = (m.map g).fresh := by
  refine Eq.trans ?_ (map_recycleCurrent hg m)
  simp only [fallBack]
  split <;> rfl

theorem map_advance (hg : Kept offer g) (m : Chain α) :
    (m.advance.2.map g).fresh = (m.map g).fresh := by
  refine Eq.trans ?_ (map_recycleCurrent hg m)
  rw [advance]
  generalize m.recycleCurrent = m
  dsimp only
  split
  · rfl
  · split
    · simp only [map, fresh]
      congr 1
      apply map_modify_eq
      intro group _
      simp [hg.recycle_eq]
    · split <;> rfl

theorem map_acceptInOrder (hg : Kept offer g) (m : Chain α) (c : Char) (cur : Cursor) :
    ((m.acceptInOrder offer c cur).state.map g).fresh = (m.map g).fresh := by
  refine Eq.trans ?_ (map_offerCurrent hg m c cur)
  rw [acceptInOrder]
  rw [map_finish]
  split
  · rw [map_moveOn, map_commit]
  · rfl

theorem map_tryNext (hg : Kept offer g) (m : Chain α) (cur : Cursor) :
    ((m.tryNext offer cur).state.map g).fresh = (m.map g).fresh := by
  rw [tryNext]
  rw [map_recycleCurrent hg]
  split
  · rfl
  · exact map_offerCurrent hg ..

theorem map_enter (hg : Kept offer g) (m : Chain α) (c : Char) (cur : Cursor) :
    ((m.enter offer c cur).1.map g).fresh = (m.map g).fresh := by
  have h : ((m.commit.advance.2.settle c).map g).fresh = (m.map g).fresh := by
    rw [map_settle, map_advance hg, map_commit]
  refine Eq.trans ?_ h
  rw [enter]
  dsimp only
  generalize m.commit.advance.2.settle c = m
  split
  · rfl
  · split
    · refine Eq.trans ?_ (map_tryNext hg m cur)
      split <;> rfl
    · split <;> rfl

theorem map_acceptEntering (hg : Kept offer g) (m : Chain α) (c : Char) (cur : Cursor) :
    ((m.acceptEntering offer c cur).state.map g).fresh = (m.map g).fresh := by
  refine Eq.trans ?_ (map_offerCurrent hg m c cur)
  rw [acceptEntering]
  dsimp only
  split
  · exact map_fallBack hg _
  · rw [map_finish]
    split
    · exact map_enter hg ..
    · rfl

theorem map_seekMember (hg : Kept offer g) (peeking : Bool) (next : Char) (fuel : Nat)
    (m : Chain α) (cur : Cursor) :
    ((seekMember offer peeking next fuel m cur).state.map g).fresh = (m.map g).fresh := by
  induction fuel generalizing m cur with
  | zero => rfl
  | succ fuel ih =>
    refine Eq.trans ?_ (map_advance hg m)
    rw [seekMember]
    dsimp only
    split
    · rfl
    · refine Eq.trans ?_ (map_offerCurrent hg m.advance.2 next cur)
      generalize m.advance.2.offerCurrent offer next cur = r
      generalize hs : (if peeking = true then r.state.recycleCurrent else r.state) = s
      have h : (s.map g).fresh = (r.state.map g).fresh := by
        rw [← hs]
        split
        · exact map_recycleCurrent hg _
        · rfl
      rw [← h]
      split
      · exact ih ..
      · split
        · rw [map_advance hg, map_commit]
          rfl
        · rfl

theorem map_goOn (hg : Kept offer g) (taken complete : Bool) (next : Char) (m : Chain α)
    (cur : Cursor) :
    ((m.goOn offer taken complete next cur).state.map g).fresh = (m.map g).fresh := by
  rw [goOn]
  dsimp only
  generalize hs : (if complete = true then m.offerCurrent offer next cur else ⟨false, m, cur⟩) = r
  have h : (r.state.map g).fresh = (m.map g).fresh := by
    rw [← hs]
    split
    · exact map_offerCurrent hg ..
    · rfl
  rw [← h]
  split
  · rfl
  · exact map_seekMember hg ..

theorem map_offerDue (hg : Kept offer g) (m : Chain α) (c : Char) (cur : Cursor) :
    ((m.offerDue offer c cur).state.map g).fresh = (m.map g).fresh := by
  simp only [offerDue]
  split
  · rfl
  · exact map_offerCurrent hg ..

theorem map_acceptSkipping (hg : Kept offer g) (m : Chain α) (c : Char) (cur : Cursor) :
    ((m.acceptSkipping offer c cur).state.map g).fresh = (m.map g).fresh := by
  refine Eq.trans ?_ (map_offerDue hg m c cur)
  rw [acceptSkipping]
  dsimp only
  generalize m.offerDue offer c cur = r
  split
  · exact map_finish ..
  · generalize hs : (if r.state.currentComplete = true then r.state.commit else r.state) = s
    have h : (s.map g).fresh = (r.state.map g).fresh := by
      rw [← hs]
      split
      · exact map_commit _
      · rfl
    rw [← h]
    split
    · rw [map_finish, map_goOn hg]
    · split
      · rw [map_finish, map_goOn hg]
      · rw [map_finish]
        split <;> rfl

theorem map_accept (hg : Kept offer g) (m : Chain α) (c : Char) (cur : Cursor) :
    ((m.accept offer c cur).state.map g).fresh = (m.map g).fresh := by
  rw [accept]
  split
  · rfl
  · split
    · exact map_acceptInOrder hg ..
    · exact map_acceptEntering hg ..
    · exact map_acceptEntering hg ..
    · exact map_acceptSkipping hg ..

def All (S : α → Prop) (m : Chain α) : Prop := ∀ a ∈ m.members, S a

omit [Member α] in
theorem All.of_map {S : α → Prop} {m s : Chain α} (h : m.All S)
    (hs : (s.map S).fresh = (m.map S).fresh) : s.All S := by
  have hs : s.members.map S = m.members.map S := by
    simpa only [members_fresh, members_map] using congrArg members hs
  intro a ha
  have ha : S a ∈ m.members.map S := hs ▸ List.mem_map_of_mem ha
  obtain ⟨b, hb, hab⟩ := List.mem_map.1 ha
  exact hab ▸ h b hb

omit [Member α] in
theorem mem_members_of_current {m : Chain α} {a : α} (h : m.current = some a) :
    a ∈ m.members := by
  obtain ⟨group, hgroup, ha⟩ := Option.bind_eq_some_iff.1 h
  exact List.mem_flatten.2 ⟨group, List.mem_of_getElem? hgroup, List.mem_of_getElem? ha⟩

section Congruence

variable {f g : Offer α} {S : α → Prop} (hS : Kept f S) (hfg : ∀ a, S a → f a = g a)
include hfg

omit [Member α] in
theorem offerCurrent_congr {m : Chain α} (hm : m.All S) :
    m.offerCurrent f = m.offerCurrent g := by
  funext c cur
  simp only [offerCurrent]
  split
  · rfl
  · next a h => rw [hfg a (hm a (mem_members_of_current h))]

theorem acceptInOrder_congr {m : Chain α} (hm : m.All S) :
    m.acceptInOrder f = m.acceptInOrder g := by
  funext c cur
  simp only [acceptInOrder]
  rw [offerCurrent_congr hfg hm]

theorem tryNext_congr {m : Chain α} (hm : m.All S) : m.tryNext f = m.tryNext g := by
  funext cur
  simp only [tryNext]
  rw [offerCurrent_congr hfg hm]

include hS

theorem enter_congr {m : Chain α} (hm : m.All S) : m.enter f = m.enter g := by
  funext c cur
  have h : (m.commit.advance.2.settle c).All S :=
    hm.of_map (by rw [map_settle, map_advance hS, map_commit])
  rw [enter, enter]
  dsimp only
  rw [tryNext_congr hfg h]

theorem acceptEntering_congr {m : Chain α} (hm : m.All S) :
    m.acceptEntering f = m.acceptEntering g := by
  funext c cur
  have h : (m.offerCurrent f c cur).state.All S := hm.of_map (map_offerCurrent hS ..)
  rw [acceptEntering, acceptEntering]
  dsimp only
  rw [enter_congr hS hfg h, offerCurrent_congr hfg hm]

theorem seekMember_congr (peeking : Bool) (next : Char) (fuel : Nat) {m : Chain α}
    (hm : m.All S) : seekMember f peeking next fuel m = seekMember g peeking next fuel m := by
  induction fuel generalizing m with
  | zero => rfl
  | succ fuel ih =>
    funext cur
    have h : m.advance.2.All S := hm.of_map (map_advance hS m)
    have h' : ∀ b : Bool, Chain.All S
        (if b then (m.advance.2.offerCurrent f next cur).state.recycleCurrent
          else (m.advance.2.offerCurrent f next cur).state) := by
      intro b
      split
      · exact h.of_map ((map_recycleCurrent hS _).trans (map_offerCurrent hS ..))
      · exact h.of_map (map_offerCurrent hS ..)
    rw [seekMember, seekMember]
    dsimp only
    rw [ih (h' peeking), offerCurrent_congr hfg h]

theorem goOn_congr (taken complete : Bool) (next : Char) {m : Chain α} (hm : m.All S) :
    m.goOn f taken complete next = m.goOn g taken complete next := by
  funext cur
  rw [goOn, goOn]
  dsimp only
  rw [← offerCurrent_congr hfg hm]
  generalize hr : (if complete = true then m.offerCurrent f next cur else ⟨false, m, cur⟩) = r
  have h : r.state.All S := by
    rw [← hr]
    split
    · exact hm.of_map (map_offerCurrent hS ..)
    · exact hm
  rw [seekMember_congr hS hfg _ _ _ h]

omit [Member α] hS in
theorem offerDue_congr {m : Chain α} (hm : m.All S) : m.offerDue f = m.offerDue g := by
  funext c cur
  have h : Chain.All S { m with ahead := none } := hm
  simp only [offerDue]
  rw [offerCurrent_congr hfg h]

theorem acceptSkipping_congr {m : Chain α} (hm : m.All S) :
    m.acceptSkipping f = m.acceptSkipping g := by
  funext c cur
  rw [acceptSkipping, acceptSkipping]
  dsimp only
  rw [← offerDue_congr hfg hm]
  have h : (m.offerDue f c cur).state.All S := hm.of_map (map_offerDue hS ..)
  generalize m.offerDue f c cur = r at h
  have h' : Chain.All S (if r.state.currentComplete then r.state.commit else r.state) := by
    split
    · exact h.of_map (map_commit _)
    · exact h
  simp only [goOn_congr hS hfg _ _ _ h']

theorem accept_congr {m : Chain α} (hm : m.All S) : m.accept f = m.accept g := by
  funext c cur
  simp only [accept]
  rw [acceptInOrder_congr hfg hm, acceptEntering_congr hS hfg hm, acceptSkipping_congr hS hfg hm]

end Congruence

end Chain

end Lexing
