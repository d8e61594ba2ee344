import Lexing.Matcher.Chain.Members

namespace Lexing.Chain

variable {α : Type}

def memberAt (m : Chain α) (g i : Nat) : Option α := m.groups[g]?.bind fun group => group[i]?

theorem current_eq_memberAt (m : Chain α) : m.current = m.memberAt m.group m.index := rfl

theorem mem_members_of_memberAt {m : Chain α} {g i : Nat} {a : α} (h : m.memberAt g i = some a) :
    a ∈ m.members := mem_members_of_current (m := { m with group := g, index := i }) h

theorem memberAt_modifyCurrent (f : α → α) (m : Chain α) (g i : Nat) :
    (m.modifyCurrent f).memberAt g i =
      if g = m.group ∧ i = m.index then (m.memberAt g i).map f else m.memberAt g i := by
  simp only [memberAt, modifyCurrent, List.getElem?_modify]
  cases m.groups[g]? with
  | none => simp
  | some group =>
    by_cases hg : m.group = g
    · by_cases hi : m.index = i
      · simp [hg, hi]
      · simp [hg, hi, Ne.symm hi]
    · simp [hg, Ne.symm hg]

theorem current_modifyCurrent (f : α → α) (m : Chain α) :
    (m.modifyCurrent f).current = m.current.map f := by
  rw [current_eq_memberAt, memberAt_modifyCurrent, if_pos ⟨rfl, rfl⟩]
  rfl

theorem modifyCurrent_modifyCurrent (f g : α → α) (m : Chain α) :
    (m.modifyCurrent f).modifyCurrent g = m.modifyCurrent (g ∘ f) := by
  simp [modifyCurrent, List.modify_modify_eq, Function.comp_def]

theorem modify_congr {f g : α → α} {l : List α} {i : Nat} (h : ∀ a, l[i]? = some a → f a = g a) :
    l.modify i f = l.modify i g := by
  apply List.ext_getElem?
  intro k
  simp only [List.getElem?_modify]
  cases ha : l[k]? with
  | none => rfl
  | some a =>
    by_cases hk : i = k
    · simp [hk, h a (hk ▸ ha)]
    · simp [hk]

theorem modifyCurrent_congr {f g : α → α} {m : Chain α} (h : ∀ a, m.current = some a → f a = g a) :
    m.modifyCurrent f = m.modifyCurrent g := by
  rw [modifyCurrent, modifyCurrent, modify_congr]
  intro group hgroup
  apply modify_congr
  intro a ha
  exact h a (by simp [current, hgroup, ha])

theorem modifyCurrent_eq_self {f : α → α} {m : Chain α} (h : ∀ a, m.current = some a → f a = a) :
    m.modifyCurrent f = m := by
  have hid : (fun group : List α => group.modify m.index id) = id :=
    funext fun group => group.modify_id _
  rw [modifyCurrent_congr (g := id) h, modifyCurrent, hid, List.modify_id]

theorem current_of_empty {m : Chain α} (h : m.members.length = 0) : m.current = none := by
  cases hb : m.current with
  | none => rfl
  | some b =>
    rw [List.length_eq_zero_iff] at h
    exact absurd (mem_members_of_current hb) (by simp [h])

theorem index_lt_of_current {m : Chain α} {a : α} (h : m.current = some a) :
    m.index < m.groupSize := by
  obtain ⟨group, hgroup, ha⟩ := Option.bind_eq_some_iff.1 h
  rw [groupSize, hgroup]
  exact (List.getElem?_eq_some_iff.1 ha).1

theorem groupSize_modifyCurrent (f : α → α) (m : Chain α) :
    (m.modifyCurrent f).groupSize = m.groupSize := by
  simp only [groupSize, modifyCurrent, List.getElem?_modify]
  cases m.groups[m.group]? <;> simp

theorem eq_of_make {name : String} {rule : ChainRule} {groups : List (List α)} {m : Chain α}
    (h : make name rule groups = .ok m) : m = { name, rule, groups } ∧ groups ≠ [] := by
  rw [make] at h
  split at h
  · cases h
  · next hgroups =>
    split at h
    · cases h
    · split at h
      · cases h
      · cases h
        refine ⟨rfl, ?_⟩
        rintro rfl
        exact hgroups rfl

theorem shape_of_make {name : String} {rule : ChainRule} {groups : List (List α)} {m : Chain α}
    (h : make name rule groups = .ok m) : [] ∉ groups ∧ (rule = .separated → groups.length ≤ 2) := by
  rw [make] at h
  split at h
  · cases h
  · split at h
    · cases h
    · next hempty =>
      split at h
      · cases h
      · next hlength =>
        rw [not_and, Nat.not_lt] at hlength
        rw [List.findIdx?_eq_none_iff] at hempty
        exact ⟨fun hnil => Bool.false_ne_true (hempty [] hnil).symm, hlength⟩

theorem cases_moveOn (m : Chain α) :
    (∃ g i, (m.group < g ∨ m.group = g ∧ m.index < i) ∧
      m.moveOn = { m with group := g, index := i }) ∨ m.moveOn = m.close := by
  rw [moveOn]
  split
  · exact .inl ⟨m.group, m.index + 1, .inr ⟨rfl, Nat.lt_succ_self _⟩, rfl⟩
  · split
    · exact .inl ⟨m.group + 1, 0, .inl (Nat.lt_succ_self _), rfl⟩
    · exact .inr rfl

theorem taken_or_incomplete_finish (accepted : Bool) (m : Chain α) (c : Char) (cur : Cursor) :
    (finish accepted m c cur).accepted = true ∨
      (finish accepted m c cur).state.isComplete = false := by
  cases accepted with
  | true => exact .inl rfl
  | false => exact .inr (Bool.and_false _)

theorem isComplete_finish_of_refused {accepted : Bool} (h : accepted = false) (m : Chain α)
    (c : Char) (cur : Cursor) : (finish accepted m c cur).state.isComplete = false := by
  subst h
  exact Bool.and_false _

variable [Member α] {offer : Offer α}

omit [Member α] in
theorem offerCurrent_of_current {m : Chain α} {a : α} (h : m.current = some a) (c : Char)
    (cur : Cursor) : m.offerCurrent offer c cur =
      (offer a c cur).map fun a => m.modifyCurrent fun _ => a := by
  rw [offerCurrent, h]

theorem acceptInOrder_eq_finish {m : Chain α} {a : α} (h : m.current = some a) (c : Char)
    (cur : Cursor) : m.acceptInOrder offer c cur =
      let r := offer a c cur
      let s := m.modifyCurrent fun _ => r.state
      finish r.accepted (if Member.isComplete r.state then s.commit.moveOn else s) c r.cursor := by
  have hcurrent : (m.modifyCurrent fun _ => (offer a c cur).state).current =
      some (offer a c cur).state := by
    rw [current_modifyCurrent, h]
    rfl
  simp only [acceptInOrder, offerCurrent_of_current h, Reply.map, currentComplete, hcurrent,
    Option.any_some]

omit [Member α] in
theorem current_offerCurrent (m : Chain α) (c : Char) (cur : Cursor) :
    (m.offerCurrent offer c cur).state.current = m.current.map fun a => (offer a c cur).state := by
  cases ha : m.current with
  | none =>
    rw [offerCurrent, ha]
    exact ha
  | some a =>
    rw [offerCurrent_of_current ha]
    exact (current_modifyCurrent ..).trans (congrArg _ ha)

omit [Member α] in
theorem exists_current_of_accepted {m : Chain α} {c : Char} {cur : Cursor}
    (h : (m.offerCurrent offer c cur).accepted = true) : ∃ a, m.current = some a := by
  cases ha : m.current with
  | none => simp [offerCurrent, ha] at h
  | some a => exact ⟨a, rfl⟩

omit [Member α] in
theorem group_offerCurrent (m : Chain α) (c : Char) (cur : Cursor) :
    (m.offerCurrent offer c cur).state.group = m.group := by
  rw [offerCurrent]
  split <;> rfl

theorem commit_eq (m : Chain α) : m.commit = { m with span := m.commit.span } := by
  rw [commit]
  split
  · rfl
  · split <;> rfl

omit [Member α] in
theorem settle_eq (m : Chain α) (c : Char) :
    m.settle c = { m with settled := (m.settle c).settled } := by
  rw [settle]
  split <;> rfl

theorem taken_or_incomplete_acceptSkipping (m : Chain α) (c : Char) (cur : Cursor) :
    (m.acceptSkipping offer c cur).accepted = true ∨
      (m.acceptSkipping offer c cur).state.isComplete = false := by
  rw [acceptSkipping]
  dsimp only
  split
  · exact taken_or_incomplete_finish ..
  · split
    · exact taken_or_incomplete_finish ..
    · split <;> exact taken_or_incomplete_finish ..

theorem active_of_taken {m : Chain α} {c : Char} {cur : Cursor}
    (h : (m.accept offer c cur).accepted = true) : m.active = true := by
  rw [accept] at h
  split at h
  · cases h
  · next hactive => simpa using hactive

theorem kept_unit : Kept offer fun _ => () := ⟨fun _ _ _ => rfl, fun _ => rfl⟩

theorem rule_accept (m : Chain α) (c : Char) (cur : Cursor) :
    (m.accept offer c cur).state.rule = m.rule :=
  congrArg (fun n : Chain Unit => n.rule) (map_accept kept_unit m c cur)

theorem rule_goOn (taken complete : Bool) (next : Char) (m : Chain α) (cur : Cursor) :
    (m.goOn offer taken complete next cur).state.rule = m.rule :=
  congrArg (fun n : Chain Unit => n.rule) (map_goOn kept_unit taken complete next m cur)

def frame (m : Chain α) : Chain α :=
  { m with
    groups := []
    group := 0
    index := 0
    active := true
    complete := false
    broken := false }

omit [Member α] in
theorem rule_of_frame {m s : Chain α} (h : s.frame = m.frame) : s.rule = m.rule := by
  change s.frame.rule = m.frame.rule
  rw [h]

omit [Member α] in
@[simp] theorem frame_close (m : Chain α) : m.close.frame = m.frame := rfl

omit [Member α] in
@[simp] theorem frame_reopen (m : Chain α) : m.reopen.frame = m.frame := rfl

@[simp] theorem frame_recycleCurrent (m : Chain α) : m.recycleCurrent.frame = m.frame := rfl

omit [Member α] in
@[simp] theorem frame_moveOn (m : Chain α) : m.moveOn.frame = m.frame := by
  rw [moveOn]
  split
  · rfl
  · split <;> rfl

omit [Member α] in
@[simp] theorem frame_offerCurrent (m : Chain α) (c : Char) (cur : Cursor) :
    (m.offerCurrent offer c cur).state.frame = m.frame := by
  rw [offerCurrent]
  split <;> rfl

@[simp] theorem frame_advance (m : Chain α) : m.advance.2.frame = m.frame := by
  simp only [advance]
  split
  · rfl
  · split
    · rfl
    · split <;> rfl

@[simp] theorem frame_tryNext (m : Chain α) (cur : Cursor) :
    (m.tryNext offer cur).state.frame = m.frame := by
  simp only [tryNext, frame_recycleCurrent]
  split
  · rfl
  · exact frame_offerCurrent ..

def kept (m : Chain α) : List Char × Option Settled := (m.taken, m.settled)

omit [Member α] in
theorem kept_of_frame {m s : Chain α} (h : s.frame = m.frame) : s.kept = m.kept := by
  change s.frame.kept = m.frame.kept
  rw [h]

omit [Member α] in
@[simp] theorem kept_close (m : Chain α) : m.close.kept = m.kept := rfl

omit [Member α] in
@[simp] theorem kept_moveOn (m : Chain α) : m.moveOn.kept = m.kept := kept_of_frame (frame_moveOn m)

@[simp] theorem kept_commit (m : Chain α) : m.commit.kept = m.kept := by
  rw [commit_eq]
  rfl

omit [Member α] in
@[simp] theorem kept_offerCurrent (m : Chain α) (c : Char) (cur : Cursor) :
    (m.offerCurrent offer c cur).state.kept = m.kept := kept_of_frame (frame_offerCurrent ..)

@[simp] theorem kept_advance (m : Chain α) : m.advance.2.kept = m.kept :=
  kept_of_frame (frame_advance m)

@[simp] theorem kept_tryNext (m : Chain α) (cur : Cursor) :
    (m.tryNext offer cur).state.kept = m.kept := kept_of_frame (frame_tryNext ..)

end Lexing.Chain
