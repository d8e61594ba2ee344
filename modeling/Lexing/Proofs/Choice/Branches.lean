import Mathlib.Logic.Function.Basic
import Lexing.Proofs.Matcher.Cursor

/-!
A choice seen branch by branch. The bag of a choice is walked through from its last place, and loses its
order with every member that drops out; as long as it is `Valid`, the branches come out as if each of them
had been offered the character by itself (`exists_branches_update`).
-/

namespace Lexing

variable {α : Type}

structure Branch (α : Type) where
  live : Bool := true
  member : α

def Branch.offer [Member α] (offer : Offer α) (b : Branch α) (c : Char) (cur : Cursor) :
    Branch α × Cursor :=
  if !b.live then (b, cur)
  else if Member.isFailed b.member then ({ b with live := false }, cur)
  else
    let r := offer b.member c cur
    (⟨r.accepted, r.state⟩, r.cursor)

theorem Branch.cursor_offer [Member α] {offer : Offer α} (h : offer.Still) (b : Branch α) (c : Char)
    (cur : Cursor) : (b.offer offer c cur).2 = cur := by
  rw [Branch.offer]
  split
  · rfl
  · split
    · rfl
    · exact h b.member c cur

namespace Choice

def branches (m : Choice α) : List (Branch α) :=
  m.members.mapIdx fun i a => ⟨decide (i ∈ m.alive), a⟩

/-- The bag holds places of members, and each of them once. -/
structure Valid (m : Choice α) : Prop where
  nodup : m.alive.Nodup
  lt_length : ∀ i ∈ m.alive, i < m.members.length

theorem valid_fresh (m : Choice α) : m.fresh.Valid := ⟨List.nodup_range, fun _ => List.mem_range.1⟩

theorem branches_fresh (m : Choice α) :
    m.fresh.branches = m.members.map fun a => { member := a } := by
  apply List.ext_getElem
  · simp [branches, fresh]
  · intro i hi _
    have hi : i < m.members.length := by simpa [branches, fresh] using hi
    simp [branches, fresh, hi]

theorem map_member_branches (m : Choice α) : m.branches.map Branch.member = m.members :=
  List.ext_getElem (by simp [branches]) fun i _ _ => by simp [branches]

variable {m : Choice α} {bag : List Nat} {c : Char} {cur : Cursor}

theorem exists_mem_alive_iff (P : α → Prop) :
    (∃ b ∈ m.branches, b.live = true ∧ P b.member) ↔ ∃ i ∈ m.alive, ∃ a, m.members[i]? = some a ∧ P a := by
  simp only [branches, List.mem_mapIdx]
  constructor
  · rintro ⟨_, ⟨i, hi, rfl⟩, hlive, hP⟩
    exact ⟨i, of_decide_eq_true hlive, _, List.getElem?_eq_getElem hi, hP⟩
  · rintro ⟨i, hmem, a, ha, hP⟩
    obtain ⟨hi, rfl⟩ := List.getElem?_eq_some_iff.1 ha
    exact ⟨_, ⟨i, hi, rfl⟩, decide_eq_true hmem, hP⟩

theorem isEmpty_alive (h : m.Valid) : m.alive.isEmpty = !m.branches.any Branch.live := by
  have hexists := exists_mem_alive_iff (m := m) fun _ => True
  simp only [and_true] at hexists
  rw [Bool.eq_iff_iff, Bool.not_eq_true', ← Bool.not_eq_true, List.any_eq_true, hexists,
    List.isEmpty_iff, List.eq_nil_iff_forall_not_mem, not_exists]
  refine forall_congr' fun i => not_congr ⟨fun hi => ⟨hi, ?_⟩, And.left⟩
  exact ⟨_, List.getElem?_eq_getElem (h.lt_length i hi)⟩

theorem exists_mem_getElem?_set_iff {l : List α} {k : Nat} (hk : k ∉ bag) (a : α) (P : α → Prop) :
    (∃ i ∈ bag, ∃ b, (l.set k a)[i]? = some b ∧ P b) ↔ ∃ i ∈ bag, ∃ b, l[i]? = some b ∧ P b := by
  refine exists_congr fun i => and_congr_right fun hi => ?_
  rw [List.getElem?_set_ne (ne_of_mem_of_not_mem hi hk).symm]

variable [Member α] {offer : Offer α}

theorem valid_restart (m : Choice α) : m.restart.Valid := ⟨List.nodup_range, fun _ => List.mem_range.1⟩

theorem branches_restart (m : Choice α) :
    m.restart.branches = m.branches.map fun b => { member := Member.recycle b.member } := by
  refine (branches_fresh (m.map Member.recycle)).trans ?_
  rw [map, ← m.map_member_branches, List.map_map, List.map_map]
  rfl

theorem visit_of_getElem? {i : Nat} {r : Round α} {a : α} (ha : r.members[i]? = some a) :
    visit offer c i r =
      let s := Branch.offer offer { member := a } c r.cursor
      (s.1.live,
        { r with
          members := r.members.set i s.1.member
          complete := r.complete || (s.1.live && Member.isComplete s.1.member)
          cursor := s.2 }) := by
  obtain ⟨hi, rfl⟩ := List.getElem?_eq_some_iff.1 ha
  rw [visit, ha]
  simp only [Branch.offer, Bool.not_true, Bool.false_eq_true, if_false]
  split
  · simp
  · rfl

/-- What a round of offers to the members of the bag comes to: each of them is offered the character
once, with the cursor as the ones before it have left it. -/
structure Swept (offer : Offer α) (c : Char) (bag : List Nat) (r : Round α) (kept : List Nat)
    (s : Round α) (place : Nat → Cursor) : Prop where
  place_eq : offer.Still → ∀ i, place i = r.cursor
  cursor_eq : offer.Still → s.cursor = r.cursor
  broken_eq : s.broken = r.broken
  members_eq : ∀ i, s.members[i]? = r.members[i]?.map fun a =>
    if i ∈ bag then (Branch.offer offer { member := a } c (place i)).1.member else a
  mem_iff : ∀ i a, r.members[i]? = some a →
    (i ∈ kept ↔ i ∈ bag ∧ (Branch.offer offer { member := a } c (place i)).1.live = true)
  complete_iff : s.complete = true ↔ r.complete = true ∨ ∃ i ∈ kept, ∃ a, s.members[i]? = some a ∧
    Member.isComplete a = true

theorem Swept.cons {r : Round α} {w : List Nat × Round α} {place : Nat → Cursor} {k : Nat} {a : α}
    (h : Swept offer c bag r w.1 w.2 place) (hk : k ∉ bag) (hkept : k ∉ w.1)
    (ha : r.members[k]? = some a) :
    let t := Branch.offer offer { member := a } c w.2.cursor
    Swept offer c (k :: bag) r (if t.1.live = true then k :: w.1 else w.1)
      { w.2 with
        members := w.2.members.set k t.1.member
        complete := w.2.complete || (t.1.live && Member.isComplete t.1.member)
        cursor := t.2 }
      (Function.update place k w.2.cursor) := by
  intro t
  have hklt : k < w.2.members.length := by
    have hw := h.members_eq k
    rw [ha] at hw
    exact (List.getElem?_eq_some_iff.1 hw).1
  have hmembers : ∀ i, (w.2.members.set k t.1.member)[i]? = r.members[i]?.map fun a =>
      if i ∈ k :: bag then
        (Branch.offer offer { member := a } c (Function.update place k w.2.cursor i)).1.member
      else a := by
    intro i
    by_cases hi : i = k
    · subst hi
      simp [hklt, ha, t]
    · rw [List.getElem?_set_ne (Ne.symm hi), h.members_eq]
      simp [hi]
  refine ⟨fun hstill i => ?_, fun hstill => ?_, h.broken_eq, hmembers, fun i b hb => ?_, ?_⟩
  · by_cases hi : i = k
    · simp [hi, h.cursor_eq hstill]
    · simp [hi, h.place_eq hstill]
  · exact (Branch.cursor_offer hstill ..).trans (h.cursor_eq hstill)
  · by_cases hi : i = k
    · subst hi
      obtain rfl : a = b := Option.some.inj (ha.symm.trans hb)
      cases hlive : t.1.live <;> simp [hkept, t, hlive]
    · have := h.mem_iff i b hb
      cases hlive : t.1.live <;> simp [hi, this]
  · have hrest := exists_mem_getElem?_set_iff (l := w.2.members) hkept t.1.member
      fun b => Member.isComplete b = true
    have hself : (w.2.members.set k t.1.member)[k]? = some t.1.member := by simp [hklt]
    cases hlive : t.1.live
    · simpa [hrest] using h.complete_iff
    · simpa [hrest, hself, h.complete_iff, or_assoc] using or_congr_right or_comm

theorem swept_sweep {r : Round α} (hnodup : bag.Nodup) (hlt : ∀ i ∈ bag, i < r.members.length) :
    ∃ place, Swept offer c bag r (Bag.sweep (visit offer c) bag r).1
      (Bag.sweep (visit offer c) bag r).2 place := by
  induction bag with
  | nil =>
    refine ⟨fun _ => r.cursor, fun _ _ => rfl, fun _ => rfl, rfl, fun i => ?_, ?_, ?_⟩
    · simp [Bag.sweep]
    · simp [Bag.sweep]
    · simp [Bag.sweep]
  | cons k rest ih =>
    obtain ⟨hk, hnodup⟩ := List.nodup_cons.1 hnodup
    obtain ⟨hklt, hlt⟩ := List.forall_mem_cons.1 hlt
    obtain ⟨place, h⟩ := ih hnodup hlt
    have hkept : k ∉ (Bag.sweep (visit offer c) rest r).1 :=
      fun hmem => hk ((Bag.sweep_sublist _ rest r).subset hmem)
    rw [Bag.sweep]
    generalize Bag.sweep (visit offer c) rest r = w at h hkept
    obtain ⟨a, ha⟩ : ∃ a, r.members[k]? = some a := ⟨_, List.getElem?_eq_getElem hklt⟩
    -- the visits to the others have not touched this member
    have hwa : w.2.members[k]? = some a := by rw [h.members_eq, ha, Option.map_some, if_neg hk]
    dsimp only
    rw [visit_of_getElem? hwa]
    exact ⟨_, h.cons hk hkept ha⟩

variable (offer) in
theorem exists_swept_update (h : m.Valid) (c : Char) (cur : Cursor) :
    ∃ kept s place, Swept offer c m.alive { members := m.members, cursor := cur } kept s place ∧
      kept.Sublist m.alive ∧ ∃ alive : List Nat, alive.Perm kept ∧
      m.update offer c cur =
        (s.complete, { m with members := s.members, alive, broken := m.broken || s.broken }, s.cursor) := by
  let start : Round α := { members := m.members, cursor := cur }
  obtain ⟨place, hswept⟩ := swept_sweep (r := start) h.nodup h.lt_length
  obtain ⟨hround, hperm⟩ := Bag.walk_eq (visit offer c) m.alive start
  refine ⟨_, _, place, hswept, Bag.sweep_sublist .., _, hperm, ?_⟩
  rw [update, ← hround]

theorem Valid.update (h : m.Valid) (c : Char) (cur : Cursor) : (m.update offer c cur).2.1.Valid := by
  obtain ⟨kept, s, place, hswept, hsub, alive, hperm, heq⟩ := exists_swept_update offer h c cur
  rw [heq]
  refine ⟨hperm.nodup_iff.2 (hsub.nodup h.nodup), fun i hi => ?_⟩
  have hlt := h.lt_length i (hsub.subset (hperm.mem_iff.1 hi))
  obtain ⟨b, hb⟩ : ∃ b, s.members[i]? = some b := by
    rw [hswept.members_eq, List.getElem?_eq_getElem hlt]
    exact ⟨_, rfl⟩
  exact (List.getElem?_eq_some_iff.1 hb).1

theorem broken_update (h : m.Valid) (c : Char) (cur : Cursor) :
    (m.update offer c cur).2.1.broken = m.broken := by
  obtain ⟨kept, s, place, hswept, -, alive, -, heq⟩ := exists_swept_update offer h c cur
  rw [heq]
  simp [hswept.broken_eq]

variable (offer) in
theorem exists_branches_update (h : m.Valid) (c : Char) (cur : Cursor) :
    ∃ place : Nat → Cursor, (offer.Still → ∀ i, place i = cur) ∧
      (m.update offer c cur).2.1.branches =
        m.branches.mapIdx fun i b => (b.offer offer c (place i)).1 := by
  obtain ⟨kept, s, place, hswept, -, alive, hperm, heq⟩ := exists_swept_update offer h c cur
  refine ⟨place, hswept.place_eq, List.ext_getElem? fun i => ?_⟩
  simp only [heq, branches, List.getElem?_mapIdx, hswept.members_eq i, Option.map_map, hperm.mem_iff]
  cases ha : m.members[i]? with
  | none => rfl
  | some a =>
    have hiff := hswept.mem_iff i a ha
    simp only [Option.map_some, Function.comp_apply, hiff, Option.some.injEq]
    by_cases hi : i ∈ m.alive <;> simp [hi, Branch.offer]

theorem branches_update (hstill : offer.Still) (h : m.Valid) (c : Char) (cur : Cursor) :
    (m.update offer c cur).2.1.branches = m.branches.map fun b => (b.offer offer c cur).1 := by
  obtain ⟨place, hplace, heq⟩ := exists_branches_update offer h c cur
  rw [heq]
  exact List.ext_getElem (by simp) fun i _ _ => by simp [hplace hstill]

theorem complete_update (h : m.Valid) (c : Char) (cur : Cursor) :
    (m.update offer c cur).1 =
      (m.update offer c cur).2.1.branches.any fun b => b.live && Member.isComplete b.member := by
  obtain ⟨kept, s, place, hswept, -, alive, hperm, heq⟩ := exists_swept_update offer h c cur
  have hexists := exists_mem_alive_iff (m := (m.update offer c cur).2.1)
    fun a => Member.isComplete a = true
  rw [Bool.eq_iff_iff]
  simp only [List.any_eq_true, Bool.and_eq_true, hexists]
  simpa [heq, hperm.mem_iff] using hswept.complete_iff

end Choice

end Lexing
