import Lexing.Matcher.Choice

namespace Lexing.Choice

variable {α γ : Type}

@[simp] theorem members_map (g : α → γ) (m : Choice α) : (m.map g).members = m.members.map g := rfl

@[simp] theorem members_fresh (m : Choice α) : m.fresh.members = m.members := rfl

theorem fresh_map (g : α → γ) (m : Choice α) : (m.map g).fresh = m.fresh.map g := by
  simp [map, fresh]

theorem fresh_eq_iff {m s : Choice α} :
    m.fresh = s.fresh ↔ m.name = s.name ∧ m.rule = s.rule ∧ m.members = s.members := by
  constructor
  · intro h
    injection h with hn hr hm
    exact ⟨hn, hr, hm⟩
  · rintro ⟨hn, hr, hm⟩
    rw [fresh, fresh, hn, hr, hm]

variable [Member α] {offer : Offer α} {g : α → γ}

omit [Member α] in
theorem map_set_eq (l : List α) (i : Nat) {a b : α} (ha : l[i]? = some a) (h : g b = g a) :
    (l.set i b).map g = l.map g := by
  obtain ⟨hi, rfl⟩ := List.getElem?_eq_some_iff.1 ha
  rw [List.map_set, h, ← List.getElem_map g (h := by simpa using hi), List.set_getElem_self]

theorem map_visit (hg : Kept offer g) (c : Char) (i : Nat) (r : Round α) :
    (visit offer c i r).2.members.map g = r.members.map g := by
  rw [visit]
  split
  · rfl
  · next a ha =>
    split
    · rfl
    · exact map_set_eq r.members i ha (hg.offer_eq ..)

theorem map_update (hg : Kept offer g) (m : Choice α) (c : Char) (cur : Cursor) :
    ((m.update offer c cur).2.1.map g).fresh = (m.map g).fresh := by
  rw [fresh_eq_iff]
  refine ⟨rfl, rfl, ?_⟩
  exact Bag.walk_induction (P := fun r : Round α => r.members.map g = m.members.map g)
    (fun i r h => (map_visit hg c i r).trans h) m.alive.length m.alive rfl

theorem map_restart (hg : Kept offer g) (m : Choice α) : (m.restart.map g).fresh = (m.map g).fresh := by
  rw [fresh_eq_iff]
  refine ⟨rfl, rfl, ?_⟩
  simp [restart, reset, map, hg.recycle_eq]

theorem map_acceptAny (hg : Kept offer g) (m : Choice α) (c : Char) (cur : Cursor) :
    ((m.acceptAny offer c cur).state.map g).fresh = (m.map g).fresh := by
  refine Eq.trans ?_ (map_update hg m c cur)
  rw [acceptAny]
  dsimp only
  split <;> rfl

theorem map_acceptSeek (hg : Kept offer g) (m : Choice α) (c : Char) (cur : Cursor) :
    ((m.acceptSeek offer c cur).state.map g).fresh = (m.map g).fresh := by
  refine Eq.trans ?_ (map_update hg m c cur)
  rw [acceptSeek]
  generalize m.update offer c cur = u
  dsimp only
  generalize hs : (if (u.2.1.alive.isEmpty && !u.2.1.progress.taken.isEmpty) = true then
    u.2.1.restart.update offer c u.2.2 else (u.1, u.2.1, u.2.2)) = s
  have h : (s.2.1.map g).fresh = (u.2.1.map g).fresh := by
    rw [← hs]
    split
    · rw [map_update hg, map_restart hg]
    · rfl
  rw [← h]
  split
  · exact map_restart hg _
  · rfl

theorem map_accept (hg : Kept offer g) (m : Choice α) (c : Char) (cur : Cursor) :
    ((m.accept offer c cur).state.map g).fresh = (m.map g).fresh := by
  rw [accept]
  split
  · rfl
  · split
    · exact map_acceptAny hg ..
    · split
      · rfl
      · exact map_acceptSeek hg ..

def All (S : α → Prop) (m : Choice α) : Prop := ∀ a ∈ m.members, S a

omit [Member α] in
theorem All.of_map {S : α → Prop} {m s : Choice α} (h : m.All S)
    (hs : (s.map S).fresh = (m.map S).fresh) : s.All S := by
  have hs : s.members.map S = m.members.map S := congrArg members hs
  intro a ha
  have ha : S a ∈ m.members.map S := hs ▸ List.mem_map_of_mem ha
  obtain ⟨b, hb, hab⟩ := List.mem_map.1 ha
  exact hab ▸ h b hb

section Congruence

variable {f g : Offer α} {S : α → Prop} (hS : Kept f S) (hfg : ∀ a, S a → f a = g a)
include hS hfg

theorem update_congr {m : Choice α} (hm : m.All S) : m.update f = m.update g := by
  have hvisit : ∀ c i (r : Round α), (∀ a ∈ r.members, S a) → visit f c i r = visit g c i r := by
    intro c i r h
    rw [visit, visit]
    split
    · rfl
    · next a ha => rw [hfg a (h a (List.mem_of_getElem? ha))]
  have hkept : ∀ c i (r : Round α), (∀ a ∈ r.members, S a) → ∀ a ∈ (visit f c i r).2.members, S a := by
    intro c i r h
    have hmap := map_visit hS c i r
    intro a ha
    have ha : S a ∈ r.members.map S := hmap ▸ List.mem_map_of_mem ha
    obtain ⟨b, hb, hab⟩ := List.mem_map.1 ha
    exact hab ▸ h b hb
  funext c cur
  have hwalk := Bag.walk_congr (P := fun r : Round α => ∀ a ∈ r.members, S a) (hkept c) (hvisit c)
    m.alive.length m.alive (s := { members := m.members, cursor := cur }) hm
  rw [update, update]
  dsimp only
  rw [hwalk]

theorem acceptSeek_congr {m : Choice α} (hm : m.All S) : m.acceptSeek f = m.acceptSeek g := by
  funext c cur
  rw [acceptSeek, acceptSeek, ← update_congr hS hfg hm]
  have h : (m.update f c cur).2.1.restart.All S :=
    hm.of_map (by rw [map_restart hS, map_update hS])
  dsimp only
  rw [update_congr hS hfg h]

theorem accept_congr {m : Choice α} (hm : m.All S) : m.accept f = m.accept g := by
  funext c cur
  simp only [accept, acceptAny]
  rw [update_congr hS hfg hm, acceptSeek_congr hS hfg hm]

end Congruence

end Lexing.Choice
