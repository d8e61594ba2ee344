import Lexing.Proofs.Chain.Checked

/-!
All matchers that can come up, from the constructors on and whatever happens to them, have their chains
seated over members that can come up too (`Arises.seated`). So no chain, at any depth, reads a member
that it does not have or looks for one without an end (`Arises.stays_in_place`).
-/

namespace Lexing

namespace Choice

variable {α : Type} [Member α] {offer : Offer α} {S : α → Prop} {m : Choice α}

theorem forall_mem_visit (hS : offer.Preserves S) (c : Char) (i : Nat) {r : Round α}
    (h : ∀ a ∈ r.members, S a) : ∀ a ∈ (visit offer c i r).2.members, S a := by
  rw [visit]
  split
  · exact h
  · next a ha =>
    split
    · exact h
    · intro b hb
      rcases List.mem_or_eq_of_mem_set hb with hb | rfl
      · exact h b hb
      · exact hS.offer a c r.cursor (h a (List.mem_of_getElem? ha))

namespace All

variable (hS : offer.Preserves S)
include hS

theorem update (h : m.All S) (c : Char) (cur : Cursor) : (m.update offer c cur).2.1.All S :=
  Bag.walk_induction (P := fun r : Round α => ∀ a ∈ r.members, S a)
    (fun i _ hr => forall_mem_visit hS c i hr) m.alive.length m.alive h

theorem restart (h : m.All S) : m.restart.All S := List.forall_mem_map.2 fun a ha => hS.recycle a (h a ha)

theorem acceptSeek (h : m.All S) (c : Char) (cur : Cursor) :
    (m.acceptSeek offer c cur).state.All S := by
  have hu := h.update hS c cur
  rw [Choice.acceptSeek]
  generalize m.update offer c cur = u at hu
  dsimp only
  generalize hs : (if (u.2.1.alive.isEmpty && !u.2.1.progress.taken.isEmpty) = true then
    u.2.1.restart.update offer c u.2.2 else (u.1, u.2.1, u.2.2)) = s
  have hs : s.2.1.All S := by
    rw [← hs]
    split
    · exact (hu.restart hS).update hS c u.2.2
    · exact hu
  split
  · exact hs.restart hS
  · exact hs

theorem accept (h : m.All S) (c : Char) (cur : Cursor) : (m.accept offer c cur).state.All S := by
  rw [Choice.accept]
  split
  · exact h
  · split
    · have hu := h.update hS c cur
      rw [acceptAny]
      generalize m.update offer c cur = u at hu
      dsimp only
      split
      · exact hu
      · exact hu
    · split
      · exact h
      · exact h.acceptSeek hS c cur

end All

end Choice

namespace Layer

variable {κ α : Type} {S : α → Prop} {l : Layer κ α}

def Seated (S : α → Prop) : Layer κ α → Prop
  | .choice m => m.All S
  | .chain m => m.Seated S
  | _ => True

namespace Seated

theorem forall_members (h : l.Seated S) : ∀ a ∈ l.members, S a := by
  cases l with
  | choice m => exact h
  | chain m =>
    intro a ha
    obtain ⟨group, hgroup, ha⟩ := List.mem_flatten.1 ha
    exact (Chain.Seated.filled h group hgroup).2 a ha
  | _ => nofun

variable [CustomMatcher κ]

theorem copy_map {f : α → α} (h : l.Seated S) (hf : ∀ a, S a → S (f a)) :
    (l.map f).copy.Seated S := by
  cases l with
  | choice m => exact List.forall_mem_map.2 fun a ha => hf a (h a ha)
  | chain m =>
    apply Chain.seated_of_index_eq_zero _ rfl
    · intro group hgroup
      obtain ⟨g, hg, rfl⟩ := List.mem_map.1 hgroup
      obtain ⟨hne, hmembers⟩ := Chain.Seated.filled h g hg
      exact ⟨by simpa using hne, List.forall_mem_map.2 fun a ha => hf a (hmembers a ha)⟩
    · change 0 < (m.groups.map (List.map f)).length
      rw [List.length_map]
      exact Nat.zero_lt_of_lt (Chain.Seated.group_lt h)
  | _ => trivial

theorem reset_map {f : α → α} (h : l.Seated S) (hf : ∀ a, S a → S (f a)) :
    (l.map f).reset.Seated S := by
  cases l with
  | custom k => trivial
  | _ => exact h.copy_map hf

theorem accept [Member α] {offer : Offer α} (hS : offer.Preserves S) (h : l.Seated S) (c : Char)
    (cur : Cursor) : (l.accept offer c cur).state.Seated S := by
  cases l with
  | choice m => exact Choice.All.accept hS h c cur
  | chain m => exact (Chain.Seated.accept hS h le_rfl c cur).2
  | _ => trivial

end Seated

end Layer

namespace Matcher

variable {κ : Type} [CustomMatcher κ]

/-- Matchers that can come up: from the constructors, over members that can, with or without progress;
behind any character with any cursor, taken or not; when reset, recycled or copied. -/
inductive Arises : Matcher κ → Prop
  | chars (name : String) (rule : CharRule) : Arises (.chars name rule)
  | words {name rule words m} : Matcher.words name rule words = .ok m → Arises m
  | choice {name rule members m} : (∀ a ∈ members, Arises a) →
      Matcher.choice name rule members = .ok m → Arises m
  | chain {name rule groups hideFirst m} : (∀ group ∈ groups, ∀ a ∈ group, Arises a) →
      Matcher.chain name rule groups hideFirst = .ok m → Arises m
  | custom (k : κ) : Arises (mk (.custom k))
  | act {m} (a : Action) : Arises m → Arises (m.act a)
  | copy {m} : Arises m → Arises m.copy

inductive Contains : Matcher κ → Matcher κ → Prop
  | self {m : Matcher κ} : Contains m m
  | member {l : Layer κ (Matcher κ)} {a b : Matcher κ} : a ∈ l.members → Contains a b →
      Contains (mk l) b

theorem preserves_arises : Offer.Preserves (accept (κ := κ)) Arises where
  offer _ c cur h := h.act (.accept c cur)
  recycle _ h := h.act .recycle

variable {m s : Matcher κ}

theorem seated_copy (h : m.layer.Seated Arises) : m.copy.layer.Seated Arises := by
  cases m with
  | mk l =>
    rw [copy_mk]
    exact h.copy_map fun _ => .copy

theorem seated_reset (h : m.layer.Seated Arises) : m.reset.layer.Seated Arises := by
  cases m with
  | mk l =>
    rw [reset_mk]
    exact h.reset_map fun _ => .act .recycle

theorem seated_act (h : m.layer.Seated Arises) (a : Action) : (m.act a).layer.Seated Arises := by
  cases a with
  | accept c cur =>
    cases m with
    | mk l =>
      rw [act, state_accept_mk]
      exact h.accept preserves_arises c cur
  | reset => exact seated_reset h
  | recycle =>
    rw [act, recycle]
    split
    · exact seated_reset h
    · exact seated_copy h

theorem Arises.actAll (h : m.Arises) (actions : List Action) : (m.actAll actions).Arises := by
  induction actions generalizing m with
  | nil => exact h
  | cons a rest ih => exact ih (h.act a)

theorem Arises.seated (h : m.Arises) : m.layer.Seated Arises := by
  induction h with
  | chars name rule => trivial
  | words h =>
    obtain ⟨w, -, rfl⟩ := exists_of_map_eq_ok h
    trivial
  | choice hmembers h _ =>
    obtain ⟨made, hmake, rfl⟩ := exists_of_map_eq_ok h
    obtain ⟨-, rfl⟩ := Choice.fresh_of_make hmake
    exact hmembers
  | chain hmembers h _ =>
    obtain ⟨made, hmake, rfl⟩ := exists_of_map_eq_ok h
    obtain ⟨hempty, -⟩ := Chain.shape_of_make hmake
    obtain ⟨rfl, hne⟩ := Chain.eq_of_make hmake
    apply Chain.seated_of_index_eq_zero (List.length_pos_iff.2 hne) rfl
    intro group hgroup
    exact ⟨fun hnil => hempty (hnil ▸ hgroup), hmembers group hgroup⟩
  | custom k => trivial
  | act a _ ih => exact seated_act ih a
  | copy _ ih => exact seated_copy ih

theorem Arises.of_contains (hm : m.Arises) (h : m.Contains s) : s.Arises := by
  induction h with
  | self => exact hm
  | member ha _ ih => exact ih (hm.seated.forall_members _ ha)

/-- In every chain of a matcher that can come up, the place is that of a group and of a member of it.
Whatever character it is offered next, it reads members at such places only, and its search for one that
takes the character needs no more steps than it has members. -/
theorem Arises.stays_in_place {n : Chain (Matcher κ)} (hm : m.Arises)
    (hn : m.Contains (mk (.chain n))) :
    n.group < n.groups.length ∧ n.index < n.groupSize ∧ (∃ a, n.current = some a) ∧
      ∀ steps, n.members.length ≤ steps → ∀ c cur,
        n.accept? steps Matcher.accept c cur = some (n.accept Matcher.accept c cur) := by
  have hseated : n.Seated Arises := (hm.of_contains hn).seated
  refine ⟨hseated.group_lt, hseated.index_lt, hseated.exists_current, ?_⟩
  intro steps hsteps c cur
  exact (hseated.accept preserves_arises hsteps c cur).1

theorem Arises.stays_in_place_nested :
    let word : Matcher FixedMatcher :=
      mk (.words { name := "word", rule := .longest, words := [['a', 'b']] })
    let x : Matcher FixedMatcher := .chars "x" (.one (.singleton 'x'))
    let two : Matcher FixedMatcher :=
      mk (.custom { name := "two", size := 2, firstChars := none })
    let item : Chain (Matcher FixedMatcher) :=
      { name := "item", rule := .skipping, groups := [[word], [x, two]] }
    let cur := (Cursor.ofString "-x").skip 1
    let used := ((item.accept accept 'a' cur).state.accept accept 'x' cur).state
    let m : Matcher FixedMatcher :=
      mk (.chain { name := "row", rule := .separated, groups := [[mk (.chain used)], [x]] })
    m.Arises ∧ m.Contains (mk (.chain used)) ∧ used.group = 1 ∧ used.index = 1 ∧
      used.group < used.groups.length ∧ used.index < used.groupSize ∧ (∃ a, used.current = some a) ∧
      used.accept? 3 accept 'y' cur = some (used.accept accept 'y' cur) := by
  -- the chain inside has given up its word at `x` and is at the last of its three members
  intro word x two item cur used m
  have hword : Matcher.words "word" .longest ["ab"] = .ok word := rfl
  have hitem : Matcher.chain "item" .skipping [[word], [x, two]] false = .ok (mk (.chain item)) := rfl
  have hm : Matcher.chain "row" .separated [[mk (.chain used)], [x]] false = .ok m := rfl
  have hmembers : ∀ group ∈ [[word], [x, two]], ∀ a ∈ group, a.Arises := by
    simp only [List.forall_mem_cons]
    exact ⟨⟨.words hword, nofun⟩, ⟨.chars .., .custom _, nofun⟩, nofun⟩
  have hused : (mk (.chain used)).Arises := by
    have h : Arises _ := .act (.accept 'x' cur) (.act (.accept 'a' cur) (.chain hmembers hitem))
    simp only [Matcher.act, state_accept_mk] at h
    exact h
  have hm : m.Arises := by
    refine .chain ?_ hm
    simp only [List.forall_mem_cons]
    exact ⟨⟨hused, nofun⟩, ⟨.chars .., nofun⟩, nofun⟩
  have hcontains : m.Contains (mk (.chain used)) := .member List.mem_cons_self .self
  obtain ⟨hgroup, hindex, hcurrent, hchecked⟩ := hm.stays_in_place hcontains
  exact ⟨hm, hcontains, by decide +kernel, by decide +kernel, hgroup, hindex, hcurrent,
    hchecked 3 (by decide +kernel) 'y' cur⟩

end Matcher

end Lexing
