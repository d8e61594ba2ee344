import Lexing.Matcher.Basic
import Lexing.Matcher.Chain.Members
import Lexing.Matcher.Choice.Members

namespace Lexing

variable {κ α β γ : Type}

namespace Layer

theorem members_map (f : α → β) (l : Layer κ α) : (l.map f).members = l.members.map f := by
  cases l with
  | chain m => exact m.members_map f
  | _ => rfl

theorem map_map (f : α → β) (g : β → γ) (l : Layer κ α) : (l.map f).map g = l.map (g ∘ f) := by
  cases l with
  | choice m => simp [map, Choice.map, Function.comp_def]
  | chain m => simp [map, Chain.map, Function.comp_def]
  | _ => rfl

theorem map_congr {f g : α → β} {l : Layer κ α} (h : ∀ a ∈ l.members, f a = g a) :
    l.map f = l.map g := by
  cases l with
  | choice m =>
    simp only [map, Choice.map, choice.injEq, Choice.mk.injEq, true_and, and_true]
    exact List.map_congr_left h
  | chain m =>
    simp only [map, Chain.map, chain.injEq, Chain.mk.injEq, true_and, and_true]
    apply List.map_congr_left
    intro group hgroup
    apply List.map_congr_left
    intro a ha
    exact h a (List.mem_flatten.2 ⟨group, hgroup, ha⟩)
  | _ => rfl

variable [CustomMatcher κ]

theorem map_copy (f : α → β) (l : Layer κ α) : (l.map f).copy = l.copy.map f := by
  cases l with
  | choice m => exact congrArg choice (m.fresh_map f)
  | _ => rfl

theorem members_copy (l : Layer κ α) : l.copy.members = l.members := by
  cases l <;> rfl

theorem members_reset (l : Layer κ α) : l.reset.members = l.members := by
  cases l <;> rfl

variable [Member α] {offer : Offer α}

theorem map_members_accept {g : α → γ} (hg : Kept offer g) (l : Layer κ α) (c : Char)
    (cur : Cursor) : (l.accept offer c cur).state.members.map g = l.members.map g := by
  cases l with
  | choice m =>
    have h := congrArg Choice.members (m.map_accept hg c cur)
    simp only [Choice.members_fresh, Choice.members_map] at h
    exact h
  | chain m =>
    have h := congrArg Chain.members (m.map_accept hg c cur)
    simp only [Chain.members_fresh, Chain.members_map] at h
    exact h
  | _ => rfl

theorem accept_congr {f g : Offer α} {S : α → Prop} (hS : Kept f S) (hfg : ∀ a, S a → f a = g a)
    {l : Layer κ α} (hl : ∀ a ∈ l.members, S a) : l.accept f = l.accept g := by
  funext c cur
  cases l with
  | choice m =>
    have h : m.accept f = m.accept g := Choice.accept_congr hS hfg hl
    simp only [accept, h]
  | chain m =>
    have h : m.accept f = m.accept g := Chain.accept_congr hS hfg hl
    simp only [accept, h]
  | _ => rfl

end Layer

namespace Matcher

theorem depth_mk (l : Layer κ (Matcher κ)) :
    (mk l).depth = (l.members.map depth).foldr max 0 + 1 := by
  rw [depth, build_mk, Layer.members_map, List.map_map]
  rfl

theorem isBroken_mk (l : Layer κ (Matcher κ)) : (mk l).isBroken = (l.map isBroken).isBroken := by
  rw [isBroken, build_mk, Layer.map_map]
  rfl

theorem le_foldr_max {l : List Nat} {n : Nat} (h : n ∈ l) : n ≤ l.foldr max 0 := by
  induction l with
  | nil => cases h
  | cons a rest ih =>
    rcases List.mem_cons.1 h with rfl | h
    · exact Nat.le_max_left ..
    · exact Nat.le_trans (ih h) (Nat.le_max_right ..)

theorem depth_lt {l : Layer κ (Matcher κ)} {m : Matcher κ} (h : m ∈ l.members) :
    m.depth < (mk l).depth := by
  rw [depth_mk]
  exact Nat.lt_succ_of_le (le_foldr_max (List.mem_map_of_mem h))

/-- What follows for a matcher from its members holds of all matchers. -/
theorem induction {P : Matcher κ → Prop}
    (step : ∀ l : Layer κ (Matcher κ), (∀ m ∈ l.members, P m) → P (mk l)) (m : Matcher κ) : P m := by
  generalize hn : m.depth = n
  induction n using Nat.strongRecOn generalizing m with
  | ind n ih =>
    cases m with
    | mk l => exact step l fun m hm => ih m.depth (hn ▸ depth_lt hm) m rfl

variable [CustomMatcher κ]

theorem copy_mk (l : Layer κ (Matcher κ)) : (mk l).copy = mk (l.map copy).copy := by
  rw [copy, build_mk, Layer.map_map]
  rfl

theorem canRecycle_mk (l : Layer κ (Matcher κ)) :
    (mk l).canRecycle = (l.map canRecycle).canRecycle := by
  rw [canRecycle, build_mk, Layer.map_map]
  rfl

theorem firstChars_mk (l : Layer κ (Matcher κ)) :
    (mk l).firstChars = (l.map firstChars).firstChars := by
  rw [firstChars, build_mk, Layer.map_map]
  rfl

theorem reset_mk (l : Layer κ (Matcher κ)) : (mk l).reset = mk (l.map recycle).reset := by
  rw [reset, build_mk, Layer.map_map]
  rfl

theorem depth_copy (m : Matcher κ) : m.copy.depth = m.depth := by
  induction m using Matcher.induction with
  | step l ih =>
    rw [copy_mk, depth_mk, depth_mk, Layer.members_copy, Layer.members_map, List.map_map]
    exact congrArg (fun ds => ds.foldr max 0 + 1) (List.map_congr_left ih)

theorem depth_recycle (m : Matcher κ) : m.recycle.depth = m.depth := by
  induction m using Matcher.induction with
  | step l ih =>
    rw [recycle]
    split
    · rw [reset_mk, depth_mk, depth_mk, Layer.members_reset, Layer.members_map, List.map_map]
      exact congrArg (fun ds => ds.foldr max 0 + 1) (List.map_congr_left ih)
    · exact depth_copy _

theorem depth_acceptWithin (n : Nat) (m : Matcher κ) (c : Char) (cur : Cursor) :
    (m.acceptWithin n c cur).state.depth = m.depth := by
  induction n generalizing m c cur with
  | zero => rfl
  | succ n ih =>
    cases m with
    | mk l =>
      have h := Layer.map_members_accept (l := l) ⟨ih, depth_recycle⟩ c cur
      rw [acceptWithin, Reply.map]
      rw [depth_mk, depth_mk]
      exact congrArg (fun ds => ds.foldr max 0 + 1) h

theorem kept_depth_le (n k : Nat) :
    Kept (acceptWithin (κ := κ) n) fun m : Matcher κ => m.depth ≤ k where
  offer_eq m c cur := by rw [depth_acceptWithin]
  recycle_eq m := congrArg (· ≤ k) (depth_recycle m)

theorem acceptWithin_succ {n : Nat} {m : Matcher κ} (h : m.depth ≤ n) :
    m.acceptWithin (n + 1) = m.acceptWithin n := by
  induction n generalizing m with
  | zero =>
    cases m with
    | mk l => simp [depth_mk] at h
  | succ n ih =>
    cases m with
    | mk l =>
      have hl : ∀ a ∈ l.members, a.depth ≤ n := fun a ha =>
        Nat.le_of_lt_succ (Nat.lt_of_lt_of_le (depth_lt ha) h)
      funext c cur
      have hacc := Layer.accept_congr (kept_depth_le (n + 1) n) (fun a ha => ih ha) hl
      exact congrArg (·.map mk) (congrFun (congrFun hacc c) cur)

theorem acceptWithin_eq {n : Nat} {m : Matcher κ} (h : m.depth ≤ n) :
    m.acceptWithin n = m.accept := by
  induction n with
  | zero =>
    cases m with
    | mk l => simp [depth_mk] at h
  | succ n ih =>
    rcases Nat.lt_or_eq_of_le h with h | h
    · rw [acceptWithin_succ (Nat.le_of_lt_succ h), ih (Nat.le_of_lt_succ h)]
    · funext c cur
      rw [accept, h]

/-- A matcher does what its layer does with its members. -/
theorem accept_mk (l : Layer κ (Matcher κ)) (c : Char) (cur : Cursor) :
    (mk l).accept c cur = (l.accept accept c cur).map mk := by
  generalize hn : (l.members.map depth).foldr max 0 = n
  have hl : ∀ a ∈ l.members, a.depth ≤ n := fun a ha =>
    hn ▸ le_foldr_max (List.mem_map_of_mem ha)
  have h := Layer.accept_congr (kept_depth_le n n) (fun a ha => acceptWithin_eq ha) hl
  have hd : (mk l).depth = n + 1 := by rw [depth_mk, hn]
  rw [accept, hd]
  exact congrArg (·.map mk) (congrFun (congrFun h c) cur)

theorem state_accept_mk (l : Layer κ (Matcher κ)) (c : Char) (cur : Cursor) :
    ((mk l).accept c cur).state = mk (l.accept accept c cur).state :=
  congrArg Reply.state (accept_mk l c cur)

end Matcher

end Lexing
