import Lexing.Matcher.Fixed
import Lexing.Matcher.Unfold
import Lexing.Proofs.Except

namespace Lexing

variable {κ α γ : Type}

/-- What is expected of the copies of a user's own matchers: taking characters and resetting keep
the configuration, a copy has no progress, and a reset is as good as a copy where the matcher
says so. -/
class LawfulCopy (κ : Type) [CustomMatcher κ] : Prop where
  copy_accept : ∀ (k : κ) (c : Char) (cur : Cursor),
    CustomMatcher.copy (CustomMatcher.accept k c cur).state = CustomMatcher.copy k
  copy_reset : ∀ k : κ, CustomMatcher.copy (CustomMatcher.reset k) = CustomMatcher.copy k
  copy_copy : ∀ k : κ, CustomMatcher.copy (CustomMatcher.copy k) = CustomMatcher.copy k
  reset_eq_copy : ∀ k : κ, CustomMatcher.canRecycle k = true →
    CustomMatcher.reset k = CustomMatcher.copy k

instance : LawfulCopy Empty where
  copy_accept := nofun
  copy_reset := nofun
  copy_copy := nofun
  reset_eq_copy := nofun

theorem FixedMatcher.fresh_accept (m : FixedMatcher) (c : Char) (cur : Cursor) :
    (m.accept c cur).state.fresh = m.fresh := by
  simp only [accept]
  split <;> rfl

instance : LawfulCopy FixedMatcher where
  copy_accept := FixedMatcher.fresh_accept
  copy_reset _ := rfl
  copy_copy _ := rfl
  reset_eq_copy := nofun

theorem CharMatcher.fresh_accept (m : CharMatcher) (c : Char) (cur : Cursor) :
    (m.accept c cur).state.fresh = m.fresh := by
  simp only [accept]
  split <;> rfl

namespace WordMatcher

@[simp] theorem fresh_update (m : WordMatcher) (c : Char) (offset : Nat) :
    (m.update c offset).2.fresh = m.fresh := rfl

theorem fresh_replay (m : WordMatcher) (text : List Char) : (m.replay text).fresh = m.fresh := by
  rw [replay]
  generalize text.zipIdx = steps
  suffices h : ∀ s : WordMatcher, s.fresh = m.fresh →
      (steps.foldl (fun m step => (m.update step.1 step.2).2) s).fresh = m.fresh from h _ rfl
  induction steps with
  | nil => exact fun _ h => h
  | cons step steps ih => exact fun s h => ih _ ((fresh_update s ..).trans h)

theorem fresh_shift? {m s : WordMatcher} {c : Char} {cur : Cursor} (h : m.shift? c cur = some s) :
    s.fresh = m.fresh := by
  obtain ⟨skip, -, hskip⟩ := List.exists_of_findSome?_eq_some h
  simp only [shiftBy?] at hskip
  split at hskip
  · cases hskip
  · cases hskip
    exact fresh_replay m _

theorem fresh_getD_shift? {m n s : WordMatcher} (c : Char) (cur : Cursor) (hm : m.fresh = n.fresh)
    (hs : s.fresh = n.fresh) : ((m.shift? c cur).getD s).fresh = n.fresh := by
  cases h : m.shift? c cur with
  | none => exact hs
  | some t => exact (fresh_shift? h).trans hm

theorem fresh_acceptOnward (m : WordMatcher) (c : Char) (cur : Cursor) :
    (m.acceptOnward c cur).fresh = m.fresh := by
  rw [acceptOnward]
  dsimp only
  split
  · exact fresh_getD_shift? c cur rfl rfl
  · rfl

theorem fresh_acceptUpTo (m : WordMatcher) (c : Char) (cur : Cursor) :
    (m.acceptUpTo c cur).2.fresh = m.fresh := by
  rw [acceptUpTo]
  split
  · rfl
  · split
    · exact fresh_getD_shift? c cur rfl (fresh_acceptOnward m.reset c cur)
    · exact fresh_acceptOnward m c cur

theorem fresh_acceptWord (m : WordMatcher) (c : Char) (cur : Cursor) :
    (m.acceptWord c cur).2.fresh = m.fresh := by
  rw [acceptWord]
  dsimp only
  split
  · rfl
  · split <;> rfl

theorem fresh_accept (m : WordMatcher) (c : Char) (cur : Cursor) :
    (m.accept c cur).state.fresh = m.fresh := by
  simp only [accept]
  split
  · exact fresh_acceptUpTo m c cur
  · exact fresh_acceptWord m c cur
  · exact fresh_acceptWord m c cur

theorem fresh_of_make {name : String} {rule : WordRule} {words : List String} {m : WordMatcher}
    (h : make name rule words = .ok m) : m.fresh = m := by
  simp only [make] at h
  split at h
  · cases h
  · cases h
    rfl

end WordMatcher

namespace Choice

theorem fresh_of_make {name : String} {rule : ChoiceRule} {members : List α} {m : Choice α}
    (h : make name rule members = .ok m) : m.fresh = m ∧ m.members = members := by
  rw [make] at h
  split at h
  · cases h
  · cases h
    exact ⟨rfl, rfl⟩

end Choice

theorem Chain.fresh_of_make {name : String} {rule : ChainRule} {groups : List (List α)}
    {m : Chain α} (h : make name rule groups = .ok m) : m.fresh = m ∧ m.groups = groups := by
  rw [make] at h
  split at h
  · cases h
  · split at h
    · cases h
    · split at h
      · cases h
      · cases h
        exact ⟨rfl, rfl⟩

namespace Layer

theorem map_id (l : Layer κ α) : l.map id = l := by
  cases l with
  | choice m => cases m; simp [map, Choice.map]
  | chain m => cases m; simp [map, Chain.map]
  | _ => rfl

variable [CustomMatcher κ] [LawfulCopy κ]

theorem copy_copy (l : Layer κ α) : l.copy.copy = l.copy := by
  cases l with
  | custom k => exact congrArg custom (LawfulCopy.copy_copy k)
  | _ => rfl

theorem copy_map_reset (g : α → γ) (l : Layer κ α) : (l.reset.map g).copy = (l.map g).copy := by
  cases l with
  | custom k => exact congrArg custom (LawfulCopy.copy_reset k)
  | _ => rfl

theorem reset_map {l : Layer κ α} {f : α → Bool} (h : (l.map f).canRecycle = true) (g : α → γ) :
    (l.map g).reset = (l.map g).copy := by
  cases l with
  | custom k => exact congrArg custom (LawfulCopy.reset_eq_copy k h)
  | _ => rfl

theorem copy_map_accept [Member α] {offer : Offer α} {g : α → γ} (hg : Kept offer g)
    (l : Layer κ α) (c : Char) (cur : Cursor) :
    ((l.accept offer c cur).state.map g).copy = (l.map g).copy := by
  cases l with
  | chars m => exact congrArg chars (m.fresh_accept c cur)
  | words m => exact congrArg words (m.fresh_accept c cur)
  | choice m => exact congrArg choice (m.map_accept hg c cur)
  | chain m => exact congrArg chain (m.map_accept hg c cur)
  | custom k => exact congrArg custom (LawfulCopy.copy_accept k c cur)

end Layer

namespace Matcher

section Copying

variable [CustomMatcher κ] [LawfulCopy κ]

@[simp] theorem copy_copy (m : Matcher κ) : m.copy.copy = m.copy := by
  induction m using Matcher.induction with
  | step l ih =>
    rw [copy_mk, copy_mk, ← Layer.map_copy, Layer.copy_copy, Layer.map_map]
    apply congrArg (fun l : Layer κ (Matcher κ) => mk l.copy)
    exact Layer.map_congr ih

theorem recycle_eq_copy (m : Matcher κ) : m.recycle = m.copy := by
  induction m using Matcher.induction with
  | step l ih =>
    rw [recycle]
    split
    · next h =>
      rw [canRecycle_mk] at h
      rw [reset_mk, copy_mk, Layer.map_congr ih, Layer.reset_map h]
    · rfl

theorem reset_eq_copy {m : Matcher κ} (h : m.canRecycle = true) : m.reset = m.copy := by
  rw [← recycle_eq_copy, recycle, if_pos h]

theorem copy_recycle (m : Matcher κ) : m.recycle.copy = m.copy := by
  rw [recycle_eq_copy, copy_copy]

theorem copy_reset (m : Matcher κ) : m.reset.copy = m.copy := by
  cases m with
  | mk l =>
    rw [reset_mk, copy_mk, copy_mk, funext recycle_eq_copy, Layer.copy_map_reset, Layer.map_map]
    apply congrArg (fun f => mk (l.map f).copy)
    exact funext copy_copy

theorem copy_acceptWithin (n : Nat) (m : Matcher κ) (c : Char) (cur : Cursor) :
    (m.acceptWithin n c cur).state.copy = m.copy := by
  induction n generalizing m c cur with
  | zero => rfl
  | succ n ih =>
    cases m with
    | mk l =>
      have hcopy : Kept (acceptWithin (κ := κ) n) copy := ⟨ih, copy_recycle⟩
      simp only [acceptWithin, Reply.map, layer, copy_mk]
      exact congrArg mk (Layer.copy_map_accept hcopy l c cur)

@[simp] theorem copy_accept (m : Matcher κ) (c : Char) (cur : Cursor) :
    (m.accept c cur).state.copy = m.copy := copy_acceptWithin m.depth m c cur

end Copying

inductive Action where
  | accept (c : Char) (cur : Cursor)
  | reset
  | recycle

section Using

variable [CustomMatcher κ]

def act (m : Matcher κ) : Action → Matcher κ
  | .accept c cur => (m.accept c cur).state
  | .reset => m.reset
  | .recycle => m.recycle

def actAll (m : Matcher κ) (actions : List Action) : Matcher κ := actions.foldl act m

theorem copy_act [LawfulCopy κ] (m : Matcher κ) (a : Action) : (m.act a).copy = m.copy := by
  cases a with
  | accept c cur => exact copy_accept m c cur
  | reset => exact copy_reset m
  | recycle => exact copy_recycle m

theorem copy_actAll [LawfulCopy κ] (m : Matcher κ) (actions : List Action) :
    (m.actAll actions).copy = m.copy := by
  induction actions generalizing m with
  | nil => rfl
  | cons a rest ih =>
    change ((m.act a).actAll rest).copy = m.copy
    rw [ih, copy_act]

/-- Matchers as they come from the constructors, with members that do so too. One of the user's
own has no progress, which is to say that it is like its copy. -/
inductive Made : Matcher κ → Prop
  | chars (name : String) (rule : CharRule) : Made (.chars name rule)
  | words {name rule words m} : Matcher.words name rule words = .ok m → Made m
  | choice {name rule members m} : (∀ a ∈ members, Made a) →
      Matcher.choice name rule members = .ok m → Made m
  | chain {name rule groups hideFirst m} : (∀ group ∈ groups, ∀ a ∈ group, Made a) →
      Matcher.chain name rule groups hideFirst = .ok m → Made m
  | custom {k : κ} : CustomMatcher.copy k = k → Made (mk (.custom k))

theorem copy_mk_of_members {l : Layer κ (Matcher κ)} (h : ∀ a ∈ l.members, a.copy = a) :
    (mk l).copy = mk l.copy := by
  rw [copy_mk, Layer.map_congr (g := id) h, Layer.map_id]

theorem Made.copy_eq {m : Matcher κ} (h : m.Made) : m.copy = m := by
  induction h with
  | chars name rule => rfl
  | words h =>
    obtain ⟨w, hw, rfl⟩ := exists_of_map_eq_ok h
    exact congrArg (mk ∘ .words) (WordMatcher.fresh_of_make hw)
  | choice _ h ih =>
    obtain ⟨s, hs, rfl⟩ := exists_of_map_eq_ok h
    obtain ⟨hfresh, rfl⟩ := Choice.fresh_of_make hs
    rw [copy_mk_of_members ih]
    exact congrArg (mk ∘ .choice) hfresh
  | @chain _ _ _ hideFirst _ _ h ih =>
    obtain ⟨s, hs, rfl⟩ := exists_of_map_eq_ok h
    obtain ⟨hfresh, rfl⟩ := Chain.fresh_of_make hs
    rw [copy_mk_of_members]
    · exact congrArg (fun s => mk (.chain { s with hideFirst })) hfresh
    · intro a ha
      obtain ⟨group, hgroup, ha⟩ := List.mem_flatten.1 ha
      exact ih group hgroup a ha
  | custom h => exact congrArg (mk ∘ .custom) h

/-- A matcher that was made without progress is itself again, by recycling as well as by copying,
whatever has happened to it. -/
theorem recycle_copy_actAll_of_made [LawfulCopy κ] {m : Matcher κ} (h : m.Made)
    (actions : List Action) : (m.actAll actions).recycle = m ∧ (m.actAll actions).copy = m := by
  rw [recycle_eq_copy, copy_actAll, h.copy_eq]
  exact ⟨rfl, rfl⟩

theorem recycle_copy_actAll_of_made_nested :
    let two : Matcher FixedMatcher := mk (.custom { name := "two", size := 2, firstChars := none })
    let run : Matcher FixedMatcher := .chars "run" (.run (.range 'a' 'z') (.range 'a' 'z'))
    let m : Matcher FixedMatcher :=
      mk (.choice { name := "either", rule := .seek, members := [two, run] })
    let actions : List Action :=
      [.accept 'a' (.ofString "ab"), .accept '-' (.ofString ""), .reset, .accept 'b' (.ofString "b")]
    m.Made ∧ (m.actAll actions).recycle = m ∧ (m.actAll actions).copy = m := by
  intro two run m actions
  have hmembers : ∀ a ∈ [two, run], a.Made := by
    simp only [List.forall_mem_cons]
    exact ⟨.custom rfl, .chars _ _, by simp⟩
  have hm : m.Made := .choice hmembers rfl
  exact ⟨hm, recycle_copy_actAll_of_made hm actions⟩

end Using

end Matcher

end Lexing
