import Lexing.Proofs.Chain.Intact
import Lexing.Proofs.Choice.Branches
import Lexing.Proofs.Matcher.Arises

/-!
Matchers in use do not break: those that have been made, copied or reset, and that are offered characters
only as long as they have not failed with one that they refused (`InUse.unbroken_accept`).
-/

namespace Lexing

namespace Choice

variable {α : Type} [Member α] {S : α → Prop} {m : Choice α} {offer : Offer α}

structure Intact (S : α → Prop) (m : Choice α) : Prop where
  unbroken : m.broken = false
  valid : m.Valid
  members : ∀ a ∈ m.members, Member.isBroken a = false
  alive : ∀ i ∈ m.alive, ∀ a, m.members[i]? = some a → S a

theorem intact_fresh (h : ∀ a ∈ m.members, S a) (hS : ∀ a, S a → Member.isBroken a = false) :
    m.fresh.Intact S :=
  ⟨rfl, valid_fresh m, fun a ha => hS a (h a ha), fun _ _ a ha => h a (List.mem_of_getElem? ha)⟩

namespace Intact

theorem isBroken_eq_false (h : m.Intact S) : m.isBroken = false := by
  rw [isBroken, h.unbroken, Bool.false_or, List.any_eq_false]
  exact fun a ha hbroken => by cases (h.members a ha).symm.trans hbroken

theorem of_eq {s : Choice α} (h : m.Intact S) (hmembers : s.members = m.members)
    (halive : s.alive = m.alive) (hbroken : s.broken = m.broken) : s.Intact S := by
  refine ⟨hbroken.trans h.unbroken, ⟨halive ▸ h.valid.nodup, ?_⟩, hmembers ▸ h.members, ?_⟩
  · rw [halive, hmembers]
    exact h.valid.lt_length
  · rw [halive, hmembers]
    exact h.alive

variable (hS : offer.Spares S)
include hS

theorem update (h : m.Intact S) (c : Char) (cur : Cursor) : (m.update offer c cur).2.1.Intact S := by
  -- a member that has failed with a character has refused it and drops out
  have hbroken : (m.update offer c cur).2.1.broken = m.broken := broken_update h.valid c cur
  have hvalid : (m.update offer c cur).2.1.Valid := h.valid.update c cur
  obtain ⟨kept, s, place, hswept, hsub, alive, hperm, heq⟩ := exists_swept_update offer h.valid c cur
  rw [heq] at hbroken hvalid ⊢
  refine ⟨hbroken.trans h.unbroken, hvalid, fun b hb => ?_, fun i hi b hb => ?_⟩
  · obtain ⟨i, hb⟩ := List.mem_iff_getElem?.1 hb
    rw [hswept.members_eq] at hb
    obtain ⟨a, ha, rfl⟩ := Option.map_eq_some_iff.1 hb
    have hwhole := h.members a (List.mem_of_getElem? ha)
    split
    · next hi =>
      simp only [Branch.offer, Bool.not_true, Bool.false_eq_true, if_false]
      split
      · exact hwhole
      · exact hS.offer_unbroken a c (place i) (h.alive i hi a ha)
    · exact hwhole
  · have hi : i ∈ kept := hperm.mem_iff.1 hi
    have hi' := hsub.subset hi
    rw [hswept.members_eq] at hb
    obtain ⟨a, ha, rfl⟩ := Option.map_eq_some_iff.1 hb
    have hlive := ((hswept.mem_iff i a ha).1 hi).2
    rw [if_pos hi']
    simp only [Branch.offer, Bool.not_true, Bool.false_eq_true, if_false] at hlive ⊢
    split
    · exact h.alive i hi' a ha
    · next hunfailed =>
      rw [if_neg hunfailed] at hlive
      rcases hS.offer a c (place i) (h.alive i hi' a ha) with hgoes | hfails
      · exact hgoes
      · cases hfails.refused.symm.trans hlive

theorem restart (h : m.Intact S) : m.restart.Intact S := by
  have hready : ∀ a ∈ m.restart.members, S a := List.forall_mem_map.2 fun a _ => hS.recycle a
  exact ⟨h.isBroken_eq_false, valid_restart m, fun a ha => hS.unbroken a (hready a ha),
    fun i _ a ha => hready a (List.mem_of_getElem? ha)⟩

theorem acceptSeek (h : m.Intact S) (c : Char) (cur : Cursor) :
    (m.acceptSeek offer c cur).state.Intact S := by
  have hu := h.update hS c cur
  rw [Choice.acceptSeek]
  generalize m.update offer c cur = u at hu
  dsimp only
  generalize hs : (if (u.2.1.alive.isEmpty && !u.2.1.progress.taken.isEmpty) = true then
    u.2.1.restart.update offer c u.2.2 else (u.1, u.2.1, u.2.2)) = s
  have hs : s.2.1.Intact S := by
    rw [← hs]
    split
    · exact (hu.restart hS).update hS c u.2.2
    · exact hu
  split
  · exact hs.restart hS
  · exact hs.of_eq rfl rfl rfl

theorem accept (h : m.Intact S) (c : Char) (cur : Cursor) : (m.accept offer c cur).state.Intact S := by
  rw [Choice.accept]
  split
  · exact h
  · split
    · have hu := h.update hS c cur
      rw [acceptAny]
      dsimp only
      split
      · exact hu.of_eq rfl rfl rfl
      · exact hu.of_eq rfl rfl rfl
    · split
      · exact h.of_eq rfl rfl rfl
      · exact h.acceptSeek hS c cur

end Intact

end Choice

namespace Layer

variable {κ α : Type} {S : α → Prop} {l : Layer κ α} [Member α]

def Intact (S : α → Prop) : Layer κ α → Prop
  | .choice m => m.Intact S
  | .chain m => m.Intact S
  | _ => True

variable [CustomMatcher κ]

theorem intact_copy_map {f : α → α} (hf : ∀ a ∈ l.members, S (f a))
    (hS : ∀ a, S a → Member.isBroken a = false) : (l.map f).copy.Intact S := by
  cases l with
  | choice m =>
    exact Choice.intact_fresh (m := m.map f) (List.forall_mem_map.2 hf) hS
  | chain m =>
    refine .going ⟨rfl, fun group hgroup a ha => ?_⟩ fun _ => nofun
    obtain ⟨g, hg, rfl⟩ := List.mem_map.1 hgroup
    obtain ⟨b, hb, rfl⟩ := List.mem_map.1 ha
    exact hf b (List.mem_flatten_of_mem hg hb)
  | _ => trivial

theorem intact_reset_map {f : α → α} (hf : ∀ a ∈ l.members, S (f a))
    (hS : ∀ a, S a → Member.isBroken a = false) : (l.map f).reset.Intact S := by
  cases l with
  | custom k => trivial
  | _ => exact intact_copy_map hf hS

theorem Intact.accept {offer : Offer α} (h : l.Intact S) (hS : offer.Spares S) (c : Char)
    (cur : Cursor) :
    let r := l.accept offer c cur
    r.state.Intact S ∨ ∃ m, r.state = .chain m ∧ m.isBroken = false ∧ r.accepted = false ∧
      m.failed = true := by
  cases l with
  | choice m => exact .inl (Choice.Intact.accept hS h c cur)
  | chain m =>
    obtain ⟨hwhole, hgoes | ⟨hrefused, hfailed⟩⟩ := Chain.Intact.accept hS h c cur
    · exact .inl hgoes
    · exact .inr ⟨_, rfl, hwhole, hrefused, hfailed⟩
  | _ => exact .inl trivial

end Layer

namespace Matcher

variable {κ : Type} [CustomMatcher κ]

/-- The uppermost layers, so many of them, can be offered a character, and the members below are not
broken. -/
def IntactWithin : Nat → Matcher κ → Prop
  | 0, m => m.isBroken = false
  | n + 1, m => m.layer.Intact (IntactWithin n)

variable {m : Matcher κ}

theorem IntactWithin.unbroken {n : Nat} (h : m.IntactWithin n) : m.isBroken = false := by
  induction n generalizing m with
  | zero => exact h
  | succ n ih =>
    obtain ⟨l⟩ := m
    cases l with
    | choice s => exact (isBroken_choice s).trans (Choice.Intact.isBroken_eq_false h)
    | chain s => exact (isBroken_chain s).trans (Chain.Intact.isBroken_eq_false h fun _ => ih)
    | _ => exact isBroken_mk _

theorem intactWithin_of_leaf {n : Nat} (hwhole : m.isBroken = false) (h : ∀ S, m.layer.Intact S) :
    m.IntactWithin n := by
  cases n with
  | zero => exact hwhole
  | succ n => exact h _

theorem intactWithin_copy (n : Nat) (m : Matcher κ) : m.copy.IntactWithin n := by
  induction n generalizing m with
  | zero => exact isBroken_copy m
  | succ n ih =>
    obtain ⟨l⟩ := m
    rw [copy_mk]
    exact Layer.intact_copy_map (fun a _ => ih a) fun _ => IntactWithin.unbroken

theorem intactWithin_recycle (n : Nat) (m : Matcher κ) : m.recycle.IntactWithin n := by
  induction n generalizing m with
  | zero => exact isBroken_recycle m
  | succ n ih =>
    obtain ⟨l⟩ := m
    rw [recycle]
    split
    · rw [reset_mk]
      exact Layer.intact_reset_map (fun a _ => ih a) fun _ => IntactWithin.unbroken
    · exact intactWithin_copy (n + 1) _

theorem intactWithin_reset (n : Nat) (m : Matcher κ) : m.reset.IntactWithin n := by
  cases n with
  | zero => exact isBroken_reset m
  | succ n =>
    obtain ⟨l⟩ := m
    rw [reset_mk]
    exact Layer.intact_reset_map (fun a _ => intactWithin_recycle n a) fun _ => IntactWithin.unbroken

theorem spares_acceptWithin (n : Nat) : Offer.Spares (acceptWithin (κ := κ) n) (IntactWithin n) := by
  induction n with
  | zero => exact ⟨fun _ h => h, isBroken_recycle, fun _ _ _ h => h, fun _ _ _ h => .inl h⟩
  | succ n ih =>
    refine ⟨fun _ => IntactWithin.unbroken, intactWithin_recycle (n + 1), fun m c cur h => ?_,
      fun m c cur h => ?_⟩
    · rcases Layer.Intact.accept h ih c cur with hgoes | ⟨s, hs, hwhole, -, -⟩
      · exact IntactWithin.unbroken (n := n + 1) hgoes
      · change (mk (m.layer.accept (acceptWithin n) c cur).state).isBroken = false
        rw [hs, isBroken_chain, hwhole]
    · rcases Layer.Intact.accept h ih c cur with hgoes | ⟨s, hs, -, hrefused, hfailed⟩
      · exact .inl hgoes
      · refine .inr ⟨hrefused, ?_, ?_⟩
        · change (mk (m.layer.accept (acceptWithin n) c cur).state).isFailed = true
          rw [hs]
          exact hfailed
        · change (mk (m.layer.accept (acceptWithin n) c cur).state).isComplete = false
          rw [hs]
          simp [isComplete, layer, Layer.isComplete, Chain.isComplete, hfailed]

/-- Matchers in use: made over members in use, or copied or reset in whatever state, and offered
characters, but no more behind one that they have refused and failed with. -/
inductive InUse : Matcher κ → Prop
  | chars (name : String) (rule : CharRule) : InUse (.chars name rule)
  | words {name rule words m} : Matcher.words name rule words = .ok m → InUse m
  | choice {name rule members m} : (∀ a ∈ members, InUse a) →
      Matcher.choice name rule members = .ok m → InUse m
  | chain {name rule groups hideFirst m} : (∀ group ∈ groups, ∀ a ∈ group, InUse a) →
      Matcher.chain name rule groups hideFirst = .ok m → InUse m
  | custom (k : κ) : InUse (mk (.custom k))
  | copy (m : Matcher κ) : InUse m.copy
  | reset (m : Matcher κ) : InUse m.reset
  | accept {m : Matcher κ} (c : Char) (cur : Cursor) : InUse m →
      (m.accept c cur).accepted = true ∨ (m.accept c cur).state.isFailed = false →
      InUse (m.accept c cur).state

omit [CustomMatcher κ] in
theorem depth_le_of_mem {l : Layer κ (Matcher κ)} {n : Nat} (hm : m ∈ l.members)
    (h : (mk l).depth ≤ n + 1) : m.depth ≤ n :=
  Nat.le_of_lt_succ (Nat.lt_of_lt_of_le (depth_lt hm) h)

theorem InUse.intact (h : m.InUse) : ∀ n, m.depth ≤ n → m.IntactWithin n := by
  induction h with
  | chars name rule => exact fun _ _ => intactWithin_of_leaf (isBroken_mk _) fun _ => trivial
  | words h =>
    obtain ⟨w, -, rfl⟩ := exists_of_map_eq_ok h
    exact fun _ _ => intactWithin_of_leaf (isBroken_mk _) fun _ => trivial
  | custom k => exact fun _ _ => intactWithin_of_leaf (isBroken_mk _) fun _ => trivial
  | choice _ h ih =>
    obtain ⟨made, hmake, rfl⟩ := exists_of_map_eq_ok h
    obtain ⟨hfresh, rfl⟩ := Choice.fresh_of_make hmake
    rintro (_ | n) hn
    · rw [depth_mk] at hn
      omega
    · have hmembers : ∀ a ∈ made.members, a.IntactWithin n := fun a ha =>
        ih a ha n (depth_le_of_mem (l := .choice made) ha hn)
      rw [← hfresh]
      exact Choice.intact_fresh hmembers fun a => IntactWithin.unbroken
  | chain _ h ih =>
    obtain ⟨made, hmake, rfl⟩ := exists_of_map_eq_ok h
    obtain ⟨rfl, -⟩ := Chain.eq_of_make hmake
    rintro (_ | n) hn
    · rw [depth_mk] at hn
      omega
    · refine .going ⟨rfl, fun group hgroup a ha => ?_⟩ fun _ => nofun
      refine ih group hgroup a ha n (depth_le_of_mem (l := .chain _) ?_ hn)
      exact List.mem_flatten_of_mem hgroup ha
  | copy m => exact fun n _ => intactWithin_copy n m
  | reset m => exact fun n _ => intactWithin_reset n m
  | @accept m c cur _ hgoes ih =>
    intro n hn
    have hdepth : (m.accept c cur).state.depth = m.depth := depth_acceptWithin m.depth m c cur
    rw [hdepth] at hn
    rw [← acceptWithin_eq hn] at hgoes ⊢
    rcases (spares_acceptWithin n).offer m c cur (ih n hn) with hintact | hfails
    · exact hintact
    · rcases hgoes with haccepted | hunfailed
      · cases hfails.refused.symm.trans haccepted
      · cases hfails.failed.symm.trans hunfailed

theorem InUse.unbroken_accept (h : m.InUse) (c : Char) (cur : Cursor) :
    (m.accept c cur).state.isBroken = false := by
  have hintact := (spares_acceptWithin m.depth).offer_unbroken m c cur (h.intact m.depth le_rfl)
  exact hintact

/-- Where a matcher comes back with an answer, whatever its state was and whatever becomes of the
character, the cursor is over the same text and at the same offset as before. A matcher in use does come
back. -/
theorem accept_leaves_cursor [LawfulCursor κ] (m : Matcher κ) (c : Char) (cur : Cursor) :
    (∀ r, m.accept? c cur = some r → r.cursor.source = cur.source ∧ r.cursor.offset = cur.offset) ∧
      (m.InUse → ∃ r, m.accept? c cur = some r) := by
  constructor
  · intro r hr
    rw [accept?] at hr
    split at hr
    · cases hr
    · cases hr
      rw [cursor_accept]
      exact ⟨rfl, rfl⟩
  · intro h
    rw [accept?, h.unbroken_accept]
    exact ⟨_, rfl⟩

theorem accept_leaves_cursor_skipping :
    let two : Matcher FixedMatcher := mk (.custom { name := "two", size := 2, firstChars := none })
    let run : Matcher FixedMatcher := .chars "run" (.run (.range 'a' 'z') (.range 'a' 'z'))
    let row : Matcher FixedMatcher :=
      mk (.chain { name := "row", rule := .skipping, groups := [[run], [two, run]] })
    let cur := (Cursor.ofString "a-b").skip 1
    let m := (row.accept 'a' cur).state
    m.InUse ∧ ∃ r, m.accept? '-' (cur.skip 1) = some r ∧ r.cursor.source = #['a', '-', 'b'] ∧
      r.cursor.offset = 2 := by
  -- the run ends with the `-`, which the members after it are offered as well
  intro two run row cur m
  have hmade : Matcher.chain "row" .skipping [[run], [two, run]] false = .ok row := rfl
  have hrow : row.InUse := by
    refine .chain ?_ hmade
    simp only [List.forall_mem_cons]
    exact ⟨⟨.chars .., nofun⟩, ⟨.custom _, .chars .., nofun⟩, nofun⟩
  have hm : m.InUse := .accept 'a' cur hrow (.inl (by decide +kernel))
  obtain ⟨hleaves, hcomes⟩ := accept_leaves_cursor m '-' (cur.skip 1)
  obtain ⟨r, hr⟩ := hcomes hm
  exact ⟨hm, r, hr, hleaves r hr⟩

/-- The inner chain fails with the `z`, and so does the outer one, but only after it has noted where it
would fall back to: behind the `z`, which it does not take. Offered more, it goes on with its second
group and cuts its text there, which is within the `é`. -/
theorem not_accept_leaves_cursor :
    let a : Matcher Empty := .chars "a" (.one (.singleton 'a'))
    let bc : Matcher Empty := mk (.words { name := "bc", rule := .longest, words := [['b', 'c']] })
    let eq : Matcher Empty := mk (.words { name := "eq", rule := .longest, words := [['é', 'q']] })
    let inner : Matcher Empty :=
      mk (.chain { name := "inner", rule := .suffixed, groups := [[a], [bc]] })
    let outer : Matcher Empty :=
      mk (.chain { name := "outer", rule := .suffixed, groups := [[inner], [eq]] })
    let text := ['a', 'b', 'z', 'é', 'w']
    let m := outer.actAll [.accept 'a' (.past text 1), .accept 'b' (.past text 2),
      .accept 'z' (.past text 3), .accept 'é' (.past text 4)]
    m.Arises ∧ ¬∃ r, m.accept? 'w' (.past text 5) = some r := by
  intro a bc eq inner outer text m
  have hbc : Matcher.words "bc" .longest ["bc"] = .ok bc := rfl
  have heq : Matcher.words "eq" .longest ["éq"] = .ok eq := rfl
  have hinner : Matcher.chain "inner" .suffixed [[a], [bc]] false = .ok inner := rfl
  have houter : Matcher.chain "outer" .suffixed [[inner], [eq]] false = .ok outer := rfl
  have hinner : inner.Arises := by
    refine .chain ?_ hinner
    simp only [List.forall_mem_cons]
    exact ⟨⟨.chars .., nofun⟩, ⟨.words hbc, nofun⟩, nofun⟩
  have houter : outer.Arises := by
    refine .chain ?_ houter
    simp only [List.forall_mem_cons]
    exact ⟨⟨hinner, nofun⟩, ⟨.words heq, nofun⟩, nofun⟩
  have hbroken : (m.accept 'w' (.past text 5)).state.isBroken = true := by decide +kernel
  refine ⟨houter.actAll _, ?_⟩
  rintro ⟨r, hr⟩
  rw [accept?, hbroken] at hr
  cases hr

end Matcher

end Lexing
