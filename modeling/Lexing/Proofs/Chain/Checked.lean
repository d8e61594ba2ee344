import Lexing.Proofs.Chain.Sequence

/-!
A chain whose moves are checked: `accept?` has no answer where the chain would read a member at a place
that has none, or where its search for a member takes more than so many steps. A chain that is `Seated`
never comes to that, and stays so (`Seated.accept`). With every step of the search there are fewer
members behind the place, as only a chain with separators goes round.
-/

namespace Lexing

variable {α : Type}

theorem forall_mem_modify {P : α → Prop} {f : α → α} {l : List α} {i : Nat} (h : ∀ a ∈ l, P a)
    (hf : ∀ a, l[i]? = some a → P (f a)) : ∀ a ∈ l.modify i f, P a := by
  intro a ha
  obtain ⟨k, hk⟩ := List.mem_iff_getElem?.1 ha
  rw [List.getElem?_modify] at hk
  obtain ⟨b, hb, rfl⟩ := Option.map_eq_some_iff.1 hk
  split
  · next heq => exact hf b (heq ▸ hb)
  · exact h b (List.mem_of_getElem? hb)

structure Offer.Preserves [Member α] (offer : Offer α) (S : α → Prop) : Prop where
  offer : ∀ a c cur, S a → S (offer a c cur).state
  recycle : ∀ a, S a → S (Member.recycle a)

namespace Chain

def seated? (m : Chain α) : Option (Chain α) := m.current.map fun _ => m

section Checked

variable [Member α] (steps : Nat) (offer : Offer α)

def offerCurrent? (m : Chain α) (c : Char) (cur : Cursor) : Option (Reply (Chain α)) := do
  let m ← m.seated?
  return m.offerCurrent offer c cur

def advance? (m : Chain α) : Option (Bool × Chain α) := do
  let m ← m.seated?
  let s ← m.advance.2.seated?
  return (m.advance.1, s)

def acceptInOrder? (m : Chain α) (c : Char) (cur : Cursor) : Option (Reply (Chain α)) := do
  let r ← m.offerCurrent? offer c cur
  let m ← r.state.seated?
  let s ← (if m.currentComplete then m.commit.moveOn else m).seated?
  return finish r.accepted s c r.cursor

def tryNext? (m : Chain α) (cur : Cursor) : Option (Reply (Chain α)) := do
  let r ← match cur.read? with
    | none => some ⟨false, m, cur⟩
    | some (next, after) => m.offerCurrent? offer next after
  let s ← r.state.seated?
  return ⟨r.accepted, s.recycleCurrent, r.cursor.restore cur.mark⟩

def enter? (m : Chain α) (c : Char) (cur : Cursor) : Option (Chain α × Cursor) := do
  let m ← m.seated?
  let a ← m.commit.advance?
  let m := a.2.settle c
  if m.group = 0 then return (m, cur)
  else if m.active && cur.hasNext then
    let r ← m.tryNext? offer cur
    return (if r.accepted then r.state.reopen else r.state.close, r.cursor)
  else if m.rule = .suffixed then return (m.close, cur)
  else return (m, cur)

def acceptEntering? (m : Chain α) (c : Char) (cur : Cursor) : Option (Reply (Chain α)) := do
  let r ← m.offerCurrent? offer c cur
  let m ← r.state.seated?
  if m.group > 0 && (!r.accepted || m.currentFailed) then return ⟨false, m.fallBack, r.cursor⟩
  else
    let s ← if m.currentComplete then m.enter? offer c r.cursor else some (m, r.cursor)
    return finish r.accepted s.1 c s.2

def seekMember? (peeking : Bool) (next : Char) : Nat → Chain α → Cursor → Option (Reply (Chain α))
  | 0, _, _ => none
  | steps + 1, m, cur => do
    let a ← m.advance?
    if !a.1 then return ⟨false, a.2, cur⟩
    else
      let r ← a.2.offerCurrent? offer next cur
      let m ← r.state.seated?
      let m := if peeking then m.recycleCurrent else m
      if !r.accepted then seekMember? peeking next steps m r.cursor
      else
        let m ← m.reopen.seated?
        if !peeking && m.currentComplete then
          let a ← m.commit.advance?
          return ⟨true, a.2, r.cursor⟩
        else return ⟨true, m, r.cursor⟩

def goOn? (taken complete : Bool) (next : Char) (m : Chain α) (cur : Cursor) :
    Option (Reply (Chain α)) := do
  let r ← if complete then m.offerCurrent? offer next cur else some ⟨false, m, cur⟩
  if r.accepted then
    return ⟨true, { r.state.reopen with ahead := if taken then some next else r.state.ahead },
      r.cursor⟩
  else seekMember? offer taken next steps r.state r.cursor

def offerDue? (m : Chain α) (c : Char) (cur : Cursor) : Option (Reply (Chain α)) :=
  let due := { m with ahead := none }
  if m.ahead = some c then some ⟨true, due, cur⟩ else due.offerCurrent? offer c cur

def acceptSkipping? (m : Chain α) (c : Char) (cur : Cursor) : Option (Reply (Chain α)) := do
  let r ← m.offerDue? offer c cur
  let m ← r.state.seated?
  let complete := m.currentComplete
  if !complete && !m.currentFailed then return finish r.accepted m c r.cursor
  else
    let m := if complete then m.commit else m
    if !r.accepted then
      let s ← m.goOn? steps offer false complete c r.cursor
      return finish s.accepted s.state c (s.cursor.restore r.cursor.mark)
    else
      match r.cursor.read? with
      | some (next, after) =>
        let s ← m.goOn? steps offer true complete next after
        return finish true s.state c (s.cursor.restore r.cursor.mark)
      | none => return finish true (if complete then m.close else m) c r.cursor

/-- As `accept`, but every member that is read has to be there, and the search of a skipping chain may
take at most so many steps. -/
def accept? (m : Chain α) (c : Char) (cur : Cursor) : Option (Reply (Chain α)) :=
  if !m.active then some ⟨false, { m with failed := true }, cur⟩
  else
    match m.rule with
    | .inOrder => m.acceptInOrder? offer c cur
    | .suffixed | .separated => m.acceptEntering? offer c cur
    | .skipping => m.acceptSkipping? steps offer c cur

end Checked

/-- There is a member at the place of the chain; no group is empty, and all members have the
property. -/
structure Seated (m : Chain α) (S : α → Prop) : Prop where
  group_lt : m.group < m.groups.length
  index_lt : m.index < m.groupSize
  filled : ∀ group ∈ m.groups, group ≠ [] ∧ ∀ a ∈ group, S a

variable {S : α → Prop} {m s : Chain α}

theorem seated_of_index_eq_zero (hgroup : m.group < m.groups.length) (hindex : m.index = 0)
    (hfilled : ∀ group ∈ m.groups, group ≠ [] ∧ ∀ a ∈ group, S a) : m.Seated S := by
  refine ⟨hgroup, ?_, hfilled⟩
  rw [hindex, groupSize, List.getElem?_eq_getElem hgroup]
  exact List.length_pos_iff.2 (hfilled _ (List.getElem_mem hgroup)).1

theorem behind_offerDue (offer : Offer α) (m : Chain α) (c : Char) (cur : Cursor) :
    (m.offerDue offer c cur).state.behind = m.behind := by
  rw [offerDue]
  split
  · rfl
  · exact behind_offerCurrent ..

theorem rule_offerDue (offer : Offer α) (m : Chain α) (c : Char) (cur : Cursor) :
    (m.offerDue offer c cur).state.rule = m.rule := by
  rw [offerDue]
  split
  · rfl
  · exact rule_of_frame (m := { m with ahead := none }) (frame_offerCurrent ..)

namespace Seated

theorem exists_current (h : m.Seated S) : ∃ a, m.current = some a := by
  have hindex := h.index_lt
  obtain ⟨group, hgroup⟩ : ∃ group, m.groups[m.group]? = some group :=
    ⟨_, List.getElem?_eq_getElem h.group_lt⟩
  rw [groupSize, hgroup] at hindex
  refine ⟨group.get ⟨m.index, hindex⟩, ?_⟩
  rw [current, hgroup]
  exact List.getElem?_eq_getElem hindex

theorem seated?_eq (h : m.Seated S) : m.seated? = some m := by
  obtain ⟨a, ha⟩ := h.exists_current
  rw [seated?, ha]
  rfl

theorem of_current (h : m.Seated S) {a : α} (ha : m.current = some a) : S a := by
  obtain ⟨group, hgroup, ha⟩ := Option.bind_eq_some_iff.1 ha
  exact (h.filled group (List.mem_of_getElem? hgroup)).2 a (List.mem_of_getElem? ha)

theorem length_behind_lt (h : m.Seated S) : m.behind.length < m.members.length := by
  have hgroup := h.group_lt
  have hindex := h.index_lt
  have hsize : m.groupSize = m.groups[m.group].length := by
    rw [groupSize, List.getElem?_eq_getElem hgroup]
    rfl
  have hsplit : m.members.length = (m.groups.take m.group).flatten.length +
      (m.groups[m.group].length + (m.groups.drop (m.group + 1)).flatten.length) := by
    rw [← List.length_append, ← List.flatten_cons, ← List.drop_eq_getElem_cons,
      ← List.length_append, ← List.flatten_append, List.take_append_drop, members]
  rw [length_behind]
  omega

theorem modifyCurrent (h : m.Seated S) {f : α → α} (hf : ∀ a, m.current = some a → S (f a)) :
    (m.modifyCurrent f).Seated S where
  group_lt := by
    rw [Chain.modifyCurrent, List.length_modify]
    exact h.group_lt
  index_lt := by
    rw [groupSize_modifyCurrent]
    exact h.index_lt
  filled := by
    apply forall_mem_modify h.filled
    intro group hgroup
    obtain ⟨hne, hmembers⟩ := h.filled group (List.mem_of_getElem? hgroup)
    refine ⟨fun hnil => hne ?_, forall_mem_modify hmembers fun a ha => hf a ?_⟩
    · rw [← List.length_eq_zero_iff, ← List.length_modify, hnil]
      rfl
    · rw [current, hgroup]
      exact ha

theorem close (h : m.Seated S) : m.close.Seated S := ⟨h.group_lt, h.index_lt, h.filled⟩

theorem reopen (h : m.Seated S) : m.reopen.Seated S := ⟨h.group_lt, h.index_lt, h.filled⟩

theorem settle (h : m.Seated S) (c : Char) : (m.settle c).Seated S := by
  rw [settle_eq]
  exact ⟨h.group_lt, h.index_lt, h.filled⟩

theorem finish (h : m.Seated S) (accepted : Bool) (c : Char) (cur : Cursor) :
    (Chain.finish accepted m c cur).state.Seated S := by
  rw [Chain.finish]
  split
  · exact ⟨h.group_lt, h.index_lt, h.filled⟩
  · exact ⟨h.group_lt, h.index_lt, h.filled⟩

theorem moveOn (h : m.Seated S) : m.moveOn.Seated S := by
  rw [Chain.moveOn]
  split
  · next hlt => exact ⟨h.group_lt, hlt, h.filled⟩
  · split
    · next hlt => exact seated_of_index_eq_zero hlt rfl h.filled
    · exact h.close

variable [Member α] {offer : Offer α}

theorem commit (h : m.Seated S) : m.commit.Seated S := by
  rw [commit_eq]
  exact ⟨h.group_lt, h.index_lt, h.filled⟩

variable (hS : offer.Preserves S)
include hS

theorem recycleCurrent (h : m.Seated S) : m.recycleCurrent.Seated S := by
  have hrecycled := h.modifyCurrent fun a ha => hS.recycle a (h.of_current ha)
  exact ⟨hrecycled.group_lt, hrecycled.index_lt, hrecycled.filled⟩

theorem offerCurrent (h : m.Seated S) (c : Char) (cur : Cursor) :
    m.offerCurrent? offer c cur = some (m.offerCurrent offer c cur) ∧
      (m.offerCurrent offer c cur).state.Seated S := by
  constructor
  · rw [offerCurrent?, h.seated?_eq]
    rfl
  · obtain ⟨a, ha⟩ := h.exists_current
    rw [offerCurrent_of_current ha]
    exact h.modifyCurrent fun _ _ => hS.offer a c cur (h.of_current ha)

theorem fallBack (h : m.Seated S) : m.fallBack.Seated S := by
  have h := h.recycleCurrent hS
  simp only [Chain.fallBack]
  split
  · exact ⟨h.group_lt, h.index_lt, h.filled⟩
  · exact ⟨h.group_lt, h.index_lt, h.filled⟩

theorem advance (h : m.Seated S) :
    m.advance? = some m.advance ∧ m.advance.2.Seated S := by
  have hadvance : m.advance.2.Seated S := by
    have h := h.recycleCurrent hS
    rw [Chain.advance]
    generalize m.recycleCurrent = m at h
    dsimp only
    split
    · next hlt => exact ⟨h.group_lt, hlt, h.filled⟩
    · have hpos : 0 < m.groups.length := Nat.zero_lt_of_lt h.group_lt
      split
      · apply seated_of_index_eq_zero _ rfl
        · apply forall_mem_modify h.filled
          intro group hgroup
          obtain ⟨hne, hmembers⟩ := h.filled group (List.mem_of_getElem? hgroup)
          refine ⟨by simpa using hne, List.forall_mem_map.2 fun a ha => ?_⟩
          exact hS.recycle a (hmembers a ha)
        · rw [List.length_modify]
          dsimp only
          split
          · exact Nat.mod_lt 1 hpos
          · exact hpos
      · split
        · next hlt => exact seated_of_index_eq_zero hlt rfl h.filled
        · exact ⟨h.group_lt, Nat.zero_lt_of_lt h.index_lt, h.filled⟩
  refine ⟨?_, hadvance⟩
  rw [advance?, h.seated?_eq]
  simp [hadvance.seated?_eq]

theorem length_behind_advance_lt (h : m.Seated S) (hrule : m.rule ≠ .separated)
    (hmore : m.advance.1 = true) : m.advance.2.behind.length < m.behind.length := by
  have h := h.recycleCurrent hS
  have hrule : m.recycleCurrent.rule ≠ .separated := hrule
  have hbehind : m.recycleCurrent.behind = m.behind := behind_modifyCurrent Member.recycle m
  rw [← hbehind, length_behind, length_behind m.recycleCurrent]
  rw [Chain.advance] at hmore ⊢
  generalize m.recycleCurrent = m at *
  dsimp only at hmore ⊢
  by_cases hlt : m.index + 1 < m.groupSize
  · rw [if_pos hlt]
    change m.groupSize - (m.index + 1 + 1) + _ < _
    dsimp only
    omega
  · rw [if_neg hlt, if_neg hrule] at hmore ⊢
    by_cases hnext : m.group + 1 < m.groups.length
    · have hpos : 0 < m.groups[m.group + 1].length :=
        List.length_pos_iff.2 (h.filled _ (List.getElem_mem hnext)).1
      rw [if_pos hnext, List.drop_eq_getElem_cons hnext, List.flatten_cons, List.length_append,
        groupSize, List.getElem?_eq_getElem hnext]
      dsimp only [Option.map_some, Option.getD_some]
      omega
    · rw [if_neg hnext] at hmore
      cases hmore

theorem tryNext (h : m.Seated S) (cur : Cursor) :
    m.tryNext? offer cur = some (m.tryNext offer cur) ∧
      (m.tryNext offer cur).state.Seated S := by
  rw [tryNext?, Chain.tryNext]
  cases cur.read? with
  | none =>
    dsimp only
    rw [Option.bind_eq_bind, Option.bind_some, h.seated?_eq]
    exact ⟨rfl, h.recycleCurrent hS⟩
  | some p =>
    obtain ⟨hoffer, hs⟩ := h.offerCurrent hS p.1 p.2
    dsimp only
    rw [hoffer, Option.bind_eq_bind, Option.bind_some, hs.seated?_eq]
    exact ⟨rfl, hs.recycleCurrent hS⟩

theorem enter (h : m.Seated S) (c : Char) (cur : Cursor) :
    m.enter? offer c cur = some (m.enter offer c cur) ∧ (m.enter offer c cur).1.Seated S := by
  obtain ⟨hadvance, hs⟩ := h.commit.advance hS
  have hs := hs.settle c
  rw [enter?, Chain.enter, h.seated?_eq]
  simp only [Option.bind_eq_bind, Option.bind_some, hadvance]
  generalize m.commit.advance.2.settle c = s at hs
  split
  · exact ⟨rfl, hs⟩
  · split
    · obtain ⟨htry, ht⟩ := hs.tryNext hS cur
      rw [htry]
      refine ⟨rfl, ?_⟩
      dsimp only
      split
      · exact ht.reopen
      · exact ht.close
    · split
      · exact ⟨rfl, hs.close⟩
      · exact ⟨rfl, hs⟩

theorem acceptInOrder (h : m.Seated S) (c : Char) (cur : Cursor) :
    m.acceptInOrder? offer c cur = some (m.acceptInOrder offer c cur) ∧
      (m.acceptInOrder offer c cur).state.Seated S := by
  obtain ⟨hoffer, hr⟩ := h.offerCurrent hS c cur
  rw [acceptInOrder?, Chain.acceptInOrder, hoffer]
  generalize m.offerCurrent offer c cur = r at hr
  have hs : (if r.state.currentComplete then r.state.commit.moveOn else r.state).Seated S := by
    split
    · exact hr.commit.moveOn
    · exact hr
  simp only [Option.bind_eq_bind, Option.bind_some, hr.seated?_eq, hs.seated?_eq]
  exact ⟨rfl, hs.finish ..⟩

theorem acceptEntering (h : m.Seated S) (c : Char) (cur : Cursor) :
    m.acceptEntering? offer c cur = some (m.acceptEntering offer c cur) ∧
      (m.acceptEntering offer c cur).state.Seated S := by
  obtain ⟨hoffer, hr⟩ := h.offerCurrent hS c cur
  rw [acceptEntering?, Chain.acceptEntering, hoffer]
  generalize m.offerCurrent offer c cur = r at hr
  simp only [Option.bind_eq_bind, Option.bind_some, hr.seated?_eq]
  split
  · exact ⟨rfl, hr.fallBack hS⟩
  · split
    · obtain ⟨henter, hs⟩ := hr.enter hS c r.cursor
      rw [henter]
      exact ⟨rfl, hs.finish ..⟩
    · exact ⟨rfl, hr.finish ..⟩

theorem seekMember (h : m.Seated S) (peeking : Bool) (next : Char) {steps fuel : Nat}
    (hrule : m.rule ≠ .separated) (hsteps : m.behind.length < steps)
    (hfuel : m.behind.length < fuel) (cur : Cursor) :
    seekMember? offer peeking next steps m cur =
        some (Chain.seekMember offer peeking next fuel m cur) ∧
      (Chain.seekMember offer peeking next fuel m cur).state.Seated S := by
  -- induction on the steps: each of them is made up for by a member less behind the place
  induction steps generalizing m fuel cur with
  | zero => exact absurd hsteps (Nat.not_lt_zero _)
  | succ steps ih =>
    obtain ⟨fuel, rfl⟩ := Nat.exists_eq_succ_of_ne_zero (Nat.ne_zero_of_lt hfuel)
    obtain ⟨hadvance, hs⟩ := h.advance hS
    have hless := h.length_behind_advance_lt hS hrule
    have hrule : m.advance.2.rule ≠ .separated := rule_of_frame (frame_advance m) ▸ hrule
    rw [seekMember?, Chain.seekMember, hadvance]
    generalize m.advance = a at *
    simp only [Option.bind_eq_bind, Option.bind_some]
    split
    · exact ⟨rfl, hs⟩
    · next hmore =>
      have hless := hless (by simpa using hmore)
      obtain ⟨hoffer, hr⟩ := hs.offerCurrent hS next cur
      have hframe : (a.2.offerCurrent offer next cur).state.frame = a.2.frame :=
        frame_offerCurrent ..
      have hbehind : (a.2.offerCurrent offer next cur).state.behind = a.2.behind :=
        behind_offerCurrent ..
      rw [hoffer]
      generalize a.2.offerCurrent offer next cur = r at *
      generalize hkeep : (if peeking = true then r.state.recycleCurrent else r.state) = t
      obtain ⟨ht, hframe, hbehind⟩ : t.Seated S ∧ t.frame = a.2.frame ∧ t.behind = a.2.behind := by
        rw [← hkeep]
        split
        · exact ⟨hr.recycleCurrent hS, hframe, (behind_modifyCurrent ..).trans hbehind⟩
        · exact ⟨hr, hframe, hbehind⟩
      simp only [Option.bind_some, hr.seated?_eq, hkeep, ht.reopen.seated?_eq]
      split
      · have hrule : t.rule ≠ .separated := rule_of_frame hframe ▸ hrule
        rw [← hbehind] at hless
        exact ih ht hrule (by omega) (by omega) r.cursor
      · split
        · obtain ⟨hadvance, hu⟩ := ht.reopen.commit.advance hS
          rw [hadvance]
          exact ⟨rfl, hu⟩
        · exact ⟨rfl, ht.reopen⟩

theorem goOn (h : m.Seated S) (taken complete : Bool) (next : Char) (hrule : m.rule ≠ .separated)
    {steps : Nat} (hsteps : m.behind.length < steps) (cur : Cursor) :
    m.goOn? steps offer taken complete next cur = some (m.goOn offer taken complete next cur) ∧
      (m.goOn offer taken complete next cur).state.Seated S := by
  have hfuel := h.length_behind_lt
  cases complete with
  | false => exact h.seekMember hS taken next hrule hsteps hfuel cur
  | true =>
    obtain ⟨hoffer, hr⟩ := h.offerCurrent hS next cur
    have hframe : (m.offerCurrent offer next cur).state.frame = m.frame := frame_offerCurrent ..
    have hbehind : (m.offerCurrent offer next cur).state.behind = m.behind := behind_offerCurrent ..
    simp only [goOn?, Chain.goOn, if_true, hoffer, Option.bind_eq_bind, Option.bind_some]
    generalize m.offerCurrent offer next cur = r at *
    split
    · exact ⟨rfl, hr.group_lt, hr.index_lt, hr.filled⟩
    · rw [← hbehind] at hsteps hfuel
      exact hr.seekMember hS taken next (rule_of_frame hframe ▸ hrule) hsteps hfuel r.cursor

theorem offerDue (h : m.Seated S) (c : Char) (cur : Cursor) :
    m.offerDue? offer c cur = some (m.offerDue offer c cur) ∧
      (m.offerDue offer c cur).state.Seated S := by
  have hdue : Seated { m with ahead := none } S := ⟨h.group_lt, h.index_lt, h.filled⟩
  rw [offerDue?, Chain.offerDue]
  split
  · exact ⟨rfl, hdue⟩
  · exact hdue.offerCurrent hS c cur

theorem acceptSkipping (h : m.Seated S) (hrule : m.rule ≠ .separated) {steps : Nat}
    (hsteps : m.behind.length < steps) (c : Char) (cur : Cursor) :
    m.acceptSkipping? steps offer c cur = some (m.acceptSkipping offer c cur) ∧
      (m.acceptSkipping offer c cur).state.Seated S := by
  obtain ⟨hoffer, hr⟩ := h.offerDue hS c cur
  rw [← rule_offerDue offer m c cur] at hrule
  rw [← behind_offerDue offer m c cur] at hsteps
  rw [acceptSkipping?, Chain.acceptSkipping, hoffer]
  generalize m.offerDue offer c cur = r at *
  simp only [Option.bind_eq_bind, Option.bind_some, hr.seated?_eq]
  split
  · exact ⟨rfl, hr.finish ..⟩
  · generalize hs : (if r.state.currentComplete = true then r.state.commit else r.state) = s
    obtain ⟨hs, hrule, hsteps⟩ : s.Seated S ∧ s.rule ≠ .separated ∧ s.behind.length < steps := by
      rw [← hs]
      split
      · refine ⟨hr.commit, ?_, ?_⟩
        · rw [commit_eq]
          exact hrule
        · rw [behind_commit]
          exact hsteps
      · exact ⟨hr, hrule, hsteps⟩
    split
    · obtain ⟨hgo, ht⟩ := hs.goOn hS false r.state.currentComplete c hrule hsteps r.cursor
      rw [hgo]
      exact ⟨rfl, ht.finish ..⟩
    · cases r.cursor.read? with
      | none =>
        refine ⟨rfl, finish ?_ ..⟩
        split
        · exact hs.close
        · exact hs
      | some p =>
        obtain ⟨hgo, ht⟩ := hs.goOn hS true r.state.currentComplete p.1 hrule hsteps p.2
        dsimp only
        rw [hgo]
        exact ⟨rfl, ht.finish ..⟩

theorem accept (h : m.Seated S) {steps : Nat} (hsteps : m.members.length ≤ steps) (c : Char)
    (cur : Cursor) : m.accept? steps offer c cur = some (m.accept offer c cur) ∧
      (m.accept offer c cur).state.Seated S := by
  rw [accept?, Chain.accept]
  split
  · exact ⟨rfl, h.group_lt, h.index_lt, h.filled⟩
  · cases hrule : m.rule with
    | inOrder => exact h.acceptInOrder hS c cur
    | suffixed => exact h.acceptEntering hS c cur
    | separated => exact h.acceptEntering hS c cur
    | skipping =>
      have hskipping : m.rule ≠ .separated := by simp [hrule]
      have hbehind := Nat.lt_of_lt_of_le h.length_behind_lt hsteps
      exact h.acceptSkipping hS hskipping hbehind c cur

end Seated

-- all members refuse the character, and the search ends behind the third of them
example :
    let one : Char → Matcher Empty := fun c => .chars "one" (.one (.singleton c))
    let m : Chain (Matcher Empty) :=
      { name := "row", rule := .skipping, groups := [[one 'a', one 'b'], [one 'c']] }
    (m.accept? 2 Matcher.accept 'x' (.ofString "")).isNone ∧
      (m.accept? 3 Matcher.accept 'x' (.ofString "")).isSome := by
  decide +kernel

end Chain

end Lexing
