import Lexing.Proofs.Chain.Entering
import Lexing.Proofs.Chain.FirstGroup
import Lexing.Proofs.Matcher.Broken

/-!
The way of a chain with suffixes or separators through its groups. What it has taken is whole groups
and then a part of the one that it is in (`Along`). It is complete behind whole groups, but also
where its look-ahead fails inside a group (`Ended`).
-/

namespace Lexing

theorem takeBytes_of_prefix {s t : List Char} (h : s <+: t) : takeBytes (utf8Length s) t = s := by
  obtain ⟨t, rfl⟩ := h
  induction s with
  | nil =>
    cases t with
    | nil => rfl
    | cons c t => exact if_neg (Nat.not_le_of_lt c.utf8Size_pos)
  | cons c s ih =>
    have hsize : utf8Length (c :: s) = c.utf8Size + utf8Length s := rfl
    rw [hsize, List.cons_append, takeBytes, if_pos (Nat.le_add_right ..), Nat.add_sub_cancel_left, ih]

theorem slice_prefix_slice {text : List Char} {i j k : Nat} (h : k ≤ j) :
    slice text i k <+: slice text i j := by
  rw [slice, slice, List.drop_take, List.drop_take]
  exact List.take_prefix_take_left (Nat.sub_le_sub_right h i)

def Matcher.Refuses {κ : Type} [CustomMatcher κ] (a : Matcher κ) (text : List Char) (j : Nat) : Prop :=
  ∀ c, text[j]? = some c → (a.accept c (.past text (j + 1))).accepted = false

namespace Chain

section Way

variable {α : Type}

def nextGroup? (m : Chain α) (g : Nat) : Option Nat :=
  if m.rule = .separated then some (if g = 0 then 1 % m.groups.length else 0)
  else if g + 1 < m.groups.length then some (g + 1)
  else none

def completes (m : Chain α) (g : Nat) : Bool := m.rule ≠ .separated || g = 0

/-- The members that the chain passes on its way to group `g`. -/
inductive Passed (G : Chain α) : Nat → List α → Prop
  | start : Passed G 0 []
  | next {g g' : Nat} {done group : List α} : Passed G g done → G.groups[g]? = some group →
      G.nextGroup? g = some g' → Passed G g' (done ++ group)

inductive Whole (G : Chain α) : List α → Prop
  | mk {g : Nat} {done group : List α} : Passed G g done → G.groups[g]? = some group →
      G.completes g = true → Whole G (done ++ group)

variable {G : Chain α} {g g' : Nat} {done : List α}

theorem completes_of_nextGroup? (h : G.nextGroup? g = some g') (hg' : g' ≠ 0) :
    G.completes g = true := by
  rw [nextGroup?] at h
  by_cases hrule : G.rule = .separated
  · rw [if_pos hrule, Option.some.injEq] at h
    by_cases hg : g = 0
    · simp [completes, hg]
    · rw [if_neg hg] at h
      exact absurd h.symm hg'
  · simp [completes, hrule]

theorem Passed.whole (h : G.Passed g done) (hg : g ≠ 0) : G.Whole done := by
  cases h with
  | start => exact absurd rfl hg
  | next hpassed hgroup hnext => exact .mk hpassed hgroup (completes_of_nextGroup? hnext hg)

theorem nextGroup?_lt (h : G.nextGroup? g = some g') (hne : G.groups ≠ []) :
    g' < G.groups.length := by
  have hpos : 0 < G.groups.length := List.length_pos_iff.2 hne
  rw [nextGroup?] at h
  split at h
  · cases h
    split
    · exact Nat.mod_lt 1 hpos
    · exact hpos
  · split at h
    · next hlt =>
      cases h
      exact hlt
    · cases h

theorem length_eq_one_of_nextGroup? (h : G.nextGroup? g = some 0) (hg : G.completes g = true) :
    G.rule = .separated ∧ G.groups.length = 1 := by
  rw [nextGroup?] at h
  split at h
  · next hrule =>
    simp only [completes, hrule, ne_eq, not_true, decide_false, Bool.false_or,
      decide_eq_true_eq] at hg
    rw [if_pos hg, Option.some.injEq, Nat.one_mod_eq_zero_iff] at h
    exact ⟨hrule, h⟩
  · split at h
    · cases h
    · cases h

theorem completes_of_nextGroup?_eq_none (h : G.nextGroup? g = none) : G.completes g = true := by
  rw [nextGroup?] at h
  split at h
  · cases h
  · next hrule => simp [completes, hrule]

theorem bytes_settle {s : Chain α} {text : List Char} {i j : Nat} {c : Char}
    (hcomplete : s.complete = true) (htext : s.text = slice text i j) (hij : i ≤ j)
    (hc : text[j]? = some c) :
    ∀ t, (s.settle c).settled = some t → t.bytes = utf8Length (slice text i (j + 1)) := by
  intro t ht
  rw [settle, if_pos hcomplete] at ht
  cases ht
  rw [slice_succ hij hc, ← htext, utf8Length_append]
  simp [utf8Length]

end Way

variable {κ : Type} [CustomMatcher κ] {G m s n : Chain (Matcher κ)} {text : List Char} {i j k : Nat}
  {c : Char} {done group : List (Matcher κ)}

section Advance

variable [LawfulCopy κ] (hgroups : m.recycleCurrent.groups = G.groups)

include hgroups in
omit [LawfulCopy κ] in
theorem groupSize_recycleCurrent (hgroup : G.groups[m.group]? = some group) :
    m.recycleCurrent.groupSize = group.length := by
  rw [groupSize, hgroups, show m.recycleCurrent.group = m.group from rfl, hgroup]
  rfl

include hgroups in
omit [LawfulCopy κ] in
theorem advance_of_lt (hgroup : G.groups[m.group]? = some group)
    (h : m.index + 1 < group.length) :
    m.advance.2 = { m.recycleCurrent with index := m.index + 1 } := by
  have hsize := groupSize_recycleCurrent hgroups hgroup
  exact congrArg Prod.snd (if_pos (hsize ▸ h))

include hgroups in
theorem advance_of_le (hG : ∀ a ∈ G.members, a.copy = a) (hrule : m.rule = G.rule)
    (hgroup : G.groups[m.group]? = some group) (h : group.length ≤ m.index + 1) :
    m.advance.2 = match G.nextGroup? m.group with
      | some g =>
        { m.recycleCurrent with
          group := g, index := 0, complete := m.complete || G.completes m.group }
      | none => { m.recycleCurrent with index := 0, complete := true, active := false } := by
  have hsize : ¬m.recycleCurrent.index + 1 < m.recycleCurrent.groupSize := by
    rw [groupSize_recycleCurrent hgroups hgroup]
    exact Nat.not_lt_of_le h
  have hadvanced := groups_advance hG hgroups
  have hwhole : ∀ g : Nat, (G.groups[g]?.any (List.any · Member.isBroken)) = false := by
    intro g
    cases hg : G.groups[g]? with
    | none => rfl
    | some group =>
      refine List.any_eq_false.2 fun a ha hbroken => ?_
      have hcopy := hG a (List.mem_flatten_of_mem (List.mem_of_getElem? hg) ha)
      cases (hcopy ▸ Matcher.isBroken_copy a : a.isBroken = false).symm.trans hbroken
  have hrule : m.recycleCurrent.rule = G.rule := hrule
  have hgroup : m.recycleCurrent.group = m.group := rfl
  have hcomplete : m.recycleCurrent.complete = m.complete := rfl
  rw [advance] at hadvanced ⊢
  generalize m.recycleCurrent = s at *
  simp only [if_neg hsize, hrule, hgroup, hcomplete, hgroups] at hadvanced ⊢
  rw [nextGroup?, completes]
  by_cases hseparated : G.rule = .separated
  · simp only [if_pos hseparated] at hadvanced ⊢
    rw [hadvanced, hwhole, ← hgroups]
    simp [hseparated]
  · simp only [if_neg hseparated]
    split
    · simp [hseparated]
    · simp

end Advance

/-- What a chain that has moved on to `s` makes of the next character: a later group is entered with
it or not at all. -/
inductive Looked (text : List Char) (j : Nat) (s : Chain (Matcher κ)) : Chain (Matcher κ) → Prop
  | first : s.group = 0 → Looked text j s s
  | entered (broken : Bool) : s.group ≠ 0 → s.active = true → Looked text j s { s.reopen with broken }
  | shut (broken : Bool) : s.group ≠ 0 →
      (s.active = true → ∀ a, s.current = some a → a.Refuses text j) →
      Looked text j s { s.close with broken }
  | ended : s.group ≠ 0 → s.rule ≠ .suffixed → (s.active = true → text.length ≤ j) → Looked text j s s

theorem looked_enter [LawfulCopy κ] (hG : ∀ a ∈ G.members, a.copy = a)
    (hs : (m.commit.advance.2.settle c).groups = G.groups) :
    Looked text j (m.commit.advance.2.settle c) (m.enter Matcher.accept c (.past text j)).1 := by
  rw [enter]
  generalize m.commit.advance.2.settle c = s at hs
  dsimp only
  split
  · next hgroup => exact .first hgroup
  · next hgroup =>
    split
    · next hnext =>
      have hactive : s.active = true := (Bool.and_eq_true_iff.1 hnext).1
      obtain ⟨broken, hstate⟩ := exists_state_tryNext hG hs (.past text j)
      rw [hstate]
      split
      · exact .entered broken hgroup hactive
      · next hrefused =>
        refine .shut broken hgroup fun _ a ha d hd => eq_false_of_ne_true fun htaken => hrefused ?_
        simp only [tryNext, Cursor.read?_past, hd, Option.map_some, offerCurrent_of_current ha]
        exact htaken
    · next hnext =>
      have hend : s.active = true → text.length ≤ j := by
        intro hactive
        rw [hactive, Bool.true_and, Cursor.hasNext_past, decide_eq_true_eq] at hnext
        exact Nat.le_of_not_lt hnext
      split
      · refine .shut s.broken hgroup fun hactive a _ d hd => ?_
        have hlt := (List.getElem?_eq_some_iff.1 hd).1
        exact absurd (hend hactive) (Nat.not_le_of_lt hlt)
      · next hrule => exact .ended hgroup hrule hend

/-- The end of what a complete chain has taken from offset `i` on, when it has seen the text up to
`j`. -/
inductive Ended (G : Chain (Matcher κ)) (text : List Char) (i j : Nat) : Nat → Prop
  | whole {k : Nat} {done : List (Matcher κ)} : G.Whole done → Matcher.Matches text i done k →
      Ended G text i j k
  /-- The look-ahead has failed behind the first `p` members of a later group. -/
  | inside {g p k : Nat} {done group : List (Matcher κ)} {a : Matcher κ} : G.Passed g done → g ≠ 0 →
      Matcher.Matches text i done k → G.groups[g]? = some group →
      Matcher.Matches text k (group.take p) j → group[p]? = some a → a.Refuses text j →
      Ended G text i j j
  /-- Elements without separators: the next element has been begun. -/
  | again {p k e : Nat} {done group : List (Matcher κ)} {a b : Matcher κ} : G.rule = .separated →
      G.groups = [group] → G.Whole done → Matcher.Matches text i done k →
      Matcher.Matches text k (group.take p) e → group[p]? = some a →
      Matcher.Takes Matcher.Waiting text a.copy e j b → Ended G text i j j

/-- The chain has passed `done`, up to offset `k`, and is in `group`. -/
structure Along (m G : Chain (Matcher κ)) (text : List Char) (i j : Nat)
    (done group : List (Matcher κ)) (k : Nat) : Prop where
  rule_eq : m.rule = G.rule
  active : m.active = true
  unfailed : m.failed = false
  text_eq : m.text = slice text i j
  groups_eq : m.recycleCurrent.groups = G.groups
  passed : G.Passed m.group done
  group_eq : G.groups[m.group]? = some group
  before : Matcher.Matches text i done k
  current : ∃ a b e, m.current = some b ∧ group[m.index]? = some a ∧
    Matcher.Matches text k (group.take m.index) e ∧ Matcher.Takes Matcher.Waiting text a.copy e j b
  settled : m.group ≠ 0 → ∀ s, m.settled = some s → s.bytes = utf8Length (slice text i k)
  complete : m.complete = true → G.Whole done ∧
    (G.rule = .separated ∧ G.groups.length = 1 ∨ k = j ∧ text.length ≤ j)

structure Stopped (m G : Chain (Matcher κ)) (text : List Char) (i j : Nat) : Prop where
  inactive : m.active = false
  text_eq : m.text = slice text i j
  ended : G.Ended text i j j

structure Moved (s G : Chain (Matcher κ)) (text : List Char) (i j : Nat)
    (done group : List (Matcher κ)) (k : Nat) : Prop where
  rule_eq : s.rule = G.rule
  active : s.active = true
  unfailed : s.failed = false
  text_eq : s.text = slice text i j
  groups_eq : s.groups = G.groups
  passed : G.Passed s.group done
  group_eq : G.groups[s.group]? = some group
  before : Matcher.Matches text i done k
  index_lt : s.index < group.length
  piece : Matcher.Matches text k (group.take s.index) (j + 1)
  settled : s.group ≠ 0 → ∀ t, s.settled = some t → t.bytes = utf8Length (slice text i k)
  complete : s.complete = true → G.Whole done ∧
    (G.rule = .separated ∧ G.groups.length = 1 ∨ s.group ≠ 0 ∧ k = j + 1)

theorem Along.le (h : m.Along G text i j done group k) : i ≤ k ∧ k ≤ j := by
  obtain ⟨a, b, e, -, -, hpiece, htakes⟩ := h.current
  exact ⟨h.before.le, Nat.le_trans hpiece.le htakes.le⟩

theorem Along.whole_of_complete (h : m.Along G text i j done group k) (hc : text[j]? = some c)
    (hcomplete : m.complete = true) :
    G.Whole done ∧ G.rule = .separated ∧ G.groups.length = 1 ∧ m.group = 0 := by
  obtain ⟨hwhole, hone | ⟨-, hend⟩⟩ := h.complete hcomplete
  · have hlt := (List.getElem?_eq_some_iff.1 h.group_eq).1
    exact ⟨hwhole, hone.1, hone.2, by omega⟩
  · have hlt := (List.getElem?_eq_some_iff.1 hc).1
    exact absurd hend (Nat.not_le_of_lt hlt)

theorem Along.ended (h : m.Along G text i j done group k) (hcomplete : m.complete = true) :
    G.Ended text i j j := by
  obtain ⟨hwhole, ⟨hrule, hone⟩ | ⟨rfl, -⟩⟩ := h.complete hcomplete
  · obtain ⟨a, b, e, -, ha, hpiece, htakes⟩ := h.current
    obtain ⟨group', hgroups⟩ := List.length_eq_one_iff.1 hone
    have hgroup : group' = group := by
      have hmem := List.mem_of_getElem? h.group_eq
      rw [hgroups] at hmem
      exact (List.mem_singleton.1 hmem).symm
    exact .again hrule (hgroup ▸ hgroups) hwhole h.before hpiece ha htakes
  · exact .whole hwhole h.before

namespace Moved

theorem exists_current (h : s.Moved G text i j done group k) (hG : ∀ a ∈ G.members, a.copy = a) :
    ∃ a, s.current = some a ∧ group[s.index]? = some a ∧ a.copy = a := by
  refine ⟨group.get ⟨s.index, h.index_lt⟩, ?_, List.getElem?_eq_getElem h.index_lt, ?_⟩
  · rw [current, h.groups_eq, h.group_eq]
    exact List.getElem?_eq_getElem h.index_lt
  · exact hG _ (List.mem_flatten.2 ⟨group, List.mem_of_getElem? h.group_eq, List.get_mem ..⟩)

theorem along [LawfulCopy κ] (h : s.Moved G text i j done group k)
    (hG : ∀ a ∈ G.members, a.copy = a) (hij : i ≤ j) (hc : text[j]? = some c) (complete : Bool)
    (hcomplete : complete = true → G.Whole done ∧
      (G.rule = .separated ∧ G.groups.length = 1 ∨ k = j + 1 ∧ text.length ≤ j + 1))
    (broken : Bool) (cur : Cursor) :
    (finish true { s with complete, broken } c cur).state.Along G text i (j + 1) done group k where
  rule_eq := h.rule_eq
  active := h.active
  unfailed := h.unfailed
  text_eq := by
    rw [text_finish_true, slice_succ hij hc, ← h.text_eq]
    rfl
  groups_eq := groups_recycleCurrent hG h.groups_eq
  passed := h.passed
  group_eq := h.group_eq
  before := h.before
  current := by
    obtain ⟨a, hcurrent, ha, hcopy⟩ := h.exists_current hG
    refine ⟨a, a, j + 1, hcurrent, ha, h.piece, ?_⟩
    rw [hcopy]
    exact .start
  settled := h.settled
  complete := hcomplete

theorem looked [LawfulCopy κ] (h : s.Moved G text i j done group k)
    (hG : ∀ a ∈ G.members, a.copy = a) (hij : i ≤ j) (hc : text[j]? = some c)
    (hn : Looked text (j + 1) s n) (cur : Cursor) :
    (∃ done group k, (finish true n c cur).state.Along G text i (j + 1) done group k) ∨
      (finish true n c cur).state.Stopped G text i (j + 1) := by
  cases hn with
  | first hgroup =>
    refine .inl ⟨done, group, k, h.along hG hij hc s.complete ?_ s.broken cur⟩
    intro hcomplete
    obtain ⟨hwhole, hone | ⟨hgroup', -⟩⟩ := h.complete hcomplete
    · exact ⟨hwhole, .inl hone⟩
    · exact absurd hgroup hgroup'
  | entered =>
    exact .inl ⟨done, group, k, h.along hG hij hc false nofun _ cur⟩
  | shut _ hgroup hrefuses =>
    right
    refine ⟨rfl, ?_, ?_⟩
    · rw [text_finish_true, slice_succ hij hc, ← h.text_eq]
      rfl
    · obtain ⟨a, hcurrent, ha, -⟩ := h.exists_current hG
      exact .inside h.passed hgroup h.before h.group_eq h.piece ha (hrefuses h.active a hcurrent)
  | ended hgroup _ hend =>
    refine .inl ⟨done, group, k, h.along hG hij hc s.complete ?_ s.broken cur⟩
    intro hcomplete
    obtain ⟨hwhole, hone | ⟨-, hk⟩⟩ := h.complete hcomplete
    · exact ⟨hwhole, .inl hone⟩
    · exact ⟨hwhole, .inr ⟨hk, hend h.active⟩⟩

end Moved

namespace Along

variable [LawfulCopy κ] (h : m.Along G text i j done group k) (hc : text[j]? = some c)
  {groups : List (List (Matcher κ))} {span : Option Span}
  (hgroups : ({ m with groups, span } : Chain (Matcher κ)).recycleCurrent.groups = G.groups)
include h hc hgroups

omit [LawfulCopy κ] in
theorem moved_of_lt (hlt : m.index + 1 < group.length)
    (hpiece : Matcher.Matches text k (group.take (m.index + 1)) (j + 1)) :
    (({ m with groups, span } : Chain (Matcher κ)).advance.2.settle c).Moved G text i j done group
      k := by
  rw [advance_of_lt hgroups h.group_eq hlt, settle_eq]
  refine ⟨h.rule_eq, h.active, h.unfailed, h.text_eq, hgroups, h.passed, h.group_eq, h.before, hlt,
    hpiece, ?_, ?_⟩
  · intro hgroup t ht
    cases hcomplete : m.complete with
    | true => exact absurd (h.whole_of_complete hc hcomplete).2.2.2 hgroup
    | false =>
      rw [settle, if_neg (by simp [recycleCurrent, modifyCurrent, hcomplete])] at ht
      exact h.settled hgroup t ht
  · intro hcomplete
    obtain ⟨hwhole, hseparated, hone, -⟩ := h.whole_of_complete hc hcomplete
    exact ⟨hwhole, .inl ⟨hseparated, hone⟩⟩

theorem moved_or_stopped_of_le (hG : ∀ a ∈ G.members, a.copy = a) (hne : [] ∉ G.groups)
    (hle : group.length ≤ m.index + 1) (hpiece : Matcher.Matches text k group (j + 1)) :
    let s := ({ m with groups, span } : Chain (Matcher κ)).advance.2.settle c
    (∃ done group k, s.Moved G text i j done group k) ∨
      s.active = false ∧ s.text = slice text i j ∧ G.Ended text i (j + 1) (j + 1) := by
  have hbefore := h.before.append hpiece
  have hadvanced := advance_of_le hgroups hG h.rule_eq h.group_eq hle
  dsimp only at hadvanced ⊢
  rw [hadvanced]
  cases hnext : G.nextGroup? m.group with
  | none =>
    right
    dsimp only
    rw [settle_eq]
    have hcompletes := completes_of_nextGroup?_eq_none hnext
    exact ⟨rfl, h.text_eq, .whole (.mk h.passed h.group_eq hcompletes) hbefore⟩
  | some g =>
    left
    dsimp only
    have hlt := nextGroup?_lt hnext (List.ne_nil_of_mem (List.mem_of_getElem? h.group_eq))
    obtain ⟨group', hgroup'⟩ : ∃ group', G.groups[g]? = some group' :=
      ⟨_, List.getElem?_eq_getElem hlt⟩
    have hne' : group' ≠ [] := fun hnil => hne (hnil ▸ List.mem_of_getElem? hgroup')
    rw [settle_eq]
    refine ⟨done ++ group, group', j + 1, h.rule_eq, h.active, h.unfailed, h.text_eq, hgroups,
      .next h.passed h.group_eq hnext, hgroup', hbefore, List.length_pos_iff.2 hne', .nil, ?_, ?_⟩
    · intro hg
      refine bytes_settle ?_ ?_ (Nat.le_trans h.le.1 h.le.2) hc
      · simp [completes_of_nextGroup? hnext hg]
      · exact h.text_eq
    · intro hcomplete
      have hcompletes : G.completes m.group = true := by
        rcases Bool.or_eq_true_iff.1 hcomplete with hcomplete | hcompletes
        · simp [completes, (h.whole_of_complete hc hcomplete).2.2.2]
        · exact hcompletes
      refine ⟨.mk h.passed h.group_eq hcompletes, ?_⟩
      by_cases hg : g = 0
      · exact .inl (length_eq_one_of_nextGroup? (hg ▸ hnext) hcompletes)
      · exact .inr ⟨hg, rfl⟩

end Along

theorem Looked.of_inactive (h : Looked text j s n) (hactive : s.active = false) :
    n.active = false ∧ n.text = s.text := by
  cases h with
  | first => exact ⟨hactive, rfl⟩
  | entered _ _ hactive' => exact absurd hactive' (by simp [hactive])
  | shut => exact ⟨rfl, rfl⟩
  | ended => exact ⟨hactive, rfl⟩

theorem accept_of_entering (hactive : m.active = true)
    (hrule : m.rule = .suffixed ∨ m.rule = .separated) (cur : Cursor) :
    m.accept Matcher.accept c cur = m.acceptEntering Matcher.accept c cur := by
  rw [Chain.accept, hactive]
  rcases hrule with hrule | hrule <;> simp only [hrule] <;> rfl

theorem exists_settled_of_fallBack (h : m.fallBack.isComplete = true) :
    ∃ s, m.settled = some s ∧ m.fallBack.text = takeBytes s.bytes m.text := by
  have hsettled : m.recycleCurrent.settled = m.settled := rfl
  rw [fallBack, hsettled] at h ⊢
  cases hs : m.settled with
  | none => simp [hs, isComplete] at h
  | some s => exact ⟨s, rfl, by simp [close, text, recycleCurrent, modifyCurrent]⟩

namespace Along

theorem stay (h : m.Along G text i j done group k) (hc : text[j]? = some c)
    {a b : Matcher κ} {e : Nat}
    (hb : (m.modifyCurrent fun _ => b).current = some b) (ha : group[m.index]? = some a)
    (hpiece : Matcher.Matches text k (group.take m.index) e)
    (htakes : Matcher.Takes Matcher.Waiting text a.copy e (j + 1) b)
    (hgroups : (m.modifyCurrent fun _ => b).recycleCurrent.groups = G.groups) (cur : Cursor) :
    (finish true (m.modifyCurrent fun _ => b) c cur).state.Along G text i (j + 1) done group k where
  rule_eq := h.rule_eq
  active := h.active
  unfailed := h.unfailed
  text_eq := by
    rw [text_finish_true, slice_succ (Nat.le_trans h.le.1 h.le.2) hc, ← h.text_eq]
    rfl
  groups_eq := hgroups
  passed := h.passed
  group_eq := h.group_eq
  before := h.before
  current := ⟨a, b, e, hb, ha, hpiece, htakes⟩
  settled := h.settled
  complete hcomplete := by
    obtain ⟨hwhole, hseparated, hone, -⟩ := h.whole_of_complete hc hcomplete
    exact ⟨hwhole, .inl ⟨hseparated, hone⟩⟩

theorem leave [LawfulCopy κ] (h : m.Along G text i j done group k)
    (hG : ∀ a ∈ G.members, a.copy = a) (hne : [] ∉ G.groups) (hc : text[j]? = some c) {b : Matcher κ}
    (hpiece : Matcher.Matches text k (group.take (m.index + 1)) (j + 1))
    (hgroups : (m.modifyCurrent fun _ => b).recycleCurrent.groups = G.groups) (cur : Cursor) :
    let n := ((m.modifyCurrent fun _ => b).enter Matcher.accept c (.past text (j + 1))).1
    (∃ done group k, (finish true n c cur).state.Along G text i (j + 1) done group k) ∨
      (finish true n c cur).state.Stopped G text i (j + 1) := by
  have hij := Nat.le_trans h.le.1 h.le.2
  generalize hM : (m.modifyCurrent fun _ => b) = M at hgroups ⊢
  have hcommit : M.commit = { m with groups := M.groups, span := M.commit.span } := by
    rw [commit_eq, ← hM]
    rfl
  have hgroups : M.commit.recycleCurrent.groups = G.groups := by
    rw [commit_eq]
    exact hgroups
  have hs : (M.commit.advance.2.settle c).groups = G.groups := by
    rw [settle_eq]
    exact groups_advance hG hgroups
  have hlooked : Looked text (j + 1) (M.commit.advance.2.settle c)
      (M.enter Matcher.accept c (.past text (j + 1))).1 := looked_enter hG hs
  rw [hcommit] at hgroups hlooked
  dsimp only
  by_cases hlt : m.index + 1 < group.length
  · exact (h.moved_of_lt hc hgroups hlt hpiece).looked hG hij hc hlooked cur
  · have hle : group.length ≤ m.index + 1 := Nat.le_of_not_lt hlt
    rw [List.take_of_length_le hle] at hpiece
    rcases h.moved_or_stopped_of_le hc hgroups hG hne hle hpiece with
      ⟨done, group, k, hmoved⟩ | ⟨hactive, htext, hended⟩
    · exact hmoved.looked hG hij hc hlooked cur
    · obtain ⟨hinactive, hsame⟩ := hlooked.of_inactive hactive
      refine .inr ⟨hinactive, ?_, hended⟩
      rw [text_finish_true, slice_succ hij hc, hsame, htext]

variable (h : m.Along G text i j done group k)
  (hentering : G.rule = .suffixed ∨ G.rule = .separated)
include h hentering

theorem accept [LawfulCopy κ] [LawfulCursor κ] (hG : ∀ a ∈ G.members, a.copy = a)
    (hne : [] ∉ G.groups) (hc : text[j]? = some c)
    (htaken : (m.accept Matcher.accept c (.past text (j + 1))).accepted = true) :
    (∃ done group k, (m.accept Matcher.accept c (.past text (j + 1))).state.Along G text i (j + 1)
      done group k) ∨
      (m.accept Matcher.accept c (.past text (j + 1))).state.Stopped G text i (j + 1) := by
  obtain ⟨a, b, e, hb, ha, hpiece, htakes⟩ := h.current
  have hrecycled := groups_recycleCurrent_offerCurrent m c (.past text (j + 1))
  rw [accept_of_entering h.active (h.rule_eq ▸ hentering), acceptEntering] at htaken ⊢
  rw [offerCurrent_of_current hb] at htaken hrecycled ⊢
  simp only [Reply.map, Matcher.cursor_accept] at htaken hrecycled ⊢
  split
  · next hback =>
    rw [if_pos hback] at htaken
    cases htaken
  · next hback =>
    rw [if_neg hback] at htaken
    have htaken : (b.accept c (.past text (j + 1))).accepted = true := htaken
    have hb' : (m.modifyCurrent fun _ => (b.accept c (.past text (j + 1))).state).current =
        some (b.accept c (.past text (j + 1))).state := by
      rw [current_modifyCurrent, hb]
      rfl
    rw [htaken, currentComplete_of_current hb']
    have hgroups := hrecycled.trans h.groups_eq
    cases hdone : (b.accept c (.past text (j + 1))).state.isComplete with
    | false =>
      left
      exact ⟨done, group, k, h.stay hc hb' ha hpiece (htakes.take hc htaken hdone) hgroups _⟩
    | true =>
      apply h.leave hG hne hc _ hgroups
      rw [List.take_add_one, ha]
      exact hpiece.append (.cons (.mk htakes hc htaken hdone) .nil)

theorem refused {cur : Cursor} (hrefused : (m.accept Matcher.accept c cur).accepted = false)
    (hcomplete : (m.accept Matcher.accept c cur).state.isComplete = true) :
    G.Whole done ∧ (m.accept Matcher.accept c cur).state.text = slice text i k := by
  have hgroup : (m.offerCurrent Matcher.accept c cur).state.group = m.group := group_offerCurrent ..
  have hkept : (m.offerCurrent Matcher.accept c cur).state.kept = m.kept := kept_offerCurrent ..
  rw [accept_of_entering h.active (h.rule_eq ▸ hentering), acceptEntering] at hrefused hcomplete ⊢
  generalize m.offerCurrent Matcher.accept c cur = r at *
  obtain ⟨htaken, hsettled⟩ := Prod.mk.inj hkept
  dsimp only at hrefused hcomplete ⊢
  split
  · next hback =>
    rw [if_pos hback] at hcomplete
    obtain ⟨s, hs, htext⟩ := exists_settled_of_fallBack hcomplete
    have hlater : m.group ≠ 0 := by
      rw [Bool.and_eq_true, decide_eq_true_eq, hgroup] at hback
      exact Nat.ne_of_gt hback.1
    refine ⟨h.passed.whole hlater, ?_⟩
    rw [htext, h.settled hlater s (hsettled.symm.trans hs), Chain.text, htaken]
    rw [show m.taken.reverse = slice text i j from h.text_eq]
    exact takeBytes_of_prefix (slice_prefix_slice h.le.2)
  · next hback =>
    rw [if_neg hback] at hrefused hcomplete
    have hrefused : r.accepted = false := hrefused
    rw [isComplete_finish_of_refused hrefused] at hcomplete
    cases hcomplete

end Along

end Chain

end Lexing
