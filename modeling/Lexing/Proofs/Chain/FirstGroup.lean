import Lexing.Proofs.Chain.Moves
import Lexing.Proofs.Matcher.Copy
import Lexing.Proofs.Matcher.Takes

namespace Lexing

theorem utf8Length_append (s t : List Char) : utf8Length (s ++ t) = utf8Length s + utf8Length t := by
  induction s with
  | nil => simp [utf8Length]
  | cons c s ih =>
    simp only [utf8Length, List.cons_append, List.foldr_cons] at ih ⊢
    omega

theorem prefix_takeBytes {s t : List Char} {n : Nat} (h : s <+: t) (hn : utf8Length s ≤ n) :
    s <+: takeBytes n t := by
  induction s generalizing t n with
  | nil => exact List.nil_prefix
  | cons c s ih =>
    obtain ⟨rest, rfl⟩ := h
    have hc : c.utf8Size + utf8Length s ≤ n := hn
    rw [List.cons_append, takeBytes, if_pos (by omega), List.prefix_cons_inj]
    exact ih (List.prefix_append s rest) (by omega)

def slice (text : List Char) (i j : Nat) : List Char := (text.take j).drop i

theorem slice_succ {text : List Char} {i j : Nat} {c : Char} (hij : i ≤ j) (h : text[j]? = some c) :
    slice text i (j + 1) = slice text i j ++ [c] := by
  have hj := (List.getElem?_eq_some_iff.1 h).1
  rw [slice, List.take_add_one, h, Option.toList_some, List.drop_append_of_le_length]
  · rfl
  · simp only [List.length_take]
    omega

namespace Chain

variable {α : Type} [Member α] {offer : Offer α}

omit [Member α] in
theorem text_finish_true (m : Chain α) (c : Char) (cur : Cursor) :
    (finish true m c cur).state.text = m.text ++ [c] := by
  simp [finish, text]

/-- All of `taken` was taken, and falling back does not give it back. -/
structure Beyond (taken : List Char) (m : Chain α) : Prop where
  taken_le : taken <+: m.text
  le_settled : ∀ s, m.settled = some s → utf8Length taken ≤ s.bytes

namespace Beyond

variable {taken : List Char} {m s : Chain α}

omit [Member α] in
theorem of_kept (h : m.Beyond taken) (hs : s.kept = m.kept) : s.Beyond taken := by
  obtain ⟨htaken, hsettled⟩ := Prod.mk.inj hs
  constructor
  · rw [text, htaken]
    exact h.taken_le
  · rw [hsettled]
    exact h.le_settled

omit [Member α] in
theorem finish (h : m.Beyond taken) (accepted : Bool) (c : Char) (cur : Cursor) :
    (finish accepted m c cur).state.Beyond taken := by
  cases accepted with
  | false => exact ⟨h.taken_le, h.le_settled⟩
  | true =>
    constructor
    · rw [text_finish_true]
      exact h.taken_le.trans (List.prefix_append ..)
    · exact h.le_settled

omit [Member α] in
theorem settle (h : m.Beyond taken) (c : Char) : (m.settle c).Beyond taken := by
  rw [Chain.settle]
  split
  · refine ⟨h.taken_le, ?_⟩
    intro s hs
    cases hs
    obtain ⟨rest, hrest⟩ := h.taken_le
    simp only
    rw [← hrest, utf8Length_append]
    omega
  · exact h

theorem fallBack (h : m.Beyond taken) : m.fallBack.Beyond taken := by
  have hrecycled : m.recycleCurrent.Beyond taken := h.of_kept rfl
  simp only [Chain.fallBack]
  split
  · exact ⟨hrecycled.taken_le, hrecycled.le_settled⟩
  · next s hs =>
    refine ⟨?_, hrecycled.le_settled⟩
    simp only [close, text, List.reverse_reverse]
    exact prefix_takeBytes hrecycled.taken_le (hrecycled.le_settled s hs)

theorem enter (h : m.Beyond taken) (c : Char) (cur : Cursor) :
    (m.enter offer c cur).1.Beyond taken := by
  have hsettled : (m.commit.advance.2.settle c).Beyond taken := by
    apply settle
    exact h.of_kept (by simp)
  rw [Chain.enter]
  generalize m.commit.advance.2.settle c = s at hsettled
  dsimp only
  split
  · exact hsettled
  · split
    · apply hsettled.of_kept
      split <;> exact kept_tryNext s cur
    · split
      · exact hsettled.of_kept (kept_close s)
      · exact hsettled

theorem accept (h : m.Beyond taken) (hrule : m.rule ≠ .skipping) (c : Char) (cur : Cursor) :
    (m.accept offer c cur).state.Beyond taken := by
  have hoffered : (m.offerCurrent offer c cur).state.Beyond taken :=
    h.of_kept (kept_offerCurrent ..)
  have hentering : (m.acceptEntering offer c cur).state.Beyond taken := by
    simp only [acceptEntering]
    split
    · exact hoffered.fallBack
    · apply finish
      split
      · exact hoffered.enter c _
      · exact hoffered
  rw [Chain.accept]
  split
  · exact ⟨h.taken_le, h.le_settled⟩
  · split
    · simp only [acceptInOrder]
      apply finish
      split
      · exact hoffered.of_kept (by simp)
      · exact hoffered
    · exact hentering
    · exact hentering
    · next hskip => exact absurd hskip hrule

end Beyond

variable (offer) in
theorem accept_first (m : Chain α) (hrule : m.rule ≠ .skipping) (hgroup : m.group = 0)
    (hactive : m.active = true) (c : Char) (cur : Cursor) :
    let r := m.offerCurrent offer c cur
    ∃ s : Chain α, (m.accept offer c cur).accepted = r.accepted ∧
      (m.accept offer c cur).state = (finish r.accepted s c cur).state ∧
      (r.state.currentComplete = false → s = r.state) ∧
      (r.state.currentComplete = true →
        s = r.state.commit.moveOn ∨ s = (r.state.enter offer c r.cursor).1) := by
  intro r
  have hentering : (m.acceptEntering offer c cur).accepted = r.accepted ∧
      (m.acceptEntering offer c cur).state = (finish r.accepted
        (if r.state.currentComplete then (r.state.enter offer c r.cursor).1 else r.state) c cur).state := by
    have hgroup' : r.state.group = 0 := (group_offerCurrent ..).trans hgroup
    simp only [acceptEntering, r, hgroup', Nat.lt_irrefl, gt_iff_lt, decide_false,
      Bool.false_and, Bool.false_eq_true, if_false]
    refine ⟨rfl, ?_⟩
    split <;> rfl
  have hinOrder : (m.acceptInOrder offer c cur).accepted = r.accepted ∧
      (m.acceptInOrder offer c cur).state = (finish r.accepted
        (if r.state.currentComplete then r.state.commit.moveOn else r.state) c cur).state :=
    ⟨rfl, rfl⟩
  rw [Chain.accept, hactive]
  cases hr : m.rule with
  | inOrder => exact ⟨_, hinOrder.1, hinOrder.2, by simp +contextual, by simp +contextual⟩
  | suffixed => exact ⟨_, hentering.1, hentering.2, by simp +contextual, by simp +contextual⟩
  | separated => exact ⟨_, hentering.1, hentering.2, by simp +contextual, by simp +contextual⟩
  | skipping => exact absurd hr hrule

theorem moveOn_commit_of_lt {m : Chain α} (h : m.index + 1 < m.groupSize) :
    m.commit.moveOn = { m with span := m.commit.span, index := m.index + 1 } := by
  rw [commit_eq, moveOn]
  exact if_pos h

theorem enter_of_lt {m : Chain α} (h : m.index + 1 < m.groupSize) (hgroup : m.group = 0)
    (hincomplete : m.complete = false) (c : Char) (cur : Cursor) :
    (m.enter offer c cur).1 = { m.recycleCurrent with span := m.commit.span, index := m.index + 1 } := by
  have hadvance : m.commit.advance.2 =
      { m.recycleCurrent with span := m.commit.span, index := m.index + 1 } := by
    have hsize : m.index + 1 < m.recycleCurrent.groupSize := by
      exact (groupSize_modifyCurrent Member.recycle m).symm ▸ h
    rw [commit_eq, advance]
    exact congrArg Prod.snd (if_pos hsize)
  have hsettle : m.commit.advance.2.settle c = m.commit.advance.2 := by
    rw [hadvance, settle]
    exact if_neg (by simp [recycleCurrent, modifyCurrent, hincomplete])
  rw [enter, hsettle, hadvance]
  exact congrArg Prod.fst (if_pos hgroup)

theorem kept_enter (m : Chain α) (c : Char) (cur : Cursor) :
    (m.enter offer c cur).1.kept = m.kept ∨
      ∃ span, (m.enter offer c cur).1.kept =
        (m.taken, some ⟨span, utf8Length m.text + c.utf8Size⟩) := by
  have htaken : m.commit.advance.2.taken = m.taken :=
    congrArg Prod.fst ((kept_advance m.commit).trans (kept_commit m))
  have hsettle : (m.commit.advance.2.settle c).kept = m.kept ∨
      ∃ span, (m.commit.advance.2.settle c).kept =
        (m.taken, some ⟨span, utf8Length m.text + c.utf8Size⟩) := by
    rw [Chain.settle]
    split
    · right
      exact ⟨m.commit.advance.2.span, by simp [kept, text, htaken]⟩
    · left
      simp
  have hrest : (m.enter offer c cur).1.kept = (m.commit.advance.2.settle c).kept := by
    rw [Chain.enter]
    generalize m.commit.advance.2.settle c = s
    dsimp only
    split
    · rfl
    · split
      · split <;> exact kept_tryNext s cur
      · split <;> rfl
  rw [hrest]
  exact hsettle

variable {κ : Type} [CustomMatcher κ] {text : List Char} {i j : Nat} {group : List (Matcher κ)}

structure Within (text : List Char) (i : Nat) (group : List (Matcher κ)) (m : Chain (Matcher κ))
    (j : Nat) : Prop where
  rule_ne : m.rule ≠ .skipping
  group_eq : m.group = 0
  active : m.active = true
  incomplete : m.complete = false
  settled_eq : m.settled = none
  le : i ≤ j
  text_eq : m.text = slice text i j
  size_eq : m.groupSize = group.length
  later : ∀ k, m.index < k → m.memberAt 0 k = group[k]?
  current : ∀ b, m.current = some b → ∃ a e, group[m.index]? = some a ∧
    Matcher.Matches text i (group.take m.index) e ∧ Matcher.Takes Matcher.Waiting text a.copy e j b

namespace Within

variable {m : Chain (Matcher κ)} {c : Char}

theorem stay (h : m.Within text i group j) (hc : text[j]? = some c) {b a : Matcher κ} {e : Nat}
    (ha : group[m.index]? = some a) (hbefore : Matcher.Matches text i (group.take m.index) e)
    (hb : Matcher.Takes Matcher.Waiting text a.copy e (j + 1) b) (cur : Cursor) :
    (finish true (m.modifyCurrent fun _ => b) c cur).state.Within text i group (j + 1) where
  rule_ne := h.rule_ne
  group_eq := h.group_eq
  active := h.active
  incomplete := h.incomplete
  settled_eq := h.settled_eq
  le := Nat.le_succ_of_le h.le
  text_eq := by
    rw [text_finish_true, slice_succ h.le hc, ← h.text_eq]
    rfl
  size_eq := (groupSize_modifyCurrent _ m).trans h.size_eq
  later k hk := by
    have hne : ¬(0 = m.group ∧ k = m.index) := fun hk' => Nat.ne_of_gt hk hk'.2
    exact (memberAt_modifyCurrent _ m 0 k).trans ((if_neg hne).trans (h.later k hk))
  current b' hb' := by
    have hcurrent : (m.modifyCurrent fun _ => b).current = some b' := hb'
    rw [current_modifyCurrent, Option.map_eq_some_iff] at hcurrent
    obtain ⟨-, -, rfl⟩ := hcurrent
    exact ⟨a, e, ha, hbefore, hb⟩

theorem next (h : m.Within text i group j) (hfresh : ∀ a ∈ group, a.copy = a)
    (hc : text[j]? = some c)
    (hbefore : Matcher.Matches text i (group.take (m.index + 1)) (j + 1))
    (f : Matcher κ → Matcher κ) (span : Option Span) (broken : Bool) (cur : Cursor) :
    (finish true { m.modifyCurrent f with span, broken, index := m.index + 1 } c cur).state.Within
      text i group (j + 1) where
  rule_ne := h.rule_ne
  group_eq := h.group_eq
  active := h.active
  incomplete := h.incomplete
  settled_eq := h.settled_eq
  le := Nat.le_succ_of_le h.le
  text_eq := by
    rw [text_finish_true, slice_succ h.le hc, ← h.text_eq]
    rfl
  size_eq := (groupSize_modifyCurrent f m).trans h.size_eq
  later k hk := by
    have hk : m.index < k := Nat.lt_of_succ_lt hk
    have hne : ¬(0 = m.group ∧ k = m.index) := fun hk' => Nat.ne_of_gt hk hk'.2
    exact (memberAt_modifyCurrent f m 0 k).trans ((if_neg hne).trans (h.later k hk))
  current b hb := by
    have hlater : (m.modifyCurrent f).memberAt m.group (m.index + 1) = group[m.index + 1]? := by
      rw [memberAt_modifyCurrent, if_neg fun hk => Nat.succ_ne_self _ hk.2, h.group_eq,
        h.later _ (Nat.lt_succ_self _)]
    have hb : group[m.index + 1]? = some b := hlater.symm.trans hb
    refine ⟨b, j + 1, hb, hbefore, ?_⟩
    rw [hfresh b (List.mem_of_getElem? hb)]
    exact .start

theorem leave (h : m.Within text i group j) (hc : text[j]? = some c) {s : Chain (Matcher κ)}
    (hs : s.kept = m.kept ∨ ∃ span, s.kept = (m.taken, some ⟨span, utf8Length m.text + c.utf8Size⟩))
    (cur : Cursor) : (finish true s c cur).state.Beyond (slice text i (j + 1)) := by
  have htaken : s.taken = m.taken := by
    rcases hs with hs | ⟨span, hs⟩
    · exact congrArg Prod.fst hs
    · exact congrArg Prod.fst hs
  have htext : slice text i (j + 1) = (finish true s c cur).state.text := by
    rw [text_finish_true, slice_succ h.le hc, ← h.text_eq, Chain.text, Chain.text, htaken]
  refine ⟨htext ▸ List.prefix_rfl, ?_⟩
  intro st hst
  rcases hs with hs | ⟨span, hs⟩
  · have hnone : s.settled = none := (congrArg Prod.snd hs).trans h.settled_eq
    rw [show s.settled = some st from hst] at hnone
    cases hnone
  · have hsome : s.settled = some ⟨span, utf8Length m.text + c.utf8Size⟩ := congrArg Prod.snd hs
    rw [show s.settled = some st from hst] at hsome
    cases hsome
    rw [slice_succ h.le hc, ← h.text_eq, utf8Length_append]
    simp [utf8Length, Chain.text]

theorem move (h : m.Within text i group j) (hfresh : ∀ a ∈ group, a.copy = a)
    (hc : text[j]? = some c) (hindex : m.index < m.groupSize) {b : Matcher κ}
    (hmatch : Matcher.Matches text i (group.take (m.index + 1)) (j + 1)) {s : Chain (Matcher κ)}
    {after : Cursor}
    (hs : s = (m.modifyCurrent fun _ => b).commit.moveOn ∨
      s = ((m.modifyCurrent fun _ => b).enter Matcher.accept c after).1) (cur : Cursor) :
    (finish true s c cur).state.Within text i group (j + 1) ∨
      ∃ k, Matcher.Matches text i group k ∧
        (finish true s c cur).state.Beyond (slice text i k) := by
  by_cases hlt : m.index + 1 < m.groupSize
  · left
    have hlt' : (m.modifyCurrent fun _ => b).index + 1 < (m.modifyCurrent fun _ => b).groupSize := by
      rw [groupSize_modifyCurrent]
      exact hlt
    rcases hs with rfl | rfl
    · rw [moveOn_commit_of_lt hlt']
      exact h.next hfresh hc hmatch _ _ m.broken cur
    · rw [enter_of_lt hlt' h.group_eq h.incomplete, recycleCurrent, modifyCurrent_modifyCurrent]
      exact h.next hfresh hc hmatch _ _ _ cur
  · right
    have hlength : group.length ≤ m.index + 1 := by
      rw [← h.size_eq]
      omega
    rw [List.take_of_length_le hlength] at hmatch
    refine ⟨j + 1, hmatch, h.leave hc ?_ cur⟩
    rcases hs with rfl | rfl
    · exact .inl ((kept_moveOn _).trans (kept_commit _))
    · exact kept_enter (m.modifyCurrent fun _ => b) c after

theorem accept (h : m.Within text i group j) (hfresh : ∀ a ∈ group, a.copy = a)
    (hc : text[j]? = some c)
    (htaken : (m.accept Matcher.accept c (.past text (j + 1))).accepted = true) :
    (m.accept Matcher.accept c (.past text (j + 1))).state.Within text i group (j + 1) ∨
      ∃ k, Matcher.Matches text i group k ∧
        (m.accept Matcher.accept c (.past text (j + 1))).state.Beyond (slice text i k) := by
  generalize hcur : Cursor.past text (j + 1) = cur at htaken ⊢
  obtain ⟨s, haccepted, hstate, hstay, hmove⟩ :=
    accept_first Matcher.accept m h.rule_ne h.group_eq h.active c cur
  rw [haccepted] at htaken
  obtain ⟨b, hb⟩ := exists_current_of_accepted htaken
  obtain ⟨a, e, ha, hbefore, htakes⟩ := h.current b hb
  rw [hstate, htaken]
  rw [offerCurrent_of_current hb] at htaken hstay hmove
  have hcomplete : (m.modifyCurrent fun _ => (b.accept c cur).state).currentComplete =
      (b.accept c cur).state.isComplete := by
    rw [currentComplete, current_modifyCurrent, hb]
    rfl
  simp only [Reply.map, hcomplete] at htaken hstay hmove
  subst hcur
  cases hdone : (b.accept c (.past text (j + 1))).state.isComplete with
  | false =>
    left
    rw [hstay hdone]
    exact h.stay hc ha hbefore (htakes.take hc htaken hdone) _
  | true =>
    have hmatch : Matcher.Matches text i (group.take (m.index + 1)) (j + 1) := by
      rw [List.take_add_one, ha]
      exact hbefore.append (.cons (.mk htakes hc htaken hdone) .nil)
    exact h.move hfresh hc (index_lt_of_current hb) hmatch (hmove hdone) _

theorem isComplete_of_refused (h : m.Within text i group j) {cur : Cursor}
    (hrefused : (m.accept Matcher.accept c cur).accepted = false) :
    (m.accept Matcher.accept c cur).state.isComplete = false := by
  obtain ⟨s, haccepted, hstate, -⟩ :=
    accept_first Matcher.accept m h.rule_ne h.group_eq h.active c cur
  rw [hstate]
  exact isComplete_finish_of_refused (haccepted.symm.trans hrefused) s c cur

end Within

theorem within_fresh {m : Chain (Matcher κ)} (hrule : m.rule ≠ .skipping)
    {rest : List (List (Matcher κ))} (hgroups : m.groups = group :: rest)
    (hfresh : ∀ a ∈ group, a.copy = a) (text : List Char) (i : Nat) :
    m.fresh.Within text i group i where
  rule_ne := hrule
  group_eq := rfl
  active := rfl
  incomplete := rfl
  settled_eq := rfl
  le := Nat.le_refl i
  text_eq := by simp [slice, fresh, Chain.text]
  size_eq := by simp [groupSize, fresh, hgroups]
  later k _ := by simp [memberAt, fresh, hgroups]
  current b hb := by
    have hb : group[0]? = some b := by simpa [current, fresh, hgroups] using hb
    refine ⟨b, i, hb, .nil, ?_⟩
    rw [hfresh b (List.mem_of_getElem? hb)]
    exact .start

theorem within_or_beyond_of_takes {m : Chain (Matcher κ)} (hm : m.fresh = m)
    (hrule : m.rule ≠ .skipping) {rest : List (List (Matcher κ))}
    (hgroups : m.groups = group :: rest) (hfresh : ∀ a ∈ group, a.copy = a) {s : Matcher κ}
    (h : Matcher.Takes (fun _ => True) text (.mk (.chain m)) i j s) :
    ∃ n, s = .mk (.chain n) ∧ (n.Within text i group j ∨ n.rule ≠ .skipping ∧
      ∃ k, Matcher.Matches text i group k ∧ n.Beyond (slice text i k)) := by
  induction h with
  | start =>
    refine ⟨m, rfl, .inl ?_⟩
    rw [← hm]
    exact within_fresh hrule hgroups hfresh text i
  | @take j s c _ hc htaken _ ih =>
    obtain ⟨n, rfl, hn⟩ := ih
    rw [Matcher.accept_mk] at htaken ⊢
    refine ⟨(n.accept Matcher.accept c (.past text (j + 1))).state, rfl, ?_⟩
    rw [rule_accept]
    rcases hn with hn | ⟨hrule, k, hk, hn⟩
    · rcases hn.accept hfresh hc htaken with hin | hout
      · exact .inl hin
      · exact .inr ⟨hn.rule_ne, hout⟩
    · exact .inr ⟨hrule, k, hk, hn.accept hrule c _⟩

end Chain

namespace Matcher

variable {κ : Type} [CustomMatcher κ]

/-- The first group of a chain is required, but for chains that skip: of a chain that was made
without progress and is complete, the text begins with a match of every member of the first group,
one behind the other. This also holds where the chain is complete because it has refused a
character and fallen back. -/
theorem matches_first_group {name : String} {rule : ChainRule} {groups : List (List (Matcher κ))}
    {hideFirst : Bool} {m : Matcher κ} (hm : chain name rule groups hideFirst = .ok m)
    (hmade : ∀ group ∈ groups, ∀ a ∈ group, a.Made) (hrule : rule ≠ .skipping) {text : List Char}
    {i j : Nat} {s : Matcher κ} (hfed : m.Fed text i j s) (hcomplete : s.isComplete = true) :
    ∃ group rest k, groups = group :: rest ∧ Matches text i group k ∧
      slice text i k <+: s.text := by
  obtain ⟨made, hmake, rfl⟩ := exists_of_map_eq_ok hm
  obtain ⟨rfl, hne⟩ := Chain.eq_of_make hmake
  obtain ⟨group, rest, rfl⟩ := List.exists_cons_of_ne_nil hne
  have hfresh : ∀ a ∈ group, a.copy = a := fun a ha => (hmade group List.mem_cons_self a ha).copy_eq
  cases hfed with
  | taken h =>
    obtain ⟨n, rfl, hn⟩ := Chain.within_or_beyond_of_takes rfl hrule rfl hfresh h
    rcases hn with hn | ⟨-, k, hk, hn⟩
    · have hcomplete : (n.complete && !n.failed) = true := hcomplete
      rw [hn.incomplete] at hcomplete
      cases hcomplete
    · exact ⟨group, rest, k, rfl, hk, hn.taken_le⟩
  | @refused j s c h hc hrefused =>
    obtain ⟨n, rfl, hn⟩ := Chain.within_or_beyond_of_takes rfl hrule rfl hfresh h
    rw [accept_mk] at hrefused hcomplete ⊢
    rcases hn with hn | ⟨hrule, k, hk, hn⟩
    · have hincomplete := hn.isComplete_of_refused hrefused
      have hcomplete : (n.accept accept c (.past text (j + 1))).state.isComplete = true := hcomplete
      rw [hincomplete] at hcomplete
      cases hcomplete
    · exact ⟨group, rest, k, rfl, hk, (hn.accept hrule c _).taken_le⟩

theorem matches_first_group_fallen_back :
    let first : Matcher Empty := .chars "first" (.one (.singleton 'a'))
    let word : Matcher Empty :=
      mk (.words { name := "word", rule := .longest, words := [['b', 'c']] })
    let m : Matcher Empty :=
      mk (.chain { name := "row", rule := .suffixed, groups := [[first], [word]] })
    let text := ['a', 'b', 'x']
    ∃ s, m.Fed text 0 3 s ∧ s.isComplete = true ∧ s.text = ['a'] ∧
      ∃ k, Matches text 0 [first] k ∧ slice text 0 k <+: s.text := by
  -- the second group is begun and given up, and the chain is complete at its refusal of `x`
  intro first word m text
  have hwords : words "word" .longest ["bc"] = .ok word := rfl
  have hword : word.Made := .words hwords
  have hmade : ∀ group ∈ [[first], [word]], ∀ a ∈ group, a.Made := by
    simp only [List.forall_mem_cons]
    exact ⟨⟨.chars _ _, by simp⟩, ⟨hword, by simp⟩, by simp⟩
  have hone : Takes (fun _ => True) text m 0 1 _ :=
    .take (c := 'a') .start rfl (by decide +kernel) trivial
  have htwo : Takes (fun _ => True) text m 0 2 _ :=
    .take (c := 'b') hone rfl (by decide +kernel) trivial
  have hfed : m.Fed text 0 3 _ := .refused (c := 'x') htwo rfl (by decide +kernel)
  have hm : chain "row" .suffixed [[first], [word]] false = .ok m := rfl
  obtain ⟨group, rest, k, hgroups, hmatch⟩ :=
    matches_first_group hm hmade (by decide) hfed (by decide +kernel)
  cases hgroups
  exact ⟨_, hfed, by decide +kernel, by decide +kernel, k, hmatch⟩

/-- A skipping chain is complete although its first member, the word `ab`, has refused `x`. -/
theorem not_matches_first_group_skipping :
    let word : Matcher Empty :=
      mk (.words { name := "word", rule := .longest, words := [['a', 'b']] })
    let suffix : Matcher Empty := .chars "suffix" (.one (.singleton 'x'))
    let m : Matcher Empty :=
      mk (.chain { name := "row", rule := .skipping, groups := [[word], [suffix]] })
    let text := ['a', 'x']
    chain "row" .skipping [[word], [suffix]] false = .ok m ∧
      (∀ group ∈ [[word], [suffix]], ∀ a ∈ group, a.Made) ∧
      ∃ s, m.Fed text 0 2 s ∧ s.isComplete = true ∧ s.text = text ∧
        (∀ k t, word.copy.Fed text 0 k t → t.isComplete = false) ∧
        ∀ k, ¬Matches text 0 [word] k := by
  intro word suffix m text
  have hwords : words "word" .longest ["ab"] = .ok word := rfl
  have hword : word.Made := .words hwords
  have hmade : ∀ group ∈ [[word], [suffix]], ∀ a ∈ group, a.Made := by
    simp only [List.forall_mem_cons]
    exact ⟨⟨hword, by simp⟩, ⟨.chars _ _, by simp⟩, by simp⟩
  have hone : Takes (fun _ => True) text m 0 1 _ :=
    .take (c := 'a') .start rfl (by decide +kernel) trivial
  have htwo : Takes (fun _ => True) text m 0 2 _ :=
    .take (c := 'x') hone rfl (by decide +kernel) trivial
  have htakes : ∀ j s, Takes (fun _ => True) text word 0 j s →
      j = 0 ∧ s = word ∨ j = 1 ∧ s = (word.accept 'a' (.past text 1)).state := by
    intro j s h
    induction h with
    | start => exact .inl ⟨rfl, rfl⟩
    | take _ hc htaken _ ih =>
      rcases ih with ⟨rfl, rfl⟩ | ⟨rfl, rfl⟩
      · cases hc
        exact .inr ⟨rfl, rfl⟩
      · cases hc
        exact absurd htaken (by decide +kernel)
  have hnone : ∀ k t, word.copy.Fed text 0 k t → t.isComplete = false := by
    intro k t h
    rw [hword.copy_eq] at h
    cases h with
    | taken h => rcases htakes _ _ h with ⟨rfl, rfl⟩ | ⟨rfl, rfl⟩ <;> decide +kernel
    | refused h hc hrefused =>
      rcases htakes _ _ h with ⟨rfl, rfl⟩ | ⟨rfl, rfl⟩
      · cases hc
        exact absurd hrefused (by decide +kernel)
      · cases hc
        decide +kernel
  refine ⟨rfl, hmade, _, .taken htwo, by decide +kernel, by decide +kernel, hnone, ?_⟩
  intro k hk
  cases hk with
  | cons hmatch _ =>
    cases hmatch with
    | mk h hc htaken hcomplete =>
      have hfed := Fed.taken ((h.mono fun _ _ => trivial).take hc htaken trivial)
      rw [hnone _ _ hfed] at hcomplete
      cases hcomplete

end Matcher

end Lexing
