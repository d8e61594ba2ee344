import Lexing.Proofs.Matcher.Unfailing
import Lexing.Proofs.Words.Suffixes

namespace Lexing

def Span.mergeAll (spans : List Span) : Option Span :=
  spans.foldl (fun merged span => some (Span.merge merged span)) none

theorem Span.mergeAll_concat (spans : List Span) (span : Span) :
    mergeAll (spans ++ [span]) = some (Span.merge (mergeAll spans) span) := by
  rw [mergeAll, List.foldl_append]
  rfl

namespace Chain

section Behind

variable {α : Type} {m : Chain α} {b : α} {rest : List α}

def behind (m : Chain α) : List α :=
  (m.groups[m.group]?.getD []).drop (m.index + 1) ++ (m.groups.drop (m.group + 1)).flatten

theorem behind_modifyCurrent (f : α → α) (m : Chain α) : (m.modifyCurrent f).behind = m.behind := by
  simp only [behind, modifyCurrent, List.getElem?_modify_eq]
  congr 1
  · cases m.groups[m.group]? with
    | none => rfl
    | some group => simp [List.drop_modify_of_lt]
  · rw [List.drop_modify_of_lt _ _ _ _ (Nat.lt_succ_self _)]

theorem behind_offerCurrent {offer : Offer α} (m : Chain α) (c : Char) (cur : Cursor) :
    (m.offerCurrent offer c cur).state.behind = m.behind := by
  rw [offerCurrent]
  split
  · rfl
  · exact behind_modifyCurrent ..

theorem length_behind (m : Chain α) :
    m.behind.length = m.groupSize - (m.index + 1) + (m.groups.drop (m.group + 1)).flatten.length := by
  rw [behind, List.length_append, List.length_drop, groupSize]
  cases m.groups[m.group]? <;> rfl

theorem nil_notMem_modifyCurrent (h : [] ∉ m.groups) (f : α → α) : [] ∉ (m.modifyCurrent f).groups := by
  have hlengths : (m.modifyCurrent f).groups.map List.length = m.groups.map List.length :=
    map_modify_eq _ _ fun group _ => List.length_modify ..
  intro hnil
  have hzero : 0 ∈ m.groups.map List.length := hlengths ▸ List.mem_map_of_mem hnil
  obtain ⟨group, hgroup, hlength⟩ := List.mem_map.1 hzero
  exact h (List.length_eq_zero_iff.1 hlength ▸ hgroup)

theorem moveOn_of_behind_eq_nil (hne : [] ∉ m.groups) (h : m.behind = []) : m.moveOn = m.close := by
  obtain ⟨hgroup, hlater⟩ := List.append_eq_nil_iff.1 h
  rw [moveOn, if_neg, if_neg]
  · intro hlt
    rw [List.drop_eq_getElem_cons hlt, List.flatten_cons] at hlater
    exact hne ((List.append_eq_nil_iff.1 hlater).1 ▸ List.getElem_mem hlt)
  · rw [groupSize]
    cases hsome : m.groups[m.group]? with
    | none => simp
    | some group =>
      rw [hsome] at hgroup
      simpa using hgroup

theorem moveOn_of_behind_eq_cons (hne : [] ∉ m.groups) (h : m.behind = b :: rest) :
    ∃ g i, m.moveOn = { m with group := g, index := i } ∧ ¬(g = 0 ∧ i = 0) ∧
      m.moveOn.current = some b ∧ m.moveOn.behind = rest := by
  rw [moveOn]
  split
  · next hlt =>
    refine ⟨m.group, m.index + 1, rfl, by simp, ?_⟩
    rw [groupSize] at hlt
    cases hgroup : m.groups[m.group]? with
    | none => simp [hgroup] at hlt
    | some group =>
      have hlt : m.index + 1 < group.length := by simpa [hgroup] using hlt
      rw [behind, hgroup, Option.getD_some, List.drop_eq_getElem_cons hlt, List.cons_append,
        List.cons.injEq] at h
      obtain ⟨rfl, rfl⟩ := h
      simp [current, behind, hgroup]
  · next hend =>
    have hgroup : (m.groups[m.group]?.getD []).drop (m.index + 1) = [] := by
      rw [groupSize] at hend
      cases hgroup : m.groups[m.group]? with
      | none => rfl
      | some group => simpa [hgroup] using hend
    rw [behind, hgroup, List.nil_append] at h
    split
    · next hlt =>
      rw [List.drop_eq_getElem_cons hlt] at h
      refine ⟨m.group + 1, 0, rfl, by simp, ?_⟩
      obtain ⟨first, later, hfirst⟩ := List.exists_cons_of_ne_nil
        fun hnil => hne (hnil ▸ List.getElem_mem hlt)
      rw [hfirst, List.flatten_cons, List.cons_append, List.cons.injEq] at h
      obtain ⟨rfl, rfl⟩ := h
      simp [current, behind, List.getElem?_eq_getElem hlt, hfirst]
    · next hlast =>
      rw [List.drop_eq_nil_of_le (by omega)] at h
      cases h

variable [Member α]

theorem groups_commit (m : Chain α) : m.commit.groups = m.groups := by rw [commit_eq]

theorem behind_commit (m : Chain α) : m.commit.behind = m.behind := by
  rw [commit_eq]
  rfl

end Behind

end Chain

namespace Matcher

variable {κ : Type} [CustomMatcher κ]

def mergedSpan (hideFirst : Bool) (ss : List (Matcher κ)) : Option Span :=
  Span.mergeAll ((if hideFirst then ss.drop 1 else ss).filterMap span)

theorem mergedSpan_concat (hideFirst : Bool) (ss : List (Matcher κ)) (b : Matcher κ) :
    mergedSpan hideFirst (ss ++ [b]) =
      if hideFirst ∧ ss = [] then mergedSpan hideFirst ss
      else match b.span with
        | none => mergedSpan hideFirst ss
        | some span => some (Span.merge (mergedSpan hideFirst ss) span) := by
  have hconcat : ∀ ts : List (Matcher κ), Span.mergeAll ((ts ++ [b]).filterMap span) =
      match b.span with
      | none => Span.mergeAll (ts.filterMap span)
      | some span => some (Span.merge (Span.mergeAll (ts.filterMap Matcher.span)) span) := by
    intro ts
    rw [List.filterMap_append]
    cases hb : b.span with
    | none => simp [hb]
    | some t => simp [hb, Span.mergeAll_concat]
  cases hideFirst with
  | false => simpa [mergedSpan] using hconcat ss
  | true =>
    cases ss with
    | nil => rfl
    | cons s ss => simpa [mergedSpan] using hconcat ss

/-- Reading `m` from offset `i` ends at offset `j`: the matcher has taken all characters up to there and
is then complete. -/
structure ReadsTo (text : List Char) (m : Matcher κ) (i j : Nat) (s : Matcher κ) : Prop where
  read_eq : m.read (.past text i) = (j - i, s, .past text j)
  takes : Takes (fun _ => True) text m i j s
  complete : s.isComplete = true

inductive ReadEach (text : List Char) : Nat → List (Matcher κ) → Nat → List (Matcher κ) → Prop
  | nil {i : Nat} : ReadEach text i [] i []
  | cons {i j k : Nat} {m s : Matcher κ} {rest ss : List (Matcher κ)} : ReadsTo text m i j s →
      ReadEach text j rest k ss → ReadEach text i (m :: rest) k (s :: ss)

variable [LawfulCursor κ] {text : List Char} {m s : Matcher κ} {i j : Nat} {c : Char}

theorem readsTo_iff_feed : ReadsTo text m i j s ↔
    feed text m i = (s, j) ∧ Takes (fun _ => True) text m i j s ∧ s.isComplete = true := by
  constructor
  · rintro ⟨hread, htakes, hcomplete⟩
    rw [read_past, Prod.mk.injEq, Prod.mk.injEq] at hread
    have hij := htakes.le
    have hle := le_feed text m i
    exact ⟨Prod.ext hread.2.1 (by omega), htakes, hcomplete⟩
  · rintro ⟨hfeed, htakes, hcomplete⟩
    exact ⟨by rw [read_past, hfeed], htakes, hcomplete⟩

omit [LawfulCursor κ] in
theorem ReadsTo.exists_getElem? (h : ReadsTo text m i j s) (hm : m.Waiting) :
    ∃ c, text[i]? = some c ∧ (m.accept c (.past text (i + 1))).accepted = true := by
  rcases h.takes.head with ⟨rfl, rfl⟩ | ⟨c, hc, htaken, -⟩
  · have hcomplete := h.complete
    rw [hm] at hcomplete
    cases hcomplete
  · exact ⟨c, hc, htaken⟩

theorem readsTo_iff_of_complete (hc : text[i]? = some c)
    (htaken : (m.accept c (.past text (i + 1))).accepted = true)
    (hcomplete : (m.accept c (.past text (i + 1))).state.isComplete = true) :
    ReadsTo text m i j s ↔ (m.accept c (.past text (i + 1))).state = s ∧ i + 1 = j := by
  rw [readsTo_iff_feed, feed_of_complete hc hcomplete, Prod.mk.injEq]
  refine ⟨And.left, ?_⟩
  rintro ⟨rfl, rfl⟩
  exact ⟨⟨rfl, rfl⟩, .take .start hc htaken trivial, hcomplete⟩

theorem readsTo_iff_of_waiting (hm : m.Waiting) (hc : text[i]? = some c)
    (htaken : (m.accept c (.past text (i + 1))).accepted = true)
    (hlive : (m.accept c (.past text (i + 1))).state.isFailed = false)
    (hwaiting : (m.accept c (.past text (i + 1))).state.Waiting) :
    ReadsTo text m i j s ↔ ReadsTo text (m.accept c (.past text (i + 1))).state (i + 1) j s := by
  rw [readsTo_iff_feed, readsTo_iff_feed, feed_of_taken hc htaken hlive hwaiting]
  refine and_congr_right fun _ => and_congr_left fun hcomplete => ?_
  refine ⟨fun h => ?_, fun h => .cons hc htaken trivial h⟩
  rcases h.head with ⟨-, rfl⟩ | ⟨d, hd, -, htakes⟩
  · rw [hm] at hcomplete
    cases hcomplete
  · cases hc.symm.trans hd
    exact htakes

end Matcher

namespace Chain

variable {κ : Type} [CustomMatcher κ] {m : Chain (Matcher κ)} {hideFirst : Bool} {text : List Char}
  {i j : Nat} {c : Char} {b b' : Matcher κ} {ss rest : List (Matcher κ)}

structure Midway (m : Chain (Matcher κ)) (hideFirst : Bool) (text : List Char) (i j : Nat)
    (ss : List (Matcher κ)) (b : Matcher κ) (rest : List (Matcher κ)) : Prop where
  rule_eq : m.rule = .inOrder
  hide_eq : m.hideFirst = hideFirst
  active : m.active = true
  incomplete : m.complete = false
  unfailed : m.failed = false
  filled : [] ∉ m.groups
  current : m.current = some b
  behind : m.behind = rest
  first_iff : m.group = 0 ∧ m.index = 0 ↔ ss = []
  le : i ≤ j
  text_eq : m.text = slice text i j
  span_eq : m.span = Matcher.mergedSpan hideFirst ss

structure Completed (m : Chain (Matcher κ)) (hideFirst : Bool) (text : List Char) (i j : Nat)
    (ss : List (Matcher κ)) : Prop where
  complete : m.isComplete = true
  text_eq : m.text = slice text i j
  span_eq : m.span = Matcher.mergedSpan hideFirst ss

namespace Midway

theorem span_commit (h : m.Midway hideFirst text i j ss b rest) :
    m.commit.span = Matcher.mergedSpan hideFirst (ss ++ [b]) := by
  rw [Matcher.mergedSpan_concat, commit]
  simp only [h.hide_eq, h.first_iff, h.current, Option.bind_some, ← h.span_eq]
  split
  · rfl
  · rw [show Member.span b = b.span from rfl]
    cases b.span <;> rfl

theorem accept_eq (h : m.Midway hideFirst text i j ss b rest) (c : Char) (cur : Cursor) :
    m.accept Matcher.accept c cur =
      let r := b.accept c cur
      let s := m.modifyCurrent fun _ => r.state
      finish r.accepted (if r.state.isComplete then s.commit.moveOn else s) c r.cursor := by
  rw [accept, if_neg (by simp [h.active]), h.rule_eq]
  exact acceptInOrder_eq_finish h.current c cur

theorem modifyCurrent (h : m.Midway hideFirst text i j ss b rest) (b' : Matcher κ) :
    (m.modifyCurrent fun _ => b').Midway hideFirst text i j ss b' rest where
  rule_eq := h.rule_eq
  hide_eq := h.hide_eq
  active := h.active
  incomplete := h.incomplete
  unfailed := h.unfailed
  filled := nil_notMem_modifyCurrent h.filled _
  current := by
    rw [current_modifyCurrent, h.current]
    rfl
  behind := (behind_modifyCurrent _ m).trans h.behind
  first_iff := h.first_iff
  le := h.le
  text_eq := h.text_eq
  span_eq := h.span_eq

theorem moveOn (h : m.Midway hideFirst text i j ss b (b' :: rest)) :
    m.commit.moveOn.Midway hideFirst text i j (ss ++ [b]) b' rest := by
  have hcommit := commit_eq m
  have hfilled : [] ∉ m.commit.groups := (groups_commit m).symm ▸ h.filled
  obtain ⟨g, n, hmoved, hplace, hcurrent, hrest⟩ :=
    moveOn_of_behind_eq_cons hfilled ((behind_commit m).trans h.behind)
  have hspan : m.commit.moveOn.span = Matcher.mergedSpan hideFirst (ss ++ [b]) := by
    rw [hmoved]
    exact h.span_commit
  rw [hcommit] at hmoved
  have hfirst : m.commit.moveOn.group = 0 ∧ m.commit.moveOn.index = 0 ↔ ss ++ [b] = [] := by
    rw [hcommit, hmoved]
    simpa using hplace
  refine ⟨?_, ?_, ?_, ?_, ?_, ?_, hcurrent, hrest, hfirst, h.le, ?_, hspan⟩
  all_goals rw [hcommit, hmoved]
  · exact h.rule_eq
  · exact h.hide_eq
  · exact h.active
  · exact h.incomplete
  · exact h.unfailed
  · exact h.filled
  · exact h.text_eq

theorem close (h : m.Midway hideFirst text i j ss b []) :
    m.commit.moveOn.Completed hideFirst text i j (ss ++ [b]) := by
  have hfilled : [] ∉ m.commit.groups := (groups_commit m).symm ▸ h.filled
  rw [moveOn_of_behind_eq_nil hfilled ((behind_commit m).trans h.behind)]
  refine ⟨?_, ?_, h.span_commit⟩
  all_goals rw [commit_eq]
  · simp [isComplete, Chain.close, h.unfailed]
  · exact h.text_eq

theorem finish (h : m.Midway hideFirst text i j ss b rest) (hc : text[j]? = some c) (cur : Cursor) :
    (finish true m c cur).state.Midway hideFirst text i (j + 1) ss b rest where
  rule_eq := h.rule_eq
  hide_eq := h.hide_eq
  active := h.active
  incomplete := h.incomplete
  unfailed := h.unfailed
  filled := h.filled
  current := h.current
  behind := h.behind
  first_iff := h.first_iff
  le := Nat.le_succ_of_le h.le
  text_eq := by rw [text_finish_true, h.text_eq, slice_succ h.le hc]
  span_eq := h.span_eq

end Midway

theorem Completed.finish (h : m.Completed hideFirst text i j ss) (hij : i ≤ j)
    (hc : text[j]? = some c) (cur : Cursor) :
    (finish true m c cur).state.Completed hideFirst text i (j + 1) ss where
  complete := h.complete
  text_eq := by rw [text_finish_true, h.text_eq, slice_succ hij hc]
  span_eq := h.span_eq

namespace Midway

theorem refused (h : m.Midway hideFirst text i j ss b rest) {cur : Cursor}
    (hrefused : (b.accept c cur).accepted = false) :
    (m.accept Matcher.accept c cur).accepted = false ∧
      (m.accept Matcher.accept c cur).state.isComplete = false := by
  rw [h.accept_eq]
  exact ⟨hrefused, isComplete_finish_of_refused hrefused ..⟩

theorem stays (h : m.Midway hideFirst text i j ss b rest) (hc : text[j]? = some c)
    (htaken : (b.accept c (.past text (j + 1))).accepted = true)
    (hwaiting : (b.accept c (.past text (j + 1))).state.Waiting) :
    (m.accept Matcher.accept c (.past text (j + 1))).accepted = true ∧
      (m.accept Matcher.accept c (.past text (j + 1))).state.Midway hideFirst text i (j + 1) ss
        (b.accept c (.past text (j + 1))).state rest := by
  rw [h.accept_eq]
  simp only [htaken, show (b.accept c (.past text (j + 1))).state.isComplete = false from hwaiting]
  exact ⟨rfl, (h.modifyCurrent _).finish hc _⟩

theorem goesOn (h : m.Midway hideFirst text i j ss b (b' :: rest)) (hc : text[j]? = some c)
    (htaken : (b.accept c (.past text (j + 1))).accepted = true)
    (hcomplete : (b.accept c (.past text (j + 1))).state.isComplete = true) :
    (m.accept Matcher.accept c (.past text (j + 1))).accepted = true ∧
      (m.accept Matcher.accept c (.past text (j + 1))).state.Midway hideFirst text i (j + 1)
        (ss ++ [(b.accept c (.past text (j + 1))).state]) b' rest := by
  rw [h.accept_eq]
  simp only [htaken, hcomplete, if_true]
  exact ⟨rfl, (h.modifyCurrent _).moveOn.finish hc _⟩

theorem ends (h : m.Midway hideFirst text i j ss b []) (hc : text[j]? = some c)
    (htaken : (b.accept c (.past text (j + 1))).accepted = true)
    (hcomplete : (b.accept c (.past text (j + 1))).state.isComplete = true) :
    (m.accept Matcher.accept c (.past text (j + 1))).state.Completed hideFirst text i (j + 1)
      (ss ++ [(b.accept c (.past text (j + 1))).state]) := by
  rw [h.accept_eq]
  simp only [htaken, hcomplete, if_true]
  exact (h.modifyCurrent _).close.finish h.le hc _

theorem waiting (h : m.Midway hideFirst text i j ss b rest) :
    (Matcher.mk (.chain m)).isComplete = false := by
  change (m.complete && !m.failed) = false
  rw [h.incomplete]
  rfl

theorem unfailing (h : m.Midway hideFirst text i j ss b rest) :
    (Matcher.mk (.chain m)).isFailed = false := h.unfailed

end Midway

/-- From offset `j` on the chain reads what the matchers `as` read one behind the other. -/
def Composes (m : Chain (Matcher κ)) (hideFirst : Bool) (text : List Char) (i j : Nat)
    (ss as : List (Matcher κ)) : Prop :=
  ((Matcher.feed text (.mk (.chain m)) j).1.isComplete = true →
      ∃ k ts, Matcher.ReadEach text j as k ts) ∧
    ∀ k ts, Matcher.ReadEach text j as k ts → ∃ n : Chain (Matcher κ),
      Matcher.feed text (.mk (.chain m)) j = (.mk (.chain n), k) ∧
        n.Completed hideFirst text i k (ss ++ ts)

theorem Composes.cons [LawfulCursor κ] {n : Chain (Matcher κ)} {s : Matcher κ} {k : Nat}
    (h : n.Composes hideFirst text i k (ss ++ [s]) rest)
    (hfeed : Matcher.feed text (.mk (.chain m)) j = Matcher.feed text (.mk (.chain n)) k)
    (hread : ∀ l t, Matcher.ReadsTo text b j l t ↔ s = t ∧ k = l) :
    m.Composes hideFirst text i j ss (b :: rest) := by
  refine ⟨fun hcomplete => ?_, fun l ts heach => ?_⟩
  · rw [hfeed] at hcomplete
    obtain ⟨l, ts, heach⟩ := h.1 hcomplete
    exact ⟨l, s :: ts, .cons ((hread k s).2 ⟨rfl, rfl⟩) heach⟩
  · cases heach with
    | cons hfirst heach =>
      obtain ⟨rfl, rfl⟩ := (hread _ _).1 hfirst
      obtain ⟨c, hc, hcompleted⟩ := h.2 _ _ heach
      rw [List.append_assoc] at hcompleted
      exact ⟨c, hfeed.trans hc, hcompleted⟩

theorem Composes.congr {n : Chain (Matcher κ)} {k : Nat}
    (h : n.Composes hideFirst text i k ss (b' :: rest))
    (hfeed : Matcher.feed text (.mk (.chain m)) j = Matcher.feed text (.mk (.chain n)) k)
    (hread : ∀ l t, Matcher.ReadsTo text b j l t ↔ Matcher.ReadsTo text b' k l t) :
    m.Composes hideFirst text i j ss (b :: rest) := by
  have heach : ∀ l ts, Matcher.ReadEach text j (b :: rest) l ts ↔
      Matcher.ReadEach text k (b' :: rest) l ts := by
    refine fun l ts => ⟨fun h => ?_, fun h => ?_⟩
    · cases h with
      | cons hfirst hrest => exact .cons ((hread _ _).1 hfirst) hrest
    · cases h with
      | cons hfirst hrest => exact .cons ((hread _ _).2 hfirst) hrest
  simpa only [Composes, heach, hfeed] using h

theorem composes_of_refused (hb : b.Waiting)
    (hrefused : ∀ c, text[j]? = some c → (b.accept c (.past text (j + 1))).accepted = false)
    (hwaiting : (Matcher.feed text (.mk (.chain m)) j).1.isComplete = false) :
    m.Composes hideFirst text i j ss (b :: rest) := by
  refine ⟨fun hcomplete => ?_, fun k ts heach => ?_⟩
  · rw [hwaiting] at hcomplete
    cases hcomplete
  · cases heach with
    | cons hread _ =>
      obtain ⟨c, hc, htaken⟩ := hread.exists_getElem? hb
      rw [hrefused c hc] at htaken
      cases htaken

theorem feed_of_midway (hc : text[j]? = some c)
    (htaken : (m.accept Matcher.accept c (.past text (j + 1))).accepted = true)
    (hn : (m.accept Matcher.accept c (.past text (j + 1))).state.Midway hideFirst text i (j + 1) ss b
      rest) : Matcher.feed text (.mk (.chain m)) j =
      Matcher.feed text (.mk (.chain (m.accept Matcher.accept c (.past text (j + 1))).state)) (j + 1) := by
  have hstate := Matcher.state_accept_mk (.chain m) c (.past text (j + 1))
  rw [Matcher.feed_of_taken hc, hstate]
  · rfl
  · rw [Matcher.accept_mk]
    exact htaken
  · rw [hstate]
    exact hn.unfailing
  · rw [hstate]
    exact hn.waiting

theorem composes_of_completed [LawfulCursor κ] {s : Matcher κ} (hc : text[j]? = some c)
    (h : (m.accept Matcher.accept c (.past text (j + 1))).state.Completed hideFirst text i (j + 1)
      (ss ++ [s])) (hread : ∀ l t, Matcher.ReadsTo text b j l t ↔ s = t ∧ j + 1 = l) :
    m.Composes hideFirst text i j ss [b] := by
  have hstate := Matcher.state_accept_mk (.chain m) c (.past text (j + 1))
  have hfeed : Matcher.feed text (.mk (.chain m)) j =
      (.mk (.chain (m.accept Matcher.accept c (.past text (j + 1))).state), j + 1) := by
    rw [Matcher.feed_of_complete hc, hstate]
    · rfl
    · rw [hstate]
      exact h.complete
  refine ⟨fun _ => ⟨j + 1, [s], .cons ((hread _ _).2 ⟨rfl, rfl⟩) .nil⟩, fun k ts heach => ?_⟩
  cases heach with
  | cons hfirst hnil =>
    cases hnil
    obtain ⟨rfl, rfl⟩ := (hread _ _).1 hfirst
    exact ⟨_, hfeed, h⟩

theorem composes_of_midway [LawfulCursor κ] (h : m.Midway hideFirst text i j ss b rest)
    (hb : b.Waiting) (hlive : b.Unfailing text j)
    (hrest : ∀ a ∈ rest, a.Waiting ∧ ∀ n, a.Unfailing text n) :
    m.Composes hideFirst text i j ss (b :: rest) := by
  -- on the characters still to come; what has taken one is still a current member with those behind it
  induction hn : text.length - j generalizing m b rest ss j with
  | zero =>
    have hc : text[j]? = none := List.getElem?_eq_none (by omega)
    refine composes_of_refused hb (by simp [hc]) ?_
    rw [Matcher.feed_of_none hc]
    exact h.waiting
  | succ n ih =>
    obtain ⟨c, hc⟩ : ∃ c, text[j]? = some c := ⟨_, List.getElem?_eq_getElem (by omega)⟩
    cases htaken : (b.accept c (.past text (j + 1))).accepted with
    | false =>
      obtain ⟨hrefused, hwaiting⟩ := h.refused htaken
      refine composes_of_refused hb (fun d hd => ?_) ?_
      · cases hc.symm.trans hd
        exact htaken
      · rw [Matcher.feed_of_refused hc, Matcher.state_accept_mk]
        · exact hwaiting
        · rw [Matcher.accept_mk]
          exact hrefused
    | true =>
      cases hcomplete : (b.accept c (.past text (j + 1))).state.isComplete with
      | false =>
        obtain ⟨hgoes, hnext⟩ := h.stays hc htaken hcomplete
        have hfeed := feed_of_midway hc hgoes hnext
        have hlive' : (b.accept c (.past text (j + 1))).state.Unfailing text (j + 1) :=
          fun l t htakes => hlive (.cons hc htaken trivial htakes)
        have hread := fun l t => Matcher.readsTo_iff_of_waiting (s := t) (j := l) hb hc htaken
          (hlive' .start) hcomplete
        exact (ih hnext hcomplete hlive' hrest (by omega)).congr hfeed hread
      | true =>
        have hread := fun l t => Matcher.readsTo_iff_of_complete (s := t) (j := l) hc htaken hcomplete
        cases rest with
        | nil => exact composes_of_completed hc (h.ends hc htaken hcomplete) hread
        | cons b' rest =>
          obtain ⟨hgoes, hnext⟩ := h.goesOn hc htaken hcomplete
          obtain ⟨⟨hb', hlive'⟩, hrest⟩ := List.forall_mem_cons.1 hrest
          exact (ih hnext hb' (hlive' _) hrest (by omega)).cons (feed_of_midway hc hgoes hnext) hread

theorem exists_midway {groups : List (List (Matcher κ))} (hsome : groups ≠ []) (hne : [] ∉ groups)
    (name : String) (hideFirst : Bool) (text : List Char) (i : Nat) : ∃ b rest, groups.flatten = b :: rest ∧
      ({ name, rule := .inOrder, groups, hideFirst } : Chain (Matcher κ)).Midway hideFirst text i i [] b
        rest := by
  obtain ⟨group, groups, rfl⟩ := List.exists_cons_of_ne_nil hsome
  obtain ⟨b, group, rfl⟩ := List.exists_cons_of_ne_nil fun hnil => hne (hnil ▸ List.mem_cons_self)
  refine ⟨b, group ++ groups.flatten, rfl, rfl, rfl, rfl, rfl, rfl, hne, rfl, ?_, by simp, Nat.le_refl i,
    (slice_self text i).symm, ?_⟩
  · simp [behind]
  · cases hideFirst <;> rfl

end Chain

namespace Matcher

variable {κ : Type} [CustomMatcher κ]

def ReadsInTurn (m : Matcher κ) (hideFirst : Bool) (as : List (Matcher κ)) (text : List Char) (i : Nat) :
    Prop :=
  let r := m.read (.past text i)
  (r.2.1.isComplete = true ↔ ∃ j ss, ReadEach text i as j ss) ∧
    ∀ j ss, ReadEach text i as j ss → r.1 = j - i ∧ r.2.2 = .past text j ∧
      r.2.1.text = slice text i j ∧ r.2.1.span = mergedSpan hideFirst ss

/-- A chain in order is the composition of its members, whatever they are and however they are grouped. -/
theorem reads_in_turn [LawfulCursor κ] [LawfulSpan κ] {name : String}
    {groups : List (List (Matcher κ))} {hideFirst : Bool} {m : Matcher κ}
    (hm : chain name .inOrder groups hideFirst = .ok m) (hmade : ∀ group ∈ groups, ∀ a ∈ group, a.Made)
    (text : List Char) (i : Nat) : ReadsInTurn m hideFirst groups.flatten text i := by
  obtain ⟨made, hmake, rfl⟩ := exists_of_map_eq_ok hm
  obtain ⟨hne, -⟩ := Chain.shape_of_make hmake
  obtain ⟨rfl, hsome⟩ := Chain.eq_of_make hmake
  have hgood : ∀ a ∈ groups.flatten, a.Waiting ∧ ∀ n, a.Unfailing text n := by
    intro a ha
    obtain ⟨group, hgroup, ha⟩ := List.mem_flatten.1 ha
    have hgood := (hmade group hgroup a ha).waiting_unfailing text
    exact ⟨(hgood 0).1, fun n => (hgood n).2⟩
  obtain ⟨b, rest, hflatten, hmidway⟩ := Chain.exists_midway hsome hne name hideFirst text i
  rw [hflatten] at hgood ⊢
  obtain ⟨⟨hb, hlive⟩, hrest⟩ := List.forall_mem_cons.1 hgood
  obtain ⟨hsome, heach⟩ := Chain.composes_of_midway hmidway hb (hlive i) hrest
  simp only [ReadsInTurn, read_past]
  refine ⟨⟨hsome, fun ⟨j, ss, h⟩ => ?_⟩, fun j ss h => ?_⟩
  · obtain ⟨n, hfeed, hn⟩ := heach j ss h
    rw [hfeed]
    exact hn.complete
  · obtain ⟨n, hfeed, hn⟩ := heach j ss h
    rw [hfeed]
    exact ⟨rfl, rfl, hn.text_eq, hn.span_eq⟩

theorem reads_in_turn_tag :
    let bracket : Matcher Empty := mk (.chain { name := "bracket", rule := .inOrder, groups :=
      [[chars "<" (.one (.singleton '<')), chars ">" (.upTo (.singleton '>'))]] })
    let word := mk (.words { name := "word", rule := .shortest, words := [['b', 'c']] })
    let groups := [[bracket, word], [chars "!" (.upTo (.singleton '!'))]]
    let m := mk (.chain { name := "tag", rule := .inOrder, groups, hideFirst := true })
    let r := m.read (.past "<a>bc.!d".toList 0)
    r.2.1.isComplete = true ∧ r.1 = 7 ∧
      r.2.1.span.map (fun s => (s.start.offset, s.stop.offset)) = some (3, 6) ∧
      ReadsInTurn m true groups.flatten "<a>bc.!d".toList 0 := by
  -- a bracket, itself a chain, a word, and then anything up to `!`: the span begins behind the
  -- bracket
  intro bracket word groups m r
  have hbracket : chain "bracket" .inOrder
      [[chars "<" (.one (.singleton '<')), chars ">" (.upTo (.singleton '>'))]] false = .ok bracket := rfl
  have hword : words "word" .shortest ["bc"] = .ok word := rfl
  have hm : chain "tag" .inOrder groups true = .ok m := rfl
  have hmade : ∀ group ∈ groups, ∀ a ∈ group, a.Made := by
    simp only [groups, List.forall_mem_cons]
    refine ⟨⟨.chain ?_ hbracket, .words hword, by simp⟩, ⟨.chars _ _, by simp⟩, by simp⟩
    simp only [List.forall_mem_cons]
    exact ⟨⟨.chars _ _, .chars _ _, by simp⟩, by simp⟩
  exact ⟨by decide +kernel, by decide +kernel, by decide +kernel, reads_in_turn hm hmade _ 0⟩

end Matcher

end Lexing
