import Lexing.Proofs.Chain.Entering
import Lexing.Proofs.Chain.Skipping

namespace Lexing

namespace Chain

variable {κ : Type} [CustomMatcher κ] {G m : Chain (Matcher κ)} {text : List Char} {i j : Nat}
  {c : Char} {cur : Cursor}

/-- The members have taken nothing and are exact, those of a skipping chain also where they go on
after they were complete. -/
structure Sure (G : Chain (Matcher κ)) : Prop where
  shown : G.hideFirst = false
  copy_eq : ∀ a ∈ G.members, a.copy = a
  ending : ∀ a ∈ G.members, a.Ending
  steady : G.rule = .skipping → ∀ a ∈ G.members, a.Steady
  settles : G.rule = .skipping → ∀ a ∈ G.members, a.Settles fun _ => True

inductive Underway (m G : Chain (Matcher κ)) (text : List Char) (j : Nat) : Prop
  | inOrder : m.InOrder G text j → Underway m G text j
  | entering : m.Entering G text j → Underway m G text j
  | skipping : G.rule = .skipping → m.Skipping G text j → Underway m G text j

theorem Underway.incomplete (h : m.Underway G text j) : m.complete = false := by
  cases h with
  | inOrder h => exact h.incomplete
  | entering h => exact h.incomplete
  | skipping _ h => exact h.incomplete

theorem Underway.bounded (h : m.Underway G text j) : m.Bounded j := by
  cases h with
  | inOrder h => exact h.bounded
  | entering h => exact h.bounded
  | skipping _ h => exact h.bounded

variable [LawfulCopy κ]

theorem Underway.accept [LawfulCursor κ] (h : m.Underway G text j) (hG : G.Sure)
    (hc : text[j]? = some c)
    (htaken : (m.accept Matcher.accept c (.past text (j + 1))).accepted = true) :
    (m.accept Matcher.accept c (.past text (j + 1))).state.Underway G text (j + 1) ∨
      (m.accept Matcher.accept c (.past text (j + 1))).state.Done G text (j + 1) := by
  have hactive := active_of_taken htaken
  rw [Chain.accept, hactive] at htaken ⊢
  cases h with
  | inOrder h =>
    simp only [h.rule_eq] at htaken ⊢
    exact (h.accept hG.ending hc htaken).imp_left .inOrder
  | entering h =>
    have hrule := h.rule_eq
    rcases h.entering with hentering | hentering
    all_goals
      simp only [hrule, hentering] at htaken ⊢
      exact (h.accept hG.copy_eq hG.ending hc htaken).imp_left .entering
  | skipping hskip h =>
    simp only [h.rule_eq, hskip] at htaken ⊢
    exact (h.accept hG.copy_eq (hG.steady hskip) hskip (hG.settles hskip) hc htaken).imp_left
      (.skipping hskip)

omit [LawfulCopy κ] in
theorem Underway.refused (h : m.Underway G text j)
    (hrefused : (m.accept Matcher.accept c cur).accepted = false)
    (hcomplete : (m.accept Matcher.accept c cur).state.isComplete = true) :
    (G.rule = .suffixed ∨ G.rule = .separated) ∧
      EndsBefore j (m.accept Matcher.accept c cur).state.span ∧
      (m.accept Matcher.accept c cur).state.active = false := by
  have hincomplete : (m.accept Matcher.accept c cur).state.isComplete = false → False := by
    intro hfalse
    cases hfalse.symm.trans hcomplete
  rw [Chain.accept] at hrefused hcomplete hincomplete ⊢
  cases hactive : m.active with
  | false => simp [hactive, isComplete] at hcomplete
  | true =>
    simp only [hactive, Bool.not_true, Bool.false_eq_true, if_false] at hrefused hcomplete hincomplete ⊢
    cases h with
    | inOrder h =>
      simp only [h.rule_eq] at hrefused hincomplete
      exact (hincomplete (isComplete_finish_of_refused hrefused ..)).elim
    | entering h =>
      have hentering := h.entering
      have hrule := h.rule_eq
      rcases hentering with hentering | hentering
      all_goals
        simp only [hrule, hentering] at hrefused hcomplete ⊢
        exact ⟨by simp, h.refused hrefused hcomplete⟩
    | skipping hskip h =>
      simp only [h.rule_eq, hskip] at hrefused hincomplete
      have hend : (m.acceptSkipping Matcher.accept c cur).accepted = true ∨
          (m.acceptSkipping Matcher.accept c cur).state.isComplete = false :=
        taken_or_incomplete_acceptSkipping m c cur
      rcases hend with htaken | hfalse
      · cases hrefused.symm.trans htaken
      · exact (hincomplete hfalse).elim

theorem underway_fresh (hG : G.Sure) (text : List Char) (i : Nat) :
    G.fresh.Underway G text i := by
  have hbounded : G.fresh.Bounded i := ⟨hG.shown, rfl, nofun, nofun⟩
  have hgroups : G.fresh.recycleCurrent.groups = G.groups := groups_recycleCurrent hG.copy_eq rfl
  have hentering : G.rule = .suffixed ∨ G.rule = .separated → G.fresh.Underway G text i :=
    fun hrule => .entering ⟨hrule, rfl, hbounded, rfl, hgroups, holds_of_groups rfl _ text i⟩
  cases hrule : G.rule with
  | inOrder =>
    exact .inOrder ⟨hrule, hbounded, rfl, fun _ _ _ => rfl, holds_of_groups rfl _ text i⟩
  | suffixed => exact hentering (.inl hrule)
  | separated => exact hentering (.inr hrule)
  | skipping =>
    refine .skipping hrule ⟨rfl, hbounded, rfl, hgroups, fun _ => ⟨?_, ?_⟩, nofun⟩
    · exact holds_of_groups rfl _ text i
    · intro b hb
      exact (hG.steady hrule b (mem_members_of_current (m := G.fresh) hb)).waiting

theorem underway_or_done_of_takes [LawfulCursor κ] {P : Matcher κ → Prop} (hfresh : G.fresh = G)
    (hG : G.Sure)
    (hP : ∀ n j, P (.mk (.chain n)) → n.Done G text j → n.active = false ∨ text.length ≤ j)
    {s : Matcher κ} (h : Matcher.Takes P text (.mk (.chain G)) i j s) :
    ∃ n, s = .mk (.chain n) ∧ (n.Underway G text j ∨ P s ∧ n.Done G text j) := by
  induction h with
  | start =>
    refine ⟨G, rfl, .inl ?_⟩
    have h := underway_fresh hG text i
    rw [hfresh] at h
    exact h
  | @take j s c _ hc htaken hs ih =>
    obtain ⟨n, rfl, hn⟩ := ih
    rw [Matcher.accept_mk] at htaken hs ⊢
    have htaken : (n.accept Matcher.accept c (.past text (j + 1))).accepted = true := htaken
    refine ⟨(n.accept Matcher.accept c (.past text (j + 1))).state, rfl, ?_⟩
    rcases hn with hn | ⟨hPn, hdone⟩
    · exact (hn.accept hG hc htaken).imp_right fun hdone => ⟨hs, hdone⟩
    · rcases hP n j hPn hdone with hclosed | hend
      · rw [active_of_taken htaken] at hclosed
        cases hclosed
      · rw [List.getElem?_eq_none hend] at hc
        cases hc

end Chain

namespace Matcher

variable {κ : Type} [CustomMatcher κ] [LawfulCopy κ] [LawfulCursor κ] {G : Chain (Matcher κ)}

omit [LawfulCopy κ] [LawfulCursor κ] in
theorem not_waiting_of_done {n : Chain (Matcher κ)} {text : List Char} {j : Nat}
    (h : n.Done G text j) : ¬Waiting (mk (.chain n)) := by
  intro hwaiting
  have hwaiting : (n.complete && !n.failed) = false := hwaiting
  simp [h.complete, h.bounded.unfailed] at hwaiting

theorem underway_of_waiting (hfresh : G.fresh = G) (hG : G.Sure) {text : List Char} {i j : Nat}
    {s : Matcher κ} (h : Takes Waiting text (mk (.chain G)) i j s) :
    ∃ n, s = mk (.chain n) ∧ n.Underway G text j := by
  obtain ⟨n, rfl, hn | ⟨hwaiting, hdone⟩⟩ := Chain.underway_or_done_of_takes hfresh hG
    (fun n j hwaiting hdone => absurd hwaiting (not_waiting_of_done hdone)) h
  · exact ⟨n, rfl, hn⟩
  · exact absurd hwaiting (not_waiting_of_done hdone)

theorem ending_chain (hfresh : G.fresh = G) (hG : G.Sure) : (mk (.chain G)).Ending := by
  intro text i j s h
  cases h with
  | mk htakes hc htaken hcomplete =>
    obtain ⟨n, rfl, hn⟩ := underway_of_waiting hfresh hG htakes
    rw [accept_mk] at htaken hcomplete ⊢
    rcases hn.accept hG hc htaken with hin | hdone
    · have hcomplete : Chain.isComplete _ = true := hcomplete
      rw [Chain.isComplete, hin.incomplete] at hcomplete
      cases hcomplete
    · exact hdone.endsAt

omit [LawfulCopy κ] [LawfulCursor κ] in
theorem refused_of_underway {n : Chain (Matcher κ)} {text : List Char} {j : Nat} {c : Char}
    {cur : Cursor} (h : n.Underway G text j)
    (hrefused : ((mk (.chain n)).accept c cur).accepted = false)
    (hcomplete : ((mk (.chain n)).accept c cur).state.isComplete = true) :
    (G.rule = .suffixed ∨ G.rule = .separated) ∧
      EndsBefore j ((mk (.chain n)).accept c cur).state.span ∧
      ∀ d after, (((mk (.chain n)).accept c cur).state.accept d after).accepted = false := by
  rw [accept_mk] at hrefused hcomplete ⊢
  obtain ⟨hrule, hends, hclosed⟩ := h.refused hrefused hcomplete
  refine ⟨hrule, hends, ?_⟩
  intro d after
  change ((mk (.chain (n.accept accept c cur).state)).accept d after).accepted = false
  rw [accept_mk]
  apply Bool.eq_false_iff.2
  intro htaken
  rw [Chain.active_of_taken htaken] at hclosed
  cases hclosed

theorem settles_chain (hfresh : G.fresh = G) (hG : G.Sure) :
    (mk (.chain G)).Settles Waiting := by
  intro text i j s c htakes _ _ hrefused hcomplete
  obtain ⟨n, rfl, hn⟩ := underway_of_waiting hfresh hG htakes
  exact (refused_of_underway hn hrefused hcomplete).2

theorem firm_chain (hfresh : G.fresh = G) (hG : G.Sure)
    (hrule : ¬(G.rule = .suffixed ∨ G.rule = .separated)) : (mk (.chain G)).Firm Waiting := by
  intro text i j s c htakes _ _ hrefused
  obtain ⟨n, rfl, hn⟩ := underway_of_waiting hfresh hG htakes
  apply Bool.eq_false_iff.2
  intro hcomplete
  exact hrule (refused_of_underway hn hrefused hcomplete).1

section Regular

variable (hfresh : G.fresh = G) (hG : G.Sure) (hregular : G.Regular)
include hfresh hG hregular

theorem underway_or_done_of_regular {text : List Char} {i j : Nat} {s : Matcher κ}
    (h : Takes (fun _ => True) text (mk (.chain G)) i j s) :
    ∃ n, s = mk (.chain n) ∧ (n.Underway G text j ∨ n.Done G text j) := by
  obtain ⟨n, rfl, hn⟩ :=
    Chain.underway_or_done_of_takes hfresh hG (fun n j _ hdone => hdone.ended hregular) h
  exact ⟨n, rfl, hn.imp_right And.right⟩

theorem steady_chain : (mk (.chain G)).Steady where
  unfailed h := by
    obtain ⟨n, rfl, hn | hn⟩ := underway_or_done_of_regular hfresh hG hregular h
    · exact hn.bounded.unfailed
    · exact hn.bounded.unfailed
  endsAt h hcomplete := by
    obtain ⟨n, rfl, hn | hn⟩ := underway_or_done_of_regular hfresh hG hregular h
    · have hcomplete : (n.complete && !n.failed) = true := hcomplete
      rw [hn.incomplete] at hcomplete
      cases hcomplete
    · exact hn.endsAt

theorem settles_chain_regular : (mk (.chain G)).Settles fun _ => True := by
  intro text i j s c htakes hwaiting _ hrefused hcomplete
  obtain ⟨n, rfl, hn | hn⟩ := underway_or_done_of_regular hfresh hG hregular htakes
  · exact (refused_of_underway hn hrefused hcomplete).2
  · exact absurd hwaiting (not_waiting_of_done hn)

end Regular

def FallsBack : Matcher κ → Prop
  | mk (.chain m) => m.rule = .suffixed ∨ m.rule = .separated
  | _ => False

def Regular : Matcher κ → Prop
  | mk (.chain m) => m.Regular
  | _ => True

inductive Exact : Matcher κ → Prop
  | chars (m : CharMatcher) : Exact (mk (.chars m))
  | words (m : WordMatcher) : Exact (mk (.words m))
  | choice (m : Choice (Matcher κ)) : Exact (mk (.choice m))
  | custom (k : κ) : Exact (mk (.custom k))
  | chain {m : Chain (Matcher κ)} : m.hideFirst = false → (∀ a ∈ m.members, Exact a) →
      (m.rule = .skipping → ∀ a ∈ m.members, a.Regular) → Exact (mk (.chain m))

section Exact

variable [LawfulSpan κ]

omit [LawfulCursor κ] [LawfulSpan κ] in
theorem sure_of_members {m : Chain (Matcher κ)} (hshown : m.hideFirst = false)
    (hregular : m.rule = .skipping → ∀ a ∈ m.members, a.Regular)
    (h : ∀ a ∈ m.members, a.copy.Ending ∧
      (a.Regular → a.copy.Steady ∧ a.copy.Settles fun _ => True)) :
    ((m.map copy).fresh : Chain (Matcher κ)).Sure := by
  have hmembers : ∀ {p : Matcher κ → Prop}, (∀ a ∈ m.members, p a.copy) →
      ∀ b ∈ ((m.map copy).fresh : Chain (Matcher κ)).members, p b := by
    intro p hp b hb
    rw [Chain.members_fresh, Chain.members_map] at hb
    obtain ⟨a, ha, rfl⟩ := List.mem_map.1 hb
    exact hp a ha
  constructor
  · exact hshown
  · exact hmembers fun a _ => copy_copy a
  · exact hmembers fun a ha => (h a ha).1
  · intro hskip
    exact hmembers fun a ha => ((h a ha).2 (hregular hskip a ha)).1
  · intro hskip
    exact hmembers fun a ha => ((h a ha).2 (hregular hskip a ha)).2

omit [LawfulCopy κ] in
theorem Exact.steady_firm {m : Matcher κ} (h : m.Exact) :
    m.copy.Steady ∧ m.copy.Firm (fun _ => True) ∨ ∃ n, m = mk (.chain n) := by
  cases h with
  | chars m => exact .inl ⟨steady_of_progress? rfl, firm_of_progress? rfl⟩
  | words m => exact .inl ⟨steady_of_progress? rfl, firm_of_progress? rfl⟩
  | choice m =>
    rw [copy_mk]
    exact .inl ⟨steady_of_progress? rfl, firm_of_progress? rfl⟩
  | custom k => exact .inl ⟨LawfulSpan.steady k, LawfulSpan.firm k⟩
  | chain => exact .inr ⟨_, rfl⟩

omit [LawfulCopy κ] in
theorem Exact.ending_of_leaf {m : Matcher κ} (h : m.Exact) (hm : ∀ n, m ≠ mk (.chain n)) :
    m.copy.Ending ∧ (m.Regular → m.copy.Steady ∧ m.copy.Settles fun _ => True) := by
  rcases h.steady_firm with ⟨hsteady, hfirm⟩ | ⟨n, hn⟩
  · exact ⟨hsteady.ending, fun _ => ⟨hsteady, hfirm.settles⟩⟩
  · exact absurd hn (hm n)

theorem Exact.ending_steady {m : Matcher κ} (h : m.Exact) :
    m.copy.Ending ∧ (m.Regular → m.copy.Steady ∧ m.copy.Settles fun _ => True) := by
  induction h with
  | chars m => exact (Exact.chars m).ending_of_leaf (by simp)
  | words m => exact (Exact.words m).ending_of_leaf (by simp)
  | choice m => exact (Exact.choice m).ending_of_leaf (by simp)
  | custom k => exact (Exact.custom k).ending_of_leaf (by simp)
  | @chain m hshown _ hregular ih =>
    have hsure := sure_of_members hshown hregular ih
    rw [copy_mk]
    refine ⟨ending_chain rfl hsure, fun hm => ?_⟩
    have hm : ((m.map copy).fresh : Chain (Matcher κ)).Regular := by
      refine ⟨hm.1, fun hseparated => ?_⟩
      have hlength := hm.2 hseparated
      simpa [Chain.fresh, Chain.map] using hlength
    exact ⟨steady_chain rfl hsure hm, settles_chain_regular rfl hsure hm⟩

theorem Exact.ending {m : Matcher κ} (h : m.Exact) : m.copy.Ending := h.ending_steady.1

theorem Exact.settles {m : Matcher κ} (h : m.Exact) :
    m.copy.Settles Waiting ∧ (¬m.FallsBack → m.copy.Firm Waiting) := by
  rcases h.steady_firm with ⟨-, hfirm⟩ | ⟨m, rfl⟩
  · have hfirm : m.copy.Firm Waiting := hfirm.mono fun _ _ => trivial
    exact ⟨hfirm.settles, fun _ => hfirm⟩
  · cases h with
    | chain hshown hmembers hregular =>
      have hsure := sure_of_members hshown hregular fun a ha => (hmembers a ha).ending_steady
      rw [copy_mk]
      exact ⟨settles_chain rfl hsure, firm_chain rfl hsure⟩

omit [LawfulCopy κ] in
theorem Exact.waiting {m : Matcher κ} (h : m.Exact) : m.copy.Waiting := by
  rcases h.steady_firm with ⟨hsteady, -⟩ | ⟨n, rfl⟩
  · exact hsteady.waiting
  · rw [copy_mk]
    rfl

end Exact

end Matcher

end Lexing
