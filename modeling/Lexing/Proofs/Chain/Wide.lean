import Lexing.Proofs.Choice.Branches
import Lexing.Proofs.Matcher.Places
import Lexing.Proofs.TokenRule.Parts

namespace Lexing

variable {κ : Type} [CustomMatcher κ]

namespace Progress

variable {p : Progress} {pos : Position} {n : Nat}

theorem start_pushAs_lt (h : ∀ q, p.start = some q → q.offset < n) (hn : n ≤ pos.offset)
    (complete : Bool) (c : Char) :
    ∀ q, (p.pushAs complete c pos).start = some q → q.offset < pos.offset + 1 := by
  intro q hq
  simp only [pushAs, push] at hq
  split at hq
  · cases hq
    exact Nat.lt_succ_self _
  · have hlt := h q hq
    omega

end Progress

theorem Span.start_lt_stop_union {s t : Span} (h : s.start.offset < t.stop.offset) :
    (s.union t).start.offset < (s.union t).stop.offset := by
  simp only [union]
  split <;> split <;> omega

theorem Chain.failed_accept {m : Chain (Matcher κ)} (hrule : m.rule = .inOrder)
    (h : m.failed = true) (c : Char) (cur : Cursor) :
    (m.accept Matcher.accept c cur).state.failed = true := by
  have hoffer : (m.offerCurrent Matcher.accept c cur).state.failed = true :=
    (congrArg Chain.failed (frame_offerCurrent m c cur)).trans h
  rw [accept]
  split
  · rfl
  · simp only [hrule, acceptInOrder]
    generalize m.offerCurrent Matcher.accept c cur = r at hoffer
    have hcommit : r.state.commit.failed = true := by
      rw [commit_eq]
      exact hoffer
    have hmoved : r.state.commit.moveOn.failed = true :=
      (congrArg Chain.failed (frame_moveOn _)).trans hcommit
    simp only [finish]
    split
    · split
      · exact hmoved
      · exact hoffer
    · rfl

namespace Matcher

/-- Where the matcher is complete, whatever it was offered, its span is not a single place. -/
def Wide (m : Matcher κ) : Prop :=
  ∀ ⦃text lo n s⦄, Served text lo m n s → s.isComplete = true →
    ∃ span, s.span = some span ∧ span.start.offset < span.stop.offset

def Slow (m : Matcher κ) : Prop := ∀ c cur, (m.accept c cur).state.isComplete = false

inductive Spread (n : Nat) : Matcher κ → Prop
  | opening {name l l' q taken} : l.Strict → l.progress? = some q → q.Live →
      (∀ p, q.start = some p → p.offset < n) → l'.progress? = some {} →
      Spread n (.opening name (mk l) (mk l') taken)
  | closing {name o l q s taken} : l.progress? = some q → q.Live → s.start.offset < n →
      Spread n (.closing name o (mk l) (some s) taken)
  | closed {name o e s taken} : s.start.offset < s.stop.offset →
      Spread n (.closed name o e (some s) taken)
  | failed {m} : m.rule = .inOrder → m.failed = true → Spread n (mk (.chain m))

namespace Spread

variable {m : Matcher κ} {n k : Nat} {c : Char} {cur : Cursor}

omit [CustomMatcher κ] in
theorem mono (h : Spread n m) (hnk : n ≤ k) : Spread k m := by
  cases h with
  | opening hl hq hlive hstart hl' =>
    exact .opening hl hq hlive (fun p hp => Nat.lt_of_lt_of_le (hstart p hp) hnk) hl'
  | closing hq hlive hs => exact .closing hq hlive (Nat.lt_of_lt_of_le hs hnk)
  | closed hs => exact .closed hs
  | failed hrule hfailed => exact .failed hrule hfailed

theorem wide (h : Spread n m) (hcomplete : m.isComplete = true) :
    ∃ span, m.span = some span ∧ span.start.offset < span.stop.offset := by
  cases h with
  | opening => cases hcomplete
  | closing => cases hcomplete
  | closed hs => exact ⟨_, rfl, hs⟩
  | @failed m hrule hfailed =>
    have hcomplete : (m.complete && !m.failed) = true := hcomplete
    simp [hfailed] at hcomplete

theorem of_isFailed {m : Chain (Matcher κ)} (hrule : m.rule = .inOrder)
    (h : ((mk (.chain m)).accept c cur).state.isFailed = true) :
    Spread n ((mk (.chain m)).accept c cur).state := by
  rw [accept_mk] at h ⊢
  exact .failed ((Chain.rule_accept m c cur).trans hrule) h

variable [LawfulCursor κ]

theorem accept (h : Spread n m) (hn : n ≤ cur.position.offset) :
    Spread (cur.position.offset + 1) (m.accept c cur).state := by
  cases h with
  | @opening name l l' q taken hl hq hlive hstart hl' =>
    cases htaken : ((mk l).accept c cur).accepted with
    | false => exact of_isFailed rfl (isFailed_opening htaken)
    | true =>
      obtain ⟨hstrict, complete, hpush⟩ := hl.accept hq (accept_mk l c cur ▸ htaken)
      have hmoves : q.Moves cur.position true (q.pushAs complete c cur.position) :=
        .pushAs complete c
      have hlt := Progress.start_pushAs_lt hstart hn complete c
      rw [accept_opening htaken, state_accept_mk]
      dsimp only
      generalize (l.accept Matcher.accept c cur).state = s at hstrict hpush
      generalize q.pushAs complete c cur.position = q' at hpush hmoves hlt
      split
      · next hcomplete =>
        obtain ⟨start, hspan⟩ := hmoves.span_eq rfl hlive
          ((Layer.isComplete_of_progress? hpush).symm.trans hcomplete)
        rw [show (mk s).span = _ from (Layer.span_of_progress? hpush).trans hspan]
        exact .closing hl' Progress.live_empty (hlt start (Progress.start_of_span hspan))
      · exact .opening hstrict hpush (hmoves.live rfl hlive) hlt hl'
  | @closing name o l q s taken hq hlive hs =>
    cases htaken : ((mk l).accept c cur).accepted with
    | false => exact of_isFailed rfl (isFailed_closing htaken)
    | true =>
      obtain ⟨q', hq', hmoves⟩ := Layer.moves_accept cursor_accept hq c cur
      rw [accept_mk] at htaken
      have htaken : (l.accept Matcher.accept c cur).accepted = true := htaken
      rw [accept_closing (by rw [accept_mk]; exact htaken), state_accept_mk]
      dsimp only
      rw [htaken] at hmoves
      generalize (l.accept Matcher.accept c cur).state = t at hq'
      split
      · next hcomplete =>
        obtain ⟨start, hspan⟩ := hmoves.span_eq rfl hlive
          ((Layer.isComplete_of_progress? hq').symm.trans hcomplete)
        rw [show (mk t).span = _ from (Layer.span_of_progress? hq').trans hspan]
        exact .closed (Span.start_lt_stop_union (Nat.lt_of_lt_of_le hs hn))
      · exact .closing hq' (hmoves.live rfl hlive) (by omega)
  | closed => exact of_isFailed rfl isFailed_closed
  | @failed m hrule hfailed =>
    rw [accept_mk]
    exact .failed ((Chain.rule_accept m c cur).trans hrule) (Chain.failed_accept hrule hfailed c cur)

theorem served {text : List Char} {lo : Nat} {s : Matcher κ} (h : Spread lo m)
    (hserved : Served text lo m n s) : Spread n s := by
  induction hserved with
  | start hlo => exact h.mono hlo
  | @offer n i s c _ hc hlt ih =>
    have hoffset := Cursor.offset_position_past hc
    have hnext := ih.accept (c := c) (Nat.le_of_eq hoffset.symm)
    rw [hoffset] at hnext
    exact hnext.mono hlt

end Spread

end Matcher

namespace Choice

variable {m : Choice (Matcher κ)} {n : Nat} {c : Char} {cur : Cursor}

inductive Spread (n : Nat) (m : Choice (Matcher κ)) : Prop
  | fresh : m.rule = .any → m.progress = {} → m.Valid → (∀ a ∈ m.members, a.Slow) → Spread n m
  | begun {p} : m.rule = .any → m.progress.taken ≠ [] → m.progress.start = some p → p.offset < n →
      (m.progress.isComplete = true → ∃ s, m.progress.span = some s ∧
        s.start.offset < s.stop.offset) → Spread n m
  | failed : m.progress.failed = true → Spread n m

theorem Spread.mono {k : Nat} (h : m.Spread n) (hnk : n ≤ k) : m.Spread k := by
  cases h with
  | fresh hrule hprogress hvalid hslow => exact .fresh hrule hprogress hvalid hslow
  | begun hrule htaken hstart hlt hwide =>
    exact .begun hrule htaken hstart (Nat.lt_of_lt_of_le hlt hnk) hwide
  | failed h => exact .failed h

theorem complete_update_eq_false (c : Char) (cur : Cursor) (hvalid : m.Valid)
    (hslow : ∀ a ∈ m.members, a.Slow) : (m.update Matcher.accept c cur).1 = false := by
  obtain ⟨place, -, hbranches⟩ := exists_branches_update Matcher.accept hvalid c cur
  rw [complete_update hvalid, hbranches, List.any_eq_false]
  intro b hb hcomplete
  obtain ⟨hlive, hcomplete⟩ := Bool.and_eq_true_iff.1 hcomplete
  obtain ⟨i, hi, rfl⟩ := List.mem_mapIdx.1 hb
  have hmem : m.branches[i].member ∈ m.members := by simp [branches]
  rw [Branch.offer] at hlive hcomplete
  split at hlive
  · next hdead =>
    rw [show m.branches[i].live = true from hlive] at hdead
    cases hdead
  · split at hlive
    · cases hlive
    · next hlive' hfailed =>
      rw [if_neg hlive', if_neg hfailed] at hcomplete
      cases (hslow _ hmem c (place i)).symm.trans hcomplete

theorem Spread.wide (h : m.Spread n) (hcomplete : m.progress.isComplete = true) :
    ∃ s, m.progress.span = some s ∧ s.start.offset < s.stop.offset := by
  cases h with
  | fresh hrule hprogress =>
    rw [hprogress] at hcomplete
    cases hcomplete
  | begun _ _ _ _ hwide => exact hwide hcomplete
  | failed hfailed => simp [Progress.isComplete, hfailed] at hcomplete

variable [LawfulCursor κ]

theorem Spread.accept (h : m.Spread n) (hn : n ≤ cur.position.offset) :
    (m.accept Matcher.accept c cur).state.Spread (cur.position.offset + 1) := by
  rw [Choice.accept]
  cases hfailed : m.progress.failed with
  | true => exact .failed hfailed
  | false =>
    cases h with
    | fresh hrule hprogress hvalid hslow =>
      have hnone := complete_update_eq_false c cur hvalid hslow
      simp only [hrule, acceptAny, cursor_update Matcher.cursor_accept, Bool.false_eq_true, if_false]
      split
      · exact .failed rfl
      · refine .begun hrule (List.cons_ne_nil _ _) (p := cur.position) ?_ (Nat.lt_succ_self _) ?_
        · change (m.progress.pushAs _ c cur.position).start = _
          rw [hprogress]
          rfl
        · intro hcomplete
          simp only [push, hnone] at hcomplete
          cases hcomplete
    | @begun p hrule htaken hstart hlt =>
      simp only [hrule, acceptAny, cursor_update Matcher.cursor_accept, Bool.false_eq_true, if_false]
      split
      · exact .failed rfl
      · have hstart : ∀ complete, (m.progress.pushAs complete c cur.position).start = some p :=
          fun complete => Progress.start_pushAs hstart htaken complete c
        refine .begun hrule (List.cons_ne_nil _ _) (hstart _) (by omega) fun hcomplete => ?_
        exact ⟨_, Progress.span_pushAs (hstart _) hcomplete, Nat.lt_of_lt_of_le hlt hn⟩
    | failed h =>
      rw [hfailed] at h
      cases h

end Choice

namespace Matcher

theorem slow_opening {name : String} {o e : Matcher κ} {taken : List Char} :
    (opening name o e taken).Slow := by
  intro c cur
  apply Bool.eq_false_iff.2
  intro hcomplete
  have hlive : ((opening name o e taken).accept c cur).state.isFailed = false :=
    isFailed_of_isComplete nofun hcomplete
  cases htaken : (o.accept c cur).accepted with
  | false =>
    rw [isFailed_opening htaken] at hlive
    cases hlive
  | true =>
    rw [accept_opening htaken] at hcomplete
    dsimp only at hcomplete
    split at hcomplete
    · cases hcomplete
    · cases hcomplete

variable [LawfulCursor κ]

theorem wide_opening {name : String} {l l' : Layer κ (Matcher κ)} (hl : l.Strict)
    (hp : l.progress? = some {}) (hp' : l'.progress? = some {}) :
    (opening name (mk l) (mk l') []).Wide := by
  intro text lo n s hserved hcomplete
  exact ((Spread.opening hl hp Progress.live_empty nofun hp').served hserved).wide hcomplete

theorem wide_choice {m : Choice (Matcher κ)} (hrule : m.rule = .any) (hfresh : m.fresh = m)
    (hslow : ∀ a ∈ m.members, a.Slow) : (mk (.choice m)).Wide := by
  intro text lo n s hserved hcomplete
  obtain ⟨m', rfl, hm'⟩ : ∃ m', s = mk (.choice m') ∧ m'.Spread n := by
    clear hcomplete
    induction hserved with
    | start => exact ⟨m, rfl, .fresh hrule (by rw [← hfresh]; rfl) (hfresh ▸ m.valid_fresh) hslow⟩
    | @offer n i s c _ hc hlt ih =>
      obtain ⟨m', rfl, hm'⟩ := ih
      have hoffset := Cursor.offset_position_past hc
      have hnext := hm'.accept (c := c) (Nat.le_of_eq hoffset.symm)
      rw [hoffset] at hnext
      rw [accept_mk]
      exact ⟨_, rfl, hnext.mono hlt⟩
  exact hm'.wide hcomplete

end Matcher

theorem Part.wide_of_isBounded [LawfulCursor κ] {p : Part κ} {m : Matcher κ} (hp : p.isBounded = true)
    (h : p.toMatcher = .ok m) : m.Wide ∧ m.Slow := by
  obtain ⟨G, hG⟩ := chain_of_isBounded hp h
  cases (made_delimited_of_isBounded hp h).2 with
  | chain hl hprogress hprogress' =>
    exact ⟨Matcher.wide_opening hl hprogress hprogress', Matcher.slow_opening⟩
  | choice => cases hG

theorem TokenRule.wide_of_ofParts [LawfulCursor κ] {name : String} {compound : Bool}
    {firstChars : Option CharSet} {parts : List (Part κ)} {r : TokenRule κ}
    (h : ofParts name compound firstChars parts = .ok r) (hparts : ∀ p ∈ parts, p.isBounded = true) :
    r.prototype.Wide := by
  obtain ⟨ms, hfrom, -, hprototype⟩ := prototype_of_ofParts h
  have hslow : ∀ m ∈ ms, m.Wide ∧ m.Slow := by
    intro m hm
    obtain ⟨p, hp, hpm⟩ := hfrom m hm
    exact Part.wide_of_isBounded (hparts p hp) hpm
  rcases hprototype with rfl | hchoice
  · exact (hslow r.prototype (List.mem_singleton_self _)).1
  · rw [Matcher.eq_of_choice hchoice]
    exact Matcher.wide_choice rfl rfl fun m hm => (hslow m hm).2

end Lexing
