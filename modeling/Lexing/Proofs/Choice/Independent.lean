import Lexing.Proofs.Choice.Branches
import Lexing.Proofs.Matcher.Covers
import Lexing.Proofs.TokenRule.Parts

namespace Lexing

open Matcher

namespace Matcher

variable {κ : Type} [CustomMatcher κ]

def offered (text : List Char) (m : Matcher κ) (i : Nat) : Nat → Reply (Matcher κ)
  | 0 => ⟨true, m, .past text i⟩
  | n + 1 =>
    match text[i + n]? with
    | none => offered text m i n
    | some c => (offered text m i n).state.accept c (.past text (i + n + 1))

theorem offered_succ {text : List Char} {i n : Nat} {c : Char} (hc : text[i + n]? = some c)
    (m : Matcher κ) : offered text m i (n + 1) =
      (offered text m i n).state.accept c (.past text (i + n + 1)) := by
  rw [offered, hc]

def Keeps (text : List Char) (i n : Nat) (m : Matcher κ) : Prop :=
  ∀ l < n, (offered text m i l).state.isFailed = false ∧ (offered text m i (l + 1)).accepted = true

instance (text : List Char) (i n : Nat) (m : Matcher κ) : Decidable (m.Keeps text i n) :=
  Nat.decidableBallLT n fun l _ =>
    (offered text m i l).state.isFailed = false ∧ (offered text m i (l + 1)).accepted = true

theorem keeps_succ_iff {text : List Char} {i n : Nat} {m : Matcher κ} : m.Keeps text i (n + 1) ↔
    m.Keeps text i n ∧ (offered text m i n).state.isFailed = false ∧
      (offered text m i (n + 1)).accepted = true :=
  Nat.forall_lt_succ_right

def alive : Matcher κ → List Nat
  | mk (.choice c) => c.alive
  | _ => []

def member? : Matcher κ → Nat → Option (Matcher κ)
  | mk (.choice c), k => c.members[k]?
  | _, _ => none

end Matcher

variable {κ : Type} [CustomMatcher κ] {text : List Char} {i n : Nat} {c : Char}
  {members : List (Matcher κ)} {branches : List (Branch (Matcher κ))} {m : Choice (Matcher κ)}

structure Branch.Apart (text : List Char) (i n : Nat) (a : Matcher κ) (b : Branch (Matcher κ)) : Prop where
  live_iff : b.live = true ↔ a.Keeps text i n
  member_eq : b.live = true → b.member = (offered text a i n).state

theorem Branch.Apart.offer {a : Matcher κ} {b : Branch (Matcher κ)} (h : b.Apart text i n a)
    (hc : text[i + n]? = some c) :
    (b.offer Matcher.accept c (.past text (i + n + 1))).1.Apart text i (n + 1) a := by
  have hoffered := offered_succ hc a
  rw [Branch.offer]
  cases hlive : b.live with
  | false =>
    have hkeeps : ¬a.Keeps text i n := fun hkeeps => by
      rw [h.live_iff.2 hkeeps] at hlive
      cases hlive
    refine ⟨?_, fun hlive' => ?_⟩
    · simp [hlive, keeps_succ_iff, hkeeps]
    · simp [hlive] at hlive'
  | true =>
    have hkeeps := h.live_iff.1 hlive
    have hmember := h.member_eq hlive
    have hfailed : Member.isFailed b.member = (offered text a i n).state.isFailed := by
      rw [hmember]
      rfl
    rw [hfailed]
    cases hstate : (offered text a i n).state.isFailed with
    | true => exact ⟨by simp [keeps_succ_iff, hstate], fun hlive => absurd hlive Bool.false_ne_true⟩
    | false =>
      simp only [Bool.not_true, Bool.false_eq_true, if_false, hmember, ← hoffered]
      exact ⟨by simp [keeps_succ_iff, hkeeps, hstate], fun _ => rfl⟩

theorem Branch.Apart.succ_of_not_keeps {a : Matcher κ} {b : Branch (Matcher κ)} (h : b.Apart text i n a)
    (hkeeps : ¬a.Keeps text i n) : b.Apart text i (n + 1) a := by
  have hdead : ¬b.live = true := mt h.live_iff.1 hkeeps
  exact ⟨by simp [hdead, keeps_succ_iff, hkeeps], fun hlive => absurd hlive hdead⟩

abbrev Choice.Apart (text : List Char) (i n : Nat) (members : List (Matcher κ))
    (branches : List (Branch (Matcher κ))) : Prop :=
  List.Forall₂ (fun a b => b.Apart text i n a) members branches

namespace Choice

theorem apart_new (text : List Char) (i : Nat) (members : List (Matcher κ)) :
    Apart text i 0 members (members.map fun a => { member := a }) := by
  rw [Apart, List.forall₂_map_right_iff, List.forall₂_same]
  exact fun a _ => ⟨by simp [Keeps], fun _ => rfl⟩

theorem Apart.update [LawfulCursor κ] (h : Apart text i n members m.branches) (hvalid : m.Valid)
    (hc : text[i + n]? = some c) : Apart text i (n + 1) members
      (m.update Matcher.accept c (.past text (i + n + 1))).2.1.branches := by
  rw [branches_update Matcher.cursor_accept hvalid, Apart, List.forall₂_map_right_iff]
  exact h.imp fun a b hb => hb.offer hc

theorem Apart.getElem? (h : Apart text i n members m.branches) {k : Nat} {a : Matcher κ}
    (ha : members[k]? = some a) : ∃ b, m.members[k]? = some b ∧
      (⟨decide (k ∈ m.alive), b⟩ : Branch (Matcher κ)).Apart text i n a := by
  obtain ⟨hk, rfl⟩ := List.getElem?_eq_some_iff.1 ha
  have hlength : m.members.length = members.length := by
    simpa [branches] using (List.Forall₂.length_eq h).symm
  have hget := List.Forall₂.get h hk (by simpa [branches, hlength] using hk)
  refine ⟨_, List.getElem?_eq_getElem (hlength ▸ hk), ?_⟩
  simpa [branches] using hget

theorem Apart.any_live_iff (h : Apart text i n members branches) :
    branches.any Branch.live = true ↔ ∃ a ∈ members, a.Keeps text i n := by
  induction h with
  | nil => simp
  | cons hb _ ih => rw [List.any_cons, Bool.or_eq_true, hb.live_iff, ih, List.exists_mem_cons_iff]

theorem Apart.any_isComplete_iff (h : Apart text i n members branches) :
    (branches.any fun b => b.live && Member.isComplete b.member) = true ↔
      ∃ a ∈ members, a.Keeps text i n ∧ (offered text a i n).state.isComplete = true := by
  induction h with
  | nil => simp
  | @cons a b _ _ hb _ ih =>
    have hmember : b.live = true → Member.isComplete b.member =
        (offered text a i n).state.isComplete := fun hlive => by
      rw [hb.member_eq hlive]
      rfl
    rw [List.any_cons, Bool.or_eq_true, Bool.and_eq_true, and_congr_right fun h => by rw [hmember h],
      hb.live_iff, ih, List.exists_mem_cons_iff]

theorem Apart.mem_alive_iff (h : Apart text i n members m.branches) (hvalid : m.Valid) (k : Nat) :
    k ∈ m.alive ↔ ∃ a, members[k]? = some a ∧ a.Keeps text i n := by
  constructor
  · intro hk
    have hlength : members.length = m.members.length := by
      simpa [branches] using List.Forall₂.length_eq h
    have ha := List.getElem?_eq_getElem (hlength ▸ hvalid.lt_length k hk)
    obtain ⟨b, -, hb⟩ := h.getElem? ha
    exact ⟨_, ha, hb.live_iff.1 (decide_eq_true hk)⟩
  · rintro ⟨a, ha, hkeeps⟩
    obtain ⟨b, -, hb⟩ := h.getElem? ha
    exact of_decide_eq_true (hb.live_iff.2 hkeeps)

theorem Apart.member_eq (h : Apart text i n members m.branches) {k : Nat} {a : Matcher κ}
    (ha : members[k]? = some a) (hkeeps : a.Keeps text i n) :
    m.members[k]? = some (offered text a i n).state := by
  obtain ⟨b, hb, hapart⟩ := h.getElem? ha
  rw [hb, ← hapart.member_eq (hapart.live_iff.2 hkeeps)]

structure Tracks (members : List (Matcher κ)) (text : List Char) (i n : Nat) (m : Choice (Matcher κ)) :
    Prop where
  rule_eq : m.rule = .any
  valid : m.Valid
  branches : Apart text i n members m.branches
  failed_iff : m.progress.failed = true ↔ ∀ a ∈ members, ¬a.Keeps text i n
  complete_iff : m.progress.isComplete = true ↔
    0 < n ∧ ∃ a ∈ members, a.Keeps text i n ∧ (offered text a i n).state.isComplete = true
  covers : m.progress.failed = false → m.progress.Covers text i (i + n)

namespace Tracks

theorem new (hsome : members ≠ []) (name : String) (text : List Char) (i : Nat) :
    ({ name, rule := .any, members } : Choice (Matcher κ)).Tracks members text i 0 where
  rule_eq := rfl
  valid := valid_fresh { name, rule := .any, members }
  branches := by
    have hbranches := branches_fresh { name, rule := .any, members }
    exact hbranches ▸ apart_new text i members
  failed_iff := by
    obtain ⟨a, ha⟩ := List.exists_mem_of_ne_nil members hsome
    exact ⟨nofun, fun hnone => absurd (fun _ => nofun) (hnone a ha)⟩
  complete_iff := by simp [Progress.isComplete]
  covers _ := Progress.covers_empty text i

theorem accept_eq [LawfulCursor κ] (h : m.Tracks members text i n) (hlive : m.progress.failed = false)
    (hc : text[i + n]? = some c) :
    ∃ (s : Choice (Matcher κ)) (complete : Bool), s.rule = .any ∧ s.Valid ∧
      Apart text i (n + 1) members s.branches ∧ s.progress = m.progress ∧
      (complete = true ↔ ∃ a ∈ members, a.Keeps text i (n + 1) ∧
        (offered text a i (n + 1)).state.isComplete = true) ∧
      m.accept Matcher.accept c (.past text (i + n + 1)) =
        if ∃ a ∈ members, a.Keeps text i (n + 1) then
          ⟨true, s.push complete c (.past text (i + n + 1)), .past text (i + n + 1)⟩
        else
          ⟨false, { s with progress := { s.progress with complete := false, failed := true } },
            .past text (i + n + 1)⟩ := by
  have hvalid : (m.update Matcher.accept c (.past text (i + n + 1))).2.1.Valid := h.valid.update ..
  have hbranches := h.branches.update h.valid hc
  refine ⟨(m.update Matcher.accept c (.past text (i + n + 1))).2.1,
    (m.update Matcher.accept c (.past text (i + n + 1))).1, h.rule_eq, hvalid, hbranches, rfl, ?_, ?_⟩
  · rw [complete_update h.valid]
    exact hbranches.any_isComplete_iff
  · have hempty := isEmpty_alive hvalid
    simp only [accept, hlive, h.rule_eq, acceptAny, cursor_update Matcher.cursor_accept,
      Bool.false_eq_true, if_false]
    by_cases hkeeps : ∃ a ∈ members, a.Keeps text i (n + 1)
    · rw [hbranches.any_live_iff.2 hkeeps] at hempty
      rw [hempty, if_pos hkeeps]
      rfl
    · rw [Bool.eq_false_iff.2 (mt hbranches.any_live_iff.1 hkeeps)] at hempty
      rw [hempty, if_neg hkeeps]
      rfl

theorem accept_of_failed (hfailed : m.progress.failed = true) (c : Char) (cur : Cursor) :
    m.accept Matcher.accept c cur = ⟨false, m, cur⟩ := by
  rw [Choice.accept, if_pos hfailed]

theorem succ_of_failed (h : m.Tracks members text i n) (hfailed : m.progress.failed = true) :
    m.Tracks members text i (n + 1) := by
  have hdead := h.failed_iff.1 hfailed
  have hnone : ∀ a ∈ members, ¬a.Keeps text i (n + 1) := fun a ha hkeeps =>
    hdead a ha (keeps_succ_iff.1 hkeeps).1
  refine ⟨h.rule_eq, h.valid, ?_, ?_, ?_, ?_⟩
  · refine ((List.forall₂_and_left _ _).2 ⟨hdead, h.branches⟩).imp fun a b hb => ?_
    exact hb.2.succ_of_not_keeps hb.1
  · simpa [hfailed] using hnone
  · rw [Progress.isComplete, hfailed]
    simpa using fun a ha hkeeps => absurd hkeeps (hnone a ha)
  · intro hlive
    rw [hfailed] at hlive
    cases hlive

theorem accept [LawfulCursor κ] (h : m.Tracks members text i n) (hc : text[i + n]? = some c) :
    (m.accept Matcher.accept c (.past text (i + n + 1))).state.Tracks members text i (n + 1) ∧
      (m.accept Matcher.accept c (.past text (i + n + 1))).accepted =
        !(m.accept Matcher.accept c (.past text (i + n + 1))).state.progress.failed := by
  cases hlive : m.progress.failed with
  | true =>
    rw [accept_of_failed hlive]
    exact ⟨h.succ_of_failed hlive, by simp [hlive]⟩
  | false =>
    obtain ⟨s, complete, hrule, hvalid, hbranches, hprogress, hcomplete, haccept⟩ := h.accept_eq hlive hc
    rw [haccept]
    split
    · next hsome =>
      have hpushed : (s.progress.pushAs complete c (Cursor.past text (i + n + 1)).position).failed =
          false := hprogress ▸ hlive
      have hcovers := (h.covers hlive).pushAs hc complete
      refine ⟨⟨hrule, ⟨hvalid.nodup, hvalid.lt_length⟩, hbranches, ?_, ?_, fun _ => ?_⟩, ?_⟩
      · simpa [push, hpushed] using hsome
      · rw [push, Progress.isComplete_of_live hpushed, ← hcomplete]
        simp [Progress.pushAs]
      · rw [push, hprogress]
        exact hcovers
      · simp [push, hpushed]
    · next hnone =>
      refine ⟨⟨hrule, ⟨hvalid.nodup, hvalid.lt_length⟩, hbranches, ?_, ?_, fun hlive => ?_⟩, rfl⟩
      · simpa using hnone
      · simpa [Progress.isComplete] using fun a ha hkeeps => absurd ⟨a, ha, hkeeps⟩ hnone
      · cases hlive

theorem progress_accept [LawfulCursor κ] {members' : List (Matcher κ)} {m' : Choice (Matcher κ)}
    (h : m.Tracks members text i n) (h' : m'.Tracks members' text i n) (hperm : members.Perm members')
    (heq : m.progress = m'.progress) (hc : text[i + n]? = some c) :
    (m.accept Matcher.accept c (.past text (i + n + 1))).state.progress =
      (m'.accept Matcher.accept c (.past text (i + n + 1))).state.progress := by
  have hexists : ∀ P : Matcher κ → Prop, (∃ a ∈ members, P a) ↔ ∃ a ∈ members', P a := fun P =>
    exists_congr fun a => and_congr_left fun _ => hperm.mem_iff
  cases hlive : m.progress.failed with
  | true => rw [accept_of_failed hlive, accept_of_failed (heq ▸ hlive), heq]
  | false =>
    obtain ⟨s, complete, -, -, -, hs, hcomplete, haccept⟩ := h.accept_eq hlive hc
    obtain ⟨s', complete', -, -, -, hs', hcomplete', haccept'⟩ := h'.accept_eq (heq ▸ hlive) hc
    have hsame : complete = complete' := by
      rw [Bool.eq_iff_iff, hcomplete, hcomplete', hexists]
    rw [haccept, haccept', hsame]
    simp only [hexists]
    split
    · simp [push, hs, hs', heq]
    · simp [hs, hs', heq]

end Tracks

end Choice

namespace Matcher

variable {m : Matcher κ} {name : String}

theorem exists_tracks_offered [LawfulCursor κ] (hm : choice name .any members = .ok m)
    (hn : i + n ≤ text.length) : ∃ s : Choice (Matcher κ),
      (offered text m i n).state = mk (.choice s) ∧ s.Tracks members text i n ∧
        (offered text m i n).accepted = !s.progress.failed := by
  induction n with
  | zero =>
    have hsome : members ≠ [] := by
      rintro rfl
      cases hm
    rw [eq_of_choice hm]
    exact ⟨_, rfl, .new hsome name text i, rfl⟩
  | succ n ih =>
    obtain ⟨s, hs, htracks, -⟩ := ih (by omega)
    have hc := List.getElem?_eq_getElem (show i + n < text.length by omega)
    obtain ⟨hnext, haccepted⟩ := htracks.accept hc
    rw [offered_succ hc, hs, accept_mk]
    exact ⟨_, rfl, hnext, haccepted⟩

theorem progress_of_perm [LawfulCursor κ] {members' : List (Matcher κ)} {name' : String}
    {m' : Matcher κ} {s s' : Choice (Matcher κ)} (hperm : members.Perm members')
    (hm : choice name .any members = .ok m) (hm' : choice name' .any members' = .ok m')
    (hn : i + n ≤ text.length) (hs : (offered text m i n).state = mk (.choice s))
    (hs' : (offered text m' i n).state = mk (.choice s')) : s.progress = s'.progress := by
  induction n generalizing s s' with
  | zero =>
    rw [eq_of_choice hm] at hs
    rw [eq_of_choice hm'] at hs'
    cases hs
    cases hs'
    rfl
  | succ n ih =>
    obtain ⟨t, ht, htracks, -⟩ := exists_tracks_offered hm (show i + n ≤ text.length by omega)
    obtain ⟨t', ht', htracks', -⟩ := exists_tracks_offered hm' (show i + n ≤ text.length by omega)
    have hc := List.getElem?_eq_getElem (show i + n < text.length by omega)
    have hprogress := htracks.progress_accept htracks' hperm (ih (by omega) ht ht') hc
    rw [offered_succ hc, ht, accept_mk] at hs
    rw [offered_succ hc, ht', accept_mk] at hs'
    cases hs
    cases hs'
    exact hprogress

/-- All that can be seen of the choice `m` after `n` characters, in terms of what its members do when they
are offered the same characters alone. -/
structure RunsApart (text : List Char) (i n : Nat) (m : Matcher κ) (members : List (Matcher κ)) :
    Prop where
  nodup : (offered text m i n).state.alive.Nodup
  mem_alive_iff : ∀ k, k ∈ (offered text m i n).state.alive ↔
    ∃ a, members[k]? = some a ∧ a.Keeps text i n
  member_eq : ∀ k a, members[k]? = some a → a.Keeps text i n →
    (offered text m i n).state.member? k = some (offered text a i n).state
  accepted_iff : (offered text m i n).accepted = true ↔ ∃ a ∈ members, a.Keeps text i n
  failed_iff : (offered text m i n).state.isFailed = true ↔ ∀ a ∈ members, ¬a.Keeps text i n
  complete_iff : (offered text m i n).state.isComplete = true ↔
    0 < n ∧ ∃ a ∈ members, a.Keeps text i n ∧ (offered text a i n).state.isComplete = true
  text_eq : (offered text m i n).state.isFailed = false →
    (offered text m i n).state.text = slice text i (i + n)
  span_eq : (offered text m i n).state.isComplete = true → (offered text m i n).state.span =
    some ⟨(Cursor.ofList text).positionAt i, (Cursor.ofList text).positionAt (i + n - 1)⟩

structure LooksLike (text : List Char) (i n : Nat) (m m' : Matcher κ) : Prop where
  accepted_eq : (offered text m i n).accepted = (offered text m' i n).accepted
  complete_eq : (offered text m i n).state.isComplete = (offered text m' i n).state.isComplete
  failed_eq : (offered text m i n).state.isFailed = (offered text m' i n).state.isFailed
  text_eq : (offered text m i n).state.text = (offered text m' i n).state.text
  span_eq : (offered text m i n).state.span = (offered text m' i n).state.span

/-- The alternatives of a choice run independently, and their order does not matter. -/
theorem runs_apart [LawfulCursor κ] (hm : choice name .any members = .ok m) (hn : i + n ≤ text.length) :
    RunsApart text i n m members ∧ ∀ name' members' m', members.Perm members' →
      choice name' .any members' = .ok m' → LooksLike text i n m m' := by
  obtain ⟨s, hs, htracks, haccepted⟩ := exists_tracks_offered hm hn
  constructor
  · constructor
    · rw [hs]
      exact htracks.valid.nodup
    · rw [hs]
      exact htracks.branches.mem_alive_iff htracks.valid
    · rw [hs]
      exact fun k a ha hkeeps => htracks.branches.member_eq ha hkeeps
    · rw [haccepted, Bool.not_eq_true', ← Bool.not_eq_true, htracks.failed_iff]
      simp
    · rw [hs]
      exact htracks.failed_iff
    · rw [hs]
      exact htracks.complete_iff
    · rw [hs]
      exact fun hlive => (htracks.covers hlive).text_eq
    · rw [hs]
      intro hcomplete
      obtain ⟨hpos, -⟩ := htracks.complete_iff.1 hcomplete
      have hcomplete : (s.progress.complete && !s.progress.failed) = true := hcomplete
      rw [Bool.and_eq_true, Bool.not_eq_true'] at hcomplete
      exact (htracks.covers hcomplete.2).span_eq (Nat.lt_add_of_pos_right hpos) hcomplete.1
  · intro name' members' m' hperm hm'
    obtain ⟨s', hs', -, haccepted'⟩ := exists_tracks_offered hm' hn
    have hprogress := progress_of_perm hperm hm hm' hn hs hs'
    constructor
    · rw [haccepted, haccepted', hprogress]
    all_goals rw [hs, hs']
    · exact congrArg Progress.isComplete hprogress
    · exact congrArg Progress.failed hprogress
    · exact congrArg Progress.text hprogress
    · exact congrArg Progress.span hprogress

theorem runs_apart_two_left :
    let letters := CharSet.range 'a' 'z'
    let members : List (Matcher Empty) := [chars "one" (.one (.singleton 'a')),
      chars "run" (.run letters letters), mk (.words { name := "word", rule := .longest, words := [['a', 'b']] })]
    let any : List (Matcher Empty) → Matcher Empty := fun members =>
      mk (.choice { name := "any", rule := .any, members })
    (offered ['a', 'b'] (any members) 0 2).state.alive = [2, 1] ∧
      RunsApart ['a', 'b'] 0 2 (any members) members ∧
        LooksLike ['a', 'b'] 0 2 (any members) (any members.reverse) := by
  -- at `b` the first alternative drops out, and the last one takes its place in the bag
  intro letters members any
  have hm : choice "any" .any members = .ok (any members) := rfl
  obtain ⟨hruns, hlooks⟩ := runs_apart (i := 0) (n := 2) hm (show 0 + 2 ≤ ['a', 'b'].length by decide)
  exact ⟨by decide +kernel, hruns, hlooks "any" members.reverse _ members.reverse_perm.symm rfl⟩

end Matcher

end Lexing
