import Mathlib.Data.List.Forall2
import Lexing.Proofs.Choice.Branches
import Lexing.Proofs.Words.Attempt
import Lexing.Proofs.Words.Held

namespace Lexing

variable {κ : Type} [CustomMatcher κ] {words : List (List Char)} {groups : List (List (List Char))}
  {held : List Char}

structure Branch.Tries (words : List (List Char)) (held : List Char) (b : Branch (Matcher κ)) :
    Prop where
  live_iff : b.live = true ↔ Begins words held
  member : ∃ w : WordMatcher, b.member = .mk (.words w) ∧ w.rule = .longest ∧ w.words = words ∧
    (b.live = true → w.Holds words held)

namespace Branch.Tries

variable {b : Branch (Matcher κ)}

theorem isComplete_iff (h : b.Tries words held) :
    (b.live && Member.isComplete b.member) = true ↔ held ∈ words := by
  obtain ⟨w, hmember, -, -, hholds⟩ := h.member
  rw [Bool.and_eq_true]
  constructor
  · rintro ⟨hlive, hcomplete⟩
    rw [hmember] at hcomplete
    exact (hholds hlive).isComplete_iff.1 hcomplete
  · intro hmem
    have hlive := h.live_iff.2 (.of_mem hmem)
    rw [hmember]
    exact ⟨hlive, (hholds hlive).isComplete_iff.2 hmem⟩

theorem offer (h : b.Tries words held) (c : Char) (cur : Cursor) :
    (b.offer Matcher.accept c cur).1.Tries words (held ++ [c]) := by
  obtain ⟨w, hmember, hrule, hwords, hholds⟩ := h.member
  cases hlive : b.live with
  | false =>
    have hdead : ¬Begins words (held ++ [c]) := by
      intro hbegins
      have hlive' := h.live_iff.2 (hbegins.of_prefix (List.prefix_append held [c]))
      rw [hlive] at hlive'
      cases hlive'
    simp only [Branch.offer, hlive, Bool.not_false, if_true]
    exact ⟨by simp [hlive, hdead], w, hmember, hrule, hwords, by simp [hlive]⟩
  | true =>
    have hw := hholds hlive
    have hunfailed : Member.isFailed b.member = false := by
      rw [hmember]
      exact hw.live
    have haccept := hw.accept_eq (by simp [hrule]) c cur
    by_cases hbegins : Begins words (held ++ [c])
    · have hoffer : b.offer Matcher.accept c cur =
          (⟨true, .mk (.words ((w.update c held.length).2.push (held ++ [c] ∈ words) c cur))⟩, cur) := by
        rw [Branch.offer, hlive, hunfailed, hmember, Matcher.accept_words, haccept, if_pos hbegins]
        rfl
      rw [hoffer]
      exact ⟨by simp [hbegins], _, rfl, hrule, hwords, fun _ => hw.push c cur⟩
    · have hoffer : b.offer Matcher.accept c cur =
          (⟨false, .mk (.words { (w.update c held.length).2 with progress := w.progress.fail })⟩, cur) := by
        rw [Branch.offer, hlive, hunfailed, hmember, Matcher.accept_words, haccept, if_neg hbegins]
        rfl
      rw [hoffer]
      exact ⟨by simp [hbegins], _, rfl, hrule, hwords, by simp⟩

theorem restart (h : b.Tries words held) (hsome : words ≠ []) (hproper : [] ∉ words) :
    ({ live := true, member := Member.recycle b.member } : Branch (Matcher κ)).Tries words [] := by
  obtain ⟨w, hmember, hrule, hwords, -⟩ := h.member
  have hrecycle : Member.recycle b.member = .mk (.words w.fresh) := by
    rw [hmember]
    change Matcher.recycle _ = _
    rw [Matcher.recycle]
    split
    · exact Matcher.reset_mk _
    · exact Matcher.copy_mk _
  refine ⟨by simp [Begins.nil hsome], w.fresh, hrecycle, hrule, hwords, fun _ => ?_⟩
  exact WordMatcher.holds_fresh (by simp [hrule]) hwords hproper

end Branch.Tries

namespace Choice

abbrev Tried (groups : List (List (List Char))) (held : List Char)
    (branches : List (Branch (Matcher κ))) : Prop :=
  List.Forall₂ (fun words b => b.Tries words held) groups branches

section Tried

variable {branches : List (Branch (Matcher κ))}

omit [CustomMatcher κ] in
theorem any_live_iff (h : Tried groups held branches) :
    branches.any Branch.live = true ↔ Begins groups.flatten held := by
  induction h with
  | nil => simp [Begins]
  | cons hb _ ih =>
    rw [List.any_cons, Bool.or_eq_true, hb.live_iff, ih, List.flatten_cons]
    simp [Begins, or_and_right, exists_or]

theorem any_isComplete_iff (h : Tried groups held branches) :
    (branches.any fun b => b.live && Member.isComplete b.member) = true ↔ held ∈ groups.flatten := by
  induction h with
  | nil => simp
  | cons hb _ ih =>
    rw [List.any_cons, Bool.or_eq_true, hb.isComplete_iff, ih, List.flatten_cons, List.mem_append]

end Tried

/-- The choice seeks one of the words, and `held` is what its branches try. -/
structure Seeks (groups : List (List (List Char))) (held : List Char) (m : Choice (Matcher κ)) :
    Prop where
  rule : m.rule = .seek
  live : m.progress.failed = false
  text_eq : m.progress.text = held
  complete_iff : m.progress.complete = true ↔ held ∈ groups.flatten
  valid : m.Valid
  branches : Tried groups held m.branches

section Seeks

variable {m : Choice (Matcher κ)}

theorem tried_update (hvalid : m.Valid) (h : Tried groups held m.branches) (c : Char) (cur : Cursor) :
    Tried groups (held ++ [c]) (m.update Matcher.accept c cur).2.1.branches := by
  obtain ⟨place, -, heq⟩ := exists_branches_update Matcher.accept hvalid c cur
  rw [heq]
  clear heq
  generalize m.branches = branches at h
  induction h generalizing place with
  | nil => exact .nil
  | cons hb _ ih =>
    rw [List.mapIdx_cons]
    exact .cons (hb.offer c (place 0)) (ih fun i => place (i + 1))

omit [CustomMatcher κ] in
theorem isEmpty_alive_iff (hvalid : m.Valid) (h : Tried groups held m.branches) :
    m.alive.isEmpty = true ↔ ¬Begins groups.flatten held := by
  rw [isEmpty_alive hvalid, ← any_live_iff h, Bool.not_eq_true', Bool.not_eq_true]

theorem seeks_push (hrule : m.rule = .seek) (hlive : m.progress.failed = false)
    (htext : m.progress.text = held) (hvalid : m.Valid) (hbranches : Tried groups held m.branches)
    (c : Char) (cur cur' : Cursor) :
    let u := m.update Matcher.accept c cur
    (u.2.1.push u.1 c cur').Seeks groups (held ++ [c]) where
  rule := hrule
  live := hlive
  text_eq := (Progress.text_pushAs ..).trans (by rw [← htext]; rfl)
  complete_iff := by
    have hcomplete := any_isComplete_iff (tried_update hvalid hbranches c cur)
    rw [← complete_update hvalid] at hcomplete
    exact hcomplete
  valid := ⟨(hvalid.update c cur).nodup, (hvalid.update c cur).lt_length⟩
  branches := tried_update hvalid hbranches c cur

theorem seeks_restart (hproper : ∀ words ∈ groups, words ≠ [] ∧ [] ∉ words) (hrule : m.rule = .seek)
    (hbranches : Tried groups held m.branches) : m.restart.Seeks groups [] where
  rule := hrule
  live := rfl
  text_eq := rfl
  complete_iff := by
    simp only [restart, reset, Progress.reset, Bool.false_eq_true, List.mem_flatten, false_iff]
    rintro ⟨words, hwords, hmem⟩
    exact (hproper words hwords).2 hmem
  valid := valid_restart m
  branches := by
    rw [branches_restart, Tried, List.forall₂_map_right_iff]
    exact ((List.forall₂_and_left _ _).2 ⟨hproper, hbranches⟩).imp fun _ _ h =>
      h.2.restart h.1.1 h.1.2

omit [CustomMatcher κ] in
theorem Seeks.isComplete_iff (h : m.Seeks groups held) :
    m.progress.isComplete = true ↔ held ∈ groups.flatten := by
  rw [Progress.isComplete_of_live h.live, h.complete_iff]

theorem Seeks.accept (hproper : ∀ words ∈ groups, words ≠ [] ∧ [] ∉ words) (h : m.Seeks groups held)
    (hopen : held ∉ groups.flatten) (c : Char) (cur : Cursor) :
    (m.accept Matcher.accept c cur).accepted = true ∧
      (m.accept Matcher.accept c cur).state.Seeks groups (retry groups.flatten held c) := by
  have hcomplete : m.progress.complete = false := Bool.eq_false_iff.2 (mt h.complete_iff.1 hopen)
  have haccept : m.accept Matcher.accept c cur = m.acceptSeek Matcher.accept c cur := by
    simp only [Choice.accept, h.live, h.rule, hcomplete, Bool.false_eq_true, if_false]
  have hempty : m.progress.taken.isEmpty = true ↔ held = [] := by
    rw [List.isEmpty_iff, ← h.text_eq, Progress.text, List.reverse_eq_nil_iff]
  have htried := tried_update h.valid h.branches c cur
  have hdead := isEmpty_alive_iff (h.valid.update c cur) htried
  have hpush := seeks_push h.rule h.live h.text_eq h.valid h.branches c cur
  have hprogress : (m.update Matcher.accept c cur).2.1.progress = m.progress := rfl
  have hrule : (m.update Matcher.accept c cur).2.1.rule = .seek := h.rule
  have hfresh := seeks_restart hproper hrule htried
  rw [haccept, acceptSeek]
  generalize m.update Matcher.accept c cur = u at hdead hpush hprogress hrule hfresh
  refine ⟨rfl, ?_⟩
  dsimp only
  rw [hprogress, retry]
  -- some branch goes on with the piece, or all begin anew with the character, or nothing is tried
  by_cases hgo : Begins groups.flatten (held ++ [c])
  · have hsome : u.2.1.alive.isEmpty = false := Bool.eq_false_iff.2 fun hnone => hdead.1 hnone hgo
    simp only [hsome, Bool.false_and, Bool.false_eq_true, if_false, if_pos hgo]
    exact hpush _
  · have hnone := hdead.2 hgo
    rw [if_neg hgo]
    by_cases hnil : held = []
    · rw [hnil, List.nil_append] at hgo
      simp only [hempty.2 hnil, hnone, Bool.not_true, Bool.and_false, Bool.false_eq_true, if_false,
        if_true, if_neg hgo]
      exact hfresh
    · simp only [hnone, Bool.eq_false_iff.2 (mt hempty.1 hnil), Bool.not_false, Bool.and_true, if_true]
      have htried := tried_update hfresh.valid hfresh.branches c u.2.2
      have hdead := isEmpty_alive_iff (hfresh.valid.update c u.2.2) htried
      by_cases hgo : Begins groups.flatten [c]
      · rw [if_neg fun hnone => hdead.1 hnone hgo, if_pos hgo]
        exact seeks_push hfresh.rule hfresh.live hfresh.text_eq hfresh.valid hfresh.branches c u.2.2 _
      · rw [if_pos (hdead.2 hgo), if_neg hgo]
        exact seeks_restart hproper hrule htried

end Seeks

end Choice

namespace Matcher

variable {text : List Char} {i j : Nat}

theorem follows_seek (hproper : ∀ words ∈ groups, words ≠ [] ∧ [] ∉ words) {m : Choice (Matcher κ)}
    (h : m.Seeks groups []) (text : List Char) (i : Nat) :
    Follows (fun j s => ∃ t : Choice (Matcher κ), s = mk (.choice t) ∧
      t.Seeks groups (attempt groups.flatten text i j))
      (fun j => attempt groups.flatten text i j ∈ groups.flatten) text (mk (.choice m)) i := by
  constructor
  · exact ⟨m, rfl, by rwa [attempt_self]⟩
  · refine Bool.eq_false_iff.2 (mt h.isComplete_iff.1 fun hnil => ?_)
    obtain ⟨words, hwords, hnil⟩ := List.mem_flatten.1 hnil
    exact (hproper words hwords).2 hnil
  · rintro j _ c hij ⟨t, rfl, ht⟩ hwaiting hc
    have hopen := mt ht.isComplete_iff.2 (Bool.eq_false_iff.1 hwaiting)
    obtain ⟨htaken, hnext⟩ := ht.accept hproper hopen c (.past text (j + 1))
    rw [accept_mk, attempt_succ hij hc]
    exact ⟨htaken, _, rfl, hnext⟩
  · rintro j _ - ⟨t, rfl, ht⟩
    exact ht.isComplete_iff

omit [CustomMatcher κ] in
theorem exists_seek {alternatives : List (String × List String)} (hsome : alternatives ≠ [])
    (hproper : ∀ a ∈ alternatives, a.2 ≠ [] ∧ "" ∉ a.2) (name : String) :
    ∃ (members : List (Matcher κ)) (m : Choice (Matcher κ)) (groups : List (List (List Char))),
      alternatives.mapM (fun a => Matcher.words a.1 .longest a.2) = .ok members ∧
      choice name .seek members = .ok (mk (.choice m)) ∧
      groups.flatten = (alternatives.flatMap Prod.snd).map String.toList ∧ groups.flatten ≠ [] ∧
      (∀ words ∈ groups, words ≠ [] ∧ [] ∉ words) ∧ m.Seeks groups [] := by
  let member : String × List String → Matcher κ := fun a =>
    mk (.words { name := a.1, rule := .longest, words := a.2.map String.toList })
  let groups := alternatives.map fun a => a.2.map String.toList
  have hgroups : ∀ words ∈ groups, words ≠ [] ∧ [] ∉ words := by
    intro words hwords
    obtain ⟨a, ha, rfl⟩ := List.mem_map.1 hwords
    simpa using hproper a ha
  let m : Choice (Matcher κ) := { name, rule := .seek, members := alternatives.map member }
  refine ⟨alternatives.map member, m, groups, ?_, ?_, ?_, ?_, hgroups, rfl, rfl, rfl, ?_,
    m.valid_fresh, ?_⟩
  · exact mapM_eq_ok_map fun a ha => words_eq_ok (hproper a ha).1 (hproper a ha).2 a.1 .longest
  · have hmembers : (alternatives.map member).isEmpty = false := by simp [hsome]
    rw [choice, Choice.make, hmembers]
    rfl
  · rw [List.flatMap, List.map_flatten, List.map_map]
    rfl
  · obtain ⟨a, ha⟩ := List.exists_mem_of_ne_nil _ hsome
    obtain ⟨word, hword⟩ := List.exists_mem_of_ne_nil _ (hgroups _ (List.mem_map_of_mem ha)).1
    exact List.ne_nil_of_mem (List.mem_flatten_of_mem (List.mem_map_of_mem ha) hword)
  · simp only [m, Bool.false_eq_true, List.mem_flatten, false_iff]
    rintro ⟨words, hwords, hmem⟩
    exact (hgroups words hwords).2 hmem
  · have hbranches := m.branches_fresh
    rw [show m.fresh = m from rfl] at hbranches
    simp only [hbranches, m, groups, Choice.Tried, List.forall₂_map_left_iff,
      List.forall₂_map_right_iff, List.forall₂_same]
    intro a ha
    obtain ⟨hwords, hnil⟩ := hgroups _ (List.mem_map_of_mem ha)
    exact ⟨by simp [Begins.nil hwords], _, rfl, rfl, rfl, fun _ => WordMatcher.holds_new (by simp) hnil a.1⟩

/-- A choice that seeks one of several words takes every character up to its first match, which is a
word at the end of the text so far. These matches are the first ends of words in all texts if the words
are separate and none is hidden; a single word has to be separate for that. -/
theorem exists_match_seek_iff {alternatives : List (String × List String)} (hsome : alternatives ≠ [])
    (hproper : ∀ a ∈ alternatives, a.2 ≠ [] ∧ "" ∉ a.2) (name : String) :
    ∃ (members : List (Matcher κ)) (m : Matcher κ),
      alternatives.mapM (fun a => Matcher.words a.1 .longest a.2) = .ok members ∧
      choice name .seek members = .ok m ∧
      let chars := (alternatives.flatMap Prod.snd).map String.toList
      (∀ text i j s c, Takes Waiting text m i j s → text[j]? = some c →
        (s.accept c (.past text (j + 1))).accepted = true) ∧
      (∀ text i j, (∃ s, Match text m i j s) ↔
        IsLeast {e | i ≤ e ∧ e ≤ text.length ∧ attempt chars text i e ∈ chars} j) ∧
      (∀ text i j s, Match text m i j s → s.text ∈ chars ∧ s.text <:+ slice text i j) ∧
      (Separate chars → (∀ part, ¬Hides chars part) → ∀ text i j, (∃ s, Match text m i j s) ↔
        IsLeast {e | i ≤ e ∧ e ≤ text.length ∧ EndsWith chars (slice text i e)} j) ∧
      ∀ word, chars = [word] → ((∀ text i j, (∃ s, Match text m i j s) ↔
        IsLeast {e | i ≤ e ∧ e ≤ text.length ∧ EndsWith chars (slice text i e)} j) ↔
          Separate chars) := by
  obtain ⟨members, m, groups, hmembers, hm, hflatten, hwords, hgroups, hseeks⟩ :=
    exists_seek (κ := κ) hsome hproper name
  refine ⟨members, mk (.choice m), hmembers, hm, ?_⟩
  rw [← hflatten]
  intro chars
  have hfollows := follows_seek hgroups hseeks
  have hfirst : ∀ text i j, (∃ s, Match text (mk (.choice m)) i j s) ↔
      IsLeast {e | i ≤ e ∧ e ≤ text.length ∧ attempt chars text i e ∈ chars} j :=
    fun text i _ => (hfollows text i).exists_match_iff
  have hexact : Separate chars → (∀ part, ¬Hides chars part) → ∀ text i j,
      (∃ s, Match text (mk (.choice m)) i j s) ↔
        IsLeast {e | i ≤ e ∧ e ≤ text.length ∧ EndsWith chars (slice text i e)} j :=
    fun hseparate hopen text i j => (hfirst text i j).trans
      ((isLeast_attempt_iff hseparate hwords).trans (isLeast_found_iff hwords hopen))
  refine ⟨?_, hfirst, ?_, hexact, ?_⟩
  · intro text i j s c htakes hc
    obtain ⟨hs, hwaiting, -⟩ := (hfollows text i).of_takes htakes
    exact ((hfollows text i).accept htakes.le hs hwaiting hc).1
  · intro text i j s hmatch
    obtain ⟨⟨hij, hj, hmem⟩, -⟩ := (hfirst text i j).1 ⟨s, hmatch⟩
    obtain ⟨t, rfl, ht⟩ := (hfollows text i).of_match hmatch
    have htext : (mk (.choice t)).text = attempt chars text i j := ht.text_eq
    rw [htext]
    exact ⟨hmem, attempt_suffix hij hj⟩
  · intro word hword
    refine ⟨fun hends => ?_, fun hseparate => hexact hseparate ?_⟩
    · rw [hword] at hends hfirst ⊢
      exact separate_of_attempt fun text j hj => ((hfirst text 0 j).1 ((hends text 0 j).2 hj)).1.2.2
    · exact hword ▸ not_hides_singleton word

theorem exists_match_seek_iff_comment :
    let alternatives := [("block", ["*/"]), ("line", ["\n"])]
    let chars := (alternatives.flatMap Prod.snd).map String.toList
    let text := "a**/".toList
    alternatives ≠ [] ∧ (∀ a ∈ alternatives, a.2 ≠ [] ∧ "" ∉ a.2) ∧
      ∃ (members : List (Matcher Empty)) (m : Matcher Empty),
        alternatives.mapM (fun a => Matcher.words a.1 .longest a.2) = .ok members ∧
        choice "stop" .seek members = .ok m ∧ (∃ s, Match text m 0 4 s) ∧
        IsLeast {e | 0 ≤ e ∧ e ≤ text.length ∧ EndsWith chars (slice text 0 e)} 4 := by
  -- the second `*` breaks the first attempt and begins the next one
  intro alternatives chars text
  have hends : IsLeast {e | 0 ≤ e ∧ e ≤ text.length ∧ EndsWith chars (slice text 0 e)} 4 :=
    isLeast_of_forall_not (by decide) (by decide)
  obtain ⟨hseparate, hopen⟩ := separate_of_short (by decide : [] ∉ chars) (by decide)
  obtain ⟨members, m, hmembers, hm, -, -, -, hexact, -⟩ := exists_match_seek_iff (κ := Empty)
    (by decide : alternatives ≠ []) (by decide) "stop"
  exact ⟨by decide, by decide, members, m, hmembers, hm,
    (hexact hseparate hopen text 0 4).2 hends, hends⟩

/-- The third `-` breaks the attempt that began with the first one, and the one that began with the
second `-` is given up with it. -/
theorem not_match_seek_given_up :
    let alternatives := [("stop", ["-->"])]
    let chars := (alternatives.flatMap Prod.snd).map String.toList
    let text := "--->".toList
    ∃ (members : List (Matcher Empty)) (m : Matcher Empty),
      alternatives.mapM (fun a => Matcher.words a.1 .longest a.2) = .ok members ∧
      choice "stop" .seek members = .ok m ∧
      IsLeast {e | 0 ≤ e ∧ e ≤ text.length ∧ EndsWith chars (slice text 0 e)} 4 ∧
      ∀ j s, ¬Match text m 0 j s := by
  intro alternatives chars text
  obtain ⟨members, m, groups, hmembers, hm, hflatten, -, hgroups, hseeks⟩ :=
    exists_seek (κ := Empty) (by decide : alternatives ≠ []) (by decide) "stop"
  refine ⟨members, _, hmembers, hm, isLeast_of_forall_not (by decide) (by decide), ?_⟩
  intro j s hmatch
  obtain ⟨-, hj, hmem⟩ := ((follows_seek hgroups hseeks text 0).exists_match_iff.1 ⟨s, hmatch⟩).1
  rw [hflatten] at hmem
  exact absurd hmem ((by decide : ∀ j ≤ text.length, attempt chars text 0 j ∉ chars) j hj)

end Matcher

end Lexing
