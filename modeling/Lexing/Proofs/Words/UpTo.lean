import Lexing.Proofs.Matcher.FirstMatch
import Lexing.Proofs.TokenRule.Parts
import Lexing.Proofs.Words.Suffixes

/-!
Matchers that take anything up to one of their words.
-/

namespace Lexing

namespace WordMatcher

theorem words_replay (m : WordMatcher) (text : List Char) : (m.replay text).words = m.words := by
  change (m.replay text).fresh.words = m.words
  rw [fresh_replay]
  rfl

theorem rule_replay (m : WordMatcher) (text : List Char) : (m.replay text).rule = m.rule := by
  change (m.replay text).fresh.rule = m.rule
  rw [fresh_replay]
  rfl

section Shift

variable {m s : WordMatcher} {c : Char} {cur : Cursor} {skip : Nat}

theorem shiftBy?_eq_none_iff :
    m.shiftBy? c cur skip = none ↔ ¬Begins m.words (m.progress.text.drop skip ++ [c]) := by
  have htracks := (tracks_replay m (m.progress.text.drop skip)).update c
  have hlive := htracks.live_eq_nil_iff
  simp only [shiftBy?, List.isEmpty_iff, hlive, ite_eq_left_iff, reduceCtorEq, imp_false, not_not]
  rw [update, words_replay]

theorem of_shiftBy? (h : m.shiftBy? c cur skip = some s) :
    let kept := m.progress.text.drop skip ++ [c]
    Begins m.words kept ∧ s.Tracks kept ∧ s.rule = m.rule ∧ s.words = m.words ∧
      s.progress.taken = kept.reverse ∧ s.progress.failed = false ∧
      (s.progress.complete = true ↔ kept ∈ m.words) ∧
      s.progress.start = m.progress.start.map (fun start => cur.positionAt (start.offset + skip)) ∧
      (s.progress.complete = true → s.progress.stop = some cur.position) := by
  have hbegins : Begins m.words (m.progress.text.drop skip ++ [c]) := by
    by_contra hnot
    rw [shiftBy?_eq_none_iff.2 hnot] at h
    cases h
  have htracks := tracks_replay m (m.progress.text.drop skip)
  have hwhole := htracks.found_eq_whole_iff c
  rw [words_replay] at hwhole
  simp only [shiftBy?] at h
  split at h
  · cases h
  · cases h
    refine ⟨hbegins, (htracks.update c).of_live_eq rfl rfl, rule_replay .., words_replay .., rfl, rfl,
      ?_, rfl, ?_⟩
    · exact decide_eq_true_iff.trans hwhole
    · intro hcomplete
      exact if_pos (of_decide_eq_true hcomplete)

theorem exists_shiftBy?_of_shift? (h : m.shift? c cur = some s) :
    ∃ skip, m.shiftBy? c cur skip = some s ∧ 0 < skip ∧ skip ≤ m.progress.taken.length ∧
      ∀ n, 0 < n → n < skip → m.shiftBy? c cur n = none := by
  rw [shift?, List.findSome?_eq_some_iff] at h
  obtain ⟨before, skip, rest, hlist, hskip, hnone⟩ := h
  have htaken : m.progress.taken.length ≠ 0 := by
    intro hnil
    simp [hnil] at hlist
  rw [if_neg htaken, List.range'_eq_append_iff] at hlist
  obtain ⟨k, hk, rfl, hrest⟩ := hlist
  obtain ⟨rfl, hpos, -⟩ := List.range'_eq_cons_iff.1 hrest.symm
  refine ⟨_, hskip, by omega, by split at hpos <;> omega, fun n hn hnk => hnone n ?_⟩
  rw [List.mem_range'_1]
  omega

theorem shiftBy?_eq_none_of_shift? (h : m.shift? c cur = none) (hpos : 0 < skip)
    (hle : skip ≤ m.progress.taken.length)
    (hlast : m.progress.complete = true → skip < m.progress.taken.length) :
    m.shiftBy? c cur skip = none := by
  have htaken : m.progress.taken.length ≠ 0 := by omega
  rw [shift?, if_neg htaken, List.findSome?_eq_none_iff] at h
  refine h skip (List.mem_range'_1.2 ⟨hpos, ?_⟩)
  split <;> [have := hlast ‹_›; skip] <;> omega

end Shift

/-- The matcher seeks one of the words, and at offset `j` it holds the text from offset `k` on. -/
structure Seeking (words : List (List Char)) (text : List Char) (k j : Nat) (m : WordMatcher) :
    Prop where
  rule : m.rule = .upTo
  words_eq : m.words = words
  live : m.progress.failed = false
  le : k ≤ j
  text_eq : m.progress.text = slice text k j
  tracks : m.Tracks (slice text k j)
  begins : Begins words (slice text k j)
  complete_iff : m.progress.complete = true ↔ slice text k j ∈ words
  start_eq : k < j → m.progress.start = some ((Cursor.ofList text).positionAt k)
  stop_eq : m.progress.complete = true →
    m.progress.stop = some ((Cursor.ofList text).positionAt (j - 1))

theorem seeking_fresh {words : List (List Char)} {m : WordMatcher} (hrule : m.rule = .upTo)
    (hwords : m.words = words) (hsome : words ≠ []) (hproper : [] ∉ words) (text : List Char) (j : Nat) :
    m.fresh.Seeking words text j j where
  rule := hrule
  words_eq := hwords
  live := rfl
  le := Nat.le_refl j
  text_eq := (slice_self text j).symm
  tracks := slice_self text j ▸ tracks_restart _
  begins := slice_self text j ▸ .nil hsome
  complete_iff := by simp [fresh, reset, restart, Progress.reset, hproper]
  start_eq h := absurd h (Nat.lt_irrefl j)
  stop_eq := nofun

theorem seeking_new {words : List (List Char)} (hsome : words ≠ []) (hproper : [] ∉ words)
    (name : String) (text : List Char) (i : Nat) :
    ({ name, rule := .upTo, words } : WordMatcher).Seeking words text i i :=
  seeking_fresh (m := { name, rule := .upTo, words }) rfl rfl hsome hproper text i

namespace Seeking

variable {words : List (List Char)} {text : List Char} {k j l : Nat} {m s : WordMatcher} {c : Char}

theorem isComplete_iff (h : m.Seeking words text k j) :
    m.progress.isComplete = true ↔ slice text k j ∈ words := by
  rw [Progress.isComplete_of_live h.live, h.complete_iff]

theorem length_taken (h : m.Seeking words text k j) :
    m.progress.taken.length = (slice text k j).length := by
  rw [← h.text_eq, Progress.text, List.length_reverse]

theorem drop_text (h : m.Seeking words text k j) (hc : text[j]? = some c) {n : Nat} (hn : k + n ≤ j) :
    m.progress.text.drop n ++ [c] = slice text (k + n) (j + 1) := by
  rw [h.text_eq, drop_slice, slice_succ hn hc]

theorem span_eq (h : m.Seeking words text k j) (hproper : [] ∉ words)
    (hcomplete : m.progress.isComplete = true) : m.progress.span =
      some ⟨(Cursor.ofList text).positionAt k, (Cursor.ofList text).positionAt (j - 1)⟩ := by
  have hword := h.isComplete_iff.1 hcomplete
  have hlt : k < j := by
    refine Nat.lt_of_le_of_ne h.le ?_
    rintro rfl
    exact hproper (slice_self text k ▸ hword)
  rw [Progress.span, h.start_eq hlt, h.stop_eq (h.complete_iff.2 hword)]

theorem push (h : m.Seeking words text k j) (hc : text[j]? = some c)
    (hbegins : Begins words (slice text k (j + 1))) :
    ((m.update c (slice text k j).length).2.push (slice text k (j + 1) ∈ words) c
      (.past text (j + 1))).Seeking words text k (j + 1) := by
  have hj := (List.getElem?_eq_some_iff.1 hc).1
  have hslice := slice_succ h.le hc
  refine ⟨h.rule, h.words_eq, h.live, Nat.le_succ_of_le h.le, ?_, ?_, hbegins, ?_, ?_, ?_⟩
  · exact (Progress.text_pushAs ..).trans (hslice ▸ congrArg (· ++ [c]) h.text_eq)
  · exact hslice ▸ (h.tracks.update c).of_live_eq rfl rfl
  · simp [WordMatcher.push, Progress.pushAs]
  · intro _
    simp only [WordMatcher.update, WordMatcher.push, Progress.pushAs, Progress.push,
      Cursor.position_past hj]
    have hlength := h.length_taken
    rw [length_slice (Nat.le_of_lt hj)] at hlength
    rcases Nat.lt_or_eq_of_le h.le with hlt | rfl
    · rw [if_neg (List.length_pos_iff.1 (by omega)), h.start_eq hlt]
    · rw [if_pos (List.length_eq_zero_iff.1 (by omega))]
  · intro hcomplete
    simp only [WordMatcher.push, Progress.pushAs] at hcomplete ⊢
    rw [hcomplete, if_pos rfl, Cursor.position_past hj, Nat.add_sub_cancel]

theorem of_shift? (h : m.Seeking words text k j) (hc : text[j]? = some c)
    (hs : m.shift? c (.past text (j + 1)) = some s) :
    ∃ k', s.Seeking words text k' (j + 1) ∧ Longest words text (k + 1) (j + 1) k' := by
  have hj := (List.getElem?_eq_some_iff.1 hc).1
  have hlength := h.length_taken
  rw [length_slice (Nat.le_of_lt hj)] at hlength
  obtain ⟨n, hskip, hpos, hle, hnone⟩ := exists_shiftBy?_of_shift? hs
  have htext := h.drop_text hc (n := n) (by omega)
  obtain ⟨hbegins, htracks, hrule, hwords, htaken, hlive, hcomplete, hstart, hstop⟩ := of_shiftBy? hskip
  rw [htext] at hbegins htracks htaken hcomplete
  rw [h.words_eq] at hbegins hwords hcomplete
  refine ⟨k + n, ⟨hrule.trans h.rule, hwords, hlive, by omega, ?_, htracks, hbegins, hcomplete, ?_, ?_⟩, ?_⟩
  · rw [Progress.text, htaken, List.reverse_reverse]
  · intro _
    rw [hstart, h.start_eq (by omega), Option.map_some]
    rfl
  · intro hcomplete
    rw [hstop hcomplete, Cursor.position_past hj, Nat.add_sub_cancel]
  · refine (Longest.of_begins (by omega) hbegins).widen (by omega) fun l hkl hln => ?_
    have hearlier := shiftBy?_eq_none_iff.1 (hnone (l - k) (by omega) (by omega))
    have hl : k + (l - k) = l := by omega
    rwa [h.drop_text hc (by omega), hl, h.words_eq] at hearlier

theorem not_begins_of_shift? (h : m.Seeking words text k j) (hc : text[j]? = some c)
    (hs : m.shift? c (.past text (j + 1)) = none) (hkl : k < l) (hlj : l ≤ j)
    (hlast : m.progress.complete = true → l < j) : ¬Begins words (slice text l (j + 1)) := by
  have hlength := h.length_taken
  rw [length_slice (Nat.le_of_lt (List.getElem?_eq_some_iff.1 hc).1)] at hlength
  have hskip : m.shiftBy? c (.past text (j + 1)) (l - k) = none :=
    shiftBy?_eq_none_of_shift? hs (by omega) (by omega) fun hcomplete => by
      have := hlast hcomplete
      omega
  have hl : k + (l - k) = l := by omega
  rwa [shiftBy?_eq_none_iff, h.drop_text hc (by omega), hl, h.words_eq] at hskip

theorem acceptOnward (h : m.Seeking words text k j) (hproper : [] ∉ words)
    (hc : text[j]? = some c) (hopen : m.progress.complete = false) :
    ∃ k', (m.acceptOnward c (.past text (j + 1))).Seeking words text k' (j + 1) ∧
      Longest words text k (j + 1) k' := by
  have hsome : words ≠ [] := by
    obtain ⟨word, hword, -⟩ := h.begins
    exact List.ne_nil_of_mem hword
  have hle := h.le
  have hslice := slice_succ h.le hc
  have hnothing := h.tracks.found_eq_nothing_iff c
  have hwhole := h.tracks.found_eq_whole_iff c
  rw [h.words_eq, ← hslice] at hnothing hwhole
  rw [WordMatcher.acceptOnward, h.length_taken]
  dsimp only
  split
  · next hdead =>
    rw [hnothing] at hdead
    have hfirst : ∀ n, k ≤ n → n < k + 1 → ¬Begins words (slice text n (j + 1)) := by
      intro n hkn hnk
      obtain rfl : n = k := by omega
      exact hdead
    -- the words in question are found anew for every later start
    change ∃ k', ((m.shift? c (.past text (j + 1))).getD m.fresh).Seeking words text k' (j + 1) ∧ _
    cases hs : m.shift? c (.past text (j + 1)) with
    | some s =>
      obtain ⟨k', hseeking, hlongest⟩ := h.of_shift? hc hs
      exact ⟨k', hseeking, hlongest.widen (Nat.le_succ k) hfirst⟩
    | none =>
      refine ⟨j + 1, seeking_fresh h.rule h.words_eq hsome hproper text (j + 1), ?_⟩
      refine (Longest.self hsome text (j + 1)).widen (by omega) ?_
      intro n hkn hnj
      rcases Nat.lt_or_eq_of_le hkn with hlt | rfl
      · exact h.not_begins_of_shift? hc hs hlt (by omega) (by simp [hopen])
      · exact hdead
  · next hlive =>
    rw [hnothing, not_not] at hlive
    simp only [hwhole]
    exact ⟨k, h.push hc hlive, .of_begins (by omega) hlive⟩

/-- Every character is taken. The text held is then the longest piece that begins a word, of those that
do not start before the text held so far, nor at the start of a complete match. -/
theorem accept (h : m.Seeking words text k j) (hproper : [] ∉ words) (hc : text[j]? = some c) :
    (m.accept c (.past text (j + 1))).accepted = true ∧
      ∃ k', (m.accept c (.past text (j + 1))).state.Seeking words text k' (j + 1) ∧
        Longest words text (if m.progress.complete then k + 1 else k) (j + 1) k' := by
  have hle := h.le
  simp only [WordMatcher.accept, h.rule, acceptUpTo, h.live, Bool.false_eq_true, if_false]
  cases hcomplete : m.progress.complete with
  | false => exact ⟨rfl, h.acceptOnward hproper hc hcomplete⟩
  | true =>
    refine ⟨rfl, ?_⟩
    simp only [if_true]
    cases hs : m.shift? c (.past text (j + 1)) with
    | some s => exact h.of_shift? hc hs
    | none =>
      have hword := h.complete_iff.1 hcomplete
      have hlt : k < j := by
        refine Nat.lt_of_le_of_ne hle ?_
        rintro rfl
        exact hproper (slice_self text k ▸ hword)
      have hfresh := seeking_fresh h.rule h.words_eq (List.ne_nil_of_mem hword) hproper text j
      obtain ⟨k', hseeking, hlongest⟩ := hfresh.acceptOnward hproper hc rfl
      refine ⟨k', hseeking, hlongest.widen hlt fun n hkn hnj => ?_⟩
      exact h.not_begins_of_shift? hc hs hkn (Nat.le_of_lt hnj) fun _ => hnj

end Seeking

end WordMatcher

namespace Matcher

variable {κ : Type} [CustomMatcher κ]

theorem accept_words (w : WordMatcher) (c : Char) (cur : Cursor) :
    (mk (.words w) : Matcher κ).accept c cur = (w.accept c cur).map fun w => mk (.words w) :=
  accept_mk _ c cur

structure LastMatch (text : List Char) (m : Matcher κ) (i j e : Nat) (t : Matcher κ) : Prop where
  takes : Takes (fun _ => True) text m i e t
  lt : e < j
  complete : t.isComplete = true
  last : ∀ e' t', Takes (fun _ => True) text m i e' t' → e < e' → e' < j → t'.isComplete = false

section LastMatch

variable {text : List Char} {m s t : Matcher κ} {i j e : Nat}

theorem not_lastMatch_self : ¬LastMatch text m i i e t := fun h =>
  absurd h.lt (Nat.not_lt_of_le h.takes.le)

theorem lastMatch_succ_of_complete (htakes : Takes (fun _ => True) text m i j s)
    (hs : s.isComplete = true) : LastMatch text m i (j + 1) e t ↔ e = j ∧ t = s := by
  constructor
  · intro h
    have hle := Nat.le_of_lt_succ h.lt
    rcases Nat.lt_or_eq_of_le hle with hlt | rfl
    · rw [h.last j s htakes hlt (Nat.lt_succ_self j)] at hs
      cases hs
    · exact ⟨rfl, h.takes.unique htakes⟩
  · rintro ⟨rfl, rfl⟩
    exact ⟨htakes, Nat.lt_succ_self e, hs, fun e' _ _ hlt hle => by omega⟩

theorem lastMatch_succ_of_waiting (htakes : Takes (fun _ => True) text m i j s)
    (hs : s.isComplete = false) : LastMatch text m i (j + 1) e t ↔ LastMatch text m i j e t := by
  constructor
  · intro h
    have hle := Nat.le_of_lt_succ h.lt
    refine ⟨h.takes, Nat.lt_of_le_of_ne hle ?_, h.complete, fun e' t' ht' hlt hlt' =>
      h.last e' t' ht' hlt (Nat.lt_succ_of_lt hlt')⟩
    rintro rfl
    have hcomplete := h.complete
    rw [h.takes.unique htakes, hs] at hcomplete
    cases hcomplete
  · intro h
    refine ⟨h.takes, Nat.lt_succ_of_lt h.lt, h.complete, fun e' t' ht' hlt hle => ?_⟩
    rcases Nat.lt_or_eq_of_le (Nat.le_of_lt_succ hle) with hlt' | rfl
    · exact h.last e' t' ht' hlt hlt'
    · exact ht'.unique htakes ▸ hs

end LastMatch

section UpTo

variable {words : List (List Char)} {text : List Char} {w : WordMatcher} {i j : Nat}

theorem exists_takes_seeking (hproper : [] ∉ words) (h : w.Seeking words text i i) (hij : i ≤ j)
    (hj : j ≤ text.length) :
    ∃ v k, Takes (fun _ => True) text (mk (.words w) : Matcher κ) i j (mk (.words v)) ∧
      v.Seeking words text k j ∧
      IsLeast {l | i ≤ l ∧ l ≤ j ∧ Begins words (slice text l j) ∧
        ∀ e t, LastMatch text (mk (.words w) : Matcher κ) i j e t → e - t.text.length < l} k := by
  -- the invariant of the search: it holds the longest piece that begins a word and starts behind
  -- the start of the last match
  induction j, hij using Nat.le_induction with
  | base =>
    refine ⟨w, i, .start, h, ⟨Nat.le_refl i, Nat.le_refl i, h.begins, ?_⟩, fun _ hl => hl.1⟩
    intro e t hlast
    exact absurd hlast not_lastMatch_self
  | succ j hij ih =>
    obtain ⟨v, k, htakes, hseeking, ⟨hik, hkj, -, hbehind⟩, hleast⟩ := ih (by omega)
    have hc := List.getElem?_eq_getElem hj
    have hcomplete : (mk (.words v) : Matcher κ).isComplete = v.progress.complete :=
      Progress.isComplete_of_live hseeking.live
    obtain ⟨htaken, k', hseeking', ⟨hk', hkj', hbegins⟩, hleast'⟩ := hseeking.accept hproper hc
    have htakes' := htakes.take (P := fun _ => True) hc (by rw [accept_words]; exact htaken) trivial
    rw [accept_words] at htakes'
    refine ⟨_, k', htakes', hseeking', ?_⟩
    cases hopen : v.progress.complete with
    | false =>
      rw [hopen, if_neg Bool.false_ne_true] at hk' hleast'
      simp only [lastMatch_succ_of_waiting htakes (hcomplete.trans hopen)]
      refine ⟨⟨by omega, hkj', hbegins, fun e t ht => Nat.lt_of_lt_of_le (hbehind e t ht) hk'⟩, ?_⟩
      rintro l ⟨hil, hlj, hl, hlast⟩
      refine hleast' ⟨?_, hlj, hl⟩
      rcases Nat.lt_or_eq_of_le hlj with hlt | rfl
      · have hl := hl.of_prefix (slice_prefix_slice (Nat.le_succ j))
        exact hleast ⟨hil, Nat.le_of_lt_succ hlt, hl, hlast⟩
      · exact Nat.le_succ_of_le hkj
    | true =>
      rw [hopen, if_pos rfl] at hk' hleast'
      have htext : j - (mk (.words v) : Matcher κ).text.length = k := by
        change j - v.progress.text.length = k
        rw [hseeking.text_eq, length_slice (Nat.le_of_lt hj)]
        omega
      simp only [lastMatch_succ_of_complete htakes (hcomplete.trans hopen)]
      refine ⟨⟨by omega, hkj', hbegins, ?_⟩, ?_⟩
      · rintro e t ⟨rfl, rfl⟩
        exact htext ▸ hk'
      · rintro l ⟨hil, hlj, hl, hlast⟩
        exact hleast' ⟨htext ▸ hlast j _ ⟨rfl, rfl⟩, hlj, hl⟩

theorem text_of_lastMatch (hproper : [] ∉ words) (h : w.Seeking words text i i)
    (hj : j ≤ text.length) {e : Nat} {t : Matcher κ}
    (hlast : LastMatch text (mk (.words w)) i j e t) : t.text ∈ words ∧ t.text.length ≤ e := by
  have he : e ≤ text.length := Nat.le_trans (Nat.le_of_lt hlast.lt) hj
  obtain ⟨v, k, htakes, hseeking, -⟩ := exists_takes_seeking (κ := κ) hproper h hlast.takes.le he
  obtain rfl := hlast.takes.unique htakes
  change v.progress.text ∈ words ∧ v.progress.text.length ≤ e
  rw [hseeking.text_eq, length_slice he]
  exact ⟨hseeking.isComplete_iff.1 hlast.complete, Nat.sub_le e k⟩

theorem eq_iff_suffix_of_isLeast {word : List Char} (hproper : word ≠ [])
    (h : w.Seeking [word] text i i) {k : Nat} (hj : j ≤ text.length)
    (hleast : IsLeast {l | i ≤ l ∧ l ≤ j ∧ Begins [word] (slice text l j) ∧
      ∀ e t, LastMatch text (mk (.words w) : Matcher κ) i j e t → e - t.text.length < l} k) :
    slice text k j = word ↔ word <:+ slice text i j := by
  have hij : i ≤ j := Nat.le_trans hleast.1.1 hleast.1.2.1
  have hproper : [] ∉ [word] := by simp [hproper.symm]
  refine slice_eq_iff_suffix hleast.1.1 hj hleast.1.2.2.1 fun hend => ?_
  obtain ⟨hle, heq⟩ := eq_slice_of_suffix hij hj hend
  refine hleast.2 ⟨by omega, Nat.sub_le .., heq ▸ .of_mem (List.mem_singleton_self word), ?_⟩
  intro e t hlast
  obtain ⟨hword, hlength⟩ := text_of_lastMatch hproper h hj hlast
  rw [List.mem_singleton.1 hword] at hlength ⊢
  have hlt := hlast.lt
  omega

end UpTo

omit [CustomMatcher κ] in
theorem words_eq_ok {list : List String} (hsome : list ≠ []) (hproper : "" ∉ list) (name : String)
    (rule : WordRule) : words name rule list =
      .ok (mk (.words { name, rule, words := list.map String.toList }) : Matcher κ) := by
  have hmake : ¬(list.map String.toList = [] ∨ [] ∈ list.map String.toList) := by
    simp [hsome, hproper]
  simp only [words, WordMatcher.make, if_neg hmake]
  rfl

omit [CustomMatcher κ] in
theorem exists_words_iff {name : String} {rule : WordRule} {list : List String} :
    (∃ m : Matcher κ, words name rule list = .ok m) ↔ list ≠ [] ∧ "" ∉ list := by
  constructor
  · rintro ⟨m, h⟩
    obtain ⟨w, hw, -⟩ := exists_of_map_eq_ok h
    simp only [WordMatcher.make] at hw
    split at hw
    · cases hw
    · next hok => simpa [not_or] using hok
  · rintro ⟨hsome, hproper⟩
    exact ⟨_, words_eq_ok hsome hproper name rule⟩

/-- A matcher for anything up to a word takes every character and never fails. It holds the longest
piece that begins a word and starts behind the start of the last match before, and it is complete where
this piece is a word; with one word only, where the text ends with it. -/
theorem takes_longest_of_upTo {list : List String} (hsome : list ≠ []) (hproper : "" ∉ list)
    (name : String) : ∃ m : Matcher κ, words name .upTo list = .ok m ∧
      ∀ (text : List Char) (i j : Nat), i ≤ j → j ≤ text.length →
        ∃ s k, Takes (fun _ => True) text m i j s ∧ s.isFailed = false ∧ s.text = slice text k j ∧
          IsLeast {l | i ≤ l ∧ l ≤ j ∧ Begins (list.map String.toList) (slice text l j) ∧
            ∀ e t, LastMatch text m i j e t → e - t.text.length < l} k ∧
          (s.isComplete = true ↔ s.text ∈ list.map String.toList) ∧
          (s.isComplete = true → s.span =
            some ⟨(Cursor.ofList text).positionAt k, (Cursor.ofList text).positionAt (j - 1)⟩) ∧
          ∀ word, list = [word] → (s.isComplete = true ↔ word.toList <:+ slice text i j) := by
  refine ⟨_, words_eq_ok hsome hproper name .upTo, fun text i j hij hj => ?_⟩
  have hsome : list.map String.toList ≠ [] := by simp [hsome]
  have hproper : [] ∉ list.map String.toList := by simp [hproper]
  have hstart := WordMatcher.seeking_new hsome hproper name text i
  obtain ⟨v, k, htakes, hseeking, hleast⟩ := exists_takes_seeking (κ := κ) hproper hstart hij hj
  have hcomplete := hseeking.isComplete_iff
  refine ⟨_, k, htakes, hseeking.live, hseeking.text_eq, hleast, ?_, hseeking.span_eq hproper, ?_⟩
  · exact hcomplete.trans (by rw [← hseeking.text_eq]; rfl)
  · rintro word rfl
    have hword : word.toList ≠ [] := fun hnil => hproper (by simp [hnil])
    refine (hcomplete.trans ?_).trans (eq_iff_suffix_of_isLeast hword hstart hj hleast)
    exact List.mem_singleton

theorem takes_longest_of_upTo_overlapping :
    let text := "xababa".toList
    ["aba"] ≠ [] ∧ "" ∉ ["aba"] ∧ ∃ m : Matcher Empty, words "stop" .upTo ["aba"] = .ok m ∧
      ∃ s k, Takes (fun _ => True) text m 0 6 s ∧ s.isFailed = false ∧ s.text = slice text k 6 ∧
        s.isComplete = true ∧
        s.span = some ⟨(Cursor.ofList text).positionAt k, (Cursor.ofList text).positionAt 5⟩ := by
  -- the second `aba` begins with the last character of the first one
  intro text
  obtain ⟨m, hm, h⟩ := takes_longest_of_upTo (κ := Empty) (by decide : ["aba"] ≠ []) (by decide) "stop"
  obtain ⟨s, k, htakes, hlive, htext, -, -, hspan, hone⟩ := h text 0 6 (by decide) (by decide)
  have hcomplete := (hone "aba" rfl).2 (by decide)
  exact ⟨by decide, by decide, m, hm, s, k, htakes, hlive, htext, hcomplete, hspan hcomplete⟩

end Matcher

end Lexing
