import Lexing.Proofs.Chain.Passing

namespace Lexing

namespace Chain

section Groups

variable {α : Type} {G : Chain α} {g : Nat} {done element : List α} {rest : List (List α)}

theorem Passed.of_suffixed (h : G.Passed g done) (hrule : G.rule = .suffixed) :
    done = (G.groups.take g).flatten := by
  induction h with
  | start => rfl
  | next _ hgroup hnext ih =>
    rw [nextGroup?, if_neg (by simp [hrule])] at hnext
    split at hnext
    · cases hnext
      rw [ih, List.take_add_one, hgroup, List.flatten_append]
      simp
    · cases hnext

theorem Whole.of_suffixed (h : G.Whole done) (hrule : G.rule = .suffixed) :
    ∃ n < G.groups.length, done = (G.groups.take (n + 1)).flatten := by
  cases h with
  | @mk g _ _ hpassed hgroup _ =>
    refine ⟨g, (List.getElem?_eq_some_iff.1 hgroup).1, ?_⟩
    rw [hpassed.of_suffixed hrule, List.take_add_one, hgroup, List.flatten_append]
    simp

theorem flatten_replicate_append (n : Nat) (xs ys : List α) :
    (List.replicate n (xs ++ ys)).flatten ++ xs = xs ++ (List.replicate n (ys ++ xs)).flatten := by
  induction n with
  | zero => simp
  | succ n ih => simp [List.replicate_succ, ih]

theorem Passed.of_separated (h : G.Passed g done) (hrule : G.rule = .separated)
    (hgroups : G.groups = element :: rest) (hrest : rest.length ≤ 1) :
    g = 0 ∧ (∃ n, done = (List.replicate n (element ++ rest.flatten)).flatten) ∨
      g = 1 ∧ ∃ n, done = (List.replicate n (element ++ rest.flatten)).flatten ++ element := by
  induction h with
  | start => exact .inl ⟨rfl, 0, rfl⟩
  | @next g g' done group _ hgroup hnext ih =>
    rw [nextGroup?, if_pos hrule, hgroups, Option.some.injEq] at hnext
    rw [hgroups] at hgroup
    rcases ih with ⟨rfl, n, rfl⟩ | ⟨rfl, n, rfl⟩
    · cases hgroup
      cases rest with
      | nil =>
        refine .inl ⟨by simpa using hnext.symm, n + 1, ?_⟩
        simp [List.replicate_succ']
      | cons separator later =>
        cases later with
        | nil => exact .inr ⟨by simpa using hnext.symm, n, rfl⟩
        | cons => simp at hrest
    · cases rest with
      | nil => cases hgroup
      | cons separator later =>
        cases hgroup
        cases later with
        | nil =>
          refine .inl ⟨by simpa using hnext.symm, n + 1, ?_⟩
          simp [List.replicate_succ']
        | cons => simp at hrest

theorem Whole.of_separated (h : G.Whole done) (hrule : G.rule = .separated)
    (hgroups : G.groups = element :: rest) (hrest : rest.length ≤ 1) :
    ∃ n, done = element ++ (List.replicate n (rest.flatten ++ element)).flatten := by
  cases h with
  | @mk g _ group hpassed hgroup hcompletes =>
    have hg : g = 0 := by simpa [completes, hrule] using hcompletes
    subst hg
    rw [hgroups] at hgroup
    cases hgroup
    rcases hpassed.of_separated hrule hgroups hrest with ⟨-, n, rfl⟩ | ⟨hone, -⟩
    · exact ⟨n, flatten_replicate_append n _ _⟩
    · cases hone

end Groups

variable {κ : Type} [CustomMatcher κ] {G : Chain (Matcher κ)} {text : List Char} {i j : Nat}
  {s : Matcher κ}

theorem along_fresh (hG : ∀ a ∈ G.members, a.copy = a) [LawfulCopy κ] {group : List (Matcher κ)}
    {rest : List (List (Matcher κ))} (hgroups : G.groups = group :: rest) (hne : [] ∉ G.groups)
    (text : List Char) (i : Nat) : G.fresh.Along G text i i [] group i where
  rule_eq := rfl
  active := rfl
  unfailed := rfl
  text_eq := by simp [slice, fresh, Chain.text]
  groups_eq := groups_recycleCurrent hG rfl
  passed := .start
  group_eq := by simp [fresh, hgroups]
  before := .nil
  current := by
    obtain ⟨a, later, rfl⟩ : ∃ a later, group = a :: later := by
      apply List.exists_cons_of_ne_nil
      rintro rfl
      exact hne (hgroups ▸ List.mem_cons_self)
    refine ⟨a, a, i, by simp [current, fresh, hgroups], rfl, .nil, ?_⟩
    rw [hG a (List.mem_flatten.2 ⟨_, hgroups ▸ List.mem_cons_self, List.mem_cons_self⟩)]
    exact .start
  settled h := absurd rfl h
  complete h := nomatch h

variable [LawfulCopy κ] [LawfulCursor κ] (hG : ∀ a ∈ G.members, a.copy = a) (hne : [] ∉ G.groups)
  (hsome : G.groups ≠ []) (hfresh : G.fresh = G)
  (hentering : G.rule = .suffixed ∨ G.rule = .separated)
include hG hne hsome hfresh hentering

theorem along_or_stopped_of_takes
    (h : Matcher.Takes (fun _ => True) text (.mk (.chain G)) i j s) :
    ∃ n, s = .mk (.chain n) ∧
      ((∃ done group k, n.Along G text i j done group k) ∨ n.Stopped G text i j) := by
  induction h with
  | start =>
    obtain ⟨group, rest, hgroups⟩ := List.exists_cons_of_ne_nil hsome
    exact ⟨G, rfl, .inl ⟨[], group, i, hfresh ▸ along_fresh hG hgroups hne text i⟩⟩
  | take _ hc htaken _ ih =>
    obtain ⟨n, rfl, hn⟩ := ih
    rw [Matcher.accept_mk] at htaken ⊢
    refine ⟨_, rfl, ?_⟩
    rcases hn with ⟨done, group, k, hn⟩ | hn
    · exact hn.accept hentering hG hne hc htaken
    · have hactive := active_of_taken htaken
      rw [hn.inactive] at hactive
      cases hactive

theorem ended_of_fed (h : Matcher.Fed text (.mk (.chain G)) i j s) (hcomplete : s.isComplete = true) :
    ∃ k, s.text = slice text i k ∧ G.Ended text i j k := by
  cases h with
  | taken h =>
    obtain ⟨n, rfl, hn⟩ := along_or_stopped_of_takes hG hne hsome hfresh hentering h
    have hcomplete : n.complete = true := (Bool.and_eq_true_iff.1 hcomplete).1
    rcases hn with ⟨done, group, k, hn⟩ | hn
    · exact ⟨j, hn.text_eq, hn.ended hcomplete⟩
    · exact ⟨j, hn.text_eq, hn.ended⟩
  | refused h hc hrefused =>
    obtain ⟨n, rfl, hn⟩ := along_or_stopped_of_takes hG hne hsome hfresh hentering h
    rw [Matcher.accept_mk] at hrefused hcomplete ⊢
    rcases hn with ⟨done, group, k, hn⟩ | hn
    · obtain ⟨hwhole, htext⟩ := hn.refused hentering hrefused hcomplete
      exact ⟨k, htext, .whole hwhole hn.before⟩
    · have hfailed : (n.accept Matcher.accept _ (.past text _)).state.isComplete = true := hcomplete
      rw [accept, hn.inactive] at hfailed
      simp [isComplete] at hfailed

end Chain

namespace Matcher

variable {κ : Type} [CustomMatcher κ]

section One

variable {name : String} {set : CharSet} {text : List Char} {i j k : Nat} {c : Char} {s : Matcher κ}

theorem accept_one (cur : Cursor) :
    ((chars name (.one set) : Matcher κ).accept c cur).accepted = set.contains c ∧
      ((chars name (.one set) : Matcher κ).accept c cur).state.isComplete = set.contains c := by
  rw [chars, accept_mk]
  cases hc : set.contains c <;>
    simp [Layer.accept, Reply.map, CharMatcher.accept, CharMatcher.acceptOne, hc, isComplete, layer,
      Layer.isComplete, Progress.isComplete, Progress.pushAs, Progress.push, Progress.fail]

theorem Match.of_one (h : Match text (chars name (.one set)) i j s) :
    j = i + 1 ∧ text[i]?.any set.contains = true := by
  have htakes : ∀ {j s}, Takes Waiting text (chars name (.one set) : Matcher κ) i j s →
      j = i ∧ s = chars name (.one set) := by
    intro j s h
    induction h with
    | start => exact ⟨rfl, rfl⟩
    | take _ _ htaken hwaiting ih =>
      obtain ⟨rfl, rfl⟩ := ih
      rw [(accept_one _).1] at htaken
      rw [Waiting, (accept_one _).2, htaken] at hwaiting
      cases hwaiting
  cases h with
  | mk h hc htaken _ =>
    obtain ⟨rfl, rfl⟩ := htakes h
    rw [(accept_one _).1] at htaken
    rw [hc]
    exact ⟨rfl, htaken⟩

theorem Matches.of_one {rest : List (Matcher κ)}
    (h : Matches text i (chars name (.one set) :: rest) k) :
    text[i]?.any set.contains = true ∧ Matches text (i + 1) rest k := by
  cases h with
  | cons hmatch hrest =>
    obtain ⟨rfl, hc⟩ := hmatch.of_one
    exact ⟨hc, hrest⟩

end One

variable [LawfulCopy κ] [LawfulCursor κ] {name : String} {groups : List (List (Matcher κ))}
  {hideFirst : Bool} {m s : Matcher κ} {text : List Char} {i j : Nat}

theorem exists_ended_of_fed {rule : ChainRule} (hrule : rule = .suffixed ∨ rule = .separated)
    (hm : chain name rule groups hideFirst = .ok m) (hmade : ∀ group ∈ groups, ∀ a ∈ group, a.Made)
    (hfed : m.Fed text i j s) (hcomplete : s.isComplete = true) :
    ∃ G : Chain (Matcher κ), G.rule = rule ∧ G.groups = groups ∧
      ∃ k, s.text = slice text i k ∧ G.Ended text i j k := by
  obtain ⟨made, hmake, rfl⟩ := exists_of_map_eq_ok hm
  obtain ⟨hne, -⟩ := Chain.shape_of_make hmake
  obtain ⟨rfl, hsome⟩ := Chain.eq_of_make hmake
  have hG : ∀ a ∈ groups.flatten, a.copy = a := by
    intro a ha
    obtain ⟨group, hgroup, ha⟩ := List.mem_flatten.1 ha
    exact (hmade group hgroup a ha).copy_eq
  refine ⟨{ name, rule, groups, hideFirst }, rfl, rfl, ?_⟩
  exact Chain.ended_of_fed hG hne hsome rfl hrule hfed hcomplete

/-- The text of a complete chain with suffixes matches its groups, in order and without a gap, up to
some group. A beginning of the next group may follow, but only where the look-ahead has failed
behind it: there the text ends, or the member that would come next refuses the character. -/
theorem matches_groups_of_suffixed (hm : chain name .suffixed groups hideFirst = .ok m)
    (hmade : ∀ group ∈ groups, ∀ a ∈ group, a.Made) (hfed : m.Fed text i j s)
    (hcomplete : s.isComplete = true) :
    ∃ n p k, n < groups.length ∧ s.text = slice text i k ∧
      Matches text i ((groups.take (n + 1)).flatten ++ (groups.getD (n + 1) []).take p) k ∧
      (p = 0 ∨ k = j ∧ ∃ a, (groups.getD (n + 1) [])[p]? = some a ∧ a.Refuses text j) := by
  obtain ⟨G, hrule, rfl, k, htext, hended⟩ := exists_ended_of_fed (.inl rfl) hm hmade hfed hcomplete
  cases hended with
  | whole hwhole hmatches =>
    obtain ⟨n, hn, rfl⟩ := hwhole.of_suffixed hrule
    exact ⟨n, 0, k, hn, htext, by simpa using hmatches, .inl rfl⟩
  | @inside g p e done group a hpassed hg hmatches hgroup hpiece ha hrefuses =>
    obtain ⟨n, rfl⟩ := Nat.exists_eq_succ_of_ne_zero hg
    have hgetD : G.groups.getD (n + 1) [] = group := by simp [List.getD, hgroup]
    have hlt := (List.getElem?_eq_some_iff.1 hgroup).1
    rw [hpassed.of_suffixed hrule] at hmatches
    refine ⟨n, p, j, Nat.lt_of_succ_lt hlt, htext, ?_, .inr ⟨rfl, a, ?_, hrefuses⟩⟩
    · rw [hgetD]
      exact hmatches.append hpiece
    · rw [hgetD]
      exact ha
  | again hseparated => cases hrule.symm.trans hseparated

theorem matches_groups_of_suffixed_whole :
    let one : Char → Matcher Empty := fun c => .chars "one" (.one (.singleton c))
    let groups := [[one 'a'], [one 'b', one 'c']]
    let m : Matcher Empty := mk (.chain { name := "row", rule := .suffixed, groups })
    let text := ['a', 'b', 'c']
    ∃ s, m.Fed text 0 3 s ∧ s.isComplete = true ∧ s.text = text ∧
      ∃ n p k, n < 2 ∧ s.text = slice text 0 k ∧
        Matches text 0 ((groups.take (n + 1)).flatten ++ (groups.getD (n + 1) []).take p) k ∧
        (p = 0 ∨ k = 3 ∧ ∃ a, (groups.getD (n + 1) [])[p]? = some a ∧ a.Refuses text 3) := by
  intro one groups m text
  have hmade : ∀ group ∈ groups, ∀ a ∈ group, a.Made := by
    simp only [groups, List.forall_mem_cons]
    exact ⟨⟨.chars _ _, by simp⟩, ⟨.chars _ _, .chars _ _, by simp⟩, by simp⟩
  have hone : Takes (fun _ => True) text m 0 1 _ :=
    .take (c := 'a') .start rfl (by decide +kernel) trivial
  have htwo : Takes (fun _ => True) text m 0 2 _ :=
    .take (c := 'b') hone rfl (by decide +kernel) trivial
  have hthree : Takes (fun _ => True) text m 0 3 _ :=
    .take (c := 'c') htwo rfl (by decide +kernel) trivial
  have hm : chain "row" .suffixed groups false = .ok m := rfl
  exact ⟨_, .taken hthree, by decide +kernel, by decide +kernel,
    matches_groups_of_suffixed hm hmade (.taken hthree) (by decide +kernel)⟩

/-- At `b` the chain sees that `x` does not go on with the second group, and is complete with half
of that group. -/
theorem not_matches_groups_of_suffixed :
    let one : Char → Matcher Empty := fun c => .chars "one" (.one (.singleton c))
    let groups := [[one 'a'], [one 'b', one 'c']]
    let m : Matcher Empty := mk (.chain { name := "row", rule := .suffixed, groups })
    let text := ['a', 'b', 'x']
    chain "row" .suffixed groups false = .ok m ∧ (∀ group ∈ groups, ∀ a ∈ group, a.Made) ∧
      ∃ s, m.Fed text 0 2 s ∧ s.isComplete = true ∧ s.text = ['a', 'b'] ∧
        ∀ n k, Matches text 0 (groups.take (n + 1)).flatten k → s.text ≠ slice text 0 k := by
  intro one groups m text
  have hmade : ∀ group ∈ groups, ∀ a ∈ group, a.Made := by
    simp only [groups, List.forall_mem_cons]
    exact ⟨⟨.chars _ _, by simp⟩, ⟨.chars _ _, .chars _ _, by simp⟩, by simp⟩
  have hone : Takes (fun _ => True) text m 0 1 _ :=
    .take (c := 'a') .start rfl (by decide +kernel) trivial
  have htwo : Takes (fun _ => True) text m 0 2 _ :=
    .take (c := 'b') hone rfl (by decide +kernel) trivial
  have htext : ((m.accept 'a' (.past text 1)).state.accept 'b' (.past text 2)).state.text =
      ['a', 'b'] := by decide +kernel
  refine ⟨rfl, hmade, _, .taken htwo, by decide +kernel, htext, ?_⟩
  intro n k hmatches
  rw [htext]
  cases n with
  | zero =>
    obtain ⟨-, hrest⟩ := hmatches.of_one
    cases hrest
    decide
  | succ n =>
    have htake : (groups.take (n + 1 + 1)).flatten = [one 'a', one 'b', one 'c'] := by
      rw [List.take_of_length_le (by simp [groups])]
      rfl
    rw [htake] at hmatches
    obtain ⟨-, hmatches⟩ := hmatches.of_one
    obtain ⟨-, hmatches⟩ := hmatches.of_one
    obtain ⟨hc, -⟩ := hmatches.of_one
    exact absurd hc (by decide +kernel)

/-- The text of a complete chain with separators matches an element and then any number of
separators with an element behind each. A beginning of another separator may follow where the
look-ahead has failed behind it, and a beginning of another element where there are no separators. -/
theorem matches_elements_of_separated (hm : chain name .separated groups hideFirst = .ok m)
    (hmade : ∀ group ∈ groups, ∀ a ∈ group, a.Made) (hfed : m.Fed text i j s)
    (hcomplete : s.isComplete = true) :
    ∃ element rest n e k, groups = element :: rest ∧ s.text = slice text i k ∧
      Matches text i (element ++ (List.replicate n (rest.flatten ++ element)).flatten) e ∧
      (k = e ∨
        (k = j ∧ ∃ separator p a, rest = [separator] ∧ Matches text e (separator.take p) j ∧
          separator[p]? = some a ∧ a.Refuses text j) ∨
        (k = j ∧ rest = [] ∧ ∃ p a b e', Matches text e (element.take p) e' ∧
          element[p]? = some a ∧ Takes Waiting text a.copy e' j b)) := by
  have hrest : groups.length ≤ 2 := by
    obtain ⟨made, hmake, -⟩ := exists_of_map_eq_ok hm
    exact (Chain.shape_of_make hmake).2 rfl
  have hsome : groups ≠ [] := by
    obtain ⟨made, hmake, -⟩ := exists_of_map_eq_ok hm
    exact (Chain.eq_of_make hmake).2
  obtain ⟨G, hrule, rfl, k, htext, hended⟩ := exists_ended_of_fed (.inr rfl) hm hmade hfed hcomplete
  obtain ⟨element, rest, hgroups⟩ := List.exists_cons_of_ne_nil hsome
  have hrest : rest.length ≤ 1 := by
    rw [hgroups, List.length_cons] at hrest
    exact Nat.le_of_succ_le_succ hrest
  cases hended with
  | whole hwhole hmatches =>
    obtain ⟨n, rfl⟩ := hwhole.of_separated hrule hgroups hrest
    exact ⟨element, rest, n, k, k, hgroups, htext, hmatches, .inl rfl⟩
  | @inside g p e done group a hpassed hg hmatches hgroup hpiece ha hrefuses =>
    obtain ⟨n, rfl⟩ := (hpassed.whole hg).of_separated hrule hgroups hrest
    have hone : g = 1 := by
      rcases hpassed.of_separated hrule hgroups hrest with ⟨hzero, -⟩ | ⟨hone, -⟩
      · exact absurd hzero hg
      · exact hone
    rw [hgroups, hone] at hgroup
    have hseparator : rest = [group] := by
      cases rest with
      | nil => cases hgroup
      | cons separator later =>
        cases hgroup
        rw [List.length_eq_zero_iff.1 (Nat.le_zero.1 (Nat.le_of_succ_le_succ hrest))]
    exact ⟨element, rest, n, e, j, hgroups, htext, hmatches,
      .inr (.inl ⟨rfl, group, p, a, hseparator, hpiece, ha, hrefuses⟩)⟩
  | @again p e e' done group a b _ hone hwhole hmatches hpiece ha htakes =>
    obtain ⟨n, rfl⟩ := hwhole.of_separated hrule hgroups hrest
    obtain ⟨rfl, rfl⟩ : element = group ∧ rest = [] := by
      rw [hgroups, List.cons.injEq] at hone
      exact hone
    exact ⟨element, [], n, e, j, hgroups, htext, hmatches,
      .inr (.inr ⟨rfl, rfl, p, a, b, e', hpiece, ha, htakes⟩)⟩

theorem matches_elements_of_separated_twice :
    let one : Char → Matcher Empty := fun c => .chars "one" (.one (.singleton c))
    let groups := [[one 'a'], [one 'b', one 'c']]
    let m : Matcher Empty := mk (.chain { name := "row", rule := .separated, groups })
    let text := ['a', 'b', 'c', 'a']
    ∃ s, m.Fed text 0 4 s ∧ s.isComplete = true ∧ s.text = text ∧
      ∃ element rest n e k, groups = element :: rest ∧ s.text = slice text 0 k ∧
        Matches text 0 (element ++ (List.replicate n (rest.flatten ++ element)).flatten) e ∧
        (k = e ∨
          (k = 4 ∧ ∃ separator p a, rest = [separator] ∧ Matches text e (separator.take p) 4 ∧
            separator[p]? = some a ∧ a.Refuses text 4) ∨
          (k = 4 ∧ rest = [] ∧ ∃ p a b e', Matches text e (element.take p) e' ∧
            element[p]? = some a ∧ Takes Waiting text a.copy e' 4 b)) := by
  -- two elements and the separator between them
  intro one groups m text
  have hmade : ∀ group ∈ groups, ∀ a ∈ group, a.Made := by
    simp only [groups, List.forall_mem_cons]
    exact ⟨⟨.chars _ _, by simp⟩, ⟨.chars _ _, .chars _ _, by simp⟩, by simp⟩
  have hone : Takes (fun _ => True) text m 0 1 _ :=
    .take (c := 'a') .start rfl (by decide +kernel) trivial
  have htwo : Takes (fun _ => True) text m 0 2 _ :=
    .take (c := 'b') hone rfl (by decide +kernel) trivial
  have hthree : Takes (fun _ => True) text m 0 3 _ :=
    .take (c := 'c') htwo rfl (by decide +kernel) trivial
  have hfour : Takes (fun _ => True) text m 0 4 _ :=
    .take (c := 'a') hthree rfl (by decide +kernel) trivial
  have hm : chain "row" .separated groups false = .ok m := rfl
  exact ⟨_, .taken hfour, by decide +kernel, by decide +kernel,
    matches_elements_of_separated hm hmade (.taken hfour) (by decide +kernel)⟩

/-- Without separators the chain stays complete when another element begins. -/
theorem not_matches_elements_of_separated :
    let one : Char → Matcher Empty := fun c => .chars "one" (.one (.singleton c))
    let element := [one 'a', one 'b']
    let m : Matcher Empty := mk (.chain { name := "row", rule := .separated, groups := [element] })
    let text := ['a', 'b', 'a']
    chain "row" .separated [element] false = .ok m ∧ (∀ a ∈ element, a.Made) ∧
      ∃ s, m.Fed text 0 3 s ∧ s.isComplete = true ∧ s.text = text ∧
        ∀ n k, Matches text 0 (element ++ (List.replicate n element).flatten) k →
          s.text ≠ slice text 0 k := by
  intro one element m text
  have hmade : ∀ a ∈ element, a.Made := by
    simp only [element, List.forall_mem_cons]
    exact ⟨.chars _ _, .chars _ _, by simp⟩
  have hone : Takes (fun _ => True) text m 0 1 _ :=
    .take (c := 'a') .start rfl (by decide +kernel) trivial
  have htwo : Takes (fun _ => True) text m 0 2 _ :=
    .take (c := 'b') hone rfl (by decide +kernel) trivial
  have hthree : Takes (fun _ => True) text m 0 3 _ :=
    .take (c := 'a') htwo rfl (by decide +kernel) trivial
  have htext : (((m.accept 'a' (.past text 1)).state.accept 'b' (.past text 2)).state.accept 'a'
      (.past text 3)).state.text = text := by decide +kernel
  refine ⟨rfl, hmade, _, .taken hthree, by decide +kernel, htext, ?_⟩
  intro n k hmatches
  rw [htext]
  obtain ⟨-, hmatches⟩ := hmatches.of_one
  obtain ⟨-, hmatches⟩ := hmatches.of_one
  cases n with
  | zero =>
    cases hmatches
    decide
  | succ n =>
    rw [List.replicate_succ, List.flatten_cons] at hmatches
    obtain ⟨-, hmatches⟩ := hmatches.of_one
    obtain ⟨hc, -⟩ := hmatches.of_one
    exact absurd hc (by decide +kernel)

end Matcher

end Lexing
