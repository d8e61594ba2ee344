import Lexing.Proofs.Scanner.Nesting

namespace Lexing

variable {κ : Type} [CustomMatcher κ]

def freeChars (rules : List (TokenRule κ)) (text : List Char) (i : Nat) : List (Nat × Char) :=
  match _hc : text[i]? with
  | none => []
  | some c =>
    match h : simpleToken? rules text i with
    | some (_, j) => freeChars rules text j
    | none => (i, c) :: freeChars rules text (i + 1)
termination_by text.length - i
decreasing_by
  all_goals have hlt := (List.getElem?_eq_some_iff.1 _hc).1
  · have hnext := lt_next_simpleToken? rules text i
    rw [h] at hnext
    simp only [Option.elim_some] at hnext
    omega
  · omega

def brackets (o e : Char) : (stack : List Nat) → List (Nat × Char) → List (Nat × Nat)
  | _, [] => []
  | stack, (i, c) :: rest =>
    (nest o e i c stack).2.toList ++ brackets o e (nest o e i c stack).1 rest

theorem freeChars_of_none {rules : List (TokenRule κ)} {text : List Char} {i : Nat}
    (hc : text[i]? = none) : freeChars rules text i = [] := by
  rw [freeChars]
  split
  · rfl
  · next hsome => simp [hc] at hsome

theorem freeChars_of_some {rules : List (TokenRule κ)} {text : List Char} {i : Nat} {c : Char}
    (hc : text[i]? = some c) : freeChars rules text i =
      match simpleToken? rules text i with
      | some (_, j) => freeChars rules text j
      | none => (i, c) :: freeChars rules text (i + 1) := by
  rw [freeChars]
  split
  · next hnone => simp [hc] at hnone
  · next d hd =>
    rw [hc] at hd
    cases hd
    split
    · next h => simp [h]
    · next h => simp [h]

instance (rules : List (TokenRule κ)) (k : Nat) : Decidable (IsCompound rules k) :=
  decidable_of_iff (rules[k]?.any TokenRule.compound = true) (by simp [IsCompound, Option.any_eq_true])

omit [CustomMatcher κ] in
theorem tokensOf_append (k : Nat) (ps qs : List Report) :
    tokensOf k (ps ++ qs) = tokensOf k ps ++ tokensOf k qs := by simp [tokensOf]

omit [CustomMatcher κ] in
theorem tokensOf_eq_nil {rules : List (TokenRule κ)} {k : Nat} {reports : List Report}
    (hk : IsCompound rules k) (h : ∀ p ∈ reports, isSimple rules p.1 = true) :
    tokensOf k reports = [] := by
  rw [tokensOf, List.map_eq_nil_iff, List.filter_eq_nil_iff]
  intro p hp heq
  exact not_isCompound_of_isSimple (h p hp) (of_decide_eq_true heq ▸ hk)

structure EndsInOrder (rules : List (TokenRule κ)) (i : Nat) (reports : List Report) : Prop where
  bound : ∀ p ∈ reports, IsCompound rules p.1 → i ≤ p.2.span.stop.offset
  ordered : (reports.filter fun p => IsCompound rules p.1).Pairwise fun p q =>
    p.2.span.stop.offset < q.2.span.stop.offset

namespace EndsInOrder

variable {rules : List (TokenRule κ)} {i j : Nat} {ps qs : List Report}

omit [CustomMatcher κ]

theorem nil : EndsInOrder rules i [] := ⟨nofun, .nil⟩

theorem append_simple (h : EndsInOrder rules j qs) (hij : i ≤ j)
    (hps : ∀ p ∈ ps, ¬IsCompound rules p.1) : EndsInOrder rules i (ps ++ qs) := by
  have hnil : ps.filter (fun p => IsCompound rules p.1) = [] := by simpa using hps
  constructor
  · intro p hp hcompound
    rcases List.mem_append.1 hp with hp | hp
    · exact absurd hcompound (hps p hp)
    · exact Nat.le_trans hij (h.bound p hp hcompound)
  · rw [List.filter_append, hnil, List.nil_append]
    exact h.ordered

theorem append_single (h : EndsInOrder rules (i + 1) qs) (hlength : ps.length ≤ 1)
    (hps : ∀ p ∈ ps, p.2.span.stop.offset = i) : EndsInOrder rules i (ps ++ qs) := by
  constructor
  · intro p hp hcompound
    rcases List.mem_append.1 hp with hp | hp
    · exact Nat.le_of_eq (hps p hp).symm
    · exact Nat.le_of_succ_le (h.bound p hp hcompound)
  · rw [List.filter_append, List.pairwise_append]
    refine ⟨?_, h.ordered, ?_⟩
    · apply List.Pairwise.filter
      cases ps with
      | nil => exact .nil
      | cons p rest =>
        obtain rfl : rest = [] := List.eq_nil_of_length_eq_zero (by simpa using hlength)
        exact List.pairwise_singleton _ p
    · intro p hp q hq
      rw [hps p (List.mem_filter.1 hp).1]
      obtain ⟨hq, hcompound⟩ := List.mem_filter.1 hq
      exact h.bound q hq (of_decide_eq_true hcompound)

end EndsInOrder

namespace Tokenizer

variable [LawfulCopy κ] [LawfulCursor κ] {rules : List (TokenRule κ)} {opener closer : Nat → Char}
  {text : List Char}

def Nested (rules : List (TokenRule κ)) (opener closer : Nat → Char) (text : List Char) (i : Nat)
    (s : Scanner κ) (course : Course κ) : Prop :=
  (∀ m ∈ s.opened, m.Waits rules closer text i) →
    course.error = none ∧ EndsInOrder rules i course.reports ∧
      ∀ k, IsCompound rules k → (tokensOf k course.reports).map (fun t => (t.kind, t.span)) =
        (brackets (opener k) (closer k) (starts k s.opened) (freeChars rules text i)).map
          (bracket (Scanner.ruleName rules k) text)

theorem nested_run (hpairs : Pairs rules opener closer) {n i : Nat} {s : Scanner κ} (hs : s.Sound)
    (hbare : s.rules.map TokenRule.bare = rules.map TokenRule.bare) (hn : text.length - i ≤ n) :
    Nested rules opener closer text i s (run n s (.past text i)) := by
  -- the invariant of the scan: the open matches of each pair are the open brackets of its stack
  -- machine, which has gone just as far
  apply run_induction _ _ _ hs hbare hn
  · intro i s hc _
    rw [freeChars_of_none hc]
    exact ⟨rfl, .nil, fun k _ => rfl⟩
  · intro i c s e hs hbare hc t hresult h
    cases htoken : simpleToken? rules text i with
    | some p =>
      obtain ⟨⟨count, hok⟩, -⟩ :=
        Scanner.step_skip hs hbare hc (Scanner.apart_of_pairs hpairs c) htoken
      cases hresult.symm.trans hok
    | none => cases hresult.symm.trans (Scanner.step_nest hpairs hs hbare hc h htoken).1
  · intro i c s count rest hs hbare hc t _ ih h
    have hnext := lt_next_simpleToken? rules text i
    rw [freeChars_of_some hc]
    cases htoken : simpleToken? rules text i with
    | some p =>
      obtain ⟨token, j⟩ := p
      obtain ⟨-, hopened, hsimple⟩ :=
        Scanner.step_skip hs hbare hc (Scanner.apart_of_pairs hpairs c) htoken
      rw [htoken, Option.elim_some] at hnext ih
      obtain ⟨herror, horder, htokens⟩ :=
        ih fun m hm => (h m (hopened ▸ hm)).mono (Nat.le_of_lt hnext)
      refine ⟨herror, horder.append_simple (Nat.le_of_lt hnext) fun p hp =>
        not_isCompound_of_isSimple (hsimple p hp), fun k hk => ?_⟩
      rw [tokensOf_append, tokensOf_eq_nil hk hsimple, List.nil_append, htokens k hk, hopened]
    | none =>
      obtain ⟨-, hwaits, ⟨hlength, hstop⟩, hnest⟩ := Scanner.step_nest hpairs hs hbare hc h htoken
      rw [htoken, Option.elim_none] at ih
      obtain ⟨herror, horder, htokens⟩ := ih hwaits
      refine ⟨herror, horder.append_single hlength fun p hp => (hstop p hp).2, fun k hk => ?_⟩
      obtain ⟨hstarts, hreports⟩ := hnest k hk
      rw [tokensOf_append, List.map_append, hreports, htokens k hk, hstarts, brackets,
        List.map_append]

/-- A text with brackets scans without error. The tokens of every pair are the brackets of this pair
that match in the characters outside the simple tokens, and all of them come in the order of their
closing characters. -/
theorem tokenize_brackets (hpairs : Pairs rules opener closer) (text : String) :
    let reports := ((ofRules rules).course text).reports
    ((ofRules rules).tokenize text).result = .ok (reports.map Prod.snd) ∧
      (∀ k r, rules[k]? = some r → r.compound = true →
        (tokensOf k reports).map (fun t => (t.kind, t.span)) =
          (brackets (opener k) (closer k) [] (freeChars rules text.toList 0)).map
            (bracket r.name text.toList)) ∧
      (reports.filter fun p => IsCompound rules p.1).Pairwise fun p q =>
        p.2.span.stop.offset < q.2.span.stop.offset := by
  have hcourse : (ofRules rules).course text =
      run (Cursor.ofString text).remaining { rules } (.past text.toList 0) := by
    rw [Cursor.past_zero]
    rfl
  obtain ⟨herror, horder, htokens⟩ := nested_run (n := (Cursor.ofString text).remaining) (i := 0)
    hpairs (sound_ofRules hpairs.ready) rfl (Nat.le_of_eq rfl) nofun
  change (run _ { rules } (.past text.toList 0)).error = none at herror
  rw [← hcourse] at herror
  intro reports
  refine ⟨?_, fun k r hr hcompound => ?_, ?_⟩
  · simp only [tokenize, herror]
    rfl
  · have hname : Scanner.ruleName rules k = r.name := by simp [Scanner.ruleName, hr]
    rw [← hname]
    simp only [reports, hcourse]
    exact htokens k ⟨r, hr, hcompound⟩
  · simp only [reports, hcourse]
    exact horder.ordered

theorem tokenize_brackets_crossing :
    let pair : String → Char → Char → TokenRule FixedMatcher := fun name o e =>
      { name, compound := true, firstChars := CharSet.empty.union (.singleton o)
        prototype := .opening name (.chars (name ++ "-start") (.one (.singleton o)))
          (.chars (name ++ "-end") (.upTo (.singleton e))) [] }
    let digit : TokenRule FixedMatcher :=
      { name := "digit", compound := false, firstChars := .singleton '1'
        prototype := .chars "digit" (.one (.singleton '1')) }
    let rules := [pair "round" '(' ')', digit, pair "angle" '<' '>']
    let text := "(<1)>"
    ((ofRules rules).tokenize text).result =
        .ok (((ofRules rules).course text).reports.map Prod.snd) ∧
      (brackets '(' ')' [] (freeChars rules text.toList 0)).map (bracket "round" text.toList) =
        [("round", ⟨⟨0, 1, 1⟩, ⟨3, 1, 4⟩⟩)] ∧
      (brackets '<' '>' [] (freeChars rules text.toList 0)).map (bracket "angle" text.toList) =
        [("angle", ⟨⟨1, 1, 2⟩, ⟨4, 1, 5⟩⟩)] := by
  -- two pairs that cross, with a simple token inside
  intro pair digit rules text
  let opener : Nat → Char := fun k => if k = 0 then '(' else '<'
  let closer : Nat → Char := fun k => if k = 0 then ')' else '>'
  have hpair : ∀ name o e, (pair name o e).IsPair o e := fun name o e =>
    ⟨name, name, .char o, .char e, rfl, rfl, rfl⟩
  have hcompound : ∀ {k r}, rules[k]? = some r → r.compound = true →
      (k = 0 ∧ r = pair "round" '(' ')') ∨ (k = 2 ∧ r = pair "angle" '<' '>') := by
    intro k r hr hcompound
    match k, hr with
    | 0, rfl => exact .inl ⟨rfl, rfl⟩
    | 1, rfl => cases hcompound
    | 2, rfl => exact .inr ⟨rfl, rfl⟩
  have hindex : ∀ {k}, IsCompound rules k → k = 0 ∨ k = 2 := by
    rintro k ⟨r, hr, h⟩
    exact (hcompound hr h).imp And.left And.left
  have hpairs : Pairs rules opener closer := by
    constructor
    · simp [rules, pair, digit, TokenRule.Ready]
    · intro k r hr h
      rcases hcompound hr h with ⟨rfl, rfl⟩ | ⟨rfl, rfl⟩
      · exact hpair "round" '(' ')'
      · exact hpair "angle" '<' '>'
    · intro k k' hk hk'
      rcases hindex hk with rfl | rfl <;> rcases hindex hk' with rfl | rfl <;> decide
    · intro k k' hk hk'
      rcases hindex hk with rfl | rfl <;> rcases hindex hk' with rfl | rfl <;> decide
    · intro k k' hk hk'
      rcases hindex hk with rfl | rfl <;> rcases hindex hk' with rfl | rfl <;> decide
    · intro k hk r hr hsimple
      obtain rfl : r = digit := by
        simp only [rules, List.mem_cons, List.not_mem_nil, or_false] at hr
        rcases hr with rfl | rfl | rfl
        · cases hsimple
        · rfl
        · cases hsimple
      rcases hindex hk with rfl | rfl <;> decide +kernel
  obtain ⟨hresult, htokens, -⟩ := tokenize_brackets hpairs text
  refine ⟨hresult, ?_, ?_⟩
  · exact (htokens 0 (pair "round" '(' ')') rfl rfl).symm.trans (by decide +kernel)
  · exact (htokens 2 (pair "angle" '<' '>') rfl rfl).symm.trans (by decide +kernel)

end Tokenizer

end Lexing
