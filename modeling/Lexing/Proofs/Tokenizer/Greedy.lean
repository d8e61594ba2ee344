import Lexing.Proofs.Matcher.Feed
import Lexing.Proofs.Scanner.Step
import Lexing.Proofs.Tokenizer.Reuse

/-!
The tokens of the simple rules are found as if there were no compound rules: `greedy` goes through
the text with nothing but new copies of the prototypes and has neither pools nor open matches.
-/

namespace Lexing

variable {κ : Type} [CustomMatcher κ]

def TokenRule.tokenAt? (r : TokenRule κ) (text : List Char) (i : Nat) : Option (Token × Nat) :=
  if text[i]?.any r.startsWith then
    let (m, j) := r.prototype.copy.feed text i
    if m.isComplete then
      some (m.toToken r.name (Cursor.past text (i + 1)).position (.past text j), j)
    else none
  else none

theorem TokenRule.lt_of_tokenAt? {r : TokenRule κ} {text : List Char} {i : Nat} {p : Token × Nat}
    (h : r.tokenAt? text i = some p) : i < p.2 := by
  rw [tokenAt?] at h
  cases hc : text[i]? with
  | none => simp [hc] at h
  | some c =>
    have hlt := Matcher.lt_feed hc r.prototype.copy
    split at h
    · dsimp only at h
      split at h
      · cases h
        exact hlt
      · cases h
    · cases h

theorem TokenRule.le_length_of_tokenAt? {r : TokenRule κ} {text : List Char} {i : Nat}
    {p : Token × Nat} (h : r.tokenAt? text i = some p) : p.2 ≤ text.length := by
  rw [tokenAt?] at h
  cases hc : text[i]? with
  | none => simp [hc] at h
  | some c =>
    have hle := Matcher.feed_le_length (Nat.le_of_lt (List.getElem?_eq_some_iff.1 hc).1)
      r.prototype.copy
    split at h
    · dsimp only at h
      split at h
      · cases h
        exact hle
      · cases h
    · cases h

theorem TokenRule.tokenAt?_of_bare {r s : TokenRule κ} (h : r.bare = s.bare) :
    r.tokenAt? = s.tokenAt? := by
  change r.bare.tokenAt? = s.bare.tokenAt?
  rw [h]

theorem TokenRule.readFresh_past [LawfulCursor κ] {r : TokenRule κ} {text : List Char} {i : Nat}
    {c : Char} (hc : text[i]? = some c) (hstart : r.startsWith c = true) :
    r.readFresh (.past text (i + 1)) =
      ((r.tokenAt? text i).map fun p => (p.1, p.2 - i),
        .past text ((r.tokenAt? text i).elim (i + 1) Prod.snd)) := by
  have hi := (List.getElem?_eq_some_iff.1 hc).1
  simp only [readFresh, tokenAt?, Cursor.unread_past hi, Matcher.read_past, hc, Option.any_some,
    hstart, if_true]
  split
  · rfl
  · simp [Cursor.restore_past]

def simpleRules (rules : List (TokenRule κ)) : List (TokenRule κ) :=
  rules.filter fun r => !r.compound

def simpleToken? (rules : List (TokenRule κ)) (text : List Char) (i : Nat) : Option (Token × Nat) :=
  (simpleRules rules).findSome? fun r => r.tokenAt? text i

theorem simpleToken?_cons (r : TokenRule κ) (rest : List (TokenRule κ)) (text : List Char)
    (i : Nat) : simpleToken? (r :: rest) text i =
      if r.compound then simpleToken? rest text i
      else (r.tokenAt? text i).or (simpleToken? rest text i) := by
  cases hcompound : r.compound with
  | true => simp [simpleToken?, simpleRules, hcompound]
  | false =>
    cases htoken : r.tokenAt? text i with
    | none => simp [simpleToken?, simpleRules, hcompound, htoken]
    | some p => simp [simpleToken?, simpleRules, hcompound, htoken]

theorem lt_next_simpleToken? (rules : List (TokenRule κ)) (text : List Char) (i : Nat) :
    i < (simpleToken? rules text i).elim (i + 1) Prod.snd := by
  cases h : simpleToken? rules text i with
  | none => exact Nat.lt_succ_self i
  | some p =>
    obtain ⟨r, -, hr⟩ := List.exists_of_findSome?_eq_some h
    exact TokenRule.lt_of_tokenAt? hr

theorem next_simpleToken?_le (rules : List (TokenRule κ)) {text : List Char} {i : Nat}
    (h : i < text.length) : (simpleToken? rules text i).elim (i + 1) Prod.snd ≤ text.length := by
  cases htoken : simpleToken? rules text i with
  | none => exact h
  | some p =>
    obtain ⟨r, -, hr⟩ := List.exists_of_findSome?_eq_some htoken
    exact TokenRule.le_length_of_tokenAt? hr

namespace Scanner.Launches

theorem simple_found [LawfulCursor κ] {text : List Char} {i : Nat} {c : Char} {cur : Cursor}
    {opened : List (OpenMatch κ)} {index : Nat} {rules : List (TokenRule κ)} {l : Launch κ}
    (h : Launches c cur opened index rules l) (hc : text[i]? = some c)
    (hcur : cur = .past text (i + 1)) :
    l.found.map (fun f => (f.1.2, i + f.2)) = simpleToken? rules text i ∧
      l.cursor = .past text ((simpleToken? rules text i).elim (i + 1) Prod.snd) := by
  induction h with
  | nil => exact ⟨rfl, hcur⟩
  | @pass cur opened index r r' rest l hstart _ _ _ ih =>
    have hnone : r.tokenAt? text i = none := by simp [TokenRule.tokenAt?, hc, hstart]
    rw [simpleToken?_cons, hnone, Option.none_or, ite_self]
    exact ih hcur
  | @start cur opened index r r' rest l _ hcompound _ _ _ ih =>
    rw [simpleToken?_cons, if_pos hcompound]
    exact ih hcur
  | @found cur opened index r r' rest t count after hstart hcompound _ _ hread =>
    rw [hcur, TokenRule.readFresh_past hc hstart, Prod.mk.injEq, Option.map_eq_some_iff] at hread
    obtain ⟨⟨p, hp, hpair⟩, rfl⟩ := hread
    cases hpair
    have hlt := TokenRule.lt_of_tokenAt? hp
    have hadd : i + (p.2 - i) = p.2 := by omega
    simp [simpleToken?_cons, hcompound, hp, hadd]
  | @miss cur opened index r r' rest l after hstart hcompound _ _ hread _ ih =>
    rw [hcur, TokenRule.readFresh_past hc hstart, Prod.mk.injEq, Option.map_eq_none_iff] at hread
    obtain ⟨hnone, rfl⟩ := hread
    rw [simpleToken?_cons, hnone, Option.none_or, ite_self]
    apply ih
    rw [hnone]
    rfl

theorem simple_rule {c : Char} {cur : Cursor} {opened : List (OpenMatch κ)}
    {rules : List (TokenRule κ)} {l : Launch κ} (before : List (TokenRule κ))
    (h : Launches c cur opened before.length rules l) {f : Report × Nat} (hf : l.found = some f) :
    ∃ r, (before ++ rules)[f.1.1]? = some r ∧ r.compound = false := by
  generalize hindex : before.length = index at h
  induction h generalizing before with
  | nil => cases hf
  | pass _ _ _ _ ih =>
    rw [List.append_cons]
    exact ih _ hf (by simp [hindex])
  | start _ _ _ _ _ ih =>
    rw [List.append_cons]
    exact ih _ hf (by simp [hindex])
  | @found cur opened index r r' rest t count after _ hcompound _ _ _ =>
    cases hf
    exact ⟨r, by simp [← hindex], hcompound⟩
  | miss _ _ _ _ _ _ ih =>
    rw [List.append_cons]
    exact ih _ hf (by simp [hindex])

end Scanner.Launches

def isSimple (rules : List (TokenRule κ)) (index : Nat) : Bool :=
  rules[index]?.any fun r => !r.compound

def simpleTokens (rules : List (TokenRule κ)) (reports : List Report) : List Token :=
  (reports.filter fun r => isSimple rules r.1).map Prod.snd

omit [CustomMatcher κ] in
theorem simpleTokens_append (rules : List (TokenRule κ)) (xs ys : List Report) :
    simpleTokens rules (xs ++ ys) = simpleTokens rules xs ++ simpleTokens rules ys := by
  simp [simpleTokens]

theorem OpenMatch.Belongs.isSimple_rule {rules : List (TokenRule κ)} {m : OpenMatch κ}
    (h : m.Belongs rules) : isSimple rules m.rule = false := by
  obtain ⟨r, hr, hcompound, -⟩ := h
  simp [isSimple, hr, hcompound]

theorem Scanner.simpleTokens_offerOpened {rules : List (TokenRule κ)} {opened : List (OpenMatch κ)}
    (h : ∀ m ∈ opened, m.Belongs rules) (c : Char) (rules' : List (TokenRule κ)) (cur : Cursor) :
    simpleTokens rules (offerOpened c rules' opened cur).found.toList = [] := by
  cases hfound : (offerOpened c rules' opened cur).found with
  | none => rfl
  | some report =>
    obtain ⟨m, hm, hrule⟩ := rule_of_found hfound
    have hnot := (h m hm).isSimple_rule
    rw [hrule] at hnot
    simp [simpleTokens, hnot]

theorem Scanner.step_simple [LawfulCopy κ] [LawfulCursor κ] {s : Scanner κ} (hs : s.Sound)
    {text : List Char} {i : Nat} {c : Char} (hc : text[i]? = some c) :
    simpleTokens s.rules (s.step c (.past text (i + 1))).reports =
        (simpleToken? s.rules text i).toList.map Prod.fst ∧
      (s.step c (.past text (i + 1))).cursor =
        .past text ((simpleToken? s.rules text i).elim (i + 1) Prod.snd) := by
  have hl := launches_launch c (.past text (i + 1)) s.opened 0 hs.ready
  obtain ⟨hfound, hcursor⟩ := hl.simple_found hc rfl
  have hopened := hl.belongs [] hs.belongs
  simp only [step]
  generalize launch c (.past text (i + 1)) s.opened 0 s.rules = l at hl hfound hcursor hopened
  cases hf : l.found with
  | some f =>
    obtain ⟨r, hr, hsimple⟩ := hl.simple_rule [] hf
    rw [← hfound, hf] at hcursor ⊢
    have hkeep : isSimple s.rules f.1.1 = true := by
      rw [List.nil_append] at hr
      simp [isSimple, hr, hsimple]
    simp [simpleTokens, hkeep, hcursor]
  | none =>
    rw [← hfound, hf] at hcursor ⊢
    refine ⟨?_, (cursor_offerOpened ..).trans hcursor⟩
    exact simpleTokens_offerOpened hopened c l.rules l.cursor

section Congr

variable {rules rules' : List (TokenRule κ)}
  (h : rules'.map TokenRule.bare = rules.map TokenRule.bare)

include h

omit [CustomMatcher κ] in
theorem isSimple_congr : isSimple rules' = isSimple rules := by
  have hbare : ∀ (rules : List (TokenRule κ)) (index : Nat), isSimple rules index =
      ((rules.map TokenRule.bare)[index]?).any fun r => !r.compound := by
    intro rules index
    rw [List.getElem?_map, Option.any_map]
    rfl
  funext index
  rw [hbare, hbare, h]

omit [CustomMatcher κ] in
theorem simpleTokens_congr : simpleTokens rules' = simpleTokens rules := by
  funext reports
  rw [simpleTokens, isSimple_congr h, simpleTokens]

theorem simpleToken?_congr : simpleToken? rules' = simpleToken? rules := by
  funext text i
  induction rules generalizing rules' with
  | nil => rw [List.map_eq_nil_iff.1 h]
  | cons r rest ih =>
    obtain ⟨s, rest', rfl, hs, hrest⟩ := List.map_eq_cons_iff.1 h
    rw [simpleToken?_cons, simpleToken?_cons, TokenRule.compound_of_bare hs,
      TokenRule.tokenAt?_of_bare hs, ih hrest]

end Congr

namespace Tokenizer

def greedy (rules : List (TokenRule κ)) (text : List Char) (i : Nat) : List Token :=
  if i < text.length then
    match h : rules.findSome? fun r => r.tokenAt? text i with
    | some (t, j) => t :: greedy rules text j
    | none => greedy rules text (i + 1)
  else []
termination_by text.length - i
decreasing_by
  · obtain ⟨r, -, hr⟩ := List.exists_of_findSome?_eq_some h
    have := TokenRule.lt_of_tokenAt? hr
    omega
  · omega

theorem greedy_of_le {text : List Char} {i : Nat} (h : text.length ≤ i)
    (rules : List (TokenRule κ)) : greedy rules text i = [] := by
  rw [greedy, if_neg (by omega)]

theorem greedy_simpleRules {text : List Char} {i : Nat} (h : i < text.length)
    (rules : List (TokenRule κ)) : greedy (simpleRules rules) text i =
      (simpleToken? rules text i).toList.map Prod.fst ++
        greedy (simpleRules rules) text ((simpleToken? rules text i).elim (i + 1) Prod.snd) := by
  rw [greedy, if_pos h]
  split
  · next t j hfound =>
    change simpleToken? rules text i = some (t, j) at hfound
    rw [hfound]
    rfl
  · next hnone =>
    change simpleToken? rules text i = none at hnone
    rw [hnone]
    rfl

theorem course_eq_run (t : Tokenizer κ) (text : String) :
    t.course text = run text.toList.length t.scanner (.past text.toList 0) := by
  rw [Cursor.past_zero]
  rfl

/-- How a scan is taken apart. Its steps are at the characters that are in no simple token and at the
beginnings of the simple tokens, and each one leaves the cursor in front of the next. -/
theorem run_induction [LawfulCopy κ] [LawfulCursor κ] {rules : List (TokenRule κ)}
    {text : List Char} {P : Nat → Scanner κ → Course κ → Prop}
    (done : ∀ i s, text[i]? = none → P i s { scanner := s })
    (stop : ∀ i c s e, s.Sound → s.rules.map TokenRule.bare = rules.map TokenRule.bare →
      text[i]? = some c → let t := s.step c (.past text (i + 1))
      t.result = .error e →
        P i s { scanner := t.scanner, reports := t.reports, error := some e, events := t.events })
    (next : ∀ i c s count rest, s.Sound → s.rules.map TokenRule.bare = rules.map TokenRule.bare →
      text[i]? = some c → let t := s.step c (.past text (i + 1))
      t.result = .ok count →
        P ((simpleToken? rules text i).elim (i + 1) Prod.snd) t.scanner rest →
          P i s { rest with reports := t.reports ++ rest.reports, events := t.events ++ rest.events })
    {n i : Nat} {s : Scanner κ} (hs : s.Sound)
    (hbare : s.rules.map TokenRule.bare = rules.map TokenRule.bare) (hn : text.length - i ≤ n) :
    P i s (run n s (.past text i)) := by
  induction n generalizing i s with
  | zero => exact done i s (List.getElem?_eq_none (by omega))
  | succ n ih =>
    rw [run, Cursor.read?_past]
    cases hc : text[i]? with
    | none => exact done i s hc
    | some c =>
      have hlt := (List.getElem?_eq_some_iff.1 hc).1
      have hcursor := (Scanner.step_simple hs hc).2
      have hnext := lt_next_simpleToken? rules text i
      rw [simpleToken?_congr hbare] at hcursor
      simp only [Option.map_some]
      cases hresult : (s.step c (.past text (i + 1))).result with
      | error e => exact stop i c s e hs hbare hc hresult
      | ok count =>
        have hsound := Scanner.sound_step hs c (.past text (i + 1))
        have hrules := (Scanner.bare_step hs c (.past text (i + 1))).trans hbare
        simp only [hcursor]
        exact next i c s count _ hs hbare hc hresult (ih hsound hrules (by omega))

theorem simpleTokens_run [LawfulCopy κ] [LawfulCursor κ] {rules : List (TokenRule κ)}
    {text : List Char} {n i : Nat} {s : Scanner κ} (hs : s.Sound)
    (hbare : s.rules.map TokenRule.bare = rules.map TokenRule.bare) (hn : text.length - i ≤ n)
    (hok : (run n s (.past text i)).error = none) :
    simpleTokens rules (run n s (.past text i)).reports = greedy (simpleRules rules) text i := by
  -- the invariant of the scan: its cursor is where `greedy` is
  revert hok
  apply run_induction (P := fun i _ course => course.error = none →
    simpleTokens rules course.reports = greedy (simpleRules rules) text i) _ _ _ hs hbare hn
  · intro i s hc _
    rw [greedy_of_le (List.getElem?_eq_none_iff.1 hc)]
    rfl
  · rintro i c s e - - - t - ⟨⟩
  · intro i c s count rest hs hbare hc t _ ih hok
    have htokens := (Scanner.step_simple hs hc).1
    rw [simpleTokens_congr hbare, simpleToken?_congr hbare] at htokens
    rw [greedy_simpleRules (List.getElem?_eq_some_iff.1 hc).1, simpleTokens_append, htokens, ih hok]

/-- Compound rules do not change what the simple ones find: the tokens of the simple rules are those
of the greedy scan with the simple rules alone. The pools may be in use already, as long as nothing
but fresh copies is in them. -/
theorem simpleTokens_eq_greedy [LawfulCopy κ] [LawfulCursor κ] {rules : List (TokenRule κ)}
    (h : ∀ r ∈ rules, r.Ready) {text : String} {tokens : List Token}
    (hok : ((ofRules rules).tokenize text).result = .ok tokens) :
    tokens = ((ofRules rules).course text).reports.map Prod.snd ∧
      simpleTokens rules ((ofRules rules).course text).reports =
        greedy (simpleRules rules) text.toList 0 := by
  have hcur : Cursor.ofString text = .past text.toList 0 := (Cursor.past_zero _).symm
  simp only [tokenize] at hok
  cases herror : ((ofRules rules).course text).error with
  | some e => simp [herror] at hok
  | none =>
    simp only [herror, Except.ok.injEq] at hok
    refine ⟨hok.symm, ?_⟩
    rw [course, hcur] at herror ⊢
    refine simpleTokens_run (sound_ofRules h) rfl ?_ herror
    exact Nat.le_of_eq (Cursor.remaining_past _ _).symm

theorem simpleTokens_eq_greedy_around :
    let digit : Matcher FixedMatcher := .chars "digit" (.one (.singleton '1'))
    let pair : Matcher FixedMatcher := .mk (.custom { name := "pair", size := 2, firstChars := none })
    let rules : List (TokenRule FixedMatcher) :=
      [{ name := "pair", compound := true, firstChars := .singleton 'a', prototype := pair },
        { name := "digit", compound := false, firstChars := .singleton '1', prototype := digit }]
    ((ofRules rules).tokenize "a1b").result = .ok
        [⟨"digit", "1", ⟨1, 1, 2⟩, ⟨1, 1, 2⟩⟩, ⟨"pair", "ab", ⟨0, 1, 1⟩, ⟨2, 1, 3⟩⟩] ∧
      simpleTokens rules ((ofRules rules).course "a1b").reports =
        greedy (simpleRules rules) "a1b".toList 0 := by
  -- a compound match goes on around a simple token
  dsimp only
  refine (and_iff_left_of_imp fun hok => ?_).2 rfl
  exact (simpleTokens_eq_greedy (by simp [TokenRule.Ready]) hok).2

end Tokenizer

end Lexing
