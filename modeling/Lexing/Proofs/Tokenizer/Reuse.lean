import Lexing.Proofs.Scanner.Pool
import Lexing.Tokenizer

namespace Lexing.Tokenizer

variable {κ : Type}

def Course.bare (c : Course κ) : Course κ := { c with scanner := c.scanner.bare }

variable [CustomMatcher κ] [LawfulCopy κ]

theorem sound_run (n : Nat) {s : Scanner κ} (h : s.Sound) (cur : Cursor) :
    (run n s cur).scanner.Sound := by
  induction n generalizing s cur with
  | zero => exact h
  | succ n ih =>
    simp only [run]
    split
    · exact h
    · split
      · exact Scanner.sound_step h _ _
      · exact ih (Scanner.sound_step h _ _) _

theorem bare_run (n : Nat) {s : Scanner κ} (h : s.Sound) (cur : Cursor) :
    (run n s cur).scanner.rules.map TokenRule.bare = s.rules.map TokenRule.bare := by
  induction n generalizing s cur with
  | zero => rfl
  | succ n ih =>
    simp only [run]
    split
    · rfl
    · split
      · exact Scanner.bare_step h _ _
      · exact (ih (Scanner.sound_step h _ _) _).trans (Scanner.bare_step h _ _)

theorem run_congr (n : Nat) {s t : Scanner κ} (hs : s.Sound) (ht : t.Sound) (h : s.bare = t.bare)
    (cur : Cursor) : (run n s cur).bare = (run n t cur).bare := by
  induction n generalizing s t cur with
  | zero => simp [run, Course.bare, h]
  | succ n ih =>
    simp only [run]
    split
    · simp [Course.bare, h]
    · next c after _ =>
      have hsound := Scanner.sound_step hs c after
      have hsound' := Scanner.sound_step ht c after
      have hstep := Scanner.step_congr hs ht h c after
      generalize s.step c after = u at hstep hsound
      generalize t.step c after = v at hstep hsound'
      obtain ⟨s', after, result, reports, events, broken⟩ := u
      obtain ⟨t', after', result', reports', events', broken'⟩ := v
      simp only [Step.bare, Step.mk.injEq] at hstep
      obtain ⟨hbare, rfl, rfl, rfl, rfl, rfl⟩ := hstep
      cases result with
      | error e => simp [Course.bare, hbare]
      | ok n =>
        have hrest := ih hsound hsound' hbare after
        simp only [Course.bare, Course.mk.injEq] at hrest
        simp [Course.bare, hrest]

omit [LawfulCopy κ] in
theorem scanner_tokenize (t : Tokenizer κ) (text : String) :
    (t.tokenize text).tokenizer.scanner = (t.course text).scanner.finish.1 := by
  simp only [tokenize]
  split <;> rfl

omit [LawfulCopy κ] in
theorem result_tokenize (t : Tokenizer κ) (text : String) : (t.tokenize text).result =
    (t.course text).error.elim (.ok (t.course text).tokens) .error := by
  simp only [tokenize]
  split <;> simp_all

theorem sound_tokenize {t : Tokenizer κ} (h : t.scanner.Sound) (text : String) :
    (t.tokenize text).tokenizer.scanner.Sound := by
  rw [scanner_tokenize]
  exact Scanner.sound_finish (sound_run _ h _)

theorem bare_tokenize {t : Tokenizer κ} (h : t.scanner.Sound) (hopened : t.scanner.opened = [])
    (text : String) : (t.tokenize text).tokenizer.scanner.bare = t.scanner.bare := by
  rw [scanner_tokenize, Scanner.bare, Scanner.bare, Scanner.bare_finish, hopened]
  exact congrArg (fun rules => Scanner.mk rules []) (bare_run _ h _)

theorem tokenize_congr {s t : Tokenizer κ} (hs : s.scanner.Sound) (ht : t.scanner.Sound)
    (h : s.scanner.bare = t.scanner.bare) (text : String) :
    (s.tokenize text).result = (t.tokenize text).result ∧
      (s.tokenize text).events = (t.tokenize text).events := by
  have hcourse : (s.course text).bare = (t.course text).bare := run_congr _ hs ht h _
  simp only [tokenize]
  generalize s.course text = c at hcourse
  generalize t.course text = d at hcourse
  obtain ⟨scanner, reports, error, events⟩ := c
  obtain ⟨scanner', reports', error', events'⟩ := d
  simp only [Course.bare, Course.mk.injEq] at hcourse
  obtain ⟨hbare, rfl, rfl, rfl⟩ := hcourse
  rw [Scanner.finish_congr hbare, Scanner.opened_of_bare hbare]
  cases error with
  | some e => exact ⟨rfl, rfl⟩
  | none => exact ⟨rfl, rfl⟩

def tokenizeAll : Tokenizer κ → List String → List (Scan κ)
  | _, [] => []
  | t, text :: rest =>
    let s := t.tokenize text
    s :: tokenizeAll s.tokenizer rest

/-- What can be seen of the scans is told by any tokenizer `u` with the same rules. -/
theorem tokenizeAll_congr {t u : Tokenizer κ} (ht : t.scanner.Sound) (hu : u.scanner.Sound)
    (hopened : u.scanner.opened = []) (h : t.scanner.bare = u.scanner.bare) (texts : List String) :
    (tokenizeAll t texts).map (fun s => (s.result, s.events, s.tokenizer.scanner.opened)) =
      texts.map fun text => ((u.tokenize text).result, (u.tokenize text).events, []) := by
  induction texts generalizing t with
  | nil => rfl
  | cons text rest ih =>
    have hnext : (t.tokenize text).tokenizer.scanner.bare = u.scanner.bare := by
      rw [bare_tokenize ht ((Scanner.opened_of_bare h).trans hopened), h]
    obtain ⟨hresult, hevents⟩ := tokenize_congr ht hu h text
    have hnone : (t.tokenize text).tokenizer.scanner.opened = [] := by
      rw [scanner_tokenize]
      rfl
    simp only [tokenizeAll, List.map_cons, hresult, hevents, hnone]
    rw [ih (sound_tokenize ht text) hnext]

omit [LawfulCopy κ] in
theorem sound_ofRules {rules : List (TokenRule κ)} (h : ∀ r ∈ rules, r.Ready) :
    (ofRules rules).scanner.Sound := ⟨h, nofun⟩

/-- That a tokenizer has been used before cannot be seen: every text of a sequence gets the tokens
or the error, and the events, that a new tokenizer gives it, and no match stays open. -/
theorem tokenizeAll_eq_map_tokenize {rules : List (TokenRule κ)} (h : ∀ r ∈ rules, r.Built)
    (texts : List String) :
    (tokenizeAll (ofRules rules) texts).map
        (fun s => (s.result, s.trees, s.events, s.tokenizer.scanner.opened)) =
      texts.map fun text =>
        let s := (ofRules rules).tokenize text
        (s.result, s.trees, s.events, []) := by
  have hsound := sound_ofRules fun r hr => (h r hr).ready
  have hall := tokenizeAll_congr hsound hsound rfl rfl texts
  have htrees := congrArg (List.map fun (result, events, opened) =>
    (result, result.map TokenTree.ofTokens, events, opened)) hall
  simpa [Function.comp_def, Scan.trees] using htrees

theorem tokenizeAll_eq_map_tokenize_error :
    let x : Matcher FixedMatcher := .chars "x" (.one (.singleton 'x'))
    let two : Matcher FixedMatcher := .mk (.custom { name := "two", size := 2, firstChars := none })
    let rules : List (TokenRule FixedMatcher) :=
      [{ name := "pair", compound := true, firstChars := .singleton 'a', prototype := two },
        { name := "x", compound := true, firstChars := .singleton 'x', prototype := x }]
    let texts := ["ax", "ab", "x"]
    ((ofRules rules).tokenize "ax").result.toOption = none ∧
      (tokenizeAll (ofRules rules) texts).map
          (fun s => (s.result, s.trees, s.events, s.tokenizer.scanner.opened)) =
        texts.map fun text =>
          let s := (ofRules rules).tokenize text
          (s.result, s.trees, s.events, []) := by
  -- the first text ends in an error, with a match still open
  dsimp only
  refine ⟨by decide +kernel, ?_⟩
  apply tokenizeAll_eq_map_tokenize
  rw [List.forall_mem_cons, List.forall_mem_singleton]
  exact ⟨⟨"pair", true, some (.singleton 'a'), [_], rfl⟩, ⟨"x", true, some (.singleton 'x'), [_], rfl⟩⟩

end Lexing.Tokenizer
