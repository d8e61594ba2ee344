import Lexing.Proofs.Scanner.Unbroken
import Lexing.Proofs.Tokenizer.Reuse

namespace Lexing

variable {κ : Type} [CustomMatcher κ]

namespace Scanner

section Step

variable [LawfulCursor κ] {text : List Char} {i : Nat} {c : Char} (hc : text[i]? = some c)
include hc

theorem readSimple_past (r : TokenRule κ) :
    ∃ broken, (readSimple r (.past text (i + 1))).2 = (none, .past text (i + 1), broken) ∨
      ∃ t n, 0 < n ∧ i + n ≤ text.length ∧
        (readSimple r (.past text (i + 1))).2 = (some (t, n), .past text (i + n), broken) := by
  have hi := (List.getElem?_eq_some_iff.1 hc).1
  have hlt := Matcher.lt_feed hc r.create.1
  have hle := Matcher.feed_le_length (Nat.le_of_lt hi) r.create.1
  simp only [readSimple, Cursor.unread_past hi, Matcher.read_past]
  generalize r.create.1.feed text i = p at hlt hle
  obtain ⟨m, j⟩ := p
  dsimp only at hlt hle ⊢
  refine ⟨m.isBroken, ?_⟩
  split
  · refine .inr ⟨m.toToken r.create.2.name (Cursor.past text (i + 1)).position (.past text j), j - i,
      by omega, by omega, ?_⟩
    rw [Nat.add_sub_cancel' (Nat.le_of_lt hlt)]
  · rw [Cursor.restore_past]
    exact .inl rfl

theorem launch_past (opened : List (OpenMatch κ)) (index : Nat) (rules : List (TokenRule κ)) :
    let l := launch c (.past text (i + 1)) opened index rules
    (l.found = none ∧ l.cursor = .past text (i + 1)) ∨
      ∃ f, l.found = some f ∧ 0 < f.2 ∧ i + f.2 ≤ text.length ∧ l.cursor = .past text (i + f.2) := by
  induction rules generalizing opened index with
  | nil => exact .inl ⟨rfl, rfl⟩
  | cons r rest ih =>
    simp only [launch]
    split
    · exact ih opened (index + 1)
    · split
      · exact ih _ (index + 1)
      · obtain ⟨broken, hread | ⟨t, n, hn, hle, hread⟩⟩ := readSimple_past hc r
        · generalize readSimple r (.past text (i + 1)) = p at hread
          obtain ⟨r', p⟩ := p
          cases hread
          exact ih opened (index + 1)
        · generalize readSimple r (.past text (i + 1)) = p at hread
          obtain ⟨r', p⟩ := p
          cases hread
          exact .inr ⟨_, rfl, hn, hle, rfl⟩

theorem step_past (s : Scanner κ) :
    let l := launch c (.past text (i + 1)) s.opened 0 s.rules
    let t := s.step c (.past text (i + 1))
    (l.found = none ∧ t.cursor = .past text (i + 1) ∧ ∀ n, t.result = .ok n → n = 0) ∨
      ∃ f, l.found = some f ∧ 0 < f.2 ∧ i + f.2 ≤ text.length ∧ t.result = .ok f.2 ∧
        t.cursor = .past text (i + f.2) := by
  simp only [step]
  rcases launch_past hc s.opened 0 s.rules with ⟨hfound, hcursor⟩ | ⟨f, hfound, hf, hle, hcursor⟩
  · refine .inl ⟨hfound, ?_⟩
    simp only [hfound, cursor_offerOpened, hcursor, true_and]
    intro n hn
    split at hn
    · cases hn
      rfl
    · cases hn
  · exact .inr ⟨f, hfound, hf, hle, by simp only [hfound], by simp only [hfound, hcursor]⟩

end Step

end Scanner

namespace Tokenizer

/-- A scan that takes as many steps as it needs, with their number and its course: it ends where there
is nothing left to read, or with the first step that fails. Where a step breaks, it has no course. -/
inductive Ends : Scanner κ → Cursor → Nat → Option (Course κ) → Prop
  | done {s cur} : cur.read? = none → Ends s cur 0 (some { scanner := s })
  | broken {s cur c after} : cur.read? = some (c, after) → s.step? c after = none →
      Ends s cur 1 none
  | failed {s cur c after t e} : cur.read? = some (c, after) → s.step? c after = some t →
      t.result = .error e →
      Ends s cur 1
        (some { scanner := t.scanner, reports := t.reports, error := some e, events := t.events })
  | step {s cur c after t k n rest} : cur.read? = some (c, after) → s.step? c after = some t →
      t.result = .ok k → Ends t.scanner t.cursor n rest →
      Ends s cur (n + 1) (rest.map fun rest =>
        { rest with reports := t.reports ++ rest.reports, events := t.events ++ rest.events })

theorem ends_run [LawfulCursor κ] {text : List Char} {n i : Nat} (s : Scanner κ)
    (hn : text.length - i ≤ n) :
    ∃ k ≤ text.length - i, ∃ course, Ends s (.past text i) k course ∧
      ∀ out, course = some out → run n s (.past text i) = out := by
  -- the number of steps that a run is given is never used up before the scan has ended
  induction n generalizing i s with
  | zero =>
    have hread : (Cursor.past text i).read? = none := by
      rw [Cursor.read?_past, List.getElem?_eq_none (by omega), Option.map_none]
    exact ⟨0, Nat.zero_le _, _, .done hread, fun _ => Option.some.inj⟩
  | succ n ih =>
    rw [run]
    cases hc : text[i]? with
    | none =>
      have hread : (Cursor.past text i).read? = none := by rw [Cursor.read?_past, hc, Option.map_none]
      simp only [hread]
      exact ⟨0, Nat.zero_le _, _, .done hread, fun _ => Option.some.inj⟩
    | some c =>
      have hi := (List.getElem?_eq_some_iff.1 hc).1
      have hread : (Cursor.past text i).read? = some (c, .past text (i + 1)) := by
        rw [Cursor.read?_past, hc, Option.map_some]
      simp only [hread]
      cases hbroken : (s.step c (.past text (i + 1))).broken with
      | true =>
        have hstep : s.step? c (.past text (i + 1)) = none := by simp [Scanner.step?, hbroken]
        exact ⟨1, by omega, none, .broken hread hstep,
          fun out hout => absurd hout.symm (Option.some_ne_none out)⟩
      | false =>
        have hstep : s.step? c (.past text (i + 1)) = some (s.step c (.past text (i + 1))) := by
          simp [Scanner.step?, hbroken]
        cases hresult : (s.step c (.past text (i + 1))).result with
        | error e => exact ⟨1, by omega, _, .failed hread hstep hresult, fun _ => Option.some.inj⟩
        | ok count =>
          -- the cursor of the step is that of a later offset, whether a token was read or not
          obtain ⟨j, hj, hcursor⟩ : ∃ j, i < j ∧
              (s.step c (.past text (i + 1))).cursor = .past text j := by
            rcases Scanner.step_past hc s with ⟨-, hcursor, -⟩ | ⟨f, -, hf, -, -, hcursor⟩
            · exact ⟨i + 1, Nat.lt_succ_self i, hcursor⟩
            · exact ⟨i + f.2, Nat.lt_add_of_pos_right hf, hcursor⟩
          obtain ⟨k, hk, course, hends, hrun⟩ :=
            ih (s.step c (.past text (i + 1))).scanner (i := j) (by omega)
          rw [← hcursor] at hends hrun
          refine ⟨k + 1, by omega, _, .step hread hstep hresult hends, fun out hout => ?_⟩
          obtain ⟨rest, hrest, rfl⟩ := Option.map_eq_some_iff.1 hout
          rw [hrun rest hrest]

theorem Ends.course_ne_none {rules : List (TokenRule κ)} {text : List Char}
    (hwhole : ∀ {s cur c after}, Scanner.Reaches rules text s cur → cur.read? = some (c, after) →
      (s.step c after).broken = false) {s : Scanner κ} {cur : Cursor} {n : Nat}
    {course : Option (Course κ)} (h : Ends s cur n course) (hreaches : Scanner.Reaches rules text s cur) :
    course ≠ none := by
  have hunbroken : ∀ {s : Scanner κ} {cur c after t}, Scanner.Reaches rules text s cur →
      cur.read? = some (c, after) → s.step? c after = t → t = some (s.step c after) := by
    intro s cur c after t hreaches hread hstep
    simp [← hstep, Scanner.step?, hwhole hreaches hread]
  induction h with
  | done => nofun
  | broken hread hstep => cases hunbroken hreaches hread hstep
  | failed => nofun
  | step hread hstep hok _ ih =>
    cases hunbroken hreaches hread hstep
    simpa using ih (.step hreaches hread hok)

def afterAll (t : Tokenizer κ) (texts : List String) : Tokenizer κ :=
  texts.foldl (fun t text => (t.tokenize text).tokenizer) t

theorem ready_afterAll [LawfulCopy κ] {t : Tokenizer κ} (h : t.scanner.Sound)
    (hopened : t.scanner.opened = []) (texts : List String) :
    (t.afterAll texts).scanner.Sound ∧ (t.afterAll texts).scanner.opened = [] := by
  induction texts generalizing t with
  | nil => exact ⟨h, hopened⟩
  | cons text rest ih => exact ih (sound_tokenize h text) (by rw [scanner_tokenize]; rfl)

/-- A step that comes back with an answer, whatever the state of the scanner, leaves the cursor where it
is if it fails or reads no token, and if it reads a token of `n` characters leaves it `n` characters behind
the place before the character that it was given, where `n` is not zero. A scan therefore ends, or breaks,
with at most as many steps as its text has characters; from rules that are ready, and however many texts
it has scanned before, it does not break. -/
theorem ends_within_text [LawfulCursor κ] :
    (∀ (s : Scanner κ) (c : Char) (cur : Cursor) (t : Step κ), cur.current = some c →
      s.step? c cur = some t →
      (∀ e, t.result = .error e → t.cursor = cur) ∧
      ∀ n, t.result = .ok n →
        (n = 0 ∧ (Scanner.launch c cur s.opened 0 s.rules).found = none ∧ t.cursor = cur) ∨
        (1 ≤ n ∧ (∃ f, (Scanner.launch c cur s.opened 0 s.rules).found = some f) ∧
          t.cursor.source = cur.source ∧ t.cursor.offset = cur.offset - 1 + n)) ∧
    (∀ (t : Tokenizer κ) (text : String), ∃ n ≤ text.toList.length, ∃ course,
      Ends t.scanner (.ofString text) n course) ∧
    ∀ [LawfulCopy κ] [LawfulPlaces κ] (rules : List (TokenRule κ)), (∀ r ∈ rules, r.Ready) →
      ∀ (texts : List String) (text : String),
        let t := (ofRules rules).afterAll texts
        ∃ n ≤ text.toList.length, Ends t.scanner (.ofString text) n (some (t.course text)) := by
  have hall : ∀ (t : Tokenizer κ) (text : String), ∃ n ≤ text.toList.length, ∃ course,
      Ends t.scanner (.ofString text) n course ∧ ∀ out, course = some out → t.course text = out := by
    intro t text
    have hcur : Cursor.ofString text = .past text.toList 0 := (Cursor.past_zero _).symm
    simp only [course, hcur]
    exact ends_run t.scanner (Nat.le_of_eq (Cursor.remaining_past text.toList 0).symm)
  refine ⟨?_, fun t text => ?_, ?_⟩
  · intro s c cur t hcur ht
    obtain ⟨heq, hc⟩ := Cursor.eq_past_of_current hcur
    have hstep := Scanner.step_past hc s
    rw [← heq] at hstep
    rw [Scanner.step?] at ht
    split at ht
    · cases ht
    · cases ht
      rcases hstep with ⟨hfound, hcursor, hzero⟩ | ⟨f, hfound, hf, hle, hresult, hcursor⟩
      · exact ⟨fun _ _ => hcursor, fun n hn => .inl ⟨hzero n hn, hfound, hcursor⟩⟩
      · constructor
        · intro e he
          rw [hresult] at he
          cases he
        · intro n hn
          rw [hresult] at hn
          cases hn
          refine .inr ⟨hf, ⟨f, hfound⟩, ?_, ?_⟩
          · rw [hcursor]
            rfl
          · rw [hcursor, Cursor.offset_past hle]
  · obtain ⟨n, hn, course, hends, -⟩ := hall t text
    exact ⟨n, hn, course, hends⟩
  · intro _ _ rules hready texts text t
    obtain ⟨hsound, hopened⟩ := ready_afterAll (sound_ofRules hready) rfl texts
    obtain ⟨n, hn, course, hends, hrun⟩ := hall t text
    have hstart : Scanner.Reaches t.scanner.rules text.toList t.scanner (.ofString text) := by
      have hscanner : t.scanner = { rules := t.scanner.rules } :=
        congrArg (Scanner.mk t.scanner.rules) hopened
      rw [hscanner]
      exact .start
    have hcourse := hends.course_ne_none (fun h hread => h.unbroken hsound.ready hread) hstart
    obtain ⟨out, rfl⟩ := Option.ne_none_iff_exists'.1 hcourse
    exact ⟨n, hn, hrun out rfl ▸ hends⟩

theorem ends_within_text_used :
    let word : Matcher FixedMatcher :=
      .mk (.words { name := "word", rule := .longest, words := [['a', 'b', 'c']] })
    let used := (word.accept 'a' (.past ['a'] 1)).state
    let rule : TokenRule FixedMatcher :=
      { name := "word", compound := false, firstChars := .singleton 'b', prototype := word }
    let s : Scanner FixedMatcher := { rules := [{ rule with pool := [used] }] }
    let cur := Cursor.past ['b', 'c', 'd'] 1
    let t := (ofRules [rule]).afterAll ["abc"]
    cur.current = some 'b' ∧
      (∃ t, s.step? 'b' cur = some t ∧ t.result.toOption = some 2 ∧
        t.cursor.offset = cur.offset - 1 + 2) ∧
      (∃ n ≤ 3, ∃ course, Ends s (.ofString "bcd") n course) ∧
      ∃ n ≤ 3, Ends t.scanner (.ofString "bcd") n (some (t.course "bcd")) := by
  -- the pool holds a matcher that has taken an `a` before, which is what the first step reads with:
  -- the word is there after `bc`
  intro word used rule s cur t
  have hcur : cur.current = some 'b' := by decide +kernel
  have hbroken : (s.step 'b' cur).broken = false := by decide +kernel
  have hstep : s.step? 'b' cur = some (s.step 'b' cur) := by simp [Scanner.step?, hbroken]
  have hok : (s.step 'b' cur).result.toOption = some 2 := by decide +kernel
  obtain ⟨hsteps, hends, hready⟩ := ends_within_text (κ := FixedMatcher)
  refine ⟨hcur, ⟨_, hstep, hok, ?_⟩, hends ⟨s⟩ "bcd", ?_⟩
  · rcases (hsteps s 'b' cur _ hcur hstep).2 2 (eq_ok_of_toOption hok) with ⟨h, -⟩ | ⟨-, -, -, hoffset⟩
    · cases h
    · exact hoffset
  · exact hready [rule] (by simp [rule, TokenRule.Ready]) ["abc"] "bcd"

/-- The chain of the rule `p` fails with the `z`, which is a token of the rule `c`: so it stays open, as
every match does that is shown a token. It is shown the `é` too, and breaks when it is offered the `w`. -/
theorem not_ends_within_text :
    let a : Matcher Empty := .chars "a" (.one (.singleton 'a'))
    let bc : Matcher Empty := .mk (.words { name := "bc", rule := .longest, words := [['b', 'c']] })
    let eq : Matcher Empty := .mk (.words { name := "eq", rule := .longest, words := [['é', 'q']] })
    let inner : Matcher Empty :=
      .mk (.chain { name := "inner", rule := .suffixed, groups := [[a], [bc]] })
    let outer : Matcher Empty :=
      .mk (.chain { name := "outer", rule := .suffixed, groups := [[inner], [eq]] })
    let p : TokenRule Empty :=
      { name := "p", compound := true, firstChars := .singleton 'a', prototype := outer }
    let c : TokenRule Empty :=
      { name := "c", compound := true, firstChars := .ofList ['z', 'é']
        prototype := .chars "c" (.one (.ofList ['z', 'é'])) }
    let text := ['a', 'b', 'z', 'é', 'w']
    let s₁ := (Scanner.step { rules := [p, c] } 'a' (.past text 1)).scanner
    let s₂ := (s₁.step 'b' (.past text 2)).scanner
    let s₃ := (s₂.step 'z' (.past text 3)).scanner
    let s₄ := (s₃.step 'é' (.past text 4)).scanner
    p.Built ∧ c.Built ∧ (Cursor.past text 5).current = some 'w' ∧
      ¬∃ t, s₄.step? 'w' (.past text 5) = some t := by
  intro a bc eq inner outer p c text s₁ s₂ s₃ s₄
  have hbroken : (s₄.step 'w' (.past text 5)).broken = true := by decide +kernel
  refine ⟨⟨"p", true, some (.singleton 'a'), [outer], rfl⟩,
    ⟨"c", true, some (.ofList ['z', 'é']), [.chars "c" (.one (.ofList ['z', 'é']))], rfl⟩,
    by decide +kernel, ?_⟩
  rintro ⟨t, ht⟩
  simp [Scanner.step?, hbroken] at ht

end Tokenizer

end Lexing
