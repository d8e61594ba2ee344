import Lexing.Proofs.Scanner.Behind
import Lexing.Proofs.Scanner.Offer
import Lexing.Proofs.Scanner.Reaches
import Lexing.Proofs.Scanner.Started
import Lexing.Proofs.TokenRule.Parts

namespace Lexing

variable {κ : Type} [CustomMatcher κ]

def OpenMatch.Undisturbed (rules : List (TokenRule κ)) (text : List Char) (m : OpenMatch κ) : Prop :=
  simpleToken? (rules.drop (m.rule + 1)) text m.start.offset = none

def OpenMatch.Begun (text : List Char) (m : OpenMatch κ) : Prop :=
  ∃ c, text[m.start.offset]? = some c ∧ m.matcher.Begun c m.start

structure OpenMatch.Owns (rules : List (TokenRule κ)) (text : List Char) (i : Nat)
    (m : OpenMatch κ) : Prop where
  before : m.start.offset < i
  begun : ∀ r, rules[m.rule]? = some r → r.IsBounded → m.Undisturbed rules text →
    m.Begun text

theorem OpenMatch.Owns.mono {rules : List (TokenRule κ)} {text : List Char} {i j : Nat}
    {m : OpenMatch κ} (h : m.Owns rules text i) (hij : i ≤ j) : m.Owns rules text j :=
  ⟨Nat.lt_of_lt_of_le h.before hij, h.begun⟩

namespace OpenMatch

variable [LawfulCursor κ] {rules : List (TokenRule κ)} {text : List Char} {i : Nat} {c : Char}
  {m : OpenMatch κ}

theorem Begun.offer (h : m.Begun text) (hlt : m.start.offset < i) (hc : text[i]? = some c)
    (hlive : (m.offer c (.past text (i + 1))).matcher.isComplete = true ∨
      (m.offer c (.past text (i + 1))).matcher.isFailed = false) :
    (m.offer c (.past text (i + 1))).Begun text := by
  obtain ⟨d, hd, hbegun⟩ := h
  refine ⟨d, hd, hbegun.accept ?_ (hlive.elim hbegun.isFailed_of_isComplete id)⟩
  rw [Cursor.offset_position_past hc]
  exact Nat.le_of_lt hlt

theorem begun_offer_of_new {r : TokenRule κ} (hr : r.IsBounded)
    (hm : m = ⟨(Cursor.past text (i + 1)).position, m.rule, r.prototype.copy⟩)
    (hc : text[i]? = some c)
    (hlive : (m.offer c (.past text (i + 1))).matcher.isComplete = true ∨
      (m.offer c (.past text (i + 1))).matcher.isFailed = false) :
    (m.offer c (.past text (i + 1))).Begun text := by
  rw [hm] at hlive ⊢
  have hcopy := hr.isPlain.copy_prototype
  simp only [OpenMatch.offer, hcopy] at hlive ⊢
  refine ⟨c, ?_, hr.delimited.begun (hlive.elim hr.delimited.isFailed_of_isComplete id)⟩
  rw [Cursor.offset_position_past hc]
  exact hc

theorem size_token_of_new {r : TokenRule κ} (hr : r.IsPlain) {cur : Cursor}
    (hm : m = ⟨cur.position, m.rule, r.prototype.copy⟩)
    (hcomplete : (m.offer c cur).matcher.isComplete = true) (rules : List (TokenRule κ)) :
    ((m.offer c cur).token rules cur).size = 1 := by
  rw [hm] at hcomplete ⊢
  rw [OpenMatch.offer, hr.copy_prototype] at hcomplete ⊢
  have hspan := hr.plain.span_first hcomplete
  simp only [token, Matcher.toToken, Token.size, hspan, Option.getD_some, Span.size]
  omega

end OpenMatch

namespace Scanner

variable [LawfulCursor κ] {rules rules' : List (TokenRule κ)} {s : Scanner κ} {text : List Char}
  {i : Nat} {c : Char} {new old : List (OpenMatch κ)}

theorem owns_offerOpened (hplain : ∀ r ∈ rules, r.compound = true → r.IsPlain)
    (hc : text[i]? = some c)
    (hnew : ∀ m ∈ new, ∃ r, rules[m.rule]? = some r ∧ r.compound = true ∧
      m = ⟨(Cursor.past text (i + 1)).position, m.rule, r.prototype.copy⟩)
    (hold : ∀ m ∈ old, m.Owns rules text i)
    (hok : (offerOpened c rules' (new ++ old) (.past text (i + 1))).error = none) :
    ∀ m ∈ (offerOpened c rules' (new ++ old) (.past text (i + 1))).opened,
      m.Owns rules text (i + 1) := by
  have hsize : ∀ m ∈ new, (m.offer c (.past text (i + 1))).matcher.isComplete = true →
      ((m.offer c (.past text (i + 1))).token rules' (.past text (i + 1))).size = 1 := by
    intro m hm hcomplete
    obtain ⟨r, hr, hcompound, heq⟩ := hnew m hm
    exact OpenMatch.size_token_of_new (hplain r (List.mem_of_getElem? hr) hcompound) heq hcomplete _
  intro m' hm'
  rcases mem_opened_offerOpened_append hsize hok m' hm' with hm' | ⟨m, hm, rfl, hquiet⟩
  · exact (hold m' hm').mono (Nat.le_succ i)
  · rcases List.mem_append.1 hm with hm | hm
    · obtain ⟨r, hr, -, heq⟩ := hnew m hm
      refine ⟨?_, fun r' hr' hbounded _ => ?_⟩
      · rw [OpenMatch.start_offer, heq]
        exact Nat.lt_succ_of_le (Nat.le_of_eq (Cursor.offset_position_past hc))
      · cases hr.symm.trans hr'
        exact OpenMatch.begun_offer_of_new hbounded heq hc (.inr hquiet.2)
    · have howns := hold m hm
      refine ⟨Nat.lt_succ_of_lt howns.before, fun r hr hbounded hundisturbed => ?_⟩
      exact (howns.begun r hr hbounded hundisturbed).offer howns.before hc (.inr hquiet.2)

omit [LawfulCursor κ] in
theorem start_token {m : OpenMatch κ} (hm : (m.offer c (.past text (i + 1))).Begun text)
    (cur : Cursor) : ((m.offer c (.past text (i + 1))).token rules' cur).span.start = m.start := by
  obtain ⟨d, -, hbegun⟩ := hm
  rw [OpenMatch.token, Matcher.toToken]
  cases hspan : (m.offer c (.past text (i + 1))).matcher.span with
  | none => rfl
  | some s => exact hbegun.start_of_span hspan

section Step

variable [LawfulCopy κ] (hs : s.Sound)
  (hbare : s.rules.map TokenRule.bare = rules.map TokenRule.bare)
  (hc : text[i]? = some c) (howns : ∀ m ∈ s.opened, m.Owns rules text i)
include hs hbare hc howns

theorem owns_step (hplain : ∀ r ∈ rules, r.compound = true → r.IsPlain) {n : Nat}
    (hok : (s.step c (.past text (i + 1))).result = .ok n) :
    ∀ m ∈ (s.step c (.past text (i + 1))).scanner.opened,
      m.Owns rules text ((simpleToken? rules text i).elim (i + 1) Prod.snd) := by
  have hl := launches_launch c (.past text (i + 1)) s.opened 0 hs.ready
  obtain ⟨new, hlaunched, hnew⟩ := hl.mem_opened hbare hc rfl
  have hnext := lt_next_simpleToken? rules text i
  cases leads_step hs hc with
  | found hfound hopened =>
    rw [hopened, hlaunched]
    intro m hm
    rcases List.mem_append.1 hm with hm | hm
    · obtain ⟨⟨r, hr, -, heq⟩, hdisturbed⟩ := hnew m hm
      have hstart : m.start.offset = i := by rw [heq, Cursor.offset_position_past hc]
      refine ⟨by omega, fun _ _ _ h => ?_⟩
      rw [OpenMatch.Undisturbed, hstart] at h
      exact absurd h (hdisturbed (by simp [hfound]))
    · exact (howns m hm).mono (Nat.le_of_lt hnext)
  | offered ho hopened _ _ herror =>
    rw [hlaunched] at ho
    subst ho
    rw [hopened]
    intro m hm
    have hall := owns_offerOpened hplain hc (fun m hm => (hnew m hm).1) howns (herror n hok)
    exact (hall m hm).mono hnext

theorem start_of_report {k : Nat} {t : Token}
    (hreport : (k, t) ∈ (s.step c (.past text (i + 1))).reports) {r : TokenRule κ}
    (hr : rules[k]? = some r) (hcompound : r.compound = true)
    (hbounded : r.IsBounded) :
    ∃ m ∈ (launch c (.past text (i + 1)) s.opened 0 s.rules).opened, m.rule = k ∧
      t = (m.offer c (.past text (i + 1))).token rules (.past text (i + 1)) ∧
      (m.Undisturbed rules text → t.span.start = m.start) := by
  have hl := launches_launch c (.past text (i + 1)) s.opened 0 hs.ready
  obtain ⟨new, hlaunched, hnew⟩ := hl.mem_opened hbare hc rfl
  cases leads_step hs hc with
  | found hfound _ hreports =>
    obtain ⟨r', hr', hnot⟩ := hl.simple_rule [] hfound
    rw [hreports, List.mem_singleton] at hreport
    obtain ⟨r'', hr'', heq⟩ := TokenRule.exists_of_bare hbare hr'
    rw [← hreport, hr] at hr''
    cases hr''
    rw [TokenRule.compound_of_bare heq, hcompound] at hnot
    cases hnot
  | offered ho _ hreports =>
    subst ho
    rw [hreports, Option.mem_toList] at hreport
    obtain ⟨m, hm, hcomplete, heq⟩ := found_offerOpened hreport
    cases heq
    refine ⟨m, hm, rfl, ?_, fun hundisturbed => ?_⟩
    · rw [OpenMatch.token_congr (hl.bare.trans hbare)]
    · apply start_token
      rw [hlaunched, List.mem_append] at hm
      rcases hm with hm | hm
      · obtain ⟨⟨r', hr', -, heq⟩, -⟩ := hnew m hm
        cases hr.symm.trans hr'
        exact OpenMatch.begun_offer_of_new hbounded heq hc (.inl hcomplete)
      · have howns := howns m hm
        exact (howns.begun r hr hbounded hundisturbed).offer howns.before hc (.inl hcomplete)

end Step

structure Tracks (rules : List (TokenRule κ)) (text : List Char) (i : Nat) (s : Scanner κ) : Prop where
  sound : s.Sound
  bare : s.rules.map TokenRule.bare = rules.map TokenRule.bare
  owns : ∀ m ∈ s.opened, m.Owns rules text i

theorem Reaches.tracks [LawfulCopy κ] (hready : ∀ r ∈ rules, r.Ready)
    (hplain : ∀ r ∈ rules, r.compound = true → r.IsPlain) {cur : Cursor}
    (h : Reaches rules text s cur) : ∃ i, cur = .past text i ∧ s.Tracks rules text i := by
  obtain ⟨i, hcur, -, hsound, hbare, howns⟩ :=
    h.invariant (P := fun i s => ∀ m ∈ s.opened, m.Owns rules text i) hready nofun (by
      intro s i c n hs hbare hc howns hok
      exact owns_step hs hbare hc howns hplain hok)
  exact ⟨i, hcur, hsound, hbare, howns⟩

/-- Every open match of a bounded rule has taken the character at its start, and every token of such
a rule begins at the start of its match, unless a simple rule behind that of the match has found a
token there. -/
theorem Reaches.starts_owned [LawfulCopy κ] (hready : ∀ r ∈ rules, r.Ready)
    (hplain : ∀ r ∈ rules, r.compound = true → r.IsPlain) {cur : Cursor}
    (h : Reaches rules text s cur) :
    (∀ m ∈ s.opened, ∀ r, rules[m.rule]? = some r → r.IsBounded →
      m.Undisturbed rules text →
      ∃ c, text[m.start.offset]? = some c ∧ m.matcher.text.head? = some c) ∧
    ∀ c after, cur.read? = some (c, after) → ∀ k t, (k, t) ∈ (s.step c after).reports →
      ∀ r, rules[k]? = some r → r.compound = true → r.IsBounded →
        ∃ m ∈ (launch c after s.opened 0 s.rules).opened, m.rule = k ∧
          t = (m.offer c after).token rules after ∧
          (m.Undisturbed rules text → t.span.start = m.start) := by
  obtain ⟨i, rfl, htracks⟩ := h.tracks hready hplain
  constructor
  · intro m hm r hr hbounded hundisturbed
    obtain ⟨c, hc, hbegun⟩ := (htracks.owns m hm).begun r hr hbounded hundisturbed
    exact ⟨c, hc, hbegun.head?_text⟩
  · intro c after hread k t hreport r hr hcompound hbounded
    rw [Cursor.read?_past, Option.map_eq_some_iff] at hread
    obtain ⟨c, hc, heq⟩ := hread
    cases heq
    exact start_of_report htracks.sound htracks.bare hc htracks.owns hreport hr hcompound hbounded

theorem Reaches.starts_owned_around :
    let tag : TokenRule FixedMatcher :=
      { name := "tag", compound := true, firstChars := CharSet.empty.union (.singleton '<')
        prototype := .opening "tag" (.chars "tag-start" (.one (.singleton '<')))
          (.chars "tag-end" (.upTo (.singleton '>'))) [] }
    let letter : TokenRule FixedMatcher :=
      { name := "letter", compound := false, firstChars := .singleton 'a'
        prototype := .chars "letter" (.one (.singleton 'a')) }
    let text := ['<', 'a', '>']
    let s := (Scanner.step { rules := [tag, letter] } '<' (.past text 1)).scanner
    let t := s.step 'a' (.past text 2)
    (∃ m ∈ t.scanner.opened, m.matcher.text.head? = some '<') ∧
      ∃ token, (t.scanner.step '>' (.past text 3)).reports = [(0, token)] ∧
        token.span.start.offset = 0 := by
  -- a token inside the brackets does not matter
  intro tag letter text s t
  have htag : tag.IsBounded :=
    ⟨"tag", true, none, [.bounded "tag" (.char '<') (.char '>')], rfl, by simp [Part.isPlain],
      by simp [Part.isBounded]⟩
  have hready : ∀ r ∈ [tag, letter], r.Ready := by simp [tag, letter, TokenRule.Ready]
  have hplain : ∀ r ∈ [tag, letter], r.compound = true → r.IsPlain := by
    simp only [List.forall_mem_cons]
    refine ⟨fun _ => htag.isPlain, ?_, ?_⟩
    · intro hcompound
      cases hcompound
    · intro r hr
      cases hr
  have hfirst : Reaches [tag, letter] text s (.past text 1) :=
    start_past.step_past rfl (Cursor.ext (by decide +kernel) (by decide +kernel)) (by decide +kernel)
  have hsecond : Reaches [tag, letter] text t.scanner (.past text 2) :=
    hfirst.step_past rfl (Cursor.ext (by decide +kernel) (by decide +kernel)) (by decide +kernel)
  have hopened : t.scanner.opened.map (fun m => (m.rule, m.start.offset)) = [(0, 0)] := by
    decide +kernel
  have hlaunched : (launch '>' (.past text 3) t.scanner.opened 0 t.scanner.rules).opened.map
      (fun m => (m.rule, m.start.offset)) = [(0, 0)] := by decide +kernel
  have hreports : (t.scanner.step '>' (.past text 3)).reports.map Prod.fst = [0] := by decide +kernel
  have hundisturbed : ∀ m : OpenMatch FixedMatcher, (m.rule, m.start.offset) = (0, 0) →
      m.Undisturbed [tag, letter] text := by
    rintro m hm
    rw [Prod.mk.injEq] at hm
    rw [OpenMatch.Undisturbed, hm.1, hm.2]
    decide +kernel
  obtain ⟨howned, htokens⟩ := hsecond.starts_owned hready hplain
  constructor
  · obtain ⟨m, ms, hcons, hm, -⟩ := List.map_eq_cons_iff.1 hopened
    have hmem : m ∈ t.scanner.opened := by simp [hcons]
    obtain ⟨c, hc, hhead⟩ := howned m hmem tag (by rw [(Prod.mk.inj hm).1]; rfl) htag (hundisturbed m hm)
    rw [(Prod.mk.inj hm).2] at hc
    cases hc
    exact ⟨m, hmem, hhead⟩
  · obtain ⟨⟨k, token⟩, rest, hcons, rfl, hrest⟩ := List.map_eq_cons_iff.1 hreports
    rw [List.map_eq_nil_iff.1 hrest] at hcons
    obtain ⟨m, hmem, hrule, -, hstart⟩ := htokens '>' (.past text 3) rfl 0 token (by simp [hcons]) tag
      rfl rfl htag
    have hm : (m.rule, m.start.offset) = (0, 0) := by
      have h := List.mem_map_of_mem (f := fun m : OpenMatch FixedMatcher => (m.rule, m.start.offset)) hmem
      rw [hlaunched] at h
      exact List.mem_singleton.1 h
    refine ⟨token, hcons, ?_⟩
    rw [hstart (hundisturbed m hm), (Prod.mk.inj hm).2]

/-- The word takes the first `<` from the match that starts there. The match has no text then, and
when it ends, its token begins with the `<` behind the word. -/
theorem Reaches.not_starts_owned :
    let tag : TokenRule FixedMatcher :=
      { name := "tag", compound := true, firstChars := CharSet.empty.union (.singleton '<')
        prototype := .opening "tag" (.chars "tag-start" (.one (.singleton '<')))
          (.chars "tag-end" (.upTo (.singleton '>'))) [] }
    let word : TokenRule FixedMatcher :=
      { name := "word", compound := false, firstChars := .singleton '<'
        prototype := .mk (.words { name := "word", rule := .longest, words := [['<', 'a']] }) }
    let rules := [tag, word]
    let text := ['<', 'a', '<', '>', '>']
    let s := (Scanner.step { rules } '<' (.past text 1)).scanner
    let t := (s.step '<' (.past text 3)).scanner
    let u := (t.step '>' (.past text 4)).scanner
    tag.IsBounded ∧ word.IsPlain ∧
      Reaches rules text s (.past text 2) ∧ Reaches rules text u (.past text 4) ∧
      s.opened.map (fun m => (m.rule, m.start.offset, m.matcher.text)) = [(0, 0, [])] ∧
      u.opened.map (fun m => (m.rule, m.start.offset)) = [(0, 0)] ∧
      (u.step '>' (.past text 5)).reports.map (fun r => (r.1, r.2.span.start.offset)) = [(0, 2)] := by
  intro tag word rules text s t u
  have htag : tag.IsBounded :=
    ⟨"tag", true, none, [.bounded "tag" (.char '<') (.char '>')], rfl, by simp [Part.isPlain],
      by simp [Part.isBounded]⟩
  have hword : word.IsPlain :=
    ⟨"word", false, some (.singleton '<'), [.words "word" ["<a"]], rfl, by simp [Part.isPlain]⟩
  have hfirst : Reaches rules text s (.past text 2) :=
    start_past.step_past rfl (Cursor.ext (by decide +kernel) (by decide +kernel)) (by decide +kernel)
  have hsecond : Reaches rules text t (.past text 3) :=
    hfirst.step_past rfl (Cursor.ext (by decide +kernel) (by decide +kernel)) (by decide +kernel)
  have hthird : Reaches rules text u (.past text 4) :=
    hsecond.step_past rfl (Cursor.ext (by decide +kernel) (by decide +kernel)) (by decide +kernel)
  exact ⟨htag, hword, hfirst, hthird, by decide +kernel, by decide +kernel, by decide +kernel⟩

end Scanner

end Lexing
