import Lexing.Proofs.Scanner.Pool
import Lexing.Proofs.Scanner.Step

namespace Lexing

variable {κ : Type} [CustomMatcher κ]

namespace OpenMatch

def offer (m : OpenMatch κ) (c : Char) (cur : Cursor) : OpenMatch κ :=
  { m with matcher := (m.matcher.accept c cur).state }

def Quiet (m : OpenMatch κ) : Prop := m.matcher.isComplete = false ∧ m.matcher.isFailed = false

def token (m : OpenMatch κ) (rules : List (TokenRule κ)) (cur : Cursor) : Token :=
  m.matcher.toToken (Scanner.ruleName rules m.rule) m.start cur

@[simp] theorem start_offer (m : OpenMatch κ) (c : Char) (cur : Cursor) :
    (m.offer c cur).start = m.start := rfl

@[simp] theorem rule_offer (m : OpenMatch κ) (c : Char) (cur : Cursor) :
    (m.offer c cur).rule = m.rule := rfl

theorem token_congr {rules rules' : List (TokenRule κ)}
    (h : rules'.map TokenRule.bare = rules.map TokenRule.bare) (m : OpenMatch κ) :
    m.token rules' = m.token rules := by
  funext cur
  rw [token, Scanner.ruleName_congr h, token]

end OpenMatch

namespace Scanner

variable [LawfulCursor κ] {c : Char} {cur : Cursor} {rules : List (TokenRule κ)} {m : OpenMatch κ}
  {older : List (OpenMatch κ)}

theorem offerOpened_of_complete (h : (m.offer c cur).matcher.isComplete = true) :
    offerOpened c rules (m :: older) cur = complete rules (m.offer c cur) older c cur := by
  simp only [OpenMatch.offer] at h
  simp only [offerOpened, h, Matcher.cursor_accept, if_true]
  rfl

theorem offerOpened_of_failed (h : (m.offer c cur).matcher.isComplete = false)
    (hfailed : (m.offer c cur).matcher.isFailed = true) :
    offerOpened c rules (m :: older) cur =
      let o := offerOpened c (release rules (m.offer c cur)) older cur
      { o with
        events := .compoundFailed (ruleName rules m.rule) m.start :: o.events
        broken := (m.offer c cur).matcher.isBroken || o.broken } := by
  simp only [OpenMatch.offer] at h hfailed
  simp only [offerOpened, h, hfailed, Matcher.cursor_accept, if_true]
  rfl

theorem offerOpened_of_quiet (h : (m.offer c cur).Quiet) :
    offerOpened c rules (m :: older) cur =
      let o := offerOpened c rules older cur
      { o with
        opened := m.offer c cur :: o.opened
        broken := (m.offer c cur).matcher.isBroken || o.broken } := by
  obtain ⟨hcomplete, hfailed⟩ := h
  simp only [OpenMatch.offer] at hcomplete hfailed
  simp only [offerOpened, hcomplete, hfailed, Matcher.cursor_accept]
  rfl

omit [LawfulCursor κ] in
theorem cases_offer {P : Prop} (m : OpenMatch κ) (c : Char) (cur : Cursor)
    (complete : (m.offer c cur).matcher.isComplete = true → P)
    (failed : (m.offer c cur).matcher.isComplete = false →
      (m.offer c cur).matcher.isFailed = true → P)
    (quiet : (m.offer c cur).Quiet → P) : P := by
  cases hcomplete : (m.offer c cur).matcher.isComplete with
  | true => exact complete hcomplete
  | false =>
    cases hfailed : (m.offer c cur).matcher.isFailed with
    | true => exact failed hcomplete hfailed
    | false => exact quiet ⟨hcomplete, hfailed⟩

theorem shareChar_of_none {opened : List (OpenMatch κ)}
    (h : (shareChar c opened cur).2.1 = none) :
    (shareChar c opened cur).1 = opened.map (·.offer c cur) ∧
      ∀ m ∈ opened, (m.offer c cur).Quiet := by
  induction opened with
  | nil => exact ⟨rfl, nofun⟩
  | cons m older ih =>
    simp only [shareChar, Matcher.cursor_accept] at h ⊢
    split at h
    · cases h
    · next hcomplete =>
      split at h
      · cases h
      · next hfailed =>
        rw [if_neg hcomplete, if_neg hfailed]
        obtain ⟨hmap, hquiet⟩ := ih h
        refine ⟨congrArg _ hmap, List.forall_mem_cons.2 ⟨?_, hquiet⟩⟩
        exact ⟨eq_false_of_ne_true hcomplete, eq_false_of_ne_true hfailed⟩

omit [LawfulCursor κ] in
theorem opened_complete_of_size_ne (h : (m.token rules cur).size ≠ 1) (older : List (OpenMatch κ))
    (c : Char) :
    (complete rules m older c cur).opened = older ∧ (complete rules m older c cur).error = none := by
  rw [OpenMatch.token] at h
  simp only [complete, if_pos h, and_self]

theorem offerOpened_of_span {p : Position}
    (hcomplete : (m.offer c cur).matcher.isComplete = true)
    (hspan : (m.offer c cur).matcher.span = some ⟨p, cur.position⟩)
    (hlt : p.offset < cur.position.offset) (rules : List (TokenRule κ))
    (older : List (OpenMatch κ)) :
    let o := offerOpened c rules (m :: older) cur
    o.opened = older ∧ o.error = none ∧ ∃ t, o.found = some (m.rule, t) ∧
      t.kind = ruleName rules m.rule ∧ t.span = ⟨p, cur.position⟩ := by
  have hreport : ((m.offer c cur).token rules cur).span = ⟨p, cur.position⟩ := by
    simp only [OpenMatch.token, Matcher.toToken, hspan, Option.getD_some]
  have hsize : ((m.offer c cur).token rules cur).size ≠ 1 := by
    simp only [Token.size, hreport, Span.size]
    omega
  obtain ⟨hopened, herror⟩ := opened_complete_of_size_ne hsize older c
  intro o
  simp only [o, offerOpened_of_complete hcomplete]
  exact ⟨hopened, herror, _, found_complete .., rfl, hreport⟩

theorem opened_complete_of_size_eq (h : (m.token rules cur).size = 1)
    (hok : (complete rules m older c cur).error = none) :
    (complete rules m older c cur).opened = older.map (·.offer c cur) ∧
      ∀ m ∈ older, (m.offer c cur).Quiet := by
  have hshare : (shareChar c older cur).2.1 = none →
      (shareChar c older cur).1 = older.map (·.offer c cur) ∧ ∀ m ∈ older, (m.offer c cur).Quiet :=
    shareChar_of_none
  rw [OpenMatch.token] at h
  simp only [complete, h, ne_eq, not_true, if_false] at hok ⊢
  split at hok
  · next heq =>
    rw [heq] at hshare
    exact hshare rfl
  · cases hok

theorem found_offerOpened {report : Report} {opened : List (OpenMatch κ)}
    (h : (offerOpened c rules opened cur).found = some report) :
    ∃ m ∈ opened, (m.offer c cur).matcher.isComplete = true ∧
      report = (m.rule, (m.offer c cur).token rules cur) := by
  induction opened generalizing rules with
  | nil => cases h
  | cons m older ih =>
    apply cases_offer m c cur
    · intro hcomplete
      rw [offerOpened_of_complete hcomplete, found_complete] at h
      cases h
      exact ⟨m, List.mem_cons_self, hcomplete, rfl⟩
    · intro hcomplete hfailed
      rw [offerOpened_of_failed hcomplete hfailed] at h
      obtain ⟨a, ha, hcomplete, heq⟩ := ih h
      rw [OpenMatch.token_congr (bare_release rules _)] at heq
      exact ⟨a, List.mem_cons_of_mem m ha, hcomplete, heq⟩
    · intro hquiet
      rw [offerOpened_of_quiet hquiet] at h
      obtain ⟨a, ha, hcomplete, heq⟩ := ih h
      exact ⟨a, List.mem_cons_of_mem m ha, hcomplete, heq⟩

theorem mem_opened_offerOpened {opened : List (OpenMatch κ)}
    (hok : (offerOpened c rules opened cur).error = none) :
    ∀ m' ∈ (offerOpened c rules opened cur).opened,
      m' ∈ opened ∨ ∃ m ∈ opened, m' = m.offer c cur ∧ m'.Quiet := by
  induction opened generalizing rules with
  | nil => nofun
  | cons m older ih =>
    have hcons : ∀ {m' : OpenMatch κ}, (m' ∈ older ∨ ∃ a ∈ older, m' = a.offer c cur ∧ m'.Quiet) →
        m' ∈ m :: older ∨ ∃ a ∈ m :: older, m' = a.offer c cur ∧ m'.Quiet := by
      rintro m' (h | ⟨a, ha, h⟩)
      · exact .inl (List.mem_cons_of_mem m h)
      · exact .inr ⟨a, List.mem_cons_of_mem m ha, h⟩
    intro m' hm'
    apply cases_offer m c cur
    · intro hcomplete
      rw [offerOpened_of_complete hcomplete] at hok hm'
      by_cases hsize : ((m.offer c cur).token rules cur).size = 1
      · obtain ⟨hopened, hquiet⟩ := opened_complete_of_size_eq hsize hok
        rw [hopened] at hm'
        obtain ⟨a, ha, rfl⟩ := List.mem_map.1 hm'
        exact hcons (.inr ⟨a, ha, rfl, hquiet a ha⟩)
      · rw [(opened_complete_of_size_ne hsize older c).1] at hm'
        exact hcons (.inl hm')
    · intro hcomplete hfailed
      rw [offerOpened_of_failed hcomplete hfailed] at hok hm'
      exact hcons (ih hok m' hm')
    · intro hquiet
      rw [offerOpened_of_quiet hquiet] at hok hm'
      rcases List.mem_cons.1 hm' with rfl | hm'
      · exact .inr ⟨m, List.mem_cons_self, rfl, hquiet⟩
      · exact hcons (ih hok m' hm')

theorem error_offerOpened_of_size_ne {opened : List (OpenMatch κ)}
    (hsize : ∀ m ∈ opened, (m.offer c cur).matcher.isComplete = true →
      ((m.offer c cur).token rules cur).size ≠ 1) : (offerOpened c rules opened cur).error = none := by
  induction opened generalizing rules with
  | nil => rfl
  | cons m older ih =>
    obtain ⟨hm, holder⟩ := List.forall_mem_cons.1 hsize
    apply cases_offer m c cur
    · intro hcomplete
      rw [offerOpened_of_complete hcomplete]
      exact (opened_complete_of_size_ne (hm hcomplete) older c).2
    · intro hcomplete hfailed
      rw [offerOpened_of_failed hcomplete hfailed]
      apply ih
      intro a ha
      rw [OpenMatch.token_congr (bare_release rules _)]
      exact holder a ha
    · intro hquiet
      rw [offerOpened_of_quiet hquiet]
      exact ih holder

theorem mem_opened_offerOpened_append {new old : List (OpenMatch κ)}
    (hsize : ∀ m ∈ new, (m.offer c cur).matcher.isComplete = true →
      ((m.offer c cur).token rules cur).size = 1)
    (hok : (offerOpened c rules (new ++ old) cur).error = none) :
    ∀ m' ∈ (offerOpened c rules (new ++ old) cur).opened,
      m' ∈ old ∨ ∃ m ∈ new ++ old, m' = m.offer c cur ∧ m'.Quiet := by
  induction new generalizing rules with
  | nil => exact mem_opened_offerOpened hok
  | cons m older ih =>
    obtain ⟨hm, holder⟩ := List.forall_mem_cons.1 hsize
    intro m' hm'
    rw [List.cons_append] at hok hm' ⊢
    apply cases_offer m c cur
    · intro hcomplete
      rw [offerOpened_of_complete hcomplete] at hok hm'
      obtain ⟨hopened, hquiet⟩ := opened_complete_of_size_eq (hm hcomplete) hok
      rw [hopened] at hm'
      obtain ⟨a, ha, rfl⟩ := List.mem_map.1 hm'
      exact .inr ⟨a, List.mem_cons_of_mem m ha, rfl, hquiet a ha⟩
    · intro hcomplete hfailed
      rw [offerOpened_of_failed hcomplete hfailed] at hok hm'
      have holder : ∀ a ∈ older, (a.offer c cur).matcher.isComplete = true →
          ((a.offer c cur).token (release rules (m.offer c cur)) cur).size = 1 := by
        intro a ha
        rw [OpenMatch.token_congr (bare_release rules _)]
        exact holder a ha
      exact (ih holder hok m' hm').imp_right fun ⟨a, ha, h⟩ => ⟨a, List.mem_cons_of_mem m ha, h⟩
    · intro hquiet
      rw [offerOpened_of_quiet hquiet] at hok hm'
      rcases List.mem_cons.1 hm' with rfl | hm'
      · exact .inr ⟨m, List.mem_cons_self, rfl, hquiet⟩
      · exact (ih holder hok m' hm').imp_right fun ⟨a, ha, h⟩ => ⟨a, List.mem_cons_of_mem m ha, h⟩

end Scanner

end Lexing
