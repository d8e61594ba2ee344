import Lexing.Proofs.Scanner.Offer
import Lexing.Proofs.Scanner.Reaches
import Lexing.Proofs.Scanner.Started

namespace Lexing

variable {κ : Type} [CustomMatcher κ]

/-- What is expected of a user's own matchers before their first character. -/
class LawfulNew (κ : Type) [CustomMatcher κ] : Prop where
  isComplete_copy : ∀ m : κ, CustomMatcher.isComplete (CustomMatcher.copy m) = false
  isFailed_copy : ∀ m : κ, CustomMatcher.isFailed (CustomMatcher.copy m) = false

instance : LawfulNew Empty := ⟨nofun, nofun⟩

instance : LawfulNew FixedMatcher := ⟨fun _ => rfl, fun _ => rfl⟩

theorem Matcher.isComplete_copy [LawfulNew κ] (m : Matcher κ) : m.copy.isComplete = false := by
  obtain ⟨l⟩ := m
  rw [copy_mk]
  cases l with
  | custom m => exact LawfulNew.isComplete_copy m
  | _ => rfl

theorem Matcher.isFailed_copy [LawfulNew κ] (m : Matcher κ) : m.copy.isFailed = false := by
  obtain ⟨l⟩ := m
  rw [copy_mk]
  cases l with
  | custom m => exact LawfulNew.isFailed_copy m
  | _ => rfl

def OpenMatch.Before (a b : OpenMatch κ) : Prop :=
  a.start.offset < b.start.offset ∨ a.start.offset = b.start.offset ∧ a.rule < b.rule

theorem sorted_started (c : Char) (pos : Position) (index : Nat) (rules : List (TokenRule κ)) :
    (started c pos index rules).Pairwise OpenMatch.Before := by
  induction rules generalizing index with
  | nil => exact .nil
  | cons r rest ih =>
    rw [started]
    split
    · refine .cons ?_ (ih (index + 1))
      intro m hm
      obtain ⟨j, s, -, -, -, rfl⟩ := mem_started hm
      exact .inr ⟨rfl, by simp only; omega⟩
    · exact ih (index + 1)

namespace Scanner

structure Stacked (i : Nat) (opened : List (OpenMatch κ)) : Prop where
  before : ∀ m ∈ opened, m.start.offset < i
  quiet : ∀ m ∈ opened, m.Quiet
  sorted : opened.Pairwise fun a b => b.Before a

theorem Stacked.mono {i j : Nat} {opened : List (OpenMatch κ)} (h : Stacked i opened) (hij : i ≤ j) :
    Stacked j opened :=
  ⟨fun m hm => Nat.lt_of_lt_of_le (h.before m hm) hij, h.quiet, h.sorted⟩

theorem Stacked.launch [LawfulCursor κ] [LawfulNew κ] {text : List Char} {i : Nat} {c : Char}
    {opened : List (OpenMatch κ)} {rules : List (TokenRule κ)} {l : Launch κ} (h : Stacked i opened)
    (hl : Launches c (.past text (i + 1)) opened 0 rules l) (hc : text[i]? = some c) :
    Stacked (i + 1) l.opened := by
  obtain ⟨tried, rest, -, hopened, -, -⟩ := hl.opened_eq hc rfl
  generalize hnew : started c (Cursor.past text (i + 1)).position 0 tried = new at hopened
  have hmem : ∀ m ∈ new, m.start.offset = i ∧ m.Quiet := by
    intro m hm
    rw [← hnew] at hm
    obtain ⟨j, r, -, -, -, rfl⟩ := mem_started hm
    exact ⟨Cursor.offset_position_past hc, r.prototype.isComplete_copy, r.prototype.isFailed_copy⟩
  have hsorted : new.Pairwise OpenMatch.Before := hnew ▸ sorted_started ..
  rw [hopened]
  constructor
  · intro m hm
    rcases List.mem_append.1 hm with hm | hm
    · exact Nat.lt_succ_of_le (Nat.le_of_eq (hmem m (List.mem_reverse.1 hm)).1)
    · exact Nat.lt_succ_of_lt (h.before m hm)
  · intro m hm
    rcases List.mem_append.1 hm with hm | hm
    · exact (hmem m (List.mem_reverse.1 hm)).2
    · exact h.quiet m hm
  · refine List.pairwise_append.2 ⟨List.pairwise_reverse.2 hsorted, h.sorted, ?_⟩
    intro m hm a ha
    rw [OpenMatch.Before, (hmem m (List.mem_reverse.1 hm)).1]
    exact .inl (h.before a ha)

def places (opened : List (OpenMatch κ)) : List (Nat × Nat) :=
  opened.map fun m => (m.start.offset, m.rule)

omit [CustomMatcher κ] in
theorem pairwise_of_places {opened opened' : List (OpenMatch κ)}
    (h : (places opened').Sublist (places opened)) (hsorted : opened.Pairwise fun a b => b.Before a) :
    opened'.Pairwise fun a b => b.Before a := by
  have hplaces : (places opened).Pairwise fun p q => q.1 < p.1 ∨ q.1 = p.1 ∧ q.2 < p.2 :=
    List.pairwise_map.2 hsorted
  exact List.pairwise_map.1 (hplaces.sublist h)

theorem places_shareChar (c : Char) (opened : List (OpenMatch κ)) (cur : Cursor) :
    places (shareChar c opened cur).1 = places opened := by
  induction opened generalizing cur with
  | nil => rfl
  | cons m older ih =>
    simp only [shareChar]
    split
    · rfl
    · split
      · rfl
      · exact congrArg (_ :: ·) (ih _)

variable [LawfulCursor κ]

theorem places_offerOpened (c : Char) (rules : List (TokenRule κ)) (opened : List (OpenMatch κ))
    (cur : Cursor) : (places (offerOpened c rules opened cur).opened).Sublist (places opened) := by
  induction opened generalizing rules with
  | nil => exact .slnil
  | cons m older ih =>
    apply cases_offer m c cur
    · intro hcomplete
      rw [offerOpened_of_complete hcomplete]
      rcases opened_complete rules (m.offer c cur) older c cur with heq | heq
      · rw [heq]
        exact List.sublist_cons_self ..
      · rw [heq, places_shareChar]
        exact List.sublist_cons_self ..
    · intro hcomplete hfailed
      rw [offerOpened_of_failed hcomplete hfailed]
      exact (ih _).cons _
    · intro hquiet
      rw [offerOpened_of_quiet hquiet]
      exact (ih rules).cons_cons _

theorem Stacked.offer {i : Nat} {c : Char} {rules : List (TokenRule κ)} {opened : List (OpenMatch κ)}
    {cur : Cursor} (h : Stacked i opened) (hok : (offerOpened c rules opened cur).error = none) :
    Stacked i (offerOpened c rules opened cur).opened := by
  refine ⟨?_, ?_, pairwise_of_places (places_offerOpened c rules opened cur) h.sorted⟩
  · intro m' hm'
    rcases mem_opened_offerOpened hok m' hm' with hm | ⟨m, hm, rfl, -⟩
    · exact h.before m' hm
    · exact h.before m hm
  · intro m' hm'
    rcases mem_opened_offerOpened hok m' hm' with hm | ⟨m, hm, rfl, hquiet⟩
    · exact h.quiet m' hm
    · exact hquiet

theorem stacked_step [LawfulCopy κ] [LawfulNew κ] {s : Scanner κ} (hs : s.Sound) {text : List Char}
    {i n : Nat} {c : Char} (hc : text[i]? = some c) (h : Stacked i s.opened)
    (hok : (s.step c (.past text (i + 1))).result = .ok n) :
    Stacked (i + 1) (s.step c (.past text (i + 1))).scanner.opened := by
  have hlaunched := h.launch (launches_launch c (.past text (i + 1)) s.opened 0 hs.ready) hc
  cases leads_step hs hc with
  | found _ hopened =>
    rw [hopened]
    exact hlaunched
  | offered ho hopened _ _ herror =>
    subst ho
    rw [hopened]
    exact hlaunched.offer (herror n hok)

omit [LawfulCursor κ] in
theorem length_reports_step (s : Scanner κ) (c : Char) (cur : Cursor) :
    (s.step c cur).reports.length ≤ 1 := by
  simp only [step]
  split
  · exact Nat.le_refl 1
  · exact Option.length_toList_le

/-- Wherever a scan gets without an error, the open matches are those of compound rules, they have
begun one after another before the cursor, and each of them goes on. A step reports one token at
most. -/
theorem Reaches.opened_in_order [LawfulCopy κ] [LawfulNew κ] {rules : List (TokenRule κ)}
    {text : List Char} {s : Scanner κ} {cur : Cursor} (hready : ∀ r ∈ rules, r.Ready)
    (h : Reaches rules text s cur) :
    s.opened.reverse.Pairwise OpenMatch.Before ∧
      (∀ m ∈ s.opened, (∃ r, rules[m.rule]? = some r ∧ r.compound = true) ∧
        m.start.offset < cur.offset ∧ m.Quiet) ∧
      ∀ c after, (s.step c after).reports.length ≤ 1 := by
  obtain ⟨i, rfl, hi, hsound, hbare, hstacked⟩ :=
    h.invariant (P := fun i s => Stacked i s.opened) hready ⟨nofun, nofun, .nil⟩ (by
      intro s i c n hs _ hc hstacked hok
      exact (stacked_step hs hc hstacked hok).mono (lt_next_simpleToken? rules text i))
  refine ⟨List.pairwise_reverse.2 hstacked.sorted, fun m hm => ⟨?_, ?_, hstacked.quiet m hm⟩,
    length_reports_step s⟩
  · obtain ⟨r, hr, hcompound, -⟩ := (hsound.belongs m hm).congr hbare.symm
    exact ⟨r, hr, hcompound⟩
  · rw [Cursor.offset_past hi]
    exact hstacked.before m hm

theorem Reaches.opened_in_order_twice :
    let tag : TokenRule FixedMatcher :=
      { name := "tag", compound := true, firstChars := .singleton '<'
        prototype := .chars "tag" (.upTo (.singleton '>')) }
    let three : TokenRule FixedMatcher :=
      { name := "three", compound := true, firstChars := .singleton '<'
        prototype := .mk (.custom { name := "three", size := 3, firstChars := none }) }
    let text := ['<', '<', 'a']
    let s := (Scanner.step { rules := [tag, three] } '<' (.past text 1)).scanner
    let t := (s.step '<' (.past text 2)).scanner
    places t.opened.reverse = [(0, 0), (0, 1), (1, 0), (1, 1)] ∧
      t.opened.reverse.Pairwise OpenMatch.Before ∧ (∀ m ∈ t.opened, m.Quiet) ∧
      (t.step 'a' (.past text 3)).reports.length = 1 := by
  -- two rules have begun with each of two characters
  intro tag three text s t
  have hready : ∀ r ∈ [tag, three], r.Ready := by simp [tag, three, TokenRule.Ready]
  have hfirst : Reaches [tag, three] text s (.past text 1) :=
    start_past.step_past rfl (Cursor.ext (by decide +kernel) (by decide +kernel)) (by decide +kernel)
  have hsecond : Reaches [tag, three] text t (.past text 2) :=
    hfirst.step_past rfl (Cursor.ext (by decide +kernel) (by decide +kernel)) (by decide +kernel)
  obtain ⟨hsorted, hmem, -⟩ := hsecond.opened_in_order hready
  exact ⟨by decide +kernel, hsorted, fun m hm => (hmem m hm).2.2, by decide +kernel⟩

end Scanner

end Lexing
