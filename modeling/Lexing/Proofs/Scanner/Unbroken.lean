import Lexing.Proofs.Matcher.Intact
import Lexing.Proofs.Tokenizer.Places

namespace Lexing

variable {κ : Type} [CustomMatcher κ]

namespace Matcher.InUse

variable {m : Matcher κ}

theorem unbroken (h : m.InUse) : m.isBroken = false := (h.intact m.depth le_rfl).unbroken

theorem unbroken_readWithin (h : m.InUse) (n : Nat) (cur : Cursor) :
    (m.readWithin n cur).2.1.isBroken = false := by
  induction n generalizing m cur with
  | zero => exact h.unbroken
  | succ n ih =>
    rw [readWithin]
    split
    · exact h.unbroken
    · next c cur _ =>
      dsimp only
      split
      · exact h.unbroken_accept c cur
      · next hgoes =>
        refine ih (.accept c cur h (.inr ?_)) _
        simp only [Bool.or_eq_true, not_or, Bool.not_eq_true] at hgoes
        exact hgoes.1.2

end Matcher.InUse

theorem Span.Lies.isReversed_eq_false {s : Span} {text : List Char} {lo n : Nat} (h : s.Lies text lo n) :
    s.isReversed = false := by
  have hle := h.start_le
  rw [isReversed, decide_eq_false_iff_not]
  omega

namespace Scanner

variable {text : List Char} {i : Nat} {c : Char} {cur : Cursor} {rules : List (TokenRule κ)}
  {opened : List (OpenMatch κ)}

namespace Launches

variable {index : Nat} {l : Launch κ}

theorem unbroken (h : Launches c cur opened index rules l) : l.broken = false := by
  have hread : ∀ (r : TokenRule κ) (cur : Cursor), r.breaksAt cur = false := fun r cur =>
    (Matcher.InUse.copy r.prototype).unbroken_readWithin _ (cur.unread 1)
  induction h with
  | nil => rfl
  | found => exact hread ..
  | pass _ _ _ _ ih => simp [Launch.behind, ih]
  | start _ _ _ _ _ ih => simp [Launch.behind, ih]
  | miss _ _ _ _ _ _ ih => simp [Launch.behind, ih, hread]

theorem inUse (h : Launches c cur opened index rules l) (hopened : ∀ m ∈ opened, m.matcher.InUse) :
    ∀ m ∈ l.opened, m.matcher.InUse := by
  induction h with
  | nil => exact hopened
  | found => exact hopened
  | pass _ _ _ _ ih => exact ih hopened
  | start _ _ _ _ _ ih => exact ih (List.forall_mem_cons.2 ⟨.copy _, hopened⟩)
  | miss _ _ _ _ _ _ ih => exact ih hopened

end Launches

theorem unbroken_shareChar (c : Char) (h : ∀ m ∈ opened, m.matcher.InUse) (cur : Cursor) :
    (shareChar c opened cur).1.any (·.matcher.isBroken) = false := by
  induction opened generalizing cur with
  | nil => rfl
  | cons m older ih =>
    obtain ⟨hm, holder⟩ := List.forall_mem_cons.1 h
    have hoffered := hm.unbroken_accept c cur
    have hrest : older.any (·.matcher.isBroken) = false :=
      List.any_eq_false.2 fun a ha hbroken => by cases (holder a ha).unbroken.symm.trans hbroken
    simp only [shareChar]
    split
    · simp only [List.any_cons, hoffered, hrest, Bool.or_false]
    · split
      · simp only [List.any_cons, hoffered, hrest, Bool.or_false]
      · simp only [List.any_cons, hoffered, ih holder, Bool.or_false]

theorem unbroken_complete {m : OpenMatch κ} (hm : m.matcher.isBroken = false)
    (hspan : (m.token rules cur).span.isReversed = false) (h : ∀ m ∈ opened, m.matcher.InUse) :
    (complete rules m opened c cur).broken = false := by
  have hshared := unbroken_shareChar c h cur
  have hdone : (m.matcher.isBroken || (m.token rules cur).span.isReversed) = false := by rw [hm, hspan]; rfl
  rw [complete]
  generalize shareChar c opened cur = x at hshared
  -- whether a second match ends with the same character is all the same here
  obtain ⟨older, _ | ⟨other, ending⟩, after⟩ := x
  all_goals
    dsimp only
    split
    · exact hdone
    · exact Bool.or_eq_false_iff.2 ⟨hdone, hshared⟩

variable [LawfulCopy κ] [LawfulCursor κ] [LawfulPlaces κ]

theorem unbroken_offerOpened (hc : text[i]? = some c) (hinUse : ∀ m ∈ opened, m.matcher.InUse)
    (hplaced : ∀ m ∈ opened, m.Placed text i) :
    (offerOpened c rules opened (.past text (i + 1))).broken = false := by
  induction opened generalizing rules with
  | nil => rfl
  | cons m older ih =>
    obtain ⟨hm, hinUse⟩ := List.forall_mem_cons.1 hinUse
    obtain ⟨hp, hplaced⟩ := List.forall_mem_cons.1 hplaced
    have hoffered : (m.offer c (.past text (i + 1))).matcher.isBroken = false := hm.unbroken_accept c _
    apply cases_offer m c (.past text (i + 1))
    · intro hcomplete
      rw [offerOpened_of_complete hcomplete]
      exact unbroken_complete hoffered (hp.lies_token hc rules).isReversed_eq_false hinUse
    · intro hcomplete hfailed
      rw [offerOpened_of_failed hcomplete hfailed]
      exact Bool.or_eq_false_iff.2 ⟨hoffered, ih hinUse hplaced⟩
    · intro hquiet
      rw [offerOpened_of_quiet hquiet]
      exact Bool.or_eq_false_iff.2 ⟨hoffered, ih hinUse hplaced⟩

section Step

variable {s : Scanner κ} (hs : s.Sound) (hc : text[i]? = some c)
  (hinUse : ∀ m ∈ s.opened, m.matcher.InUse)
include hs hc hinUse

theorem unbroken_step (hplaced : ∀ m ∈ s.opened, m.Placed text i) :
    (s.step c (.past text (i + 1))).broken = false := by
  have hl := launches_launch c (.past text (i + 1)) s.opened 0 hs.ready
  cases leads_step hs hc with
  | found _ _ _ _ hbroken => rw [hbroken, hl.unbroken]
  | offered ho _ _ _ _ hbroken =>
    subst ho
    rw [hbroken, hl.unbroken, unbroken_offerOpened hc (hl.inUse hinUse) (hl.placed hc hplaced)]
    rfl

omit [LawfulPlaces κ] in
theorem inUse_step {n : Nat} (hok : (s.step c (.past text (i + 1))).result = .ok n) :
    ∀ m ∈ (s.step c (.past text (i + 1))).scanner.opened, m.matcher.InUse := by
  have hl := launches_launch c (.past text (i + 1)) s.opened 0 hs.ready
  have hlaunched := hl.inUse hinUse
  cases leads_step hs hc with
  | found _ hopened =>
    rw [hopened]
    exact hlaunched
  | offered ho hopened _ _ herror =>
    subst ho
    rw [hopened]
    intro m' hm'
    rcases mem_opened_offerOpened (herror n hok) m' hm' with hm | ⟨m, hm, rfl, hquiet⟩
    · exact hlaunched m' hm
    · exact .accept c _ (hlaunched m hm) (.inr hquiet.2)

end Step

theorem Reaches.unbroken {s : Scanner κ} {after : Cursor} (hready : ∀ r ∈ rules, r.Ready)
    (h : Reaches rules text s cur) (hread : cur.read? = some (c, after)) :
    (s.step c after).broken = false := by
  obtain ⟨i, rfl, -, hs, -, hplaced, hinUse⟩ :=
    h.invariant (P := fun i s => (∀ m ∈ s.opened, m.Placed text i) ∧ ∀ m ∈ s.opened, m.matcher.InUse)
      hready ⟨nofun, nofun⟩ (by
        intro s i c n hs _ hc ⟨hplaced, hinUse⟩ hok
        refine ⟨fun m hm => ?_, inUse_step hs hc hinUse hok⟩
        exact (placed_step hs hc hplaced hok m hm).mono (lt_next_simpleToken? rules _ i))
  rw [Cursor.read?_past, Option.map_eq_some_iff] at hread
  obtain ⟨c, hc, heq⟩ := hread
  cases heq
  exact unbroken_step hs hc hinUse hplaced

end Scanner

end Lexing
