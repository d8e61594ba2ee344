import Lexing.Proofs.Chain.Pair
import Lexing.Proofs.Scanner.Offer
import Lexing.Proofs.Scanner.Started

namespace Lexing

variable {κ : Type} [CustomMatcher κ]

def IsCompound (rules : List (TokenRule κ)) (k : Nat) : Prop :=
  ∃ r, rules[k]? = some r ∧ r.compound = true

omit [CustomMatcher κ] in
theorem not_isCompound_of_isSimple {rules : List (TokenRule κ)} {k : Nat}
    (h : isSimple rules k = true) : ¬IsCompound rules k := by
  rintro ⟨r, hr, hcompound⟩
  simp [isSimple, hr, hcompound] at h

/-- The compound rules are pairs of brackets. All their characters are different, and no simple rule
begins with an opening one. -/
structure Pairs (rules : List (TokenRule κ)) (opener closer : Nat → Char) : Prop where
  ready : ∀ r ∈ rules, r.Ready
  pair : ∀ (k : Nat) (r : TokenRule κ), rules[k]? = some r → r.compound = true →
    r.IsPair (opener k) (closer k)
  opener_ne_closer : ∀ k k', IsCompound rules k → IsCompound rules k' → opener k ≠ closer k'
  opener_inj : ∀ k k', IsCompound rules k → IsCompound rules k' → opener k = opener k' → k = k'
  closer_inj : ∀ k k', IsCompound rules k → IsCompound rules k' → closer k = closer k' → k = k'
  simple : ∀ k, IsCompound rules k → ∀ r ∈ rules, r.compound = false → r.startsWith (opener k) = false

def shut (e : Char) (i : Nat) (c : Char) (stack : List Nat) : List Nat × Option (Nat × Nat) :=
  if c = e then (stack.tail, stack.head?.map fun j => (j, i)) else (stack, none)

def nest (o e : Char) (i : Nat) (c : Char) (stack : List Nat) : List Nat × Option (Nat × Nat) :=
  if c = o then (i :: stack, none) else shut e i c stack

def starts (k : Nat) (opened : List (OpenMatch κ)) : List Nat :=
  (opened.filter fun m => m.rule = k).map fun m => m.start.offset

def tokensOf (k : Nat) (reports : List Report) : List Token :=
  (reports.filter fun p => p.1 = k).map Prod.snd

def bracket (kind : String) (text : List Char) (p : Nat × Nat) : String × Span :=
  (kind, ⟨(Cursor.ofList text).positionAt p.1, (Cursor.ofList text).positionAt p.2⟩)

section Starts

variable (k : Nat) (m : OpenMatch κ) (as bs : List (OpenMatch κ)) (c : Char) (cur : Cursor)

omit [CustomMatcher κ] in
theorem starts_append : starts k (as ++ bs) = starts k as ++ starts k bs := by simp [starts]

omit [CustomMatcher κ] in
theorem starts_cons : starts k (m :: bs) =
    if m.rule = k then m.start.offset :: starts k bs else starts k bs := by
  by_cases h : m.rule = k
  · simp [starts, h]
  · simp [starts, h]

theorem starts_map_offer : starts k (as.map (·.offer c cur)) = starts k as := by
  simp only [starts, List.filter_map, List.map_map]
  rfl

omit [CustomMatcher κ] in
theorem starts_eq_nil {as : List (OpenMatch κ)} (h : ∀ a ∈ as, a.rule ≠ k) : starts k as = [] := by
  simpa [starts] using h

end Starts

/-- The match is one of a compound rule that has begun before offset `i` and waits for its closing
character. -/
structure OpenMatch.Waits (rules : List (TokenRule κ)) (closer : Nat → Char) (text : List Char)
    (i : Nat) (m : OpenMatch κ) : Prop where
  compound : IsCompound rules m.rule
  pending : m.matcher.Pending (closer m.rule) m.start
  start_eq : m.start = (Cursor.ofList text).positionAt m.start.offset
  before : m.start.offset < i

namespace OpenMatch.Waits

variable {rules : List (TokenRule κ)} {closer : Nat → Char} {text : List Char} {i : Nat}
  {m : OpenMatch κ} {c : Char}

theorem quiet (h : m.Waits rules closer text i) : m.Quiet := h.pending.quiet

omit [CustomMatcher κ] in
theorem mono (h : m.Waits rules closer text i) {j : Nat} (hij : i ≤ j) :
    m.Waits rules closer text j := ⟨h.compound, h.pending, h.start_eq, Nat.lt_of_lt_of_le h.before hij⟩

variable [LawfulCursor κ]

theorem offer (h : m.Waits rules closer text i) (hc : text[i]? = some c) (hne : c ≠ closer m.rule) :
    (m.offer c (.past text (i + 1))).Waits rules closer text (i + 1) := by
  have hoffset := Cursor.offset_position_past hc
  have hbefore := h.before
  exact ⟨h.compound, h.pending.accept_of_ne (by omega) hne, h.start_eq, Nat.lt_succ_of_lt hbefore⟩

theorem close (h : m.Waits rules closer text i) (hc : text[i]? = some (closer m.rule)) :
    (m.offer (closer m.rule) (.past text (i + 1))).matcher.isComplete = true ∧
      (m.offer (closer m.rule) (.past text (i + 1))).matcher.span =
        some ⟨m.start, (Cursor.past text (i + 1)).position⟩ :=
  h.pending.accept_close (Nat.lt_of_lt_of_eq h.before (Cursor.offset_position_past hc).symm)

end OpenMatch.Waits

theorem OpenMatch.waits_offer_of_new [LawfulCursor κ] {rules : List (TokenRule κ)}
    {opener closer : Nat → Char} (hpairs : Pairs rules opener closer) {k : Nat} {r : TokenRule κ}
    (hr : rules[k]? = some r) (hcompound : r.compound = true) {text : List Char} {i : Nat}
    (hc : text[i]? = some (opener k)) :
    (OpenMatch.offer ⟨(Cursor.past text (i + 1)).position, k, r.prototype.copy⟩ (opener k)
      (.past text (i + 1))).Waits rules closer text (i + 1) where
  compound := ⟨r, hr, hcompound⟩
  pending := (hpairs.pair k r hr hcompound).spec.2.2 (.past text (i + 1))
  start_eq := by
    have hposition := Cursor.position_past (List.getElem?_eq_some_iff.1 hc).1
    rw [start_offer, hposition]
    rfl
  before := Nat.lt_succ_of_le (Nat.le_of_eq (Cursor.offset_position_past hc))

namespace Scanner

variable [LawfulCursor κ] {rules rules' : List (TokenRule κ)} {opener closer : Nat → Char}
  {text : List Char} {i : Nat} {c : Char} {cur : Cursor} {as bs opened : List (OpenMatch κ)}
  {m : OpenMatch κ}

theorem offerOpened_append_of_quiet (rules' : List (TokenRule κ)) (bs : List (OpenMatch κ))
    (h : ∀ a ∈ as, (a.offer c cur).Quiet) :
    offerOpened c rules' (as ++ bs) cur =
      let o := offerOpened c rules' bs cur
      { o with
        opened := as.map (·.offer c cur) ++ o.opened
        broken := as.any (fun a => (a.offer c cur).matcher.isBroken) || o.broken } := by
  induction as with
  | nil => rfl
  | cons a rest ih =>
    obtain ⟨ha, hrest⟩ := List.forall_mem_cons.1 h
    rw [List.cons_append, offerOpened_of_quiet ha, ih hrest]
    simp [Bool.or_assoc]

theorem offerOpened_shut (hpairs : Pairs rules opener closer)
    (hbare : rules'.map TokenRule.bare = rules.map TokenRule.bare) (hc : text[i]? = some c)
    (h : ∀ m ∈ opened, m.Waits rules closer text i) :
    let o := offerOpened c rules' opened (.past text (i + 1))
    o.error = none ∧ (∀ m ∈ o.opened, m.Waits rules closer text (i + 1)) ∧
      (∀ p ∈ o.found.toList, IsCompound rules p.1 ∧ p.2.span.stop.offset = i) ∧
      ∀ k, IsCompound rules k → starts k o.opened = (shut (closer k) i c (starts k opened)).1 ∧
        (tokensOf k o.found.toList).map (fun t => (t.kind, t.span)) =
          (shut (closer k) i c (starts k opened)).2.toList.map
            (bracket (ruleName rules k) text) := by
  -- the character ends the latest match that it closes. All matches above that one go on, and those
  -- below it do not get the character.
  cases hfind : opened.find? (fun m => closer m.rule = c) with
  | none =>
    have hne : ∀ m ∈ opened, c ≠ closer m.rule := by
      simpa [eq_comm] using List.find?_eq_none.1 hfind
    have hwaits : ∀ m ∈ opened,
        (m.offer c (.past text (i + 1))).Waits rules closer text (i + 1) :=
      fun m hm => (h m hm).offer hc (hne m hm)
    have hoffer : offerOpened c rules' opened (.past text (i + 1)) =
        { rules := rules', opened := opened.map (·.offer c (.past text (i + 1)))
          cursor := .past text (i + 1)
          broken := opened.any fun m => (m.offer c (.past text (i + 1))).matcher.isBroken } := by
      have happend := offerOpened_append_of_quiet rules' []
        fun m hm => (hwaits m hm).quiet
      simpa [offerOpened] using happend
    rw [hoffer]
    refine ⟨rfl, List.forall_mem_map.2 hwaits, ?_, fun k hk => ?_⟩
    · intro p hp
      cases hp
    · rw [starts_map_offer, shut]
      split
      · next hclose =>
        have hnil : starts k opened = [] := by
          apply starts_eq_nil
          rintro m hm rfl
          exact hne m hm hclose
        simp [hnil, tokensOf]
      · exact ⟨rfl, rfl⟩
  | some m =>
    obtain ⟨hclose, as, bs, rfl, has⟩ := List.find?_eq_some_iff_append.1 hfind
    obtain rfl : closer m.rule = c := of_decide_eq_true hclose
    obtain ⟨hbefore, hrest⟩ := List.forall_mem_append.1 h
    obtain ⟨hm, hafter⟩ := List.forall_mem_cons.1 hrest
    have hne : ∀ a ∈ as, closer a.rule ≠ closer m.rule := by simpa using has
    have hwaits : ∀ a ∈ as, (a.offer (closer m.rule) (.past text (i + 1))).Waits rules closer text
        (i + 1) := fun a ha => (hbefore a ha).offer hc (hne a ha).symm
    have hoffset := Cursor.offset_position_past hc
    obtain ⟨hcomplete, hspan⟩ := hm.close hc
    obtain ⟨hopened, herror, t, hfound, hkind, hspan⟩ :=
      offerOpened_of_span hcomplete hspan (by have := hm.before; omega) rules' bs
    rw [ruleName_congr hbare] at hkind
    rw [offerOpened_append_of_quiet _ _ fun a ha => (hwaits a ha).quiet]
    simp only [hopened, herror, hfound, Option.toList_some, List.mem_singleton, forall_eq]
    refine ⟨trivial, List.forall_mem_append.2 ⟨List.forall_mem_map.2 hwaits,
      fun b hb => (hafter b hb).mono (Nat.le_succ i)⟩, ⟨hm.compound, ?_⟩, fun k hk => ?_⟩
    · rw [hspan]
      exact hoffset
    · rw [starts_append, starts_append, starts_map_offer, starts_cons, shut]
      by_cases hk' : m.rule = k
      · subst hk'
        have hnil : starts m.rule as = [] := starts_eq_nil _ fun a ha h => hne a ha (h ▸ rfl)
        have hposition := Cursor.position_past (List.getElem?_eq_some_iff.1 hc).1
        simp [hnil, tokensOf, bracket, hspan, hkind, hposition, ← hm.start_eq]
      · have hne' : closer m.rule ≠ closer k := fun heq => hk' (hpairs.closer_inj _ _ hm.compound hk heq)
        simp [hk', hne', tokensOf]

theorem started_cases (hpairs : Pairs rules opener closer) (c : Char) (pos : Position) :
    (∃ k r, rules[k]? = some r ∧ r.compound = true ∧ c = opener k ∧
      started c pos 0 rules = [⟨pos, k, r.prototype.copy⟩]) ∨
    (∀ k, IsCompound rules k → c ≠ opener k) ∧ started c pos 0 rules = [] := by
  have hstarts : ∀ {k r}, rules[k]? = some r → r.compound = true → r.startsWith c = decide (c = opener k) :=
    fun hr hcompound => (hpairs.pair _ _ hr hcompound).spec.2.1 c
  by_cases hopen : ∃ k, IsCompound rules k ∧ c = opener k
  · obtain ⟨k, ⟨r, hr, hcompound⟩, hc⟩ := hopen
    refine .inl ⟨k, r, hr, hcompound, hc, ?_⟩
    rw [started_eq_singleton hr hcompound (by rw [hstarts hr hcompound]; exact decide_eq_true hc), Nat.zero_add]
    intro j s hs hscompound hstart
    rw [hstarts hs hscompound, decide_eq_true_eq] at hstart
    exact hpairs.opener_inj j k ⟨s, hs, hscompound⟩ ⟨r, hr, hcompound⟩ (hstart.symm.trans hc)
  · have hne : ∀ k, IsCompound rules k → c ≠ opener k := fun k hk hc => hopen ⟨k, hk, hc⟩
    refine .inr ⟨hne, started_eq_nil fun r hr hcompound => ?_⟩
    obtain ⟨k, hk⟩ := List.mem_iff_getElem?.1 hr
    rw [hstarts hk hcompound]
    exact decide_eq_false (hne k ⟨r, hk, hcompound⟩)

theorem apart_of_pairs (hpairs : Pairs rules opener closer) (c : Char) : Apart rules c := by
  intro r hr hcompound hstart
  obtain ⟨k, hk⟩ := List.mem_iff_getElem?.1 hr
  rw [(hpairs.pair k r hk hcompound).spec.2.1, decide_eq_true_eq] at hstart
  subst hstart
  exact hpairs.simple k ⟨r, hk, hcompound⟩

/-- A character that is not in a simple token does to the open matches of each rule what it does to
a stack of brackets. -/
theorem step_nest [LawfulCopy κ] {s : Scanner κ} (hpairs : Pairs rules opener closer) (hs : s.Sound)
    (hbare : s.rules.map TokenRule.bare = rules.map TokenRule.bare) (hc : text[i]? = some c)
    (h : ∀ m ∈ s.opened, m.Waits rules closer text i) (hfree : simpleToken? rules text i = none) :
    let t := s.step c (.past text (i + 1))
    t.result = .ok 0 ∧ (∀ m ∈ t.scanner.opened, m.Waits rules closer text (i + 1)) ∧
      (t.reports.length ≤ 1 ∧ ∀ p ∈ t.reports, IsCompound rules p.1 ∧ p.2.span.stop.offset = i) ∧
      ∀ k, IsCompound rules k →
        starts k t.scanner.opened = (nest (opener k) (closer k) i c (starts k s.opened)).1 ∧
        (tokensOf k t.reports).map (fun t => (t.kind, t.span)) =
          (nest (opener k) (closer k) i c (starts k s.opened)).2.toList.map
            (bracket (ruleName rules k) text) := by
  obtain ⟨rules', hbare', hopened, hreports, hresult⟩ := step_free hs hbare hc hfree
  obtain ⟨herror, hwaits, hstop, hshut⟩ := offerOpened_shut hpairs hbare' hc h
  intro t
  simp only [t, hopened, hreports, hresult]
  rcases started_cases hpairs c (Cursor.past text (i + 1)).position with
    ⟨k, r, hr, hcompound, rfl, hstarted⟩ | ⟨hne, hstarted⟩
  · have hnew := OpenMatch.waits_offer_of_new hpairs hr hcompound hc
    rw [hstarted, List.reverse_singleton, List.singleton_append, offerOpened_of_quiet hnew.quiet]
    refine ⟨by rw [herror]; rfl, List.forall_mem_cons.2 ⟨hnew, hwaits⟩, ⟨Option.length_toList_le, hstop⟩,
      fun k' hk' => ?_⟩
    obtain ⟨hstarts, htokens⟩ := hshut k' hk'
    have hk : IsCompound rules k := ⟨r, hr, hcompound⟩
    have hne : opener k ≠ closer k' := hpairs.opener_ne_closer k k' hk hk'
    rw [shut, if_neg hne] at hstarts htokens
    rw [starts_cons, hstarts, OpenMatch.rule_offer, OpenMatch.start_offer,
      Cursor.offset_position_past hc]
    by_cases heq : k = k'
    · subst heq
      rw [if_pos rfl, nest, if_pos rfl]
      exact ⟨rfl, htokens⟩
    · have hne' : opener k ≠ opener k' := fun h => heq (hpairs.opener_inj k k' hk hk' h)
      rw [nest, if_neg hne', shut, if_neg hne]
      exact ⟨if_neg heq, htokens⟩
  · rw [hstarted, List.reverse_nil, List.nil_append]
    refine ⟨by rw [herror]; rfl, hwaits, ⟨Option.length_toList_le, hstop⟩, fun k hk => ?_⟩
    rw [nest, if_neg (hne k hk)]
    exact hshut k hk

end Scanner

end Lexing
