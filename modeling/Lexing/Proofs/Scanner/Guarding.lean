import Lexing.Proofs.Chain.Escaped
import Lexing.Proofs.Scanner.Nesting
import Mathlib.Data.List.Forall2

namespace Lexing

variable {κ : Type} [CustomMatcher κ]

structure Escapable (rules : List (TokenRule κ)) (k : Nat) (start escape stop : Char) : Prop where
  ready : ∀ r ∈ rules, r.Ready
  escapable : ∃ r, rules[k]? = some r ∧ r.IsEscapable start escape stop
  only : ∀ j, IsCompound rules j → j = k
  simple : ∀ r ∈ rules, r.compound = false → r.startsWith start = false
  start_ne_escape : start ≠ escape
  escape_ne_stop : escape ≠ stop

namespace Guard

def shut (escape stop : Char) (text : List Char) (i : Nat) (c : Char) :
    List (Nat × Guard) → List (Nat × Guard) × Option (Nat × Nat)
  | [] => ([], none)
  | (j, g) :: older =>
    match g.next? escape stop text[i - 1]? c with
    | none => (older, some (j, i))
    | some g =>
      let (stack, closed) := shut escape stop text i c older
      ((j, g) :: stack, closed)

def nest (start escape stop : Char) (text : List Char) (i : Nat) (c : Char)
    (stack : List (Nat × Guard)) : List (Nat × Guard) × Option (Nat × Nat) :=
  let (stack, closed) := shut escape stop text i c stack
  (if c = start then (i, {}) :: stack else stack, closed)

theorem nest_of_ne {start c : Char} (h : c ≠ start) (escape stop : Char) (text : List Char) (i : Nat)
    (stack : List (Nat × Guard)) :
    nest start escape stop text i c stack = shut escape stop text i c stack := by
  simp [nest, h]

end Guard

structure OpenMatch.Guards (k : Nat) (escape stop : Char) (text : List Char) (i : Nat)
    (b : Nat × Guard) (m : OpenMatch κ) : Prop where
  rule : m.rule = k
  guarded : m.matcher.Guarded escape stop m.start b.2
  start_eq : m.start = (Cursor.ofList text).positionAt b.1
  before : b.1 < i

namespace OpenMatch.Guards

variable {k : Nat} {escape stop c : Char} {text : List Char} {i : Nat} {b : Nat × Guard}
  {m : OpenMatch κ}

omit [CustomMatcher κ] in
theorem mono (h : m.Guards k escape stop text i b) {j : Nat} (hij : i ≤ j) :
    m.Guards k escape stop text j b :=
  ⟨h.rule, h.guarded, h.start_eq, Nat.lt_of_lt_of_le h.before hij⟩

theorem offer [LawfulCursor κ] (h : m.Guards k escape stop text i b) (hc : text[i]? = some c) :
    match b.2.next? escape stop text[i - 1]? c with
    | none => (m.offer c (.past text (i + 1))).matcher.isComplete = true ∧
      (m.offer c (.past text (i + 1))).matcher.span =
        some ⟨m.start, (Cursor.past text (i + 1)).position⟩
    | some g => (m.offer c (.past text (i + 1))).Guards k escape stop text (i + 1) (b.1, g) := by
  obtain ⟨hrule, hguarded, hstart, hbefore⟩ := h
  have hoffset := Cursor.offset_position_past hc
  have hlt : m.start.offset < (Cursor.past text (i + 1)).position.offset := by
    rw [hstart, hoffset]
    exact hbefore
  have hprevious := Cursor.previous_past (Nat.zero_lt_of_lt hbefore) (List.getElem?_eq_some_iff.1 hc).1
  have haccept := hguarded.accept (c := c) hlt
  rw [hprevious] at haccept
  cases hnext : b.2.next? escape stop text[i - 1]? c with
  | none =>
    rw [hnext] at haccept
    exact haccept
  | some g =>
    rw [hnext] at haccept
    exact ⟨hrule, haccept, hstart, Nat.lt_succ_of_lt hbefore⟩

end OpenMatch.Guards

namespace Escapable

variable [LawfulCursor κ] {rules : List (TokenRule κ)} {k : Nat} {start escape stop : Char}

theorem of_pair {tag simple : TokenRule κ} (htag : tag.IsEscapable start escape stop)
    (hready : tag.Ready ∧ simple.Ready) (hsimple : simple.compound = false)
    (hstart : simple.startsWith start = false) (hopening : start ≠ escape)
    (hclosing : escape ≠ stop) : Escapable [tag, simple] 0 start escape stop where
  ready := List.forall_mem_cons.2 ⟨hready.1, List.forall_mem_singleton.2 hready.2⟩
  escapable := ⟨tag, rfl, htag⟩
  only
    | 0, _ => rfl
    | 1, ⟨r, hr, hcompound⟩ => by
      cases hr
      rw [hsimple] at hcompound
      cases hcompound
  simple r hr hnot := by
    rcases List.mem_pair.1 hr with rfl | rfl
    · rw [htag.spec.1] at hnot
      cases hnot
    · exact hstart
  start_ne_escape := hopening
  escape_ne_stop := hclosing

theorem isCompound (h : Escapable rules k start escape stop) : IsCompound rules k := by
  obtain ⟨r, hr, hescapable⟩ := h.escapable
  exact ⟨r, hr, hescapable.spec.1⟩

omit [LawfulCursor κ] in
theorem isEscapable (h : Escapable rules k start escape stop) {r : TokenRule κ} (hr : r ∈ rules)
    (hcompound : r.compound = true) : r.IsEscapable start escape stop := by
  obtain ⟨j, hj⟩ := List.mem_iff_getElem?.1 hr
  obtain rfl := h.only j ⟨r, hj, hcompound⟩
  obtain ⟨r', hr', hescapable⟩ := h.escapable
  cases hr'.symm.trans hj
  exact hescapable

theorem started_eq (h : Escapable rules k start escape stop) (c : Char) (pos : Position) :
    ∃ r : TokenRule κ, r.IsEscapable start escape stop ∧
      started c pos 0 rules = if c = start then [⟨pos, k, r.prototype.copy⟩] else [] := by
  obtain ⟨r, hr, hescapable⟩ := h.escapable
  obtain ⟨hcompound, hstarts, -⟩ := hescapable.spec
  refine ⟨r, hescapable, ?_⟩
  split
  · next hstart =>
    rw [started_eq_singleton hr hcompound (by rw [hstarts]; exact decide_eq_true hstart), Nat.zero_add]
    intro j s hs hcompound _
    exact h.only j ⟨s, hs, hcompound⟩
  · next hne =>
    apply started_eq_nil
    intro s hs hcompound
    rw [(h.isEscapable hs hcompound).spec.2.1]
    exact decide_eq_false hne

theorem apart (h : Escapable rules k start escape stop) (c : Char) : Apart rules c := by
  intro r hr hcompound hstart
  rw [(h.isEscapable hr hcompound).spec.2.1, decide_eq_true_eq] at hstart
  subst hstart
  exact h.simple

end Escapable

namespace Scanner

variable [LawfulCursor κ] {rules rules' : List (TokenRule κ)} {k : Nat} {start escape stop c : Char}
  {text : List Char} {i : Nat} {stack : List (Nat × Guard)} {opened : List (OpenMatch κ)}

theorem offerOpened_guards (rules : List (TokenRule κ)) (hc : text[i]? = some c)
    (h : List.Forall₂ (OpenMatch.Guards k escape stop text i) stack opened) :
    let o := offerOpened c rules opened (.past text (i + 1))
    let b := Guard.shut escape stop text i c stack
    o.error = none ∧ List.Forall₂ (OpenMatch.Guards k escape stop text (i + 1)) b.1 o.opened ∧
      (tokensOf k o.found.toList).map (fun t => (t.kind, t.span)) =
        b.2.toList.map (bracket (ruleName rules k) text) := by
  induction h with
  | nil => exact ⟨rfl, .nil, rfl⟩
  | @cons b m stack opened hm holder ih =>
    obtain ⟨j, g⟩ := b
    have hoffer := hm.offer hc
    rw [Guard.shut]
    cases hnext : g.next? escape stop text[i - 1]? c with
    | none =>
      rw [hnext] at hoffer
      have hoffset := Cursor.offset_position_past hc
      have hbefore := hm.before
      obtain ⟨hopened, herror, t, hfound, hkind, hspan⟩ :=
        offerOpened_of_span hoffer.1 hoffer.2 (by rw [hm.start_eq, hoffset]; exact hbefore) rules opened
      have hposition := Cursor.position_past (List.getElem?_eq_some_iff.1 hc).1
      simp only [hopened, herror, hfound]
      refine ⟨trivial, holder.imp fun _ _ h => h.mono (Nat.le_succ i), ?_⟩
      simp [tokensOf, hm.rule, bracket, hkind, hspan, hm.start_eq, hposition]
    | some g' =>
      rw [hnext] at hoffer
      rw [offerOpened_of_quiet hoffer.guarded.quiet]
      obtain ⟨herror, hopened, htokens⟩ := ih
      exact ⟨herror, .cons hoffer hopened, htokens⟩

theorem step_guards [LawfulCopy κ] {s : Scanner κ} (hrules : Escapable rules k start escape stop)
    (hs : s.Sound) (hbare : s.rules.map TokenRule.bare = rules.map TokenRule.bare)
    (hc : text[i]? = some c)
    (h : List.Forall₂ (OpenMatch.Guards k escape stop text i) stack s.opened)
    (hfree : simpleToken? rules text i = none) :
    let t := s.step c (.past text (i + 1))
    let b := Guard.nest start escape stop text i c stack
    t.result = .ok 0 ∧
      List.Forall₂ (OpenMatch.Guards k escape stop text (i + 1)) b.1 t.scanner.opened ∧
      (tokensOf k t.reports).map (fun t => (t.kind, t.span)) =
        b.2.toList.map (bracket (ruleName rules k) text) := by
  obtain ⟨rules', hbare', hopened, hreports, hresult⟩ := step_free hs hbare hc hfree
  obtain ⟨herror, hguards, htokens⟩ := offerOpened_guards rules' hc h
  obtain ⟨r, hescapable, hstarted⟩ :=
    hrules.started_eq c (Cursor.past text (i + 1)).position
  rw [ruleName_congr hbare'] at htokens
  intro t
  simp only [t, hopened, hreports, hresult, hstarted, Guard.nest]
  by_cases hstart : c = start
  · subst hstart
    have hposition := Cursor.position_past (List.getElem?_eq_some_iff.1 hc).1
    have hnew : (OpenMatch.offer ⟨(Cursor.past text (i + 1)).position, k, r.prototype.copy⟩ c
        (.past text (i + 1))).Guards k escape stop text (i + 1) (i, {}) :=
      ⟨rfl, hescapable.spec.2.2 _, hposition, Nat.lt_succ_self i⟩
    simp only [if_true, List.reverse_singleton, List.singleton_append]
    rw [offerOpened_of_quiet hnew.guarded.quiet]
    exact ⟨by simp [herror], .cons hnew hguards, htokens⟩
  · simp only [if_neg hstart, List.reverse_nil, List.nil_append]
    exact ⟨by simp [herror], hguards, htokens⟩

end Scanner

end Lexing
