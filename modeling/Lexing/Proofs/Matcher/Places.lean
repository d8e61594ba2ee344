import Lexing.Proofs.Matcher.Copy
import Lexing.Proofs.Matcher.Steady

namespace Lexing

/-- A span over characters of the text: from offset `lo` on, and before `n`. -/
structure Span.Lies (s : Span) (text : List Char) (lo n : Nat) : Prop where
  start_eq : s.start = (Cursor.ofList text).positionAt s.start.offset
  stop_eq : s.stop = (Cursor.ofList text).positionAt s.stop.offset
  lo_le : lo ≤ s.start.offset
  start_le : s.start.offset ≤ s.stop.offset
  stop_lt : s.stop.offset < n

namespace Span.Lies

variable {s t : Span} {text : List Char} {lo n k : Nat}

theorem mono (h : s.Lies text lo n) (hnk : n ≤ k) : s.Lies text lo k :=
  ⟨h.start_eq, h.stop_eq, h.lo_le, h.start_le, Nat.lt_of_lt_of_le h.stop_lt hnk⟩

theorem union (hs : s.Lies text lo n) (ht : t.Lies text lo n) : (s.union t).Lies text lo n := by
  obtain ⟨hs₁, hs₂, hs₃, hs₄, hs₅⟩ := hs
  obtain ⟨ht₁, ht₂, ht₃, ht₄, ht₅⟩ := ht
  rw [Span.union]
  constructor
  · dsimp only
    split
    · exact ht₁
    · exact hs₁
  · dsimp only
    split
    · exact ht₂
    · exact hs₂
  · dsimp only
    split
    · exact ht₃
    · exact hs₃
  · dsimp only
    split <;> split <;> omega
  · dsimp only
    split
    · exact ht₅
    · exact hs₅

theorem merge {s : Option Span} (hs : ∀ u, s = some u → u.Lies text lo n) (ht : t.Lies text lo n) :
    (Span.merge s t).Lies text lo n := by
  cases s with
  | none => exact ht
  | some u => exact (hs u rfl).union ht

end Span.Lies

namespace Progress

variable {text : List Char} {lo n i : Nat} {p p' : Progress} {c : Char}

structure Placed (text : List Char) (lo n : Nat) (p : Progress) : Prop where
  start : ∀ q, p.start = some q → q = (Cursor.ofList text).positionAt q.offset ∧ lo ≤ q.offset ∧
    q.offset + p.taken.length ≤ n
  stop : ∀ q, p.stop = some q → q = (Cursor.ofList text).positionAt q.offset ∧ q.offset < n ∧
    ∀ s, p.start = some s → s.offset ≤ q.offset
  unset : p.taken = [] → p.start = none ∧ p.stop = none

theorem placed_empty (text : List Char) (lo n : Nat) : ({} : Progress).Placed text lo n :=
  ⟨nofun, nofun, fun _ => ⟨rfl, rfl⟩⟩

namespace Placed

theorem mono (h : p.Placed text lo n) (hni : n ≤ i) : p.Placed text lo i where
  start q hq := by
    obtain ⟨heq, hlo, hle⟩ := h.start q hq
    exact ⟨heq, hlo, Nat.le_trans hle hni⟩
  stop q hq := by
    obtain ⟨heq, hlt, hstart⟩ := h.stop q hq
    exact ⟨heq, Nat.lt_of_lt_of_le hlt hni, hstart⟩
  unset := h.unset

theorem of_eq (h : p.Placed text lo n) (hstart : p'.start = p.start) (hstop : p'.stop = p.stop)
    (htaken : p'.taken = p.taken) : p'.Placed text lo n := by
  obtain ⟨h₁, h₂, h₃⟩ := h
  rw [← hstart, ← htaken] at h₁
  rw [← hstart, ← hstop] at h₂
  rw [← hstart, ← hstop, ← htaken] at h₃
  exact ⟨h₁, h₂, h₃⟩

theorem lies (h : p.Placed text lo n) {s : Span} (hs : p.span = some s) : s.Lies text lo n := by
  rw [span] at hs
  split at hs
  · next start stop hstart hstop =>
    cases hs
    obtain ⟨heq, hlo, -⟩ := h.start start hstart
    obtain ⟨heq', hlt, hle⟩ := h.stop stop hstop
    exact ⟨heq, heq', hlo, hle start hstart, hlt⟩
  · cases hs

theorem pushAs (h : p.Placed text lo n) (hlo : lo ≤ i) (hni : n ≤ i) (hc : text[i]? = some c)
    (complete : Bool) :
    (p.pushAs complete c (Cursor.past text (i + 1)).position).Placed text lo (i + 1) := by
  have hpos := Cursor.position_past (List.getElem?_eq_some_iff.1 hc).1
  have hoffset := Cursor.offset_position_past hc
  generalize (Cursor.past text (i + 1)).position = pos at hpos hoffset
  have hpos' : pos = (Cursor.ofList text).positionAt pos.offset := by rw [hoffset, hpos]
  by_cases htaken : p.taken = []
  · obtain ⟨-, hstop⟩ := h.unset htaken
    simp only [Progress.pushAs, push, htaken, hstop, if_true]
    constructor
    · intro q hq
      cases hq
      exact ⟨hpos', hoffset ▸ hlo, by simp [hoffset]⟩
    · intro q hq
      split at hq
      · cases hq
        refine ⟨hpos', by omega, fun s hs => ?_⟩
        cases hs
        exact Nat.le_refl _
      · cases hq
    · intro hnil
      cases hnil
  · simp only [Progress.pushAs, push, if_neg htaken]
    constructor
    · intro q hq
      obtain ⟨heq, hlo, hle⟩ := h.start q hq
      exact ⟨heq, hlo, by simp only [List.length_cons]; omega⟩
    · intro q hq
      split at hq
      · cases hq
        refine ⟨hpos', by omega, fun s hs => ?_⟩
        have hle := (h.start s hs).2.2
        omega
      · obtain ⟨heq, hlt, hstart⟩ := h.stop q hq
        exact ⟨heq, by omega, hstart⟩
    · intro hnil
      cases hnil

theorem shift (h : p.Placed text lo n) (hni : n ≤ i) (hc : text[i]? = some c) {skip : Nat}
    (complete : Bool) (hskip : skip ≤ p.taken.length) :
    Placed text lo (i + 1)
      { complete
        failed := false
        start := p.start.map fun start => (Cursor.past text (i + 1)).positionAt (start.offset + skip)
        stop := if complete then some (Cursor.past text (i + 1)).position else none
        taken := (p.text.drop skip ++ [c]).reverse } where
  start q hq := by
    obtain ⟨start, hstart, rfl⟩ := Option.map_eq_some_iff.1 hq
    obtain ⟨-, hlo, hle⟩ := h.start start hstart
    refine ⟨rfl, Nat.le_trans hlo (Nat.le_add_right ..), ?_⟩
    simp only [Cursor.positionAt, Progress.text, List.length_reverse, List.length_append,
      List.length_drop, List.length_singleton]
    omega
  stop q hq := by
    dsimp only at hq
    split at hq
    · cases hq
      have hoffset := Cursor.offset_position_past hc
      refine ⟨?_, by omega, fun s hs => ?_⟩
      · rw [hoffset]
        exact Cursor.position_past (List.getElem?_eq_some_iff.1 hc).1
      · obtain ⟨start, hstart, rfl⟩ := Option.map_eq_some_iff.1 hs
        have hle := (h.start start hstart).2.2
        simp only [Cursor.positionAt]
        omega
    · cases hq
  unset h := by simp at h

theorem answer {accepted : Bool} (h : p.Placed text lo n) (hlo : lo ≤ i) (hni : n ≤ i)
    (hc : text[i]? = some c) (hp' : p.Answer c (.past text (i + 1)) accepted p') :
    p'.Placed text lo (i + 1) := by
  have hmono := h.mono (Nat.le_succ_of_le hni)
  induction hp' with
  | pushAs complete => exact h.pushAs hlo hni hc complete
  | fail => exact hmono.of_eq rfl rfl rfl
  | giveUp => exact hmono.of_eq rfl rfl rfl
  | refuse => exact hmono
  | pass => exact hmono
  | restart => exact placed_empty ..
  | anew _ ih => exact ih (placed_empty ..) (placed_empty ..)
  | shift complete _ hskip => exact h.shift hni hc complete hskip

end Placed

end Progress

namespace Matcher

variable {κ : Type} [CustomMatcher κ] {text : List Char} {lo n i : Nat} {m s : Matcher κ} {c : Char}

/-- The matcher `m` has become `s` with some of the characters from offset `lo` on and before `n`,
whether it has taken them or not. -/
inductive Served (text : List Char) (lo : Nat) (m : Matcher κ) : Nat → Matcher κ → Prop
  | start {n : Nat} : lo ≤ n → Served text lo m n m
  | offer {n i : Nat} {s : Matcher κ} {c : Char} : Served text lo m i s → text[i]? = some c → i < n →
      Served text lo m n (s.accept c (.past text (i + 1))).state

theorem Served.mono (h : Served text lo m n s) (hni : n ≤ i) : Served text lo m i s := by
  cases h with
  | start hlo => exact .start (Nat.le_trans hlo hni)
  | offer h hc hlt => exact .offer h hc (Nat.lt_of_lt_of_le hlt hni)

theorem Served.le (h : Served text lo m n s) : lo ≤ n := by
  induction h with
  | start hlo => exact hlo
  | offer _ _ hlt ih => exact Nat.le_trans ih (Nat.le_of_lt hlt)

theorem Served.next (h : Served text lo m i s) (hc : text[i]? = some c) :
    Served text lo m (i + 1) (s.accept c (.past text (i + 1))).state :=
  .offer h hc (Nat.lt_succ_self i)

def Orderly (m : Matcher κ) : Prop :=
  ∀ ⦃text lo n s⦄, Served text lo m n s → ∀ span, s.span = some span → span.Lies text lo n

theorem orderly_of_progress? [LawfulCursor κ] {l : Layer κ (Matcher κ)} (h : l.progress? = some {}) :
    (mk l).Orderly := by
  intro text lo n s hserved span hspan
  obtain ⟨l', p, rfl, hp, hplaced⟩ : ∃ (l' : Layer κ (Matcher κ)) (p : Progress), s = mk l' ∧
      l'.progress? = some p ∧ p.Placed text lo n := by
    clear hspan
    induction hserved with
    | start => exact ⟨l, {}, rfl, h, Progress.placed_empty ..⟩
    | offer hserved hc hlt ih =>
      obtain ⟨l', p, rfl, hp, hplaced⟩ := ih
      obtain ⟨p', hp', hanswer⟩ := Layer.answer_accept cursor_accept hp _ (.past _ _)
      rw [accept_mk]
      have hplaced' := hplaced.answer hserved.le (Nat.le_refl _) hc hanswer
      exact ⟨_, p', rfl, hp', hplaced'.mono hlt⟩
  exact hplaced.lies ((Layer.span_of_progress? hp).symm.trans hspan)

end Matcher

/-- What is expected of the places that the user's own matchers note, and of one that is complete at
a character that it refuses: it refuses the character as often as it is offered. -/
class LawfulPlaces (κ : Type) [CustomMatcher κ] : Prop where
  orderly : ∀ k : κ, (Matcher.mk (.custom (CustomMatcher.copy k))).Orderly
  accept_again : ∀ (k : κ) (c : Char) (cur : Cursor), (CustomMatcher.accept k c cur).accepted = false →
    CustomMatcher.isComplete (CustomMatcher.accept k c cur).state = true →
    (CustomMatcher.accept (CustomMatcher.accept k c cur).state c cur).accepted = false

instance : LawfulPlaces Empty where
  orderly := nofun
  accept_again := nofun

namespace FixedMatcher

def progress (m : FixedMatcher) : Progress where
  failed := m.spent
  start := m.start
  stop := m.stop
  taken := m.text.reverse

theorem placed_accept {m : FixedMatcher} {text : List Char} {lo n i : Nat} {c : Char}
    (h : m.progress.Placed text lo n) (hlo : lo ≤ i) (hni : n ≤ i) (hc : text[i]? = some c) :
    (m.accept c (.past text (i + 1))).state.progress.Placed text lo (i + 1) := by
  rw [accept]
  split
  · exact (h.mono (Nat.le_succ_of_le hni)).of_eq rfl rfl rfl
  · apply (h.pushAs hlo hni hc (decide (m.text.length + 1 = m.size))).of_eq
    · simp [progress, Progress.pushAs, Progress.push]
    · simp [progress, Progress.pushAs]
    · simp [progress, Progress.pushAs, Progress.push]

end FixedMatcher

instance : LawfulPlaces FixedMatcher where
  orderly m := by
    intro text lo n s hserved span hspan
    obtain ⟨m, rfl, hplaced⟩ : ∃ m : FixedMatcher, s = .mk (.custom m) ∧
        m.progress.Placed text lo n := by
      clear hspan
      induction hserved with
      | start => exact ⟨_, rfl, Progress.placed_empty ..⟩
      | offer hserved hc hlt ih =>
        obtain ⟨m, rfl, hplaced⟩ := ih
        rw [Matcher.accept_mk]
        exact ⟨_, rfl, (m.placed_accept hplaced hserved.le (Nat.le_refl _) hc).mono hlt⟩
    exact hplaced.lies hspan
  accept_again m c cur hrefused hcomplete := by
    have hcomplete : (!(m.accept c cur).state.spent && (m.accept c cur).state.stop.isSome) = true :=
      hcomplete
    rw [FixedMatcher.failed_of_refused hrefused] at hcomplete
    cases hcomplete

end Lexing
