import Lexing.Proofs.Chain.Pair
import Lexing.Proofs.Chars.Unescaped

namespace Lexing

/-- What a pending match knows of the characters in front of the next one. -/
structure Guard where
  /-- The run has begun anew, and nothing but escapes is taken since. -/
  bare : Bool := true
  escaped : Bool := false
  deriving DecidableEq, Repr

namespace Guard

def shields (escape : Char) (previous : Option Char) (g : Guard) : Bool :=
  g.escaped || (g.bare && previous = some escape)

def next? (escape stop : Char) (previous : Option Char) (c : Char) (g : Guard) : Option Guard :=
  if c = escape then some { g with escaped := true }
  else if g.shields escape previous then some {}
  else if c = stop then none
  else some ⟨false, false⟩

theorem of_next?_eq_none {escape stop c : Char} {previous : Option Char} {g : Guard}
    (h : g.next? escape stop previous c = none) :
    ¬g.shields escape previous = true ∧ c = stop := by
  rw [next?] at h
  split at h
  · cases h
  · split at h
    · cases h
    · next hshield =>
      split at h
      · next hstop => exact ⟨hshield, hstop⟩
      · cases h

end Guard

namespace CharMatcher

def guard (m : CharMatcher) : Guard := ⟨decide (m.progress.taken = []), m.escaped⟩

structure Guarded (escape stop : Char) (g : Guard) (m : CharMatcher) : Prop where
  rule : m.rule = .upToUnescaped (.singleton stop) (.singleton escape)
  waiting : m.progress.complete = false
  live : m.progress.failed = false
  guard_eq : m.guard = g

variable {escape stop : Char} {g : Guard} {m : CharMatcher}

theorem Guarded.accept_eq (h : m.Guarded escape stop g) (c : Char) (cur : Cursor) :
    m.accept c cur = ⟨true,
      if c = escape then { m with escaped := true }
      else if g.shields escape cur.previous then m.fresh
      else { m with progress := m.progress.pushAs (c = stop) c cur.position, escaped := false },
      cur⟩ := by
  obtain ⟨rule, waiting, live, rfl⟩ := h
  have hprevious : (CharSet.singleton escape).containsSome cur.previous =
      decide (cur.previous = some escape) := by
    cases cur.previous with
    | none => rfl
    | some d => simp [CharSet.containsSome]
  have hshields : m.shields (.singleton escape) cur.previous = m.guard.shields escape cur.previous := by
    rw [shields, hprevious]
    rfl
  simp only [accept_of_upToUnescaped rule waiting live, hshields, CharSet.contains_singleton,
    decide_eq_true_eq]

theorem Guarded.accept (h : m.Guarded escape stop g) (c : Char) (cur : Cursor) :
    match g.next? escape stop cur.previous c with
    | none => (m.accept c cur).state.progress.isComplete = true
    | some g' => (m.accept c cur).state.progress.isComplete = false ∧
      (m.accept c cur).state.Guarded escape stop g' := by
  rw [h.accept_eq, Guard.next?]
  obtain ⟨rule, waiting, live, rfl⟩ := h
  by_cases hescape : c = escape
  · simp only [if_pos hescape]
    exact ⟨by simp [Progress.isComplete, waiting], rule, waiting, live, rfl⟩
  · cases hshield : m.guard.shields escape cur.previous with
    | true =>
      simp only [if_neg hescape, if_true]
      exact ⟨rfl, rule, rfl, rfl, rfl⟩
    | false =>
      simp only [if_neg hescape]
      by_cases hstop : c = stop
      · simp [hstop, Progress.isComplete, Progress.pushAs, Progress.push, live]
      · simp only [hstop]
        exact ⟨rfl, rule, rfl, live, rfl⟩

end CharMatcher

variable {κ : Type} [CustomMatcher κ]

namespace Matcher

def Guarded (escape stop : Char) (p : Position) (g : Guard) (m : Matcher κ) : Prop :=
  ∃ name o e taken, m = closing name o (mk (.chars e)) (some ⟨p, p⟩) taken ∧
    e.Guarded escape stop g ∧ e.progress.Live ∧ e.progress.Since p.offset

variable {escape stop c : Char} {p : Position} {g : Guard} {m : Matcher κ} {cur : Cursor}

theorem Guarded.quiet (h : m.Guarded escape stop p g) :
    m.isComplete = false ∧ m.isFailed = false := by
  obtain ⟨name, o, e, taken, rfl, -⟩ := h
  exact ⟨rfl, rfl⟩

theorem Guarded.accept [LawfulCursor κ] (h : m.Guarded escape stop p g)
    (hp : p.offset < cur.position.offset) :
    match g.next? escape stop cur.previous c with
    | none => (m.accept c cur).state.isComplete = true ∧
      (m.accept c cur).state.span = some ⟨p, cur.position⟩
    | some g' => (m.accept c cur).state.Guarded escape stop p g' := by
  obtain ⟨name, o, e, taken, rfl, hguarded, hlive, hsince⟩ := h
  have htaken : ((Layer.chars e : Layer κ (Matcher κ)).accept Matcher.accept c cur).accepted = true :=
    congrArg Reply.accepted (hguarded.accept_eq c cur)
  obtain ⟨hclose, hgo⟩ := accept_closing_of_since name o taken rfl hlive hsince hp htaken
  have hmember := hguarded.accept c cur
  cases hnext : g.next? escape stop cur.previous c with
  | none =>
    rw [hnext] at hmember
    exact hclose hmember
  | some g' =>
    rw [hnext] at hmember
    obtain ⟨hopen, hguarded⟩ := hmember
    obtain ⟨heq, q, hq, hlive, hsince⟩ := hgo hopen
    cases hq
    exact ⟨name, o, _, _, heq, hguarded, hlive, hsince⟩

end Matcher

namespace TokenRule

def IsEscapable (start escape stop : Char) (r : TokenRule κ) : Prop :=
  ∃ name part, ofParts name true none [.boundedUnescaped part start escape stop] = .ok r

theorem IsEscapable.spec [LawfulCursor κ] {r : TokenRule κ} {start escape stop : Char}
    (h : r.IsEscapable start escape stop) : r.compound = true ∧
      (∀ c, r.startsWith c = decide (c = start)) ∧
      ∀ cur, (r.prototype.copy.accept start cur).state.Guarded escape stop cur.position {} := by
  obtain ⟨name, part, h⟩ := h
  have hplain : r.IsPlain := ⟨name, true, none, _, h, by simp [Part.isPlain]⟩
  have hcopy := hplain.copy_prototype
  obtain ⟨m, chars, hm, hchars, rfl⟩ := eq_of_ofParts_singleton h
  have heq : m = .opening part _ _ [] := Matcher.eq_of_chain hm
  have hopening : (Delimiter.char start).opening (part ++ "-start") =
      .ok (Matcher.chars (part ++ "-start") (.one (.singleton start)) : Matcher κ) := rfl
  have hchar : (Delimiter.char start).IsChar start := rfl
  have hopens := Matcher.opens_of_opening hchar hopening
  have hfirst := Matcher.firstChars_of_opening hchar hopening
  rw [heq, Matcher.firstChars_opening_chain, hfirst] at hchars
  cases hchars
  refine ⟨rfl, fun c => CharSet.contains_singleton start c, fun cur => ?_⟩
  rw [hcopy]
  change (m.accept start cur).state.Guarded escape stop cur.position {}
  rw [heq, Matcher.accept_opening_of_opens part _ hopens]
  · refine ⟨part, _, _, _, rfl, ⟨rfl, rfl, rfl, rfl⟩, Progress.live_empty, ?_⟩
    intro q hq
    cases hq
  · exact Matcher.Plain.span_first (.inr ⟨_, rfl, rfl⟩) (hopens cur).2

end TokenRule

end Lexing
