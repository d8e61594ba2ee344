import Lexing.Proofs.Matcher.Cursor

namespace Lexing

namespace Progress

/-- What may become of the progress `p` when the character `c` is offered, and whether it is taken. -/
inductive Answer (c : Char) (cur : Cursor) : Progress → Bool → Progress → Prop
  | pushAs {p : Progress} (complete : Bool) : Answer c cur p true (p.pushAs complete c cur.position)
  | fail {p : Progress} : Answer c cur p false p.fail
  | giveUp {p : Progress} : Answer c cur p false { p with complete := false, failed := true }
  | refuse {p : Progress} : Answer c cur p false p
  /-- A character that leaves no trace. -/
  | pass {p : Progress} : p.isComplete = false → Answer c cur p true p
  | restart {p : Progress} : Answer c cur p true {}
  /-- What was taken before does not matter to a match that begins with the character. -/
  | anew {p p' : Progress} : Answer c cur {} true p' → Answer c cur p true p'
  /-- A match that is moved along keeps its start at a later place. -/
  | shift {p : Progress} {skip : Nat} (complete : Bool) : p.taken ≠ [] → skip ≤ p.taken.length →
      Answer c cur p true
        { complete
          failed := false
          start := p.start.map fun start => cur.positionAt (start.offset + skip)
          stop := if complete then some cur.position else none
          taken := (p.text.drop skip ++ [c]).reverse }

end Progress

namespace CharMatcher

variable {p : Progress} {cur : Cursor}

theorem answer_acceptOne (set : CharSet) (c : Char) :
    p.Answer c cur (acceptOne set p c cur).1 (acceptOne set p c cur).2 := by
  rw [acceptOne]
  split
  · exact .fail
  · exact .pushAs true

theorem answer_acceptRun (first body : CharSet) (c : Char) :
    p.Answer c cur (acceptRun first body p c cur).1 (acceptRun first body p c cur).2 := by
  rw [acceptRun]
  generalize (if p.taken = [] then first else body) = set
  split
  · exact .fail
  · split
    · exact .refuse
    · exact .pushAs _

theorem answer_acceptIdentifier (first body : CharSet) (separator c : Char) :
    p.Answer c cur (acceptIdentifier first body separator p c cur).1
      (acceptIdentifier first body separator p c cur).2 := by
  simp only [acceptIdentifier]
  generalize (if p.taken = [] then first.contains c
    else body.contains c || decide (c = separator) && body.containsSome cur.peek) = fits
  split
  · exact .fail
  · split
    · exact .refuse
    · exact .pushAs _

theorem answer_acceptUpTo (set : CharSet) (c : Char) :
    p.Answer c cur (acceptUpTo set p c cur).1 (acceptUpTo set p c cur).2 := by
  rw [acceptUpTo]
  split
  · exact .refuse
  · split
    · exact .refuse
    · exact .pushAs _

theorem answer_acceptUpToUnescaped (set escapes : CharSet) (escaped : Bool) (c : Char) :
    p.Answer c cur (acceptUpToUnescaped set escapes p escaped c cur).1
      (acceptUpToUnescaped set escapes p escaped c cur).2.1 := by
  rw [acceptUpToUnescaped]
  split
  · exact answer_acceptUpTo set c
  · next hopen =>
    split
    · exact .pass (by simp_all [Progress.isComplete])
    · split
      · exact .restart
      · exact answer_acceptUpTo set c

theorem answer_accept (m : CharMatcher) (c : Char) :
    m.progress.Answer c cur (m.accept c cur).accepted (m.accept c cur).state.progress := by
  rw [accept]
  cases m.rule with
  | one set => exact answer_acceptOne set c
  | run first body => exact answer_acceptRun first body c
  | upTo set => exact answer_acceptUpTo set c
  | upToUnescaped set escapes => exact answer_acceptUpToUnescaped set escapes m.escaped c
  | identifier first body separator => exact answer_acceptIdentifier first body separator c

end CharMatcher

namespace WordMatcher

variable {m : WordMatcher} {cur : Cursor}

theorem answer_acceptWord (c : Char) :
    m.progress.Answer c cur (m.acceptWord c cur).1 (m.acceptWord c cur).2.progress := by
  rw [acceptWord]
  dsimp only
  split
  · exact .fail
  · split
    · exact .fail
    · exact .pushAs _

theorem answer_shift? {s : WordMatcher} {c : Char} (h : m.shift? c cur = some s) :
    m.progress.Answer c cur true s.progress := by
  obtain ⟨skip, hmem, hskip⟩ := List.exists_of_findSome?_eq_some h
  have htaken : m.progress.taken.length ≠ 0 := by
    intro hnil
    simp [hnil] at hmem
  rw [if_neg htaken, List.mem_range'_1] at hmem
  simp only [shiftBy?] at hskip
  split at hskip
  · cases hskip
  · cases hskip
    have hle : skip ≤ m.progress.taken.length := by split at hmem <;> omega
    have hanswer : m.progress.Answer c cur true _ :=
      .shift (decide (((m.replay (m.progress.text.drop skip)).update c
        (m.progress.text.drop skip).length).1 = .whole)) (by simpa using htaken) hle
    simpa using hanswer

theorem answer_getD_shift? {s : WordMatcher} {c : Char}
    (h : m.progress.Answer c cur true s.progress) :
    m.progress.Answer c cur true ((m.shift? c cur).getD s).progress := by
  cases hs : m.shift? c cur with
  | none => exact h
  | some t => exact answer_shift? hs

theorem answer_acceptOnward (c : Char) :
    m.progress.Answer c cur true (m.acceptOnward c cur).progress := by
  rw [acceptOnward]
  dsimp only
  split
  · exact answer_getD_shift? (m := (m.update c m.progress.taken.length).2) .restart
  · exact .pushAs _

theorem answer_acceptUpTo (c : Char) :
    m.progress.Answer c cur (m.acceptUpTo c cur).1 (m.acceptUpTo c cur).2.progress := by
  rw [acceptUpTo]
  split
  · exact .refuse
  · split
    · exact answer_getD_shift? (.anew (answer_acceptOnward (m := m.reset) c))
    · exact answer_acceptOnward c

theorem answer_accept (m : WordMatcher) (c : Char) :
    m.progress.Answer c cur (m.accept c cur).accepted (m.accept c cur).state.progress := by
  rw [accept]
  cases m.rule with
  | upTo => exact answer_acceptUpTo c
  | shortest => exact answer_acceptWord c
  | longest => exact answer_acceptWord c

end WordMatcher

namespace Choice

variable {α : Type} [Member α] {offer : Offer α} {cur : Cursor}

theorem answer_acceptAny (h : offer.Still) (m : Choice α) (c : Char) :
    m.progress.Answer c cur (m.acceptAny offer c cur).accepted
      (m.acceptAny offer c cur).state.progress := by
  simp only [acceptAny]
  split
  · exact .giveUp
  · rw [cursor_update h]
    exact .pushAs _

theorem answer_acceptSeek (h : offer.Still) (m : Choice α) (c : Char) :
    m.progress.Answer c cur true (m.acceptSeek offer c cur).state.progress := by
  simp only [acceptSeek, cursor_update h]
  split
  · simp only [cursor_update h]
    split
    · exact .restart
    · exact .anew (.pushAs _)
  · split
    · exact .restart
    · exact .pushAs _

theorem answer_accept (h : offer.Still) (m : Choice α) (c : Char) :
    m.progress.Answer c cur (m.accept offer c cur).accepted
      (m.accept offer c cur).state.progress := by
  rw [accept]
  split
  · exact .refuse
  · cases m.rule with
    | any => exact answer_acceptAny h m c
    | seek =>
      dsimp only
      split
      · exact .fail
      · exact answer_acceptSeek h m c

end Choice

namespace Layer

variable {κ α : Type}

def progress? : Layer κ α → Option Progress
  | .chars m => some m.progress
  | .words m => some m.progress
  | .choice m => some m.progress
  | .chain _ => none
  | .custom _ => none

variable [CustomMatcher κ] {l : Layer κ α} {p : Progress}

theorem isComplete_of_progress? (h : l.progress? = some p) : l.isComplete = p.isComplete := by
  cases l <;> cases h <;> rfl

theorem isFailed_of_progress? (h : l.progress? = some p) : l.isFailed = p.failed := by
  cases l <;> cases h <;> rfl

theorem span_of_progress? (h : l.progress? = some p) : l.span = p.span := by
  cases l <;> cases h <;> rfl

theorem answer_accept [Member α] {offer : Offer α} (hstill : offer.Still)
    (h : l.progress? = some p) (c : Char) (cur : Cursor) :
    ∃ p', (l.accept offer c cur).state.progress? = some p' ∧
      p.Answer c cur (l.accept offer c cur).accepted p' := by
  cases l with
  | chars m =>
    cases h
    exact ⟨_, rfl, m.answer_accept c⟩
  | words m =>
    cases h
    exact ⟨_, rfl, m.answer_accept c⟩
  | choice m =>
    cases h
    exact ⟨_, rfl, m.answer_accept hstill c⟩
  | chain m => cases h
  | custom k => cases h

end Layer

end Lexing
