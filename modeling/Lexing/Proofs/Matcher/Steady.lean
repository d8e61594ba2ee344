import Lexing.Matcher.Fixed
import Lexing.Proofs.Matcher.Answers
import Lexing.Proofs.Matcher.Takes

/-!
Matchers that are complete only with a character that they take, and whose span then ends with this
character. The matchers for characters, words and alternatives are of this kind, as they note the
place of every character that completes them; of the user's own it is expected.
-/

namespace Lexing

def EndsAt (j : Nat) (span : Option Span) : Prop := ∃ s, span = some s ∧ s.stop.offset + 1 = j

def EndsBefore (j : Nat) (span : Option Span) : Prop := ∃ s, span = some s ∧ s.stop.offset < j

theorem EndsAt.endsBefore {j : Nat} {span : Option Span} (h : EndsAt j span) : EndsBefore j span := by
  obtain ⟨s, hs, hj⟩ := h
  exact ⟨s, hs, by omega⟩

namespace Progress

def Live (p : Progress) : Prop := p.failed = false ∧ (p.taken ≠ [] → p.start.isSome = true)

def Since (n : Nat) (p : Progress) : Prop := ∀ q, p.start = some q → n ≤ q.offset

structure Moves (pos : Position) (p : Progress) (accepted : Bool) (p' : Progress) : Prop where
  since : ∀ n, n ≤ pos.offset → p.Since n → p'.Since n
  first : p = {} → ∀ q, p'.start = some q → q = pos
  live : accepted = true → p.Live → p'.Live
  span_eq : accepted = true → p.Live → p'.isComplete = true → ∃ start, p'.span = some ⟨start, pos⟩
  refused : accepted = false → p'.isComplete = true → p' = p

theorem live_empty : ({} : Progress).Live := ⟨rfl, by simp⟩

namespace Moves

variable {pos : Position} {p p' : Progress}

theorem pushAs (complete : Bool) (c : Char) : p.Moves pos true (p.pushAs complete c pos) where
  since n hn h q hq := by
    simp only [Progress.pushAs, push] at hq
    split at hq
    · cases hq
      exact hn
    · exact h q hq
  first h q hq := by
    subst h
    exact (Option.some.inj hq).symm
  live _ h := by
    refine ⟨h.1, fun _ => ?_⟩
    simp only [Progress.pushAs, push]
    split
    · rfl
    · next hne => exact h.2 hne
  span_eq _ h hcomplete := by
    cases complete with
    | false => simp [isComplete, Progress.pushAs] at hcomplete
    | true =>
      simp only [span, Progress.pushAs, push, if_true]
      split
      · next hstop heq =>
        cases heq
        exact ⟨_, rfl⟩
      · next hnone =>
        split at hnone
        · exact absurd rfl (hnone _ _ rfl)
        · next hne =>
          obtain ⟨start, hstart⟩ := Option.isSome_iff_exists.1 (h.2 hne)
          exact absurd rfl (hnone start pos hstart)
  refused h := by cases h

theorem fail : p.Moves pos false p.fail where
  since n _ h := h
  first h q hq := by
    subst h
    cases hq
  live h := by cases h
  span_eq h := by cases h
  refused _ h := by simp [isComplete, Progress.fail] at h

theorem refuse : p.Moves pos false p where
  since n _ h := h
  first h q hq := by
    subst h
    cases hq
  live h := by cases h
  span_eq h := by cases h
  refused _ _ := rfl

theorem giveUp : p.Moves pos false { p with complete := false, failed := true } where
  since n _ h := h
  first h q hq := by
    subst h
    cases hq
  live h := by cases h
  span_eq h := by cases h
  refused _ h := by simp [isComplete] at h

theorem pass (h : p.isComplete = false) : p.Moves pos true p where
  since n _ h := h
  first h q hq := by
    subst h
    cases hq
  live _ := id
  span_eq _ _ hcomplete := by simp [h] at hcomplete
  refused h := by cases h

theorem restart : p.Moves pos true {} where
  since n _ _ := nofun
  first _ := nofun
  live _ _ := live_empty
  span_eq _ _ := nofun
  refused h := by cases h

theorem anew (h : ({} : Progress).Moves pos true p') : p.Moves pos true p' where
  since n hn _ := h.since n hn nofun
  first _ := h.first rfl
  live _ _ := h.live rfl live_empty
  span_eq _ _ := h.span_eq rfl live_empty
  refused h := by cases h

theorem shift {cur : Cursor} {c : Char} {skip : Nat} (complete : Bool) (htaken : p.taken ≠ []) :
    p.Moves cur.position true
      { complete
        failed := false
        start := p.start.map fun start => cur.positionAt (start.offset + skip)
        stop := if complete then some cur.position else none
        taken := (p.text.drop skip ++ [c]).reverse } where
  since n _ h q hq := by
    obtain ⟨start, hstart, rfl⟩ := Option.map_eq_some_iff.1 hq
    exact Nat.le_trans (h start hstart) (Nat.le_add_right ..)
  first h := absurd (congrArg Progress.taken h) htaken
  live _ hlive := ⟨rfl, fun _ => by simpa using hlive.2 htaken⟩
  span_eq _ hlive hcomplete := by
    obtain ⟨start, hstart⟩ := Option.isSome_iff_exists.1 (hlive.2 htaken)
    have hcomplete : complete = true := by simpa [isComplete] using hcomplete
    exact ⟨cur.positionAt (start.offset + skip), by simp [span, hstart, hcomplete]⟩
  refused h := by cases h

end Moves

theorem Answer.moves {c : Char} {cur : Cursor} {p p' : Progress} {accepted : Bool}
    (h : Answer c cur p accepted p') : p.Moves cur.position accepted p' := by
  induction h with
  | pushAs complete => exact .pushAs complete c
  | fail => exact .fail
  | giveUp => exact .giveUp
  | refuse => exact .refuse
  | pass h => exact .pass h
  | restart => exact .restart
  | anew _ ih => exact .anew ih
  | shift complete htaken _ => exact .shift complete htaken

end Progress

theorem Layer.moves_accept {κ α : Type} [CustomMatcher κ] [Member α] {offer : Offer α}
    (hstill : offer.Still) {l : Layer κ α} {p : Progress} (h : l.progress? = some p) (c : Char)
    (cur : Cursor) : ∃ p', (l.accept offer c cur).state.progress? = some p' ∧
      p.Moves cur.position (l.accept offer c cur).accepted p' := by
  obtain ⟨p', hp', hanswer⟩ := Layer.answer_accept hstill h c cur
  exact ⟨p', hp', hanswer.moves⟩

namespace Matcher

variable {κ : Type} [CustomMatcher κ]

def Ending (m : Matcher κ) : Prop := ∀ ⦃text i j s⦄, Match text m i j s → EndsAt j s.span

/-- A matcher that has taken all characters so far has not failed, and where it is complete its
span ends with the last of them. -/
structure Steady (m : Matcher κ) : Prop where
  unfailed : ∀ {text i j s}, Takes (fun _ => True) text m i j s → s.isFailed = false
  endsAt : ∀ {text i j s}, Takes (fun _ => True) text m i j s → s.isComplete = true →
    EndsAt j s.span

/-- A character that the matcher refuses makes it complete only with a span that has ended before,
and no other one is taken after that. On the way to this point the matcher was in `P`. -/
def Settles (P : Matcher κ → Prop) (m : Matcher κ) : Prop :=
  ∀ ⦃text i j s c⦄, Takes P text m i j s → s.Waiting → text[j]? = some c →
    (s.accept c (.past text (j + 1))).accepted = false →
    (s.accept c (.past text (j + 1))).state.isComplete = true →
    EndsBefore j (s.accept c (.past text (j + 1))).state.span ∧
      ∀ d cur, ((s.accept c (.past text (j + 1))).state.accept d cur).accepted = false

def Firm (P : Matcher κ → Prop) (m : Matcher κ) : Prop :=
  ∀ ⦃text i j s c⦄, Takes P text m i j s → s.Waiting → text[j]? = some c →
    (s.accept c (.past text (j + 1))).accepted = false →
    (s.accept c (.past text (j + 1))).state.Waiting

theorem Steady.waiting {m : Matcher κ} (h : m.Steady) : m.Waiting := by
  apply Bool.eq_false_iff.2
  intro hcomplete
  have hstart : Takes (fun _ => True) [] m 0 0 m := .start
  obtain ⟨s, -, hstop⟩ := h.endsAt hstart hcomplete
  cases hstop

theorem Steady.ending {m : Matcher κ} (h : m.Steady) : m.Ending := by
  intro text i j s hmatch
  cases hmatch with
  | mk htakes hc htaken hcomplete =>
    exact h.endsAt ((htakes.mono fun _ _ => trivial).take hc htaken trivial) hcomplete

theorem Firm.settles {P : Matcher κ → Prop} {m : Matcher κ} (h : m.Firm P) : m.Settles P := by
  intro text i j s c htakes hwaiting hc hrefused hcomplete
  rw [h htakes hwaiting hc hrefused] at hcomplete
  cases hcomplete

theorem Firm.mono {P Q : Matcher κ → Prop} (hPQ : ∀ s, P s → Q s) {m : Matcher κ} (h : m.Firm Q) :
    m.Firm P :=
  fun _ _ _ _ _ htakes => h (htakes.mono hPQ)

section Progress

variable [LawfulCursor κ] {l : Layer κ (Matcher κ)} {p : Progress} {text : List Char} {i j : Nat}
  {s : Matcher κ} {c : Char}

theorem progress_of_takes {P : Matcher κ → Prop} (h : l.progress? = some {})
    (htakes : Takes P text (mk l) i j s) : ∃ (l' : Layer κ (Matcher κ)) (p : Progress), s = mk l' ∧
      l'.progress? = some p ∧ p.Live ∧ (p.isComplete = true → EndsAt j p.span) := by
  induction htakes with
  | start => exact ⟨l, {}, rfl, h, Progress.live_empty, nofun⟩
  | @take j s c _ hc htaken _ ih =>
    obtain ⟨l', p, rfl, hp, hlive, -⟩ := ih
    obtain ⟨p', hp', hmoves⟩ := Layer.moves_accept cursor_accept hp c (.past text (j + 1))
    rw [accept_mk] at htaken ⊢
    refine ⟨_, p', rfl, hp', hmoves.live htaken hlive, ?_⟩
    intro hcomplete
    obtain ⟨start, hspan⟩ := hmoves.span_eq htaken hlive hcomplete
    exact ⟨_, hspan, congrArg (· + 1) (Cursor.offset_position_past hc)⟩

theorem progress_of_refused (h : l.progress? = some p) {cur : Cursor}
    (hrefused : ((mk l).accept c cur).accepted = false)
    (hcomplete : ((mk l).accept c cur).state.isComplete = true) :
    p.isComplete = true ∧ ((mk l).accept c cur).state.span = p.span := by
  obtain ⟨p', hp', hmoves⟩ := Layer.moves_accept cursor_accept h c cur
  rw [accept_mk] at hrefused hcomplete ⊢
  have hcomplete' : p'.isComplete = true := (Layer.isComplete_of_progress? hp').symm.trans hcomplete
  have hp : p' = p := hmoves.refused hrefused hcomplete'
  rw [hp] at hp' hcomplete'
  exact ⟨hcomplete', Layer.span_of_progress? hp'⟩

theorem steady_of_progress? (h : l.progress? = some {}) : (mk l).Steady where
  unfailed htakes := by
    obtain ⟨l', p, rfl, hp, hlive, -⟩ := progress_of_takes h htakes
    exact (Layer.isFailed_of_progress? hp).trans hlive.1
  endsAt htakes hcomplete := by
    obtain ⟨l', p, rfl, hp, -, hends⟩ := progress_of_takes h htakes
    have hspan : (mk l').span = p.span := Layer.span_of_progress? hp
    rw [hspan]
    exact hends ((Layer.isComplete_of_progress? hp).symm.trans hcomplete)

theorem firm_of_progress? {P : Matcher κ → Prop} (h : l.progress? = some {}) : (mk l).Firm P := by
  intro text i j s c htakes hwaiting _ hrefused
  obtain ⟨l', p, rfl, hp, -, -⟩ := progress_of_takes h htakes
  apply Bool.eq_false_iff.2
  intro hcomplete
  have hdone : (mk l').isComplete = true :=
    (Layer.isComplete_of_progress? hp).trans (progress_of_refused hp hrefused hcomplete).1
  rw [hwaiting] at hdone
  cases hdone

end Progress

end Matcher

/-- What is expected of the spans of the user's own matchers: those without progress are steady and
firm. -/
class LawfulSpan (κ : Type) [CustomMatcher κ] : Prop where
  steady : ∀ k : κ, (Matcher.mk (.custom (CustomMatcher.copy k))).Steady
  firm : ∀ k : κ, (Matcher.mk (.custom (CustomMatcher.copy k))).Firm fun _ => True

instance : LawfulSpan Empty where
  steady := nofun
  firm := nofun

namespace FixedMatcher

structure Underway (m : FixedMatcher) (j : Nat) : Prop where
  unspent : m.spent = false
  start : m.text ≠ [] → m.start.isSome = true
  stop : ∀ p, m.stop = some p → p.offset + 1 = j ∧ m.text.length = m.size ∧ m.text ≠ []

variable {m : FixedMatcher} {text : List Char} {i j : Nat} {c : Char}

theorem underway_fresh (m : FixedMatcher) (j : Nat) : m.fresh.Underway j :=
  ⟨rfl, fun h => absurd rfl h, nofun⟩

theorem Underway.accept (h : m.Underway j) (hc : text[j]? = some c)
    (htaken : (m.accept c (.past text (j + 1))).accepted = true) :
    (m.accept c (.past text (j + 1))).state.Underway (j + 1) := by
  rw [FixedMatcher.accept] at htaken ⊢
  split
  · next hdone =>
    rw [if_pos hdone] at htaken
    cases htaken
  · next hopen =>
    simp only [h.unspent, Bool.false_or, decide_eq_true_eq] at hopen
    constructor
    · exact h.unspent
    · intro _
      dsimp only
      split
      · rfl
      · next hne => exact h.start fun hnil => hne (by simp [hnil])
    · intro p hp
      dsimp only at hp ⊢
      split at hp
      · next hlast =>
        cases hp
        exact ⟨congrArg (· + 1) (Cursor.offset_position_past hc), by simpa using hlast, by simp⟩
      · exact absurd (h.stop p hp).2.1 hopen

theorem underway_of_takes {P : Matcher FixedMatcher → Prop} {s : Matcher FixedMatcher}
    (h : Matcher.Takes P text (.mk (.custom m.fresh)) i j s) :
    ∃ n : FixedMatcher, s = .mk (.custom n) ∧ n.Underway j := by
  induction h with
  | start => exact ⟨_, rfl, underway_fresh m i⟩
  | @take j s c _ hc htaken _ ih =>
    obtain ⟨n, rfl, hn⟩ := ih
    rw [Matcher.accept_mk] at htaken ⊢
    exact ⟨_, rfl, hn.accept hc htaken⟩

theorem failed_of_refused {cur : Cursor} (h : (m.accept c cur).accepted = false) :
    (m.accept c cur).state.spent = true := by
  rw [accept] at h ⊢
  split
  · rfl
  · next hopen =>
    rw [if_neg hopen] at h
    cases h

theorem waiting_of_refused {cur : Cursor}
    (h : ((Matcher.mk (.custom m)).accept c cur).accepted = false) :
    ((Matcher.mk (.custom m)).accept c cur).state.Waiting := by
  rw [Matcher.accept_mk] at h ⊢
  have hspent : (m.accept c cur).state.spent = true := failed_of_refused h
  change (!(m.accept c cur).state.spent && (m.accept c cur).state.stop.isSome) = false
  rw [hspent]
  rfl

end FixedMatcher

instance : LawfulSpan FixedMatcher where
  steady m :=
    { unfailed := fun h => by
        obtain ⟨n, rfl, hn⟩ := FixedMatcher.underway_of_takes h
        exact hn.unspent
      endsAt := fun h hcomplete => by
        obtain ⟨n, rfl, hn⟩ := FixedMatcher.underway_of_takes h
        have hcomplete : (!n.spent && n.stop.isSome) = true := hcomplete
        rw [Bool.and_eq_true, Option.isSome_iff_exists] at hcomplete
        obtain ⟨-, stop, hstop⟩ := hcomplete
        obtain ⟨hj, -, hne⟩ := hn.stop stop hstop
        obtain ⟨start, hstart⟩ := Option.isSome_iff_exists.1 (hn.start hne)
        refine ⟨⟨start, stop⟩, ?_, hj⟩
        change n.span = _
        simp [FixedMatcher.span, hstart, hstop] }
  firm m := by
    intro text i j s c h _ _ hrefused
    obtain ⟨n, rfl, -⟩ := FixedMatcher.underway_of_takes h
    exact FixedMatcher.waiting_of_refused hrefused

end Lexing
