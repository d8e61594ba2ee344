import Lexing.Proofs.Chain.FirstGroup
import Lexing.Proofs.Matcher.Steady

namespace Lexing

namespace CharMatcher

theorem push_of_taken {m : CharMatcher} (h : ∀ set escapes, m.rule ≠ .upToUnescaped set escapes)
    {c : Char} {cur : Cursor} (htaken : (m.accept c cur).accepted = true) :
    (m.accept c cur).state.rule = m.rule ∧
      ∃ complete, (m.accept c cur).state.progress = m.progress.pushAs complete c cur.position := by
  rw [accept] at htaken ⊢
  cases hrule : m.rule with
  | one set =>
    simp only [hrule, acceptOne] at htaken ⊢
    split at htaken
    · cases htaken
    · next hfits => exact ⟨trivial, true, by rw [if_neg hfits]⟩
  | run first body =>
    simp only [hrule, acceptRun] at htaken ⊢
    generalize (if m.progress.taken = [] then first else body) = set at htaken ⊢
    split at htaken
    · cases htaken
    · next hopen =>
      split at htaken
      · cases htaken
      · next hfits => exact ⟨trivial, _, by rw [if_neg hopen, if_neg hfits]⟩
  | upTo set =>
    simp only [hrule, acceptUpTo] at htaken ⊢
    split at htaken
    · cases htaken
    · next hlive =>
      split at htaken
      · cases htaken
      · next hfits => exact ⟨trivial, _, by rw [if_neg hlive, if_neg hfits]⟩
  | upToUnescaped set escapes => exact absurd hrule (h set escapes)
  | identifier first body separator =>
    simp only [hrule, acceptIdentifier] at htaken ⊢
    generalize (if m.progress.taken = [] then first.contains c
      else body.contains c || decide (c = separator) && body.containsSome cur.peek) = fits at htaken ⊢
    split at htaken
    · cases htaken
    · next hopen =>
      split at htaken
      · cases htaken
      · next hfits => exact ⟨trivial, _, by rw [if_neg hopen, if_neg hfits]⟩

end CharMatcher

theorem WordMatcher.push_of_taken {m : WordMatcher} (h : m.rule ≠ .upTo) {c : Char} {cur : Cursor}
    (htaken : (m.accept c cur).accepted = true) : (m.accept c cur).state.rule = m.rule ∧
      ∃ complete, (m.accept c cur).state.progress = m.progress.pushAs complete c cur.position := by
  rw [accept_eq_acceptWord h] at htaken ⊢
  simp only [acceptWord] at htaken ⊢
  split at htaken
  · cases htaken
  · next hfits =>
    rw [if_neg hfits]
    split at htaken
    · cases htaken
    · next hfound =>
      rw [if_neg hfound]
      exact ⟨rfl, _, rfl⟩

theorem Choice.push_of_taken {α : Type} [Member α] {offer : Offer α} (hstill : offer.Still)
    {m : Choice α} (h : m.rule = .any) {c : Char} {cur : Cursor}
    (htaken : (m.accept offer c cur).accepted = true) :
    (m.accept offer c cur).state.rule = .any ∧ ∃ complete,
      (m.accept offer c cur).state.progress = m.progress.pushAs complete c cur.position := by
  simp only [accept, h, acceptAny, cursor_update hstill] at htaken ⊢
  split at htaken
  · cases htaken
  · next hlive =>
    rw [if_neg hlive]
    split at htaken
    · cases htaken
    · next hmember =>
      rw [if_neg hmember]
      exact ⟨h, _, rfl⟩

theorem Chain.taken_of_acceptInOrder {α : Type} [Member α] {offer : Offer α} {m : Chain α} {c : Char}
    {cur : Cursor} (htaken : (m.acceptInOrder offer c cur).accepted = true) :
    (m.acceptInOrder offer c cur).state.taken = c :: m.taken := by
  have haccepted : (m.offerCurrent offer c cur).accepted = true := htaken
  simp only [acceptInOrder, finish, haccepted, if_true, List.cons.injEq, true_and]
  split
  · exact congrArg Prod.fst ((kept_moveOn _).trans ((kept_commit _).trans (kept_offerCurrent m c cur)))
  · exact congrArg Prod.fst (kept_offerCurrent m c cur)

namespace Layer

variable {κ α : Type}

def Verbatim : Layer κ α → Prop
  | .chars m => ∀ set escapes, m.rule ≠ .upToUnescaped set escapes
  | .words m => m.rule ≠ .upTo
  | .choice m => m.rule = .any
  | .chain m => m.rule = .inOrder
  | .custom _ => False

variable [CustomMatcher κ] [Member α] {offer : Offer α} {l : Layer κ α} {c : Char} {cur : Cursor}

theorem Verbatim.accept (hstill : offer.Still) (h : l.Verbatim)
    (htaken : (l.accept offer c cur).accepted = true) :
    (l.accept offer c cur).state.Verbatim ∧ (l.accept offer c cur).state.text = l.text ++ [c] ∧
      ∀ p, l.progress? = some p → ∃ complete,
        (l.accept offer c cur).state.progress? = some (p.pushAs complete c cur.position) := by
  cases l with
  | chars m =>
    obtain ⟨hrule, complete, hpush⟩ := CharMatcher.push_of_taken h htaken
    refine ⟨fun set escapes => ?_, ?_, ?_⟩
    · exact hrule ▸ h set escapes
    · exact (congrArg Progress.text hpush).trans (Progress.text_pushAs ..)
    · rintro p ⟨⟩
      exact ⟨complete, congrArg some hpush⟩
  | words m =>
    obtain ⟨hrule, complete, hpush⟩ := WordMatcher.push_of_taken h htaken
    refine ⟨fun hupTo => h (hrule.symm.trans hupTo), ?_, ?_⟩
    · exact (congrArg Progress.text hpush).trans (Progress.text_pushAs ..)
    · rintro p ⟨⟩
      exact ⟨complete, congrArg some hpush⟩
  | choice m =>
    obtain ⟨hrule, complete, hpush⟩ := Choice.push_of_taken hstill h htaken
    refine ⟨hrule, ?_, ?_⟩
    · exact (congrArg Progress.text hpush).trans (Progress.text_pushAs ..)
    · rintro p ⟨⟩
      exact ⟨complete, congrArg some hpush⟩
  | chain m =>
    have htaken : (m.accept offer c cur).accepted = true := htaken
    have hactive := Chain.active_of_taken htaken
    have hrule : m.rule = .inOrder := h
    have heq : m.accept offer c cur = m.acceptInOrder offer c cur := by
      simp only [Chain.accept, hactive, hrule, Bool.not_true, Bool.false_eq_true, if_false]
    have hpush := Chain.taken_of_acceptInOrder (heq ▸ htaken)
    refine ⟨(Chain.rule_accept m c cur).trans h, ?_, ?_⟩
    · change (m.accept offer c cur).state.taken.reverse = m.taken.reverse ++ [c]
      rw [heq, hpush, List.reverse_cons]
    · intro p hp
      cases hp
  | custom k => cases h

end Layer

namespace Matcher

variable {κ : Type} [CustomMatcher κ] [LawfulCursor κ] {P : Matcher κ → Prop} {text : List Char}
  {l : Layer κ (Matcher κ)} {s : Matcher κ} {i j : Nat}

theorem text_of_takes {m : Matcher κ} (h : m.layer.Verbatim) (hm : m.text = [])
    (htakes : Takes P text m i j s) : s.layer.Verbatim ∧ s.text = slice text i j := by
  induction htakes with
  | start =>
    refine ⟨h, hm.trans ?_⟩
    rw [slice, List.drop_eq_nil_of_le (List.length_take_le i text)]
  | @take j s c htakes hc htaken _ ih =>
    obtain ⟨hs, htext⟩ := ih
    obtain ⟨l⟩ := s
    rw [accept_mk] at htaken ⊢
    obtain ⟨hverbatim, hpush, -⟩ := hs.accept cursor_accept htaken
    refine ⟨hverbatim, hpush.trans ?_⟩
    rw [slice_succ htakes.le hc, ← htext]
    rfl

theorem start_of_takes (h : l.Verbatim) (hl : l.progress? = some {})
    (htakes : Takes P text (mk l) i j s) :
    ∃ (l' : Layer κ (Matcher κ)) (p : Progress), s = mk l' ∧ l'.Verbatim ∧ l'.progress? = some p ∧
      (i < j → p.taken ≠ [] ∧ p.start = some (Cursor.past text (i + 1)).position) ∧
      (i = j → p.taken = []) := by
  induction htakes with
  | start => exact ⟨l, {}, rfl, h, hl, fun hlt => absurd hlt (Nat.lt_irrefl i), fun _ => rfl⟩
  | @take j s c htakes hc htaken _ ih =>
    obtain ⟨l', p, rfl, h', hp, hstart, hnil⟩ := ih
    rw [accept_mk] at htaken ⊢
    obtain ⟨hverbatim, -, hpush⟩ := h'.accept cursor_accept htaken
    obtain ⟨complete, hpush⟩ := hpush p hp
    have hle := htakes.le
    refine ⟨_, _, rfl, hverbatim, hpush, fun _ => ⟨nofun, ?_⟩, by omega⟩
    simp only [Progress.pushAs, Progress.push]
    rcases Nat.lt_or_eq_of_le hle with hlt | rfl
    · rw [if_neg (hstart hlt).1, (hstart hlt).2]
    · rw [if_pos (hnil rfl)]

end Matcher

end Lexing
