import Lexing.Matcher.Fixed
import Lexing.Matcher.Unfold

namespace Lexing

variable {κ α : Type}

/-- What is expected of the user's own matchers: they leave the cursor where it was. -/
class LawfulCursor (κ : Type) [CustomMatcher κ] : Prop where
  cursor_accept : ∀ (k : κ) (c : Char) (cur : Cursor), (CustomMatcher.accept k c cur).cursor = cur

instance : LawfulCursor Empty where
  cursor_accept := nofun

theorem FixedMatcher.cursor_accept (m : FixedMatcher) (c : Char) (cur : Cursor) :
    (m.accept c cur).cursor = cur := by
  simp only [accept]
  split <;> rfl

instance : LawfulCursor FixedMatcher where
  cursor_accept := FixedMatcher.cursor_accept

theorem CharMatcher.cursor_accept (m : CharMatcher) (c : Char) (cur : Cursor) :
    (m.accept c cur).cursor = cur := by
  simp only [accept]
  split <;> rfl

theorem WordMatcher.cursor_accept (m : WordMatcher) (c : Char) (cur : Cursor) :
    (m.accept c cur).cursor = cur := rfl

def Offer.Still (offer : Offer α) : Prop := ∀ a c cur, (offer a c cur).cursor = cur

variable [Member α] {offer : Offer α}

namespace Choice

theorem cursor_visit (h : offer.Still) (c : Char) (i : Nat) (r : Round α) :
    (visit offer c i r).2.cursor = r.cursor := by
  rw [visit]
  split
  · rfl
  · next a _ =>
    split
    · rfl
    · exact h a c r.cursor

theorem cursor_update (h : offer.Still) (m : Choice α) (c : Char) (cur : Cursor) :
    (m.update offer c cur).2.2 = cur :=
  Bag.walk_induction (P := fun r : Round α => r.cursor = cur)
    (fun i r hr => (cursor_visit h c i r).trans hr) m.alive.length m.alive rfl

theorem cursor_acceptAny (h : offer.Still) (m : Choice α) (c : Char) (cur : Cursor) :
    (m.acceptAny offer c cur).cursor = cur := by
  simp only [acceptAny]
  split
  · exact cursor_update h m c cur
  · exact cursor_update h m c cur

theorem cursor_acceptSeek (h : offer.Still) (m : Choice α) (c : Char) (cur : Cursor) :
    (m.acceptSeek offer c cur).cursor = cur := by
  simp only [acceptSeek]
  split
  · rw [cursor_update h, cursor_update h]
  · exact cursor_update h m c cur

theorem cursor_accept (h : offer.Still) (m : Choice α) (c : Char) (cur : Cursor) :
    (m.accept offer c cur).cursor = cur := by
  rw [accept]
  split
  · rfl
  · split
    · exact cursor_acceptAny h m c cur
    · split
      · rfl
      · exact cursor_acceptSeek h m c cur

end Choice

namespace Chain

omit [Member α] in
theorem cursor_finish (accepted : Bool) (m : Chain α) (c : Char) (cur : Cursor) :
    (finish accepted m c cur).cursor = cur := rfl

omit [Member α] in
theorem cursor_offerCurrent (h : offer.Still) (m : Chain α) (c : Char) (cur : Cursor) :
    (m.offerCurrent offer c cur).cursor = cur := by
  rw [offerCurrent]
  split
  · rfl
  · next a _ => exact h a c cur

theorem cursor_acceptInOrder (h : offer.Still) (m : Chain α) (c : Char) (cur : Cursor) :
    (m.acceptInOrder offer c cur).cursor = cur := cursor_offerCurrent h m c cur

theorem cursor_tryNext (h : offer.Still) (m : Chain α) (cur : Cursor) :
    (m.tryNext offer cur).cursor = cur := by
  cases hread : cur.read? with
  | none => simp [tryNext, hread]
  | some p => simp [tryNext, hread, cursor_offerCurrent h, Cursor.restore_mark_of_read? hread]

theorem cursor_enter (h : offer.Still) (m : Chain α) (c : Char) (cur : Cursor) :
    (m.enter offer c cur).2 = cur := by
  simp only [enter]
  split
  · rfl
  · split
    · exact cursor_tryNext h _ cur
    · split <;> rfl

theorem cursor_acceptEntering (h : offer.Still) (m : Chain α) (c : Char) (cur : Cursor) :
    (m.acceptEntering offer c cur).cursor = cur := by
  have hcur := cursor_offerCurrent h m c cur
  simp only [acceptEntering]
  split
  · exact hcur
  · rw [cursor_finish]
    split
    · rw [cursor_enter h, hcur]
    · exact hcur

theorem cursor_seekMember (h : offer.Still) (peeking : Bool) (next : Char) (fuel : Nat)
    (m : Chain α) (cur : Cursor) : (seekMember offer peeking next fuel m cur).cursor = cur := by
  induction fuel generalizing m cur with
  | zero => rfl
  | succ fuel ih =>
    have hcur := cursor_offerCurrent h m.advance.2 next cur
    simp only [seekMember]
    split
    · rfl
    · split
      · rw [ih, hcur]
      · exact hcur

theorem cursor_goOn (h : offer.Still) (taken complete : Bool) (next : Char) (m : Chain α)
    (cur : Cursor) : (m.goOn offer taken complete next cur).cursor = cur := by
  cases complete with
  | true =>
    simp only [goOn, if_true]
    split
    · exact cursor_offerCurrent h m next cur
    · rw [cursor_seekMember h, cursor_offerCurrent h]
  | false => exact cursor_seekMember h taken next m.members.length m cur

omit [Member α] in
theorem cursor_offerDue (h : offer.Still) (m : Chain α) (c : Char) (cur : Cursor) :
    (m.offerDue offer c cur).cursor = cur := by
  simp only [offerDue]
  split
  · rfl
  · exact cursor_offerCurrent h _ c cur

theorem cursor_acceptSkipping (h : offer.Still) (m : Chain α) (c : Char) (cur : Cursor) :
    (m.acceptSkipping offer c cur).cursor = cur := by
  -- the look-ahead reads one character, and the members look ahead from behind it: the mark was set
  -- before that
  have hdue := cursor_offerDue h m c cur
  simp only [acceptSkipping]
  split
  · exact hdue
  · split
    · rw [cursor_finish, cursor_goOn h, Cursor.restore_mark, hdue]
    · split
      · next next after hread =>
        rw [cursor_finish, cursor_goOn h, Cursor.restore_mark_of_read? hread, hdue]
      · exact hdue

theorem cursor_accept (h : offer.Still) (m : Chain α) (c : Char) (cur : Cursor) :
    (m.accept offer c cur).cursor = cur := by
  rw [accept]
  split
  · rfl
  · split
    · exact cursor_acceptInOrder h m c cur
    · exact cursor_acceptEntering h m c cur
    · exact cursor_acceptEntering h m c cur
    · exact cursor_acceptSkipping h m c cur

end Chain

theorem Layer.cursor_accept [CustomMatcher κ] [LawfulCursor κ] (h : offer.Still) (l : Layer κ α)
    (c : Char) (cur : Cursor) : (l.accept offer c cur).cursor = cur := by
  cases l with
  | chars m => exact m.cursor_accept c cur
  | words m => exact m.cursor_accept c cur
  | choice m => exact m.cursor_accept h c cur
  | chain m => exact m.cursor_accept h c cur
  | custom k => exact LawfulCursor.cursor_accept k c cur

namespace Matcher

variable [CustomMatcher κ]

theorem cursor_acceptWithin [LawfulCursor κ] (n : Nat) (m : Matcher κ) (c : Char) (cur : Cursor) :
    (m.acceptWithin n c cur).cursor = cur := by
  induction n generalizing m c cur with
  | zero => rfl
  | succ n ih => exact m.layer.cursor_accept ih c cur

@[simp] theorem cursor_accept [LawfulCursor κ] (m : Matcher κ) (c : Char) (cur : Cursor) :
    (m.accept c cur).cursor = cur := cursor_acceptWithin m.depth m c cur

end Matcher

end Lexing
