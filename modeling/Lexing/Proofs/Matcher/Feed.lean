import Lexing.Proofs.Matcher.Cursor

namespace Lexing

namespace Cursor

def past (text : List Char) (n : Nat) : Cursor := (ofList text).skip n

theorem past_zero (text : List Char) : past text 0 = ofList text := by
  apply ext
  · rfl
  · exact Nat.zero_min _

theorem offset_past {text : List Char} {n : Nat} (h : n ≤ text.length) :
    (past text n).offset = n := by
  simp only [past, skip, ofList, List.size_toArray]
  omega

theorem position_past {text : List Char} {n : Nat} (h : n < text.length) :
    (past text (n + 1)).position = (ofList text).positionAt n := by
  rw [position, offset_past h, if_neg (Nat.succ_ne_zero n)]
  rfl

theorem offset_position_past {text : List Char} {n : Nat} {c : Char} (h : text[n]? = some c) :
    (past text (n + 1)).position.offset = n := by
  rw [position_past (List.getElem?_eq_some_iff.1 h).1]
  rfl

theorem previous_past {text : List Char} {n : Nat} (hn : 0 < n) (h : n < text.length) :
    (past text (n + 1)).previous = text[n - 1]? := by
  rw [previous, offset_past h, if_neg (by omega), show n + 1 - 2 = n - 1 by omega]
  exact List.getElem?_toArray

theorem remaining_past (text : List Char) (n : Nat) :
    (past text n).remaining = text.length - n := by
  simp only [remaining, past, skip, ofList, List.size_toArray]
  omega

theorem hasNext_past (text : List Char) (n : Nat) :
    (past text n).hasNext = decide (n < text.length) := by
  simp only [hasNext, past, skip, ofList, List.size_toArray, decide_eq_decide]
  omega

theorem read?_past (text : List Char) (n : Nat) :
    (past text n).read? = text[n]?.map fun c => (c, past text (n + 1)) := by
  by_cases h : n < text.length
  · have hmin : min n text.length = n := by omega
    simp only [read?, past, skip, ofList, List.size_toArray, Nat.zero_add, hmin, h, dif_pos,
      List.getElem?_eq_getElem h, Option.map_some, List.getElem_toArray, Option.some.injEq,
      Prod.mk.injEq, true_and]
    apply ext
    · rfl
    · exact (Nat.min_eq_left h).symm
  · rw [List.getElem?_eq_none (by omega), Option.map_none, read?, dif_neg]
    simp only [past, skip, ofList, List.size_toArray]
    omega

theorem unread_past {text : List Char} {n : Nat} (h : n < text.length) :
    (past text (n + 1)).unread 1 = past text n := by
  apply ext
  · rfl
  · simp only [unread, past, skip, ofList, List.size_toArray]
    omega

theorem restore_past (text : List Char) (n k : Nat) :
    (past text n).restore (past text k).mark = past text k := by
  apply ext
  · rfl
  · simp [restore, mark, past, skip, ofList]

end Cursor

namespace Matcher

variable {κ : Type} [CustomMatcher κ]

def feed (text : List Char) (m : Matcher κ) (i : Nat) : Matcher κ × Nat :=
  match h : text[i]? with
  | none => (m, i)
  | some c =>
    let r := m.accept c (.past text (i + 1))
    if !r.accepted || r.state.isFailed || r.state.isComplete then (r.state, i + 1)
    else feed text r.state (i + 1)
termination_by text.length - i
decreasing_by
  have := (List.getElem?_eq_some_iff.1 h).1
  omega

theorem feed_of_none {text : List Char} {i : Nat} (h : text[i]? = none) (m : Matcher κ) :
    feed text m i = (m, i) := by
  rw [feed]
  split
  · rfl
  · next hsome => simp [h] at hsome

theorem feed_of_some {text : List Char} {i : Nat} {c : Char} (h : text[i]? = some c)
    (m : Matcher κ) : feed text m i =
      let r := m.accept c (.past text (i + 1))
      if !r.accepted || r.state.isFailed || r.state.isComplete then (r.state, i + 1)
      else feed text r.state (i + 1) := by
  rw [feed]
  split
  · next hnone => simp [h] at hnone
  · next d hsome =>
    rw [h] at hsome
    cases hsome
    rfl

theorem feed_of_taken {text : List Char} {i : Nat} {c : Char} (h : text[i]? = some c) {m : Matcher κ}
    (htaken : (m.accept c (.past text (i + 1))).accepted = true)
    (hlive : (m.accept c (.past text (i + 1))).state.isFailed = false)
    (hwaiting : (m.accept c (.past text (i + 1))).state.isComplete = false) :
    feed text m i = feed text (m.accept c (.past text (i + 1))).state (i + 1) := by
  simp only [feed_of_some h, htaken, hlive, hwaiting, Bool.not_true, Bool.or_self, Bool.false_eq_true,
    if_false]

theorem feed_of_refused {text : List Char} {i : Nat} {c : Char} (h : text[i]? = some c) {m : Matcher κ}
    (hrefused : (m.accept c (.past text (i + 1))).accepted = false) :
    feed text m i = ((m.accept c (.past text (i + 1))).state, i + 1) := by
  simp only [feed_of_some h, hrefused, Bool.not_false, Bool.true_or, if_true]

theorem feed_of_complete {text : List Char} {i : Nat} {c : Char} (h : text[i]? = some c)
    {m : Matcher κ} (hcomplete : (m.accept c (.past text (i + 1))).state.isComplete = true) :
    feed text m i = ((m.accept c (.past text (i + 1))).state, i + 1) := by
  simp only [feed_of_some h, hcomplete, Bool.or_true, if_true]

theorem le_feed (text : List Char) (m : Matcher κ) (i : Nat) : i ≤ (feed text m i).2 := by
  fun_induction feed text m i with
  | case1 => exact Nat.le_refl _
  | case2 => exact Nat.le_succ _
  | case3 m i c h r hgo ih => omega

theorem lt_feed {text : List Char} {i : Nat} {c : Char} (h : text[i]? = some c) (m : Matcher κ) :
    i < (feed text m i).2 := by
  simp only [feed_of_some h]
  split
  · exact Nat.lt_succ_self i
  · exact le_feed text _ (i + 1)

theorem feed_le_length {text : List Char} {i : Nat} (h : i ≤ text.length) (m : Matcher κ) :
    (feed text m i).2 ≤ text.length := by
  fun_induction feed text m i with
  | case1 => exact h
  | case2 m i c hc => exact (List.getElem?_eq_some_iff.1 hc).1
  | case3 m i c hc r hgo ih => exact ih (List.getElem?_eq_some_iff.1 hc).1

theorem readWithin_past [LawfulCursor κ] {text : List Char} {n i : Nat} (hn : text.length - i ≤ n)
    (m : Matcher κ) : m.readWithin n (.past text i) =
      ((feed text m i).2 - i, (feed text m i).1, .past text (feed text m i).2) := by
  induction n generalizing m i with
  | zero =>
    rw [feed_of_none (List.getElem?_eq_none (by omega)), readWithin]
    simp
  | succ n ih =>
    rw [readWithin, Cursor.read?_past]
    cases h : text[i]? with
    | none => simp [feed_of_none h]
    | some c =>
      simp only [feed_of_some h, Option.map_some, cursor_accept]
      split
      · simp
      · have hle := le_feed text (m.accept c (.past text (i + 1))).state (i + 1)
        rw [ih (by omega)]
        simp only [Prod.mk.injEq, and_true]
        omega

theorem read_past [LawfulCursor κ] (text : List Char) (i : Nat) (m : Matcher κ) :
    m.read (.past text i) =
      ((feed text m i).2 - i, (feed text m i).1, .past text (feed text m i).2) :=
  readWithin_past (Nat.le_of_eq (Cursor.remaining_past text i).symm) m

end Matcher

end Lexing
