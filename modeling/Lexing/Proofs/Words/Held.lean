import Lexing.Proofs.Words.Live

namespace Lexing.WordMatcher

structure Holds (words : List (List Char)) (held : List Char) (m : WordMatcher) : Prop where
  rule : m.rule ≠ .upTo
  words_eq : m.words = words
  live : m.progress.failed = false
  text_eq : m.progress.text = held
  tracks : m.Tracks held
  complete_iff : m.progress.complete = true ↔ held ∈ words

variable {words : List (List Char)} {held : List Char} {m : WordMatcher}

theorem holds_fresh (hrule : m.rule ≠ .upTo) (hwords : m.words = words) (hproper : [] ∉ words) :
    m.fresh.Holds words [] where
  rule := hrule
  words_eq := hwords
  live := rfl
  text_eq := rfl
  tracks := tracks_restart _
  complete_iff := by simp [fresh, reset, restart, Progress.reset, hproper]

theorem holds_new {rule : WordRule} (hrule : rule ≠ .upTo) (hproper : [] ∉ words) (name : String) :
    ({ name, rule, words } : WordMatcher).Holds words [] :=
  holds_fresh (m := { name, rule, words }) hrule rfl hproper

namespace Holds

theorem isComplete_iff (h : m.Holds words held) : m.progress.isComplete = true ↔ held ∈ words := by
  rw [Progress.isComplete_of_live h.live, h.complete_iff]

theorem length_taken (h : m.Holds words held) : m.progress.taken.length = held.length := by
  rw [← h.text_eq, Progress.text, List.length_reverse]

theorem push (h : m.Holds words held) (c : Char) (cur : Cursor) :
    ((m.update c held.length).2.push (held ++ [c] ∈ words) c cur).Holds words (held ++ [c]) where
  rule := h.rule
  words_eq := h.words_eq
  live := h.live
  text_eq := (Progress.text_pushAs ..).trans (congrArg (· ++ [c]) h.text_eq)
  tracks := (h.tracks.update c).of_live_eq rfl rfl
  complete_iff := by simp [WordMatcher.push, Progress.pushAs]

theorem accept_eq (h : m.Holds words held) (hopen : m.rule = .shortest → held ∉ words) (c : Char)
    (cur : Cursor) : m.accept c cur =
      let s := (m.update c held.length).2
      if Begins words (held ++ [c]) then ⟨true, s.push (held ++ [c] ∈ words) c cur, cur⟩
      else ⟨false, { s with progress := m.progress.fail }, cur⟩ := by
  have hdone : (m.progress.failed || decide (m.rule = .shortest) && m.progress.complete) = false := by
    rw [h.live, Bool.false_or, Bool.and_eq_false_imp, decide_eq_true_eq]
    exact fun hrule => Bool.eq_false_iff.2 (mt h.complete_iff.1 (hopen hrule))
  have hnothing := h.tracks.found_eq_nothing_iff c
  have hwhole := h.tracks.found_eq_whole_iff c
  rw [h.words_eq] at hnothing hwhole
  rw [accept_eq_acceptWord h.rule, acceptWord, hdone, h.length_taken]
  by_cases hbegins : Begins words (held ++ [c])
  · simp [hbegins, hnothing, hwhole]
  · simp only [hnothing.2 hbegins, hbegins, Bool.false_eq_true, if_true, if_false]
    rfl

end Holds

end Lexing.WordMatcher
