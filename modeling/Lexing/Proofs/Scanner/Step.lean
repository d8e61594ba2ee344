import Lexing.Proofs.Matcher.Cursor
import Lexing.Proofs.Scanner.Pool

namespace Lexing.Scanner

variable {κ : Type} [CustomMatcher κ]

section Cursor

variable [LawfulCursor κ]

theorem cursor_shareChar (c : Char) (opened : List (OpenMatch κ)) (cur : Cursor) :
    (shareChar c opened cur).2.2 = cur := by
  induction opened generalizing cur with
  | nil => rfl
  | cons m older ih =>
    simp only [shareChar, Matcher.cursor_accept]
    split
    · rfl
    · split
      · rfl
      · exact ih cur

theorem cursor_complete (rules : List (TokenRule κ)) (m : OpenMatch κ) (older : List (OpenMatch κ))
    (c : Char) (cur : Cursor) : (complete rules m older c cur).cursor = cur := by
  have hshare := cursor_shareChar c older cur
  simp only [complete]
  split
  · rfl
  · split
    · next heq =>
      rw [heq] at hshare
      exact hshare
    · next heq =>
      rw [heq] at hshare
      exact hshare

theorem cursor_offerOpened (c : Char) (rules : List (TokenRule κ)) (opened : List (OpenMatch κ))
    (cur : Cursor) : (offerOpened c rules opened cur).cursor = cur := by
  induction opened generalizing rules cur with
  | nil => rfl
  | cons m older ih =>
    simp only [offerOpened, Matcher.cursor_accept]
    split
    · exact cursor_complete ..
    · split
      · exact ih _ cur
      · exact ih rules cur

end Cursor

theorem found_complete (rules : List (TokenRule κ)) (m : OpenMatch κ) (older : List (OpenMatch κ))
    (c : Char) (cur : Cursor) : (complete rules m older c cur).found =
      some (m.rule, m.matcher.toToken (ruleName rules m.rule) m.start cur) := by
  simp only [complete]
  split
  · rfl
  · split <;> rfl

theorem rule_of_found {c : Char} {rules : List (TokenRule κ)} {opened : List (OpenMatch κ)}
    {cur : Cursor} {report : Report} (h : (offerOpened c rules opened cur).found = some report) :
    ∃ m ∈ opened, m.rule = report.1 := by
  induction opened generalizing rules cur with
  | nil => cases h
  | cons m older ih =>
    simp only [offerOpened] at h
    split at h
    · rw [found_complete] at h
      cases h
      exact ⟨m, List.mem_cons_self, rfl⟩
    · split at h
      · obtain ⟨a, ha, hrule⟩ := ih h
        exact ⟨a, List.mem_cons_of_mem m ha, hrule⟩
      · obtain ⟨a, ha, hrule⟩ := ih h
        exact ⟨a, List.mem_cons_of_mem m ha, hrule⟩

end Lexing.Scanner
