import Lexing.Proofs.Matcher.Feed
import Lexing.Proofs.Words.Suffixes

namespace Lexing

theorem Cursor.peekNth_past (text : List Char) (n k : Nat) :
    (past text n).peekNth k = text[min n text.length + k]? := by
  simp only [peekNth, past, skip, ofList, List.size_toArray, Nat.zero_add]
  exact List.getElem?_toArray

namespace Progress

structure Covers (text : List Char) (k j : Nat) (p : Progress) : Prop where
  le : k ≤ j
  text_eq : p.text = slice text k j
  start_eq : k < j → p.start = some ((Cursor.ofList text).positionAt k)
  stop_eq : p.complete = true → p.stop = some ((Cursor.ofList text).positionAt (j - 1))

theorem covers_empty (text : List Char) (j : Nat) : ({} : Progress).Covers text j j :=
  ⟨Nat.le_refl j, (slice_self text j).symm, fun h => absurd h (Nat.lt_irrefl j), nofun⟩

namespace Covers

variable {text : List Char} {k j : Nat} {p : Progress} {c : Char}

theorem taken_eq_nil_iff (h : p.Covers text k j) (hj : j ≤ text.length) : p.taken = [] ↔ k = j := by
  have hlength := congrArg List.length h.text_eq
  rw [length_slice hj, Progress.text, List.length_reverse] at hlength
  rw [← List.length_eq_zero_iff, hlength]
  have := h.le
  omega

theorem pushAs (h : p.Covers text k j) (hc : text[j]? = some c) (complete : Bool) :
    (p.pushAs complete c (Cursor.past text (j + 1)).position).Covers text k (j + 1) := by
  have hj := (List.getElem?_eq_some_iff.1 hc).1
  rw [Cursor.position_past hj]
  refine ⟨Nat.le_succ_of_le h.le, ?_, fun _ => ?_, fun hcomplete => ?_⟩
  · rw [text_pushAs, h.text_eq, slice_succ h.le hc]
  · simp only [Progress.pushAs, push, h.taken_eq_nil_iff (Nat.le_of_lt hj)]
    split
    · next heq => rw [heq]
    · next hne => exact h.start_eq (Nat.lt_of_le_of_ne h.le hne)
  · have hcomplete : complete = true := hcomplete
    simp only [Progress.pushAs, hcomplete, if_true, Nat.add_sub_cancel]

theorem span_eq (h : p.Covers text k j) (hlt : k < j) (hcomplete : p.complete = true) :
    p.span = some ⟨(Cursor.ofList text).positionAt k, (Cursor.ofList text).positionAt (j - 1)⟩ := by
  rw [span, h.start_eq hlt, h.stop_eq hcomplete]

end Covers

end Progress

end Lexing
