import Mathlib.Order.Lattice.Nat
import Lexing.Proofs.Chain.Passing
import Lexing.Proofs.Words.Live

namespace Lexing

section Slice

variable {text w : List Char} {i j k : Nat}

theorem length_slice (hj : j ≤ text.length) (i : Nat) : (slice text i j).length = j - i := by
  rw [slice, List.length_drop, List.length_take_of_le hj]

@[simp] theorem slice_self (text : List Char) (i : Nat) : slice text i i = [] :=
  List.drop_eq_nil_of_le (List.length_take_le i text)

theorem slice_zero_length (text : List Char) : slice text 0 text.length = text := by
  rw [slice, List.take_length, List.drop_zero]

theorem drop_slice (text : List Char) (i j n : Nat) :
    (slice text i j).drop n = slice text (i + n) j := List.drop_drop

theorem slice_suffix_slice (h : i ≤ k) (text : List Char) (j : Nat) :
    slice text k j <:+ slice text i j := by
  rw [← Nat.add_sub_cancel' h, ← drop_slice]
  exact List.drop_suffix ..

theorem eq_slice_of_suffix (hij : i ≤ j) (hj : j ≤ text.length) (h : w <:+ slice text i j) :
    i + w.length ≤ j ∧ w = slice text (j - w.length) j := by
  have hle := h.length_le
  rw [length_slice hj] at hle
  refine ⟨by omega, ?_⟩
  conv => lhs; rw [List.suffix_iff_eq_drop.1 h]
  rw [drop_slice, length_slice hj, show i + (j - i - w.length) = j - w.length by omega]

theorem eq_slice_of_prefix (hij : i ≤ j) (hj : j ≤ text.length) (h : w <+: slice text i j) :
    i + w.length ≤ j ∧ w = slice text i (i + w.length) := by
  have hle := h.length_le
  rw [length_slice hj] at hle
  have hend : i + w.length ≤ j := by omega
  refine ⟨hend, List.IsPrefix.eq_of_length ?_ ?_⟩
  · exact List.prefix_of_prefix_length_le h (slice_prefix_slice hend)
      (by rw [length_slice (by omega)]; omega)
  · rw [length_slice (by omega)]
    omega

theorem slice_eq_take (text : List Char) (i j : Nat) : slice text i j = (text.drop i).take (j - i) := by
  rw [slice, List.drop_take]

theorem singleton_suffix_concat_iff {c d : Char} : [c] <:+ w ++ [d] ↔ d = c := by
  constructor
  · rintro ⟨front, h⟩
    exact (List.cons.inj (List.append_inj' h rfl).2).1.symm
  · rintro rfl
    exact List.suffix_append ..

theorem slice_append_drop (hij : i ≤ j) (text : List Char) :
    slice text i j ++ text.drop j = text.drop i := by
  rw [slice_eq_take, ← Nat.add_sub_cancel' hij, ← List.drop_drop, Nat.add_sub_cancel_left,
    List.take_append_drop]

theorem slice_cons {c : Char} (hc : text[i]? = some c) (hij : i < j) :
    slice text i j = c :: slice text (i + 1) j := by
  obtain ⟨hi, rfl⟩ := List.getElem?_eq_some_iff.1 hc
  obtain ⟨n, rfl⟩ := Nat.exists_eq_add_of_lt hij
  rw [slice_eq_take, slice_eq_take, List.drop_eq_getElem_cons hi, show i + n + 1 - i = n + 1 by omega,
    List.take_succ_cons, show i + n + 1 - (i + 1) = n by omega]

theorem infix_drop_iff (hw : w ≠ []) :
    w <:+: text.drop i ↔ ∃ j, i ≤ j ∧ j ≤ text.length ∧ w <:+ slice text i j := by
  constructor
  · rintro ⟨front, back, h⟩
    have hlength := congrArg List.length h
    have hpos := List.length_pos_iff.2 hw
    simp only [List.length_append, List.length_drop] at hlength
    refine ⟨i + (front ++ w).length, by omega, ?_, front, ?_⟩
    · rw [List.length_append]
      omega
    · rw [slice_eq_take, ← h, Nat.add_sub_cancel_left, List.take_left]
  · rintro ⟨j, -, -, hend⟩
    have hfront := List.take_prefix (j - i) (text.drop i)
    rw [slice_eq_take] at hend
    exact hend.isInfix.trans hfront.isInfix

end Slice

def EndsWith (words : List (List Char)) (w : List Char) : Prop := ∃ word ∈ words, word <:+ w

variable {words : List (List Char)} {text v w : List Char} {i j k l : Nat}

instance : Decidable (EndsWith words w) := inferInstanceAs (Decidable (∃ word ∈ words, word <:+ w))

theorem EndsWith.mono (h : EndsWith words v) (hv : v <:+ w) : EndsWith words w := by
  obtain ⟨word, hword, hw⟩ := h
  exact ⟨word, hword, hw.trans hv⟩

theorem slice_eq_iff_suffix (hik : i ≤ k) (hj : j ≤ text.length) (hbegins : Begins [w] (slice text k j))
    (hle : w <:+ slice text i j → k ≤ j - w.length) :
    slice text k j = w ↔ w <:+ slice text i j := by
  constructor
  · rintro rfl
    exact slice_suffix_slice hik text j
  · intro hend
    have hlen := hend.length_le
    obtain ⟨word, hword, hprefix⟩ := hbegins
    obtain rfl := List.mem_singleton.1 hword
    have hkl := hle hend
    rw [length_slice hj] at hlen
    exact hprefix.eq_of_length (Nat.le_antisymm hprefix.length_le (by rw [length_slice hj]; omega))

/-- Of the pieces of the text that start at `i` or behind and end in front of `j`, the longest one that
begins a word starts at `k`. -/
def Longest (words : List (List Char)) (text : List Char) (i j k : Nat) : Prop :=
  IsLeast {l | i ≤ l ∧ l ≤ j ∧ Begins words (slice text l j)} k

namespace Longest

theorem begins (h : Longest words text i j k) : Begins words (slice text k j) := h.1.2.2

theorem of_begins (hij : i ≤ j) (h : Begins words (slice text i j)) : Longest words text i j i :=
  ⟨⟨Nat.le_refl i, hij, h⟩, fun _ hl => hl.1⟩

theorem self (hwords : words ≠ []) (text : List Char) (j : Nat) : Longest words text j j j :=
  .of_begins (Nat.le_refl j) (slice_self text j ▸ .nil hwords)

theorem exists_of_le (hwords : words ≠ []) (hij : i ≤ j) (text : List Char) :
    ∃ k, Longest words text i j k := by
  have hsome : {l | i ≤ l ∧ l ≤ j ∧ Begins words (slice text l j)}.Nonempty :=
    ⟨j, hij, Nat.le_refl j, slice_self text j ▸ .nil hwords⟩
  exact ⟨_, isLeast_csInf hsome⟩

theorem widen (h : Longest words text i j k) (hl : l ≤ i)
    (hnone : ∀ n, l ≤ n → n < i → ¬Begins words (slice text n j)) : Longest words text l j k := by
  refine ⟨⟨Nat.le_trans hl h.1.1, h.1.2⟩, ?_⟩
  rintro n ⟨hln, hnj, hbegins⟩
  refine h.2 ⟨?_, hnj, hbegins⟩
  by_contra hni
  exact hnone n hln (by omega) hbegins

theorem succ (h : Longest words text i j k) (h' : Longest words text k (j + 1) l) :
    Longest words text i (j + 1) l := by
  refine h'.widen h.1.1 fun n hin hnk hbegins => ?_
  have hkj := h.1.2.1
  have hkn := h.2 ⟨hin, by omega, hbegins.of_prefix (slice_prefix_slice (Nat.le_succ j))⟩
  omega

theorem endsWith_iff (h : Longest words text i j k) (hj : j ≤ text.length) :
    EndsWith words (slice text i j) ↔ EndsWith words (slice text k j) := by
  obtain ⟨⟨hik, hkj, -⟩, hleast⟩ := h
  refine ⟨?_, fun hend => hend.mono (slice_suffix_slice hik text j)⟩
  rintro ⟨word, hword, hend⟩
  obtain ⟨hle, heq⟩ := eq_slice_of_suffix (Nat.le_trans hik hkj) hj hend
  have hkl : k ≤ j - word.length :=
    hleast ⟨by omega, Nat.sub_le .., heq ▸ .of_mem hword⟩
  exact ⟨word, hword, heq ▸ slice_suffix_slice hkl text j⟩

theorem eq_iff_suffix (h : Longest [w] text i j k) (hj : j ≤ text.length) :
    slice text k j = w ↔ w <:+ slice text i j := by
  obtain ⟨⟨hik, hkj, hbegins⟩, hleast⟩ := h
  refine slice_eq_iff_suffix hik hj hbegins fun hend => ?_
  obtain ⟨hle, heq⟩ := eq_slice_of_suffix (Nat.le_trans hik hkj) hj hend
  exact hleast ⟨by omega, Nat.sub_le .., heq ▸ .of_mem (List.mem_singleton_self w)⟩

end Longest

end Lexing
