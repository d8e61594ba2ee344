import Mathlib.Data.List.TakeWhile
import Mathlib.Order.Bounds.Basic
import Lexing.Proofs.Matcher.Feed

namespace Lexing

section Starts

variable {text : List Char} {l n : Nat}

theorem mem_breakEnds : l ∈ breakEnds n text ↔ n < l ∧ text[l - n - 1]? = some '\n' := by
  induction text generalizing n with
  | nil => simp [breakEnds]
  | cons c rest ih =>
    have hrest : l ∈ breakEnds (n + 1) rest ↔ n + 1 < l ∧ (c :: rest)[l - n - 1]? = some '\n' := by
      rw [ih]
      refine and_congr_right fun hlt => ?_
      rw [show l - n - 1 = l - (n + 1) - 1 + 1 by omega, List.getElem?_cons_succ]
    rw [breakEnds]
    split
    · next hc => grind
    · next hc => grind

theorem pairwise_breakEnds (n : Nat) (text : List Char) : (breakEnds n text).Pairwise (· < ·) := by
  induction text generalizing n with
  | nil => exact .nil
  | cons c rest ih =>
    rw [breakEnds]
    split
    · exact .cons (fun l hl => (mem_breakEnds.1 hl).1) (ih (n + 1))
    · exact ih (n + 1)

theorem length_takeWhile_breakEnds (n k : Nat) (text : List Char) :
    ((breakEnds n text).takeWhile (· ≤ n + k)).length = (text.take k).count '\n' := by
  -- the text begins at offset `n`, which moves on with every character
  induction text generalizing n k with
  | nil => simp [breakEnds]
  | cons c rest ih =>
    cases k with
    | zero =>
      rw [List.take_zero, List.count_nil, List.length_eq_zero_iff, List.takeWhile_eq_nil_iff]
      intro hpos
      have hlt := (mem_breakEnds.1 (List.getElem_mem hpos)).1
      simpa using hlt
    | succ k =>
      have hrest := ih (n + 1) k
      rw [show n + 1 + k = n + (k + 1) by omega] at hrest
      rw [breakEnds, List.take_succ_cons, List.count_cons]
      split
      · next hc => simp [hc, hrest]
      · next hc => simp [hc, hrest]

theorem mem_lineStarts : l ∈ lineStarts text ↔ l = 0 ∨ text[l - 1]? = some '\n' := by
  rw [lineStarts, List.mem_cons, mem_breakEnds]
  grind

theorem pairwise_lineStarts (text : List Char) : (lineStarts text).Pairwise (· < ·) :=
  .cons (fun _ hl => (mem_breakEnds.1 hl).1) (pairwise_breakEnds 0 text)

theorem length_takeWhile_lineStarts (offset : Nat) (text : List Char) :
    ((lineStarts text).takeWhile (· ≤ offset)).length = 1 + (text.take offset).count '\n' := by
  have hrest := length_takeWhile_breakEnds 0 offset text
  rw [Nat.zero_add] at hrest
  rw [lineStarts, List.takeWhile_cons_of_pos (by simp), List.length_cons, hrest, Nat.add_comm]

end Starts

section Search

inductive Search (l : List Nat) (x : Nat) : Except Nat Nat → Prop
  | hit {i : Nat} : l[i]? = some x → Search l x (.ok i)
  | miss {i : Nat} : i ≤ l.length → (∀ y ∈ l.take i, y < x) → (∀ y ∈ l.drop i, x < y) →
      Search l x (.error i)

def lastPlace? : Except Nat Nat → Option Nat
  | .ok i => some i
  | .error 0 => none
  | .error (i + 1) => some i

structure Splits (l : List Nat) (x i : Nat) : Prop where
  le_length : i ≤ l.length
  front : ∀ y ∈ l.take i, y ≤ x
  back : ∀ y ∈ l.drop i, x < y

variable {l : List Nat} {x i : Nat} {a : Except Nat Nat}

theorem exists_search (h : l.Pairwise (· < ·)) (x : Nat) : ∃ a, Search l x a := by
  induction l with
  | nil => exact ⟨.error 0, .miss (Nat.le_refl 0) (by simp) (by simp)⟩
  | cons y rest ih =>
    obtain ⟨hhead, htail⟩ := List.pairwise_cons.1 h
    rcases Nat.lt_trichotomy x y with hlt | rfl | hgt
    · refine ⟨.error 0, .miss (Nat.zero_le _) (by simp) ?_⟩
      rw [List.drop_zero, List.forall_mem_cons]
      exact ⟨hlt, fun z hz => Nat.lt_trans hlt (hhead z hz)⟩
    · exact ⟨.ok 0, .hit rfl⟩
    · obtain ⟨a, ha⟩ := ih htail
      cases ha with
      | @hit i hi => exact ⟨.ok (i + 1), .hit hi⟩
      | @miss i hle hfront hback =>
        refine ⟨.error (i + 1), .miss (Nat.succ_le_succ hle) ?_ hback⟩
        rw [List.take_succ_cons, List.forall_mem_cons]
        exact ⟨hgt, hfront⟩

theorem Splits.of_hit (h : l.Pairwise (· < ·)) (hi : l[i]? = some x) : Splits l x (i + 1) := by
  obtain ⟨hlt, rfl⟩ := List.getElem?_eq_some_iff.1 hi
  have hsorted := List.pairwise_iff_getElem.1 h
  refine ⟨hlt, fun y hy => ?_, fun y hy => ?_⟩
  · obtain ⟨k, hk, rfl⟩ := List.mem_take_iff_getElem.1 hy
    rcases Nat.lt_or_eq_of_le (Nat.le_of_lt_succ (Nat.lt_of_lt_of_le hk (Nat.min_le_left ..))) with
      hki | rfl
    · exact Nat.le_of_lt (hsorted k i _ hlt hki)
    · exact Nat.le_refl _
  · obtain ⟨k, hk, rfl⟩ := List.mem_drop_iff_getElem.1 hy
    exact hsorted i (i + 1 + k) hlt _ (by omega)

theorem Search.exists_splits (h : Search l x a) (hsorted : l.Pairwise (· < ·)) {y : Nat}
    (hfirst : l[0]? = some y) (hy : y ≤ x) : ∃ i, lastPlace? a = some i ∧ Splits l x (i + 1) := by
  cases h with
  | @hit i hi => exact ⟨i, rfl, .of_hit hsorted hi⟩
  | @miss i hle hfront hback =>
    cases i with
    | zero =>
      rw [List.drop_zero] at hback
      exact absurd hy (Nat.not_le_of_lt (hback y (List.mem_of_getElem? hfirst)))
    | succ i => exact ⟨i, rfl, hle, fun z hz => Nat.le_of_lt (hfront z hz), hback⟩

namespace Splits

theorem takeWhile_eq (h : Splits l x i) : l.takeWhile (· ≤ x) = l.take i := by
  conv => lhs; rw [← List.take_append_drop i l]
  rw [List.takeWhile_append_of_pos (by simpa using h.front), List.append_right_eq_self,
    List.takeWhile_eq_nil_iff]
  intro hpos
  simpa using h.back _ (List.getElem_mem hpos)

theorem le_of_getElem? (h : Splits l x (i + 1)) {y : Nat} (hy : l[i]? = some y) : y ≤ x := by
  refine h.front y (List.mem_of_getElem? (i := i) ?_)
  rw [List.getElem?_take_of_lt (Nat.lt_succ_self i), hy]

theorem isGreatest (h : Splits l x (i + 1)) (hsorted : l.Pairwise (· < ·)) {y : Nat}
    (hy : l[i]? = some y) : IsGreatest {z | z ≤ x ∧ z ∈ l} y := by
  refine ⟨⟨h.le_of_getElem? hy, List.mem_of_getElem? hy⟩, ?_⟩
  rintro z ⟨hzx, hz⟩
  rw [← List.take_append_drop (i + 1) l, List.mem_append] at hz
  rcases hz with hfront | hback
  · exact (Splits.of_hit hsorted hy).front z hfront
  · exact absurd hzx (Nat.not_le_of_lt (h.back z hback))

end Splits

end Search

namespace Cursor

theorem pairwise_starts (c : Cursor) : c.starts.Pairwise (· < ·) :=
  c.starts_eq ▸ pairwise_lineStarts _

theorem positionAt_congr {c d : Cursor} (h : c.source = d.source) (offset : Nat) :
    c.positionAt offset = d.positionAt offset := by
  rw [positionAt, positionAt, c.starts_eq, d.starts_eq, h]

theorem positionAt_of_splits {c : Cursor} {offset i : Nat} (h : Splits c.starts offset (i + 1)) :
    ∃ start, c.starts[i]? = some start ∧ start ≤ offset ∧
      c.positionAt offset = ⟨offset, i + 1, offset - start + 1⟩ := by
  have hget := List.getElem?_eq_getElem h.le_length
  refine ⟨_, hget, h.le_of_getElem? hget, ?_⟩
  rw [positionAt, h.takeWhile_eq]
  simp only [List.length_take_of_le h.le_length, List.getLastD_eq_getLast?, List.getLast?_take,
    Nat.succ_ne_zero, if_false, Nat.add_sub_cancel, hget, Option.some_or, Option.getD_some]

theorem line_positionAt (c : Cursor) (offset : Nat) :
    (c.positionAt offset).line = 1 + (c.source.toList.take offset).count '\n' := by
  rw [positionAt, c.starts_eq]
  exact length_takeWhile_lineStarts offset _

def readMany? : Nat → Cursor → Option Cursor
  | 0, c => some c
  | n + 1, c => c.read?.bind fun (_, d) => readMany? n d

theorem eq_past_of_readMany? {text : List Char} {n k : Nat} {d : Cursor}
    (h : (past text k).readMany? n = some d) (hk : k ≤ text.length) :
    k + n ≤ text.length ∧ d = past text (k + n) := by
  induction n generalizing k with
  | zero =>
    cases h
    exact ⟨hk, rfl⟩
  | succ n ih =>
    rw [readMany?, read?_past] at h
    cases hc : text[k]? with
    | none => simp [hc] at h
    | some c =>
      rw [hc] at h
      have := ih h (List.getElem?_eq_some_iff.1 hc).1
      rwa [show k + 1 + n = k + (n + 1) by omega] at this

-- the last line is empty, and the offset lies two places past its end
example : (ofString "ab\nc\n").positionAt 7 = ⟨7, 3, 3⟩ := by decide

end Cursor

end Lexing
