import Lexing.CharSet.Written
import Lexing.Proofs.Except
import Mathlib.Data.Char
import Mathlib.Tactic.SplitIfs

namespace Lexing.CharSet

inductive Made : CharSet → Prop
  | empty : Made empty
  | ofList (cs : List Char) : Made (ofList cs)
  | singleton (c : Char) : Made (singleton c)
  | range (a b : Char) : Made (range a b)
  | withRange (a b : Char) : Made s → Made (s.withRange a b)
  | withChars (cs : List Char) : Made s → Made (s.withChars cs)
  | union : Made s → Made t → Made (s.union t)
  | parse {text : String} : parse text = .ok s → Made s

structure Ordered (s : CharSet) : Prop where
  chars : s.chars.Pairwise (· < ·)
  ranges : ∀ r ∈ s.ranges, r.1 ≤ r.2

variable {s t : CharSet} {c d : Char} {cs ds : List Char}

/-! ### Increasing lists of characters -/

@[simp]
theorem mem_insertChar : d ∈ insertChar c cs ↔ d = c ∨ d ∈ cs := by
  induction cs with
  | nil => simp [insertChar]
  | cons e cs ih =>
    rw [insertChar]
    split_ifs with hlt heq
    · simp
    · subst heq
      simp
    · simp [ih, or_left_comm]

theorem pairwise_insertChar (h : cs.Pairwise (· < ·)) : (insertChar c cs).Pairwise (· < ·) := by
  induction cs with
  | nil => simp [insertChar]
  | cons e cs ih =>
    obtain ⟨hhead, htail⟩ := List.pairwise_cons.mp h
    rw [insertChar]
    split_ifs with hlt heq
    · exact List.pairwise_cons.mpr ⟨by simpa [hlt] using fun d hd => lt_trans hlt (hhead d hd), h⟩
    · exact h
    · have hgt : e < c := lt_of_le_of_ne (not_lt.mp hlt) (Ne.symm heq)
      exact List.pairwise_cons.mpr ⟨by simpa [hgt] using hhead, ih htail⟩

theorem insertChar_of_forall_lt (h : ∀ d ∈ cs, c < d) : insertChar c cs = c :: cs := by
  cases cs with
  | nil => rfl
  | cons d cs => exact if_pos (h d (by simp))

@[simp]
theorem mem_foldr_insertChar : d ∈ cs.foldr insertChar ds ↔ d ∈ cs ∨ d ∈ ds := by
  induction cs with
  | nil => simp
  | cons c cs ih => simp [ih, or_assoc]

theorem pairwise_foldr_insertChar (h : ds.Pairwise (· < ·)) :
    (cs.foldr insertChar ds).Pairwise (· < ·) := by
  induction cs with
  | nil => exact h
  | cons c cs ih => exact pairwise_insertChar ih

theorem foldr_insertChar_of_pairwise (h : cs.Pairwise (· < ·)) : cs.foldr insertChar [] = cs := by
  induction cs with
  | nil => rfl
  | cons c cs ih =>
    obtain ⟨hhead, htail⟩ := List.pairwise_cons.mp h
    rw [List.foldr_cons, ih htail, insertChar_of_forall_lt hhead]

theorem lookup_eq_true_iff (h : cs.Pairwise (· < ·)) : lookup c cs = true ↔ c ∈ cs := by
  induction cs with
  | nil => simp [lookup]
  | cons d cs ih =>
    obtain ⟨hhead, htail⟩ := List.pairwise_cons.mp h
    rw [lookup]
    split_ifs with hlt
    · have hnot : c ∉ cs := fun hc => lt_irrefl c (lt_trans hlt (hhead c hc))
      simp [ne_of_lt hlt, hnot]
    · simp [ih htail]

/-! ### Lists of ranges -/

theorem mem_foldl_insertRange {rs qs : List (Char × Char)} {r : Char × Char} :
    r ∈ rs.foldl insertRange qs ↔ r ∈ qs ∨ r ∈ rs := by
  induction rs generalizing qs with
  | nil => simp
  | cons q rs ih =>
    rw [List.foldl_cons, ih, insertRange]
    split_ifs with hq
    · grind
    · grind

/-! ### Order is kept -/

namespace Ordered

theorem ofList (cs : List Char) : (ofList cs).Ordered :=
  ⟨pairwise_foldr_insertChar .nil, by simp [CharSet.ofList]⟩

theorem withRange (h : s.Ordered) (a b : Char) : (s.withRange a b).Ordered where
  chars := h.chars
  ranges r hr := by
    obtain hr | rfl := by simpa [CharSet.withRange] using hr
    · exact h.ranges r hr
    · split_ifs with hab
      · exact hab
      · exact (le_total a b).resolve_left hab

theorem union (hs : s.Ordered) (ht : t.Ordered) : (s.union t).Ordered where
  chars := pairwise_foldr_insertChar hs.chars
  ranges r hr := (mem_foldl_insertRange.mp hr).elim (hs.ranges r) (ht.ranges r)

end Ordered

theorem le_of_assemble {items : List Item} {ranges : List (Char × Char)} {chars : List Char}
    (h : assemble items = .ok (ranges, chars)) : ∀ r ∈ ranges, r.1 ≤ r.2 := by
  fun_induction assemble items generalizing ranges chars with
  | case1 a b rest hlt => cases h
  | case2 a b rest hle ih =>
    obtain ⟨parts, hrest, heq⟩ := exists_of_map_eq_ok h
    cases heq
    simpa [not_lt.mp hle] using ih hrest
  | case3 c rest _ ih | case4 rest ih =>
    obtain ⟨parts, hrest, heq⟩ := exists_of_map_eq_ok h
    cases heq
    exact ih hrest
  | case5 =>
    cases h
    simp

theorem exists_of_parse {text : String} (h : parse text = .ok s) :
    ∃ items ranges chars, items? true text.toList = some items ∧
      assemble items = .ok (ranges, chars) ∧ s = withChars { ranges } chars := by
  unfold parse at h
  split at h
  · cases h
  · next items hitems =>
    split at h
    · cases h
    · next ranges chars hparts =>
      dsimp only at h
      split_ifs at h
      cases h
      exact ⟨items, ranges, chars, hitems, hparts, rfl⟩

theorem ordered_of_parse {text : String} (h : parse text = .ok s) : s.Ordered := by
  obtain ⟨items, ranges, chars, -, hparts, rfl⟩ := exists_of_parse h
  exact .union ⟨.nil, le_of_assemble hparts⟩ (.ofList chars)

theorem Made.ordered (h : Made s) : s.Ordered := by
  induction h with
  | empty => exact ⟨.nil, by simp [CharSet.empty]⟩
  | ofList cs => exact .ofList cs
  | singleton c => exact ⟨List.pairwise_singleton _ c, by simp [CharSet.singleton]⟩
  | range a b => exact .withRange ⟨.nil, by simp [CharSet.empty]⟩ a b
  | withRange a b _ ih => exact ih.withRange a b
  | withChars cs _ ih => exact ih.union (.ofList cs)
  | union _ _ ihs iht => exact ihs.union iht
  | parse htext => exact ordered_of_parse htext

/-! ### Membership -/

theorem Ordered.contains_iff (h : s.Ordered) :
    s.contains c = true ↔ c ∈ s.chars ∨ ∃ r ∈ s.ranges, inRange c r = true := by
  simp [contains, lookup_eq_true_iff h.chars]

theorem contains_union (hs : s.Ordered) (ht : t.Ordered) :
    (s.union t).contains c = (s.contains c || t.contains c) := by
  rw [Bool.eq_iff_iff, Bool.or_eq_true, (hs.union ht).contains_iff, hs.contains_iff,
    ht.contains_iff]
  simp only [union, mem_foldr_insertChar, mem_foldl_insertRange]
  grind

theorem contains_ofList : (ofList cs).contains c = decide (c ∈ cs) := by
  rw [Bool.eq_iff_iff, decide_eq_true_iff, (Ordered.ofList cs).contains_iff]
  simp [ofList]

end Lexing.CharSet
