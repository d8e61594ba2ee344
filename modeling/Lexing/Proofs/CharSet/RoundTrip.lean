import Lexing.Proofs.CharSet.Membership

namespace Lexing.CharSet

variable {s : CharSet} {leading : Bool} {rest : List Char}

@[simp]
theorem escape_ne_nil (c : Char) : escape c ≠ [] := by
  unfold escape
  split_ifs <;> simp

theorem items?_escape (leading : Bool) (c : Char) (rest : List Char) :
    items? leading (escape c ++ rest) = (items? false rest).map (.char c :: ·) := by
  unfold escape
  split_ifs with hn ht hr hs hmark
  · subst hn
    simp [items?, unescape]
  · subst ht
    simp [items?, unescape]
  · subst hr
    simp [items?, unescape]
  · subst hs
    simp [items?, unescape]
  · obtain rfl | rfl := hmark
    · simp [items?, unescape]
    · simp [items?, unescape]
  · obtain ⟨hback, hdash⟩ := not_or.mp hmark
    rw [List.singleton_append, items?.eq_def]
    simp [hback, hdash]

theorem items?_dash (h : rest ≠ []) :
    items? false ('-' :: rest) = (items? false rest).map (.dash :: ·) := by
  rw [items?.eq_def]
  simp [h]

theorem items?_range (leading : Bool) (a b : Char) (rest : List Char) :
    items? leading (escape a ++ '-' :: escape b ++ rest) =
      (items? false rest).map fun items => .char a :: .dash :: .char b :: items := by
  have hnext : escape b ++ rest ≠ [] := by simp
  rw [List.append_assoc, List.cons_append, items?_escape, items?_dash hnext, items?_escape]
  simp [Function.comp_def]

theorem items?_chars (leading : Bool) (chars : List Char) :
    items? leading (chars.flatMap escape) = some (chars.map .char) := by
  induction chars generalizing leading with
  | nil => rfl
  | cons c chars ih => rw [List.flatMap_cons, items?_escape, ih, Option.map_some, List.map_cons]

def items (s : CharSet) : List Item :=
  s.ranges.flatMap (fun (a, b) => [.char a, .dash, .char b]) ++ s.chars.map .char

theorem items?_write (leading : Bool) (s : CharSet) : items? leading s.write = some s.items := by
  obtain ⟨chars, ranges⟩ := s
  simp only [write, items]
  induction ranges generalizing leading with
  | nil => exact items?_chars leading chars
  | cons r ranges ih =>
    rw [List.flatMap_cons, List.append_assoc, items?_range, ih, Option.map_some]
    simp

theorem assemble_chars (chars : List Char) : assemble (chars.map .char) = .ok ([], chars) := by
  induction chars with
  | nil => rfl
  | cons c chars ih =>
    have hnext : ∀ d rest, chars.map Item.char ≠ .dash :: .char d :: rest := by
      cases chars <;> simp
    rw [List.map_cons, assemble.eq_2 c _ hnext, ih]
    rfl

theorem Ordered.assemble_items (h : s.Ordered) : assemble s.items = .ok (s.ranges, s.chars) := by
  obtain ⟨chars, ranges⟩ := s
  have hranges := h.ranges
  simp only [items] at hranges ⊢
  clear h
  induction ranges with
  | nil => exact assemble_chars chars
  | cons r ranges ih =>
    obtain ⟨a, b⟩ := r
    have hle : ¬b < a := not_lt.mpr (hranges (a, b) (by simp))
    have hrest := ih fun r hr => hranges r (by simp [hr])
    simp only [List.flatMap_cons, List.cons_append, List.nil_append, assemble, hle, hrest,
      if_false]
    rfl

theorem Ordered.withChars_eq (h : s.Ordered) : withChars { ranges := s.ranges } s.chars = s := by
  simp [withChars, CharSet.union, CharSet.ofList, foldr_insertChar_of_pairwise h.chars]

theorem Ordered.parse_eq (h : s.Ordered) (hne : s.isEmpty = false) : parse s.render = .ok s := by
  have hitems : items? true s.render.toList = some s.items := by
    rw [render, String.toList_ofList, items?_write]
  simp [parse, hitems, h.assemble_items, h.withChars_eq, hne]

/-- The written form of a set with anything in it reads as that set, the order and repetitions of
its ranges included. -/
theorem parse_render (h : Made s) (hne : s.isEmpty = false) : parse s.render = .ok s :=
  h.ordered.parse_eq hne

theorem parse_render_dashes :
    let s := (((range ' ' '-').withRange '-' 'n').withRange '-' ' ').withChars ['s', '\\', '-', ' ']
    Made s ∧ s.isEmpty = false ∧ s.render = "\\s-\\-\\--n\\s-\\-\\s\\-\\\\s" ∧
      parse s.render = .ok s := by
  -- ranges that end in a dash, one of them twice, with the backslash, a space and letters
  have hmade : Made ((((range ' ' '-').withRange '-' 'n').withRange '-' ' ').withChars
      ['s', '\\', '-', ' ']) :=
    .withChars _ (.withRange _ _ (.withRange _ _ (.range _ _)))
  exact ⟨hmade, by decide, by decide, parse_render hmade (by decide)⟩

end Lexing.CharSet
