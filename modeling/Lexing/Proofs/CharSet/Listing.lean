import Lexing.Proofs.CharSet.RoundTrip

/-!
What is in a set. A text lists single characters and ranges (`Lists`), and sets are combined from what
their parts mention (`Recipe`). The set that is made contains exactly what is mentioned.
-/

namespace Lexing.CharSet

/-! ### What a text lists -/

inductive Spells : List Char → Char → Prop
  | plain {c : Char} : c ≠ '\\' → Spells [c] c
  | escaped (c : Char) : Spells ['\\', c] (unescape c)

def Stands (first : Bool) (w rest : List Char) : Prop := w = ['-'] → first = true ∨ rest = []

def GoesOn (text : List Char) : Prop :=
  ∃ w b rest, text = '-' :: (w ++ rest) ∧ Spells w b ∧ Stands false w rest

/-- The ranges and the characters that a text lists, where the flag says that nothing is in front of it. A
range is preferred, and a dash that has nothing to join is listed itself. -/
inductive Lists : Bool → List Char → List (Char × Char) → List Char → Prop
  | nil {first : Bool} : Lists first [] [] []
  | range {first : Bool} {v w rest : List Char} {a b : Char} {ranges : List (Char × Char)}
      {chars : List Char} : Spells v a → Stands first v ('-' :: (w ++ rest)) → Spells w b →
      Stands false w rest → a ≤ b → Lists false rest ranges chars →
      Lists first (v ++ '-' :: (w ++ rest)) ((a, b) :: ranges) chars
  | char {first : Bool} {v rest : List Char} {c : Char} {ranges : List (Char × Char)}
      {chars : List Char} : Spells v c → Stands first v rest → ¬GoesOn rest →
      Lists false rest ranges chars → Lists first (v ++ rest) ranges (c :: chars)
  | dash {rest : List Char} {ranges : List (Char × Char)} {chars : List Char} : rest ≠ [] →
      Lists false rest ranges chars → Lists false ('-' :: rest) ranges ('-' :: chars)

variable {first : Bool} {text v w rest chars : List Char} {a b c : Char} {items : List Item}
  {ranges : List (Char × Char)} {s : CharSet}

theorem Spells.ne_nil (h : Spells w b) : w ≠ [] := by
  cases h <;> simp

theorem items?_spells (h : Spells v a) (hstands : Stands first v rest) :
    items? first (v ++ rest) = (items? false rest).map (.char a :: ·) := by
  cases h with
  | plain hback =>
    have hjoin : ¬(a = '-' ∧ first = false ∧ rest ≠ []) := by
      rintro ⟨rfl, hfirst, hrest⟩
      exact (hstands rfl).elim (by simp [hfirst]) hrest
    rw [List.singleton_append, items?.eq_def]
    simp only [if_neg hback, if_neg hjoin]
  | escaped c => rw [List.cons_append, List.cons_append, List.nil_append, items?.eq_def]; rfl

theorem cases_items? (h : items? first text = some items) :
    (text = [] ∧ items = []) ∨
    (∃ v a rest items', Spells v a ∧ Stands first v rest ∧ text = v ++ rest ∧
      items = .char a :: items' ∧ items? false rest = some items') ∨
    ∃ rest items', first = false ∧ rest ≠ [] ∧ text = '-' :: rest ∧ items = .dash :: items' ∧
      items? false rest = some items' := by
  fun_cases items? first text with
  | case1 =>
    cases h
    exact .inl ⟨rfl, rfl⟩
  | case2 => cases h
  | case3 d rest =>
    obtain ⟨items', hitems, rfl⟩ := Option.map_eq_some_iff.1 h
    exact .inr (.inl ⟨['\\', d], _, rest, items', .escaped d, nofun, rfl, rfl, hitems⟩)
  | case4 c rest hback hjoin =>
    obtain ⟨rfl, rfl, hrest⟩ := hjoin
    rw [items?_dash hrest] at h
    obtain ⟨items', hitems, rfl⟩ := Option.map_eq_some_iff.1 h
    exact .inr (.inr ⟨rest, items', rfl, hrest, rfl, rfl, hitems⟩)
  | case5 c rest hback hjoin =>
    have hstands : Stands first [c] rest := by
      rintro ⟨rfl⟩
      by_contra hnot
      obtain ⟨hfirst, hrest⟩ := not_or.1 hnot
      exact hjoin ⟨rfl, Bool.eq_false_iff.2 hfirst, hrest⟩
    rw [← List.singleton_append, items?_spells (.plain hback) hstands] at h
    obtain ⟨items', hitems, rfl⟩ := Option.map_eq_some_iff.1 h
    exact .inr (.inl ⟨[c], c, rest, items', .plain hback, hstands, rfl, rfl, hitems⟩)

theorem exists_of_items?_char (h : items? first text = some (.char a :: items)) :
    ∃ v rest, Spells v a ∧ Stands first v rest ∧ text = v ++ rest ∧ items? false rest = some items := by
  obtain ⟨-, hnil⟩ | ⟨v, _, rest, _, hv, hstands, htext, hchar, hrest⟩ | ⟨_, _, -, -, -, hdash, -⟩ :=
    cases_items? h
  · cases hnil
  · cases hchar
    exact ⟨v, rest, hv, hstands, htext, hrest⟩
  · cases hdash

theorem exists_of_items?_dash (h : items? first text = some (.dash :: items)) :
    first = false ∧ ∃ rest, rest ≠ [] ∧ text = '-' :: rest ∧ items? false rest = some items := by
  obtain ⟨-, hnil⟩ | ⟨_, _, _, _, -, -, -, hchar, -⟩ | ⟨rest, _, hfirst, hne, htext, hdash, hrest⟩ :=
    cases_items? h
  · cases hnil
  · cases hchar
  · cases hdash
    exact ⟨hfirst, rest, hne, htext, hrest⟩

theorem goesOn_iff (h : items? false text = some items) :
    GoesOn text ↔ ∃ b items', items = .dash :: .char b :: items' := by
  constructor
  · rintro ⟨w, b, rest, rfl, hw, hstands⟩
    rw [items?_dash (by simp [hw.ne_nil]), items?_spells hw hstands, Option.map_map] at h
    obtain ⟨items', -, rfl⟩ := Option.map_eq_some_iff.1 h
    exact ⟨b, items', rfl⟩
  · rintro ⟨b, items', rfl⟩
    obtain ⟨-, rest, -, rfl, hrest⟩ := exists_of_items?_dash h
    obtain ⟨w, rest, hw, hstands, rfl, -⟩ := exists_of_items?_char hrest
    exact ⟨w, b, rest, rfl, hw, hstands⟩

theorem assemble_char (c : Char) (h : ∀ b items', items ≠ .dash :: .char b :: items') :
    assemble (.char c :: items) =
      (assemble items).map fun (ranges, chars) => (ranges, c :: chars) :=
  assemble.eq_2 c items h

theorem exists_items_of_lists (h : Lists first text ranges chars) :
    ∃ items, items? first text = some items ∧ assemble items = .ok (ranges, chars) := by
  induction h with
  | nil => exact ⟨[], rfl, rfl⟩
  | @range first v w rest a b ranges chars hv hfirst hw hlast hle _ ih =>
    obtain ⟨items, hitems, hparts⟩ := ih
    refine ⟨.char a :: .dash :: .char b :: items, ?_, ?_⟩
    · rw [items?_spells hv hfirst, items?_dash (by simp [hw.ne_nil]), items?_spells hw hlast, hitems]
      rfl
    · rw [assemble, if_neg (not_lt.2 hle), hparts]
      rfl
  | @char first v rest c ranges chars hv hstands hnext _ ih =>
    obtain ⟨items, hitems, hparts⟩ := ih
    have halone := mt (goesOn_iff hitems).2 hnext
    refine ⟨.char c :: items, ?_, ?_⟩
    · rw [items?_spells hv hstands, hitems]
      rfl
    · rw [assemble_char c fun b items' heq => halone ⟨b, items', heq⟩, hparts]
      rfl
  | @dash rest ranges chars hrest _ ih =>
    obtain ⟨items, hitems, hparts⟩ := ih
    refine ⟨.dash :: items, ?_, ?_⟩
    · rw [items?_dash hrest, hitems]
      rfl
    · rw [assemble, hparts]
      rfl

theorem lists_of_items? (hitems : items? first text = some items)
    (hparts : assemble items = .ok (ranges, chars)) : Lists first text ranges chars := by
  -- on the items; the pieces of the text that they stand for are found from the front
  fun_induction assemble items generalizing first text ranges chars with
  | case1 a b rest hlt => cases hparts
  | case2 a b rest hle ih =>
    obtain ⟨parts, hrest, heq⟩ := exists_of_map_eq_ok hparts
    cases heq
    obtain ⟨v, _, hv, hfirst, rfl, hdash⟩ := exists_of_items?_char hitems
    obtain ⟨-, _, -, rfl, hchar⟩ := exists_of_items?_dash hdash
    obtain ⟨w, _, hw, hlast, rfl, hitems'⟩ := exists_of_items?_char hchar
    exact .range hv hfirst hw hlast (not_lt.1 hle) (ih hitems' hrest)
  | case3 c rest hnext ih =>
    obtain ⟨parts, hrest, heq⟩ := exists_of_map_eq_ok hparts
    cases heq
    obtain ⟨v, _, hv, hstands, rfl, hitems'⟩ := exists_of_items?_char hitems
    refine .char hv hstands (mt (goesOn_iff hitems').1 ?_) (ih hitems' hrest)
    rintro ⟨b, items', rfl⟩
    exact hnext b items' rfl
  | case4 rest ih =>
    obtain ⟨parts, hrest, heq⟩ := exists_of_map_eq_ok hparts
    cases heq
    obtain ⟨rfl, _, hne, rfl, hitems'⟩ := exists_of_items?_dash hitems
    exact .dash hne (ih hitems' hrest)
  | case5 =>
    cases hparts
    obtain ⟨rfl, -⟩ | ⟨_, _, _, _, -, -, -, hchar, -⟩ | ⟨_, _, -, -, -, hdash, -⟩ :=
      cases_items? hitems
    · exact .nil
    · cases hchar
    · cases hdash

theorem lists_iff : Lists first text ranges chars ↔
    ∃ items, items? first text = some items ∧ assemble items = .ok (ranges, chars) := by
  refine ⟨exists_items_of_lists, ?_⟩
  rintro ⟨items, hitems, hparts⟩
  exact lists_of_items? hitems hparts

theorem Lists.unique {ranges' : List (Char × Char)} {chars' : List Char}
    (h : Lists first text ranges chars) (h' : Lists first text ranges' chars') :
    ranges = ranges' ∧ chars = chars' := by
  obtain ⟨items, hitems, hparts⟩ := lists_iff.1 h
  obtain ⟨items', hitems', hparts'⟩ := lists_iff.1 h'
  cases hitems.symm.trans hitems'
  cases hparts.symm.trans hparts'
  exact ⟨rfl, rfl⟩

theorem lists_of_parse {text : String} (h : parse text = .ok s) :
    ∃ ranges chars, Lists true text.toList ranges chars ∧ s = withChars { ranges } chars := by
  obtain ⟨items, ranges, chars, hitems, hparts, rfl⟩ := exists_of_parse h
  exact ⟨ranges, chars, lists_of_items? hitems hparts, rfl⟩

/-! ### What a set is made of -/

inductive Recipe where
  | ofList (chars : List Char)
  | singleton (c : Char)
  | range (a b : Char)
  | withRange (r : Recipe) (a b : Char)
  | withChars (r : Recipe) (chars : List Char)
  | union (r q : Recipe)
  | parse (text : String)

def Between (a b c : Char) : Prop := (a ≤ c ∧ c ≤ b) ∨ (b ≤ c ∧ c ≤ a)

namespace Recipe

def make : Recipe → Except ParseError CharSet
  | .ofList chars => .ok (.ofList chars)
  | .singleton c => .ok (.singleton c)
  | .range a b => .ok (.range a b)
  | .withRange r a b => r.make.map fun s => s.withRange a b
  | .withChars r chars => r.make.map fun s => s.withChars chars
  | .union r q => r.make.bind fun s => q.make.map s.union
  | .parse text => CharSet.parse text

def Mentions : Recipe → Char → Prop
  | .ofList chars, c => c ∈ chars
  | .singleton d, c => c = d
  | .range a b, c => Between a b c
  | .withRange r a b, c => r.Mentions c ∨ Between a b c
  | .withChars r chars, c => r.Mentions c ∨ c ∈ chars
  | .union r q, c => r.Mentions c ∨ q.Mentions c
  | .parse text, c => ∃ ranges chars, Lists true text.toList ranges chars ∧
      (c ∈ chars ∨ ∃ r ∈ ranges, r.1 ≤ c ∧ c ≤ r.2)

end Recipe

namespace Recipe

variable {r q : Recipe}

theorem made (h : r.make = .ok s) : Made s := by
  induction r generalizing s with
  | ofList chars =>
    cases h
    exact .ofList chars
  | singleton c =>
    cases h
    exact .singleton c
  | range a b =>
    cases h
    exact .range a b
  | withRange r a b ih =>
    obtain ⟨t, ht, rfl⟩ := exists_of_map_eq_ok h
    exact .withRange a b (ih ht)
  | withChars r chars ih =>
    obtain ⟨t, ht, rfl⟩ := exists_of_map_eq_ok h
    exact .withChars chars (ih ht)
  | union r q ihr ihq =>
    obtain ⟨t, ht, h⟩ := exists_of_bind_eq_ok h
    obtain ⟨t', ht', rfl⟩ := exists_of_map_eq_ok h
    exact .union (ihr ht) (ihq ht')
  | parse text => exact .parse h

end Recipe

theorem contains_withRange : (s.withRange a b).contains c = true ↔
    s.contains c = true ∨ Between a b c := by
  have hrange : inRange c (if a ≤ b then (a, b) else (b, a)) = true ↔ Between a b c := by
    unfold inRange Between
    split <;> grind
  simp [contains, withRange, hrange, or_assoc]

theorem contains_withChars (h : s.Ordered) :
    (s.withChars chars).contains c = true ↔ s.contains c = true ∨ c ∈ chars := by
  rw [withChars, contains_union h (.ofList chars), Bool.or_eq_true, contains_ofList,
    decide_eq_true_eq]

theorem Lists.ordered (h : Lists first text ranges chars) : Ordered { ranges } := by
  obtain ⟨items, -, hparts⟩ := lists_iff.1 h
  exact ⟨.nil, le_of_assemble hparts⟩

theorem contains_parse {text : String} (h : parse text = .ok s) : s.contains c = true ↔
    ∃ ranges chars, Lists true text.toList ranges chars ∧
      (c ∈ chars ∨ ∃ r ∈ ranges, r.1 ≤ c ∧ c ≤ r.2) := by
  obtain ⟨ranges, chars, hlists, rfl⟩ := lists_of_parse h
  have hparts : (withChars { ranges } chars).contains c = true ↔
      c ∈ chars ∨ ∃ r ∈ ranges, r.1 ≤ c ∧ c ≤ r.2 := by
    rw [contains_withChars hlists.ordered, hlists.ordered.contains_iff, or_comm]
    simp [inRange]
  rw [hparts]
  constructor
  · exact fun hc => ⟨ranges, chars, hlists, hc⟩
  · rintro ⟨ranges', chars', hlists', hc⟩
    obtain ⟨rfl, rfl⟩ := hlists.unique hlists'
    exact hc

theorem Recipe.contains_make {r : Recipe} (h : r.make = .ok s) :
    s.contains c = true ↔ r.Mentions c := by
  induction r generalizing s with
  | ofList chars =>
    cases h
    rw [contains_ofList, decide_eq_true_eq, Mentions]
  | singleton d =>
    cases h
    rw [(made (r := .singleton d) rfl).ordered.contains_iff]
    simp [CharSet.singleton, Mentions]
  | range a b =>
    cases h
    rw [CharSet.range, contains_withRange, Mentions]
    simp [contains, CharSet.empty, lookup]
  | withRange r a b ih =>
    obtain ⟨t, ht, rfl⟩ := exists_of_map_eq_ok h
    rw [contains_withRange, ih ht, Mentions]
  | withChars r chars ih =>
    obtain ⟨t, ht, rfl⟩ := exists_of_map_eq_ok h
    rw [contains_withChars (made ht).ordered, ih ht, Mentions]
  | union r q ihr ihq =>
    obtain ⟨t, ht, h⟩ := exists_of_bind_eq_ok h
    obtain ⟨t', ht', rfl⟩ := exists_of_map_eq_ok h
    rw [contains_union (made ht).ordered (made ht').ordered, Bool.or_eq_true, ihr ht, ihq ht', Mentions]
  | parse text => exact contains_parse h

/-- A set that is made from characters, ranges and texts keeps its characters in increasing order and its
ranges the right way round, and it contains exactly what its parts mention. A union contains what either
of the two sets contains. -/
theorem contains_iff_mentions {r : Recipe} (h : r.make = .ok s) :
    s.chars.Pairwise (· < ·) ∧ (∀ q ∈ s.ranges, q.1 ≤ q.2) ∧
      (∀ c, s.contains c = true ↔ r.Mentions c) ∧
      ∀ q t, Recipe.make q = .ok t → ∀ c, (s.union t).contains c = (s.contains c || t.contains c) := by
  have hs := (Recipe.made h).ordered
  refine ⟨hs.chars, hs.ranges, fun c => Recipe.contains_make h, fun q t ht c => ?_⟩
  exact contains_union hs (Recipe.made ht).ordered

theorem contains_iff_mentions_dashes :
    let r := Recipe.union (.withChars (.withRange (.range 'a' 'z') '9' '0') ['_', 'b', '_'])
      (.parse "\\n+--")
    let s : CharSet := ⟨['\n', '_', 'b'], [('a', 'z'), ('0', '9'), ('+', '-')]⟩
    r.make = .ok s ∧ s.chars.Pairwise (· < ·) ∧ (∀ q ∈ s.ranges, q.1 ≤ q.2) ∧ r.Mentions ',' ∧
      ¬r.Mentions '.' := by
  -- a range given backwards, a character given twice, and a text whose last dash ends a range
  intro r s
  have hmake : r.make = .ok s := by rfl
  obtain ⟨hchars, hranges, hcontains, -⟩ := contains_iff_mentions hmake
  exact ⟨hmake, hchars, hranges, (hcontains ',').1 (by decide), mt (hcontains '.').2 (by decide)⟩

end Lexing.CharSet
