import Lexing.Proofs.Tokenizer.Greedy

namespace Lexing

variable {κ : Type} [CustomMatcher κ]

def started (c : Char) (pos : Position) : (index : Nat) → List (TokenRule κ) → List (OpenMatch κ)
  | _, [] => []
  | index, r :: rest =>
    if r.startsWith c && r.compound then
      ⟨pos, index, r.prototype.copy⟩ :: started c pos (index + 1) rest
    else started c pos (index + 1) rest

variable {c : Char} {pos : Position}

theorem mem_started {index : Nat} {rules : List (TokenRule κ)} {m : OpenMatch κ}
    (h : m ∈ started c pos index rules) : ∃ j r, rules[j]? = some r ∧ r.startsWith c = true ∧
      r.compound = true ∧ m = ⟨pos, index + j, r.prototype.copy⟩ := by
  induction rules generalizing index with
  | nil => cases h
  | cons r rest ih =>
    have hrest : m ∈ started c pos (index + 1) rest → ∃ j r', (r :: rest)[j]? = some r' ∧
        r'.startsWith c = true ∧ r'.compound = true ∧ m = ⟨pos, index + j, r'.prototype.copy⟩ := by
      intro h
      obtain ⟨j, r', hr', hstart, hcompound, rfl⟩ := ih h
      exact ⟨j + 1, r', by simpa using hr', hstart, hcompound, by rw [Nat.add_assoc, Nat.add_comm 1]⟩
    rw [started] at h
    split at h
    · next hstarts =>
      rw [Bool.and_eq_true] at hstarts
      rcases List.mem_cons.1 h with rfl | h
      · exact ⟨0, r, rfl, hstarts.1, hstarts.2, rfl⟩
      · exact hrest h
    · exact hrest h

theorem started_congr {index : Nat} {rules rules' : List (TokenRule κ)}
    (h : rules'.map TokenRule.bare = rules.map TokenRule.bare) :
    started c pos index rules' = started c pos index rules := by
  induction rules generalizing index rules' with
  | nil => rw [List.map_eq_nil_iff.1 h]
  | cons r rest ih =>
    obtain ⟨s, rest', rfl, hs, hrest⟩ := List.map_eq_cons_iff.1 h
    rw [started, started, TokenRule.startsWith_of_bare hs, TokenRule.compound_of_bare hs,
      TokenRule.prototype_of_bare hs, ih hrest]

theorem started_eq_nil {index : Nat} {rules : List (TokenRule κ)}
    (h : ∀ r ∈ rules, r.compound = true → r.startsWith c = false) :
    started c pos index rules = [] := by
  apply List.eq_nil_iff_forall_not_mem.2
  intro m hm
  obtain ⟨j, r, hr, hstart, hcompound, -⟩ := mem_started hm
  rw [h r (List.mem_of_getElem? hr) hcompound] at hstart
  cases hstart

theorem started_eq_singleton {index k : Nat} {rules : List (TokenRule κ)} {r : TokenRule κ}
    (hr : rules[k]? = some r) (hcompound : r.compound = true) (hstart : r.startsWith c = true)
    (honly : ∀ j s, rules[j]? = some s → s.compound = true → s.startsWith c = true → j = k) :
    started c pos index rules = [⟨pos, index + k, r.prototype.copy⟩] := by
  induction rules generalizing index k with
  | nil => cases hr
  | cons s rest ih =>
    rw [started]
    cases k with
    | zero =>
      cases hr
      have hrest : started c pos (index + 1) rest = [] := by
        apply started_eq_nil
        intro s hs hcompound
        obtain ⟨j, hj⟩ := List.mem_iff_getElem?.1 hs
        exact eq_false_of_ne_true fun hstart => Nat.succ_ne_zero j (honly (j + 1) s hj hcompound hstart)
      rw [hstart, hcompound, hrest]
      rfl
    | succ k =>
      have hskip : (s.startsWith c && s.compound) = false := by
        apply eq_false_of_ne_true
        intro h
        rw [Bool.and_eq_true] at h
        exact Nat.succ_ne_zero k (honly 0 s rfl h.2 h.1).symm
      rw [hskip, Nat.add_comm k 1, ← Nat.add_assoc]
      exact ih hr fun j t ht hcompound hstart => Nat.succ.inj (honly (j + 1) t ht hcompound hstart)

/-- The rules that have had their turn are `tried`. They are all of them unless one has found a
token: the next simple one. -/
theorem Scanner.Launches.opened_eq [LawfulCursor κ] {text : List Char} {i : Nat} {cur : Cursor}
    {opened : List (OpenMatch κ)} {index : Nat} {rules : List (TokenRule κ)} {l : Launch κ}
    (h : Launches c cur opened index rules l) (hc : text[i]? = some c)
    (hcur : cur = .past text (i + 1)) : ∃ tried rest, rules = tried ++ rest ∧
      l.opened = (started c cur.position index tried).reverse ++ opened ∧
      (l.found = none → rest = []) ∧ (l.found ≠ none → simpleToken? rest text i ≠ none) := by
  induction h with
  | nil => exact ⟨[], [], rfl, rfl, fun _ => rfl, fun h => absurd rfl h⟩
  | @pass cur opened index r r' rest l hstart _ _ _ ih =>
    obtain ⟨tried, later, rfl, hopened, hnone, hsome⟩ := ih hcur
    exact ⟨r :: tried, later, rfl, by simpa [started, hstart, Launch.behind] using hopened, hnone, hsome⟩
  | @start cur opened index r r' rest l hstart hcompound _ _ _ ih =>
    obtain ⟨tried, later, rfl, hopened, hnone, hsome⟩ := ih hcur
    refine ⟨r :: tried, later, rfl, ?_, hnone, hsome⟩
    simpa [started, hstart, hcompound, Launch.behind] using hopened
  | @found cur opened index r r' rest t count after hstart hcompound _ _ hread =>
    refine ⟨[], r :: rest, rfl, rfl, ?_, fun _ => ?_⟩
    · intro hnone
      cases hnone
    · rw [hcur, TokenRule.readFresh_past hc hstart, Prod.mk.injEq, Option.map_eq_some_iff] at hread
      obtain ⟨⟨p, hp, -⟩, -⟩ := hread
      simp [simpleToken?_cons, hcompound, hp]
  | @miss cur opened index r r' rest l after hstart hcompound _ _ hread _ ih =>
    have hafter : after = cur := by
      rw [hcur, TokenRule.readFresh_past hc hstart, Prod.mk.injEq, Option.map_eq_none_iff] at hread
      obtain ⟨hnone, rfl⟩ := hread
      rw [hnone, hcur]
      rfl
    subst hafter
    obtain ⟨tried, later, rfl, hopened, hnone, hsome⟩ := ih hcur
    exact ⟨r :: tried, later, rfl, by simpa [started, hcompound, Launch.behind] using hopened, hnone,
      hsome⟩

theorem exists_of_simpleToken? {rules : List (TokenRule κ)} {text : List Char} {i : Nat}
    (hc : text[i]? = some c) {p : Token × Nat} (h : simpleToken? rules text i = some p) :
    ∃ r ∈ rules, r.compound = false ∧ r.startsWith c = true := by
  obtain ⟨r, hr, htoken⟩ := List.exists_of_findSome?_eq_some h
  obtain ⟨hmem, hsimple⟩ := List.mem_filter.1 hr
  refine ⟨r, hmem, by simpa using hsimple, ?_⟩
  rw [TokenRule.tokenAt?, hc, Option.any_some] at htoken
  split at htoken
  · assumption
  · cases htoken

def Apart (rules : List (TokenRule κ)) (c : Char) : Prop :=
  ∀ r ∈ rules, r.compound = true → r.startsWith c = true →
    ∀ s ∈ rules, s.compound = false → s.startsWith c = false

theorem Apart.startsWith_of_simpleToken? {rules : List (TokenRule κ)} (h : Apart rules c)
    {text : List Char} {i : Nat} (hc : text[i]? = some c) {p : Token × Nat}
    (htoken : simpleToken? rules text i = some p) :
    ∀ r ∈ rules, r.compound = true → r.startsWith c = false := by
  intro r hr hcompound
  obtain ⟨s, hs, hsimple, hstart⟩ := exists_of_simpleToken? hc htoken
  apply eq_false_of_ne_true
  intro hstarts
  rw [h r hr hcompound hstarts s hs hsimple] at hstart
  cases hstart

theorem simpleToken?_append_ne_none {before after : List (TokenRule κ)} {text : List Char} {i : Nat}
    (h : simpleToken? after text i ≠ none) : simpleToken? (before ++ after) text i ≠ none := by
  induction before with
  | nil => exact h
  | cons r rest ih =>
    rw [List.cons_append, simpleToken?_cons]
    split
    · exact ih
    · simp [ih]

theorem Scanner.Launches.mem_opened [LawfulCursor κ] {text : List Char} {i : Nat} {cur : Cursor}
    {opened : List (OpenMatch κ)} {rules rules' : List (TokenRule κ)} {l : Launch κ}
    (h : Launches c cur opened 0 rules' l)
    (hbare : rules'.map TokenRule.bare = rules.map TokenRule.bare) (hc : text[i]? = some c)
    (hcur : cur = .past text (i + 1)) : ∃ new, l.opened = new ++ opened ∧
      ∀ m ∈ new, (∃ r, rules[m.rule]? = some r ∧ r.compound = true ∧
          m = ⟨cur.position, m.rule, r.prototype.copy⟩) ∧
        (l.found ≠ none → simpleToken? (rules.drop (m.rule + 1)) text i ≠ none) := by
  obtain ⟨tried, rest, rfl, hopened, -, hsome⟩ := h.opened_eq hc hcur
  refine ⟨_, hopened, ?_⟩
  intro m hm
  obtain ⟨j, r', hr', -, hcompound, rfl⟩ := mem_started (List.mem_reverse.1 hm)
  have hj : j + 1 ≤ tried.length := (List.getElem?_eq_some_iff.1 hr').1
  simp only [Nat.zero_add]
  constructor
  · have happend : (tried ++ rest)[j]? = some r' := by rw [List.getElem?_append_left hj, hr']
    obtain ⟨r, hr, heq⟩ := TokenRule.exists_of_bare hbare happend
    rw [TokenRule.compound_of_bare heq] at hcompound
    exact ⟨r, hr, hcompound, by rw [TokenRule.prototype_of_bare heq]⟩
  · intro hfound
    have hdrop : ((tried ++ rest).drop (j + 1)).map TokenRule.bare =
        (rules.drop (j + 1)).map TokenRule.bare := by
      rw [List.map_drop, hbare, List.map_drop]
    rw [← simpleToken?_congr hdrop, List.drop_append_of_le_length hj]
    exact simpleToken?_append_ne_none (hsome hfound)

namespace Scanner

variable [LawfulCopy κ] [LawfulCursor κ] {rules : List (TokenRule κ)} {s : Scanner κ}
  {text : List Char} {i : Nat} (hs : s.Sound)
  (hbare : s.rules.map TokenRule.bare = rules.map TokenRule.bare) (hc : text[i]? = some c)
include hs hbare hc

theorem step_free (hfree : simpleToken? rules text i = none) :
    ∃ rules', rules'.map TokenRule.bare = rules.map TokenRule.bare ∧
      let cur := Cursor.past text (i + 1)
      let o := offerOpened c rules' ((started c cur.position 0 rules).reverse ++ s.opened) cur
      (s.step c cur).scanner.opened = o.opened ∧ (s.step c cur).reports = o.found.toList ∧
        (s.step c cur).result = o.error.elim (.ok 0) .error := by
  have hl := launches_launch c (.past text (i + 1)) s.opened 0 hs.ready
  obtain ⟨hsimple, hcursor⟩ := hl.simple_found hc rfl
  rw [simpleToken?_congr hbare, hfree] at hsimple hcursor
  have hfound : (launch c (.past text (i + 1)) s.opened 0 s.rules).found = none :=
    Option.map_eq_none_iff.1 hsimple
  obtain ⟨tried, rest, heq, hopened, hnone, -⟩ := hl.opened_eq hc rfl
  rw [hnone hfound, List.append_nil] at heq
  rw [← heq, started_congr hbare] at hopened
  refine ⟨_, hl.bare.trans hbare, ?_⟩
  simp only [step, hfound, hcursor, hopened, Option.elim_none]
  refine ⟨trivial, trivial, ?_⟩
  split <;> simp_all

theorem step_skip (hapart : Apart rules c) {token : Token} {j : Nat}
    (htoken : simpleToken? rules text i = some (token, j)) :
    let t := s.step c (.past text (i + 1))
    (∃ n, t.result = .ok n) ∧ t.scanner.opened = s.opened ∧
      ∀ p ∈ t.reports, isSimple rules p.1 = true := by
  have hnone := hapart.startsWith_of_simpleToken? hc htoken
  have hl := launches_launch c (.past text (i + 1)) s.opened 0 hs.ready
  obtain ⟨hsimple, -⟩ := hl.simple_found hc rfl
  rw [simpleToken?_congr hbare, htoken] at hsimple
  obtain ⟨f, hfound, -⟩ := Option.map_eq_some_iff.1 hsimple
  obtain ⟨tried, rest, heq, hopened, -, -⟩ := hl.opened_eq hc rfl
  obtain ⟨r, hr, hnot⟩ := hl.simple_rule [] hfound
  have hstarted : started c (Cursor.past text (i + 1)).position 0 tried = [] := by
    apply started_eq_nil
    intro r hr hcompound
    obtain ⟨k, hk⟩ := List.mem_iff_getElem?.1 (heq ▸ List.mem_append_left rest hr)
    obtain ⟨q, hq, hbareq⟩ := TokenRule.exists_of_bare hbare hk
    rw [TokenRule.startsWith_of_bare hbareq]
    exact hnone q (List.mem_of_getElem? hq) (TokenRule.compound_of_bare hbareq ▸ hcompound)
  intro t
  simp only [t, step, hfound, hopened, hstarted]
  refine ⟨⟨_, rfl⟩, rfl, ?_⟩
  intro p hp
  rw [List.mem_singleton.1 hp, ← isSimple_congr hbare]
  have hr : s.rules[f.1.1]? = some r := hr
  simp [isSimple, hr, hnot]

end Scanner

end Lexing
