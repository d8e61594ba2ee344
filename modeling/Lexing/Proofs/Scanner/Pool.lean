import Lexing.Proofs.Matcher.Copy
import Lexing.Scanner

/-!
The pools of the rules are a matter of speed only. The invariant `Scanner.Sound` says that they
hold nothing but fresh copies and that every open match is one of a compound rule; steps keep it,
and scanners with the same rules apart from the pools take the same steps (`step_congr`).
-/

namespace Lexing

variable {κ : Type}

namespace TokenRule

def bare (r : TokenRule κ) : TokenRule κ := { r with pool := [] }

theorem name_of_bare {r s : TokenRule κ} (h : r.bare = s.bare) : r.name = s.name := by
  change r.bare.name = s.bare.name
  rw [h]

theorem compound_of_bare {r s : TokenRule κ} (h : r.bare = s.bare) : r.compound = s.compound := by
  change r.bare.compound = s.bare.compound
  rw [h]

theorem startsWith_of_bare {r s : TokenRule κ} (h : r.bare = s.bare) :
    r.startsWith = s.startsWith := by
  change r.bare.startsWith = s.bare.startsWith
  rw [h]

theorem prototype_of_bare {r s : TokenRule κ} (h : r.bare = s.bare) :
    r.prototype = s.prototype := by
  change r.bare.prototype = s.bare.prototype
  rw [h]

theorem exists_of_bare {rules rules' : List (TokenRule κ)} (h : rules'.map bare = rules.map bare)
    {k : Nat} {r' : TokenRule κ} (hr : rules'[k]? = some r') :
    ∃ r, rules[k]? = some r ∧ r'.bare = r.bare := by
  have hmap : (rules[k]?).map bare = some r'.bare := by
    rw [← List.getElem?_map, ← h, List.getElem?_map, hr]
    rfl
  obtain ⟨r, hr, heq⟩ := Option.map_eq_some_iff.1 hmap
  exact ⟨r, hr, heq.symm⟩

variable [CustomMatcher κ]

def Ready (r : TokenRule κ) : Prop := ∀ m ∈ r.pool, m = r.prototype.copy

def Built (r : TokenRule κ) : Prop :=
  ∃ name compound firstChars ms, make name compound firstChars ms = .ok r

omit [CustomMatcher κ] in
theorem pool_of_withFirstChars {name : String} {compound : Bool} {firstChars : CharSet}
    {ms : List (Matcher κ)} {r : TokenRule κ}
    (h : withFirstChars name compound firstChars ms = .ok r) : r.pool = [] := by
  simp only [withFirstChars] at h
  split at h
  · cases h
  · cases h
    rfl
  · obtain ⟨m, -, rfl⟩ := exists_of_map_eq_ok h
    rfl

theorem Built.ready {r : TokenRule κ} (h : r.Built) : r.Ready := by
  obtain ⟨name, compound, firstChars, ms, h⟩ := h
  have hpool : r.pool = [] := by
    cases firstChars with
    | some chars => exact pool_of_withFirstChars h
    | none =>
      rw [make] at h
      cases hchars : jointFirstChars ms with
      | error e =>
        rw [hchars] at h
        cases h
      | ok chars =>
        rw [hchars] at h
        exact pool_of_withFirstChars h
  simp [Ready, hpool]

theorem bare_create (r : TokenRule κ) : r.create.2.bare = r.bare := by
  rw [create]
  split <;> rfl

theorem bare_release (r : TokenRule κ) (m : Matcher κ) : (r.release m).bare = r.bare := by
  rw [release]
  split <;> rfl

theorem Ready.create_fst {r : TokenRule κ} (h : r.Ready) : r.create.1 = r.prototype.copy := by
  rw [create]
  split
  · rfl
  · next m rest hpool => exact h m (by simp [hpool])

theorem Ready.create {r : TokenRule κ} (h : r.Ready) : r.create.2.Ready := by
  rw [TokenRule.create]
  split
  · exact h
  · next m rest hpool =>
    intro a ha
    exact h a (by simp [hpool, show a ∈ rest from ha])

theorem Ready.release [LawfulCopy κ] {r : TokenRule κ} (h : r.Ready) {m : Matcher κ}
    (hm : m.copy = r.prototype.copy) : (r.release m).Ready := by
  rw [TokenRule.release]
  split
  · next hcan =>
    rw [Bool.and_eq_true] at hcan
    intro a ha
    rcases List.mem_cons.1 ha with rfl | ha
    · exact (Matcher.reset_eq_copy hcan.1).trans hm
    · exact h a ha
  · exact h

end TokenRule

def TokenRule.readFresh [CustomMatcher κ] (r : TokenRule κ) (cur : Cursor) :
    Option (Token × Nat) × Cursor :=
  let (count, m, after) := r.prototype.copy.read (cur.unread 1)
  if m.isComplete then (some (m.toToken r.name cur.position after, count), after)
  else (none, after.restore cur.mark)

def TokenRule.breaksAt [CustomMatcher κ] (r : TokenRule κ) (cur : Cursor) : Bool :=
  (r.prototype.copy.read (cur.unread 1)).2.1.isBroken

theorem TokenRule.breaksAt_of_bare [CustomMatcher κ] {r s : TokenRule κ} (h : r.bare = s.bare) :
    r.breaksAt = s.breaksAt := by
  change r.bare.breaksAt = s.bare.breaksAt
  rw [h]

theorem TokenRule.readFresh_of_bare [CustomMatcher κ] {r s : TokenRule κ} (h : r.bare = s.bare) :
    r.readFresh = s.readFresh := by
  change r.bare.readFresh = s.bare.readFresh
  rw [h]

def OpenMatch.Belongs [CustomMatcher κ] (rules : List (TokenRule κ)) (m : OpenMatch κ) : Prop :=
  ∃ r, rules[m.rule]? = some r ∧ r.compound = true ∧ m.matcher.copy = r.prototype.copy

theorem OpenMatch.Belongs.congr [CustomMatcher κ] {rules rules' : List (TokenRule κ)}
    {m : OpenMatch κ} (h : m.Belongs rules)
    (hbare : rules'.map TokenRule.bare = rules.map TokenRule.bare) : m.Belongs rules' := by
  obtain ⟨r, hr, hcompound, hcopy⟩ := h
  obtain ⟨r', hr', heq⟩ := TokenRule.exists_of_bare hbare.symm hr
  refine ⟨r', hr', ?_, ?_⟩
  · rw [← TokenRule.compound_of_bare heq, hcompound]
  · rw [hcopy, TokenRule.prototype_of_bare heq]

/-- The pools hold nothing but fresh copies, and the open matches are those of compound rules. -/
structure Scanner.Sound [CustomMatcher κ] (s : Scanner κ) : Prop where
  ready : ∀ r ∈ s.rules, r.Ready
  belongs : ∀ m ∈ s.opened, m.Belongs s.rules

def Scanner.bare (s : Scanner κ) : Scanner κ := { s with rules := s.rules.map TokenRule.bare }

theorem Scanner.rules_of_bare {s t : Scanner κ} (h : s.bare = t.bare) :
    s.rules.map TokenRule.bare = t.rules.map TokenRule.bare := congrArg Scanner.rules h

theorem Scanner.opened_of_bare {s t : Scanner κ} (h : s.bare = t.bare) : s.opened = t.opened := by
  change s.bare.opened = t.bare.opened
  rw [h]

def Launch.bare (l : Launch κ) : Launch κ := { l with rules := l.rules.map TokenRule.bare }

def Launch.behind (l : Launch κ) (r : TokenRule κ) (events : List Event) (broken : Bool) : Launch κ :=
  { l with rules := r :: l.rules, events := events ++ l.events, broken := broken || l.broken }

theorem Launch.bare_behind_congr {l l' : Launch κ} {r r' : TokenRule κ} (hl : l.bare = l'.bare)
    (hr : r.bare = r'.bare) (events : List Event) (broken : Bool) :
    (l.behind r events broken).bare = (l'.behind r' events broken).bare := by
  change l.bare.behind r.bare events broken = l'.bare.behind r'.bare events broken
  rw [hl, hr]

def Offered.bare (o : Offered κ) : Offered κ := { o with rules := o.rules.map TokenRule.bare }

def Step.bare (t : Step κ) : Step κ := { t with scanner := t.scanner.bare }

namespace Scanner

variable [CustomMatcher κ]

theorem bare_readSimple (r : TokenRule κ) (cur : Cursor) : (readSimple r cur).1.bare = r.bare := by
  simp only [readSimple]
  split
  · exact (TokenRule.bare_release ..).trans r.bare_create
  · exact (TokenRule.bare_release ..).trans r.bare_create

theorem readSimple_snd {r : TokenRule κ} (h : r.Ready) (cur : Cursor) :
    (readSimple r cur).2 = ((r.readFresh cur).1, (r.readFresh cur).2, r.breaksAt cur) := by
  have hname : r.create.2.name = r.name := TokenRule.name_of_bare r.bare_create
  simp only [readSimple, TokenRule.readFresh, TokenRule.breaksAt, h.create_fst, hname]
  split <;> rfl

theorem copy_readWithin [LawfulCopy κ] (n : Nat) (m : Matcher κ) (cur : Cursor) :
    (m.readWithin n cur).2.1.copy = m.copy := by
  induction n generalizing m cur with
  | zero => rfl
  | succ n ih =>
    simp only [Matcher.readWithin]
    split
    · rfl
    · split
      · exact m.copy_accept ..
      · exact (ih _ _).trans (m.copy_accept ..)

theorem ready_readSimple [LawfulCopy κ] {r : TokenRule κ} (h : r.Ready) (cur : Cursor) :
    (readSimple r cur).1.Ready := by
  have hcopy : (r.create.1.read (cur.unread 1)).2.1.copy = r.create.2.prototype.copy := by
    rw [Matcher.read, copy_readWithin, h.create_fst, Matcher.copy_copy,
      TokenRule.prototype_of_bare r.bare_create]
  simp only [readSimple]
  split
  · exact h.create.release hcopy
  · exact h.create.release hcopy

/-- All that the rule `r` can do when its turn comes. It is `r'` then, with another pool. -/
def turn (c : Char) (cur : Cursor) (opened : List (OpenMatch κ)) (index : Nat) (r r' : TokenRule κ)
    (rest : List (TokenRule κ)) : Launch κ :=
  if !r.startsWith c then (launch c cur opened (index + 1) rest).behind r' [] false
  else if r.compound then
    (launch c cur (⟨cur.position, index, r.prototype.copy⟩ :: opened) (index + 1) rest).behind
      r' [.compoundStarted r.name cur.position] false
  else
    match r.readFresh cur with
    | (some (t, count), after) =>
      ⟨r' :: rest, opened, some ((index, t), count), after, [.simpleCompleted r.name t.span],
        r.breaksAt cur⟩
    | (none, after) => (launch c after opened (index + 1) rest).behind r' [] (r.breaksAt cur)

theorem launch_cons [LawfulCopy κ] (c : Char) (cur : Cursor) (opened : List (OpenMatch κ))
    (index : Nat) {r : TokenRule κ} (h : r.Ready) (rest : List (TokenRule κ)) :
    ∃ r' : TokenRule κ, r'.bare = r.bare ∧ r'.Ready ∧
      launch c cur opened index (r :: rest) = turn c cur opened index r r' rest := by
  by_cases hstart : r.startsWith c
  · by_cases hcompound : r.compound
    · refine ⟨r.create.2, r.bare_create, h.create, ?_⟩
      simp [launch, turn, Launch.behind, hstart, hcompound, h.create_fst,
        TokenRule.name_of_bare r.bare_create]
    · refine ⟨(readSimple r cur).1, bare_readSimple r cur, ready_readSimple h cur, ?_⟩
      have hname := TokenRule.name_of_bare (bare_readSimple r cur)
      have hsnd := readSimple_snd h cur
      rw [turn]
      simp only [launch, hstart, hcompound]
      generalize readSimple r cur = x at hname hsnd
      obtain ⟨r', found, after, broken⟩ := x
      simp only [Prod.mk.injEq] at hsnd
      obtain ⟨hfound, hafter, rfl⟩ := hsnd
      rw [show r.readFresh cur = (found, after) from Prod.ext hfound.symm hafter.symm]
      cases found with
      | none => rfl
      | some f => simp [show r'.name = r.name from hname]
  · refine ⟨r, rfl, h, ?_⟩
    simp [launch, turn, Launch.behind, hstart]

theorem launch_of_bare_cons [LawfulCopy κ] (c : Char) (cur : Cursor) (opened : List (OpenMatch κ))
    (index : Nat) {r : TokenRule κ} {rest rules : List (TokenRule κ)} (h : ∀ s ∈ rules, s.Ready)
    (hbare : rules.map TokenRule.bare = (r :: rest).map TokenRule.bare) :
    ∃ (r' : TokenRule κ) (rest' : List (TokenRule κ)), r'.bare = r.bare ∧
      (∀ s ∈ rest', s.Ready) ∧ rest'.map TokenRule.bare = rest.map TokenRule.bare ∧
      launch c cur opened index rules = turn c cur opened index r r' rest' := by
  obtain ⟨s, rest', rfl, hs, hrest⟩ := List.map_eq_cons_iff.1 hbare
  rw [List.forall_mem_cons] at h
  obtain ⟨s', hs', -, heq⟩ := launch_cons c cur opened index h.1 rest'
  refine ⟨s', rest', hs'.trans hs, h.2, hrest, heq.trans ?_⟩
  simp only [turn, TokenRule.startsWith_of_bare hs, TokenRule.compound_of_bare hs,
    TokenRule.prototype_of_bare hs, TokenRule.name_of_bare hs, TokenRule.readFresh_of_bare hs,
    TokenRule.breaksAt_of_bare hs]

inductive Launches (c : Char) : Cursor → List (OpenMatch κ) → Nat → List (TokenRule κ) →
    Launch κ → Prop
  | nil {cur opened index} : Launches c cur opened index [] ⟨[], opened, none, cur, [], false⟩
  | pass {cur opened index r r' rest l} :
      r.startsWith c = false → r'.bare = r.bare → r'.Ready →
      Launches c cur opened (index + 1) rest l →
      Launches c cur opened index (r :: rest) (l.behind r' [] false)
  | start {cur opened index r r' rest l} :
      r.startsWith c = true → r.compound = true → r'.bare = r.bare → r'.Ready →
      Launches c cur (⟨cur.position, index, r.prototype.copy⟩ :: opened) (index + 1) rest l →
      Launches c cur opened index (r :: rest)
        (l.behind r' [.compoundStarted r.name cur.position] false)
  | found {cur opened index r r' rest t count after} :
      r.startsWith c = true → r.compound = false → r'.bare = r.bare → r'.Ready →
      r.readFresh cur = (some (t, count), after) →
      Launches c cur opened index (r :: rest)
        ⟨r' :: rest, opened, some ((index, t), count), after, [.simpleCompleted r.name t.span],
          r.breaksAt cur⟩
  | miss {cur opened index r r' rest l after} :
      r.startsWith c = true → r.compound = false → r'.bare = r.bare → r'.Ready →
      r.readFresh cur = (none, after) →
      Launches c after opened (index + 1) rest l →
      Launches c cur opened index (r :: rest) (l.behind r' [] (r.breaksAt cur))

theorem launches_launch [LawfulCopy κ] (c : Char) (cur : Cursor) (opened : List (OpenMatch κ))
    (index : Nat) {rules : List (TokenRule κ)} (h : ∀ r ∈ rules, r.Ready) :
    Launches c cur opened index rules (launch c cur opened index rules) := by
  induction rules generalizing cur opened index with
  | nil => exact .nil
  | cons r rest ih =>
    obtain ⟨hr, hrest⟩ := List.forall_mem_cons.1 h
    obtain ⟨r', hbare, hready, heq⟩ := launch_cons c cur opened index hr rest
    rw [heq, turn]
    cases hstart : r.startsWith c with
    | false => exact .pass hstart hbare hready (ih _ _ _ hrest)
    | true =>
      cases hcompound : r.compound with
      | true => exact .start hstart hcompound hbare hready (ih _ _ _ hrest)
      | false =>
        rcases hread : r.readFresh cur with ⟨_ | ⟨t, count⟩, after⟩
        · exact .miss hstart hcompound hbare hready hread (ih _ _ _ hrest)
        · exact .found hstart hcompound hbare hready hread

namespace Launches

variable {c : Char} {cur : Cursor} {opened : List (OpenMatch κ)} {index : Nat}
  {rules : List (TokenRule κ)} {l : Launch κ}

theorem bare (h : Launches c cur opened index rules l) :
    l.rules.map TokenRule.bare = rules.map TokenRule.bare := by
  induction h with
  | nil => rfl
  | pass _ hr _ _ ih => simp [Launch.behind, hr, ih]
  | start _ _ hr _ _ ih => simp [Launch.behind, hr, ih]
  | found _ _ hr _ _ => simp [hr]
  | miss _ _ hr _ _ _ ih => simp [Launch.behind, hr, ih]

theorem ready (h : Launches c cur opened index rules l) (hrules : ∀ r ∈ rules, r.Ready) :
    ∀ r ∈ l.rules, r.Ready := by
  induction h with
  | nil => exact hrules
  | pass _ _ hr _ ih =>
    exact List.forall_mem_cons.2 ⟨hr, ih (List.forall_mem_cons.1 hrules).2⟩
  | start _ _ _ hr _ ih =>
    exact List.forall_mem_cons.2 ⟨hr, ih (List.forall_mem_cons.1 hrules).2⟩
  | found _ _ _ hr _ => exact List.forall_mem_cons.2 ⟨hr, (List.forall_mem_cons.1 hrules).2⟩
  | miss _ _ _ hr _ _ ih =>
    exact List.forall_mem_cons.2 ⟨hr, ih (List.forall_mem_cons.1 hrules).2⟩

theorem belongs [LawfulCopy κ] (before : List (TokenRule κ))
    (h : Launches c cur opened before.length rules l)
    (hopened : ∀ m ∈ opened, m.Belongs (before ++ rules)) :
    ∀ m ∈ l.opened, m.Belongs (before ++ rules) := by
  generalize hindex : before.length = index at h
  induction h generalizing before with
  | nil => exact hopened
  | pass _ _ _ _ ih =>
    rw [List.append_cons] at hopened ⊢
    exact ih _ hopened (by simp [hindex])
  | @start cur opened index r r' rest l _ hcompound _ _ _ ih =>
    rw [List.append_cons] at hopened ⊢
    refine ih _ ?_ (by simp [hindex])
    rw [List.forall_mem_cons]
    exact ⟨⟨r, by simp [← hindex], hcompound, Matcher.copy_copy _⟩, hopened⟩
  | found _ _ _ _ _ => exact hopened
  | miss _ _ _ _ _ _ ih =>
    rw [List.append_cons] at hopened ⊢
    exact ih _ hopened (by simp [hindex])

theorem bare_launch [LawfulCopy κ] (h : Launches c cur opened index rules l)
    {rules' : List (TokenRule κ)} (hready : ∀ r ∈ rules', r.Ready)
    (hbare : rules'.map TokenRule.bare = rules.map TokenRule.bare) :
    (launch c cur opened index rules').bare = l.bare := by
  induction h generalizing rules' with
  | nil =>
    rw [List.map_eq_nil_iff.1 hbare]
    rfl
  | pass hstart hr _ _ ih =>
    obtain ⟨s, rest', hs, hready, hrest, heq⟩ := launch_of_bare_cons c _ _ _ hready hbare
    rw [heq, turn, hstart]
    exact Launch.bare_behind_congr (ih hready hrest) (hs.trans hr.symm) ..
  | start hstart hcompound hr _ _ ih =>
    obtain ⟨s, rest', hs, hready, hrest, heq⟩ := launch_of_bare_cons c _ _ _ hready hbare
    rw [heq, turn, hstart, hcompound]
    exact Launch.bare_behind_congr (ih hready hrest) (hs.trans hr.symm) ..
  | found hstart hcompound hr _ hread =>
    obtain ⟨s, rest', hs, hready, hrest, heq⟩ := launch_of_bare_cons c _ _ _ hready hbare
    rw [heq, turn, hstart, hcompound, hread]
    simp [Launch.bare, hs, hr, hrest]
  | miss hstart hcompound hr _ hread _ ih =>
    obtain ⟨s, rest', hs, hready, hrest, heq⟩ := launch_of_bare_cons c _ _ _ hready hbare
    rw [heq, turn, hstart, hcompound, hread]
    exact Launch.bare_behind_congr (ih hready hrest) (hs.trans hr.symm) ..

end Launches

omit [CustomMatcher κ] in
theorem ruleName_congr {rules rules' : List (TokenRule κ)}
    (h : rules'.map TokenRule.bare = rules.map TokenRule.bare) : ruleName rules' = ruleName rules := by
  have hname : ∀ rules : List (TokenRule κ), rules.map TokenRule.name =
      (rules.map TokenRule.bare).map TokenRule.name := by
    intro rules
    rw [List.map_map]
    rfl
  funext i
  rw [ruleName, ruleName, ← List.getElem?_map, ← List.getElem?_map, hname, h, ← hname]

theorem bare_release (rules : List (TokenRule κ)) (m : OpenMatch κ) :
    (release rules m).map TokenRule.bare = rules.map TokenRule.bare :=
  map_modify_eq rules m.rule fun r _ => r.bare_release m.matcher

theorem release_congr {rules rules' : List (TokenRule κ)}
    (h : rules'.map TokenRule.bare = rules.map TokenRule.bare) (m : OpenMatch κ) :
    (release rules' m).map TokenRule.bare = (release rules m).map TokenRule.bare := by
  rw [bare_release, bare_release, h]

theorem ready_release [LawfulCopy κ] {rules : List (TokenRule κ)} (h : ∀ r ∈ rules, r.Ready)
    {m : OpenMatch κ} (hm : m.Belongs rules) : ∀ r ∈ release rules m, r.Ready := by
  obtain ⟨s, hs, -, hcopy⟩ := hm
  intro r hr
  obtain ⟨i, hi⟩ := List.mem_iff_getElem?.1 hr
  rw [release, List.getElem?_modify] at hi
  obtain ⟨r', hr', rfl⟩ := Option.map_eq_some_iff.1 hi
  have hready := h r' (List.mem_of_getElem? hr')
  split
  · next heq =>
    rw [heq, hr'] at hs
    cases hs
    exact hready.release hcopy
  · exact hready

theorem Sound.release [LawfulCopy κ] {rules : List (TokenRule κ)} {m : OpenMatch κ}
    {opened : List (OpenMatch κ)} (h : Sound ⟨rules, m :: opened⟩) :
    Sound ⟨Scanner.release rules m, opened⟩ := by
  obtain ⟨hm, hopened⟩ := List.forall_mem_cons.1 h.belongs
  refine ⟨ready_release h.ready hm, ?_⟩
  intro a ha
  exact (hopened a ha).congr (bare_release rules m)

theorem belongs_accept [LawfulCopy κ] {rules : List (TokenRule κ)} {m : OpenMatch κ}
    (h : m.Belongs rules) (c : Char) (cur : Cursor) :
    OpenMatch.Belongs rules { m with matcher := (m.matcher.accept c cur).state } := by
  obtain ⟨r, hr, hcompound, hcopy⟩ := h
  exact ⟨r, hr, hcompound, (m.matcher.copy_accept c cur).trans hcopy⟩

theorem belongs_shareChar [LawfulCopy κ] (c : Char) {rules : List (TokenRule κ)}
    {opened : List (OpenMatch κ)} (h : ∀ m ∈ opened, m.Belongs rules) (cur : Cursor) :
    ∀ m ∈ (shareChar c opened cur).1, m.Belongs rules := by
  induction opened generalizing cur with
  | nil => exact h
  | cons m older ih =>
    obtain ⟨hm, holder⟩ := List.forall_mem_cons.1 h
    have hm := belongs_accept hm c cur
    simp only [shareChar]
    split
    · exact List.forall_mem_cons.2 ⟨hm, holder⟩
    · split
      · exact List.forall_mem_cons.2 ⟨hm, holder⟩
      · exact List.forall_mem_cons.2 ⟨hm, ih holder _⟩

theorem rules_complete (rules : List (TokenRule κ)) (m : OpenMatch κ) (older : List (OpenMatch κ))
    (c : Char) (cur : Cursor) : (complete rules m older c cur).rules = release rules m := by
  simp only [complete]
  split
  · rfl
  · split <;> rfl

theorem opened_complete (rules : List (TokenRule κ)) (m : OpenMatch κ) (older : List (OpenMatch κ))
    (c : Char) (cur : Cursor) : (complete rules m older c cur).opened = older ∨
      (complete rules m older c cur).opened = (shareChar c older cur).1 := by
  simp only [complete]
  split
  · exact .inl rfl
  · split
    · next heq => exact .inr (by rw [heq])
    · next heq => exact .inr (by rw [heq])

theorem complete_congr {rules rules' : List (TokenRule κ)}
    (h : rules'.map TokenRule.bare = rules.map TokenRule.bare) (m : OpenMatch κ)
    (older : List (OpenMatch κ)) (c : Char) (cur : Cursor) :
    (complete rules' m older c cur).bare = (complete rules m older c cur).bare := by
  have hrules := release_congr h m
  simp only [complete, ruleName_congr h]
  split
  · simp [Offered.bare, hrules]
  · split
    · simp [Offered.bare, hrules]
    · simp [Offered.bare, hrules]

theorem bare_offerOpened (c : Char) (rules : List (TokenRule κ)) (opened : List (OpenMatch κ))
    (cur : Cursor) :
    (offerOpened c rules opened cur).rules.map TokenRule.bare = rules.map TokenRule.bare := by
  induction opened generalizing rules cur with
  | nil => rfl
  | cons m older ih =>
    simp only [offerOpened]
    split
    · rw [rules_complete, bare_release]
    · split
      · exact (ih _ _).trans (bare_release ..)
      · exact ih rules _

theorem sound_complete [LawfulCopy κ] {rules : List (TokenRule κ)} {m : OpenMatch κ}
    {older : List (OpenMatch κ)} (h : Sound ⟨rules, m :: older⟩) (c : Char) (cur : Cursor) :
    Sound ⟨(complete rules m older c cur).rules, (complete rules m older c cur).opened⟩ := by
  rw [rules_complete]
  rcases opened_complete rules m older c cur with heq | heq
  · rw [heq]
    exact h.release
  · rw [heq]
    exact ⟨h.release.ready, belongs_shareChar c h.release.belongs cur⟩

theorem sound_offerOpened [LawfulCopy κ] (c : Char) {rules : List (TokenRule κ)}
    {opened : List (OpenMatch κ)} (h : Sound ⟨rules, opened⟩) (cur : Cursor) :
    Sound ⟨(offerOpened c rules opened cur).rules, (offerOpened c rules opened cur).opened⟩ := by
  induction opened generalizing rules cur with
  | nil => exact h
  | cons m older ih =>
    obtain ⟨hm, holder⟩ := List.forall_mem_cons.1 h.belongs
    have hm := belongs_accept hm c cur
    have hsound : Sound ⟨rules, { m with matcher := (m.matcher.accept c cur).state } :: older⟩ :=
      ⟨h.ready, List.forall_mem_cons.2 ⟨hm, holder⟩⟩
    simp only [offerOpened]
    split
    · exact sound_complete hsound c _
    · split
      · exact ih hsound.release _
      · have hrest := ih ⟨h.ready, holder⟩ (m.matcher.accept c cur).cursor
        refine ⟨hrest.ready, List.forall_mem_cons.2 ⟨?_, hrest.belongs⟩⟩
        exact hm.congr (bare_offerOpened c rules older _)

theorem offerOpened_congr (c : Char) {rules rules' : List (TokenRule κ)}
    (h : rules'.map TokenRule.bare = rules.map TokenRule.bare) (opened : List (OpenMatch κ))
    (cur : Cursor) :
    (offerOpened c rules' opened cur).bare = (offerOpened c rules opened cur).bare := by
  induction opened generalizing rules rules' cur with
  | nil => simp [offerOpened, Offered.bare, h]
  | cons m older ih =>
    have hfail := ih (release_congr h { m with matcher := (m.matcher.accept c cur).state })
      (m.matcher.accept c cur).cursor
    have hstay := ih h (m.matcher.accept c cur).cursor
    simp only [Offered.bare, Offered.mk.injEq] at hfail hstay
    simp only [offerOpened]
    split
    · exact complete_congr h ..
    · split
      · simp [Offered.bare, hfail, ruleName_congr h]
      · simp [Offered.bare, hstay]

theorem bare_step [LawfulCopy κ] {s : Scanner κ} (h : s.Sound) (c : Char) (cur : Cursor) :
    (s.step c cur).scanner.rules.map TokenRule.bare = s.rules.map TokenRule.bare := by
  have hl := (launches_launch c cur s.opened 0 h.ready).bare
  simp only [step]
  split
  · exact hl
  · exact (bare_offerOpened ..).trans hl

theorem sound_step [LawfulCopy κ] {s : Scanner κ} (h : s.Sound) (c : Char) (cur : Cursor) :
    (s.step c cur).scanner.Sound := by
  have hl := launches_launch c cur s.opened 0 h.ready
  have hopened := Launches.belongs [] hl h.belongs
  have hsound : Sound ⟨(launch c cur s.opened 0 s.rules).rules,
      (launch c cur s.opened 0 s.rules).opened⟩ :=
    ⟨hl.ready h.ready, fun m hm => (hopened m hm).congr hl.bare⟩
  simp only [step]
  split
  · exact hsound
  · exact sound_offerOpened c hsound _

theorem step_congr [LawfulCopy κ] {s t : Scanner κ} (hs : s.Sound) (ht : t.Sound)
    (h : s.bare = t.bare) (c : Char) (cur : Cursor) : (s.step c cur).bare = (t.step c cur).bare := by
  have hl := (launches_launch c cur t.opened 0 ht.ready).bare_launch hs.ready (rules_of_bare h)
  simp only [step, opened_of_bare h]
  generalize launch c cur t.opened 0 s.rules = l at hl
  generalize launch c cur t.opened 0 t.rules = l' at hl
  obtain ⟨rules, opened, found, after, events, broken⟩ := l
  obtain ⟨rules', opened', found', after', events', broken'⟩ := l'
  simp only [Launch.bare, Launch.mk.injEq] at hl
  obtain ⟨hbare, rfl, rfl, rfl, rfl, rfl⟩ := hl
  cases found with
  | some f => simp [Step.bare, Scanner.bare, hbare]
  | none =>
    have ho := offerOpened_congr c hbare opened after
    simp only [Offered.bare, Offered.mk.injEq] at ho
    simp [Step.bare, Scanner.bare, ho]

theorem bare_foldl_release (dropped : List (OpenMatch κ)) (rules : List (TokenRule κ)) :
    (dropped.foldl release rules).map TokenRule.bare = rules.map TokenRule.bare := by
  induction dropped generalizing rules with
  | nil => rfl
  | cons m rest ih => exact (ih _).trans (bare_release rules m)

theorem ready_foldl_release [LawfulCopy κ] {dropped : List (OpenMatch κ)}
    {rules : List (TokenRule κ)} (h : Sound ⟨rules, dropped⟩) :
    ∀ r ∈ dropped.foldl release rules, r.Ready := by
  induction dropped generalizing rules with
  | nil => exact h.ready
  | cons m rest ih => exact ih h.release

theorem bare_finish (s : Scanner κ) :
    s.finish.1.rules.map TokenRule.bare = s.rules.map TokenRule.bare :=
  bare_foldl_release s.opened.reverse s.rules

theorem sound_finish [LawfulCopy κ] {s : Scanner κ} (h : s.Sound) : s.finish.1.Sound := by
  have hsound : Sound ⟨s.rules, s.opened.reverse⟩ := ⟨h.ready, by simpa using h.belongs⟩
  exact ⟨ready_foldl_release hsound, nofun⟩

theorem finish_congr {s t : Scanner κ} (h : s.bare = t.bare) : s.finish.2 = t.finish.2 := by
  simp only [finish, opened_of_bare h, ruleName_congr (rules_of_bare h)]

end Scanner

end Lexing
