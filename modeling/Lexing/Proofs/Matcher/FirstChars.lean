import Lexing.Proofs.CharSet.Membership
import Lexing.Proofs.Choice.Branches
import Lexing.Proofs.TokenRule.Parts
import Lexing.Proofs.Words.Live
import Mathlib.Data.List.Forall2

namespace Lexing

namespace CharSet

def join (sets : List CharSet) : CharSet := sets.foldl union empty

theorem ordered_foldl_union {sets : List CharSet} {known : CharSet} (hknown : known.Ordered)
    (h : ∀ s ∈ sets, s.Ordered) : (sets.foldl union known).Ordered := by
  induction sets generalizing known with
  | nil => exact hknown
  | cons s sets ih =>
    rw [List.forall_mem_cons] at h
    exact ih (hknown.union h.1) h.2

theorem contains_foldl_union {sets : List CharSet} {known : CharSet} (hknown : known.Ordered)
    (h : ∀ s ∈ sets, s.Ordered) (c : Char) :
    (sets.foldl union known).contains c = (known.contains c || sets.any (·.contains c)) := by
  induction sets generalizing known with
  | nil => simp
  | cons s sets ih =>
    rw [List.forall_mem_cons] at h
    rw [List.foldl_cons, ih (hknown.union h.1) h.2, contains_union hknown h.1, List.any_cons,
      Bool.or_assoc]

theorem ordered_join {sets : List CharSet} (h : ∀ s ∈ sets, s.Ordered) : (join sets).Ordered :=
  ordered_foldl_union Made.empty.ordered h

theorem contains_join {sets : List CharSet} (h : ∀ s ∈ sets, s.Ordered) (c : Char) :
    (join sets).contains c = sets.any (·.contains c) :=
  contains_foldl_union Made.empty.ordered h c

end CharSet

theorem WordMatcher.begins_singleton_iff (m : WordMatcher) (c : Char) :
    Begins m.words [c] ↔ m.firstChars.contains c = true := by
  rw [firstChars, CharSet.contains_ofList, decide_eq_true_iff, List.mem_filterMap]
  refine exists_congr fun word => and_congr_right fun _ => ?_
  cases word with
  | nil => simp
  | cons d word => simp [eq_comm]

theorem WordMatcher.accepted_of_make {name : String} {rule : WordRule} {list : List String}
    {w : WordMatcher} (hrule : rule ≠ .upTo) (h : make name rule list = .ok w) (c : Char)
    (cur : Cursor) : (w.accept c cur).accepted = w.firstChars.contains c := by
  have hw := eq_of_make h
  have htracks : w.Tracks [] := hw ▸ tracks_new ..
  have hfresh : w.progress = {} := by rw [hw]
  have hnothing : (w.update c 0).1 = .nothing ↔ w.firstChars.contains c = false := by
    rw [← Bool.not_eq_true, ← begins_singleton_iff]
    exact htracks.found_eq_nothing_iff c
  rw [accept_eq_acceptWord (by rw [hw]; exact hrule), acceptWord, hfresh]
  cases hcontains : w.firstChars.contains c <;> simp [hnothing, hcontains]

theorem Choice.accepted_acceptAny {α : Type} [Member α] {offer : Offer α} (m : Choice α) (c : Char)
    (cur : Cursor) :
    (m.acceptAny offer c cur).accepted = !(m.update offer c cur).2.1.alive.isEmpty := by
  rw [acceptAny]
  dsimp only
  cases h : (m.update offer c cur).2.1.alive.isEmpty <;> rfl

namespace Matcher

variable {κ : Type} [CustomMatcher κ]

/-- Matchers whose first character is decided by a set: single characters, runs, identifiers and
words, choices of such matchers, and chains that begin with one. -/
inductive Immediate : Matcher κ → Prop
  | one {set : CharSet} (name : String) : set.Made → Immediate (.chars name (.one set))
  | run {first : CharSet} (name : String) (body : CharSet) : first.Made →
      Immediate (.chars name (.run first body))
  | identifier {first : CharSet} (name : String) (body : CharSet) (separator : Char) : first.Made →
      Immediate (.chars name (.identifier first body separator))
  | words {name rule list m} : rule ≠ .upTo → Matcher.words name rule list = .ok m → Immediate m
  | choice {name members m} : (∀ a ∈ members, Immediate a) →
      Matcher.choice name .any members = .ok m → Immediate m
  | chain {name rule a rest groups hideFirst m} : rule ≠ .skipping → Immediate a →
      (∀ group ∈ (a :: rest) :: groups, ∀ b ∈ group, Made b) →
      Matcher.chain name rule ((a :: rest) :: groups) hideFirst = .ok m → Immediate m

theorem Immediate.made {m : Matcher κ} (h : m.Immediate) : m.Made := by
  induction h with
  | one name _ => exact .chars name _
  | run name _ _ => exact .chars name _
  | identifier name _ _ _ => exact .chars name _
  | words _ h => exact .words h
  | choice _ h ih => exact .choice ih h
  | chain _ _ hmembers h _ => exact .chain hmembers h

theorem Immediate.of_chain {name : String} {rule : ChainRule} {groups : List (List (Matcher κ))}
    {hideFirst : Bool} {m : Matcher κ} (hrule : rule ≠ .skipping)
    (hmembers : ∀ group ∈ groups, ∀ a ∈ group, a.Immediate)
    (h : Matcher.chain name rule groups hideFirst = .ok m) : m.Immediate := by
  have hmade : ∀ group ∈ groups, ∀ a ∈ group, a.Made := fun group hgroup a ha =>
    (hmembers group hgroup a ha).made
  match groups with
  | [] => cases h
  | [] :: groups => cases h
  | (a :: rest) :: groups =>
    have ha : a.Immediate := hmembers _ List.mem_cons_self a List.mem_cons_self
    exact .chain hrule ha hmade h

structure StartsWith (m : Matcher κ) (set : CharSet) : Prop where
  firstChars_eq : m.firstChars = some set
  ordered : set.Ordered
  live : m.isFailed = false
  accepted_eq : ∀ c cur, (m.accept c cur).accepted = set.contains c

theorem startsWith_chars {rule : CharRule} (name : String) (hset : rule.firstChars.Made)
    (h : ∀ c cur, (CharMatcher.accept { name, rule } c cur).accepted = rule.firstChars.contains c) :
    (chars name rule : Matcher κ).StartsWith rule.firstChars where
  firstChars_eq := firstChars_mk _
  ordered := hset.ordered
  live := rfl
  accepted_eq c cur := by
    rw [chars, accept_mk]
    exact h c cur

theorem startsWith_words {name : String} {rule : WordRule} {list : List String} {m : Matcher κ}
    (hrule : rule ≠ .upTo) (h : words name rule list = .ok m) : ∃ set, m.StartsWith set := by
  obtain ⟨w, hmake, rfl⟩ := exists_of_map_eq_ok h
  have hw := WordMatcher.eq_of_make hmake
  refine ⟨w.firstChars, firstChars_mk _, .ofList _, by rw [hw]; rfl, fun c cur => ?_⟩
  rw [accept_mk]
  exact WordMatcher.accepted_of_make hrule hmake c cur

/-! ### Choices -/

variable {ms : List (Matcher κ)} {sets : List CharSet}

theorem ordered_of_startsWith (h : List.Forall₂ StartsWith ms sets) : ∀ s ∈ sets, s.Ordered := by
  induction h with
  | nil => simp
  | cons hm _ ih => exact List.forall_mem_cons.2 ⟨hm.ordered, ih⟩

theorem exists_forall₂_startsWith (h : ∀ m ∈ ms, ∃ set, m.StartsWith set) :
    ∃ sets, List.Forall₂ StartsWith ms sets := by
  induction ms with
  | nil => exact ⟨[], .nil⟩
  | cons m ms ih =>
    rw [List.forall_mem_cons] at h
    obtain ⟨set, hset⟩ := h.1
    obtain ⟨sets, hsets⟩ := ih h.2
    exact ⟨set :: sets, .cons hset hsets⟩

theorem foldlM_firstChars (h : List.Forall₂ StartsWith ms sets) (known : CharSet) :
    (ms.map firstChars).foldlM (fun known chars => chars.map known.union) known =
      some (sets.foldl CharSet.union known) := by
  induction h generalizing known with
  | nil => rfl
  | cons hm _ ih =>
    rw [List.map_cons, List.foldlM_cons, hm.firstChars_eq]
    exact ih _

theorem any_live_offer (h : List.Forall₂ StartsWith ms sets) (c : Char) (place : Nat → Cursor) :
    ((ms.map fun a : Matcher κ => ({ member := a } : Branch (Matcher κ))).mapIdx fun i b =>
        (b.offer accept c (place i)).1).any Branch.live = sets.any (·.contains c) := by
  induction h generalizing place with
  | nil => rfl
  | @cons m set _ _ hm _ ih =>
    have hlive : Member.isFailed m = false := hm.live
    have hbranch : (Branch.offer accept { member := m } c (place 0)).1.live = set.contains c := by
      simp [Branch.offer, hlive, hm.accepted_eq]
    rw [List.map_cons, List.mapIdx_cons, List.any_cons, List.any_cons, hbranch]
    exact congrArg _ (ih fun i => place (i + 1))

theorem isEmpty_alive_update {m : Choice (Matcher κ)} (hfresh : m.fresh = m)
    (h : List.Forall₂ StartsWith m.members sets) (c : Char) (cur : Cursor) :
    (m.update accept c cur).2.1.alive.isEmpty = !sets.any (·.contains c) := by
  have hvalid : m.Valid := hfresh ▸ m.valid_fresh
  have hbranches : m.branches = m.members.map fun a => { member := a } := by
    rw [← m.branches_fresh, hfresh]
  obtain ⟨place, -, heq⟩ := Choice.exists_branches_update accept hvalid c cur
  rw [Choice.isEmpty_alive (hvalid.update c cur), heq, hbranches, any_live_offer h]

theorem startsWith_choice {name : String} {m : Matcher κ} (hms : List.Forall₂ StartsWith ms sets)
    (h : choice name .any ms = .ok m) : m.StartsWith (.join sets) := by
  rw [eq_of_choice h]
  refine ⟨?_, CharSet.ordered_join (ordered_of_startsWith hms), rfl, fun c cur => ?_⟩
  · rw [firstChars_mk]
    simp only [Layer.map, Layer.firstChars, Choice.firstChars, Choice.members_map]
    simpa [CharSet.join] using foldlM_firstChars hms .empty
  · have hempty := isEmpty_alive_update (m := { name, rule := .any, members := ms }) rfl hms c cur
    rw [accept_mk, CharSet.contains_join (ordered_of_startsWith hms), ← Bool.not_not (sets.any _),
      ← hempty]
    exact Choice.accepted_acceptAny _ c cur

/-! ### Chains -/

theorem startsWith_chain {name : String} {rule : ChainRule} {a : Matcher κ} {rest : List (Matcher κ)}
    {groups : List (List (Matcher κ))} {hideFirst : Bool} {m : Matcher κ} {set : CharSet}
    (hrule : rule ≠ .skipping) (ha : a.StartsWith set)
    (h : chain name rule ((a :: rest) :: groups) hideFirst = .ok m) : m.StartsWith set := by
  obtain ⟨s, hs, rfl⟩ := exists_of_map_eq_ok h
  rw [(Chain.eq_of_make hs).1]
  refine ⟨?_, ha.ordered, rfl, fun c cur => ?_⟩
  · rw [firstChars_mk]
    exact congrArg (fun first => (some first).join) ha.firstChars_eq
  · obtain ⟨_, haccepted, -⟩ := Chain.accept_first accept
      { name, rule, groups := (a :: rest) :: groups, hideFirst } hrule rfl rfl c cur
    rw [accept_mk]
    exact haccepted.trans (ha.accepted_eq c cur)

theorem exists_startsWith {m : Matcher κ} (h : m.Immediate) : ∃ set, m.StartsWith set := by
  induction h with
  | @one set name hset =>
    refine ⟨_, startsWith_chars name hset fun c cur => ?_⟩
    cases hc : set.contains c <;>
      simp [CharMatcher.accept, CharMatcher.acceptOne, CharRule.firstChars, hc]
  | @run first name body hset =>
    refine ⟨_, startsWith_chars name hset fun c cur => ?_⟩
    cases hc : first.contains c <;>
      simp [CharMatcher.accept, CharMatcher.acceptRun, CharRule.firstChars, hc]
  | @identifier first name body separator hset =>
    refine ⟨_, startsWith_chars name hset fun c cur => ?_⟩
    cases hc : first.contains c <;>
      simp [CharMatcher.accept, CharMatcher.acceptIdentifier, CharRule.firstChars, hc]
  | words hrule h => exact startsWith_words hrule h
  | choice _ h ih =>
    obtain ⟨sets, hsets⟩ := exists_forall₂_startsWith ih
    exact ⟨_, startsWith_choice hsets h⟩
  | chain hrule _ _ h ih =>
    obtain ⟨set, hset⟩ := ih
    exact ⟨set, startsWith_chain hrule hset h⟩

end Matcher

namespace TokenRule

open Matcher

variable {κ : Type} [CustomMatcher κ] {r : TokenRule κ}

inductive Later (r : TokenRule κ) : TokenRule κ → Prop
  | new : Later r r
  | create {s : TokenRule κ} : Later r s → Later r s.create.2
  | release {s t : TokenRule κ} (actions : List Action) : Later r s → Later r t →
      Later r (s.release (t.create.1.actAll actions))

theorem Later.bare_ready [LawfulCopy κ] {s : TokenRule κ} (hr : r.Ready) (h : r.Later s) :
    s.bare = r.bare ∧ s.Ready := by
  induction h with
  | new => exact ⟨rfl, hr⟩
  | create _ ih => exact ⟨(bare_create _).trans ih.1, ih.2.create⟩
  | @release s t actions _ _ ihs iht =>
    refine ⟨(bare_release _ _).trans ihs.1, ihs.2.release ?_⟩
    rw [copy_actAll, iht.2.create_fst, copy_copy, prototype_of_bare iht.1, prototype_of_bare ihs.1]

theorem jointFirstChars_eq {ms : List (Matcher κ)} {sets : List CharSet}
    (h : List.Forall₂ (fun m set => m.firstChars = some set) ms sets) :
    jointFirstChars ms = .ok (.join sets) := by
  rw [jointFirstChars, CharSet.join]
  generalize CharSet.empty = known
  induction h generalizing known with
  | nil => rfl
  | cons hm _ ih =>
    rw [List.foldlM_cons, hm]
    exact ih _

omit [CustomMatcher κ] in
theorem exists_withFirstChars (name : String) (compound : Bool) (firstChars : CharSet)
    {ms : List (Matcher κ)} (h : ms ≠ []) :
    ∃ r, withFirstChars name compound firstChars ms = .ok r ∧ r.firstChars = firstChars := by
  match ms with
  | [] => exact absurd rfl h
  | [m] => exact ⟨_, rfl, rfl⟩
  | m :: n :: ms => exact ⟨_, rfl, rfl⟩

theorem exists_make_startsWith {ms : List (Matcher κ)} (h : ∀ m ∈ ms, m.Immediate) (hms : ms ≠ [])
    (name : String) (compound : Bool) :
    ∃ r, make name compound none ms = .ok r ∧ r.prototype.Made ∧
      ∀ c cur, (r.prototype.accept c cur).accepted = r.startsWith c := by
  obtain ⟨sets, hsets⟩ := exists_forall₂_startsWith fun m hm => exists_startsWith (h m hm)
  have hjoint := jointFirstChars_eq (hsets.imp fun _ _ hset => hset.firstChars_eq)
  obtain ⟨r, hr, hfirst⟩ := exists_withFirstChars name compound (.join sets) hms
  refine ⟨r, by rw [make, hjoint]; exact hr, ?_⟩
  rw [show r.startsWith = (CharSet.join sets).contains by rw [← hfirst]; rfl]
  rcases prototype_of_withFirstChars hr with rfl | hchoice
  · rw [List.forall_mem_singleton] at h
    cases hsets with
    | cons hset hnil =>
      cases hnil
      refine ⟨h.made, fun c cur => ?_⟩
      rw [hset.accepted_eq, CharSet.contains_join (by simpa using hset.ordered)]
      simp
  · exact ⟨.choice (fun m hm => (h m hm).made) hchoice, (startsWith_choice hsets hchoice).accepted_eq⟩

/-- The first characters of the matchers are known and are just those that the matchers take first,
when they are new and when they are recycled. A rule made of such matchers begins a match with just
the characters that the matcher it then gives out takes first. -/
theorem startsWith_eq_accepted [LawfulCopy κ] {ms : List (Matcher κ)} (h : ∀ m ∈ ms, m.Immediate) :
    (∀ m ∈ ms, ∃ set, m.firstChars = some set ∧ ∀ c cur,
      (m.accept c cur).accepted = set.contains c ∧
      ∀ actions, ((m.actAll actions).recycle.accept c cur).accepted = set.contains c) ∧
    (ms ≠ [] → ∀ name compound, ∃ r, make name compound none ms = .ok r ∧ ∀ s, r.Later s →
      ∀ c cur, s.startsWith c = (s.create.1.accept c cur).accepted) := by
  constructor
  · intro m hm
    obtain ⟨set, hset⟩ := exists_startsWith (h m hm)
    refine ⟨set, hset.firstChars_eq, fun c cur => ⟨hset.accepted_eq c cur, fun actions => ?_⟩⟩
    rw [recycle_eq_copy, copy_actAll, (h m hm).made.copy_eq, hset.accepted_eq]
  · intro hms name compound
    obtain ⟨r, hr, hmade, haccepted⟩ := exists_make_startsWith h hms name compound
    have hready : r.Ready := Built.ready ⟨name, compound, none, ms, hr⟩
    refine ⟨r, hr, fun s hs c cur => ?_⟩
    obtain ⟨hbare, hsready⟩ := hs.bare_ready hready
    rw [hsready.create_fst, prototype_of_bare hbare, hmade.copy_eq, haccepted,
      startsWith_of_bare hbare]

theorem startsWith_eq_accepted_nested :
    let letters := CharSet.range 'a' 'z'
    let word : Matcher Empty := .chars "word" (.run letters letters)
    let comma : Matcher Empty := .chars "comma" (.one (.singleton ','))
    let list : Matcher Empty :=
      .mk (.chain { name := "list", rule := .separated, groups := [[word], [comma]] })
    let keyword : Matcher Empty :=
      .mk (.words { name := "keyword", rule := .longest, words := [['I', 'f'], ['I', 'n']] })
    let either : Matcher Empty :=
      .mk (.choice { name := "either", rule := .any, members := [list, keyword] })
    let digit : Matcher Empty := .chars "digit" (.one (.range '0' '9'))
    (∀ m ∈ [either, digit], m.Immediate) ∧
      either.firstChars = some (.join [letters, .singleton 'I']) ∧
      ∃ r, make "item" false none [either, digit] = .ok r ∧ ∀ s, r.Later s →
        ∀ c cur, s.startsWith c = (s.create.1.accept c cur).accepted := by
  -- a list of words and a digit or one of two keywords, which share a first character
  intro letters word comma list keyword either digit
  have hword : word.Immediate := .run _ _ (.range 'a' 'z')
  have hlist : list.Immediate := by
    have hmake : Matcher.chain "list" .separated [[word], [comma]] false = .ok list := rfl
    refine .of_chain (by decide) ?_ hmake
    simp only [List.forall_mem_cons]
    exact ⟨⟨hword, by simp⟩, ⟨.one _ (.singleton ','), by simp⟩, by simp⟩
  have hkeyword : keyword.Immediate := by
    have hmake : Matcher.words "keyword" .longest ["If", "In"] = .ok keyword := rfl
    exact .words (by decide) hmake
  have heither : either.Immediate := by
    have hmake : Matcher.choice "either" .any [list, keyword] = .ok either := rfl
    refine .choice ?_ hmake
    simp only [List.forall_mem_cons]
    exact ⟨hlist, hkeyword, by simp⟩
  have hall : ∀ m ∈ [either, digit], m.Immediate := by
    simp only [List.forall_mem_cons]
    exact ⟨heither, .one _ (.range '0' '9'), by simp⟩
  exact ⟨hall, rfl, (startsWith_eq_accepted hall).2 (List.cons_ne_nil _ _) "item" false⟩

end TokenRule

end Lexing
