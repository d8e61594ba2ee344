import Lexing.Proofs.Matcher.Covers
import Lexing.Proofs.Matcher.FirstMatch

namespace Lexing

def Escaped (escapes : CharSet) (text : List Char) (k : Nat) : Prop :=
  0 < k ∧ escapes.containsSome text[k - 1]? = true

/-- The character at offset `k` is escaped, and is no escape itself. -/
def Voided (escapes : CharSet) (text : List Char) (k : Nat) : Prop :=
  Escaped escapes text k ∧ ∃ c, text[k]? = some c ∧ escapes.contains c = false

def Terminates (set escapes : CharSet) (text : List Char) (k : Nat) : Prop :=
  ¬Escaped escapes text k ∧
    ∃ c, text[k]? = some c ∧ set.contains c = true ∧ escapes.contains c = false

/-- From offset `i` on and before `j`, the last character that is voided stands in front of offset `k`,
or there is none and `k` is `i`. -/
def StartsAnew (escapes : CharSet) (text : List Char) (i j k : Nat) : Prop :=
  IsGreatest {l | l = i ∨ ∃ n, i ≤ n ∧ n < j ∧ Voided escapes text n ∧ l = n + 1} k

section Escapes

variable {set escapes : CharSet} {text : List Char} {i j k : Nat} {c : Char}

theorem escaped_succ_iff (hc : text[j]? = some c) :
    Escaped escapes text (j + 1) ↔ escapes.contains c = true := by
  simp [Escaped, hc, CharSet.containsSome]

theorem voided_iff (hc : text[j]? = some c) :
    Voided escapes text j ↔ Escaped escapes text j ∧ escapes.contains c = false := by
  simp [Voided, hc]

theorem terminates_iff (hc : text[j]? = some c) : Terminates set escapes text j ↔
    ¬Escaped escapes text j ∧ set.contains c = true ∧ escapes.contains c = false := by
  simp [Terminates, hc]

namespace Terminates

theorem lt_length (h : Terminates set escapes text j) : j < text.length := by
  obtain ⟨-, c, hc, -⟩ := h
  exact (List.getElem?_eq_some_iff.1 hc).1

theorem not_voided_not_escaped_succ (h : Terminates set escapes text j) :
    ¬Voided escapes text j ∧ ¬Escaped escapes text (j + 1) := by
  obtain ⟨hescaped, c, hc, -, hescape⟩ := h
  exact ⟨fun hvoid => hescaped hvoid.1, by simp [escaped_succ_iff hc, hescape]⟩

end Terminates

theorem containsSome_previous_iff (hj : j < text.length) :
    escapes.containsSome (Cursor.past text (j + 1)).previous = true ↔ Escaped escapes text j := by
  rcases Nat.eq_zero_or_pos j with rfl | hpos
  · rw [Cursor.previous, Cursor.offset_past hj, if_pos (Nat.lt_succ_self 1)]
    simp [Escaped, CharSet.containsSome]
  · rw [Cursor.previous_past hpos hj, Escaped, and_iff_right hpos]

namespace StartsAnew

theorem self (escapes : CharSet) (text : List Char) (i : Nat) : StartsAnew escapes text i i i := by
  refine ⟨.inl rfl, ?_⟩
  rintro l (rfl | ⟨n, hin, hni, -⟩)
  · exact Nat.le_refl l
  · omega

theorem le (h : StartsAnew escapes text i j k) (hij : i ≤ j) : k ≤ j := by
  rcases h.1 with rfl | ⟨n, -, hnj, -, rfl⟩
  · exact hij
  · exact hnj

theorem succ_of_voided (hij : i ≤ j) (h : Voided escapes text j) :
    StartsAnew escapes text i (j + 1) (j + 1) := by
  refine ⟨.inr ⟨j, hij, Nat.lt_succ_self j, h, rfl⟩, ?_⟩
  rintro l (rfl | ⟨n, -, hnj, -, rfl⟩)
  · exact Nat.le_succ_of_le hij
  · exact hnj

theorem succ_iff (hj : ¬Voided escapes text j) :
    StartsAnew escapes text i (j + 1) k ↔ StartsAnew escapes text i j k := by
  have hset : ∀ l, (∃ n, i ≤ n ∧ n < j + 1 ∧ Voided escapes text n ∧ l = n + 1) ↔
      ∃ n, i ≤ n ∧ n < j ∧ Voided escapes text n ∧ l = n + 1 := by
    refine fun l => exists_congr fun n => and_congr_right fun _ => ?_
    constructor
    · rintro ⟨hnj, hn, rfl⟩
      have hne : n ≠ j := fun heq => hj (heq ▸ hn)
      exact ⟨by omega, hn, rfl⟩
    · rintro ⟨hnj, hn, rfl⟩
      exact ⟨by omega, hn, rfl⟩
  simp only [StartsAnew, hset]

end StartsAnew

end Escapes

namespace CharMatcher

variable {set escapes : CharSet} {text : List Char} {i j k : Nat} {m : CharMatcher} {c : Char}
  {cur : Cursor}

def shields (escapes : CharSet) (previous : Option Char) (m : CharMatcher) : Bool :=
  m.escaped || (decide (m.progress.taken = []) && escapes.containsSome previous)

theorem accept_of_upToUnescaped (hrule : m.rule = .upToUnescaped set escapes)
    (hopen : m.progress.complete = false) (hlive : m.progress.failed = false) : m.accept c cur = ⟨true,
      if escapes.contains c then { m with escaped := true }
      else if m.shields escapes cur.previous then m.fresh
      else { m with progress := m.progress.pushAs (set.contains c) c cur.position, escaped := false },
      cur⟩ := by
  simp only [accept, hrule, acceptUpToUnescaped, acceptUpTo, hopen, hlive, shields, Bool.or_self,
    Bool.false_eq_true, if_false, Bool.false_and]
  split
  · rfl
  · split
    · rw [fresh, hrule]
    · rfl

structure Tracks (set escapes : CharSet) (text : List Char) (i j k : Nat) (m : CharMatcher) : Prop where
  rule : m.rule = .upToUnescaped set escapes
  live : m.progress.failed = false
  complete_iff : m.progress.complete = true ↔ i < j ∧ Terminates set escapes text (j - 1)
  starts : StartsAnew escapes text i j k
  escaped_iff : m.escaped = true ↔ i < j ∧ Escaped escapes text j
  covers : m.escaped = false → m.progress.Covers text k j

namespace Tracks

theorem new (name : String) (set escapes : CharSet) (text : List Char) (i : Nat) :
    ({ name, rule := .upToUnescaped set escapes } : CharMatcher).Tracks set escapes text i i i where
  rule := rfl
  live := rfl
  complete_iff := by simp
  starts := .self escapes text i
  escaped_iff := by simp
  covers _ := Progress.covers_empty text i

theorem shields_iff (h : m.Tracks set escapes text i j k) (hij : i ≤ j) (hj : j < text.length) :
    m.shields escapes (Cursor.past text (j + 1)).previous = true ↔ Escaped escapes text j := by
  rw [shields, Bool.or_eq_true, Bool.and_eq_true, decide_eq_true_iff, containsSome_previous_iff hj,
    h.escaped_iff]
  refine ⟨fun hs => hs.elim And.right And.right, fun hescaped => ?_⟩
  rcases Nat.lt_or_eq_of_le hij with hlt | rfl
  · exact .inl ⟨hlt, hescaped⟩
  · have hunescaped : m.escaped = false := by simp [← Bool.not_eq_true, h.escaped_iff]
    have hki : k = i := by
      have := h.starts.le hij
      have := h.starts.2 (.inl rfl)
      omega
    exact .inr ⟨((h.covers hunescaped).taken_eq_nil_iff (Nat.le_of_lt hj)).2 hki, hescaped⟩

theorem accept (h : m.Tracks set escapes text i j k) (hij : i ≤ j)
    (hopen : m.progress.complete = false) (hc : text[j]? = some c) :
    (m.accept c (.past text (j + 1))).accepted = true ∧
      ∃ k, (m.accept c (.past text (j + 1))).state.Tracks set escapes text i (j + 1) k := by
  have hj := (List.getElem?_eq_some_iff.1 hc).1
  have hshields := h.shields_iff hij hj
  have hlt := Nat.lt_succ_of_le hij
  rw [accept_of_upToUnescaped h.rule hopen h.live]
  refine ⟨rfl, ?_⟩
  dsimp only
  cases hescape : escapes.contains c with
  | true =>
    have hvoid : ¬Voided escapes text j := by simp [voided_iff hc, hescape]
    refine ⟨k, h.rule, h.live, ?_, (StartsAnew.succ_iff hvoid).2 h.starts, ?_, nofun⟩
    · simp [hopen, terminates_iff hc, hescape]
    · simp [hlt, escaped_succ_iff hc, hescape]
  | false =>
    cases hshield : m.shields escapes (Cursor.past text (j + 1)).previous with
    | true =>
      have hescaped := hshields.1 hshield
      have hvoid := (voided_iff hc).2 ⟨hescaped, hescape⟩
      refine ⟨j + 1, h.rule, rfl, ?_, .succ_of_voided hij hvoid, ?_, fun _ => ?_⟩
      · simp [fresh, terminates_iff hc, hescaped]
      · simp [fresh, escaped_succ_iff hc, hescape]
      · exact Progress.covers_empty text (j + 1)
    | false =>
      have hescaped : ¬Escaped escapes text j := mt hshields.2 (by simp [hshield])
      have hvoid : ¬Voided escapes text j := fun hvoid => hescaped hvoid.1
      have hunescaped : m.escaped = false := by
        rw [shields, Bool.or_eq_false_iff] at hshield
        exact hshield.1
      refine ⟨k, h.rule, h.live, ?_, (StartsAnew.succ_iff hvoid).2 h.starts, ?_, fun _ => ?_⟩
      · simp [Progress.pushAs, terminates_iff hc, hescaped, hescape, hlt]
      · simp [escaped_succ_iff hc, hescape]
      · exact (h.covers hunescaped).pushAs hc _

end Tracks

end CharMatcher

namespace Matcher

variable {κ : Type} [CustomMatcher κ]

theorem follows_upToUnescaped (name : String) (set escapes : CharSet) (text : List Char) (i : Nat) :
    Follows (fun j s => ∃ m k, s = mk (.chars m) ∧ m.Tracks set escapes text i j k)
      (fun j => i < j ∧ Terminates set escapes text (j - 1)) text
      (chars name (.upToUnescaped set escapes) : Matcher κ) i where
  start := ⟨_, i, rfl, .new name set escapes text i⟩
  waiting := rfl
  accept := by
    rintro j _ c hij ⟨m, k, rfl, hm⟩ hwaiting hc
    have hopen := (Progress.isComplete_of_live hm.live).symm.trans hwaiting
    obtain ⟨htaken, k, hm⟩ := hm.accept hij hopen hc
    rw [accept_mk]
    exact ⟨htaken, _, k, rfl, hm⟩
  isComplete_iff := by
    rintro j _ - ⟨m, k, rfl, hm⟩
    change m.progress.isComplete = true ↔ _
    rw [Progress.isComplete_of_live hm.live, hm.complete_iff]

/-- Every character is taken up to the match, which ends with the first terminator that is neither
escaped nor an escape. It consists of all that follows the last voided character. -/
theorem match_upToUnescaped (name : String) (set escapes : CharSet) (text : List Char) (i : Nat) :
    let m : Matcher κ := chars name (.upToUnescaped set escapes)
    (∀ j s c, Takes Waiting text m i j s → text[j]? = some c →
      (s.accept c (.past text (j + 1))).accepted = true) ∧
    (∀ j, (∃ s, Match text m i (j + 1) s) ↔ IsLeast {l | i ≤ l ∧ Terminates set escapes text l} j) ∧
    ∀ j s, Match text m i (j + 1) s → ∃ k, StartsAnew escapes text i j k ∧
      s.text = slice text k (j + 1) ∧
      s.span = some ⟨(Cursor.ofList text).positionAt k, (Cursor.ofList text).positionAt j⟩ := by
  intro m
  have hfollows := follows_upToUnescaped (κ := κ) name set escapes text i
  refine ⟨fun j s c htakes hc => ?_, fun j => hfollows.exists_match_iff.trans ?_, fun j s hmatch => ?_⟩
  · obtain ⟨hs, hwaiting, -⟩ := hfollows.of_takes htakes
    exact (hfollows.accept htakes.le hs hwaiting hc).1
  · constructor
    · rintro ⟨⟨-, -, hij, hterminates⟩, hleast⟩
      refine ⟨⟨Nat.le_of_lt_succ hij, hterminates⟩, ?_⟩
      rintro l ⟨hil, hl⟩
      exact Nat.le_of_succ_le_succ
        (hleast ⟨Nat.le_succ_of_le hil, hl.lt_length, Nat.lt_succ_of_le hil, hl⟩)
    · rintro ⟨⟨hij, hterminates⟩, hleast⟩
      refine ⟨⟨Nat.le_succ_of_le hij, hterminates.lt_length, Nat.lt_succ_of_le hij, hterminates⟩, ?_⟩
      rintro l ⟨-, -, hil, hl⟩
      have hle := hleast ⟨Nat.le_sub_one_of_lt hil, hl⟩
      omega
  · obtain ⟨m, k, rfl, hm⟩ := hfollows.of_match hmatch
    have hcomplete : m.progress.complete = true :=
      (Progress.isComplete_of_live hm.live).symm.trans hmatch.isComplete
    obtain ⟨hij, hterminates⟩ := hm.complete_iff.1 hcomplete
    obtain ⟨hvoid, hescape⟩ := hterminates.not_voided_not_escaped_succ
    have hunescaped : m.escaped = false := by
      rw [← Bool.not_eq_true, hm.escaped_iff]
      exact fun h => hescape h.2
    have hcovers := hm.covers hunescaped
    have hstarts := (StartsAnew.succ_iff hvoid).1 hm.starts
    have hkj := hstarts.le (Nat.le_of_lt_succ hij)
    exact ⟨k, hstarts, hcovers.text_eq, hcovers.span_eq (Nat.lt_succ_of_le hkj) hcomplete⟩

end Matcher

end Lexing
