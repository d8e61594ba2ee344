import Lexing.Proofs.TokenRule.Parts
import Lexing.Proofs.Words.Live

namespace Lexing

@[simp] theorem CharSet.contains_singleton (c d : Char) :
    (singleton c).contains d = decide (d = c) := by
  rw [contains, singleton, lookup]
  by_cases hlt : d < c
  · simp [hlt, Char.ne_of_lt hlt]
  · simp [hlt, lookup]

variable {κ : Type} [CustomMatcher κ]

namespace Layer

def Awaits {α : Type} (e : Char) : Layer κ α → Prop
  | .chars m => m.rule = .upTo (.singleton e) ∧ m.progress.complete = false
  | .words m => m.rule = .upTo ∧ m.words = [[e]] ∧ m.Tracks [] ∧ m.progress = {}
  | _ => False

theorem Awaits.accept {α : Type} [Member α] (offer : Offer α) {l : Layer κ α} {e : Char}
    (h : l.Awaits e) {p : Progress} (hp : l.progress? = some p) (hlive : p.failed = false) (c : Char)
    (cur : Cursor) : (l.accept offer c cur).accepted = true ∧
      (c = e → (l.accept offer c cur).state.isComplete = true) ∧
      (c ≠ e → (l.accept offer c cur).state.isComplete = false ∧
        (l.accept offer c cur).state.Awaits e) := by
  cases l with
  | chars m =>
    cases hp
    obtain ⟨hrule, hcomplete⟩ := h
    simp [Layer.accept, Reply.map, CharMatcher.accept, hrule, CharMatcher.acceptUpTo, hlive, hcomplete,
      isComplete, Progress.isComplete, Progress.pushAs, Progress.push, Awaits]
  | words m =>
    cases hp
    obtain ⟨hrule, hwords, htracks, hprogress⟩ := h
    have hfound := htracks.found_singleton hwords c
    have honward : m.accept c cur =
        ⟨true, if c = e then (m.update c 0).2.push true c cur else m.fresh, cur⟩ := by
      simp only [WordMatcher.accept, hrule, WordMatcher.acceptUpTo, hprogress,
        WordMatcher.acceptOnward, List.length_nil, hfound]
      by_cases hc : c = e
      · simp [hc]
      · simp only [hc, if_false, WordMatcher.shift?, WordMatcher.update, hprogress]
        rfl
    simp only [Layer.accept, honward, Reply.map, true_and]
    constructor
    · rintro rfl
      rw [if_pos rfl]
      exact Progress.isComplete_of_live hlive
    · intro hne
      rw [if_neg hne]
      exact ⟨rfl, hrule, hwords, WordMatcher.tracks_restart _, rfl⟩
  | choice m => cases h
  | chain m => cases h
  | custom k => cases h

end Layer

theorem WordMatcher.complete_of_accept_singleton {m : WordMatcher} {o : Char} (hrule : m.rule = .shortest)
    (hwords : m.words = [[o]]) (htracks : m.Tracks []) (hprogress : m.progress = {}) (cur : Cursor) :
    (m.accept o cur).accepted = true ∧ (m.accept o cur).state.progress.isComplete = true := by
  have hfound := htracks.found_singleton hwords o
  rw [if_pos rfl] at hfound
  rw [accept_eq_acceptWord (by simp [hrule]), acceptWord, hprogress]
  simp only [Bool.false_or, Bool.and_false, Bool.false_eq_true, if_false, List.length_nil, hfound]
  exact ⟨rfl, Progress.isComplete_of_live (by simp [push, Progress.pushAs, Progress.push, update, hprogress])⟩

def Delimiter.IsChar (c : Char) : Delimiter → Prop
  | .char d => d = c
  | .word s => s.toList = [c]

namespace Matcher

def Opens (o : Char) (m : Matcher κ) : Prop :=
  ∀ cur, (m.accept o cur).accepted = true ∧ (m.accept o cur).state.isComplete = true

def Closes (e : Char) (n : Nat) (m : Matcher κ) : Prop :=
  ∃ l p, m = mk l ∧ l.progress? = some p ∧ p.Live ∧ p.Since n ∧ l.Awaits e

theorem opens_of_opening {d : Delimiter} {o : Char} (hd : d.IsChar o) {name : String} {m : Matcher κ}
    (h : d.opening name = .ok m) : m.Opens o := by
  intro cur
  cases d with
  | char c =>
    cases h
    cases hd
    rw [chars, accept_mk]
    simp [Layer.accept, Reply.map, CharMatcher.accept, CharMatcher.acceptOne, isComplete, layer,
      Layer.isComplete, Progress.isComplete, Progress.pushAs, Progress.push]
  | word s =>
    have hs : s.toList = [o] := hd
    rw [eq_of_words h, List.map_singleton, hs, accept_mk]
    exact WordMatcher.complete_of_accept_singleton rfl rfl (WordMatcher.tracks_new ..) rfl cur

theorem firstChars_of_opening {d : Delimiter} {o : Char} (hd : d.IsChar o) {name : String}
    {m : Matcher κ} (h : d.opening name = .ok m) : m.firstChars = some (.singleton o) := by
  cases d with
  | char c =>
    cases h
    cases hd
    exact firstChars_mk _
  | word s =>
    have hs : s.toList = [o] := hd
    rw [eq_of_words h, firstChars_mk]
    simp only [List.map_cons, List.map_nil, hs]
    rfl

theorem firstChars_opening_chain (name : String) (a b : Matcher κ) :
    (opening name a b []).firstChars = a.firstChars := by
  rw [opening, firstChars_mk]
  exact Option.join_some

omit [CustomMatcher κ] in
theorem closes_of_closing {d : Delimiter} {e : Char} (hd : d.IsChar e) {name : String}
    {m : Matcher κ} (h : d.closing name = .ok m) (n : Nat) : m.Closes e n := by
  cases d with
  | char c =>
    cases h
    cases hd
    exact ⟨_, {}, rfl, rfl, Progress.live_empty, nofun, rfl, rfl⟩
  | word s =>
    have hs : s.toList = [e] := hd
    exact ⟨_, {}, eq_of_words h, rfl, Progress.live_empty, nofun, rfl,
      by simp [hs], WordMatcher.tracks_new .., rfl⟩

def Pending (e : Char) (p : Position) (m : Matcher κ) : Prop :=
  ∃ name o q taken, m = closing name o q (some ⟨p, p⟩) taken ∧ q.Closes e p.offset

theorem Pending.quiet {m : Matcher κ} {e : Char} {p : Position} (h : m.Pending e p) :
    m.isComplete = false ∧ m.isFailed = false := by
  obtain ⟨name, o, q, taken, rfl, -⟩ := h
  exact ⟨rfl, rfl⟩

section Accept

variable [LawfulCursor κ] {m : Matcher κ} {c e : Char} {p : Position} {cur : Cursor}

omit [LawfulCursor κ] in
theorem span_merge_of_moves {q q' : Progress} {accepted : Bool} {r : Position}
    (hmoves : q.Moves cur.position accepted q') (htaken : accepted = true) (hlive : q.Live)
    (hsince : q.Since p.offset) (hp : p.offset ≤ r.offset) (hr : r.offset < cur.position.offset)
    (hcomplete : q'.isComplete = true) :
    (q'.span.map (Span.merge (some ⟨p, r⟩))).or (some ⟨p, r⟩) = some ⟨p, cur.position⟩ := by
  obtain ⟨start, hspan⟩ := hmoves.span_eq htaken hlive hcomplete
  have hstart := hmoves.since p.offset (by omega) hsince start (Progress.start_of_span hspan)
  have hunion : Span.merge (some ⟨p, r⟩) ⟨start, cur.position⟩ = ⟨p, cur.position⟩ := by
    rw [Span.merge, Span.union, if_neg (by simpa using hstart), if_pos hr]
  rw [hspan, Option.map_some, hunion, Option.some_or]

theorem accept_closing_of_since (name : String) (o : Matcher κ) (taken : List Char)
    {l : Layer κ (Matcher κ)} {q : Progress} (hq : l.progress? = some q) (hlive : q.Live)
    (hsince : q.Since p.offset) (hp : p.offset < cur.position.offset)
    (htaken : (l.accept Matcher.accept c cur).accepted = true) :
    let s := (l.accept Matcher.accept c cur).state
    let t := ((closing name o (mk l) (some ⟨p, p⟩) taken).accept c cur).state
    (s.isComplete = true → t.isComplete = true ∧ t.span = some ⟨p, cur.position⟩) ∧
      (s.isComplete = false → t = closing name o (mk s) (some ⟨p, p⟩) (c :: taken) ∧
        ∃ q', s.progress? = some q' ∧ q'.Live ∧ q'.Since p.offset) := by
  obtain ⟨q', hq', hmoves⟩ := Layer.moves_accept cursor_accept hq c cur
  rw [accept_closing (by rw [accept_mk]; exact htaken), state_accept_mk]
  intro s t
  constructor
  · intro hcomplete
    have hmember : (mk s).isComplete = true := hcomplete
    have hspan : (mk s).span = q'.span := Layer.span_of_progress? hq'
    simp only [t, s, hmember, hspan]
    exact ⟨rfl, span_merge_of_moves hmoves htaken hlive hsince (Nat.le_refl _) hp
      ((Layer.isComplete_of_progress? hq').symm.trans hcomplete)⟩
  · intro hcomplete
    have hmember : (mk s).isComplete = false := hcomplete
    simp only [t, s, hmember]
    exact ⟨rfl, q', hq', hmoves.live htaken hlive, hmoves.since p.offset (Nat.le_of_lt hp) hsince⟩

theorem Pending.accept_of_ne (h : m.Pending e p) (hp : p.offset < cur.position.offset) (hc : c ≠ e) :
    (m.accept c cur).state.Pending e p := by
  obtain ⟨name, o, q, taken, rfl, l, progress, rfl, hprogress, hlive, hsince, hawaits⟩ := h
  obtain ⟨htaken, -, hwait⟩ := hawaits.accept Matcher.accept hprogress hlive.1 c cur
  obtain ⟨hopen, hawaits⟩ := hwait hc
  obtain ⟨heq, q', hq', hlive, hsince⟩ :=
    (accept_closing_of_since name o taken hprogress hlive hsince hp htaken).2 hopen
  exact ⟨name, o, _, _, heq, _, q', rfl, hq', hlive, hsince, hawaits⟩

theorem Pending.accept_close (h : m.Pending e p) (hp : p.offset < cur.position.offset) :
    (m.accept e cur).state.isComplete = true ∧
      (m.accept e cur).state.span = some ⟨p, cur.position⟩ := by
  obtain ⟨name, o, q, taken, rfl, l, progress, rfl, hprogress, hlive, hsince, hawaits⟩ := h
  obtain ⟨htaken, hmatch, -⟩ := hawaits.accept Matcher.accept hprogress hlive.1 e cur
  exact (accept_closing_of_since name o taken hprogress hlive hsince hp htaken).1 (hmatch rfl)

omit [LawfulCursor κ] in
theorem accept_opening_of_opens (name : String) {a : Matcher κ} (b : Matcher κ) {o : Char}
    (ha : a.Opens o)
    (hspan : (a.accept o cur).state.span = some ⟨cur.position, cur.position⟩) :
    ((opening name a b []).accept o cur).state =
      closing name (a.accept o cur).state b (some ⟨cur.position, cur.position⟩) [o] := by
  obtain ⟨htaken, hcomplete⟩ := ha cur
  rw [accept_opening htaken]
  simp only [hcomplete, hspan, if_true]

end Accept

end Matcher

namespace TokenRule

def IsPair (o e : Char) (r : TokenRule κ) : Prop :=
  ∃ name part d d', ofParts name true none [.bounded part d d'] = .ok r ∧ d.IsChar o ∧ d'.IsChar e

variable {r : TokenRule κ} {o e : Char}

theorem IsPair.isPlain (h : r.IsPair o e) : r.IsPlain := by
  obtain ⟨name, part, d, d', h, -, -⟩ := h
  exact ⟨name, true, none, _, h, by simp [Part.isPlain]⟩

theorem eq_of_ofParts_singleton {name : String} {compound : Bool} {p : Part κ}
    (h : ofParts name compound none [p] = .ok r) : ∃ m chars, p.toMatcher = .ok m ∧
      m.firstChars = some chars ∧
      r = { name, compound, firstChars := CharSet.empty.union chars, prototype := m } := by
  rw [ofParts, List.mapM_cons] at h
  obtain ⟨ms, hms, h⟩ := exists_of_bind_eq_ok h
  obtain ⟨m, hm, hms⟩ := exists_of_bind_eq_ok hms
  cases hms
  obtain ⟨known, hknown, h⟩ := exists_of_bind_eq_ok h
  cases h
  obtain ⟨chars, hchars, hknown⟩ := exists_of_bind_eq_ok hknown
  cases hknown
  dsimp only at hchars
  cases hfirst : m.firstChars with
  | none =>
    rw [hfirst] at hchars
    cases hchars
  | some first =>
    rw [hfirst] at hchars
    cases hchars
    exact ⟨m, first, hm, hfirst, rfl⟩

theorem IsPair.spec [LawfulCursor κ] (h : r.IsPair o e) : r.compound = true ∧
    (∀ c, r.startsWith c = decide (c = o)) ∧
    ∀ cur, (r.prototype.copy.accept o cur).state.Pending e cur.position := by
  have hcopy := h.isPlain.copy_prototype
  obtain ⟨name, part, d, d', h, hd, hd'⟩ := h
  obtain ⟨m, chars, hm, hchars, rfl⟩ := eq_of_ofParts_singleton h
  obtain ⟨a, ha, hm⟩ := exists_of_bind_eq_ok hm
  obtain ⟨b, hb, hm⟩ := exists_of_bind_eq_ok hm
  have heq : m = .opening part a b [] := Matcher.eq_of_chain hm
  rw [heq, Matcher.firstChars_opening_chain, Matcher.firstChars_of_opening hd ha] at hchars
  cases hchars
  refine ⟨rfl, fun c => CharSet.contains_singleton o c, fun cur => ?_⟩
  rw [hcopy]
  change (m.accept o cur).state.Pending e cur.position
  have hopens := Matcher.opens_of_opening hd ha
  obtain ⟨-, l, rfl, -, hprogress⟩ := Delimiter.strict_of_opening ha
  have hplain : (Matcher.mk l).Plain := .inr ⟨l, rfl, hprogress⟩
  rw [heq, Matcher.accept_opening_of_opens part b hopens (hplain.span_first (hopens cur).2)]
  exact ⟨part, _, b, _, rfl, Matcher.closes_of_closing hd' hb _⟩

end TokenRule

end Lexing
