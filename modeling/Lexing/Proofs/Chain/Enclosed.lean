import Lexing.Proofs.Chain.Pair
import Lexing.Proofs.Words.FirstEnd
import Lexing.Proofs.Words.Held

namespace Lexing

def Delimiter.chars : Delimiter → List Char
  | .char c => [c]
  | .word s => s.toList

variable {κ : Type} [CustomMatcher κ]

namespace Matcher

def Spells : List Char → Matcher κ → Prop
  | [], _ => True
  | c :: rest, m => ∀ d cur, ((m.accept d cur).accepted = true ↔ d = c) ∧
      (d = c → ((m.accept d cur).state.isComplete = true ↔ rest = []) ∧
        (m.accept d cur).state.Spells rest)

section Opening

variable {name : String} {m : Matcher κ} {text : List Char} {i : Nat} {p : Position}

theorem spells_of_holds {w : WordMatcher} {word held rest : List Char} (hrule : w.rule = .shortest)
    (hword : held ++ rest = word) (h : w.Holds [word] held) :
    (mk (.words w) : Matcher κ).Spells rest := by
  induction rest generalizing w held with
  | nil => trivial
  | cons c rest ih =>
    intro d cur
    have hopen : w.rule = .shortest → held ∉ [word] := by simp [← hword]
    have hbegins : Begins [word] (held ++ [d]) ↔ d = c := by simp [Begins, ← hword]
    rw [accept_words, h.accept_eq hopen]
    dsimp only
    by_cases hd : d = c
    · have hpush := h.push d cur
      rw [if_pos (hbegins.2 hd)]
      refine ⟨by simp [Reply.map, hd], fun _ => ⟨hpush.isComplete_iff.trans ?_, ih hrule ?_ hpush⟩⟩
      · simp [← hword, hd, eq_comm]
      · simp [← hword, hd]
    · rw [if_neg (mt hbegins.1 hd)]
      exact ⟨by simp [Reply.map, hd], fun h => absurd h hd⟩

theorem spells_of_opening {d : Delimiter} (hd : d.chars ≠ []) (h : d.opening name = .ok m) :
    m.Spells d.chars := by
  cases d with
  | char c =>
    cases h
    intro d cur
    rw [chars, accept_mk]
    by_cases hd : d = c
    · simp [hd, Layer.accept, Reply.map, CharMatcher.accept, CharMatcher.acceptOne, isComplete, layer,
        Layer.isComplete, Progress.isComplete, Progress.pushAs, Progress.push, Spells]
    · simp [hd, Layer.accept, Reply.map, CharMatcher.accept, CharMatcher.acceptOne]
  | word s =>
    have hword : s.toList ≠ [] := hd
    have hholds : ({ name, rule := .shortest, words := [s.toList] } : WordMatcher).Holds [s.toList] [] :=
      WordMatcher.holds_new (by simp) (by simpa using hword) name
    rw [eq_of_words h]
    exact spells_of_holds rfl (List.nil_append _) hholds

theorem feed_opening_of_taken {o e : Matcher κ} {taken : List Char} {c : Char} (hc : text[i]? = some c)
    (htaken : (o.accept c (.past text (i + 1))).accepted = true) :
    feed text (opening name o e taken) i =
      let s := (o.accept c (.past text (i + 1))).state
      feed text (if s.isComplete then closing name s e s.span (c :: taken)
        else opening name s e (c :: taken)) (i + 1) := by
  have hquiet : ((opening name o e taken).accept c (.past text (i + 1))).state.isFailed = false ∧
      ((opening name o e taken).accept c (.past text (i + 1))).state.isComplete = false := by
    rw [accept_opening htaken]
    dsimp only
    split <;> exact ⟨rfl, rfl⟩
  rw [feed_of_taken hc (accepted_opening.trans htaken) hquiet.1 hquiet.2, accept_opening htaken]

theorem isComplete_feed_opening_of_refused {o e : Matcher κ} {taken : List Char} {c : Char}
    (hc : text[i]? = some c) (hrefused : (o.accept c (.past text (i + 1))).accepted = false) :
    (feed text (opening name o e taken) i).1.isComplete = false := by
  rw [feed_of_some hc]
  simp only [accepted_opening, hrefused, Bool.not_false, Bool.true_or, if_true]
  refine Bool.eq_false_iff.2 fun hcomplete => ?_
  have hfailed : ((opening name o e taken).accept c (.past text (i + 1))).state.isFailed = true :=
    isFailed_opening hrefused
  exact Bool.false_ne_true ((isFailed_of_isComplete nofun hcomplete).symm.trans hfailed)

theorem feed_opening (text : List Char) (i : Nat) {word : List Char} (hword : word ≠ [])
    {l : Layer κ (Matcher κ)} {q : Progress} (hspells : (mk l).Spells word) (hl : l.Strict)
    (hq : l.progress? = some q) (hstart : ∀ complete c,
      (q.pushAs complete c ((Cursor.ofList text).positionAt i)).start = some p)
    (name : String) (e : Matcher κ) (taken : List Char) :
    (word <+: text.drop i → ∃ o, feed text (opening name (mk l) e taken) i =
      feed text (closing name o e (some ⟨p, (Cursor.ofList text).positionAt (i + word.length - 1)⟩)
        (word.reverse ++ taken)) (i + word.length)) ∧
    (¬word <+: text.drop i → (feed text (opening name (mk l) e taken) i).1.isComplete = false) := by
  -- on the characters still to come; the start of the opening member stays what the first one made it
  induction word generalizing l q i taken with
  | nil => exact absurd rfl hword
  | cons c rest ih =>
    cases hd : text[i]? with
    | none =>
      have hend := List.drop_eq_nil_of_le (List.getElem?_eq_none_iff.1 hd)
      rw [feed_of_none hd, hend]
      exact ⟨fun h => absurd (List.prefix_nil.1 h) hword, fun _ => rfl⟩
    | some d =>
      obtain ⟨hi, hget⟩ := List.getElem?_eq_some_iff.1 hd
      rw [List.drop_eq_getElem_cons hi, hget, List.cons_prefix_cons]
      obtain ⟨htaken, hnext⟩ := hspells d (.past text (i + 1))
      by_cases hdc : d = c
      · subst hdc
        have htaken := htaken.2 rfl
        obtain ⟨hcomplete, hspells⟩ := hnext rfl
        rw [feed_opening_of_taken hd htaken]
        rw [accept_mk] at htaken
        obtain ⟨hl, complete, hq⟩ := hl.accept hq htaken
        have hstart := hstart complete d
        rw [Cursor.position_past hi] at hq
        rw [state_accept_mk] at hcomplete hspells ⊢
        cases rest with
        | nil =>
          have hdone := hcomplete.2 rfl
          have hspan : (mk (l.accept Matcher.accept d (.past text (i + 1))).state).span =
              some ⟨p, (Cursor.ofList text).positionAt i⟩ :=
            (Layer.span_of_progress? hq).trans (Progress.span_pushAs hstart
              ((Layer.isComplete_of_progress? hq).symm.trans hdone))
          simp only [hdone, hspan, if_true]
          exact ⟨fun _ => ⟨_, rfl⟩, fun h => absurd ⟨trivial, List.nil_prefix⟩ h⟩
        | cons c' rest =>
          have hwaiting := Bool.eq_false_iff.2 (mt hcomplete.1 (List.cons_ne_nil c' rest))
          have hstart : ∀ complete' c, ((q.pushAs complete d ((Cursor.ofList text).positionAt i)).pushAs
              complete' c ((Cursor.ofList text).positionAt (i + 1))).start = some p :=
            Progress.start_pushAs hstart (List.cons_ne_nil d _)
          have hnext := ih (i + 1) (List.cons_ne_nil c' rest) hspells hl hq hstart (d :: taken)
          have hlength : i + (d :: c' :: rest).length = i + 1 + (c' :: rest).length := by
            rw [List.length_cons]
            omega
          have htaken : (d :: c' :: rest).reverse ++ taken = (c' :: rest).reverse ++ d :: taken := by
            rw [List.reverse_cons, List.append_assoc, List.singleton_append]
          simpa only [hwaiting, Bool.false_eq_true, if_false, true_and, hlength, htaken] using hnext
      · have hrefused := Bool.eq_false_iff.2 (mt htaken.1 hdc)
        exact ⟨fun h => absurd h.1.symm hdc, fun _ => isComplete_feed_opening_of_refused hd hrefused⟩

end Opening

section Closing

variable {name : String} {m : Matcher κ} {text : List Char} {o i : Nat} {p r : Position}

theorem follows_upTo_char (name : String) (c : Char) (text : List Char) (i : Nat) :
    ∃ Known, Follows Known (fun j => [c] <:+ slice text i j) text
      (chars name (.upTo (.singleton c)) : Matcher κ) i := by
  refine ⟨fun j s => ∃ m : CharMatcher, s = mk (.chars m) ∧ m.rule = .upTo (.singleton c) ∧
    m.progress.failed = false ∧ (m.progress.complete = true ↔ [c] <:+ slice text i j), ?_⟩
  constructor
  · exact ⟨_, rfl, rfl, rfl, by simp⟩
  · rfl
  · rintro j _ d hij ⟨m, rfl, hrule, hlive, hcomplete⟩ hwaiting hd
    have hopen : m.progress.complete = false :=
      (Progress.isComplete_of_live hlive).symm.trans hwaiting
    have haccept : m.accept d (.past text (j + 1)) =
        ⟨true, { m with progress := m.progress.pushAs (d = c) d (Cursor.past text (j + 1)).position },
          .past text (j + 1)⟩ := by
      simp [CharMatcher.accept, hrule, CharMatcher.acceptUpTo, hlive, hopen]
    rw [accept_mk, Layer.accept, haccept]
    refine ⟨rfl, _, rfl, hrule, hlive, ?_⟩
    rw [slice_succ hij hd, singleton_suffix_concat_iff]
    exact decide_eq_true_iff
  · rintro j _ - ⟨m, rfl, -, hlive, hcomplete⟩
    change m.progress.isComplete = true ↔ _
    rw [Progress.isComplete_of_live hlive, hcomplete]

theorem follows_upTo_word (name : String) {word : List Char} (hword : word ≠ []) {text : List Char}
    {i : Nat} (hi : i ≤ text.length) :
    ∃ Known, Follows Known (fun j => word <:+ slice text i j) text
      (mk (.words { name, rule := .upTo, words := [word] }) : Matcher κ) i := by
  have hproper : [] ∉ [word] := by simpa using hword.symm
  have hseeking := WordMatcher.seeking_new (List.cons_ne_nil word []) hproper name text i
  refine ⟨_, (follows_upTo hproper hseeking).congr hi fun j hij hj => ?_⟩
  constructor
  · rintro ⟨k, hlongest, hmem⟩
    exact (hlongest.eq_iff_suffix hj).1 (List.mem_singleton.1 hmem)
  · intro hend
    obtain ⟨k, hlongest⟩ := Longest.exists_of_le (List.cons_ne_nil word []) hij text
    exact ⟨k, hlongest, List.mem_singleton.2 ((hlongest.eq_iff_suffix hj).2 hend)⟩

theorem follows_of_closing {d : Delimiter} (hd : d.chars ≠ []) (h : d.closing name = .ok m)
    (hi : i ≤ text.length) : ∃ Known, Follows Known (fun j => d.chars <:+ slice text i j) text m i := by
  cases d with
  | char c =>
    cases h
    exact follows_upTo_char name c text i
  | word s =>
    rw [eq_of_words h]
    exact follows_upTo_word name hd hi

inductive Enclosing (Known : Nat → Matcher κ → Prop) (text : List Char) (o : Nat) (p r : Position)
    (j : Nat) : Matcher κ → Prop
  | closing {name a l q} : Known j (mk l) → (mk l).Waiting → l.progress? = some q → q.Live →
      q.Since p.offset →
      Enclosing Known text o p r j (.closing name a (mk l) (some ⟨p, r⟩) (slice text o j).reverse)
  | closed {name a e} : Known j e → e.isComplete = true →
      Enclosing Known text o p r j
        (.closed name a e (some ⟨p, (Cursor.ofList text).positionAt (j - 1)⟩) (slice text o j).reverse)

section Enclosing

variable {Known : Nat → Matcher κ → Prop} {Done : Nat → Prop} {j : Nat}

theorem Enclosing.isFailed_eq (h : Enclosing Known text o p r j m) : m.isFailed = false := by
  cases h with
  | closing => rfl
  | closed => rfl

theorem Enclosing.text_span (h : Enclosing Known text o p r j m) (hcomplete : m.isComplete = true) :
    m.text = slice text o j ∧
      m.span = some ⟨p, (Cursor.ofList text).positionAt (j - 1)⟩ := by
  cases h with
  | closing => cases hcomplete
  | closed => exact ⟨List.reverse_reverse _, rfl⟩

theorem follows_closing [LawfulCursor κ] {l : Layer κ (Matcher κ)} (hl : l.progress? = some {})
    (h : Follows Known Done text (mk l) i) (hoi : o ≤ i) (hp : p.offset ≤ r.offset) (hr : r.offset < i)
    (name : String) (a : Matcher κ) : Follows (Enclosing Known text o p r) Done text
      (closing name a (mk l) (some ⟨p, r⟩) (slice text o i).reverse) i where
  start := .closing h.start h.waiting hl Progress.live_empty nofun
  waiting := rfl
  accept := by
    intro j s c hij hs hwaiting hc
    cases hs with
    | closed _ hcomplete => cases hwaiting
    | @closing _ _ l q hknown hopen hq hlive hsince =>
      -- the answer is that of the closing member, once as a matcher and once as a layer with its progress
      obtain ⟨htaken, hknown⟩ := h.accept hij hknown hopen hc
      have hj := (List.getElem?_eq_some_iff.1 hc).1
      have hoffset := Cursor.offset_position_past hc
      obtain ⟨q', hq', hmoves⟩ := Layer.moves_accept cursor_accept hq c (.past text (j + 1))
      have hlayer := htaken
      rw [accept_mk] at hlayer
      rw [accepted_closing, accept_closing htaken, state_accept_mk, ← List.reverse_concat,
        ← slice_succ (Nat.le_trans hoi hij) hc]
      rw [state_accept_mk] at hknown
      refine ⟨htaken, ?_⟩
      cases hcomplete : (mk (l.accept Matcher.accept c (.past text (j + 1))).state).isComplete with
      | false =>
        simp only [hcomplete, Bool.false_eq_true, if_false]
        exact .closing hknown hcomplete hq' (hmoves.live hlayer hlive)
          (hmoves.since p.offset (by omega) hsince)
      | true =>
        have hspan := span_merge_of_moves hmoves hlayer hlive hsince hp (by omega)
          ((Layer.isComplete_of_progress? hq').symm.trans hcomplete)
        have hmember : (mk (l.accept Matcher.accept c (.past text (j + 1))).state).span = q'.span :=
          Layer.span_of_progress? hq'
        rw [Cursor.position_past hj, ← hmember] at hspan
        simp only [hcomplete, if_true, hspan]
        exact .closed hknown hcomplete
  isComplete_iff := by
    intro j s hij hs
    cases hs with
    | closing hknown hopen =>
      exact iff_of_false Bool.false_ne_true (mt (h.isComplete_iff hij hknown).2 (by rw [hopen]; nofun))
    | closed hknown hcomplete => exact iff_of_true rfl ((h.isComplete_iff hij hknown).1 hcomplete)

end Enclosing

end Closing

section Reading

variable {d d' : Delimiter} {a e : Matcher κ} {aname ename : String}

theorem isComplete_feed_of_not_begins (hd : d.chars ≠ []) (ha : d.opening aname = .ok a)
    {text : List Char} {o : Nat} (hbegin : ¬d.chars <+: text.drop o) (name : String) :
    (feed text (opening name a e []) o).1.isComplete = false := by
  have hspells := spells_of_opening hd ha
  obtain ⟨-, l, rfl, hstrict, hl⟩ := Delimiter.strict_of_opening ha
  exact (feed_opening text o hd hspells hstrict hl (fun _ _ => rfl) name e []).2 hbegin

theorem feed_of_begins [LawfulCursor κ] (hd : d.chars ≠ []) (hd' : d'.chars ≠ [])
    (ha : d.opening aname = .ok a) (he : d'.closing ename = .ok e) {text : List Char} {o : Nat}
    (hbegin : d.chars <+: text.drop o) (name : String) :
    let r := feed text (opening name a e []) o
    let i := o + d.chars.length
    (r.1.isComplete = true →
      IsLeast {j | i ≤ j ∧ j ≤ text.length ∧ d'.chars <:+ slice text i j} r.2 ∧
        r.1.text = slice text o r.2 ∧
        r.1.span = some ⟨(Cursor.ofList text).positionAt o, (Cursor.ofList text).positionAt (r.2 - 1)⟩) ∧
      (r.1.isComplete = false → ∀ j, i ≤ j → j ≤ text.length → ¬d'.chars <:+ slice text i j) := by
  intro r i
  have hspells := spells_of_opening hd ha
  obtain ⟨-, l, rfl, hstrict, hl⟩ := Delimiter.strict_of_opening ha
  obtain ⟨-, l', rfl, hl'⟩ := Delimiter.progress?_of_closing he
  have hpos := List.length_pos_iff.2 hd
  have hle := hbegin.length_le
  rw [List.length_drop] at hle
  have hi : i ≤ text.length := by omega
  have hslice : slice text o i = d.chars := by
    rw [slice_eq_take, Nat.add_sub_cancel_left, ← List.prefix_iff_eq_take.1 hbegin]
  obtain ⟨a, hfeed⟩ :=
    (feed_opening text o hd hspells hstrict hl (fun _ _ => rfl) name (mk l') []).1 hbegin
  rw [List.append_nil, ← congrArg List.reverse hslice] at hfeed
  have hspan : o ≤ i - 1 ∧ i - 1 < i := by omega
  obtain ⟨Known, hmember⟩ := follows_of_closing hd' he hi
  have hfollows := follows_closing (p := (Cursor.ofList text).positionAt o)
    (r := (Cursor.ofList text).positionAt (i - 1)) hl' hmember (Nat.le_add_right ..) hspan.1 hspan.2
    name a
  obtain ⟨hs, hyes, hno⟩ := hfollows.feed Enclosing.isFailed_eq hi
  rw [← hfeed] at hs hyes hno
  exact ⟨fun hcomplete => ⟨hyes hcomplete, hs.text_span hcomplete⟩, hno⟩

end Reading

end Matcher

namespace Delimiter

variable {d : Delimiter} {name : String}

theorem singleton_proper_iff (s : String) : [s] ≠ [] ∧ "" ∉ [s] ↔ s.toList ≠ [] := by
  simp [@eq_comm _ ""]

omit [CustomMatcher κ] in
theorem exists_opening_iff : (∃ m : Matcher κ, d.opening name = .ok m) ↔ d.chars ≠ [] := by
  cases d with
  | char c => exact iff_of_true ⟨_, rfl⟩ (List.cons_ne_nil c [])
  | word s => exact Matcher.exists_words_iff.trans (singleton_proper_iff s)

omit [CustomMatcher κ] in
theorem exists_closing_iff : (∃ m : Matcher κ, d.closing name = .ok m) ↔ d.chars ≠ [] := by
  cases d with
  | char c => exact iff_of_true ⟨_, rfl⟩ (List.cons_ne_nil c [])
  | word s => exact Matcher.exists_words_iff.trans (singleton_proper_iff s)

omit [CustomMatcher κ] in
theorem exists_ok (hd : d.chars ≠ []) (name : String) :
    (∃ m : Matcher κ, d.opening name = .ok m) ∧ ∃ m : Matcher κ, d.closing name = .ok m :=
  ⟨exists_opening_iff.2 hd, exists_closing_iff.2 hd⟩

end Delimiter

namespace Part

/-- A bounded part is complete just if the text begins with the opening delimiter and the closing one
follows somewhere behind it. Reading then ends right behind the first one there, and all that was read is
the text and the span of the match. -/
theorem read_bounded [LawfulCursor κ] {start stop : Delimiter} (hstart : start.chars ≠ [])
    (hstop : stop.chars ≠ []) (name : String) :
    ∃ m : Matcher κ, (bounded name start stop).toMatcher = .ok m ∧
      ∀ (text : List Char) (o n : Nat) (s : Matcher κ) (cur : Cursor),
        m.read (.past text o) = (n, s, cur) →
        (s.isComplete = true ↔ start.chars <+: text.drop o ∧
          stop.chars <:+: text.drop (o + start.chars.length)) ∧
        (s.isComplete = true →
          IsLeast {e | o + start.chars.length ≤ e ∧ e ≤ text.length ∧
            stop.chars <:+ slice text (o + start.chars.length) e} (o + n) ∧
          cur = .past text (o + n) ∧ s.text = slice text o (o + n) ∧
          s.span = some ⟨(Cursor.ofList text).positionAt o,
            (Cursor.ofList text).positionAt (o + n - 1)⟩) := by
  obtain ⟨a, ha⟩ := (Delimiter.exists_ok (κ := κ) hstart (name ++ "-start")).1
  obtain ⟨e, he⟩ := (Delimiter.exists_ok (κ := κ) hstop (name ++ "-end")).2
  refine ⟨.opening name a e [], ?_, ?_⟩
  · simp only [toMatcher, ha, he]
    rfl
  intro text o n s cur hread
  rw [Matcher.read_past, Prod.mk.injEq, Prod.mk.injEq] at hread
  obtain ⟨rfl, rfl, rfl⟩ := hread
  rw [Nat.add_sub_cancel' (Matcher.le_feed text _ o)]
  by_cases hbegin : start.chars <+: text.drop o
  · obtain ⟨hyes, hno⟩ := Matcher.feed_of_begins hstart hstop ha he hbegin name
    refine ⟨⟨fun hcomplete => ⟨hbegin, ?_⟩, fun h => ?_⟩, fun hcomplete => ?_⟩
    · exact (infix_drop_iff hstop).2 ⟨_, (hyes hcomplete).1.1⟩
    · by_contra hwaiting
      obtain ⟨j, hij, hj, hend⟩ := (infix_drop_iff hstop).1 h.2
      exact hno (Bool.eq_false_iff.2 hwaiting) j hij hj hend
    · obtain ⟨hleast, hspec⟩ := hyes hcomplete
      exact ⟨hleast, rfl, hspec⟩
  · rw [Matcher.isComplete_feed_of_not_begins hstart ha hbegin name]
    exact ⟨iff_of_false Bool.false_ne_true fun h => hbegin h.1, nofun⟩

theorem read_bounded_comment :
    let start := Delimiter.word "/*"
    let stop := Delimiter.word "*/"
    let text := "a/*/**/b".toList
    start.chars ≠ [] ∧ stop.chars ≠ [] ∧
      ∃ m : Matcher Empty, (bounded "comment" start stop).toMatcher = .ok m ∧
        ∃ s, m.read (.past text 1) = (6, s, .past text 7) ∧ s.isComplete = true ∧
          s.text = "/*/**/".toList ∧ s.span = some ⟨⟨1, 1, 2⟩, ⟨6, 1, 7⟩⟩ := by
  -- the first `*/` shares its star with the opening delimiter and does not count
  intro start stop text
  obtain ⟨m, hm, hread⟩ := read_bounded (κ := Empty) (by decide : start.chars ≠ [])
    (by decide : stop.chars ≠ []) "comment"
  refine ⟨by decide, by decide, m, hm, ?_⟩
  obtain ⟨⟨n, s, cur⟩, hr⟩ : ∃ r, m.read (.past text 1) = r := ⟨_, rfl⟩
  obtain ⟨hiff, hspec⟩ := hread text 1 n s cur hr
  have hcomplete := hiff.2 ⟨by decide, by decide⟩
  obtain ⟨hleast, rfl, htext, hspan⟩ := hspec hcomplete
  have hstop : 1 + n = 7 := hleast.unique (isLeast_of_forall_not (by decide) (by decide))
  obtain rfl : n = 6 := by omega
  exact ⟨s, hr, hcomplete, htext, hspan⟩

end Part

end Lexing
