import Lexing.Proofs.Matcher.Exact
import Lexing.Proofs.Tokenizer.Greedy

namespace Lexing

variable {κ : Type} [CustomMatcher κ]

theorem Cursor.eq_past_of_current {cur : Cursor} {c : Char} (h : cur.current = some c) :
    cur = past cur.source.toList (cur.offset - 1 + 1) ∧
      cur.source.toList[cur.offset - 1]? = some c := by
  rw [current] at h
  split at h
  · cases h
  · next hoffset =>
    constructor
    · apply ext
      · rfl
      · have hle := cur.offset_le
        simp only [past, skip, ofList, List.size_toArray, Array.length_toList]
        omega
    · simpa using h

namespace Matcher

/-- What is complete when it has read on: a match, or a matcher that has been complete with a
character that it refused. -/
inductive Read (text : List Char) (m : Matcher κ) (i : Nat) : Nat → Matcher κ → Prop
  | matched {j s} : Match text m i j s → Read text m i j s
  | refused {j s c} : Takes Waiting text m i j s → s.Waiting → text[j]? = some c →
      (s.accept c (.past text (j + 1))).accepted = false →
      (s.accept c (.past text (j + 1))).state.isComplete = true →
      Read text m i (j + 1) (s.accept c (.past text (j + 1))).state

theorem read_feed {text : List Char} {m s : Matcher κ} {i j : Nat} (htakes : Takes Waiting text m i j s)
    (hwaiting : s.Waiting) (hcomplete : (feed text s j).1.isComplete = true) :
    Read text m i (feed text s j).2 (feed text s j).1 := by
  fun_induction feed text s j with
  | case1 s j hc =>
    rw [hwaiting] at hcomplete
    cases hcomplete
  | case2 s j c hc r hend =>
    cases haccepted : r.accepted with
    | true => exact .matched (.mk htakes hc haccepted hcomplete)
    | false => exact .refused htakes hwaiting hc haccepted hcomplete
  | case3 s j c hc r hgo ih =>
    simp only [Bool.or_eq_true, Bool.not_eq_true', not_or, Bool.not_eq_true, Bool.not_eq_false] at hgo
    obtain ⟨⟨haccepted, -⟩, hwaiting⟩ := hgo
    exact ih (htakes.take hc haccepted hwaiting) hwaiting hcomplete

end Matcher

variable [LawfulCopy κ] [LawfulCursor κ] [LawfulSpan κ]

theorem TokenRule.stop_of_tokenAt? {r : TokenRule κ} (hexact : r.prototype.Exact) {text : List Char}
    {i j : Nat} {t : Token} (h : r.tokenAt? text i = some (t, j)) :
    t.span.stop.offset < j ∧ j ≤ text.length ∧
      (j = t.span.stop.offset + 1 ↔ ∃ m, Matcher.Match text r.prototype.copy i j m) ∧
      (¬r.prototype.FallsBack → j = t.span.stop.offset + 1) := by
  simp only [tokenAt?] at h
  split at h
  · next hstart =>
    split at h
    · next hcomplete =>
      have hread := Matcher.read_feed (.start (i := i)) hexact.waiting hcomplete
      cases h
      generalize (r.prototype.copy.feed text i).1 = s, (r.prototype.copy.feed text i).2 = j at *
      cases hread with
      | matched hmatch =>
        obtain ⟨span, hspan, hstop⟩ := hexact.ending hmatch
        simp only [Matcher.toToken, hspan, Option.getD_some]
        refine ⟨by omega, ?_, ⟨fun _ => ⟨s, hmatch⟩, fun _ => hstop.symm⟩, fun _ => hstop.symm⟩
        cases hmatch with
        | mk _ hc => exact (List.getElem?_eq_some_iff.1 hc).1
      | @refused j s c htakes hwaiting hc hrefused hcomplete =>
        obtain ⟨⟨span, hspan, hstop⟩, -⟩ := hexact.settles.1 htakes hwaiting hc hrefused hcomplete
        simp only [Matcher.toToken, hspan, Option.getD_some]
        refine ⟨by omega, (List.getElem?_eq_some_iff.1 hc).1, ⟨by omega, ?_⟩, ?_⟩
        · rintro ⟨m, hmatch⟩
          cases hmatch with
          | mk htakes' hc' htaken =>
            cases hc.symm.trans hc'
            rw [htakes'.unique htakes, hrefused] at htaken
            cases htaken
        · intro hback
          rw [hexact.settles.2 hback htakes hwaiting hc hrefused] at hcomplete
          cases hcomplete
    · cases h
  · cases h

namespace Scanner

omit [LawfulCopy κ] [LawfulSpan κ] in
theorem Launches.token_of_found {text : List Char} {i : Nat} {c : Char} {cur : Cursor}
    {opened : List (OpenMatch κ)} {rules : List (TokenRule κ)} {l : Launch κ}
    (before : List (TokenRule κ)) (h : Launches c cur opened before.length rules l)
    (hc : text[i]? = some c) (hcur : cur = .past text (i + 1)) {f : Report × Nat}
    (hf : l.found = some f) :
    ∃ r j, (before ++ rules)[f.1.1]? = some r ∧ r.compound = false ∧
      r.tokenAt? text i = some (f.1.2, j) ∧ l.cursor = .past text j := by
  generalize hindex : before.length = index at h
  induction h generalizing before with
  | nil => cases hf
  | pass _ _ _ _ ih =>
    rw [List.append_cons]
    exact ih _ hcur hf (by simp [hindex])
  | start _ _ _ _ _ ih =>
    rw [List.append_cons]
    exact ih _ hcur hf (by simp [hindex])
  | @found cur opened index r r' rest t count after hstart hcompound _ _ hread =>
    cases hf
    rw [hcur, TokenRule.readFresh_past hc hstart, Prod.mk.injEq, Option.map_eq_some_iff] at hread
    obtain ⟨⟨p, hp, hpair⟩, rfl⟩ := hread
    cases hpair
    exact ⟨r, p.2, by simp [← hindex], hcompound, hp, by rw [hp]; rfl⟩
  | @miss cur opened index r r' rest l after hstart _ _ _ hread _ ih =>
    rw [hcur, TokenRule.readFresh_past hc hstart, Prod.mk.injEq, Option.map_eq_none_iff] at hread
    obtain ⟨hnone, rfl⟩ := hread
    rw [List.append_cons]
    exact ih _ (by rw [hnone]; rfl) hf (by simp [hindex])

/-- A step that reads a token leaves the cursor right behind the token if the last character read
was taken for it, and further behind if it was not; this may be with rules that fall back. -/
theorem step_cursor_behind_token {s : Scanner κ} (hs : s.Sound)
    (hexact : ∀ r ∈ s.rules, r.compound = false → r.prototype.Exact) {c : Char} {cur : Cursor}
    (hcur : cur.current = some c) {n : Nat} (hok : (s.step c cur).result = .ok n) (hn : 0 < n) :
    ∃ index t r, (s.step c cur).reports = [(index, t)] ∧ s.rules[index]? = some r ∧
      r.compound = false ∧ t.span.stop.offset < (s.step c cur).cursor.offset ∧
      ((s.step c cur).cursor.offset = t.span.stop.offset + 1 ↔
        ∃ m, Matcher.Match cur.source.toList r.prototype.copy (cur.offset - 1)
          (s.step c cur).cursor.offset m) ∧
      (¬r.prototype.FallsBack → (s.step c cur).cursor.offset = t.span.stop.offset + 1) := by
  obtain ⟨heq, hc⟩ := Cursor.eq_past_of_current hcur
  have hl := launches_launch c cur s.opened 0 hs.ready
  simp only [step] at hok ⊢
  cases hf : (launch c cur s.opened 0 s.rules).found with
  | none =>
    simp only [hf] at hok
    split at hok
    · cases hok
      cases hn
    · cases hok
  | some f =>
    obtain ⟨r, j, hr, hcompound, htoken, hcursor⟩ := hl.token_of_found [] hc heq hf
    obtain ⟨hlt, hle, hmatch, hback⟩ := TokenRule.stop_of_tokenAt?
      (hexact r (List.mem_of_getElem? hr) hcompound) htoken
    simp only [hcursor, Cursor.offset_past hle]
    exact ⟨f.1.1, f.1.2, r, rfl, hr, hcompound, hlt, hmatch, hback⟩

theorem step_cursor_behind_token_skipping :
    let word : Matcher FixedMatcher :=
      .mk (.words { name := "word", rule := .longest, words := [['a', 'b']] })
    let one : Char → Matcher FixedMatcher := fun c => .chars "one" (.one (.singleton c))
    let row : Matcher FixedMatcher :=
      .mk (.chain { name := "row", rule := .skipping, groups := [[word], [one 'x', one 'y']] })
    let s : Scanner FixedMatcher :=
      { rules := [{ name := "row", compound := false, firstChars := .singleton 'a', prototype := row }] }
    let t := s.step 'a' (.past ['a', 'b', 'y'] 1)
    t.result.toOption = some 3 ∧ ∃ index token, t.reports = [(index, token)] ∧
      t.cursor.offset = token.span.stop.offset + 1 := by
  -- the chain goes past its second member, and all that is read is in the token
  intro word one row s t
  have hok : t.result.toOption = some 3 := by decide +kernel
  have hexact : row.Exact := by
    have hmembers : ∀ a ∈ [word, one 'x', one 'y'], a.Exact ∧ a.Regular := by
      simp only [List.forall_mem_cons]
      exact ⟨⟨.words _, trivial⟩, ⟨.chars _, trivial⟩, ⟨.chars _, trivial⟩, by simp⟩
    exact .chain rfl (fun a ha => (hmembers a ha).1) (fun _ a ha => (hmembers a ha).2)
  have hs : s.Sound := ⟨by simp [s, TokenRule.Ready], nofun⟩
  have hcur : (Cursor.past ['a', 'b', 'y'] 1).current = some 'a' := by decide +kernel
  have hrules : ∀ r ∈ s.rules, r.prototype = row := by simp [s]
  have hrow : ¬row.FallsBack := by rintro (h | h) <;> cases h
  have h := step_cursor_behind_token hs (fun r hr _ => hrules r hr ▸ hexact) hcur
    (eq_ok_of_toOption hok) (by decide)
  have ht : s.step 'a' (.past ['a', 'b', 'y'] 1) = t := rfl
  clear_value t
  rw [ht] at h
  obtain ⟨index, token, r, hreports, hr, -, -, -, hbehind⟩ := h
  exact ⟨hok, index, token, hreports, hbehind (hrules r (List.mem_of_getElem? hr) ▸ hrow)⟩

/-- The chain gives up its second group at `x` and goes back to `a`; the cursor does not. -/
theorem step_cursor_not_behind_token :
    let first : Matcher FixedMatcher := .chars "first" (.one (.singleton 'a'))
    let word : Matcher FixedMatcher :=
      .mk (.words { name := "word", rule := .longest, words := [['b', 'c', 'd']] })
    let row : Matcher FixedMatcher :=
      .mk (.chain { name := "row", rule := .suffixed, groups := [[first], [word]] })
    let s : Scanner FixedMatcher :=
      { rules := [{ name := "row", compound := false, firstChars := .singleton 'a', prototype := row }] }
    let cur := Cursor.past ['a', 'b', 'c', 'x'] 1
    let t := s.step 'a' cur
    s.Sound ∧ row.Exact ∧ cur.current = some 'a' ∧ t.result.toOption = some 4 ∧
      t.reports = [(0, ⟨"row", "a", ⟨⟨0, 1, 1⟩, ⟨0, 1, 1⟩⟩⟩)] ∧ t.cursor.offset = 4 := by
  intro first word row s cur t
  have hexact : row.Exact := by
    have hmembers : ∀ a ∈ [first, word], a.Exact := by
      simp only [List.forall_mem_cons]
      exact ⟨.chars _, .words _, by simp⟩
    exact .chain rfl hmembers nofun
  exact ⟨⟨by simp [s, TokenRule.Ready], nofun⟩, hexact, by decide +kernel, by decide +kernel,
    by decide +kernel, by decide +kernel⟩

end Scanner

end Lexing
