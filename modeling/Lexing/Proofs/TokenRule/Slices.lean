import Lexing.Proofs.Scanner.Behind
import Lexing.Proofs.TokenRule.Parts

namespace Lexing

variable {κ : Type} [CustomMatcher κ] {text : List Char} {i j : Nat}

namespace Matcher

variable {m s : Matcher κ}

omit [CustomMatcher κ] in
theorem Plain.exact (h : m.Plain) : m.Exact ∧ m.Regular ∧ ¬m.FallsBack := by
  have hnoting : ∀ (l : Layer κ (Matcher κ)) {p : Progress}, l.progress? = some p →
      (mk l).Exact ∧ (mk l).Regular ∧ ¬(mk l).FallsBack := by
    intro l p hl
    cases l with
    | chars m => exact ⟨.chars m, trivial, nofun⟩
    | words m => exact ⟨.words m, trivial, nofun⟩
    | choice m => exact ⟨.choice m, trivial, nofun⟩
    | chain m => cases hl
    | custom k => cases hl
  rcases h with h | ⟨l, rfl, hl⟩
  · cases h with
    | @chain name l l' hstrict hl hl' =>
      refine ⟨.chain rfl ?_ nofun, ⟨nofun, nofun⟩, by rintro (h | h) <;> cases h⟩
      intro a ha
      have ha : a = mk l ∨ a = mk l' := by simpa [Chain.members] using ha
      rcases ha with rfl | rfl
      · exact (hnoting l hl).1
      · exact (hnoting l' hl').1
    | choice => exact ⟨.choice _, trivial, nofun⟩
  · exact hnoting l hl

omit [CustomMatcher κ] in
theorem Delimited.verbatim (h : m.Delimited) : m.layer.Verbatim := by
  cases h with
  | chain => rfl
  | choice hrule => exact hrule

theorem Plain.text_eq (h : m.Plain) : m.text = [] := by
  have hnoting : ∀ l : Layer κ (Matcher κ), l.progress? = some {} → (mk l).text = [] := by
    intro l hl
    cases l with
    | chain m => cases hl
    | custom k => cases hl
    | _ => exact congrArg Progress.text (Option.some.inj hl)
  rcases h with h | ⟨l, rfl, hl⟩
  · cases h with
    | chain => rfl
    | choice hrule hprogress => exact hnoting _ (congrArg some hprogress)
  · exact hnoting l hl

variable [LawfulCursor κ]

theorem Delimited.begun_of_takes (h : m.Delimited) (hsteady : m.Steady)
    (htakes : Takes (fun _ => True) text m i j s) (hij : i < j) :
    ∃ c, Begun c (Cursor.past text (i + 1)).position s := by
  induction htakes with
  | start => exact absurd hij (Nat.lt_irrefl i)
  | @take j s c htakes hc htaken _ ih =>
    have hlive := hsteady.unfailed (htakes.take hc htaken trivial)
    have hle := htakes.le
    rcases Nat.lt_or_eq_of_le hle with hlt | rfl
    · obtain ⟨d, hbegun⟩ := ih hlt
      refine ⟨d, hbegun.accept ?_ hlive⟩
      have hj := (List.getElem?_eq_some_iff.1 hc).1
      rw [Cursor.position_past (Nat.lt_trans hlt hj), Cursor.position_past hj]
      exact hle
    · rw [htakes.unique .start] at hlive ⊢
      exact ⟨c, h.begun hlive⟩

theorem Plain.start_of_takes (h : m.Plain) (hverbatim : m.layer.Verbatim) (hsteady : m.Steady)
    (htakes : Takes (fun _ => True) text m i j s) (hij : i < j) {span : Span}
    (hspan : s.span = some span) : span.start = (Cursor.past text (i + 1)).position := by
  rcases h with h | ⟨l, rfl, hl⟩
  · obtain ⟨c, hbegun⟩ := h.begun_of_takes hsteady htakes hij
    exact hbegun.start_of_span hspan
  · obtain ⟨l', p, rfl, -, hp, hstart, -⟩ := Matcher.start_of_takes hverbatim hl htakes
    have hstart' := Progress.start_of_span ((Layer.span_of_progress? hp).symm.trans hspan)
    rw [(hstart hij).2] at hstart'
    exact (Option.some.inj hstart').symm

end Matcher

theorem Part.verbatim_of_isPlain {p : Part κ} {m : Matcher κ} (hp : p.isPlain = true)
    (h : p.toMatcher = .ok m) : m.layer.Verbatim := by
  cases p with
  | bounded name start stop => exact (made_delimited_of_isBounded rfl h).2.verbatim
  | boundedUnescaped name start escape stop => exact (made_delimited_of_isBounded rfl h).2.verbatim
  | words name list =>
    rw [Matcher.eq_of_words h]
    exact nofun
  | matcher m => cases hp
  | _ =>
    cases h
    exact nofun

namespace TokenRule

variable {r : TokenRule κ} {t : Token}

theorem IsPlain.verbatim (h : r.IsPlain) : r.prototype.layer.Verbatim := by
  obtain ⟨name, compound, firstChars, parts, h, hplain⟩ := h
  obtain ⟨ms, hfrom, -, rfl | hchoice⟩ := prototype_of_ofParts h
  · obtain ⟨p, hp, hpm⟩ := hfrom r.prototype (List.mem_singleton_self _)
    exact Part.verbatim_of_isPlain (hplain p hp) hpm
  · exact (Matcher.delimited_of_choice hchoice).verbatim

variable [LawfulCopy κ] [LawfulCursor κ] [LawfulSpan κ]

theorem match_of_tokenAt? (hexact : r.prototype.Exact) (hback : ¬r.prototype.FallsBack)
    (h : r.tokenAt? text i = some (t, j)) :
    ∃ m, Matcher.Match text r.prototype.copy i j m ∧
      t = m.toToken r.name (Cursor.past text (i + 1)).position (.past text j) := by
  simp only [tokenAt?] at h
  split at h
  · split at h
    · next hcomplete =>
      have hread := Matcher.read_feed (.start (i := i)) hexact.waiting hcomplete
      cases h
      generalize (r.prototype.copy.feed text i).1 = s, (r.prototype.copy.feed text i).2 = j at *
      cases hread with
      | matched hmatch => exact ⟨s, hmatch, rfl⟩
      | refused htakes hwaiting hc hrefused hcomplete =>
        rw [hexact.settles.2 hback htakes hwaiting hc hrefused] at hcomplete
        cases hcomplete
    · cases h
  · cases h

theorem IsPlain.slice_of_tokenAt? (h : r.IsPlain) (ht : r.tokenAt? text i = some (t, j)) :
    t.span.start.offset = i ∧ t.span.bound = j ∧ t.text = String.ofList (slice text i j) := by
  have hplain := h.plain
  obtain ⟨hexact, hregular, hback⟩ := hplain.exact
  have hsteady := (hexact.ending_steady.2 hregular).1
  obtain ⟨m, hmatch, rfl⟩ := match_of_tokenAt? hexact hback ht
  obtain ⟨span, hspan, hstop⟩ := hexact.ending hmatch
  rw [h.copy_prototype] at hmatch hsteady
  have hlt := hmatch.lt
  have htakes : Matcher.Takes (fun _ => True) text r.prototype i j m := by
    cases hmatch with
    | mk htakes hc htaken => exact (htakes.mono fun _ _ => trivial).take hc htaken trivial
  have hstart := hplain.start_of_takes h.verbatim hsteady htakes hlt hspan
  simp only [Matcher.toToken, hspan, Option.getD_some]
  refine ⟨?_, hstop, congrArg String.ofList ?_⟩
  · rw [hstart, Cursor.position_past (Nat.lt_of_lt_of_le hlt (le_length_of_tokenAt? ht))]
    rfl
  · exact (Matcher.text_of_takes h.verbatim hplain.text_eq htakes).2

end TokenRule

end Lexing
