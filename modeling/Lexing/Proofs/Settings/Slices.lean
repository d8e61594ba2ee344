import Lexing.Proofs.Settings.Rules
import Lexing.Proofs.TokenRule.Slices
import Lexing.Proofs.Tokenizer.Places

namespace Lexing

variable {κ : Type} [CustomMatcher κ] [LawfulCopy κ] [LawfulCursor κ] [LawfulSpan κ]
  [LawfulPlaces κ] {rules : List (TokenRule κ)}

structure Token.IsSlice (t : Token) (text : List Char) : Prop where
  start_le : t.span.start.offset ≤ t.span.stop.offset
  bound_le : t.span.bound ≤ text.length
  text_eq : t.text =
    String.ofList ((Cursor.ofList text).slice t.span.start.offset t.span.bound)

theorem Tokenizer.isSlice_greedy (hplain : ∀ r ∈ rules, r.IsPlain) (text : List Char) (i : Nat) :
    (∀ t ∈ greedy rules text i, i ≤ t.span.start.offset ∧ t.IsSlice text) ∧
      (greedy rules text i).Pairwise fun t u => t.span.stop.offset < u.span.start.offset := by
  fun_induction greedy rules text i with
  | case1 i hi t j hfound ih =>
    obtain ⟨hbehind, hpairwise⟩ := ih
    obtain ⟨r, hr, htoken⟩ := List.exists_of_findSome?_eq_some hfound
    obtain ⟨hstart, hbound, htext⟩ := (hplain r hr).slice_of_tokenAt? htoken
    have hlt := TokenRule.lt_of_tokenAt? htoken
    have hle := TokenRule.le_length_of_tokenAt? htoken
    have hlies := TokenRule.lies_of_tokenAt? htoken
    have hslice : t.IsSlice text := by
      refine ⟨hlies.start_le, hbound ▸ hle, ?_⟩
      rw [hstart, hbound, htext]
      rfl
    simp only [List.forall_mem_cons, List.pairwise_cons]
    refine ⟨⟨⟨Nat.le_of_eq hstart.symm, hslice⟩, ?_⟩, ?_, hpairwise⟩
    · intro u hu
      exact ⟨Nat.le_trans (Nat.le_of_lt hlt) (hbehind u hu).1, (hbehind u hu).2⟩
    · intro u hu
      have hj := (hbehind u hu).1
      rw [Span.bound] at hbound
      omega
  | case2 i hi hnone ih =>
    obtain ⟨hbehind, hpairwise⟩ := ih
    refine ⟨fun t ht => ?_, hpairwise⟩
    exact ⟨Nat.le_of_succ_le (hbehind t ht).1, (hbehind t ht).2⟩
  | case3 => exact ⟨nofun, .nil⟩

namespace Settings

def isSimple (s : Settings) (index : Nat) : Bool := s.rules[index]?.any fun r => !r.compound

omit [LawfulCopy κ] [LawfulCursor κ] [LawfulSpan κ] [LawfulPlaces κ] in
theorem isSimple_toRules {s : Settings} (h : s.toRules = .ok rules) :
    Lexing.isSimple rules = s.isSimple := by
  funext index
  have hget := congrArg (fun compounds => compounds[index]?.any not) (map_compound_toRules h)
  rw [List.getElem?_map, List.getElem?_map, Option.any_map, Option.any_map] at hget
  exact hget

/-- Whatever shapes the simple rules are made of, their tokens are pieces of the text: the text of each
is what its span covers, and the tokens come one behind the other. -/
theorem isSlice_of_isSimple {s : Settings} {t : Tokenizer κ} (h : s.tokenizer = .ok t) {text : String}
    {tokens : List Token} (hok : (t.tokenize text).result = .ok tokens) :
    let reports := (t.course text).reports
    tokens = reports.map Prod.snd ∧
      (∀ report ∈ reports, s.isSimple report.1 = true → report.2.IsSlice text.toList) ∧
      (reports.filter fun report => s.isSimple report.1).Pairwise fun a b =>
        a.2.span.stop.offset < b.2.span.start.offset := by
  obtain ⟨rules, hrules, rfl⟩ := exists_of_map_eq_ok h
  have hplain : ∀ r ∈ simpleRules rules, r.IsPlain := fun r hr =>
    isPlain_of_toRules hrules (List.mem_filter.1 hr).1
  have hsound := Tokenizer.sound_ofRules fun r hr => (built_of_toRules hrules hr).ready
  obtain ⟨hslices, hpairwise⟩ := Tokenizer.isSlice_greedy hplain text.toList 0
  rw [Tokenizer.result_tokenize] at hok
  cases herror : ((Tokenizer.ofRules rules).course text).error with
  | some e =>
    rw [herror] at hok
    cases hok
  | none =>
    rw [herror] at hok
    rw [Tokenizer.course_eq_run] at herror
    have hgreedy : simpleTokens rules _ = Tokenizer.greedy (simpleRules rules) text.toList 0 :=
      Tokenizer.simpleTokens_run hsound rfl (Nat.sub_le text.toList.length 0) herror
    rw [← Tokenizer.course_eq_run, simpleTokens, isSimple_toRules hrules] at hgreedy
    rw [← hgreedy] at hslices hpairwise
    refine ⟨(Except.ok.inj hok).symm, fun report hreport hsimple => ?_, List.pairwise_map.1 hpairwise⟩
    exact (hslices _ (List.mem_map_of_mem (List.mem_filter.2 ⟨hreport, hsimple⟩))).2

theorem isSlice_of_isSimple_escaped :
    let s : Settings :=
      { rules :=
          [{ name := "string", shapes := [.bounded "string" "\"" "\"" (some '\\')] },
            { name := "group", compound := true, shapes := [.bounded "group" "(" ")" none] },
            { name := "name", firstChars := some (.range 'a' 'z')
              shapes := [.words "word" ["abc"], .run "run" (.range 'a' 'z') none] }] }
    let text := "ab(\"\\\"\")"
    ∃ t : Tokenizer Empty, s.tokenizer = .ok t ∧
      let reports := (t.course text).reports
      reports.map (fun report => (report.1, report.2.text)) =
          [(2, "ab"), (0, "\"\\\"\""), (1, "()")] ∧
        (∀ report ∈ reports, s.isSimple report.1 = true → report.2.IsSlice text.toList) ∧
        (reports.filter fun report => s.isSimple report.1).Pairwise fun a b =>
          a.2.span.stop.offset < b.2.span.start.offset := by
  -- a group around a string with an escaped quote, behind a name that has two shapes to choose from
  intro s text
  have hrun : (s.tokenizer : Except Error (Tokenizer Empty)).toOption.bind (fun t =>
      (t.tokenize text).result.toOption.map fun _ =>
        (t.course text).reports.map fun report => (report.1, report.2.text)) =
      some [(2, "ab"), (0, "\"\\\"\""), (1, "()")] := by decide +kernel
  obtain ⟨t, ht, hrun⟩ := Option.bind_eq_some_iff.1 hrun
  obtain ⟨tokens, htokens, hreports⟩ := Option.map_eq_some_iff.1 hrun
  have ht := eq_ok_of_toOption ht
  exact ⟨t, ht, hreports, (isSlice_of_isSimple ht (eq_ok_of_toOption htokens)).2⟩

end Settings

end Lexing
