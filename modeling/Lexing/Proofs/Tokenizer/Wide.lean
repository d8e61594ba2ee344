import Lexing.Proofs.Chain.Wide
import Lexing.Proofs.Tokenizer.Places

namespace Lexing

variable {κ : Type} [CustomMatcher κ] [LawfulCopy κ] [LawfulCursor κ] {rules : List (TokenRule κ)}
  {text : List Char} {i : Nat} {c : Char}

omit [LawfulCursor κ] in
theorem Matcher.copy_of_served {m s : Matcher κ} {lo n : Nat} (h : Served text lo m n s) :
    s.copy = m.copy := by
  induction h with
  | start => rfl
  | offer _ _ _ ih => exact (copy_accept ..).trans ih

def WideRules (rules : List (TokenRule κ)) : Prop :=
  ∀ r ∈ rules, r.compound = true → r.prototype.copy.Wide

omit [LawfulCursor κ] in
theorem OpenMatch.Placed.size_token {m : OpenMatch κ} (h : m.Placed text i) (hm : m.Belongs rules)
    (hwide : WideRules rules) (hc : text[i]? = some c) (rules' : List (TokenRule κ))
    (hcomplete : (m.offer c (.past text (i + 1))).matcher.isComplete = true) :
    ((m.offer c (.past text (i + 1))).token rules' (.past text (i + 1))).size ≠ 1 := by
  obtain ⟨p, hserved⟩ := h.served
  obtain ⟨r, hr, hcompound, hcopy⟩ := hm
  have hp : p.copy = r.prototype.copy := by
    rw [← hcopy, Matcher.copy_of_served hserved, Matcher.copy_copy]
  rw [hp] at hserved
  obtain ⟨span, hspan, hlt⟩ :=
    hwide r (List.mem_of_getElem? hr) hcompound (hserved.next hc) hcomplete
  have hspan : (m.offer c (.past text (i + 1))).matcher.span = some span := hspan
  have hsize : span.size ≠ 1 := by
    rw [Span.size]
    omega
  simpa only [OpenMatch.token, Matcher.toToken, Token.size, hspan, Option.getD_some] using hsize

namespace Scanner

theorem step_ok_of_wide {s : Scanner κ} (hs : s.Sound) (hwide : WideRules s.rules)
    (hc : text[i]? = some c) (hplaced : ∀ m ∈ s.opened, m.Placed text i) :
    ∃ n, (s.step c (.past text (i + 1))).result = .ok n := by
  have hl := launches_launch c (.past text (i + 1)) s.opened 0 hs.ready
  have hlaunched := hl.placed hc hplaced
  have hbelongs := hl.belongs [] hs.belongs
  obtain ⟨hsimple, hcursor⟩ := hl.simple_found hc rfl
  simp only [step]
  generalize launch c (.past text (i + 1)) s.opened 0 s.rules = l at *
  cases hfound : l.found with
  | some f => exact ⟨f.2, rfl⟩
  | none =>
    rw [hfound, Option.map_none] at hsimple
    rw [← hsimple, Option.elim_none] at hcursor
    have herror : (offerOpened c l.rules l.opened l.cursor).error = none := by
      rw [hcursor]
      apply error_offerOpened_of_size_ne
      intro m hm
      exact (hlaunched m hm).size_token (hbelongs m hm) hwide hc l.rules
    exact ⟨0, by simp only [herror]⟩

theorem Reaches.step_ok (hready : ∀ r ∈ rules, r.Ready) (hwide : WideRules rules) {s : Scanner κ}
    {cur after : Cursor} (h : Reaches rules text s cur) (hread : cur.read? = some (c, after)) :
    ∃ n, (s.step c after).result = .ok n := by
  obtain ⟨i, rfl, -, hs, hbare, hplaced⟩ :=
    h.invariant (P := fun i s => ∀ m ∈ s.opened, m.Placed text i) hready nofun (by
      intro s i c n hs _ hc hplaced hok m hm
      exact (placed_step hs hc hplaced hok m hm).mono (lt_next_simpleToken? rules _ i))
  rw [Cursor.read?_past, Option.map_eq_some_iff] at hread
  obtain ⟨c, hc, heq⟩ := hread
  cases heq
  refine step_ok_of_wide hs ?_ hc hplaced
  intro r hr hcompound
  obtain ⟨k, hk⟩ := List.getElem?_of_mem hr
  obtain ⟨r', hr', heq⟩ := TokenRule.exists_of_bare hbare hk
  rw [TokenRule.prototype_of_bare heq]
  exact hwide r' (List.mem_of_getElem? hr') (TokenRule.compound_of_bare heq ▸ hcompound)

omit [LawfulCopy κ] [LawfulCursor κ] in
theorem Reaches.error_run {s : Scanner κ} {cur : Cursor} (h : Reaches rules text s cur)
    (hok : ∀ {t cur c after}, Reaches rules text t cur → cur.read? = some (c, after) →
      ∃ n, (t.step c after).result = .ok n) (n : Nat) : (Tokenizer.run n s cur).error = none := by
  induction n generalizing s cur with
  | zero => rfl
  | succ n ih =>
    rw [Tokenizer.run]
    split
    · rfl
    · next c after hread =>
      obtain ⟨count, hcount⟩ := hok h hread
      simp only [hcount]
      exact ih (.step h hread hcount)

end Scanner

namespace Tokenizer

theorem tokenize_ok_of_wide (hready : ∀ r ∈ rules, r.Ready) (hwide : WideRules rules)
    (text : String) : ∃ tokens, ((ofRules rules).tokenize text).result = .ok tokens := by
  have herror : ((ofRules rules).course text).error = none :=
    Scanner.Reaches.start.error_run (fun h hread => h.step_ok hready hwide hread) _
  rw [result_tokenize, herror]
  exact ⟨_, rfl⟩

theorem tokenizeAll_ok_of_wide (hready : ∀ r ∈ rules, r.Ready) (hwide : WideRules rules)
    (texts : List String) :
    ∀ scan ∈ tokenizeAll (ofRules rules) texts, ∃ tokens, scan.result = .ok tokens := by
  intro scan hscan
  have hsound := sound_ofRules hready
  have hmem := List.mem_map_of_mem (f := fun s => (s.result, s.events, s.tokenizer.scanner.opened)) hscan
  rw [tokenizeAll_congr hsound hsound rfl rfl texts] at hmem
  obtain ⟨text, -, heq⟩ := List.mem_map.1 hmem
  obtain ⟨tokens, htokens⟩ := tokenize_ok_of_wide hready hwide text
  exact ⟨tokens, (congrArg Prod.fst heq).symm.trans htokens⟩

end Tokenizer

end Lexing
