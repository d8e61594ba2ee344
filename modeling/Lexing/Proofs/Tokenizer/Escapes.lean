import Lexing.Proofs.Scanner.Guarding
import Lexing.Proofs.Tokenizer.Brackets

namespace Lexing

variable {κ : Type} [CustomMatcher κ]

def enclosed (start escape stop : Char) (text : List Char) :
    (stack : List (Nat × Guard)) → List (Nat × Char) → List (Nat × Nat)
  | _, [] => []
  | stack, (i, c) :: rest =>
    (Guard.nest start escape stop text i c stack).2.toList ++
      enclosed start escape stop text (Guard.nest start escape stop text i c stack).1 rest

namespace Guard

def stop? (escape stop : Char) (text : List Char) : Guard → List (Nat × Char) → Option Nat
  | _, [] => none
  | g, (i, c) :: rest =>
    match g.next? escape stop text[i - 1]? c with
    | none => some i
    | some g => stop? escape stop text g rest

end Guard

section Lone

variable {start escape stop : Char} {text : List Char} {chars : List (Nat × Char)}

theorem enclosed_of_closed (h : ∀ q ∈ chars, q.2 ≠ start) :
    enclosed start escape stop text [] chars = [] := by
  induction chars with
  | nil => rfl
  | cons q rest ih =>
    obtain ⟨hne, hrest⟩ := List.forall_mem_cons.1 h
    rw [enclosed, Guard.nest_of_ne hne]
    exact ih hrest

theorem enclosed_of_open (h : ∀ q ∈ chars, q.2 ≠ start) (j : Nat) (g : Guard) :
    enclosed start escape stop text [(j, g)] chars =
      (g.stop? escape stop text chars).toList.map fun i => (j, i) := by
  induction chars generalizing g with
  | nil => rfl
  | cons q rest ih =>
    obtain ⟨hne, hrest⟩ := List.forall_mem_cons.1 h
    rw [enclosed, Guard.nest_of_ne hne, Guard.shut, Guard.stop?]
    cases g.next? escape stop text[q.1 - 1]? q.2 with
    | none => exact congrArg _ (enclosed_of_closed hrest)
    | some g => exact ih hrest g

theorem enclosed_of_lone {before after : List (Nat × Char)} (hbefore : ∀ q ∈ before, q.2 ≠ start)
    (hafter : ∀ q ∈ after, q.2 ≠ start) (i : Nat) :
    enclosed start escape stop text [] (before ++ (i, start) :: after) =
      (Guard.stop? escape stop text {} after).toList.map fun j => (i, j) := by
  induction before with
  | nil =>
    rw [List.nil_append, enclosed, ← enclosed_of_open hafter]
    simp [Guard.nest, Guard.shut]
  | cons q rest ih =>
    obtain ⟨hne, hrest⟩ := List.forall_mem_cons.1 hbefore
    rw [List.cons_append, enclosed, Guard.nest_of_ne hne]
    exact ih hrest

/-- In front of a closing character `q`, the last character `p` that a match has seen is an escape just
if one stands there in the text. The first one of the match may hide an escape. -/
def Sighted (start escape stop : Char) (text : List Char) (p q : Nat × Char) : Prop :=
  q.2 = stop → (p.2 = escape → text[q.1 - 1]? = some escape) ∧
    (text[q.1 - 1]? = some escape → p.2 = escape ∨ p.2 = start)

structure Guard.Knows (start escape : Char) (p : Nat × Char) (g : Guard) : Prop where
  escaped : g.escaped = true ↔ p.2 = escape
  bare : p.2 = start → g.bare = true

namespace Guard.Knows

variable {p q : Nat × Char} {g g' : Guard}

theorem shields_iff (h : g.Knows start escape p) (hsight : Sighted start escape stop text p q)
    (hend : q.2 = stop) :
    g.shields escape text[q.1 - 1]? = true ↔ text[q.1 - 1]? = some escape := by
  obtain ⟨hseen, hhidden⟩ := hsight hend
  rw [shields, Bool.or_eq_true, h.escaped, Bool.and_eq_true, decide_eq_true_eq]
  constructor
  · rintro (hlast | ⟨-, hprevious⟩)
    · exact hseen hlast
    · exact hprevious
  · intro hprevious
    exact (hhidden hprevious).imp_right fun hopening => ⟨h.bare hopening, hprevious⟩

theorem of_next? (hne : q.2 ≠ start) {previous : Option Char}
    (hnext : g.next? escape stop previous q.2 = some g') : g'.Knows start escape q := by
  refine ⟨?_, fun hopening => absurd hopening hne⟩
  rw [next?] at hnext
  split at hnext
  · next hescape =>
    cases hnext
    exact iff_of_true rfl hescape
  · next hescape =>
    split at hnext
    · cases hnext
      exact iff_of_false Bool.false_ne_true hescape
    · split at hnext
      · cases hnext
      · cases hnext
        exact iff_of_false Bool.false_ne_true hescape

end Guard.Knows

theorem Guard.stop?_eq_find? {p : Nat × Char} {g : Guard} (hstop : escape ≠ stop)
    (h : g.Knows start escape p) (hchars : ∀ q ∈ chars, q.2 ≠ start)
    (hsighted : (p :: chars).IsChain (Sighted start escape stop text)) :
    g.stop? escape stop text chars =
      (chars.find? fun q => q.2 = stop ∧ text[q.1 - 1]? ≠ some escape).map Prod.fst := by
  induction chars generalizing p g with
  | nil => rfl
  | cons q rest ih =>
    obtain ⟨hsight, hrest⟩ := List.isChain_cons_cons.1 hsighted
    obtain ⟨hne, hchars⟩ := List.forall_mem_cons.1 hchars
    rw [Guard.stop?, List.find?_cons]
    cases hnext : g.next? escape stop text[q.1 - 1]? q.2 with
    | none =>
      obtain ⟨hshield, hend⟩ := Guard.of_next?_eq_none hnext
      have htake : q.2 = stop ∧ text[q.1 - 1]? ≠ some escape :=
        ⟨hend, fun hprevious => hshield ((h.shields_iff hsight hend).2 hprevious)⟩
      rw [decide_eq_true htake]
      rfl
    | some g' =>
      have hskip : ¬(q.2 = stop ∧ text[q.1 - 1]? ≠ some escape) := by
        rintro ⟨hend, hprevious⟩
        have hshield := mt (h.shields_iff hsight hend).1 hprevious
        rw [Guard.next?, if_neg (hend ▸ hstop.symm), if_neg hshield, if_pos hend] at hnext
        cases hnext
      rw [decide_eq_false hskip]
      exact ih (Knows.of_next? hne hnext) hchars hrest

end Lone

namespace Tokenizer

variable [LawfulCopy κ] [LawfulCursor κ] {rules : List (TokenRule κ)} {k : Nat}
  {start escape stop : Char}

def Encloses (rules : List (TokenRule κ)) (k : Nat) (start escape stop : Char) (text : List Char)
    (i : Nat) (s : Scanner κ) (course : Course κ) : Prop :=
  ∀ stack, List.Forall₂ (OpenMatch.Guards k escape stop text i) stack s.opened →
    course.error = none ∧ (tokensOf k course.reports).map (fun t => (t.kind, t.span)) =
      (enclosed start escape stop text stack (freeChars rules text i)).map
        (bracket (Scanner.ruleName rules k) text)

theorem enclosed_run (hrules : Escapable rules k start escape stop) {text : List Char} {n i : Nat}
    {s : Scanner κ} (hs : s.Sound) (hbare : s.rules.map TokenRule.bare = rules.map TokenRule.bare)
    (hn : text.length - i ≤ n) :
    Encloses rules k start escape stop text i s (run n s (.past text i)) := by
  -- the invariant of the scan: the open matches are the open brackets of the stack of guards, which
  -- has gone just as far
  apply run_induction _ _ _ hs hbare hn
  · intro i s hc stack _
    rw [freeChars_of_none hc]
    exact ⟨rfl, rfl⟩
  · intro i c s e hs hbare hc t hresult stack h
    cases htoken : simpleToken? rules text i with
    | some p =>
      obtain ⟨⟨count, hok⟩, -⟩ := Scanner.step_skip hs hbare hc (hrules.apart c) htoken
      cases hresult.symm.trans hok
    | none => cases hresult.symm.trans (Scanner.step_guards hrules hs hbare hc h htoken).1
  · intro i c s count rest hs hbare hc t _ ih stack h
    have hnext := lt_next_simpleToken? rules text i
    rw [freeChars_of_some hc]
    cases htoken : simpleToken? rules text i with
    | some p =>
      obtain ⟨token, j⟩ := p
      obtain ⟨-, hopened, hsimple⟩ := Scanner.step_skip hs hbare hc (hrules.apart c) htoken
      rw [htoken, Option.elim_some] at hnext ih
      have hguards : List.Forall₂ (OpenMatch.Guards k escape stop text j) stack t.scanner.opened :=
        hopened ▸ h.imp fun _ _ h => h.mono (Nat.le_of_lt hnext)
      obtain ⟨herror, htokens⟩ := ih stack hguards
      rw [tokensOf_append, tokensOf_eq_nil hrules.isCompound hsimple, List.nil_append, htokens]
      exact ⟨herror, rfl⟩
    | none =>
      obtain ⟨-, hguards, hreports⟩ := Scanner.step_guards hrules hs hbare hc h htoken
      rw [htoken, Option.elim_none] at ih
      obtain ⟨herror, htokens⟩ := ih _ hguards
      rw [tokensOf_append, List.map_append, hreports, htokens, enclosed, List.map_append]
      exact ⟨herror, rfl⟩

theorem tokens_eq_enclosed (hrules : Escapable rules k start escape stop) (text : String) :
    let reports := ((ofRules rules).course text).reports
    ((ofRules rules).tokenize text).result = .ok (reports.map Prod.snd) ∧
      (tokensOf k reports).map (fun t => (t.kind, t.span)) =
        (enclosed start escape stop text.toList [] (freeChars rules text.toList 0)).map
          (bracket (Scanner.ruleName rules k) text.toList) := by
  have hrun : Encloses rules k start escape stop text.toList 0 (ofRules rules).scanner
      ((ofRules rules).course text) := by
    rw [course_eq_run]
    exact enclosed_run hrules (sound_ofRules hrules.ready) rfl (Nat.le_refl _)
  obtain ⟨herror, htokens⟩ := hrun [] .nil
  refine ⟨?_, htokens⟩
  rw [result_tokenize, herror]
  rfl

/-- With one opening character outside the simple tokens, the match ends where its guard says: with the
first closing character that does not stand behind an escape in the text, as long as the match sees
the escapes in front of the closing characters. -/
theorem ends_at_unescaped (hrules : Escapable rules k start escape stop) {r : TokenRule κ}
    (hr : rules[k]? = some r) {text : String} {before after : List (Nat × Char)} {i : Nat}
    (hfree : freeChars rules text.toList 0 = before ++ (i, start) :: after)
    (hbefore : ∀ q ∈ before, q.2 ≠ start) (hafter : ∀ q ∈ after, q.2 ≠ start) :
    let reports := ((ofRules rules).course text).reports
    let stop? := Guard.stop? escape stop text.toList {} after
    ((ofRules rules).tokenize text).result = .ok (reports.map Prod.snd) ∧
      (tokensOf k reports).map (fun t => (t.kind, t.span)) =
        stop?.toList.map (fun j => bracket r.name text.toList (i, j)) ∧
      (((i, start) :: after).IsChain (Sighted start escape stop text.toList) →
        stop? = (after.find? fun q => q.2 = stop ∧ text.toList[q.1 - 1]? ≠ some escape).map
          Prod.fst) := by
  obtain ⟨hresult, htokens⟩ := tokens_eq_enclosed hrules text
  have hname : Scanner.ruleName rules k = r.name := by simp [Scanner.ruleName, hr]
  rw [hname, hfree, enclosed_of_lone hbefore hafter, List.map_map] at htokens
  refine ⟨hresult, htokens, fun hsighted => ?_⟩
  have hopening : ({} : Guard).Knows start escape (i, start) :=
    ⟨iff_of_false Bool.false_ne_true hrules.start_ne_escape, fun _ => rfl⟩
  exact Guard.stop?_eq_find? hrules.escape_ne_stop hopening hafter hsighted

theorem ends_at_unescaped_around :
    let tag : TokenRule FixedMatcher :=
      { name := "tag", compound := true, firstChars := CharSet.empty.union (.singleton '<')
        prototype := .opening "tag" (.chars "tag-start" (.one (.singleton '<')))
          (.chars "tag-end" (.upToUnescaped (.singleton '>') (.singleton '\\'))) [] }
    let digit : TokenRule FixedMatcher :=
      { name := "digit", compound := false, firstChars := .singleton '1'
        prototype := .chars "digit" (.one (.singleton '1')) }
    let rules := [tag, digit]
    let text := "x<1\\>1>"
    let after := [(3, '\\'), (4, '>'), (6, '>')]
    let reports := ((ofRules rules).course text).reports
    Escapable rules 0 '<' '\\' '>' ∧
      freeChars rules text.toList 0 = [(0, 'x')] ++ (1, '<') :: after ∧
      ((1, '<') :: after).IsChain (Sighted '<' '\\' '>' text.toList) ∧
      ((ofRules rules).tokenize text).result = .ok (reports.map Prod.snd) ∧
      (tokensOf 0 reports).map (fun t => (t.kind, t.span)) = [("tag", ⟨⟨1, 1, 2⟩, ⟨6, 1, 7⟩⟩)] ∧
      Guard.stop? '\\' '>' text.toList {} after =
        (after.find? fun q => q.2 = '>' ∧ text.toList[q.1 - 1]? ≠ some '\\').map Prod.fst := by
  -- a simple token follows the opening character, and one the closing character that is escaped
  intro tag digit rules text after reports
  have hrules : Escapable rules 0 '<' '\\' '>' :=
    Escapable.of_pair ⟨"tag", "tag", rfl⟩ (by simp [tag, digit, TokenRule.Ready]) rfl (by decide)
      (by decide) (by decide)
  have hfree : freeChars rules text.toList 0 = [(0, 'x')] ++ (1, '<') :: after := by decide +kernel
  have hsighted : ((1, '<') :: after).IsChain (Sighted '<' '\\' '>' text.toList) := by
    simp [after, text, Sighted]
  obtain ⟨hresult, htokens, hstop⟩ :=
    ends_at_unescaped hrules rfl hfree (by simp) (by simp [after])
  exact ⟨hrules, hfree, hsighted, hresult, htokens.trans (by decide +kernel), hstop hsighted⟩

/-- A match does not see the escapes inside of simple tokens, and an escape that it has seen stays
when a simple token follows: an escaped closing character ends the first match, and the second one
goes on behind one that is not escaped. -/
theorem not_ends_at_unescaped :
    let tag : TokenRule FixedMatcher :=
      { name := "tag", compound := true, firstChars := CharSet.empty.union (.singleton '<')
        prototype := .opening "tag" (.chars "tag-start" (.one (.singleton '<')))
          (.chars "tag-end" (.upToUnescaped (.singleton '>') (.singleton '\\'))) [] }
    let word : TokenRule FixedMatcher :=
      { name := "word", compound := false, firstChars := .singleton 'a'
        prototype := .mk (.words { name := "word", rule := .longest, words := [['a', '\\']] }) }
    let letter : TokenRule FixedMatcher :=
      { name := "letter", compound := false, firstChars := .singleton 'a'
        prototype := .chars "letter" (.one (.singleton 'a')) }
    let unescaped := fun (text : String) (q : Nat × Char) =>
      decide (q.2 = '>' ∧ text.toList[q.1 - 1]? ≠ some '\\')
    (Escapable [tag, word] 0 '<' '\\' '>' ∧
      freeChars [tag, word] "<xa\\>".toList 0 = [(0, '<'), (1, 'x'), (4, '>')] ∧
      [(1, 'x'), (4, '>')].find? (unescaped "<xa\\>") = none ∧
      ((ofRules [tag, word]).tokenize "<xa\\>").result = .ok
        [⟨"word", "a\\", ⟨2, 1, 3⟩, ⟨3, 1, 4⟩⟩, ⟨"tag", "<x>", ⟨0, 1, 1⟩, ⟨4, 1, 5⟩⟩]) ∧
    Escapable [tag, letter] 0 '<' '\\' '>' ∧
      freeChars [tag, letter] "<\\a>".toList 0 = [(0, '<'), (1, '\\'), (3, '>')] ∧
      [(1, '\\'), (3, '>')].find? (unescaped "<\\a>") = some (3, '>') ∧
      ((ofRules [tag, letter]).tokenize "<\\a>").result =
        .ok [⟨"letter", "a", ⟨2, 1, 3⟩, ⟨2, 1, 3⟩⟩] := by
  intro tag word letter unescaped
  have htag : tag.IsEscapable '<' '\\' '>' := ⟨"tag", "tag", rfl⟩
  have hword : Escapable [tag, word] 0 '<' '\\' '>' :=
    Escapable.of_pair htag (by simp [tag, word, TokenRule.Ready]) rfl (by decide) (by decide) (by decide)
  have hletter : Escapable [tag, letter] 0 '<' '\\' '>' :=
    Escapable.of_pair htag (by simp [tag, letter, TokenRule.Ready]) rfl (by decide) (by decide) (by decide)
  refine ⟨⟨hword, ?_, ?_, ?_⟩, hletter, ?_, ?_, ?_⟩ <;> decide +kernel

end Tokenizer

end Lexing
