import Lexing.Proofs.Chain.Places
import Lexing.Proofs.Scanner.Behind
import Lexing.Proofs.Scanner.Offer
import Lexing.Proofs.Scanner.Reaches
import Lexing.Proofs.Scanner.Started

namespace Lexing

variable {κ : Type} [CustomMatcher κ] {text : List Char} {lo i j : Nat} {c : Char}

theorem Span.Lies.size_eq {s : Span} (h : s.Lies text lo i) :
    s.start.offset + s.size = s.stop.offset + 1 := by
  have hle := h.start_le
  rw [size]
  omega

theorem Span.lies_past (hlo : lo < i) (hi : i ≤ text.length) :
    Span.Lies ⟨(Cursor.ofList text).positionAt lo, (Cursor.past text i).position⟩ text lo i := by
  obtain ⟨k, rfl⟩ : ∃ k, i = k + 1 := ⟨i - 1, by omega⟩
  rw [Cursor.position_past hi]
  exact ⟨rfl, rfl, Nat.le_refl lo, Nat.le_of_lt_succ hlo, Nat.lt_succ_self k⟩

section Matchers

variable [LawfulCopy κ] [LawfulCursor κ] [LawfulPlaces κ] {m s : Matcher κ}

theorem Matcher.Served.lies_token (h : Served text lo m.copy i s) (hlo : lo < i)
    (hi : i ≤ text.length) (kind : String) :
    (s.toToken kind ((Cursor.ofList text).positionAt lo) (.past text i)).span.Lies text lo i := by
  rw [toToken]
  cases hspan : s.span with
  | none => exact Span.lies_past hlo hi
  | some t => exact m.orderly_copy h t hspan

omit [LawfulCopy κ] [LawfulCursor κ] [LawfulPlaces κ] in
theorem Matcher.served_feed (h : Served text lo m i s) :
    Served text lo m (feed text s i).2 (feed text s i).1 := by
  fun_induction feed text s i with
  | case1 s i hc => exact h
  | case2 s i c hc r hend => exact h.next hc
  | case3 s i c hc r hgo ih => exact ih (h.next hc)

theorem TokenRule.lies_of_tokenAt? {r : TokenRule κ} {t : Token} (h : r.tokenAt? text i = some (t, j)) :
    t.span.Lies text i j := by
  have hlt : i < j := lt_of_tokenAt? h
  have hle : j ≤ text.length := le_length_of_tokenAt? h
  have hstart : Matcher.Served text i r.prototype.copy i r.prototype.copy := .start (Nat.le_refl i)
  have hserved := Matcher.served_feed hstart
  rw [tokenAt?] at h
  split at h
  · dsimp only at h
    split at h
    · cases h
      rw [Cursor.position_past (Nat.lt_of_lt_of_le hlt hle)]
      exact hserved.lies_token hlt hle r.name
    · cases h
  · cases h

end Matchers

structure OpenMatch.Placed (text : List Char) (i : Nat) (m : OpenMatch κ) : Prop where
  start_eq : m.start = (Cursor.ofList text).positionAt m.start.offset
  served : ∃ p : Matcher κ, Matcher.Served text m.start.offset p.copy i m.matcher

namespace OpenMatch.Placed

variable {m : OpenMatch κ}

theorem mono (h : m.Placed text i) (hij : i ≤ j) : m.Placed text j := by
  obtain ⟨p, hserved⟩ := h.served
  exact ⟨h.start_eq, p, hserved.mono hij⟩

theorem offer (h : m.Placed text i) (hc : text[i]? = some c) :
    (m.offer c (.past text (i + 1))).Placed text (i + 1) := by
  obtain ⟨p, hserved⟩ := h.served
  exact ⟨h.start_eq, p, hserved.next hc⟩

theorem lies_token [LawfulCopy κ] [LawfulCursor κ] [LawfulPlaces κ] (h : m.Placed text i)
    (hc : text[i]? = some c) (rules : List (TokenRule κ)) :
    ((m.offer c (.past text (i + 1))).token rules (.past text (i + 1))).span.Lies text
      m.start.offset (i + 1) := by
  obtain ⟨p, hserved⟩ := h.served
  have hlt : m.start.offset < i + 1 := Nat.lt_succ_of_le hserved.le
  rw [OpenMatch.token, OpenMatch.start_offer, h.start_eq]
  exact (hserved.next hc).lies_token hlt (List.getElem?_eq_some_iff.1 hc).1 _

end OpenMatch.Placed

namespace Scanner

variable [LawfulCursor κ] {rules : List (TokenRule κ)} {s : Scanner κ}

theorem Launches.placed {opened : List (OpenMatch κ)} {l : Launch κ}
    (h : Launches c (.past text (i + 1)) opened 0 rules l) (hc : text[i]? = some c)
    (hopened : ∀ m ∈ opened, m.Placed text i) : ∀ m ∈ l.opened, m.Placed text i := by
  obtain ⟨new, hnew, hstarted⟩ := h.mem_opened rfl hc rfl
  have hoffset := Cursor.offset_position_past hc
  rw [hnew]
  intro m hm
  rcases List.mem_append.1 hm with hm | hm
  · obtain ⟨r, -, -, heq⟩ := (hstarted m hm).1
    rw [heq]
    refine ⟨?_, r.prototype, .start (Nat.le_of_eq hoffset)⟩
    rw [hoffset]
    exact Cursor.position_past (List.getElem?_eq_some_iff.1 hc).1
  · exact hopened m hm

variable [LawfulCopy κ] (hs : s.Sound) (hc : text[i]? = some c)
  (hplaced : ∀ m ∈ s.opened, m.Placed text i)
include hs hc hplaced

theorem placed_step {n : Nat} (hok : (s.step c (.past text (i + 1))).result = .ok n) :
    ∀ m ∈ (s.step c (.past text (i + 1))).scanner.opened, m.Placed text (i + 1) := by
  have hl := launches_launch c (.past text (i + 1)) s.opened 0 hs.ready
  have hlaunched := hl.placed hc hplaced
  cases leads_step hs hc with
  | found _ hopened =>
    rw [hopened]
    exact fun m hm => (hlaunched m hm).mono (Nat.le_succ i)
  | offered ho hopened _ _ herror =>
    subst ho
    rw [hopened]
    intro m' hm'
    rcases mem_opened_offerOpened (herror n hok) m' hm' with hm | ⟨m, hm, rfl, -⟩
    · exact (hlaunched m' hm).mono (Nat.le_succ i)
    · exact (hlaunched m hm).offer hc

omit hs hc hplaced in
/-- The offset of the character with which the token of a report began, where `c` has just been
read: a simple rule reads its token from there on, a compound rule has opened its match there. -/
inductive Began (s : Scanner κ) (c : Char) (cur : Cursor) : Report → Nat → Prop
  | simple {k r t} : s.rules[k]? = some r → r.compound = false → Began s c cur (k, t) (cur.offset - 1)
  | compound {m} : m ∈ (launch c cur s.opened 0 s.rules).opened →
      Began s c cur (m.rule, (m.offer c cur).token s.rules cur) m.start.offset

theorem lies_of_report [LawfulPlaces κ] {report : Report}
    (hreport : report ∈ (s.step c (.past text (i + 1))).reports) :
    ∃ lo, s.Began c (.past text (i + 1)) report lo ∧
      report.2.span.Lies text lo (s.step c (.past text (i + 1))).cursor.offset := by
  have hi := (List.getElem?_eq_some_iff.1 hc).1
  have hl := launches_launch c (.past text (i + 1)) s.opened 0 hs.ready
  have hlaunched := hl.placed hc hplaced
  cases leads_step hs hc with
  | found hfound _ hreports hcursor =>
    rw [hreports, List.mem_singleton] at hreport
    subst hreport
    obtain ⟨r, j, hr, hcompound, htoken, hbehind⟩ := hl.token_of_found [] hc rfl hfound
    rw [hcursor, hbehind, Cursor.offset_past (TokenRule.le_length_of_tokenAt? htoken)]
    refine ⟨_, .simple hr hcompound, ?_⟩
    rw [Cursor.offset_past hi]
    exact TokenRule.lies_of_tokenAt? htoken
  | offered ho _ hreports hcursor =>
    subst ho
    rw [hreports, Option.mem_toList] at hreport
    obtain ⟨m, hm, -, rfl⟩ := found_offerOpened hreport
    rw [OpenMatch.token_congr hl.bare, hcursor, Cursor.offset_past hi]
    exact ⟨_, .compound hm, (hlaunched m hm).lies_token hc _⟩

end Scanner

namespace Tokenizer

/-- Every token that is reported lies between the character that it began with and the cursor, and
its ends are places of the text in this order, so that its size is never cut off at zero. -/
theorem lies_of_mem_reports [LawfulCopy κ] [LawfulCursor κ] [LawfulPlaces κ]
    {rules : List (TokenRule κ)} (hready : ∀ r ∈ rules, r.Ready) {text : String} {report : Report}
    (hreport : report ∈ ((ofRules rules).course text).reports) :
    ∃ s cur c after lo, Scanner.Reaches rules text.toList s cur ∧ cur.read? = some (c, after) ∧
      report ∈ (s.step c after).reports ∧ s.Began c after report lo ∧
      report.2.span.Lies text.toList lo (s.step c after).cursor.offset ∧
      report.2.span.start.offset + report.2.span.size = report.2.span.stop.offset + 1 := by
  obtain ⟨s, cur, c, after, hreaches, hread, hreport⟩ :=
    Scanner.Reaches.start.exists_of_mem_reports hreport
  obtain ⟨i, rfl, -, hs, -, hplaced⟩ :=
    hreaches.invariant (P := fun i s => ∀ m ∈ s.opened, m.Placed text.toList i) hready nofun (by
      intro s i c n hs _ hc hplaced hok m hm
      exact (Scanner.placed_step hs hc hplaced hok m hm).mono (lt_next_simpleToken? rules _ i))
  have hread' := hread
  rw [Cursor.read?_past, Option.map_eq_some_iff] at hread'
  obtain ⟨c, hc, heq⟩ := hread'
  cases heq
  obtain ⟨lo, hbegan, hlies⟩ := Scanner.lies_of_report hs hc hplaced hreport
  exact ⟨s, _, c, _, lo, hreaches, hread, hreport, hbegan, hlies, hlies.size_eq⟩

theorem lies_of_mem_reports_around :
    let one : Char → Matcher FixedMatcher := fun c => .chars "one" (.one (.singleton c))
    let rest : Matcher FixedMatcher := .chars "rest" (.upTo (.singleton '>'))
    let tag : Matcher FixedMatcher :=
      .mk (.chain { name := "tag", rule := .skipping, groups := [[one '<'], [one '-', rest]] })
    let word : Matcher FixedMatcher :=
      .mk (.words { name := "word", rule := .longest, words := [['b', 'c', 'd']] })
    let row : Matcher FixedMatcher :=
      .mk (.chain { name := "row", rule := .suffixed, groups := [[one 'a'], [word]] })
    let rules : List (TokenRule FixedMatcher) :=
      [{ name := "tag", compound := true, firstChars := .singleton '<', prototype := tag },
        { name := "row", compound := false, firstChars := .singleton 'a', prototype := row }]
    let reports := ((ofRules rules).course "<abcx>").reports
    reports.map (fun r => (r.1, r.2.span.start.offset, r.2.span.stop.offset)) =
        [(1, 1, 1), (0, 0, 5)] ∧
      ∀ report ∈ reports, ∃ lo n, report.2.span.Lies "<abcx>".toList lo n ∧
        report.2.span.start.offset + report.2.span.size = report.2.span.stop.offset + 1 := by
  -- the tag has looked at `a` ahead of its turn, but it is the row that takes it: the row reads up
  -- to `x` and falls back to `a`, and the tag goes on behind `x`
  intro one rest tag word row rules reports
  have hready : ∀ r ∈ rules, r.Ready := by simp [rules, TokenRule.Ready]
  refine ⟨by decide +kernel, fun report hreport => ?_⟩
  obtain ⟨_, _, _, _, lo, -, -, -, -, hlies, hsize⟩ := lies_of_mem_reports hready hreport
  exact ⟨lo, _, hlies, hsize⟩

end Tokenizer

end Lexing
