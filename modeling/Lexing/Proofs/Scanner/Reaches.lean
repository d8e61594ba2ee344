import Lexing.Proofs.Tokenizer.Greedy

/-!
What a step does with a character of a text (`Scanner.leads_step`), and the states that a scan goes
through: what every step keeps holds of all of them (`Scanner.Reaches.invariant`).
-/

namespace Lexing

variable {κ : Type} [CustomMatcher κ]

inductive Launch.Leads (l : Launch κ) (text : List Char) (i : Nat) (c : Char) (t : Step κ) : Prop
  | found {f : Report × Nat} : l.found = some f → t.scanner.opened = l.opened → t.reports = [f.1] →
      t.cursor = l.cursor → t.broken = l.broken → Leads l text i c t
  | offered {o : Offered κ} : Scanner.offerOpened c l.rules l.opened (.past text (i + 1)) = o →
      t.scanner.opened = o.opened → t.reports = o.found.toList → t.cursor = .past text (i + 1) →
      (∀ n, t.result = .ok n → o.error = none) → t.broken = (l.broken || o.broken) →
      Leads l text i c t

theorem Scanner.leads_step [LawfulCopy κ] [LawfulCursor κ] {s : Scanner κ} (hs : s.Sound)
    {text : List Char} {i : Nat} {c : Char} (hc : text[i]? = some c) :
    (launch c (.past text (i + 1)) s.opened 0 s.rules).Leads text i c
      (s.step c (.past text (i + 1))) := by
  have hl := launches_launch c (.past text (i + 1)) s.opened 0 hs.ready
  obtain ⟨hsimple, hcursor⟩ := hl.simple_found hc rfl
  simp only [step]
  generalize launch c (.past text (i + 1)) s.opened 0 s.rules = l at hsimple hcursor
  cases hfound : l.found with
  | some f => exact .found hfound rfl rfl rfl rfl
  | none =>
    rw [hfound, Option.map_none] at hsimple
    rw [← hsimple, Option.elim_none] at hcursor
    rw [hcursor]
    refine .offered rfl rfl rfl (cursor_offerOpened ..) (fun n hok => ?_) rfl
    generalize offerOpened c l.rules l.opened (.past text (i + 1)) = o at hok
    cases herror : o.error with
    | none => rfl
    | some e =>
      rw [herror] at hok
      cases hok

/-- The states in which a scan of the text can be, with no failed step so far. -/
inductive Scanner.Reaches (rules : List (TokenRule κ)) (text : List Char) : Scanner κ → Cursor → Prop
  | start : Reaches rules text { rules } (.ofList text)
  | step {s cur c after n} : Reaches rules text s cur → cur.read? = some (c, after) →
      (s.step c after).result = .ok n →
      Reaches rules text (s.step c after).scanner (s.step c after).cursor

namespace Scanner.Reaches

variable {rules : List (TokenRule κ)} {text : List Char} {s : Scanner κ} {i j : Nat} {c : Char}

theorem start_past : Reaches rules text { rules } (.past text 0) := Cursor.past_zero text ▸ .start

theorem step_past (h : Reaches rules text s (.past text i)) (hc : text[i]? = some c)
    (hcur : (s.step c (.past text (i + 1))).cursor = .past text j)
    (hok : (s.step c (.past text (i + 1))).result.toOption.isSome = true) :
    Reaches rules text (s.step c (.past text (i + 1))).scanner (.past text j) := by
  obtain ⟨n, hn⟩ := Option.isSome_iff_exists.1 hok
  rw [← hcur]
  exact .step h (by rw [Cursor.read?_past, hc]; rfl) (eq_ok_of_toOption hn)

/-- What the steps keep holds wherever a scan gets. The number is that of the characters read. -/
theorem invariant [LawfulCopy κ] [LawfulCursor κ] {P : Nat → Scanner κ → Prop}
    (hready : ∀ r ∈ rules, r.Ready) (hstart : P 0 { rules })
    (hstep : ∀ {s : Scanner κ} {i c n}, s.Sound →
      s.rules.map TokenRule.bare = rules.map TokenRule.bare → text[i]? = some c → P i s →
      (s.step c (.past text (i + 1))).result = .ok n →
      P ((simpleToken? rules text i).elim (i + 1) Prod.snd) (s.step c (.past text (i + 1))).scanner)
    {cur : Cursor} (h : Reaches rules text s cur) :
    ∃ i, cur = .past text i ∧ i ≤ text.length ∧ s.Sound ∧
      s.rules.map TokenRule.bare = rules.map TokenRule.bare ∧ P i s := by
  induction h with
  | start => exact ⟨0, (Cursor.past_zero text).symm, Nat.zero_le _, ⟨hready, nofun⟩, rfl, hstart⟩
  | @step s cur c after n _ hread hok ih =>
    obtain ⟨i, rfl, -, hsound, hbare, hP⟩ := ih
    rw [Cursor.read?_past, Option.map_eq_some_iff] at hread
    obtain ⟨c, hc, heq⟩ := hread
    cases heq
    have hnext := (step_simple hsound hc).2
    rw [simpleToken?_congr hbare] at hnext
    refine ⟨_, hnext, next_simpleToken?_le rules (List.getElem?_eq_some_iff.1 hc).1,
      sound_step hsound c _, (bare_step hsound c _).trans hbare, hstep hsound hbare hc hP hok⟩

theorem exists_of_mem_reports {n : Nat} {cur : Cursor} (h : Reaches rules text s cur)
    {report : Report} (hreport : report ∈ (Tokenizer.run n s cur).reports) :
    ∃ t cur c after, Reaches rules text t cur ∧ cur.read? = some (c, after) ∧
      report ∈ (t.step c after).reports := by
  induction n generalizing s cur with
  | zero => cases hreport
  | succ n ih =>
    simp only [Tokenizer.run] at hreport
    split at hreport
    · cases hreport
    · next c after hread =>
      split at hreport
      · exact ⟨s, cur, c, after, h, hread, hreport⟩
      · next hok =>
        rcases List.mem_append.1 hreport with hreport | hreport
        · exact ⟨s, cur, c, after, h, hread, hreport⟩
        · exact ih (.step h hread hok) hreport

end Scanner.Reaches

end Lexing
