import Lexing.Proofs.Matcher.Verbatim

namespace Lexing

namespace Chain

variable {α : Type} [Member α] {offer : Offer α}

theorem commit_of_current {m : Chain α} {a : α} (hide : m.hideFirst = false)
    (h : m.current = some a) :
    m.commit = { m with span := ((Member.span a).map (Span.merge m.span)).or m.span } := by
  rw [commit, if_neg (by simp [hide]), h, Option.bind_some]
  cases Member.span a with
  | none => rfl
  | some span => rfl

theorem acceptInOrder_of_current {m : Chain α} {a : α} (hide : m.hideFirst = false)
    (h : m.current = some a) (c : Char) (cur : Cursor) : m.acceptInOrder offer c cur =
      let r := offer a c cur
      let s := m.modifyCurrent fun _ => r.state
      let span := ((Member.span r.state).map (Span.merge m.span)).or m.span
      finish r.accepted (if Member.isComplete r.state then { s with span }.moveOn else s) c
        r.cursor := by
  have hcurrent : (m.modifyCurrent fun _ => (offer a c cur).state).current =
      some (offer a c cur).state := by
    rw [current_modifyCurrent, h]
    rfl
  rw [acceptInOrder_eq_finish h]
  dsimp only
  rw [commit_of_current (m := m.modifyCurrent _) hide hcurrent]
  rfl

end Chain

namespace Progress

variable {p : Progress} {pos q : Position} {s : Span}

theorem start_of_span (h : p.span = some s) : p.start = some s.start := by
  rw [span] at h
  split at h
  · next hstart _ =>
    cases h
    exact hstart
  · cases h

theorem start_pushAs (h : p.start = some q) (ht : p.taken ≠ []) (complete : Bool) (c : Char) :
    (p.pushAs complete c pos).start = some q := by
  simp only [pushAs, push, if_neg ht, h]

theorem span_pushAs {complete : Bool} {c : Char} (h : (p.pushAs complete c pos).start = some q)
    (hcomplete : (p.pushAs complete c pos).isComplete = true) :
    (p.pushAs complete c pos).span = some ⟨q, pos⟩ := by
  cases complete with
  | false => cases hcomplete
  | true =>
    rw [span, h]
    rfl

end Progress

namespace Layer

variable {κ α : Type} [CustomMatcher κ]

def Strict : Layer κ α → Prop
  | .chars m => ∃ set, m.rule = .one set
  | .words m => m.rule ≠ .upTo
  | _ => False

theorem Strict.accept [Member α] {offer : Offer α} {l : Layer κ α} (h : l.Strict) {p : Progress}
    (hp : l.progress? = some p) {c : Char} {cur : Cursor}
    (htaken : (l.accept offer c cur).accepted = true) :
    (l.accept offer c cur).state.Strict ∧
      ∃ complete, (l.accept offer c cur).state.progress? = some (p.pushAs complete c cur.position) := by
  cases l with
  | chars m =>
    cases hp
    obtain ⟨set, hset⟩ := h
    obtain ⟨hrule, complete, hpush⟩ := CharMatcher.push_of_taken (by simp [hset]) htaken
    exact ⟨⟨set, hrule.trans hset⟩, complete, congrArg some hpush⟩
  | words m =>
    cases hp
    obtain ⟨hrule, complete, hpush⟩ := WordMatcher.push_of_taken h htaken
    exact ⟨fun hupTo => h (hrule.symm.trans hupTo), complete, congrArg some hpush⟩
  | choice m => cases h
  | chain m => cases h
  | custom k => cases h

end Layer

namespace Matcher

variable {κ : Type} [CustomMatcher κ]

def opening (name : String) (o e : Matcher κ) (taken : List Char) : Matcher κ :=
  mk (.chain { name, rule := .inOrder, groups := [[o, e]], taken })

def closing (name : String) (o e : Matcher κ) (span : Option Span) (taken : List Char) : Matcher κ :=
  mk (.chain { name, rule := .inOrder, groups := [[o, e]], index := 1, span, taken })

def closed (name : String) (o e : Matcher κ) (span : Option Span) (taken : List Char) : Matcher κ :=
  mk (.chain
    { name, rule := .inOrder, groups := [[o, e]], index := 1, span, taken, complete := true
      active := false })

section Bracket

variable {name : String} {o e : Matcher κ} {span : Option Span} {taken : List Char} {c : Char}
  {cur : Cursor}

theorem accept_opening (h : (o.accept c cur).accepted = true) :
    ((opening name o e taken).accept c cur).state =
      let s := (o.accept c cur).state
      if s.isComplete then closing name s e s.span (c :: taken)
      else opening name s e (c :: taken) := by
  have hmerge : ∀ span : Option Span, (span.map (Span.merge none)).or none = span := by
    rintro (_ | span) <;> rfl
  rw [opening, accept_mk]
  simp only [Layer.accept, Chain.accept]
  rw [Chain.acceptInOrder_of_current (a := o) rfl rfl]
  simp only [h, hmerge, Member.isComplete, Member.span]
  cases hs : (o.accept c cur).state.isComplete with
  | false => rfl
  | true => rfl

theorem isFailed_opening (h : (o.accept c cur).accepted = false) :
    ((opening name o e taken).accept c cur).state.isFailed = true := by
  rw [opening, accept_mk]
  simp only [Layer.accept, Chain.accept]
  rw [Chain.acceptInOrder_of_current (a := o) rfl rfl]
  simp only [h]
  rfl

theorem accepted_opening :
    ((opening name o e taken).accept c cur).accepted = (o.accept c cur).accepted := by
  rw [opening, accept_mk]
  simp only [Layer.accept, Chain.accept]
  rw [Chain.acceptInOrder_of_current (a := o) rfl rfl]
  rfl

theorem accepted_closing :
    ((closing name o e span taken).accept c cur).accepted = (e.accept c cur).accepted := by
  rw [closing, accept_mk]
  simp only [Layer.accept, Chain.accept]
  rw [Chain.acceptInOrder_of_current (a := e) rfl rfl]
  rfl

theorem accept_closing (h : (e.accept c cur).accepted = true) :
    ((closing name o e span taken).accept c cur).state =
      let s := (e.accept c cur).state
      if s.isComplete then closed name o s ((s.span.map (Span.merge span)).or span) (c :: taken)
      else closing name o s span (c :: taken) := by
  rw [closing, accept_mk]
  simp only [Layer.accept, Chain.accept]
  rw [Chain.acceptInOrder_of_current (a := e) rfl rfl]
  simp only [h, Member.isComplete, Member.span]
  cases hs : (e.accept c cur).state.isComplete with
  | false => rfl
  | true => rfl

theorem isFailed_closing (h : (e.accept c cur).accepted = false) :
    ((closing name o e span taken).accept c cur).state.isFailed = true := by
  rw [closing, accept_mk]
  simp only [Layer.accept, Chain.accept]
  rw [Chain.acceptInOrder_of_current (a := e) rfl rfl]
  simp only [h]
  rfl

theorem isFailed_closed :
    ((closed name o e span taken).accept c cur).state.isFailed = true := by
  rw [closed, accept_mk]
  rfl

end Bracket

theorem isFailed_of_isComplete {l : Layer κ (Matcher κ)} (hl : ∀ k, l ≠ .custom k) {c : Char}
    {cur : Cursor} (h : ((mk l).accept c cur).state.isComplete = true) :
    ((mk l).accept c cur).state.isFailed = false := by
  have hnot : ∀ {complete failed : Bool}, (complete && !failed) = true → failed = false := by
    intro complete failed h
    simpa using (Bool.and_eq_true_iff.1 h).2
  rw [accept_mk] at h ⊢
  cases l with
  | custom k => exact absurd rfl (hl k)
  | _ => exact hnot h

inductive Begun (c : Char) (p : Position) : Matcher κ → Prop
  | opening {name l l' q taken} : l.Strict → l.progress? = some q → q.start = some p →
      q.taken ≠ [] → l'.progress? = some {} → taken.getLast? = some c →
      Begun c p (.opening name (mk l) (mk l') taken)
  | closing {name o l q s taken} : l.progress? = some q → q.Since p.offset → s.start = p →
      taken.getLast? = some c → Begun c p (.closing name o (mk l) (some s) taken)
  | closed {name o e s taken} : s.start = p → taken.getLast? = some c →
      Begun c p (.closed name o e (some s) taken)
  | choice {m} : m.rule = .any → m.progress.start = some p → m.progress.taken.getLast? = some c →
      Begun c p (mk (.choice m))

namespace Begun

variable {m : Matcher κ} {c d : Char} {p : Position} {cur : Cursor}

theorem isFailed_of_isComplete (h : Begun c p m)
    (hcomplete : (m.accept d cur).state.isComplete = true) :
    (m.accept d cur).state.isFailed = false := by
  cases h with
  | _ => exact Matcher.isFailed_of_isComplete nofun hcomplete

theorem head?_text (h : Begun c p m) : m.text.head? = some c := by
  have hreverse : ∀ taken : List Char, taken.getLast? = some c → taken.reverse.head? = some c := by
    intro taken h
    rw [List.head?_reverse, h]
  cases h with
  | opening _ _ _ _ _ h => exact hreverse _ h
  | closing _ _ _ h => exact hreverse _ h
  | closed _ h => exact hreverse _ h
  | choice _ _ h => exact hreverse _ h

theorem start_of_span (h : Begun c p m) {s : Span} (hs : m.span = some s) : s.start = p := by
  cases h with
  | opening => cases hs
  | closing _ _ h _ =>
    cases hs
    exact h
  | closed h _ =>
    cases hs
    exact h
  | choice _ h _ =>
    have hstart := Progress.start_of_span hs
    rw [h] at hstart
    exact (Option.some.inj hstart).symm

theorem start_merge {t s : Span} {q : Option Span} (ht : t.start = p)
    (hq : ∀ u, q = some u → p.offset ≤ u.start.offset)
    (hs : (q.map (Span.merge (some t))).or (some t) = some s) : s.start = p := by
  cases q with
  | none =>
    cases hs
    exact ht
  | some u =>
    have hle := hq u rfl
    cases hs
    rw [Span.merge, Span.union, ht]
    exact if_neg (by omega)

theorem accept_opening {name : String} {l l' : Layer κ (Matcher κ)} {q : Progress}
    {taken : List Char} (hl : l.Strict) (hq : l.progress? = some q) (hl' : l'.progress? = some {})
    (hstart : ∀ complete, (q.pushAs complete d cur.position).start = some p)
    (hlast : (d :: taken).getLast? = some c)
    (hlive : ((Matcher.opening name (mk l) (mk l') taken).accept d cur).state.isFailed = false) :
    Begun c p ((Matcher.opening name (mk l) (mk l') taken).accept d cur).state ∧
      ((Matcher.opening name (mk l) (mk l') taken).accept d cur).state.isComplete = false := by
  cases htaken : ((mk l).accept d cur).accepted with
  | false =>
    rw [isFailed_opening htaken] at hlive
    cases hlive
  | true =>
    obtain ⟨hstrict, complete, hpush⟩ := hl.accept hq (accept_mk l d cur ▸ htaken)
    have hspan := Progress.span_pushAs (hstart complete)
    rw [← Layer.isComplete_of_progress? hpush, ← Layer.span_of_progress? hpush] at hspan
    rw [Matcher.accept_opening htaken, state_accept_mk]
    dsimp only
    generalize (l.accept Matcher.accept d cur).state = s at hstrict hpush hspan
    split
    · next hcomplete =>
      rw [show (mk s).span = _ from hspan hcomplete]
      exact ⟨.closing hl' nofun rfl hlast, rfl⟩
    · exact ⟨.opening hstrict hpush (hstart complete) nofun hl' hlast, rfl⟩

theorem accept_closing {name : String} {o : Matcher κ} {l : Layer κ (Matcher κ)} {q : Progress}
    {t : Span} {taken : List Char} [LawfulCursor κ] (hq : l.progress? = some q)
    (hsince : q.Since p.offset) (ht : t.start = p) (hlast : taken.getLast? = some c)
    (hp : p.offset ≤ cur.position.offset)
    (hlive : ((Matcher.closing name o (mk l) (some t) taken).accept d cur).state.isFailed = false) :
    Begun c p ((Matcher.closing name o (mk l) (some t) taken).accept d cur).state := by
  have hlast : (d :: taken).getLast? = some c := by simp [List.getLast?_cons, hlast]
  cases htaken : ((mk l).accept d cur).accepted with
  | false =>
    rw [isFailed_closing htaken] at hlive
    cases hlive
  | true =>
    obtain ⟨q', hq', hmoves⟩ := Layer.moves_accept cursor_accept hq d cur
    have hsince := hmoves.since p.offset hp hsince
    rw [Matcher.accept_closing htaken, state_accept_mk]
    dsimp only
    generalize (l.accept Matcher.accept d cur).state = s at hq'
    have hspan : (mk s).span = q'.span := Layer.span_of_progress? hq'
    split
    · obtain ⟨u, hu⟩ : ∃ u, (q'.span.map (Span.merge (some t))).or (some t) = some u := by
        cases q'.span with
        | none => exact ⟨t, rfl⟩
        | some v => exact ⟨_, rfl⟩
      rw [hspan, hu]
      refine .closed (start_merge ht ?_ hu) hlast
      intro v hv
      exact hsince v.start (Progress.start_of_span hv)
    · exact .closing hq' hsince ht hlast

theorem accept_choice {m : Choice (Matcher κ)} [LawfulCursor κ] (hrule : m.rule = .any)
    (hstart : ∀ complete, (m.progress.pushAs complete d cur.position).start = some p)
    (hlast : (d :: m.progress.taken).getLast? = some c)
    (hlive : ((mk (.choice m)).accept d cur).state.isFailed = false) :
    Begun c p ((mk (.choice m)).accept d cur).state := by
  rw [accept_mk] at hlive ⊢
  simp only [Layer.accept, Reply.map, Choice.accept, hrule, Choice.acceptAny,
    Choice.cursor_update cursor_accept] at hlive ⊢
  split at hlive
  · next hfailed =>
    have hfailed' : m.progress.failed = false := hlive
    rw [hfailed] at hfailed'
    cases hfailed'
  · next hopen =>
    rw [if_neg hopen]
    split at hlive
    · cases hlive
    · next hmember =>
      rw [if_neg hmember]
      exact .choice hrule (hstart _) hlast

theorem accept [LawfulCursor κ] (h : Begun c p m) (hp : p.offset ≤ cur.position.offset)
    (hlive : (m.accept d cur).state.isFailed = false) : Begun c p (m.accept d cur).state := by
  cases h with
  | opening hl hq hstart hne hl' hlast =>
    have hlast : ∀ {taken : List Char}, taken.getLast? = some c →
        (d :: taken).getLast? = some c := fun h => by simp [List.getLast?_cons, h]
    exact (accept_opening hl hq hl' (fun complete => Progress.start_pushAs hstart hne complete d)
      (hlast ‹_›) hlive).1
  | closing hq hsince hs hlast => exact accept_closing hq hsince hs hlast hp hlive
  | closed =>
    rw [isFailed_closed] at hlive
    cases hlive
  | @choice m hrule hstart hlast =>
    have hne : m.progress.taken ≠ [] := by
      rintro hnil
      rw [hnil] at hlast
      cases hlast
    exact accept_choice hrule (fun complete => Progress.start_pushAs hstart hne complete d)
      (by simp [List.getLast?_cons, hlast]) hlive

end Begun

inductive Delimited : Matcher κ → Prop
  | chain {name l l'} : l.Strict → l.progress? = some {} → l'.progress? = some {} →
      Delimited (opening name (mk l) (mk l') [])
  | choice {m} : m.rule = .any → m.progress = {} → Delimited (mk (.choice m))

theorem Delimited.isFailed_of_isComplete {m : Matcher κ} (h : m.Delimited) {c : Char} {cur : Cursor}
    (hcomplete : (m.accept c cur).state.isComplete = true) :
    (m.accept c cur).state.isFailed = false := by
  cases h with
  | _ => exact Matcher.isFailed_of_isComplete nofun hcomplete

theorem Delimited.begun [LawfulCursor κ] {m : Matcher κ} (h : m.Delimited) {c : Char} {cur : Cursor}
    (hlive : (m.accept c cur).state.isFailed = false) :
    Begun c cur.position (m.accept c cur).state := by
  cases h with
  | chain hl hq hl' => exact (Begun.accept_opening hl hq hl' (fun _ => rfl) rfl hlive).1
  | choice hrule hprogress =>
    exact Begun.accept_choice hrule (fun _ => by rw [hprogress]; rfl) (by rw [hprogress]; rfl) hlive

def Plain (m : Matcher κ) : Prop := m.Delimited ∨ ∃ l, m = mk l ∧ l.progress? = some {}

theorem Plain.span_first [LawfulCursor κ] {m : Matcher κ} (h : m.Plain) {c : Char} {cur : Cursor}
    (hcomplete : (m.accept c cur).state.isComplete = true) :
    (m.accept c cur).state.span = some ⟨cur.position, cur.position⟩ := by
  have hnoting : ∀ l : Layer κ (Matcher κ), l.progress? = some {} →
      ((mk l).accept c cur).state.isComplete = true →
      ((mk l).accept c cur).state.span = some ⟨cur.position, cur.position⟩ := by
    intro l hl hcomplete
    obtain ⟨p, hp, hmoves⟩ := Layer.moves_accept cursor_accept hl c cur
    rw [accept_mk] at hcomplete ⊢
    have hcomplete : p.isComplete = true := (Layer.isComplete_of_progress? hp).symm.trans hcomplete
    have hspan : (mk (l.accept Matcher.accept c cur).state).span = p.span := Layer.span_of_progress? hp
    simp only [Reply.map, hspan]
    cases htaken : (l.accept Matcher.accept c cur).accepted with
    | false =>
      rw [hmoves.refused htaken hcomplete] at hcomplete
      cases hcomplete
    | true =>
      obtain ⟨start, hs⟩ := hmoves.span_eq htaken Progress.live_empty hcomplete
      rw [hs, hmoves.first rfl start (Progress.start_of_span hs)]
  rcases h with h | ⟨l, rfl, hl⟩
  · have hlive := h.isFailed_of_isComplete hcomplete
    cases h with
    | @chain name l l' hl hq hl' =>
      have hwaiting := (Begun.accept_opening (p := cur.position) hl hq hl' (fun _ => rfl) rfl hlive).2
      rw [hwaiting] at hcomplete
      cases hcomplete
    | choice hrule hprogress => exact hnoting _ (congrArg some hprogress) hcomplete
  · exact hnoting l hl hcomplete

end Matcher

end Lexing
