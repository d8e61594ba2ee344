import Lexing.Proofs.Matcher.Feed

namespace Lexing.Matcher

variable {κ : Type} [CustomMatcher κ]

/-- The matcher `m` takes the characters from offset `i` up to `j` and has become `s`. All that it
has become on the way is in `P`. -/
inductive Takes (P : Matcher κ → Prop) (text : List Char) (m : Matcher κ) (i : Nat) :
    Nat → Matcher κ → Prop
  | start : Takes P text m i i m
  | take {j : Nat} {s : Matcher κ} {c : Char} : Takes P text m i j s → text[j]? = some c →
      (s.accept c (.past text (j + 1))).accepted = true →
      P (s.accept c (.past text (j + 1))).state →
      Takes P text m i (j + 1) (s.accept c (.past text (j + 1))).state

def Waiting (m : Matcher κ) : Prop := m.isComplete = false

/-- The matcher is complete with the character before `j`, and not before. -/
inductive Match (text : List Char) (m : Matcher κ) (i : Nat) : Nat → Matcher κ → Prop
  | mk {j : Nat} {s : Matcher κ} {c : Char} : Takes Waiting text m i j s → text[j]? = some c →
      (s.accept c (.past text (j + 1))).accepted = true →
      (s.accept c (.past text (j + 1))).state.isComplete = true →
      Match text m i (j + 1) (s.accept c (.past text (j + 1))).state

inductive Fed (text : List Char) (m : Matcher κ) (i : Nat) : Nat → Matcher κ → Prop
  | taken {j : Nat} {s : Matcher κ} : Takes (fun _ => True) text m i j s → Fed text m i j s
  | refused {j : Nat} {s : Matcher κ} {c : Char} : Takes (fun _ => True) text m i j s →
      text[j]? = some c → (s.accept c (.past text (j + 1))).accepted = false →
      Fed text m i (j + 1) (s.accept c (.past text (j + 1))).state

inductive Matches (text : List Char) : Nat → List (Matcher κ) → Nat → Prop
  | nil {i : Nat} : Matches text i [] i
  | cons {i j k : Nat} {a s : Matcher κ} {rest : List (Matcher κ)} : Match text a.copy i j s →
      Matches text j rest k → Matches text i (a :: rest) k

theorem Takes.le {P : Matcher κ → Prop} {text : List Char} {m s : Matcher κ} {i j : Nat}
    (h : Takes P text m i j s) : i ≤ j := by
  induction h with
  | start => exact Nat.le_refl i
  | take _ _ _ _ ih => exact Nat.le_succ_of_le ih

theorem Takes.mono {P Q : Matcher κ → Prop} (hPQ : ∀ s, P s → Q s) {text : List Char}
    {m s : Matcher κ} {i j : Nat} (h : Takes P text m i j s) : Takes Q text m i j s := by
  induction h with
  | start => exact .start
  | take _ hc htaken hs ih => exact ih.take hc htaken (hPQ _ hs)

theorem Takes.cons {P : Matcher κ → Prop} {text : List Char} {m s : Matcher κ} {i j : Nat} {c : Char}
    (hc : text[i]? = some c) (htaken : (m.accept c (.past text (i + 1))).accepted = true)
    (hm : P (m.accept c (.past text (i + 1))).state)
    (h : Takes P text (m.accept c (.past text (i + 1))).state (i + 1) j s) : Takes P text m i j s := by
  induction h with
  | start => exact .take .start hc htaken hm
  | take _ hd htaken hs ih => exact ih.take hd htaken hs

theorem Takes.head {P : Matcher κ → Prop} {text : List Char} {m s : Matcher κ} {i j : Nat}
    (h : Takes P text m i j s) : (j = i ∧ s = m) ∨ ∃ c, text[i]? = some c ∧
      (m.accept c (.past text (i + 1))).accepted = true ∧
      Takes P text (m.accept c (.past text (i + 1))).state (i + 1) j s := by
  induction h with
  | start => exact .inl ⟨rfl, rfl⟩
  | @take j s d htakes hd htaken hs ih =>
    rcases ih with ⟨rfl, rfl⟩ | ⟨c, hc, hfirst, htakes⟩
    · exact .inr ⟨d, hd, htaken, .start⟩
    · exact .inr ⟨c, hc, hfirst, htakes.take hd htaken hs⟩

theorem Takes.unique {P : Matcher κ → Prop} {text : List Char} {m s t : Matcher κ} {i j : Nat}
    (hs : Takes P text m i j s) (ht : Takes P text m i j t) : s = t := by
  induction hs generalizing t with
  | start =>
    cases ht with
    | start => rfl
    | take h => exact absurd h.le (Nat.not_succ_le_self _)
  | take h hc _ _ ih =>
    cases ht with
    | start => exact absurd h.le (Nat.not_succ_le_self _)
    | take h' hc' =>
      cases hc.symm.trans hc'
      rw [ih h']

theorem Match.lt {text : List Char} {m s : Matcher κ} {i j : Nat} (h : Match text m i j s) :
    i < j := by
  cases h with
  | mk h _ _ _ => exact Nat.lt_succ_of_le h.le

theorem Match.isComplete {text : List Char} {m s : Matcher κ} {i j : Nat} (h : Match text m i j s) :
    s.isComplete = true := by
  cases h with
  | mk _ _ _ hcomplete => exact hcomplete

theorem Matches.le {text : List Char} {i k : Nat} {as : List (Matcher κ)}
    (h : Matches text i as k) : i ≤ k := by
  induction h with
  | nil => exact Nat.le_refl _
  | cons hmatch _ ih => exact Nat.le_trans (Nat.le_of_lt hmatch.lt) ih

theorem Matches.append {text : List Char} {i j k : Nat} {as bs : List (Matcher κ)}
    (ha : Matches text i as j) (hb : Matches text j bs k) : Matches text i (as ++ bs) k := by
  induction ha with
  | nil => exact hb
  | cons h _ ih => exact .cons h (ih hb)

end Lexing.Matcher
