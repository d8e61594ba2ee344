import Lexing.Proofs.Words.FirstEnd

namespace Lexing

def retry (words : List (List Char)) (tried : List Char) (c : Char) : List Char :=
  if Begins words (tried ++ [c]) then tried ++ [c] else if Begins words [c] then [c] else []

def attempt (words : List (List Char)) (text : List Char) (i j : Nat) : List Char :=
  (slice text i j).foldl (retry words) []

def Separate (words : List (List Char)) : Prop :=
  ∀ part c, Begins words part → part ∉ words → ¬Begins words (part ++ [c]) →
    ∀ w, w <:+ part ++ [c] → Begins words w → w.length ≤ 1

variable {words : List (List Char)} {text : List Char} {i j k : Nat} {c : Char}

theorem retry_suffix (words : List (List Char)) (tried : List Char) (c : Char) :
    retry words tried c <:+ tried ++ [c] := by
  rw [retry]
  split
  · exact List.suffix_refl _
  · split
    · exact List.suffix_append ..
    · exact List.nil_suffix

theorem length_retry_of_dead {tried : List Char} (h : ¬Begins words (tried ++ [c])) :
    (retry words tried c).length ≤ 1 := by
  rw [retry, if_neg h]
  split
  · exact Nat.le_refl 1
  · exact Nat.zero_le 1

@[simp] theorem attempt_self (words : List (List Char)) (text : List Char) (i : Nat) :
    attempt words text i i = [] := by
  rw [attempt, slice_self, List.foldl_nil]

theorem attempt_succ (hij : i ≤ j) (hc : text[j]? = some c) :
    attempt words text i (j + 1) = retry words (attempt words text i j) c := by
  rw [attempt, slice_succ hij hc, List.foldl_append]
  rfl

theorem attempt_suffix (hij : i ≤ j) (hj : j ≤ text.length) :
    attempt words text i j <:+ slice text i j := by
  induction j, hij using Nat.le_induction with
  | base => simp
  | succ j hij ih =>
    have hc := List.getElem?_eq_getElem hj
    obtain ⟨front, hfront⟩ := ih (by omega)
    rw [attempt_succ hij hc, slice_succ hij hc, ← hfront, List.append_assoc]
    exact (retry_suffix ..).trans (List.suffix_append ..)

theorem length_attempt_le (hij : i ≤ j) (hjk : j ≤ k) (hk : k ≤ text.length) :
    (attempt words text i k).length ≤ (attempt words text i j).length + (k - j) := by
  induction k, hjk using Nat.le_induction with
  | base => omega
  | succ k hjk ih =>
    have hstep := (retry_suffix words (attempt words text i k) text[k]).length_le
    rw [List.length_append, List.length_singleton,
      ← attempt_succ (Nat.le_trans hij hjk) (List.getElem?_eq_getElem hk)] at hstep
    have hle := ih (by omega)
    omega

theorem attempt_of_begins (hij : i ≤ j) (hj : j ≤ text.length)
    (h : Begins words (slice text i j)) : attempt words text i j = slice text i j := by
  induction j, hij using Nat.le_induction with
  | base => simp
  | succ j hij ih =>
    have hc := List.getElem?_eq_getElem hj
    have hbegins := h.of_prefix (slice_prefix_slice (Nat.le_succ j))
    rw [slice_succ hij hc] at h ⊢
    rw [attempt_succ hij hc, ih (by omega) hbegins, retry, if_pos h]

theorem length_attempt_of_dead {part v : List Char} (hpart : Begins words part)
    (hdead : ¬Begins words (part ++ [c])) (hj : part.length < j)
    (hle : j ≤ (part ++ [c] ++ v).length) :
    (attempt words (part ++ [c] ++ v) 0 j).length ≤ j - part.length := by
  have hc : (part ++ [c] ++ v)[part.length]? = some c := by simp
  have hfront : slice (part ++ [c] ++ v) 0 part.length = part := by
    rw [slice, List.append_assoc, List.take_left, List.drop_zero]
  have hgiven : (attempt words (part ++ [c] ++ v) 0 (part.length + 1)).length ≤ 1 := by
    rw [attempt_succ (Nat.zero_le _) hc,
      attempt_of_begins (Nat.zero_le _) (by omega) (hfront.symm ▸ hpart), hfront]
    exact length_retry_of_dead hdead
  have hstep : (attempt words (part ++ [c] ++ v) 0 j).length ≤ _ :=
    length_attempt_le (Nat.zero_le (part.length + 1)) hj hle
  omega

theorem attempt_of_separate (hseparate : Separate words) (hsome : words ≠ []) (hij : i ≤ j)
    (hj : j ≤ text.length) (hnone : ∀ e, i ≤ e → e < j → attempt words text i e ∉ words) :
    ∃ k, Longest words text i j k ∧ attempt words text i j = slice text k j := by
  induction j, hij using Nat.le_induction with
  | base => exact ⟨i, .self hsome text i, by simp⟩
  | succ j hij ih =>
    obtain ⟨k, hlongest, heq⟩ := ih (by omega) fun e hie hej => hnone e hie (by omega)
    have hpart := heq ▸ hnone j hij (Nat.lt_succ_self j)
    obtain ⟨hik, hkj, hbegins⟩ := hlongest.1
    have hc := List.getElem?_eq_getElem hj
    have hlast : slice text j (j + 1) = [text[j]] := by
      rw [slice_succ (Nat.le_refl j) hc, slice_self, List.nil_append]
    rw [attempt_succ hij hc, heq, retry, ← slice_succ hkj hc]
    -- the piece goes on, or its last character alone, or nothing; what is given up begins no word
    split
    · next hgo => exact ⟨k, hlongest.succ (.of_begins (by omega) hgo), rfl⟩
    · next hdead =>
      have hfirst : ∀ n, k ≤ n → n < j → ¬Begins words (slice text n (j + 1)) := by
        intro n hkn hnj hn
        have hsuffix := slice_suffix_slice hkn text (j + 1)
        rw [slice_succ hkj hc] at hsuffix hdead
        have hle := hseparate _ _ hbegins hpart hdead _ hsuffix hn
        rw [length_slice hj] at hle
        omega
      split
      · next hgo =>
        rw [← hlast] at hgo ⊢
        exact ⟨j, hlongest.succ ((Longest.of_begins (Nat.le_succ j) hgo).widen hkj hfirst), rfl⟩
      · next hnot =>
        refine ⟨j + 1, hlongest.succ ((Longest.self hsome text (j + 1)).widen (by omega) ?_),
          (slice_self text (j + 1)).symm⟩
        intro n hkn hnj
        rcases Nat.lt_or_eq_of_le (Nat.le_of_lt_succ hnj) with hlt | rfl
        · exact hfirst n hkn hlt
        · exact hlast ▸ hnot

theorem isLeast_attempt_iff (hseparate : Separate words) (hsome : words ≠ []) :
    IsLeast {e | i ≤ e ∧ e ≤ text.length ∧ attempt words text i e ∈ words} j ↔
      IsLeast {e | i ≤ e ∧ e ≤ text.length ∧ Found words text i e} j := by
  refine isLeast_congr_of_first fun e hie he hnone => ?_
  obtain ⟨k, hlongest, heq⟩ := attempt_of_separate hseparate hsome hie he hnone
  constructor
  · intro hmem
    exact ⟨k, hlongest, heq ▸ hmem⟩
  · rintro ⟨k', hlongest', hmem⟩
    rw [heq, hlongest.unique hlongest']
    exact hmem

theorem not_hides_singleton (word part : List Char) : ¬Hides [word] part := by
  rintro ⟨⟨w, hw, hpart⟩, hmem, ⟨w', hw', hend⟩, -⟩
  obtain rfl := List.mem_singleton.1 hw
  obtain rfl := List.mem_singleton.1 hw'
  exact hmem (List.mem_singleton.2 (hpart.eq_of_length_le hend.length_le))

theorem separate_of_short (hproper : [] ∉ words) (hshort : ∀ word ∈ words, word.length ≤ 2) :
    Separate words ∧ ∀ part, ¬Hides words part := by
  have hparts : ∀ part, Begins words part → part ∉ words → part.length ≤ 1 := by
    rintro part ⟨word, hword, hpart⟩ hmem
    have hle := hshort word hword
    by_contra hlong
    exact hmem (hpart.eq_of_length_le (by omega) ▸ hword)
  constructor
  · intro part c hpart hmem hdead w hw hbegins
    have hle := hparts part hpart hmem
    by_contra hlong
    refine hdead (hw.eq_of_length_le ?_ ▸ hbegins)
    rw [List.length_append, List.length_singleton]
    omega
  · rintro part ⟨hpart, hmem, ⟨word, hword, hend⟩, -⟩
    have hle := hparts part hpart hmem
    have hne := List.length_pos_iff.2 (ne_of_mem_of_not_mem hword hproper)
    exact hmem (hend.eq_of_length_le (by omega) ▸ hword)

theorem separate_of_attempt {word : List Char}
    (h : ∀ text j, IsLeast {e | 0 ≤ e ∧ e ≤ text.length ∧ EndsWith [word] (slice text 0 e)} j →
      attempt [word] text 0 j ∈ [word]) : Separate [word] := by
  rintro part c ⟨word', hword', hpart⟩ hmem hdead w hw ⟨word'', hword'', v, hv⟩
  obtain rfl := (List.mem_singleton.1 hword').symm
  obtain rfl := (List.mem_singleton.1 hword'').symm
  by_contra hlong
  -- behind the piece given up, the text goes on with the rest of the word
  generalize htext : part ++ [c] ++ v = text
  have hends : EndsWith [word] (slice text 0 text.length) := by
    obtain ⟨front, hfront⟩ := hw
    refine ⟨word, List.mem_singleton_self word, front, ?_⟩
    rw [slice_zero_length, ← htext, ← hfront, List.append_assoc, hv]
  have hsome : {e | 0 ≤ e ∧ e ≤ text.length ∧ EndsWith [word] (slice text 0 e)}.Nonempty :=
    ⟨text.length, Nat.zero_le _, Nat.le_refl _, hends⟩
  obtain ⟨j, hleast⟩ : ∃ j, IsLeast _ j := ⟨_, isLeast_csInf hsome⟩
  have hj := hleast.1.2.1
  have hword := List.mem_singleton.1 (h text j hleast)
  rcases Nat.lt_or_ge part.length j with hlt | hge
  · have hbegins : Begins [word] part := ⟨word, List.mem_singleton_self word, hpart⟩
    have hshort := length_attempt_of_dead hbegins hdead hlt (htext ▸ hj)
    rw [htext, hword, ← hv, List.length_append] at hshort
    rw [← htext, List.length_append, List.length_append, List.length_singleton] at hj
    omega
  · have hshort := (hword ▸ attempt_suffix (Nat.zero_le j) hj).length_le
    rw [length_slice hj] at hshort
    exact hmem (List.mem_singleton.2 (hpart.eq_of_length_le (by omega)))

end Lexing
