/-!
Bags of indices that shrink while they are walked through. The walk goes from the last place to the
first one; where an index is dropped, the last one of the bag takes its place.
-/

namespace Lexing.Bag

variable {ι σ : Type}

def swapRemove (bag : List ι) (i : Nat) : List ι :=
  match bag.getLast? with
  | none => bag
  | some a => (bag.set i a).dropLast

def walk (visit : ι → σ → Bool × σ) : Nat → List ι → σ → List ι × σ
  | 0, bag, s => (bag, s)
  | n + 1, bag, s =>
    match bag[n]? with
    | none => walk visit n bag s
    | some a =>
      let (keep, s) := visit a s
      walk visit n (if keep then bag else swapRemove bag n) s

def sweep (visit : ι → σ → Bool × σ) : List ι → σ → List ι × σ
  | [], s => ([], s)
  | a :: rest, s =>
    let (kept, s) := sweep visit rest s
    let (keep, s) := visit a s
    (if keep then a :: kept else kept, s)

theorem exists_swapRemove_eq (front : List ι) (a : ι) (rest : List ι) :
    ∃ back, swapRemove (front ++ a :: rest) front.length = front ++ back ∧ back.Perm rest := by
  rcases List.eq_nil_or_concat rest with rfl | ⟨init, last, rfl⟩
  · exact ⟨[], by simp [swapRemove], .refl []⟩
  · refine ⟨last :: init, ?_, ?_⟩
    · have hsplit : front ++ a :: init.concat last = front ++ a :: init ++ [last] := by simp
      have hset : (front ++ a :: init.concat last).set front.length last =
          front ++ last :: init ++ [last] := by simp [List.set_append_right]
      have hlast : (front ++ a :: init.concat last).getLast? = some last := by
        rw [hsplit, List.getLast?_concat]
      rw [swapRemove, hlast]
      dsimp only
      rw [hset, List.dropLast_concat]
    · rw [List.concat_eq_append]
      exact (List.perm_append_singleton last init).symm

theorem sweep_concat (visit : ι → σ → Bool × σ) (front : List ι) (a : ι) (s : σ) :
    sweep visit (front ++ [a]) s =
      ((sweep visit front (visit a s).2).1 ++ (if (visit a s).1 then [a] else []),
        (sweep visit front (visit a s).2).2) := by
  induction front with
  | nil => cases h : (visit a s).1 <;> simp [sweep, h]
  | cons b front ih =>
    rw [List.cons_append, sweep, ih]
    dsimp only
    rw [sweep]
    dsimp only
    split <;> rfl

theorem walk_append (visit : ι → σ → Bool × σ) (front rest : List ι) (s : σ) :
    ∃ kept, walk visit front.length (front ++ rest) s = (kept, (sweep visit front s).2) ∧
      kept.Perm ((sweep visit front s).1 ++ rest) := by
  generalize hn : front.length = n
  induction n generalizing front rest s with
  | zero =>
    obtain rfl := List.length_eq_zero_iff.1 hn
    exact ⟨rest, rfl, .refl rest⟩
  | succ n ih =>
    have hne : front ≠ [] := List.ne_nil_of_length_eq_add_one hn
    obtain ⟨init, a, rfl⟩ : ∃ init a, front = init ++ [a] :=
      ⟨_, _, (List.dropLast_concat_getLast hne).symm⟩
    have hinit : init.length = n := by simpa using hn
    have hget : (init ++ [a] ++ rest)[n]? = some a := by simp [← hinit]
    rw [walk, hget, sweep_concat]
    dsimp only
    cases hkeep : (visit a s).1 with
    | true =>
      obtain ⟨kept, hwalk, hperm⟩ := ih init (a :: rest) (visit a s).2 hinit
      exact ⟨kept, by simpa using hwalk, by simpa using hperm⟩
    | false =>
      obtain ⟨back, hremove, hback⟩ := exists_swapRemove_eq init a rest
      obtain ⟨kept, hwalk, hperm⟩ := ih init back (visit a s).2 hinit
      rw [hinit] at hremove
      refine ⟨kept, by simpa [hremove] using hwalk, hperm.trans ?_⟩
      simpa using hback.append_left _

theorem walk_eq (visit : ι → σ → Bool × σ) (bag : List ι) (s : σ) :
    (walk visit bag.length bag s).2 = (sweep visit bag s).2 ∧
      (walk visit bag.length bag s).1.Perm (sweep visit bag s).1 := by
  obtain ⟨kept, hwalk, hperm⟩ := walk_append visit bag [] s
  simp only [List.append_nil] at hwalk hperm
  rw [hwalk]
  exact ⟨rfl, hperm⟩

theorem sweep_sublist (visit : ι → σ → Bool × σ) (bag : List ι) (s : σ) :
    (sweep visit bag s).1.Sublist bag := by
  induction bag with
  | nil => exact .slnil
  | cons a rest ih =>
    rw [sweep]
    dsimp only
    split
    · exact ih.cons_cons a
    · exact ih.cons a

theorem walk_induction {visit : ι → σ → Bool × σ} {P : σ → Prop} (hP : ∀ a s, P s → P (visit a s).2)
    (n : Nat) (bag : List ι) {s : σ} (h : P s) : P (walk visit n bag s).2 := by
  induction n generalizing bag s with
  | zero => exact h
  | succ n ih =>
    rw [walk]
    split
    · exact ih bag h
    · exact ih _ (hP _ s h)

theorem walk_congr {f g : ι → σ → Bool × σ} {P : σ → Prop} (hP : ∀ a s, P s → P (f a s).2)
    (hfg : ∀ a s, P s → f a s = g a s) (n : Nat) (bag : List ι) {s : σ} (h : P s) :
    walk f n bag s = walk g n bag s := by
  induction n generalizing bag s with
  | zero => rfl
  | succ n ih =>
    rw [walk, walk]
    split
    · exact ih bag h
    · next a _ =>
      rw [← hfg a s h]
      exact ih _ (hP a s h)

end Lexing.Bag
