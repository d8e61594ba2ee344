import Lexing.Token
import Mathlib.Algebra.GroupWithZero.Nat
import Mathlib.Data.List.Induction
import Mathlib.Data.List.Sort
import Mathlib.Data.List.TakeWhile
import Mathlib.Order.Bounds.Basic

/-!
The forest of a list of tokens. In preorder it is the list in order of the starts, and the parent of
a token is the last one before it that covers it (`ofTokens_nests_by_containment`). The open tokens
of the one pass are enough for that: a token that is closed is shadowed by the one that closes it
(`Spine.reaches`).
-/

namespace Lexing

namespace Span

theorem covers_iff (s t : Span) :
    s.covers t = true ↔ s.start.offset ≤ t.start.offset ∧ t.stop.offset ≤ s.stop.offset := by
  simp [covers]

end Span

namespace TokenTree

section Order

structure SortOf (ts us : List Token) : Prop where
  perm : us.Perm ts
  sorted : us.Pairwise fun t u => inOrder t u = true
  stable : ∀ t : Token, us.filter (fun u => u.offset = t.offset ∧ u.size = t.size) =
    ts.filter fun u => u.offset = t.offset ∧ u.size = t.size

theorem inOrder_iff (t u : Token) :
    inOrder t u = true ↔ t.offset < u.offset ∨ t.offset = u.offset ∧ u.size ≤ t.size := by
  simp [inOrder]

instance : Std.Total fun t u => inOrder t u = true where
  total t u := by
    simp only [inOrder_iff]
    omega

instance : IsTrans Token fun t u => inOrder t u = true where
  trans t u v := by
    simp only [inOrder_iff]
    omega

theorem insert_eq (t : Token) (ts : List Token) :
    insert t ts = ts.orderedInsert (fun t u => inOrder t u = true) t := by
  induction ts with
  | nil => rfl
  | cons u rest ih => rw [insert, List.orderedInsert_cons, ih]

theorem sort_eq (ts : List Token) : sort ts = ts.insertionSort fun t u => inOrder t u = true := by
  induction ts with
  | nil => rfl
  | cons t rest ih => rw [List.insertionSort_cons, ← ih, ← insert_eq, sort, List.foldr_cons, ← sort]

theorem sortOf_sort (ts : List Token) : SortOf ts (sort ts) := by
  rw [sort_eq]
  have hperm := List.perm_insertionSort (fun t u => inOrder t u = true) ts
  refine ⟨hperm, List.pairwise_insertionSort _ ts, ?_⟩
  intro t
  have hequal : (ts.filter fun u => u.offset = t.offset ∧ u.size = t.size).Pairwise
      fun u v => inOrder u v = true := by
    apply List.pairwise_of_forall_mem_list
    intro u hu v hv
    have hu := of_decide_eq_true (List.mem_filter.1 hu).2
    have hv := of_decide_eq_true (List.mem_filter.1 hv).2
    rw [inOrder_iff]
    omega
  have hsublist := (List.sublist_insertionSort hequal List.filter_sublist).filter
    fun u => u.offset = t.offset ∧ u.size = t.size
  rw [List.filter_filter] at hsublist
  simp only [Bool.and_self] at hsublist
  exact (hsublist.eq_of_length (hperm.filter _).length_eq.symm).symm

end Order

section Traversal

mutual

def parentsBelow (parent : Option Nat) (n : Nat) : TokenTree → List (Option Nat)
  | node _ ts => parent :: parentsFrom (some n) (n + 1) ts

def parentsFrom (parent : Option Nat) (n : Nat) : List TokenTree → List (Option Nat)
  | [] => []
  | t :: rest => parentsBelow parent n t ++ parentsFrom parent (n + size t) rest

end

def parents (ts : List TokenTree) : List (Option Nat) := parentsFrom none 0 ts

theorem preorders_append (ts us : List TokenTree) :
    preorders (ts ++ us) = preorders ts ++ preorders us := by
  induction ts with
  | nil => rfl
  | cons t rest ih => rw [List.cons_append, preorders, preorders, ih, List.append_assoc]

theorem parentsFrom_append (parent : Option Nat) (n : Nat) (ts us : List TokenTree) :
    parentsFrom parent n (ts ++ us) =
      parentsFrom parent n ts ++ parentsFrom parent (n + sizes ts) us := by
  induction ts generalizing n with
  | nil => rfl
  | cons t rest ih =>
    rw [List.cons_append, parentsFrom, parentsFrom, ih, List.append_assoc, sizes, Nat.add_assoc]

theorem sizes_eq_sum (ts : List TokenTree) : sizes ts = (ts.map size).sum := by
  induction ts with
  | nil => rfl
  | cons t rest ih => rw [sizes, List.map_cons, List.sum_cons, ih]

mutual

theorem length_preorder (t : TokenTree) : t.preorder.length = t.size := by
  cases t with
  | node t ts => rw [preorder, size, List.length_cons, length_preorders ts, Nat.add_comm]

theorem length_preorders (ts : List TokenTree) : (preorders ts).length = sizes ts := by
  cases ts with
  | nil => rfl
  | cons t rest =>
    rw [preorders, sizes, List.length_append, length_preorder t, length_preorders rest]

end

mutual

theorem length_parentsBelow (parent : Option Nat) (n : Nat) (t : TokenTree) :
    (parentsBelow parent n t).length = t.size := by
  cases t with
  | node t ts => rw [parentsBelow, size, List.length_cons, length_parentsFrom _ _ ts, Nat.add_comm]

theorem length_parentsFrom (parent : Option Nat) (n : Nat) (ts : List TokenTree) :
    (parentsFrom parent n ts).length = sizes ts := by
  cases ts with
  | nil => rfl
  | cons t rest =>
    rw [parentsFrom, sizes, List.length_append, length_parentsBelow _ _ t,
      length_parentsFrom _ _ rest]

end

end Traversal

section Pass

def nest (done : List TokenTree) : List Frame → List TokenTree
  | [] => done
  | f :: rest => nest [node f.token (f.children ++ done)] rest

def Pending.forest (p : Pending) : List TokenTree := p.roots ++ nest [] p.frames

theorem forest_close (stays : Token → Bool) (roots done : List TokenTree) (frames : List Frame) :
    (close stays roots done frames).forest = roots ++ nest done frames := by
  induction frames generalizing done with
  | nil => simp [close, Pending.forest, nest]
  | cons f rest ih =>
    rw [close]
    split
    · simp [Pending.forest, nest]
    · exact ih _

theorem close_none (roots done : List TokenTree) (frames : List Frame) :
    close (fun _ => false) roots done frames = ⟨[], roots ++ nest done frames⟩ := by
  induction frames generalizing done with
  | nil => rfl
  | cons f rest ih => exact ih _

theorem ofTokens_eq_forest (ts : List Token) :
    ofTokens ts = ((sort ts).foldl place {}).forest := by
  rw [ofTokens, close_none]
  rfl

theorem preorders_nest (roots done : List TokenTree) (frames : List Frame) :
    preorders (roots ++ nest done frames) =
      preorders (roots ++ nest [] frames) ++ preorders done := by
  induction frames generalizing done with
  | nil => simp [nest, preorders_append]
  | cons f rest ih =>
    rw [nest, nest, ih, ih [node f.token (f.children ++ [])]]
    simp [preorders, preorder, preorders_append]

def spine (roots : List TokenTree) : List Frame → List (Nat × Token)
  | [] => []
  | f :: rest => (sizes (roots ++ nest [] rest), f.token) :: spine roots rest

theorem parents_nest (roots done : List TokenTree) (frames : List Frame) :
    parents (roots ++ nest done frames) = parents (roots ++ nest [] frames) ++
      parentsFrom ((spine roots frames).head?.map Prod.fst) (sizes (roots ++ nest [] frames))
        done := by
  induction frames generalizing done with
  | nil => simp [nest, parents, parentsFrom_append, spine]
  | cons f rest ih =>
    have hsizes : sizes (roots ++ nest [] (f :: rest)) =
        sizes (roots ++ nest [] rest) + 1 + sizes f.children := by
      rw [← length_preorders, nest, preorders_nest, List.length_append, length_preorders]
      simp [preorders, preorder, length_preorders, Nat.add_assoc, Nat.add_comm 1]
    rw [hsizes, nest, nest, ih, ih [node f.token (f.children ++ [])]]
    simp [parentsFrom, parentsBelow, parentsFrom_append, spine]

theorem spine_close (stays : Token → Bool) (roots done : List TokenTree) (frames : List Frame) :
    spine (close stays roots done frames).roots (close stays roots done frames).frames =
      (spine roots frames).dropWhile fun e => !stays e.2 := by
  induction frames generalizing done with
  | nil => rfl
  | cons f rest ih =>
    rw [close, spine, List.dropWhile_cons]
    cases hstays : stays f.token with
    | true => simp [spine]
    | false => simpa [hstays] using ih [node f.token (f.children ++ done)]

end Pass

section Nesting

variable {order : List Token} {stack : List (Nat × Token)} {t : Token}

def covering (order : List Token) (i : Nat) : Set Nat :=
  {j | j < i ∧ ∃ t u, order[i]? = some t ∧ order[j]? = some u ∧ u.span.covers t.span = true}

/-- The last of the places before `i` with a token that covers the one there, if there are any. -/
def IsParent (order : List Token) (i : Nat) (parent : Option Nat) : Prop :=
  (parent = none ↔ covering order i = ∅) ∧ ∀ j, parent = some j ↔ IsGreatest (covering order i) j

theorem isParent_none {i : Nat} (h : covering order i = ∅) : IsParent order i none := by
  refine ⟨iff_of_true rfl h, fun j => iff_of_false nofun ?_⟩
  rw [h]
  exact fun hj => hj.1

theorem isParent_some {i j : Nat} (h : IsGreatest (covering order i) j) :
    IsParent order i (some j) := by
  refine ⟨iff_of_false nofun (Set.nonempty_iff_ne_empty.1 ⟨j, h.1⟩), fun k => ⟨?_, ?_⟩⟩
  · rintro ⟨⟩
    exact h
  · intro hk
    rw [h.unique hk]

theorem covering_append {i : Nat} (h : i < order.length) (later : List Token) :
    covering (order ++ later) i = covering order i := by
  ext j
  refine and_congr_right fun hj => ?_
  rw [List.getElem?_append_left h, List.getElem?_append_left (Nat.lt_trans hj h)]

theorem mem_covering_append {j : Nat} :
    j ∈ covering (order ++ [t]) order.length ↔
      ∃ u, order[j]? = some u ∧ u.span.covers t.span = true := by
  constructor
  · rintro ⟨hj, t', u, ht, hu, hcovers⟩
    rw [List.getElem?_concat_length, Option.some.injEq] at ht
    rw [List.getElem?_append_left hj] at hu
    exact ⟨u, hu, ht ▸ hcovers⟩
  · rintro ⟨u, hu, hcovers⟩
    have hj := (List.getElem?_eq_some_iff.1 hu).1
    refine ⟨hj, t, u, List.getElem?_concat_length, ?_, hcovers⟩
    rw [List.getElem?_append_left hj]
    exact hu

/-- The open tokens among those seen so far, which are in order, innermost first. Whatever covers
a later token is open or has an open token behind it that covers the later one too. -/
structure Spine (order : List Token) (stack : List (Nat × Token)) : Prop where
  placed : ∀ e ∈ stack, order[e.1]? = some e.2
  sorted : stack.Pairwise fun e f => f.1 < e.1
  reaches : ∀ t : Token, (∀ u ∈ order, u.offset ≤ t.offset) → ∀ j u, order[j]? = some u →
    u.span.covers t.span = true → ∃ e ∈ stack, j ≤ e.1 ∧ e.2.span.covers t.span = true

def keptFor (t : Token) (stack : List (Nat × Token)) : List (Nat × Token) :=
  stack.dropWhile fun e => !e.2.span.covers t.span

theorem mem_keptFor {e : Nat × Token} (h : e ∈ stack) :
    e ∈ keptFor t stack ∨ e.2.span.covers t.span = false := by
  have hsplit :=
    List.takeWhile_append_dropWhile (p := fun e => !e.2.span.covers t.span) (l := stack)
  rw [← hsplit, List.mem_append] at h
  rcases h with hleft | hkept
  · exact .inr (by simpa using List.mem_takeWhile_imp hleft)
  · exact .inl hkept

namespace Spine

theorem isParent (h : Spine order stack) (ht : ∀ u ∈ order, u.offset ≤ t.offset) :
    IsParent (order ++ [t]) order.length ((keptFor t stack).head?.map Prod.fst) := by
  have hreaches : ∀ j ∈ covering (order ++ [t]) order.length,
      ∃ e ∈ keptFor t stack, j ≤ e.1 := by
    intro j hj
    obtain ⟨u, hu, hcovers⟩ := mem_covering_append.1 hj
    obtain ⟨e, he, hle, hcovers⟩ := h.reaches t ht j u hu hcovers
    rcases mem_keptFor (t := t) he with hkept | hleft
    · exact ⟨e, hkept, hle⟩
    · exact absurd (hleft.symm.trans hcovers) Bool.false_ne_true
  have hkept : (keptFor t stack).Sublist stack := List.dropWhile_sublist _
  have hfirst := List.head?_dropWhile_not (fun e => !e.2.span.covers t.span) stack
  rw [← keptFor] at hfirst
  cases hstack : keptFor t stack with
  | nil =>
    refine isParent_none (Set.eq_empty_of_forall_notMem fun j hj => ?_)
    obtain ⟨e, he, -⟩ := hreaches j hj
    simp [hstack] at he
  | cons e rest =>
    have hsorted := h.sorted.sublist hkept
    rw [hstack] at hreaches hkept hfirst hsorted
    refine isParent_some ⟨?_, fun j hj => ?_⟩
    · refine mem_covering_append.2 ⟨e.2, h.placed e (hkept.subset List.mem_cons_self), ?_⟩
      simpa using hfirst
    · obtain ⟨f, hf, hle⟩ := hreaches j hj
      rcases List.mem_cons.1 hf with rfl | hf
      · exact hle
      · exact Nat.le_of_lt (Nat.lt_of_le_of_lt hle (List.rel_of_pairwise_cons hsorted hf))

theorem push (h : Spine order stack) (ht : ∀ u ∈ order, u.offset ≤ t.offset) :
    Spine (order ++ [t]) ((order.length, t) :: keptFor t stack) := by
  -- a token closes the open ones that do not cover it. What they cover from here on, it covers.
  have hkept : (keptFor t stack).Sublist stack := List.dropWhile_sublist _
  have hlt : ∀ e ∈ stack, e.1 < order.length := fun e he =>
    (List.getElem?_eq_some_iff.1 (h.placed e he)).1
  refine ⟨?_, ?_, ?_⟩
  · intro e he
    rcases List.mem_cons.1 he with rfl | he
    · exact List.getElem?_concat_length
    · have he := hkept.subset he
      rw [List.getElem?_append_left (hlt e he)]
      exact h.placed e he
  · exact List.pairwise_cons.2 ⟨fun e he => hlt e (hkept.subset he), h.sorted.sublist hkept⟩
  · intro v hv j u hu hcovers
    have hself : t.offset ≤ v.offset := hv t (by simp)
    rcases Nat.lt_or_ge j order.length with hj | hj
    · rw [List.getElem?_append_left hj] at hu
      obtain ⟨e, he, hle, hcovers⟩ :=
        h.reaches v (fun w hw => hv w (by simp [hw])) j u hu hcovers
      rcases mem_keptFor (t := t) he with hstays | hleft
      · exact ⟨e, List.mem_cons_of_mem _ hstays, hle, hcovers⟩
      · have hbefore : e.2.span.start.offset ≤ t.span.start.offset :=
          ht e.2 (List.mem_of_getElem? (h.placed e he))
        rw [← Bool.not_eq_true, Span.covers_iff] at hleft
        rw [Span.covers_iff] at hcovers
        have hcovers : t.span.covers v.span = true :=
          (Span.covers_iff t.span v.span).2 ⟨hself, by omega⟩
        exact ⟨_, List.mem_cons_self, Nat.le_of_lt hj, hcovers⟩
    · have hlast : j = order.length := by
        have hlength := (List.getElem?_eq_some_iff.1 hu).1
        rw [List.length_append, List.length_singleton] at hlength
        omega
      subst hlast
      rw [List.getElem?_concat_length, Option.some.injEq] at hu
      exact ⟨_, List.mem_cons_self, Nat.le_refl _, hu ▸ hcovers⟩

end Spine

structure Nested (order : List Token) (p : Pending) : Prop where
  preorder_eq : preorders p.forest = order
  spine : Spine order (TokenTree.spine p.roots p.frames)
  parents : ∀ i < order.length, ∃ parent, (parents p.forest)[i]? = some parent ∧
    IsParent order i parent

theorem Nested.place {p : Pending} (h : Nested order p) (ht : ∀ u ∈ order, u.offset ≤ t.offset) :
    Nested (order ++ [t]) (place p t) := by
  have hforest := forest_close (fun u => u.span.covers t.span) p.roots [] p.frames
  have hspine := spine_close (fun u => u.span.covers t.span) p.roots [] p.frames
  rw [← keptFor] at hspine
  rw [← Pending.forest] at hforest
  rw [TokenTree.place]
  generalize close (fun u => u.span.covers t.span) p.roots [] p.frames = q at hforest hspine
  have hsizes : sizes q.forest = order.length := by
    rw [hforest, ← length_preorders, h.preorder_eq]
  have hpreorder : preorders (q.roots ++ nest [node t []] q.frames) = order ++ [t] := by
    rw [preorders_nest, ← Pending.forest, hforest, h.preorder_eq]
    simp [preorders, preorder]
  have hparents : TokenTree.parents (q.roots ++ nest [node t []] q.frames) =
      TokenTree.parents p.forest ++
        [(keptFor t (TokenTree.spine p.roots p.frames)).head?.map Prod.fst] := by
    rw [parents_nest, ← Pending.forest, hforest, hspine]
    simp [parentsFrom, parentsBelow]
  refine ⟨hpreorder, ?_, ?_⟩
  · change Spine _ ((sizes q.forest, t) :: TokenTree.spine q.roots q.frames)
    rw [hspine, hsizes]
    exact h.spine.push ht
  · intro i hi
    have hlength : (TokenTree.parents p.forest).length = order.length := by
      rw [TokenTree.parents, length_parentsFrom, ← hforest, hsizes]
    change ∃ parent,
      (TokenTree.parents (q.roots ++ nest [node t []] q.frames))[i]? = some parent ∧ _
    rw [hparents]
    rcases Nat.lt_or_ge i order.length with hlt | hge
    · rw [List.getElem?_append_left (hlength ▸ hlt)]
      obtain ⟨parent, hparent, his⟩ := h.parents i hlt
      refine ⟨parent, hparent, ?_⟩
      rw [IsParent, covering_append hlt]
      exact his
    · have hlast : i = order.length := by
        rw [List.length_append, List.length_singleton] at hi
        omega
      rw [hlast, ← hlength, List.getElem?_concat_length, hlength]
      exact ⟨_, rfl, h.spine.isParent ht⟩

theorem nested_foldl {order : List Token} (h : order.Pairwise fun t u => inOrder t u = true) :
    Nested order (order.foldl place {}) := by
  induction order using List.reverseRecOn with
  | nil => exact ⟨rfl, ⟨nofun, .nil, nofun⟩, nofun⟩
  | append_singleton order t ih =>
    rw [List.pairwise_append] at h
    rw [List.foldl_append]
    refine (ih h.1).place fun u hu => ?_
    have hbefore := (inOrder_iff u t).1 (h.2.2 u hu t (by simp))
    omega

-- of two tokens that cross, the later one is the parent of what lies in both
example :
    let token : Nat → Nat → Token := fun i j => ⟨"", "", ⟨⟨i, 1, i + 1⟩, ⟨j, 1, j + 1⟩⟩⟩
    parents (ofTokens [token 4 5, token 3 8, token 0 5]) = [none, none, some 1] := by
  decide

end Nesting

end TokenTree

end Lexing
