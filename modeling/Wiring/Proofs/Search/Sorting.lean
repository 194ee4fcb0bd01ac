import Mathlib.Data.List.Chain
import Mathlib.Data.List.Induction
import Wiring.Sorting

/-!
All that is known of a stable sort by merging or insertion is what it has compared. So of a
comparison that is not an order little can be said of the list as a whole, but still that an element
which is better than all others comes first (`Sorts.exists_eq_cons`).
-/
namespace Wiring

namespace StableSort

variable {α β : Type} {compare : α → α → Ordering} {R : α → α → Prop} {xs ys out : List α}
  {zs : List (α ⊕ α)} {x : α}

def Decided (compare : α → α → Ordering) : (a b : α ⊕ α) → Prop
  -- What a comparison has to say for `a` to come right before `b` in a merge of a left and a right
  -- side.
  | .inl x, .inr y => compare y x ≠ .lt
  | .inr y, .inl x => compare y x = .lt
  | _, _ => True

def leftOf (zs : List (α ⊕ α)) : List α :=
  zs.filterMap Sum.getLeft?

def rightOf (zs : List (α ⊕ α)) : List α :=
  zs.filterMap Sum.getRight?

def merged (zs : List (α ⊕ α)) : List α :=
  zs.map (Sum.elim id id)

/-- `out` comes of a stable merge of `xs` on the left with `ys` on the right. -/
def Merges (compare : α → α → Ordering) (xs ys out : List α) : Prop :=
  ∃ zs, leftOf zs = xs ∧ rightOf zs = ys ∧ merged zs = out ∧ zs.IsChain (Decided compare)

/-- The results of stable merge sorts, wherever they split a list. One that inserts an element merges
it with those before it. -/
inductive Sorts (compare : α → α → Ordering) : List α → List α → Prop
  | nil : Sorts compare [] []
  | single (x : α) : Sorts compare [x] [x]
  | merge {xs ys xs' ys' out : List α} (left : Sorts compare xs xs') (right : Sorts compare ys ys')
      (merges : Merges compare xs' ys' out) : Sorts compare (xs ++ ys) out

theorem merged_perm : (merged zs).Perm (leftOf zs ++ rightOf zs) := by
  induction zs with
  | nil => exact .refl _
  | cons z zs ih =>
    cases z with
    | inl x => exact ih.cons x
    | inr y => exact (ih.cons y).trans List.perm_middle.symm

theorem Sorts.perm (h : Sorts compare xs ys) : ys.Perm xs := by
  induction h with
  | nil => exact .refl _
  | single x => exact .refl _
  | merge _ _ merges left right =>
    obtain ⟨zs, rfl, rfl, rfl, _⟩ := merges
    exact merged_perm.trans (left.append right)

/-- What is sorted may stand for other things that compare as it does. -/
theorem Sorts.map {compare' : β → β → Ordering} (f : α → β)
    (hf : ∀ a b, compare a b = compare' (f a) (f b)) (h : Sorts compare xs ys) :
    Sorts compare' (xs.map f) (ys.map f) := by
  induction h with
  | nil => exact .nil
  | single x => exact .single (f x)
  | merge _ _ merges left right =>
    obtain ⟨zs, rfl, rfl, rfl, hz⟩ := merges
    rw [List.map_append]
    refine .merge left right ⟨zs.map (Sum.map f f), ?_, ?_, ?_, ?_⟩
    · rw [leftOf, leftOf, List.filterMap_map, List.map_filterMap]
      exact List.filterMap_congr fun z _ => by cases z <;> rfl
    · rw [rightOf, rightOf, List.filterMap_map, List.map_filterMap]
      exact List.filterMap_congr fun z _ => by cases z <;> rfl
    · rw [merged, merged, List.map_map, List.map_map]
      exact List.map_congr_left fun z _ => by cases z <;> rfl
    · refine (List.isChain_map _).2 (hz.imp fun z w hzw => ?_)
      match z, w, hzw with
      | .inl _, .inl _, _ => trivial
      | .inl x, .inr y, hzw => exact fun hlt => hzw ((hf y x).trans hlt)
      | .inr y, .inl x, hzw => exact (hf y x).symm.trans hzw
      | .inr _, .inr _, _ => trivial

theorem isChain_merged (hz : zs.IsChain (Decided compare)) (hl : (leftOf zs).IsChain R)
    (hr : (rightOf zs).IsChain R)
    (hlr : ∀ a ∈ leftOf zs, ∀ b ∈ rightOf zs, Settled compare R a b) : (merged zs).IsChain R := by
  induction zs with
  | nil => exact .nil
  | cons z zs ih =>
    cases zs with
    | nil => exact .singleton _
    | cons w zs =>
      obtain ⟨hzw, hrest⟩ := List.isChain_cons_cons.1 hz
      -- neighbours of one side are neighbours in it, those of different sides have been compared
      cases z with
      | inl x =>
        refine List.isChain_cons_cons.2 ⟨?_, ih hrest hl.tail hr fun a ha =>
          hlr a (List.mem_cons_of_mem x ha)⟩
        cases w with
        | inl x' => exact (List.isChain_cons_cons.1 hl).1
        | inr y =>
          have hxy := hlr x (List.mem_cons_self ..) y (List.mem_cons_self ..)
          have hnot : compare y x ≠ .lt := hzw
          rwa [Settled, if_neg hnot] at hxy
      | inr y =>
        refine List.isChain_cons_cons.2 ⟨?_, ih hrest hl hr.tail fun a ha b hb =>
          hlr a ha b (List.mem_cons_of_mem y hb)⟩
        cases w with
        | inl x =>
          have hxy := hlr x (List.mem_cons_self ..) y (List.mem_cons_self ..)
          have hlt : compare y x = .lt := hzw
          rwa [Settled, if_pos hlt] at hxy
        | inr y' => exact (List.isChain_cons_cons.1 hr).1

/-- If each two elements have their place, those that come one after the other are in order. -/
theorem Sorts.isChain (h : Sorts compare xs ys) (hxs : xs.Pairwise (Settled compare R)) :
    ys.IsChain R := by
  induction h with
  | nil => exact .nil
  | single x => exact .singleton x
  | merge hleft hright merges left right =>
    obtain ⟨hl, hr, hlr⟩ := List.pairwise_append.1 hxs
    obtain ⟨zs, rfl, rfl, rfl, hz⟩ := merges
    refine isChain_merged hz (left hl) (right hr) fun a ha b hb => ?_
    exact hlr a (hleft.perm.mem_iff.1 ha) b (hright.perm.mem_iff.1 hb)

def Ahead (compare : α → α → Ordering) (a b : α) : Prop :=
  compare a b = .lt ∨ compare b a ≠ .lt

theorem settled_ahead (a b : α) : Settled compare (Ahead compare) a b := by
  rw [Settled]
  split
  · next hlt => exact .inl hlt
  · next hnot => exact .inr hnot

/-- Where nothing else may be right ahead of an element, it is the first one. -/
theorem exists_eq_cons {R : α → α → Prop} (h : ys.IsChain R) (hx : x ∈ ys)
    (hfirst : ∀ y ∈ ys, R y x → y = x) : ∃ rest, ys = x :: rest := by
  induction ys with
  | nil => cases hx
  | cons y ys ih =>
    rcases List.mem_cons.1 hx with rfl | hx
    · exact ⟨ys, rfl⟩
    · obtain ⟨rest, rfl⟩ := ih h.tail hx fun z hz => hfirst z (List.mem_cons_of_mem y hz)
      obtain rfl := hfirst y (List.mem_cons_self ..) (List.isChain_cons_cons.1 h).1
      exact ⟨y :: rest, rfl⟩

/-- An element that is better than all others comes first, however these compare. -/
theorem Sorts.exists_eq_cons (h : Sorts compare xs ys) (hx : x ∈ xs)
    (hbest : ∀ y ∈ xs, y ≠ x → compare x y = .lt ∧ compare y x = .gt) :
    ∃ rest, ys = x :: rest := by
  have hchain : ys.IsChain (Ahead compare) := h.isChain (List.pairwise_of_forall settled_ahead)
  refine StableSort.exists_eq_cons hchain (h.perm.mem_iff.2 hx) fun y hy hahead => ?_
  by_contra hne
  obtain ⟨hxy, hyx⟩ := hbest y (h.perm.mem_iff.1 hy) hne
  rcases hahead with hlt | hnot
  · cases hyx.symm.trans hlt
  · exact hnot hxy

/-! ### Insertion from the end -/

/-- The elements in front of which `x` is put, and those that it stays behind. -/
theorem exists_insertFromEnd (compare : α → α → Ordering) (x : α) (ys : List α) :
    ∃ after before, ys = after ++ before ∧ insertFromEnd compare x ys = after ++ x :: before ∧
      (∀ y ∈ after, compare x y = .lt) ∧ ∀ y ∈ before.head?, compare x y ≠ .lt := by
  induction ys with
  | nil => exact ⟨[], [], rfl, rfl, List.forall_mem_nil _, fun _ h => by cases h⟩
  | cons y ys ih =>
    rw [insertFromEnd]
    split
    · next hlt =>
      obtain ⟨after, before, rfl, hinsert, hafter, hbefore⟩ := ih
      exact ⟨y :: after, before, rfl, congrArg (y :: ·) hinsert,
        List.forall_mem_cons.2 ⟨hlt, hafter⟩, hbefore⟩
    · next hnot =>
      refine ⟨[], y :: ys, rfl, rfl, List.forall_mem_nil _, ?_⟩
      rintro _ ⟨⟩
      exact hnot

/-- A single element on the right has been compared with those that it is put between. -/
theorem merges_singleton {before after : List α} (hbefore : ∀ y ∈ before.getLast?, compare x y ≠ .lt)
    (hafter : ∀ y ∈ after.head?, compare x y = .lt) :
    Merges compare (before ++ after) [x] (before ++ x :: after) := by
  have hleft : ∀ xs : List α, (xs.map Sum.inl : List (α ⊕ α)).IsChain (Decided compare) := fun xs =>
    (List.isChain_map _).2 (List.pairwise_of_forall fun _ _ => trivial).isChain
  refine ⟨before.map .inl ++ .inr x :: after.map .inl, ?_, ?_, ?_, ?_⟩
  · simp [leftOf, List.filterMap_cons, List.filterMap_map, Function.comp_def]
  · simp [rightOf, List.filterMap_map, Function.comp_def]
  · simp [merged, Function.comp_def]
  · refine List.isChain_append.2 ⟨hleft before, List.isChain_cons.2 ⟨?_, hleft after⟩, ?_⟩
    · intro z hz
      rw [List.head?_map] at hz
      obtain ⟨y, hy, rfl⟩ := Option.map_eq_some_iff.1 hz
      exact hafter y hy
    · rintro z hz _ ⟨⟩
      rw [List.getLast?_map] at hz
      obtain ⟨y, hy, rfl⟩ := Option.map_eq_some_iff.1 hz
      exact hbefore y hy

theorem byInsertion_append_singleton (xs : List α) (x : α) :
    byInsertion compare (xs ++ [x]) =
      (insertFromEnd compare x (byInsertion compare xs).reverse).reverse := by
  rw [byInsertion, List.foldl_append, byInsertion, List.reverse_reverse]
  rfl

/-- The sort by insertion from the end is a stable one: each element is merged with those before
it. -/
theorem sorts_byInsertion (compare : α → α → Ordering) (xs : List α) :
    Sorts compare xs (byInsertion compare xs) := by
  induction xs using List.reverseRecOn with
  | nil => exact .nil
  | append_singleton xs x ih =>
    obtain ⟨after, before, hsplit, hinsert, hafter, hbefore⟩ :=
      exists_insertFromEnd compare x (byInsertion compare xs).reverse
    have hsorted : byInsertion compare xs = before.reverse ++ after.reverse := by
      rw [← List.reverse_append, ← hsplit, List.reverse_reverse]
    have hresult : byInsertion compare (xs ++ [x]) = before.reverse ++ x :: after.reverse := by
      rw [byInsertion_append_singleton, hinsert]
      simp
    rw [hresult]
    rw [hsorted] at ih
    refine .merge ih (.single x) (merges_singleton ?_ fun y hy => ?_)
    · rw [List.getLast?_reverse]
      exact hbefore
    · exact hafter y (List.mem_reverse.1 (List.mem_of_mem_head? hy))

/-! ### Merging from the front -/

theorem Merges.left (h : Merges compare xs ys out) (hx : ∀ y ∈ ys.head?, compare y x ≠ .lt) :
    Merges compare (x :: xs) ys (x :: out) := by
  obtain ⟨zs, rfl, rfl, rfl, hz⟩ := h
  refine ⟨.inl x :: zs, rfl, rfl, rfl, List.isChain_cons.2 ⟨fun z hmem => ?_, hz⟩⟩
  cases zs with
  | nil => cases hmem
  | cons z zs =>
    cases hmem
    cases z with
    | inl x' => trivial
    | inr y => exact hx y rfl

theorem Merges.right (h : Merges compare xs ys out) (hx : ∀ y ∈ xs.head?, compare x y = .lt) :
    Merges compare xs (x :: ys) (x :: out) := by
  obtain ⟨zs, rfl, rfl, rfl, hz⟩ := h
  refine ⟨.inr x :: zs, rfl, rfl, rfl, List.isChain_cons.2 ⟨fun z hmem => ?_, hz⟩⟩
  cases zs with
  | nil => cases hmem
  | cons z zs =>
    cases hmem
    cases z with
    | inl y => exact hx y rfl
    | inr y' => trivial

def staysAhead (compare : α → α → Ordering) (x y : α) : Bool :=
  compare y x != .lt

theorem merges_merge (compare : α → α → Ordering) (xs ys : List α) :
    Merges compare xs ys (xs.merge ys (staysAhead compare)) := by
  induction xs generalizing ys with
  | nil =>
    rw [List.nil_merge]
    induction ys with
    | nil => exact ⟨[], rfl, rfl, rfl, .nil⟩
    | cons y ys ih => exact ih.right fun _ h => by cases h
  | cons x xs ih =>
    induction ys with
    | nil =>
      have hrest := ih []
      rw [List.merge_right] at hrest ⊢
      exact hrest.left fun _ h => by cases h
    | cons y ys ihy =>
      rw [List.merge]
      split
      · next hstays =>
        refine (ih (y :: ys)).left ?_
        rintro _ ⟨⟩
        exact bne_iff_ne.1 hstays
      · next hnot =>
        refine ihy.right ?_
        rintro _ ⟨⟩
        simpa [staysAhead] using hnot

/-- The merge sort of the library is a stable one as well. -/
theorem sorts_mergeSort (compare : α → α → Ordering) :
    ∀ xs : List α, Sorts compare xs (xs.mergeSort (staysAhead compare))
  | [] => by
    rw [List.mergeSort]
    exact .nil
  | [x] => by
    rw [List.mergeSort]
    exact .single x
  | x :: y :: xs => by
    let halves := List.MergeSort.Internal.splitInTwo ⟨x :: y :: xs, rfl⟩
    have hsplit : halves.1.1 ++ halves.2.1 = x :: y :: xs :=
      List.MergeSort.Internal.splitInTwo_fst_append_splitInTwo_snd _
    have hmerge := merges_merge compare (halves.1.1.mergeSort (staysAhead compare))
      (halves.2.1.mergeSort (staysAhead compare))
    have hsorts := Sorts.merge (sorts_mergeSort compare halves.1.1)
      (sorts_mergeSort compare halves.2.1) hmerge
    rw [hsplit] at hsorts
    rw [List.mergeSort]
    exact hsorts
termination_by xs => xs.length

end StableSort

/-! ### Sortings -/

namespace Sorting

open StableSort

variable {α : Type} {s : Sorting} {compare : α → α → Ordering} {xs ys : List α}

/-- The sort is a stable one by merging or insertion, and comes to a result by every comparison. -/
def Merging (s : Sorting) : Prop :=
  ∀ n compare, ∃ ps, s.places n compare = some ps ∧ Sorts compare (List.finRange n) ps

def ofSorts (places : (n : Nat) → (Fin n → Fin n → Ordering) → List (Fin n))
    (h : ∀ n compare, Sorts compare (List.finRange n) (places n compare)) : Sorting where
  places n compare := some (places n compare)
  perm hps := by
    cases hps
    exact (h _ _).perm
  stable {n compare} hconsistent := by
    have hchain := (h n compare).isChain (pairwise_settled hconsistent)
    have : Trans (Precedes compare) (Precedes compare) (Precedes compare) :=
      ⟨Precedes.trans hconsistent⟩
    exact ⟨_, rfl, List.isChain_iff_pairwise.1 hchain⟩

theorem merging_ofSorts {places : (n : Nat) → (Fin n → Fin n → Ordering) → List (Fin n)}
    (h : ∀ n compare, Sorts compare (List.finRange n) (places n compare)) :
    (ofSorts places h).Merging :=
  fun n compare => ⟨_, rfl, h n compare⟩

def byInsertion : Sorting :=
  ofSorts (fun n compare => StableSort.byInsertion compare (List.finRange n)) fun _ _ =>
    sorts_byInsertion _ _

theorem merging_byInsertion : byInsertion.Merging :=
  merging_ofSorts _

def byMergeSort : Sorting :=
  ofSorts (fun n compare => (List.finRange n).mergeSort (staysAhead compare)) fun _ _ =>
    sorts_mergeSort _ _

theorem merging_byMergeSort : byMergeSort.Merging :=
  merging_ofSorts _

theorem Merging.exists_sort (h : s.Merging) (compare : α → α → Ordering) (xs : List α) :
    ∃ ys, s.sort compare xs = some ys ∧ Sorts compare xs ys := by
  obtain ⟨ps, hps, hsorts⟩ := h xs.length fun i j => compare xs[i] xs[j]
  refine ⟨ps.map fun i => xs[i], congrArg (Option.map _) hps, ?_⟩
  have hmap := hsorts.map (fun i => xs[i]) fun _ _ => rfl
  rwa [map_finRange] at hmap

end Sorting

end Wiring
