/-!
Stable sorting by a comparison that may be no order. The sorted halves of a longer list are merged
from both ends at once, in two passes of which neither knows what the other one takes. If the
comparison is an order, they meet. If it is not, they may take the same element twice, and then there
is no result.
-/
namespace Wiring

namespace StableSort

variable {α : Type}

section Definitions

variable (compare : α → α → Ordering)

def insertFromEnd (x : α) : List α → List α
  | [] => [x]
  | y :: ys => if compare x y = .lt then y :: insertFromEnd x ys else x :: y :: ys

def byInsertion (xs : List α) : List α :=
  (xs.foldl (fun sorted x => insertFromEnd compare x sorted) []).reverse

structure Pass (α : Type) where
  -- What a pass over two lists takes from their fronts, and how much from either one.
  taken : List α := []
  left : Nat := 0
  right : Nat := 0

/-- Take `n` elements from the fronts of two lists, of the second one where its first element goes
before that of the first one. -/
def takeMerged (before : α → α → Bool) : Nat → List α → List α → Pass α
  | n + 1, x :: xs, y :: ys =>
    if before y x then
      let pass := takeMerged before n (x :: xs) ys
      { pass with taken := y :: pass.taken, right := pass.right + 1 }
    else
      let pass := takeMerged before n xs (y :: ys)
      { pass with taken := x :: pass.taken, left := pass.left + 1 }
  | _, _, _ => {}

def inner (i j : Nat) (xs : List α) : List α :=
  (xs.take (xs.length - j)).drop i

def lowPass (xs ys : List α) : Pass α :=
  takeMerged (fun y x => compare y x == .lt) xs.length xs ys

def highPass (xs ys : List α) : Pass α :=
  takeMerged (fun x y => compare y x == .lt) xs.length ys.reverse xs.reverse

def joined (xs ys : List α) (low high : Pass α) : List α :=
  low.taken ++ (inner low.left high.right xs ++ inner low.right high.left ys) ++ high.taken.reverse

/-- Merge two sorted lists from both ends, if the passes do not take more of a list than there is. -/
def mergeEnds (xs ys : List α) : Option (List α) :=
  let low := lowPass compare xs ys
  let high := highPass compare xs ys
  if low.left + high.right ≤ xs.length ∧ low.right + high.left ≤ ys.length then
    some (joined xs ys low high)
  else none

def byMerging : (depth : Nat) → List α → Option (List α)
  | 0, xs => some (byInsertion compare xs)
  | depth + 1, xs =>
    if xs.length ≤ 20 then some (byInsertion compare xs)
    else do
      let low ← byMerging depth (xs.take (xs.length / 2))
      let high ← byMerging depth (xs.drop (xs.length / 2))
      mergeEnds compare low high

end Definitions

variable {compare : α → α → Ordering} {before : α → α → Bool} {R : α → α → Prop} {n depth : Nat}
  {a x : α} {xs ys zs taken xs' ys' : List α}

/-! ### Nothing is lost -/

theorem insertFromEnd_perm (compare : α → α → Ordering) (x : α) (ys : List α) :
    (insertFromEnd compare x ys).Perm (x :: ys) := by
  induction ys with
  | nil => exact .refl _
  | cons y ys ih =>
    rw [insertFromEnd]
    split
    · exact (ih.cons y).trans (.swap x y ys)
    · exact .refl _

theorem byInsertion_perm (compare : α → α → Ordering) (xs : List α) :
    (byInsertion compare xs).Perm xs := by
  suffices h : ∀ acc, (xs.foldl (fun sorted x => insertFromEnd compare x sorted) acc).Perm
      (xs ++ acc) by
    simpa [byInsertion] using (List.reverse_perm _).trans (h [])
  induction xs with
  | nil => exact fun acc => .refl _
  | cons x xs ih =>
    exact fun acc => ((ih _).trans ((insertFromEnd_perm compare x acc).append_left xs)).trans
      List.perm_middle

theorem takeMerged_perm (before : α → α → Bool) (n : Nat) (xs ys : List α) :
    (takeMerged before n xs ys).taken.Perm
      (xs.take (takeMerged before n xs ys).left ++ ys.take (takeMerged before n xs ys).right) := by
  fun_induction takeMerged before n xs ys with
  | case1 n x xs y ys _ pass ih => exact (ih.cons y).trans List.perm_middle.symm
  | case2 n x xs y ys _ pass ih => exact ih.cons x
  | case3 => exact .refl _

theorem take_append_inner {i j : Nat} (h : i + j ≤ xs.length) :
    xs.take i ++ inner i j xs ++ xs.drop (xs.length - j) = xs := by
  have htake : xs.take i = (xs.take (xs.length - j)).take i := by
    rw [List.take_take, Nat.min_eq_left (by omega)]
  rw [inner, htake, List.take_append_drop, List.take_append_drop]

theorem lowPass_perm (compare : α → α → Ordering) (xs ys : List α) :
    (lowPass compare xs ys).taken.Perm
      (xs.take (lowPass compare xs ys).left ++ ys.take (lowPass compare xs ys).right) :=
  takeMerged_perm _ _ _ _

theorem highPass_perm (compare : α → α → Ordering) (xs ys : List α) :
    (highPass compare xs ys).taken.Perm
      (ys.reverse.take (highPass compare xs ys).left ++
        xs.reverse.take (highPass compare xs ys).right) :=
  takeMerged_perm _ _ _ _

theorem mergeEnds_perm (h : mergeEnds compare xs ys = some zs) : zs.Perm (xs ++ ys) := by
  rw [mergeEnds] at h
  split at h
  · next hmeet =>
    cases h
    classical
    refine List.perm_iff_count.2 fun a => ?_
    have hx := congrArg (List.count a) (take_append_inner hmeet.1)
    have hy := congrArg (List.count a) (take_append_inner hmeet.2)
    have hlow := (lowPass_perm compare xs ys).count_eq a
    have hhigh := (highPass_perm compare xs ys).count_eq a
    simp only [joined, List.take_reverse, List.count_append, List.count_reverse] at hx hy hlow hhigh ⊢
    omega
  · cases h

theorem byMerging_perm (h : byMerging compare depth xs = some ys) : ys.Perm xs := by
  induction depth generalizing xs ys with
  | zero =>
    cases h
    exact byInsertion_perm compare xs
  | succ depth ih =>
    rw [byMerging] at h
    split at h
    · cases h
      exact byInsertion_perm compare xs
    · obtain ⟨low, hlow, h⟩ := Option.bind_eq_some_iff.1 h
      obtain ⟨high, hhigh, h⟩ := Option.bind_eq_some_iff.1 h
      refine (mergeEnds_perm h).trans (((ih hlow).append (ih hhigh)).trans ?_)
      rw [List.take_append_drop]

/-! ### Sorting by an order

The comparison puts things in an order `R`, and of those that tie the one that is there first. -/

def Settled (compare : α → α → Ordering) (R : α → α → Prop) (a b : α) : Prop :=
  if compare b a = .lt then R b a else R a b

/-- What goes before all of both lists may be taken first. -/
theorem pairwise_cons_takeMerged {a : α} (ha : ∀ b ∈ xs ++ ys, R a b)
    (h : (takeMerged before n xs ys).taken.Pairwise R) :
    (a :: (takeMerged before n xs ys).taken).Pairwise R ∧
      ∀ b ∈ xs.drop (takeMerged before n xs ys).left ++ ys.drop (takeMerged before n xs ys).right,
        R a b := by
  refine ⟨List.pairwise_cons.2 ⟨fun b hb => ha b ?_, h⟩, fun b hb => ha b ?_⟩
  · rcases List.mem_append.1 ((takeMerged_perm before n xs ys).mem_iff.1 hb) with hb | hb
    · exact List.mem_append_left _ (List.mem_of_mem_take hb)
    · exact List.mem_append_right _ (List.mem_of_mem_take hb)
  · rcases List.mem_append.1 hb with hb | hb
    · exact List.mem_append_left _ (List.mem_of_mem_drop hb)
    · exact List.mem_append_right _ (List.mem_of_mem_drop hb)

section Order

variable (htrans : ∀ a b c, R a b → R b c → R a c)
include htrans

theorem pairwise_insertFromEnd (hx : ∀ y ∈ ys, Settled compare R y x)
    (h : ys.Pairwise fun a b => R b a) :
    (insertFromEnd compare x ys).Pairwise fun a b => R b a := by
  induction ys with
  | nil => exact List.pairwise_singleton _ _
  | cons y ys ih =>
    obtain ⟨hy, hys⟩ := List.forall_mem_cons.1 hx
    obtain ⟨hfirst, hrest⟩ := List.pairwise_cons.1 h
    rw [Settled] at hy
    rw [insertFromEnd]
    split
    · next hlt =>
      rw [if_pos hlt] at hy
      refine List.pairwise_cons.2 ⟨fun z hz => ?_, ih hys hrest⟩
      rcases List.mem_cons.1 ((insertFromEnd_perm compare x ys).mem_iff.1 hz) with rfl | hz
      · exact hy
      · exact hfirst z hz
    · next hnot =>
      rw [if_neg hnot] at hy
      refine List.pairwise_cons.2 ⟨List.forall_mem_cons.2 ⟨hy, fun z hz => ?_⟩, h⟩
      exact htrans z y x (hfirst z hz) hy

theorem pairwise_byInsertion (h : xs.Pairwise (Settled compare R)) :
    (byInsertion compare xs).Pairwise R := by
  -- the list that is built up is in reverse order
  suffices hacc : ∀ acc : List α, (∀ y ∈ acc, ∀ x ∈ xs, Settled compare R y x) →
      acc.Pairwise (fun a b => R b a) →
      (xs.foldl (fun sorted x => insertFromEnd compare x sorted) acc).Pairwise fun a b => R b a from
    List.pairwise_reverse.2 (hacc [] (List.forall_mem_nil _) .nil)
  induction xs with
  | nil => exact fun _ _ h => h
  | cons x xs ih =>
    obtain ⟨hx, hxs⟩ := List.pairwise_cons.1 h
    intro acc hacc hsorted
    refine ih hxs _ (fun y hy z hz => ?_) (pairwise_insertFromEnd htrans
      (fun y hy => hacc y hy x (List.mem_cons_self ..)) hsorted)
    rcases List.mem_cons.1 ((insertFromEnd_perm compare x acc).mem_iff.1 hy) with rfl | hy
    · exact hx z hz
    · exact hacc y hy z (List.mem_cons_of_mem _ hz)

/-- What a pass takes is in order, and goes before all that it leaves. -/
theorem pairwise_takeMerged (before : α → α → Bool) (hxs : xs.Pairwise R) (hys : ys.Pairwise R)
    (h : ∀ x ∈ xs, ∀ y ∈ ys, if before y x then R y x else R x y) :
    (takeMerged before n xs ys).taken.Pairwise R ∧
      ∀ a ∈ (takeMerged before n xs ys).taken,
        ∀ b ∈ xs.drop (takeMerged before n xs ys).left ++ ys.drop (takeMerged before n xs ys).right,
          R a b := by
  fun_induction takeMerged before n xs ys with
  | case1 n x xs y ys hlt pass ih =>
    obtain ⟨hy, hys⟩ := List.pairwise_cons.1 hys
    have hyx := h x (List.mem_cons_self ..) y (List.mem_cons_self ..)
    rw [if_pos hlt] at hyx
    obtain ⟨hpairwise, hleft⟩ := ih hxs hys fun x hx z hz => h x hx z (List.mem_cons_of_mem y hz)
    have hrest : ∀ b ∈ xs, R y b := fun b hb => htrans y x b hyx ((List.pairwise_cons.1 hxs).1 b hb)
    obtain ⟨hfirst, hlater⟩ := pairwise_cons_takeMerged
      (List.forall_mem_append.2 ⟨List.forall_mem_cons.2 ⟨hyx, hrest⟩, hy⟩) hpairwise
    exact ⟨hfirst, List.forall_mem_cons.2 ⟨hlater, hleft⟩⟩
  | case2 n x xs y ys hnot pass ih =>
    obtain ⟨hx, hxs⟩ := List.pairwise_cons.1 hxs
    have hxy := h x (List.mem_cons_self ..) y (List.mem_cons_self ..)
    rw [if_neg hnot] at hxy
    obtain ⟨hpairwise, hleft⟩ := ih hxs hys fun z hz => h z (List.mem_cons_of_mem x hz)
    have hrest : ∀ b ∈ ys, R x b := fun b hb => htrans x y b hxy ((List.pairwise_cons.1 hys).1 b hb)
    obtain ⟨hfirst, hlater⟩ := pairwise_cons_takeMerged
      (List.forall_mem_append.2 ⟨hx, List.forall_mem_cons.2 ⟨hxy, hrest⟩⟩) hpairwise
    exact ⟨hfirst, List.forall_mem_cons.2 ⟨hlater, hleft⟩⟩
  | case3 => exact ⟨.nil, List.forall_mem_nil _⟩

end Order

/-- A pass takes as much as it is asked for, if either list has as much. -/
theorem left_add_right_takeMerged (hx : n ≤ xs.length) (hy : n ≤ ys.length) :
    (takeMerged before n xs ys).left + (takeMerged before n xs ys).right = n := by
  fun_induction takeMerged before n xs ys with
  | case1 n x xs y ys _ pass ih =>
    have ih := ih (by omega) (Nat.le_of_succ_le_succ hy)
    rw [← Nat.add_assoc, ih]
  | case2 n x xs y ys _ pass ih =>
    have ih := ih (Nat.le_of_succ_le_succ hx) (by omega)
    rw [Nat.add_right_comm, ih]
  | case3 n xs ys hcases =>
    cases n with
    | zero => rfl
    | succ n =>
      rcases xs with _ | ⟨x, xs⟩
      · cases hx
      · rcases ys with _ | ⟨y, ys⟩
        · cases hy
        · exact (hcases n x xs y ys rfl rfl rfl).elim

/-- What is among the first of a list and among its last ones. -/
theorem exists_mem_take_take {i j : Nat} (hi : i ≤ xs.length) (hj : j ≤ xs.length)
    (h : xs.length < i + j) : ∃ x ∈ xs.take i, x ∈ xs.reverse.take j := by
  have hlt : i - 1 < xs.length := by omega
  refine ⟨xs[i - 1], ?_, ?_⟩
  · exact List.mem_take_iff_getElem.2 ⟨i - 1, by omega, rfl⟩
  · rw [List.take_reverse, List.mem_reverse, List.mem_drop_iff_getElem]
    refine ⟨i - 1 - (xs.length - j), by omega, ?_⟩
    congr 1
    omega

/-- What is neither among the first of a list nor among its last ones. -/
theorem exists_mem_drop_drop (xs : List α) {i j : Nat} (h : i + j < xs.length) :
    ∃ x ∈ xs.drop i, x ∈ xs.reverse.drop j := by
  refine ⟨xs[i], ?_, ?_⟩
  · exact List.mem_drop_iff_getElem.2 ⟨0, by omega, by simp⟩
  · rw [List.drop_reverse, List.mem_reverse]
    exact List.mem_take_iff_getElem.2 ⟨i, by omega, rfl⟩

/-- Passes that go by an order do not take more of a list than there is: they would take one of its
elements twice and leave one of the other list, and that would go after and before it. -/
theorem add_le_length (hasymm : ∀ a b, R a b → ¬ R b a) (xs ys : List α) {i k j l : Nat}
    (hlow : ∀ a ∈ xs.take i, ∀ b ∈ ys.drop j, R a b)
    (hhigh : ∀ a ∈ xs.reverse.take k, ∀ b ∈ ys.reverse.drop l, R b a) (hi : i ≤ xs.length)
    (hk : k ≤ xs.length) (h : i + k + (j + l) ≤ xs.length + ys.length) :
    i + k ≤ xs.length := by
  refine Nat.le_of_not_lt fun hlt => ?_
  obtain ⟨a, ha, ha'⟩ := exists_mem_take_take hi hk hlt
  obtain ⟨b, hb, hb'⟩ := exists_mem_drop_drop ys (i := j) (j := l) (by omega)
  exact hasymm a b (hlow a ha b hb) (hhigh a ha' b hb')

theorem mem_inner {i j : Nat} (h : a ∈ inner i j xs) : a ∈ xs.drop i ∧ a ∈ xs.reverse.drop j := by
  rw [inner, List.drop_take] at h
  refine ⟨List.mem_of_mem_take h, ?_⟩
  rw [List.drop_reverse, List.mem_reverse]
  rw [← List.drop_take] at h
  exact List.mem_of_mem_drop h

/-- What is taken from the end of a list is left by what is taken from its front. -/
theorem mem_drop_of_mem_take_reverse {i j : Nat} (h : i + j ≤ xs.length)
    (ha : a ∈ xs.reverse.take j) : a ∈ xs.drop i := by
  rw [List.take_reverse, List.mem_reverse] at ha
  have hdrop : xs.drop (xs.length - j) = (xs.drop i).drop (xs.length - j - i) := by
    rw [List.drop_drop]
    congr 1
    omega
  rw [hdrop] at ha
  exact List.mem_of_mem_drop ha

theorem pairwise_of_length_le_one (h : xs.length ≤ 1) : xs.Pairwise R :=
  match xs, h with
  | [], _ => .nil
  | [a], _ => List.pairwise_singleton R a

structure Passes (R : α → α → Prop) (xs ys : List α) (low high : Pass α) : Prop where
  -- Two passes over sorted lists that go by an order `R`.
  lowOrder : low.taken.Pairwise R
  highOrder : high.taken.reverse.Pairwise R
  lowTaken : ∀ a, a ∈ low.taken ↔ a ∈ xs.take low.left ∨ a ∈ ys.take low.right
  highTaken : ∀ a, a ∈ high.taken ↔ a ∈ xs.reverse.take high.right ∨ a ∈ ys.reverse.take high.left
  below : ∀ a ∈ low.taken, ∀ b, b ∈ xs.drop low.left ∨ b ∈ ys.drop low.right → R a b
  above : ∀ a ∈ high.taken, ∀ b,
    b ∈ xs.reverse.drop high.right ∨ b ∈ ys.reverse.drop high.left → R b a
  lowLength : low.left + low.right = xs.length
  highLength : high.left + high.right = xs.length

theorem passes (htrans : ∀ a b c, R a b → R b c → R a c) (hle : xs.length ≤ ys.length)
    (hxs : xs.Pairwise R) (hys : ys.Pairwise R) (h : ∀ x ∈ xs, ∀ y ∈ ys, Settled compare R x y) :
    Passes R xs ys (lowPass compare xs ys) (highPass compare xs ys) := by
  obtain ⟨hlow, hbelow⟩ := pairwise_takeMerged htrans (n := xs.length)
    (fun y x => compare y x == .lt) hxs hys fun x hx y hy => by
      simpa [Settled] using h x hx y hy
  obtain ⟨hhigh, habove⟩ := pairwise_takeMerged (R := fun a b => R b a) (n := xs.length)
    (fun a b c hab hbc => htrans c b a hbc hab) (fun x y => compare y x == .lt)
    (List.pairwise_reverse.2 hys) (List.pairwise_reverse.2 hxs) fun y hy x hx => by
      simpa [Settled] using h x (List.mem_reverse.1 hx) y (List.mem_reverse.1 hy)
  refine ⟨hlow, List.pairwise_reverse.2 hhigh, fun a => ?_, fun a => ?_, fun a ha b hb => ?_,
    fun a ha b hb => ?_, left_add_right_takeMerged (Nat.le_refl _) hle,
    left_add_right_takeMerged (by simpa using hle) (by simp)⟩
  · rw [(lowPass_perm compare xs ys).mem_iff, List.mem_append]
  · rw [(highPass_perm compare xs ys).mem_iff, List.mem_append, or_comm]
  · exact hbelow a ha b (List.mem_append.2 hb)
  · exact habove a ha b (List.mem_append.2 hb.symm)

namespace Passes

variable {low high : Pass α} (h : Passes R xs ys low high)
include h

theorem meet (hasymm : ∀ a b, R a b → ¬ R b a) (hle : xs.length ≤ ys.length) :
    low.left + high.right ≤ xs.length ∧ low.right + high.left ≤ ys.length := by
  have hl := h.lowLength
  have hh := h.highLength
  constructor
  · exact add_le_length hasymm xs ys (j := low.right) (l := high.left)
      (fun a ha b hb => h.below a ((h.lowTaken a).2 (.inl ha)) b (.inr hb))
      (fun a ha b hb => h.above a ((h.highTaken a).2 (.inl ha)) b (.inr hb))
      (by omega) (by omega) (by omega)
  · exact add_le_length hasymm ys xs (j := low.left) (l := high.right)
      (fun a ha b hb => h.below a ((h.lowTaken a).2 (.inr ha)) b (.inl hb))
      (fun a ha b hb => h.above a ((h.highTaken a).2 (.inr ha)) b (.inl hb))
      (by omega) (by omega) (by omega)

theorem pairwise_joined (hasymm : ∀ a b, R a b → ¬ R b a) (hle : xs.length ≤ ys.length)
    (hlt : ys.length ≤ xs.length + 1) : (joined xs ys low high).Pairwise R := by
  obtain ⟨hx, hy⟩ := h.meet hasymm hle
  have hl := h.lowLength
  have hh := h.highLength
  have hshort : (inner low.left high.right xs ++ inner low.right high.left ys).length ≤ 1 := by
    simp only [inner, List.length_append, List.length_drop, List.length_take]
    omega
  have hmiddle : ∀ b ∈ inner low.left high.right xs ++ inner low.right high.left ys,
      (b ∈ xs.drop low.left ∨ b ∈ ys.drop low.right) ∧
        (b ∈ xs.reverse.drop high.right ∨ b ∈ ys.reverse.drop high.left) := by
    intro b hb
    rcases List.mem_append.1 hb with hb | hb
    · exact ⟨.inl (mem_inner hb).1, .inl (mem_inner hb).2⟩
    · exact ⟨.inr (mem_inner hb).1, .inr (mem_inner hb).2⟩
  -- what one pass takes is left by the other one
  have hends : ∀ b ∈ high.taken, b ∈ xs.drop low.left ∨ b ∈ ys.drop low.right := by
    intro b hb
    exact ((h.highTaken b).1 hb).imp (mem_drop_of_mem_take_reverse hx)
      (mem_drop_of_mem_take_reverse hy)
  rw [joined, List.append_assoc, List.pairwise_append, List.pairwise_append]
  refine ⟨h.lowOrder, ⟨pairwise_of_length_le_one hshort, h.highOrder, fun a ha b hb => ?_⟩,
    fun a ha b hb => h.below a ha b ?_⟩
  · exact h.above b (List.mem_reverse.1 hb) a (hmiddle a ha).2
  · rcases List.mem_append.1 hb with hb | hb
    · exact (hmiddle b hb).1
    · exact hends b (List.mem_reverse.1 hb)

end Passes

theorem exists_byMerging (htrans : ∀ a b c, R a b → R b c → R a c)
    (hasymm : ∀ a b, R a b → ¬ R b a) (h : xs.Pairwise (Settled compare R)) :
    ∃ ys, byMerging compare depth xs = some ys ∧ ys.Pairwise R := by
  induction depth generalizing xs with
  | zero => exact ⟨_, rfl, pairwise_byInsertion htrans h⟩
  | succ depth ih =>
    rw [byMerging]
    split
    · exact ⟨_, rfl, pairwise_byInsertion htrans h⟩
    · rw [← List.take_append_drop (xs.length / 2) xs, List.pairwise_append] at h
      obtain ⟨htake, hdrop, hacross⟩ := h
      obtain ⟨low, hlow, hlowOrder⟩ := ih htake
      obtain ⟨high, hhigh, hhighOrder⟩ := ih hdrop
      have hlowLength : low.length = xs.length / 2 := by
        rw [(byMerging_perm hlow).length_eq, List.length_take]
        omega
      have hhighLength : high.length = xs.length - xs.length / 2 := by
        rw [(byMerging_perm hhigh).length_eq, List.length_drop]
      have hpasses := passes htrans (by omega) hlowOrder hhighOrder fun a ha b hb =>
        hacross a ((byMerging_perm hlow).mem_iff.1 ha) b ((byMerging_perm hhigh).mem_iff.1 hb)
      refine ⟨joined low high (lowPass compare low high) (highPass compare low high), ?_,
        hpasses.pairwise_joined hasymm (by omega) (by omega)⟩
      rw [hlow, hhigh]
      exact if_pos (hpasses.meet hasymm (by omega))

end StableSort
end Wiring
