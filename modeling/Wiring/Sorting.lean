import Wiring.StableSort

namespace Wiring

structure Consistent {α : Type} (compare : α → α → Ordering) (P : α → Prop) : Prop where
  -- A comparison that is an order up to ties, on all things with a property.
  refl : ∀ a, P a → compare a a = .eq
  swap : ∀ a b, P a → P b → (compare a b).swap = compare b a
  trans : ∀ a b c, P a → P b → P c → compare a b = .lt → compare b c ≠ .gt → compare a c = .lt

namespace Consistent

variable {α : Type} {compare compare' : α → α → Ordering} {P : α → Prop} {a b c : α}

theorem imp {Q : α → Prop} (h : Consistent compare P) (hQ : ∀ a, Q a → P a) :
    Consistent compare Q where
  refl a ha := h.refl a (hQ a ha)
  swap a b ha hb := h.swap a b (hQ a ha) (hQ b hb)
  trans a b c ha hb hd := h.trans a b c (hQ a ha) (hQ b hb) (hQ c hd)

theorem congr (h : Consistent compare P) (he : ∀ a b, P a → P b → compare' a b = compare a b) :
    Consistent compare' P where
  refl a ha := by rw [he a a ha ha, h.refl a ha]
  swap a b ha hb := by rw [he a b ha hb, he b a hb ha, h.swap a b ha hb]
  trans a b c ha hb hd := by
    rw [he a b ha hb, he b c hb hd, he a c ha hd]
    exact h.trans a b c ha hb hd

theorem gt_iff (h : Consistent compare P) (ha : P a) (hb : P b) :
    compare a b = .gt ↔ compare b a = .lt := by
  rw [← h.swap a b ha hb]
  cases compare a b <;> decide

/-- What is no better than another thing is no better than what that one is no better than. -/
theorem not_lt_trans (h : Consistent compare P) (ha : P a) (hb : P b) (hc : P c)
    (hab : compare a b ≠ .lt) (hbc : compare b c ≠ .lt) : compare a c ≠ .lt := by
  intro hac
  refine hab (h.trans a c b ha hc hb hac ?_)
  rw [Ne, h.gt_iff hc hb]
  exact hbc

theorem eq_of_not (h : Consistent compare P) (ha : P a) (hb : P b) (hab : compare a b ≠ .gt)
    (hba : compare b a ≠ .gt) : compare a b = .eq := by
  have hlt : compare a b ≠ .lt := fun hlt => hba ((h.gt_iff hb ha).2 hlt)
  revert hab hlt
  cases compare a b <;> simp

theorem eq_trans (h : Consistent compare P) (ha : P a) (hb : P b) (hc : P c)
    (hab : compare a b = .eq) (hbc : compare b c = .eq) : compare a c = .eq := by
  have hba : compare b a = .eq := by rw [← h.swap a b ha hb, hab]; rfl
  have hcb : compare c b = .eq := by rw [← h.swap b c hb hc, hbc]; rfl
  have hac : compare a c ≠ .lt :=
    h.not_lt_trans ha hb hc (by rw [hab]; decide) (by rw [hbc]; decide)
  have hca : compare c a ≠ .lt :=
    h.not_lt_trans hc hb ha (by rw [hcb]; decide) (by rw [hba]; decide)
  exact h.eq_of_not ha hc (fun hgt => hca ((h.gt_iff ha hc).1 hgt))
    fun hgt => hac ((h.gt_iff hc ha).1 hgt)

/-- Something that ties with what is better than a third thing is better than it. -/
theorem lt_of_eq_of_lt (h : Consistent compare P) (ha : P a) (hb : P b) (hc : P c)
    (hab : compare a b = .eq) (hbc : compare b c = .lt) : compare a c = .lt := by
  have hba : compare b a ≠ .lt := by
    rw [← h.swap a b ha hb, hab]
    decide
  exact Decidable.byContradiction fun hac => h.not_lt_trans hb ha hc hba hac hbc

end Consistent

/-- Whether a place of a list goes before another one: it is better, or they tie and it comes first. -/
def Precedes {n : Nat} (compare : Fin n → Fin n → Ordering) (i j : Fin n) : Prop :=
  compare i j = .lt ∨ compare i j = .eq ∧ i < j

theorem Precedes.ne_gt {n : Nat} {compare : Fin n → Fin n → Ordering} {i j : Fin n}
    (h : Precedes compare i j) : compare i j ≠ .gt := by
  rcases h with h | ⟨h, _⟩ <;> rw [h] <;> decide

/-- A stable sort that goes by a comparison alone: how it orders the places of a list. Of what it does
no more is known than by comparisons that are consistent. By others it may come to nothing. -/
structure Sorting where
  places : (n : Nat) → (Fin n → Fin n → Ordering) → Option (List (Fin n))
  perm : ∀ {n compare ps}, places n compare = some ps → ps.Perm (List.finRange n)
  stable : ∀ {n compare}, Consistent compare (fun _ => True) →
    ∃ ps, places n compare = some ps ∧ ps.Pairwise (Precedes compare)

def Sorting.sort {α : Type} (s : Sorting) (compare : α → α → Ordering) (xs : List α) :
    Option (List α) :=
  (s.places xs.length fun i j => compare xs[i] xs[j]).map (·.map fun i => xs[i])

theorem map_finRange {α : Type} (xs : List α) :
    (List.finRange xs.length).map (fun i => xs[i]) = xs :=
  List.ext_getElem (by simp) fun _ _ _ => by simp

namespace Sorting

variable {α : Type} {s : Sorting} {compare : α → α → Ordering} {xs ys : List α}

/-- What is sorted matters, not how other things would compare. -/
theorem sort_congr {compare' : α → α → Ordering} {P : α → Prop}
    (h : ∀ a b, P a → P b → compare a b = compare' a b) (hxs : ∀ x ∈ xs, P x) :
    s.sort compare xs = s.sort compare' xs := by
  have hplaces : (fun i j : Fin xs.length => compare xs[i] xs[j]) =
      fun i j => compare' xs[i] xs[j] :=
    funext fun _ => funext fun _ =>
      h _ _ (hxs _ (List.getElem_mem _)) (hxs _ (List.getElem_mem _))
  rw [sort, hplaces, sort]

theorem sort_perm (h : s.sort compare xs = some ys) : ys.Perm xs := by
  obtain ⟨ps, hps, rfl⟩ := Option.map_eq_some_iff.1 h
  have hperm := (s.perm hps).map fun i => xs[i]
  rwa [map_finRange] at hperm

/-- By a consistent comparison the best is sorted to the front. -/
theorem exists_sort (s : Sorting) (h : Consistent compare (· ∈ xs)) :
    ∃ ys, s.sort compare xs = some ys ∧ ys.Pairwise fun a b => compare a b ≠ .gt := by
  have hplaces : Consistent (fun i j : Fin xs.length => compare xs[i] xs[j]) fun _ => True :=
    ⟨fun i _ => h.refl _ (List.getElem_mem _),
      fun i j _ _ => h.swap _ _ (List.getElem_mem _) (List.getElem_mem _),
      fun i j k _ _ _ =>
        h.trans _ _ _ (List.getElem_mem _) (List.getElem_mem _) (List.getElem_mem _)⟩
  obtain ⟨ps, hps, hordered⟩ := s.stable hplaces
  refine ⟨ps.map fun i => xs[i], congrArg (Option.map _) hps, List.pairwise_map.2 ?_⟩
  exact hordered.imp Precedes.ne_gt

theorem sort_singleton (s : Sorting) {a : α} (h : compare a a = .eq) :
    s.sort compare [a] = some [a] := by
  have hconsistent : Consistent compare (· ∈ [a]) := by
    simp only [List.mem_singleton]
    refine ⟨?_, ?_, ?_⟩
    · rintro _ rfl
      exact h
    · rintro _ _ rfl rfl
      rw [h]
      rfl
    · rintro _ _ _ rfl rfl rfl hlt -
      exact hlt
  obtain ⟨ys, hys, -⟩ := s.exists_sort hconsistent
  rw [hys, List.perm_singleton.1 (sort_perm hys)]

end Sorting

section Places

variable {n : Nat} {compare : Fin n → Fin n → Ordering} {i j k : Fin n}
variable (h : Consistent compare fun _ => True)
include h

theorem Precedes.trans (hij : Precedes compare i j) (hjk : Precedes compare j k) :
    Precedes compare i k := by
  rcases hij with hij | ⟨hij, hlt⟩
  · refine .inl (h.trans i j k trivial trivial trivial hij ?_)
    rcases hjk with hjk | ⟨hjk, _⟩ <;> rw [hjk] <;> decide
  · rcases hjk with hjk | ⟨hjk, hlt'⟩
    · exact .inl (h.lt_of_eq_of_lt trivial trivial trivial hij hjk)
    · exact .inr ⟨h.eq_trans trivial trivial trivial hij hjk, Fin.lt_trans hlt hlt'⟩

theorem Precedes.asymm (hij : Precedes compare i j) : ¬ Precedes compare j i := by
  rw [Precedes, ← h.swap i j trivial trivial]
  rcases hij with hij | ⟨hij, hlt⟩
  · rw [hij]
    simp
  · rw [hij]
    simpa using Fin.le_of_lt hlt

theorem pairwise_settled :
    (List.finRange n).Pairwise (StableSort.Settled compare (Precedes compare)) := by
  refine (List.pairwise_lt_finRange n).imp fun {i j} hlt => ?_
  rw [StableSort.Settled]
  split
  · next hji => exact .inl hji
  · next hji =>
    rw [← h.swap i j trivial trivial] at hji
    cases hij : compare i j with
    | lt => exact .inl hij
    | eq => exact .inr ⟨hij, hlt⟩
    | gt =>
      rw [hij] at hji
      exact absurd rfl hji

end Places

def Sorting.byMerging : Sorting where
  places n compare := StableSort.byMerging compare n (List.finRange n)
  perm := StableSort.byMerging_perm
  stable h := StableSort.exists_byMerging (fun _ _ _ => Precedes.trans h)
    (fun _ _ => Precedes.asymm h) (pairwise_settled h)

instance : Inhabited Sorting := ⟨.byMerging⟩

end Wiring
