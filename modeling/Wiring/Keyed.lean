namespace Wiring.Keyed

variable {α : Type}

def Sorted (key : α → String) (xs : List α) : Prop :=
  xs.Pairwise fun x y => key x < key y

def insert (key : α → String) (x : α) : List α → List α
  | [] => [x]
  | y :: ys =>
    if key x < key y then x :: y :: ys
    else if key x = key y then y :: ys
    else y :: insert key x ys

/-- The elements in order of their keys; of several with one key the first is kept. -/
def ofList (key : α → String) (xs : List α) : List α :=
  xs.foldl (fun sorted x => insert key x sorted) []

theorem mem_of_mem_insert {key : α → String} {x z : α} {ys : List α}
    (h : z ∈ insert key x ys) : z = x ∨ z ∈ ys := by
  induction ys with
  | nil => simpa [insert] using h
  | cons y ys ih =>
    simp only [insert] at h
    split at h
    · simpa using h
    · split at h
      · exact Or.inr h
      · rcases List.mem_cons.1 h with h | h
        · exact Or.inr (by simp [h])
        · exact (ih h).imp_right (List.mem_cons_of_mem y)

theorem insert_sorted {key : α → String} {x : α} {ys : List α} (h : Sorted key ys) :
    Sorted key (insert key x ys) := by
  induction ys with
  | nil => simp [insert, Sorted]
  | cons y ys ih =>
    have hy := List.pairwise_cons.1 h
    simp only [insert]
    split
    · next hlt =>
      refine List.pairwise_cons.2 ⟨fun z hz => ?_, h⟩
      rcases List.mem_cons.1 hz with rfl | hz
      · exact hlt
      · exact String.lt_trans hlt (hy.1 z hz)
    · next hlt =>
      split
      · exact h
      · next hne =>
        refine List.pairwise_cons.2 ⟨fun z hz => ?_, ih hy.2⟩
        rcases mem_of_mem_insert hz with rfl | hz
        · exact Std.lt_of_le_of_ne (String.not_lt.1 hlt) fun he => hne he.symm
        · exact hy.1 z hz

theorem ofList_sorted (key : α → String) (xs : List α) : Sorted key (ofList key xs) := by
  suffices h : ∀ acc, Sorted key acc →
      Sorted key (xs.foldl (fun sorted x => insert key x sorted) acc) from
    h [] List.Pairwise.nil
  induction xs with
  | nil => exact fun acc h => h
  | cons x xs ih => exact fun acc h => ih _ (insert_sorted h)

theorem mem_of_mem_ofList {key : α → String} {x : α} {xs : List α} (h : x ∈ ofList key xs) :
    x ∈ xs := by
  suffices hs : ∀ acc, x ∈ xs.foldl (fun sorted y => insert key y sorted) acc →
      x ∈ acc ∨ x ∈ xs from
    (hs [] h).resolve_left List.not_mem_nil
  clear h
  induction xs with
  | nil => exact fun acc h => Or.inl h
  | cons y ys ih =>
    intro acc h
    rcases ih _ h with h | h
    · rcases mem_of_mem_insert h with rfl | h
      · exact Or.inr (List.mem_cons_self ..)
      · exact Or.inl h
    · exact Or.inr (List.mem_cons_of_mem y h)

theorem insert_append_of_lt {key : α → String} {x : α} {ys : List α}
    (h : ∀ y ∈ ys, key y < key x) : insert key x ys = ys ++ [x] := by
  induction ys with
  | nil => rfl
  | cons y ys ih =>
    have hy : key y < key x := h y (List.mem_cons_self ..)
    have hne : key x ≠ key y := fun he => String.lt_irrefl _ (he ▸ hy)
    have hlt : ¬ key x < key y := fun hl => String.lt_irrefl _ (String.lt_trans hl hy)
    simp [insert, hlt, hne, ih fun z hz => h z (List.mem_cons_of_mem y hz)]

theorem ofList_of_sorted {key : α → String} {xs : List α} (h : Sorted key xs) :
    ofList key xs = xs := by
  suffices hs : ∀ acc, Sorted key (acc ++ xs) →
      xs.foldl (fun sorted x => insert key x sorted) acc = acc ++ xs from
    hs [] h
  clear h
  induction xs with
  | nil => intro acc _; simp
  | cons x xs ih =>
    intro acc h
    have hx : ∀ y ∈ acc, key y < key x := fun y hy =>
      (List.pairwise_append.1 h).2.2 y hy x (List.mem_cons_self ..)
    rw [List.foldl_cons, insert_append_of_lt hx, ih]
    · simp
    · simpa using h

end Wiring.Keyed
