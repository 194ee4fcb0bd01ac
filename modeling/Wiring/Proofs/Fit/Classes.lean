import Wiring.Fit.UnionFind
import Wiring.Proofs.Types.Agreement

namespace Wiring.UnionFind

variable {U : UnionFind} {b b' b'' : U.Table} {v w x y : Classifier} {t : Ty}

theorem joined_iff :
    U.joined b v w = true ↔ (U.representative b v).key = (U.representative b w).key :=
  Classifier.beq_iff_key_eq

theorem joined_refl (b : U.Table) (v : Classifier) : U.joined b v v = true :=
  joined_iff.2 rfl

theorem joined_trans (h : U.joined b v w = true) (h' : U.joined b w x = true) :
    U.joined b v x = true :=
  joined_iff.2 ((joined_iff.1 h).trans (joined_iff.1 h'))

theorem joined_of_key (hk : v.key = w.key) : U.joined b v w = true :=
  joined_iff.2 (U.key_representative b hk)

theorem value_eq_of_joined (hj : U.joined b v w = true) : U.value? b v = U.value? b w :=
  U.value_eq (joined_iff.1 hj)

/-- At first only parameters with one key are equal. -/
theorem key_eq_of_joined_start (h : U.joined U.start v w = true) : v.key = w.key := by
  have hk := joined_iff.1 h
  rwa [U.representative_start, U.representative_start] at hk

theorem value_start_ne : U.value? U.start v ≠ some t := by
  rw [U.value_start]
  exact nofun

structure Extends (U : UnionFind) (b b' : U.Table) : Prop where
  -- More parameters are equal, and more have values, which do not change.
  joined : ∀ v w, U.joined b v w = true → U.joined b' v w = true
  value : ∀ v t, U.value? b v = some t → U.value? b' v = some t

theorem Extends.refl (b : U.Table) : U.Extends b b where
  joined _ _ h := h
  value _ _ h := h

theorem Extends.trans (h : U.Extends b b') (h' : U.Extends b' b'') : U.Extends b b'' where
  joined v w hj := h'.joined v w (h.joined v w hj)
  value v t hv := h'.value v t (h.value v t hv)

theorem joined_assign : U.joined (U.assign b v t) x y = U.joined b x y := by
  rw [joined, joined, U.representative_assign, U.representative_assign]

theorem value_assign_of_joined (hj : U.joined b x v = true) :
    U.value? (U.assign b v t) x = some t :=
  U.value_assign.trans (if_pos hj)

theorem extends_assign (hv : U.value? b v = none) : U.Extends b (U.assign b v t) where
  joined _ _ hj := joined_assign.trans hj
  value x u hx := by
    rw [U.value_assign]
    split
    · next hj =>
      rw [value_eq_of_joined hj, hv] at hx
      cases hx
    · exact hx

structure Joins (U : UnionFind) (b b' : U.Table) (v w : Classifier) : Prop where
  -- `b'` is `b` with the classes of `v` and `w` made one, which has the value of either.
  joined : ∀ x y, U.joined b' x y = true ↔ U.joined b x y = true ∨
    (U.joined b x v = true ∧ U.joined b y w = true) ∨
    (U.joined b x w = true ∧ U.joined b y v = true)
  value : ∀ x, U.value? b' x =
    if U.joined b x v || U.joined b x w then (U.value? b v).or (U.value? b w) else U.value? b x

theorem Joins.symm (h : U.Joins b b' v w) (hn : U.value? b v = none ∨ U.value? b w = none) :
    U.Joins b b' w v where
  joined x y := by
    rw [h.joined]
    exact or_congr_right or_comm
  value x := by
    rw [h.value, Bool.or_comm]
    congr 1
    rcases hn with hn | hn
    · rw [hn, Option.none_or, Option.or_none]
    · rw [hn, Option.none_or, Option.or_none]

/-- Where all that `x` represents gets another representative, its class becomes one with another
class. -/
theorem joined_of_moved (hne : (U.representative b v).key ≠ (U.representative b w).key)
    (hrep : ∀ c, (U.representative b' c).key =
      if (U.representative b c).key = (U.representative b v).key then (U.representative b w).key
      else (U.representative b c).key) (x y : Classifier) :
    U.joined b' x y = true ↔ U.joined b x y = true ∨
      (U.joined b x v = true ∧ U.joined b y w = true) ∨
      (U.joined b x w = true ∧ U.joined b y v = true) := by
  simp only [joined_iff, hrep]
  by_cases hx : (U.representative b x).key = (U.representative b v).key
  · by_cases hy : (U.representative b y).key = (U.representative b v).key
    · simp [hx, hy]
    · simp [hx, hy, hne, eq_comm, Ne.symm hy]
  · by_cases hy : (U.representative b y).key = (U.representative b v).key
    · simp [hx, hy, hne]
    · simp [hx, hy]

theorem joins_join (hvw : U.joined b v w = false)
    (hn : U.value? b v = none ∨ U.value? b w = none) : U.Joins b (U.join b v w) v w where
  joined x y := by
    have hne : (U.representative b v).key ≠ (U.representative b w).key := fun he => by
      rw [joined_iff.2 he] at hvw
      contradiction
    obtain ⟨p, q, hpq, hmoved⟩ := U.representative_join b v w
    have hrep : ∀ c, (U.representative (U.join b v w) c).key =
        if (U.representative b c).key = (U.representative b p).key then (U.representative b q).key
        else (U.representative b c).key := by
      intro c
      rw [hmoved]
      by_cases hc : (U.representative b c).key = (U.representative b p).key
      · rw [if_pos (Classifier.beq_iff_key_eq.2 hc), if_pos hc]
      · rw [if_neg (mt Classifier.beq_iff_key_eq.1 hc), if_neg hc]
    rcases hpq with ⟨rfl, rfl⟩ | ⟨rfl, rfl⟩
    · exact joined_of_moved hne hrep x y
    · rw [joined_of_moved hne.symm hrep x y]
      exact or_congr_right or_comm
  value := U.value_join hn

theorem Joins.extends (h : U.Joins b b' v w) (hn : U.value? b v = none ∨ U.value? b w = none) :
    U.Extends b b' where
  joined x y hj := (h.joined x y).2 (Or.inl hj)
  value x t hx := by
    rw [h.value]
    split
    · next hj =>
      rcases Bool.or_eq_true_iff.1 hj with hj | hj
      · rw [← value_eq_of_joined hj, hx]
        rfl
      · rw [value_eq_of_joined hj] at hx
        rw [hn.resolve_right (by simp [hx]), hx]
        rfl
    · exact hx

theorem Joins.joins (h : U.Joins b b' v w) : U.joined b' v w = true :=
  (h.joined v w).2 (Or.inr (Or.inl ⟨joined_refl b v, joined_refl b w⟩))

end Wiring.UnionFind
