import Wiring.Fit.Walk
import Wiring.Proofs.Fit.Classes

namespace Wiring.Fit

open UnionFind

variable {K : Catalog} {vars : List Classifier} {U : UnionFind} {b b' : U.Table}
  {v w x y : Classifier} {s t value : Ty}

/-- The class of `v` occurs in `t`, or in the value of a variable that is reached from `t`. -/
inductive Reaches (K : Catalog) (vars : List Classifier) (b : U.Table) : Ty → Classifier → Prop
  | here {t : Ty} {v w : Classifier} (occurs : w ∈ variablesIn K vars t)
      (joined : U.joined b w v = true) : Reaches K vars b t v
  | inner {s t : Ty} {v w : Classifier} (occurs : w ∈ variablesIn K vars t)
      (value : U.value? b w = some s) (reaches : Reaches K vars b s v) : Reaches K vars b t v

def Acyclic (K : Catalog) (vars : List Classifier) (b : U.Table) : Prop :=
  ∀ v t, U.value? b v = some t → ¬ Reaches K vars b t v

theorem acyclic_start : Acyclic K vars U.start := by
  intro v t h
  exact absurd h value_start_ne

theorem not_reaches_of_occursWithin {depth : Nat} (h : occursWithin K vars b v depth t = false) :
    ¬ Reaches K vars b t v := by
  intro hr
  induction hr generalizing depth with
  | here occurs joined =>
    cases depth with
    | zero => simp [occursWithin] at h
    | succ depth =>
      simp only [occursWithin, List.any_eq_false, Bool.or_eq_true, not_or] at h
      exact (h _ occurs).1 joined
  | inner occurs value _ ih =>
    cases depth with
    | zero => simp [occursWithin] at h
    | succ depth =>
      simp only [occursWithin, List.any_eq_false, Bool.or_eq_true, not_or] at h
      have hin := (h _ occurs).2
      rw [value] at hin
      exact ih (Bool.eq_false_iff.2 hin)

theorem not_reaches_of_occurs (h : occurs K vars b v t = false) : ¬ Reaches K vars b t v :=
  not_reaches_of_occursWithin h

theorem value_not_reaches (hv : U.value? b v = some t) (ho : ¬ occurs K vars b w t = true) :
    ∀ s, U.value? b v = some s → ¬ Reaches K vars b s w := by
  intro s hs
  obtain rfl := Option.some.inj (hv.symm.trans hs)
  exact not_reaches_of_occurs (Bool.eq_false_iff.2 ho)

theorem value_not_reaches_of_none (hv : U.value? b v = none) :
    ∀ s, U.value? b v = some s → ¬ Reaches K vars b s w := by
  intro s hs
  rw [hv] at hs
  cases hs

theorem Reaches.joined (h : Reaches K vars b t v) (hj : U.joined b v w = true) :
    Reaches K vars b t w := by
  induction h with
  | here occurs joined => exact here occurs (joined_trans joined hj)
  | inner occurs value _ ih => exact inner occurs value (ih hj)

/-- What is reached from the value of a variable that is reached is reached. -/
theorem Reaches.through (h : Reaches K vars b t v) (hv : U.value? b v = some s)
    (hs : Reaches K vars b s w) : Reaches K vars b t w := by
  induction h with
  | here occurs joined => exact inner occurs ((value_eq_of_joined joined).trans hv) hs
  | inner occurs value _ ih => exact inner occurs value (ih hv)

theorem reaches_assign (hv : ¬ Reaches K vars b value v)
    (h : Reaches K vars (U.assign b v value) t x) :
    Reaches K vars b t x ∨ (Reaches K vars b t v ∧ Reaches K vars b value x) := by
  induction h with
  | here occurs joined => exact Or.inl (Reaches.here occurs (joined_assign.symm.trans joined))
  | @inner s t x w occurs hval _ ih =>
    rw [U.value_assign] at hval
    split at hval
    · next hj =>
      obtain rfl := Option.some.inj hval
      rcases ih with ih | ⟨ih, _⟩
      · exact Or.inr ⟨Reaches.here occurs hj, ih⟩
      · exact absurd ih hv
    · rcases ih with ih | ⟨ih, ih'⟩
      · exact Or.inl (Reaches.inner occurs hval ih)
      · exact Or.inr ⟨Reaches.inner occurs hval ih, ih'⟩

theorem acyclic_assign (ha : Acyclic K vars b) (hv : ¬ Reaches K vars b value v) :
    Acyclic K vars (U.assign b v value) := by
  intro y t hy hr
  have hr' := reaches_assign hv hr
  rw [U.value_assign] at hy
  split at hy
  · next hj =>
    obtain rfl := Option.some.inj hy
    rcases hr' with hr' | ⟨hr', _⟩
    · exact hv (hr'.joined hj)
    · exact hv hr'
  · rcases hr' with hr' | ⟨hr', hr''⟩
    · exact ha y t hy hr'
    · exact hv (hr''.through hy hr')

/-- After a join a variable is reached as before, or as a member of the new class, or through the
value that the class of `w` has got by it. -/
theorem reaches_join (hj : U.Joins b b' v w) (hw : U.value? b w = none)
    (h : Reaches K vars b' t x) :
    Reaches K vars b t x ∨
      ((U.joined b x v = true ∨ U.joined b x w = true) ∧
        (Reaches K vars b t v ∨ Reaches K vars b t w)) ∨
      (Reaches K vars b t w ∧ ∃ s, U.value? b v = some s ∧ Reaches K vars b s x) := by
  induction h with
  | here occurs joined =>
    rcases (hj.joined _ _).1 joined with joined | ⟨hv, hx⟩ | ⟨hw, hx⟩
    · exact Or.inl (Reaches.here occurs joined)
    · exact Or.inr (Or.inl ⟨Or.inr hx, Or.inl (Reaches.here occurs hv)⟩)
    · exact Or.inr (Or.inl ⟨Or.inl hx, Or.inr (Reaches.here occurs hw)⟩)
  | @inner s t x u occurs hval _ ih =>
    -- where the variable had the value before, the way goes on as before
    have hsame : U.value? b u = some s → _ := fun hu =>
      ih.imp (Reaches.inner occurs hu) (Or.imp
        (And.imp_right (Or.imp (Reaches.inner occurs hu) (Reaches.inner occurs hu)))
        (And.imp_left (Reaches.inner occurs hu)))
    rw [hj.value, hw, Option.or_none] at hval
    split at hval
    · next hu =>
      rcases Bool.or_eq_true_iff.1 hu with hu | hu
      · exact hsame ((value_eq_of_joined hu).trans hval)
      · have hreach : Reaches K vars b t w := Reaches.here occurs hu
        rcases ih with ih | ⟨hx, _⟩ | ⟨_, ih⟩
        · exact Or.inr (Or.inr ⟨hreach, s, hval, ih⟩)
        · exact Or.inr (Or.inl ⟨hx, Or.inr hreach⟩)
        · exact Or.inr (Or.inr ⟨hreach, ih⟩)
    · exact hsame hval

theorem acyclic_join (ha : Acyclic K vars b) (hj : U.Joins b b' v w)
    (hw : U.value? b w = none) (ho : ∀ s, U.value? b v = some s → ¬ Reaches K vars b s w) :
    Acyclic K vars b' := by
  intro y t hy hr
  have hr' := reaches_join hj hw hr
  rw [hj.value, hw, Option.or_none] at hy
  split at hy
  · next hm =>
    have hv := ha v t hy
    have hw' := ho t hy
    rcases hr' with hr' | ⟨_, hr' | hr'⟩ | ⟨hr', _⟩
    · rcases Bool.or_eq_true_iff.1 hm with hm | hm
      · exact hv (hr'.joined hm)
      · exact hw' (hr'.joined hm)
    · exact hv hr'
    · exact hw' hr'
    · exact hw' hr'
  · next hm =>
    rcases hr' with hr' | ⟨hx, _⟩ | ⟨hr', s, hs, hs'⟩
    · exact ha y t hy hr'
    · exact hm (Bool.or_eq_true_iff.2 hx)
    · exact ho s hs (hs'.through hy hr')

end Wiring.Fit
