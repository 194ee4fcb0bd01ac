import Wiring.Proofs.Fit.Occurs
import Wiring.Proofs.Types.Tables

namespace Wiring.Fit

open Ty UnionFind

variable {K : Catalog} {vars : List Classifier} {U : UnionFind} {b b' : U.Table}
  {v w : Classifier} {s t : Ty}

structure Triangular (K : Catalog) (vars : List Classifier) (b : U.Table) : Prop where
  acyclic : Acyclic K vars b
  bound : ∀ v t, U.value? b v = some t → vars.contains v = true
  linked : ∀ v w, U.joined b v w = true →
    v.key = w.key ∨ (vars.contains v = true ∧ vars.contains w = true)

theorem triangular_start : Triangular K vars U.start where
  acyclic := acyclic_start
  bound _ _ h := absurd h value_start_ne
  linked _ _ h := Or.inl (key_eq_of_joined_start h)

theorem Triangular.contains_of_joined (hb : Triangular K vars b) (hj : U.joined b v w = true)
    (hw : vars.contains w = true) : vars.contains v = true := by
  rcases hb.linked v w hj with hk | ⟨hv, _⟩
  · rw [contains_congr hk]
    exact hw
  · exact hv

theorem Triangular.assign (hb : Triangular K vars b) (hv : vars.contains v = true)
    (ho : ¬ Reaches K vars b t v) : Triangular K vars (U.assign b v t) where
  acyclic := acyclic_assign hb.acyclic ho
  bound x u hx := by
    rw [U.value_assign] at hx
    split at hx
    · next hj => exact hb.contains_of_joined hj hv
    · exact hb.bound x u hx
  linked v w hj := hb.linked v w (joined_assign.symm.trans hj)

/-- However two classes are joined, the bindings stay triangular if the second has no value and that
of the first does not reach it. -/
theorem Triangular.join (hb : Triangular K vars b) (hv : vars.contains v = true)
    (hw : vars.contains w = true) (hwn : U.value? b w = none)
    (ho : ∀ s, U.value? b v = some s → ¬ Reaches K vars b s w) (hj : U.Joins b b' v w) :
    Triangular K vars b' where
  acyclic := acyclic_join hb.acyclic hj hwn ho
  bound x t hx := by
    rw [hj.value, hwn, Option.or_none] at hx
    split at hx
    · next hm =>
      rcases Bool.or_eq_true_iff.1 hm with hm | hm
      · exact hb.contains_of_joined hm hv
      · exact hb.contains_of_joined hm hw
    · exact hb.bound x t hx
  linked x y hxy := by
    rcases (hj.joined x y).1 hxy with hxy | ⟨hx, hy⟩ | ⟨hx, hy⟩
    · exact hb.linked x y hxy
    · exact Or.inr ⟨hb.contains_of_joined hx hv, hb.contains_of_joined hy hw⟩
    · exact Or.inr ⟨hb.contains_of_joined hx hw, hb.contains_of_joined hy hv⟩

theorem mem_variablesIn : w ∈ variablesIn K vars t ↔
    ∃ c ∈ t.classifiers, K.isTypeParameter c = true ∧ vars.find? (· == c) = some w := by
  have hfind : ∀ {c p : Classifier}, p.key = c.key →
      vars.find? (· == p) = vars.find? (· == c) := fun hk => by
    congr 1
    funext x
    exact BEq.congr_right (Classifier.beq_iff_key_eq.2 hk)
  refine List.mem_filterMap.trans ⟨?_, ?_⟩
  · rintro ⟨p, hp, hw⟩
    obtain ⟨hmem, hparam⟩ := Catalog.of_mem_parametersIn hp
    exact ⟨p, hmem, hparam, hw⟩
  · rintro ⟨c, hc, hparam, hw⟩
    obtain ⟨p, hp, hk⟩ := Catalog.exists_mem_parametersIn hc hparam
    exact ⟨p, hp, (hfind hk).trans hw⟩

theorem mem_of_mem_variablesIn (h : w ∈ variablesIn K vars t) : w ∈ vars := by
  obtain ⟨c, _, _, hw⟩ := mem_variablesIn.1 h
  exact List.mem_of_find?_eq_some hw

theorem Reaches.mono (hst : ∀ w ∈ variablesIn K vars s, w ∈ variablesIn K vars t)
    (h : Reaches K vars b s v) : Reaches K vars b t v := by
  cases h with
  | here occurs joined => exact here (hst _ occurs) joined
  | inner occurs value reaches => exact inner (hst _ occurs) value reaches

open Classical in
noncomputable def reached (K : Catalog) (vars : List Classifier) (b : U.Table) (t : Ty) :
    List Classifier :=
  vars.filter fun v => Reaches K vars b t v

theorem mem_reached {v : Classifier} :
    v ∈ reached K vars b t ↔ v ∈ vars ∧ Reaches K vars b t v := by
  simp [reached]

theorem length_reached_le (K : Catalog) (vars : List Classifier) (b : U.Table) (t : Ty) :
    (reached K vars b t).length ≤ vars.length :=
  List.length_filter_le _ _

theorem reached_sublist (hst : ∀ v, Reaches K vars b s v → Reaches K vars b t v) :
    (reached K vars b s).Sublist (reached K vars b t) := by
  apply List.monotone_filter_right
  intro v hv
  simp only [decide_eq_true_eq] at hv ⊢
  exact hst v hv

theorem length_reached_lt {x : Classifier}
    (hst : ∀ v, Reaches K vars b s v → Reaches K vars b t v) (hx : x ∈ vars)
    (hs : ¬ Reaches K vars b s x) (ht : Reaches K vars b t x) :
    (reached K vars b s).length < (reached K vars b t).length := by
  have hsub := reached_sublist hst
  refine Nat.lt_of_le_of_ne hsub.length_le fun he => ?_
  have hmem : x ∈ reached K vars b s := by
    rw [hsub.eq_of_length he]
    exact mem_reached.2 ⟨hx, ht⟩
  exact hs (mem_reached.1 hmem).2

/-- From the value of a variable less is reached than from what the variable occurs in. -/
theorem Triangular.length_reached_lt (hb : Triangular K vars b) (hw : w ∈ variablesIn K vars t)
    (hs : U.value? b w = some s) : (reached K vars b s).length < (reached K vars b t).length :=
  Fit.length_reached_lt (fun _ => Reaches.inner hw hs) (mem_of_mem_variablesIn hw)
    (hb.acyclic w s hs) (.here hw (joined_refl b w))

/-- The occurs check does not end for want of depth: more of it changes nothing. -/
theorem Triangular.occursWithin_iff (hb : Triangular K vars b) {depth : Nat}
    (hd : vars.length < depth) :
    occursWithin K vars b v depth t = true ↔ Reaches K vars b t v := by
  refine ⟨fun h => ?_, fun h => ?_⟩
  · have hlt : (reached K vars b t).length < depth :=
      Nat.lt_of_le_of_lt (length_reached_le K vars b t) hd
    clear hd
    -- each level goes into a value, from which less is reached
    induction depth generalizing t with
    | zero => exact absurd hlt (Nat.not_lt_zero _)
    | succ depth ih =>
      simp only [occursWithin, List.any_eq_true, Bool.or_eq_true] at h
      obtain ⟨w, hw, hj | hin⟩ := h
      · exact .here hw hj
      · cases hval : U.value? b w with
        | none => simp [hval] at hin
        | some s =>
          rw [hval] at hin
          have := hb.length_reached_lt hw hval
          exact .inner hw hval (ih hin (by omega))
  · by_contra hno
    exact not_reaches_of_occursWithin (Bool.eq_false_iff.2 hno) h

noncomputable def height (K : Catalog) (vars : List Classifier) (b : U.Table) (k : String) : Nat :=
  match U.value? b ⟨k, 0⟩ with
  | some t => 1 + (reached K vars b t).length
  | none => 0

theorem height_le (K : Catalog) (vars : List Classifier) (b : U.Table) (k : String) :
    height K vars b k ≤ 0 + (vars.length + 1) := by
  unfold height
  split
  · next t _ =>
    have hle := length_reached_le K vars b t
    omega
  · omega

theorem value_of_key (b : U.Table) (v : Classifier) : U.value? b ⟨v.key, 0⟩ = U.value? b v :=
  U.value_eq (U.key_representative b rfl)

/-- A variable that the value of another one mentions has a smaller height. -/
theorem Triangular.height_lt (hb : Triangular K vars b) (hv : U.value? b v = some t)
    (hw : w ∈ variablesIn K vars t) : height K vars b w.key < height K vars b v.key := by
  unfold height
  rw [value_of_key, value_of_key, hv]
  cases hs : U.value? b w with
  | none => exact Nat.lt_add_right _ Nat.one_pos
  | some s =>
    have hlt := hb.length_reached_lt hw hs
    dsimp only
    omega

end Wiring.Fit
