import Wiring.Fit
import Wiring.Proofs.Fit.Sound
import Wiring.Proofs.Types.Mentions

namespace Wiring.Fit

open Ty Catalog UnionFind

variable {K : Catalog} {statics vars : List Classifier} {U : UnionFind} {b : U.Table}
  {m m' σ : Substitution} {rank : String → Nat} {gap rounds : Nat}

def Solved (m σ : Substitution) : Prop :=
  ∀ c t, m.get? c = some t → Alike ((Ty.of c).substitute σ) (t.substitute σ)

def Descends (rank : String → Nat) (gap : Nat) (m : Substitution) : Prop :=
  -- What the value of a bound classifier mentions and is bound itself is lower by more than `gap`.
  ∀ c t, m.get? c = some t → ∀ d : Classifier, Mentions t d.key → (m.get? d).isSome = true →
    rank d.key + gap < rank c.key

theorem get_beq (h : (m == m') = true) (c : Classifier) :
    Option.Rel (fun s t => (s == t) = true) (m.get? c) (m'.get? c) := by
  change (m.bindings == m'.bindings) = true at h
  simp only [Substitution.get?]
  generalize m.bindings = xs at h
  generalize m'.bindings = ys at h
  induction xs generalizing ys with
  | nil =>
    cases ys with
    | nil => exact Option.Rel.none
    | cons y ys => cases h
  | cons x xs ih =>
    cases ys with
    | nil => cases h
    | cons y ys =>
      rw [List.cons_beq_cons, Bool.and_eq_true] at h
      obtain ⟨hk, ht⟩ := Bool.and_eq_true_iff.1 h.1
      have hb : (c == x.1) = (c == y.1) := BEq.congr_right hk
      rw [Substitution.lookup_bindings, Substitution.lookup_bindings, hb]
      split
      · exact Option.Rel.some ht
      · exact ih _ h.2

theorem of_substitute_bound {c : Classifier} {t : Ty} (h : m.get? c = some t) :
    Alike ((Ty.of c).substitute m) t :=
  bare_substitute_bound (t := Ty.of c) rfl h

/-- A type that mentions nothing that is bound does not change. -/
theorem alike_substitute_of_unbound {t : Ty} (ht : Everywhere m.Spares t)
    (h : ∀ c ∈ t.classifiers, m.get? c = none) : Alike (t.substitute m) t := by
  have hempty : Everywhere Substitution.empty.Spares t :=
    ht.imp fun _ _ _ _ => Substitution.get_empty _
  have hs : Alike (t.substitute m) (t.substitute .empty) :=
    agree_substitute (Agree.refl t) ht hempty fun c hc => by
      rw [h c hc, Substitution.get_empty]
      exact Option.Rel.none
  rwa [substitute_of_isEmpty (m := Substitution.empty) rfl] at hs

theorem get_round (m : Substitution) (c : Classifier) :
    (m.map (·.substitute m)).get? c = (m.get? c).map (substitute m) :=
  Substitution.get_map m _ c

theorem admissible_round (hK : K.Orderly statics) (hm : Admissible K statics m) :
    Admissible K statics (m.map (·.substitute m)) := by
  have hget : ∀ c t, (m.map (·.substitute m)).get? c = some t →
      ∃ u, m.get? c = some u ∧ u.substitute m = t := fun c t h => by
    rw [get_round] at h
    exact Option.map_eq_some_iff.1 h
  refine ⟨fun c t h => ?_, fun c t h => ?_, fun c t h => ?_⟩
  all_goals obtain ⟨u, hu, rfl⟩ := hget c t h
  · exact hm.parameter c u hu
  · exact hm.free c u hu
  · have hr := hm.regular c u hu
    exact regular_substitute hK.coherent hr (hm.everywhere_spares hr) hm.regular

theorem descends_round (hd : Descends rank gap m) :
    Descends rank (gap + 1) (m.map (·.substitute m)) := by
  intro c t hc d hmen hd'
  rw [get_round] at hc hd'
  rw [Option.isSome_map] at hd'
  obtain ⟨u, hu, rfl⟩ := Option.map_eq_some_iff.1 hc
  rcases arises_of_mentions_substitute hmen with ⟨_, hnone⟩ | ⟨e, s, hue, hes, hsd⟩
  · rw [← m.get_congr (c := ⟨d.key, 0⟩) (d := d) rfl, hnone] at hd'
    contradiction
  · have h₁ := hd c u hu e hue (by rw [hes]; rfl)
    have h₂ := hd e s hes d hsd hd'
    omega

/-- If `σ` solves the next round it solves this one, since values of lower rank may be replaced. -/
theorem solved_of_round (hd : Descends rank gap m) (hm : Admissible K statics m)
    (hσ : Admissible K statics σ) (hdom : ∀ c, (σ.get? c).isSome = (m.get? c).isSome)
    (h : Solved (m.map (·.substitute m)) σ) : Solved m σ := by
  -- by the rank of the classifier: what its value mentions and `m` binds is of lower rank
  have hall : ∀ n c t, rank c.key = n → m.get? c = some t →
      Alike ((Ty.of c).substitute σ) (t.substitute σ) := by
    intro n
    induction n using Nat.strongRecOn with
    | _ n ih =>
      intro c t hn hc
      have hreg := hm.regular c t hc
      have hnext := h c (t.substitute m) (by rw [get_round, hc]; rfl)
      have hcomp := alike_substitute_compose (hm.everywhere_spares hreg)
        (hσ.everywhere_spares hreg) fun d v hv => hσ.everywhere_spares (hm.regular d v hv)
      have hboth : Everywhere (m.compose σ).Spares t :=
        ((hm.everywhere_spares hreg).and (hσ.everywhere_spares hreg)).imp
          fun _ hu => spares_compose hu.1 hu.2
      have hcongr : Alike (t.substitute (m.compose σ)) (t.substitute σ) := by
        refine agree_substitute (Agree.refl t) hboth (hσ.everywhere_spares hreg) fun d hdt => ?_
        rw [Substitution.get_compose]
        cases hv : m.get? d with
        | none => exact optionRel_agree_refl _
        | some s =>
          obtain ⟨u, hu⟩ := Option.isSome_iff_exists.1 ((hdom d).trans (by rw [hv]; rfl))
          have hlt := hd c t hc d ⟨d, hdt, rfl⟩ (by rw [hv]; rfl)
          have hds := ih (rank d.key) (by omega) d s rfl hv
          rw [hu]
          exact Option.Rel.some (Alike.trans hds.symm (of_substitute_bound hu))
      exact Alike.trans hnext (Alike.trans hcomp hcongr)
  exact fun c t hc => hall _ c t rfl hc

/-- A substitution under which its own values do not change solves itself. -/
theorem solved_self (h : ∀ c t, m.get? c = some t → Alike (t.substitute m) t) : Solved m m :=
  fun c t hc => Alike.trans (of_substitute_bound hc) (h c t hc).symm

def Exhausted (m : Substitution) : Prop :=
  ∀ c t, m.get? c = some t → ∀ d ∈ t.classifiers, m.get? d = none

/-- Where no rank is high enough to be above another one, no value mentions what is bound. -/
theorem Descends.exhausted (hd : Descends rank gap m) (hb : ∀ k, rank k ≤ gap) : Exhausted m := by
  intro c t hc d hdt
  cases hv : m.get? d with
  | none => rfl
  | some s =>
    have hlt := hd c t hc d ⟨d, hdt, rfl⟩ (by rw [hv]; rfl)
    have hle := hb c.key
    omega

/-- The closed substitution solves the one it comes from, if there are as many rounds as ranks. -/
theorem close_solved (hK : K.Orderly statics) (hm : Admissible K statics m)
    (hd : Descends rank gap m) (hb : ∀ k, rank k ≤ gap + rounds) :
    Solved m (close rounds m) ∧ Admissible K statics (close rounds m) ∧
      ∀ c, ((close rounds m).get? c).isSome = (m.get? c).isSome := by
  induction rounds generalizing m gap with
  | zero =>
    -- no rank is left below that of a bound classifier, so values mention nothing that is bound
    refine ⟨solved_self fun c t hc => ?_, hm, fun c => rfl⟩
    exact alike_substitute_of_unbound (hm.everywhere_spares (hm.regular c t hc)) (hd.exhausted hb c t hc)
  | succ rounds ih =>
    simp only [close]
    split
    · next hsame =>
      refine ⟨solved_self fun c t hc => ?_, hm, fun c => rfl⟩
      have hrel := get_beq hsame c
      rw [get_round, hc] at hrel
      obtain ⟨u, hu, hbeq⟩ := exists_of_rel_some hrel
      obtain rfl := Option.some.inj hu
      exact Agree.of_beq hbeq
    · obtain ⟨hs, ha, hdom⟩ := ih (admissible_round hK hm) (descends_round hd) (fun k => by
        have := hb k
        omega)
      have hdom' : ∀ c, ((close rounds (m.map (·.substitute m))).get? c).isSome =
          (m.get? c).isSome := fun c => by
        rw [hdom, get_round, Option.isSome_map]
      exact ⟨solved_of_round hd hm ha hdom' hs, ha, hdom'⟩

end Wiring.Fit
