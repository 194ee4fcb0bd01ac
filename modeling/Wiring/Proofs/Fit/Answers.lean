import Wiring.Proofs.Fit.Solution
import Wiring.Proofs.Types.Equality

namespace Wiring

open Ty

variable {K : Catalog} {statics statics' : List Classifier} {m : Substitution}
  {c r t t' given : Ty}

def Catalog.Answers (K : Catalog) (statics : List Classifier) (given wanted : Ty) : Prop :=
  ∃ m, K.Admissible statics m ∧ K.isSubtype given (wanted.substitute m) = true

namespace Catalog

theorem admissible_empty : K.Admissible statics .empty :=
  ⟨by simp, by simp, by simp⟩

theorem Admissible.regular_substitute (hm : K.Admissible statics m) (hK : K.Coherent)
    (ht : K.Regular t) : K.Regular (t.substitute m) :=
  Catalog.regular_substitute hK ht (hm.everywhere_spares ht) hm.regular

/-- What matters of the static parameters is which classifiers they contain. -/
theorem Orderly.of_contains (hK : K.Orderly statics)
    (h : ∀ c, statics'.contains c = statics.contains c) : K.Orderly statics' :=
  { hK with
    bounds := fun c hc s hs p hp => by
      rw [h] at hc ⊢
      exact hK.bounds c hc s hs p hp }

theorem Answers.of_contains (ha : K.Answers statics given t)
    (h : ∀ c, statics'.contains c = statics.contains c) : K.Answers statics' given t := by
  obtain ⟨m, hm, hsub⟩ := ha
  refine ⟨m, ⟨hm.parameter, fun c t hc => ?_, hm.regular⟩, hsub⟩
  rw [h]
  exact hm.free c t hc

/-- Equal types are answered by the same types. -/
theorem Answers.of_beq (ha : K.Answers statics given t) (hK : K.Orderly statics)
    (hg : K.Regular given) (ht : K.Regular t) (ht' : K.Regular t') (he : (t == t') = true) :
    K.Answers statics given t' := by
  obtain ⟨m, hm, hsub⟩ := ha
  have hreg := hm.regular_substitute hK.coherent ht
  have hreg' := hm.regular_substitute hK.coherent ht'
  exact ⟨m, hm, isSubtype_of_beq hK hg hreg hreg' (substitute_beq m he) hsub⟩

/-- A type answers itself. -/
theorem answers_self (ht : K.Regular t) : K.Answers statics t t := by
  refine ⟨.empty, admissible_empty, ?_⟩
  rw [substitute_of_isEmpty rfl]
  exact isSubtype_of_compatible (Agree.refl t) ht.distinct ht.distinct

/-- A type without open parameters stays as it is. -/
theorem Admissible.substitute_eq_self (hm : K.Admissible statics m)
    (ht : ∀ p ∈ K.parametersIn t, statics.contains p = true) : t.substitute m = t := by
  refine Ty.substitute_eq_self fun c hc => ?_
  apply hm.get_of_settled
  intro hp
  obtain ⟨p, hpt, hpc⟩ := exists_mem_parametersIn hc hp
  rw [← Ty.contains_congr hpc]
  exact ht p hpt

/-- What answers a type without open parameters is a subtype of it. -/
theorem Answers.isSubtype (ha : K.Answers statics given t)
    (ht : ∀ p ∈ K.parametersIn t, statics.contains p = true) : K.isSubtype given t = true := by
  obtain ⟨m, hm, hsub⟩ := ha
  rwa [hm.substitute_eq_self ht] at hsub

end Catalog

/-- A fit binds open type parameters to regular types, and under it the candidate is a subtype of the
request. -/
theorem Fit.admissible_of_fit (hK : K.Orderly statics) (hc : K.Regular c) (hr : K.Regular r)
    (h : K.fit statics c r = .ok m) :
    K.Admissible statics m ∧ K.isSubtype (c.substitute m) (r.substitute m) = true := by
  obtain ⟨depth, b, hwalk, hsol⟩ := Fit.exists_walk_of_fit h
  obtain ⟨rfl, _⟩ := Fit.of_checkBounds hsol
  obtain ⟨_, hsane, hfits⟩ := Fit.walk_sound hK depth _ _ _ _ _ hwalk hc hr Fit.sane_start
    fun _ hs => Fit.contains_head K statics r hs
  have hsolves := Fit.solves_solution hK hsane (Fit.free_variablesOf hK.coherent statics c r)
  exact ⟨hsolves.admissible, hfits _ hsolves⟩

end Wiring
