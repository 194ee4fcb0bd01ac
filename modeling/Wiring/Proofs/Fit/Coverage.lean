import Wiring.Proofs.Fit.Values
import Wiring.Proofs.Types.Vocabulary

namespace Wiring.Fit

open Ty Catalog Vocabulary

variable {K : Catalog} {V : Vocabulary} {statics : List Classifier} {c r : Ty}

/-- A view mentions what the catalog declares, besides what the candidate does. -/
theorem kept_covers (hK : V.Describes K) : Kept K V.Covers fun v => V.classifier v.key where
  argument h := h.arguments
  tag h := h.tags
  withoutTags cs h := h.withoutTags cs
  withoutInstanceKey h := h.withoutInstanceKey
  notNull h := h.withNullability false
  view h hu := h.view hK hu
  substitute h hm := h.substitute hm
  ofVariable h := covers_of h

theorem covers_variablesOf (hc : V.Covers c) (hr : V.Covers r) :
    ∀ v ∈ variablesOf K statics c r, V.classifier v.key := by
  intro v hv
  rcases (of_mem_variablesOf hv).1 with h | h
  · exact hc.parametersIn v h
  · exact hr.parametersIn v h

theorem fit_binds {m : Substitution} (hK : V.Describes K) (hc : V.Covers c) (hr : V.Covers r)
    (h : (K.fit statics c r).toOption = some m) : V.Binds m := by
  have hfit : K.fit statics c r = .ok m := by
    cases hf : K.fit statics c r with
    | error reason =>
      rw [hf] at h
      cases h
    | ok m' =>
      rw [hf] at h
      exact congrArg Except.ok (Option.some.inj h)
  exact (kept_covers hK).fit (covers_variablesOf hc hr) hc hr hfit

end Wiring.Fit
