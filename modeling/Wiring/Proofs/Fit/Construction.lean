import Wiring.Proofs.Fit.Idempotent
import Wiring.Proofs.Fit.Values
import Wiring.Proofs.Types.Hierarchy

namespace Wiring.Catalog

open Ty

variable {K : Catalog} {t : Ty}

/-- The supertypes that are declared are well-formed, and type parameters take no arguments. -/
structure WellDeclared (K : Catalog) : Prop where
  supertypes : ∀ c, ∀ s ∈ K.declaredSupertypes c, K.WellFormed s
  parameters : ∀ p, K.isTypeParameter p = true → K.typeParameters p = []

/-- The types that are made of well-formed ones, one operation after the other. -/
inductive Built (K : Catalog) : Ty → Prop
  | given {t : Ty} (h : K.WellFormed t) : Built K t
  | star : Built K .star
  | applied {c : Classifier} {as : List Ty} {t : Ty} (has : ∀ a ∈ as, Built K a)
      (h : K.apply c as = .ok t) : Built K t
  | withTags {t : Ty} {ts : List Ty} (ht : Built K t) (hts : ∀ s ∈ ts, Built K s) :
      Built K (t.withTags ts)
  | tagged {t u : Ty} (ht : Built K t) (hu : Built K u) : Built K (t.tagged u)
  | withoutTags {t : Ty} (cs : List Classifier) (ht : Built K t) : Built K (t.withoutTags cs)
  | withNullability {t : Ty} (nullable : Bool) (ht : Built K t) :
      Built K (t.withNullability nullable)
  | withInstanceKey {t : Ty} (k : Option Nat) (ht : Built K t) : Built K (t.withInstanceKey k)
  | substituted {t : Ty} {m : Substitution} (ht : Built K t) (hm : ∀ b ∈ m.bindings, Built K b.2) :
      Built K (t.substitute m)
  | supertype {t s : Ty} (ht : Built K t) (hs : s ∈ K.supertypes t) : Built K s
  | view {t u : Ty} {c : Classifier} (ht : Built K t) (hu : K.view? t c = some u) : Built K u
  | value {statics : List Classifier} {c r : Ty} {m : Substitution} {b : Classifier × Ty}
      (hc : Built K c) (hr : Built K r) (hm : K.fit statics c r = .ok m) (hb : b ∈ m.bindings) :
      Built K b.2

/-- What the walk makes of well-formed types is well-formed. -/
theorem WellDeclared.kept (hK : K.WellDeclared) :
    Fit.Kept K K.WellFormed fun v => K.typeParameters v = [] where
  argument h := h.arguments
  tag h := h.tags
  withoutTags cs h := h.withoutTags cs
  withoutInstanceKey h := h.withInstanceKey none
  notNull h := h.withNullability false
  view h hu := h.view_of_declared hK.supertypes hu
  substitute h hm := h.substitute hm
  ofVariable h := wellFormed_of h

theorem WellDeclared.wellFormed_value (hK : K.WellDeclared) {statics : List Classifier} {c r : Ty}
    {m : Substitution} {b : Classifier × Ty} (hc : K.WellFormed c) (hr : K.WellFormed r)
    (hm : K.fit statics c r = .ok m) (hb : b ∈ m.bindings) : K.WellFormed b.2 := by
  have hvars : ∀ v ∈ Fit.variablesOf K statics c r, K.typeParameters v = [] := fun v hv =>
    hK.parameters v (Fit.of_mem_variablesOf hv).2.1
  exact hK.kept.fit hvars hc hr hm b.1 b.2 (Fit.get_of_mem_bindings hb)

/-- Whatever is built of well-formed types is well-formed. -/
theorem wellFormed_of_built (hK : K.WellDeclared) (h : K.Built t) : K.WellFormed t := by
  induction h with
  | given h => exact h
  | star => exact wellFormed_star
  | applied _ h has => exact wellFormed_of_apply h has
  | withTags _ _ ht hts => exact ht.withTags hts
  | tagged _ _ ht hu => exact ht.tagged hu
  | withoutTags cs _ ht => exact ht.withoutTags cs
  | withNullability nullable _ ht => exact ht.withNullability nullable
  | withInstanceKey k _ ht => exact ht.withInstanceKey k
  | substituted _ _ ht hm =>
    refine ht.substitute fun c v hc => ?_
    obtain ⟨d, _, hmem⟩ := Fit.mem_of_get hc
    exact hm (d, v) hmem
  | supertype _ hs ht => exact ht.supertypes hK.supertypes _ hs
  | view _ hu ht => exact ht.view_of_declared hK.supertypes hu
  | value _ _ hm hb hc hr => exact hK.wellFormed_value hc hr hm hb

theorem wellDeclared_shelf : Fit.shelf.WellDeclared where
  supertypes c s hs := by
    obtain ⟨rfl, -⟩ := Fit.supertypes_shelf hs
    exact wellFormed_of rfl
  parameters p hp := Fit.orderly_shelf.plain p hp

/-- A box of `T` is named, and `T` gives way to what it stands for in a box of integers. -/
theorem wellFormed_named_box : ∃ t m, Fit.shelf.apply ⟨"Box", 0⟩ [.of ⟨"T", 0⟩] = .ok t ∧
    Fit.shelf.fit [] t (Fit.box "Int") = .ok m ∧
    Fit.shelf.WellFormed ((t.tagged (.of ⟨"Named", 0⟩)).substitute m) := by
  have hbuilt : ∀ key, Fit.shelf.typeParameters ⟨key, 0⟩ = [] →
      Fit.shelf.Built (.of ⟨key, 0⟩) := fun key h => .given (wellFormed_of h)
  have hbox : ∀ key, Fit.shelf.typeParameters ⟨key, 0⟩ = [] → Fit.shelf.Built (Fit.box key) :=
    fun key h => .applied (List.forall_mem_singleton.2 (hbuilt key h)) (c := ⟨"Box", 0⟩) (Eq.refl _)
  have hfit : Fit.shelf.fit [] (Fit.box "T") (Fit.box "Int") =
      .ok (.ofList [(⟨"T", 0⟩, .of ⟨"Int", 0⟩)]) := Eq.refl _
  refine ⟨Fit.box "T", _, Eq.refl _, hfit, ?_⟩
  have hT := hbox "T" rfl
  exact wellFormed_of_built wellDeclared_shelf ((hT.tagged (hbuilt "Named" rfl)).substituted
    fun _ hb => .value hT (hbox "Int" rfl) hfit hb)

end Wiring.Catalog
