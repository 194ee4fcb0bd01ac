import Wiring.Proofs.Fit.Wrapped
import Wiring.Proofs.Session.Gathering

/-!
Declarations `fun <T> roll(inner: W<…W<T>…>): W<T>`, which ask for something that is wrapped more often
than what they give.
-/
namespace Wiring

open Ty Catalog Session

/-- A declaration of something wrapped that asks for the same thing, wrapped more often. -/
structure Snowball where
  wrapper : Classifier
  parameter : Classifier
  layers : Nat
  declaration : Declaration
  two_le_layers : 2 ≤ layers
  gives : declaration.ty = Ty.wrap wrapper (.of parameter)
  generic : declaration.typeParameters = [parameter]
  asks : ∃ p : Parameter, declaration.parameters = [p] ∧ p.hasDefault = false ∧
    p.ty = (Ty.wrap wrapper)^[layers] (.of parameter)

namespace Snowball

variable {G : Snowball} {K : Catalog} {E : Environment} {S S' : Session} {x X ty : Ty}
  {scope : ScopeId} {scopes enclosing : List ScopeId} {statics : List Classifier}
  {inherited own : List InjectableId} {c : InjectableId} {key : Option Nat}

def stored (G : Snowball) (key : Option Nat) : Producer :=
  (Producer.ofDeclaration G.declaration).withType (G.declaration.ty.withInstanceKey key)

structure Plain (G : Snowball) (K : Catalog) : Prop where
  -- What a catalog has to say of the classifiers: the wrapper is nothing special, and the parameter
  -- is a type parameter without bounds.
  byKey : K.ParametersByKey
  wrapper : ∀ c, c.key = G.wrapper.key → K.flags c = {}
  parameter : K.isTypeParameter G.parameter = true
  unbounded : K.declaredSupertypes G.parameter = []

structure Makes (G : Snowball) (K : Catalog) (p : Producer) (X : Ty) : Prop where
  -- The producer is the declaration, used for `X`.
  declaration : p.declaration = G.declaration
  ground : K.Ground X
  ty : (p.ty.withoutInstanceKey == X.wrap G.wrapper) = true
  asks : ∃ r, Request.parametersOf p = [r] ∧ r.required = true ∧
    (r.ty == (Ty.wrap G.wrapper)^[G.layers] X) = true
  closed : ∀ c t, p.typeArguments.get? c = some t → K.parametersIn t = []

theorem Plain.wrapper_not_parameter (hG : G.Plain K) : K.isTypeParameter G.wrapper = false := by
  rw [isTypeParameter, hG.wrapper _ rfl]

/-! ### The declaration with something for its parameter -/

def taking (G : Snowball) (x : Ty) : Substitution :=
  Substitution.empty.insert G.parameter x.withoutInstanceKey

theorem get_taking_parameter : (G.taking x).get? G.parameter = some x.withoutInstanceKey := by
  rw [taking, Substitution.get_insert, if_pos BEq.rfl]

theorem substitute_taking : (of G.parameter).substitute (G.taking x) = x.standIn :=
  substitute_parameter get_taking_parameter

section Taking

variable (hG : G.Plain K)
include hG

/-- The wrapper is left alone, since it is no type parameter. -/
theorem get_taking_wrapper : (G.taking x).get? G.wrapper = none := by
  have hne : (G.wrapper == G.parameter) = false := by
    refine Bool.eq_false_iff.2 fun hk => ?_
    have hsame := hG.byKey _ _ (Classifier.beq_iff_key_eq.1 hk)
    rw [hG.wrapper_not_parameter, hG.parameter] at hsame
    cases hsame
  rw [taking, Substitution.get_insert, hne]
  rfl

variable (hx : K.Ground x)
include hx

/-- What stands for the parameter does not mention it. -/
theorem parameter_changes : ((of G.parameter).substitute (G.taking x) == of G.parameter) = false := by
  refine Bool.eq_false_iff.2 fun hsame => ?_
  rw [substitute_taking] at hsame
  have hclosed := hx.standIn.closed_of hG.byKey hG.parameter _ (classifier_mem hx.standIn.named)
  rw [contains_congr (c := x.standIn.classifier) (key_of_beq hsame)] at hclosed
  simp [of, classifier, Head.classifier] at hclosed

theorem stored_taking_ty (key : Option Nat) :
    ((G.stored key).substitute (G.taking x)).ty =
      (x.standIn.wrap G.wrapper).withInstanceKey key := by
  have hgiven : (G.stored key).ty = ((of G.parameter).wrap G.wrapper).withInstanceKey key := by
    rw [← G.gives]
    rfl
  rw [← substitute_taking,
    ← substitute_wrap (get_taking_wrapper hG) (parameter_changes hG hx) key, ← hgiven]
  rfl

/-- It asks for `x`, wrapped as often as the declaration says. -/
theorem stored_taking_asks (key : Option Nat) :
    ∃ r, Request.parametersOf ((G.stored key).substitute (G.taking x)) = [r] ∧ r.required = true ∧
      (r.ty == (Ty.wrap G.wrapper)^[G.layers] x.standIn) = true := by
  obtain ⟨p, hp, hdefault, hpty⟩ := G.asks
  have hgiven : (G.stored key).parameterTypes =
      [(p.slot, (Ty.wrap G.wrapper)^[G.layers] (of G.parameter))] := by
    rw [← hpty]
    change G.declaration.parameters.map _ = _
    rw [hp]
    rfl
  have htypes : ((G.stored key).substitute (G.taking x)).parameterTypes =
      [(p.slot, (Ty.wrap G.wrapper)^[G.layers] x.standIn)] := by
    rw [← substitute_taking,
      ← substitute_wraps (get_taking_wrapper hG) (parameter_changes hG hx)]
    change (G.stored key).parameterTypes.map _ = _
    rw [hgiven]
    rfl
  -- the slot is found in the declaration again, where it has no default
  have hdeclared : G.declaration.parameters.find? (·.slot == p.slot) = some p := by
    rw [hp]
    exact List.find?_cons_of_pos BEq.rfl
  rw [Request.parametersOf, htypes, List.map_singleton]
  refine ⟨_, rfl, ?_, BEq.rfl⟩
  change (!(((G.declaration.parameters.find? (·.slot == p.slot)).map _).getD false)) = true
  rw [hdeclared, Option.map_some, Option.getD_some, hdefault]
  rfl

omit hG in
theorem stored_taking_closed {t : Ty} {c : Classifier}
    (h : ((G.stored key).substitute (G.taking x)).typeArguments.get? c = some t) :
    K.parametersIn t = [] := by
  have harguments : ((G.stored key).substitute (G.taking x)).typeArguments =
      (Substitution.empty.compose (G.taking x)).restrict [G.parameter] := by
    rw [← G.generic]
    rfl
  rw [harguments, Substitution.get_restrict, Substitution.get_compose] at h
  split at h
  · rw [Substitution.get_empty, Option.map_none, Option.none_or, taking, Substitution.get_insert] at h
    split at h
    · exact Option.some.inj h ▸ hx.withoutInstanceKey.closed
    · cases h
  · cases h

/-- What becomes of the declaration where a type without type parameters stands for its parameter. -/
theorem makes_substitute (key : Option Nat) :
    G.Makes K ((G.stored key).substitute (G.taking x)) x.standIn where
  declaration := rfl
  ground := hx.standIn
  ty := by
    rw [stored_taking_ty hG hx]
    exact BEq.rfl
  asks := stored_taking_asks hG hx key
  closed _ _ h := stored_taking_closed hx h

end Taking

/-! ### Lookups -/

structure MadeAt (G : Snowball) (K : Catalog) (S : Session) (c : InjectableId) (X : Ty) : Prop where
  -- The use of the declaration for `X`, as an injectable of the session.
  lt : c < S.injectables.size
  made : ∃ owner p, S.injectable c = { owner, form := .produced p } ∧ G.Makes K p X

theorem MadeAt.mono (h : G.MadeAt K S c X) (hS : S.Extends S') : G.MadeAt K S' c X where
  lt := hS.lt_injectables h.lt
  made := by
    rw [hS.injectable c h.lt]
    exact h.made

structure Finds (G : Snowball) (K : Catalog) (S : Session) (scopes : List ScopeId) (ty : Ty)
    (statics : List Classifier) (found : List InjectableId) : Prop where
  -- If nothing is in sight nothing is found, and if the declaration alone is, one use of it is
  -- found for a wrapped type without type parameters.
  nothing : S.visibleIn scopes = [] → found = []
  alone : ∀ owner key X, S.visibleIn scopes = [(owner, G.stored key)] →
    statics.contains G.parameter = false → K.Ground X → (ty == X.wrap G.wrapper) = true →
      ∃ c Z, found = [c] ∧ G.MadeAt K S c Z ∧ (Z == X.standIn) = true

/-- The declaration offers itself for a wrapped type. -/
theorem offer_stored (hG : G.Plain E.catalog) (key : Option Nat)
    (hfree : statics.contains G.parameter = false) (hX : E.catalog.Ground X)
    (ht : (ty == X.wrap G.wrapper) = true) : ∃ p Z,
      offer? E ty statics (G.stored key) = some p ∧ G.Makes E.catalog p Z ∧
        (Z == X.standIn) = true := by
  obtain ⟨v, x, rfl, hv, hx⟩ := exists_wrap_of_beq ht
  have hground := hX.of_beq hG.byKey hx
  have hfit : E.catalog.fit statics (G.stored key).ty (x.wrap v) =
      .ok (G.taking x) := by
    rw [show (G.stored key).ty = (wrap G.wrapper (of G.parameter)).withInstanceKey key by
      rw [← G.gives]; rfl]
    exact Fit.fit_wrap hG.byKey hv (hG.wrapper _ rfl) (hG.wrapper _ hv) hG.parameter hfree
      hG.unbounded hground
  refine ⟨_, x.standIn, ?_, makes_substitute hG hground key, standIn_beq hx⟩
  have hkey : (x.wrap v).instanceKey = none := rfl
  rw [offer?, if_pos (Or.inl hkey), hfit]

theorem Finds.append (hG : G.Plain E.catalog) (h : G.Finds E.catalog S enclosing ty statics inherited)
    (hscopes : ∀ id ∈ scope :: enclosing, id < S.scopes.size) (hS : S.Extends S')
    (hown : Pushed S S' scope own ((S.scope scope).injectables.filterMap (offer? E ty statics))) :
    G.Finds E.catalog S' (scope :: enclosing) ty statics (inherited ++ own) := by
  have hvisible : S'.visibleIn (scope :: enclosing) =
      S.visibleIn enclosing ++ (S.scope scope).injectables.map fun p => (scope, p) := by
    rw [visibleIn_of_grows hS hscopes, visibleIn_cons]
  -- a scope without producers gives nothing
  have hempty : (S.scope scope).injectables = [] → own = [] := by
    intro hnone
    have hforms := hown.forms
    rw [hnone] at hforms
    exact List.forall₂_nil_right_iff.1 hforms
  constructor
  case nothing =>
    intro hnone
    rw [hvisible, List.append_eq_nil_iff, List.map_eq_nil_iff] at hnone
    rw [h.nothing hnone.1, hempty hnone.2]
    rfl
  case alone =>
    intro owner key X honly hfree hX ht
    rw [hvisible, List.append_eq_singleton_iff] at honly
    rcases honly with ⟨houter, hinner⟩ | ⟨houter, hinner⟩
    · obtain ⟨p, hp, hstored⟩ := List.map_eq_singleton_iff.1 hinner
      obtain ⟨rfl, rfl⟩ := Prod.mk.inj hstored
      obtain ⟨q, Z, hoffer, hmakes, hZ⟩ := offer_stored hG key hfree hX ht
      have hforms := hown.forms
      rw [hp, List.filterMap_cons_some hoffer, List.filterMap_nil] at hforms
      obtain ⟨c, _, hform, hnil, rfl⟩ := List.forall₂_cons_right_iff.1 hforms
      cases List.forall₂_nil_right_iff.1 hnil
      rw [h.nothing houter]
      exact ⟨c, Z, rfl, ⟨(hown.places c (List.mem_singleton_self c)).2, _, q, hform, hmakes⟩, hZ⟩
    · obtain ⟨c, Z, rfl, hmade, hZ⟩ := h.alone owner key X houter hfree hX ht
      rw [hempty (List.map_eq_nil_iff.1 hinner)]
      exact ⟨c, Z, rfl, hmade.mono hS, hZ⟩

theorem cumulative_finds (hG : G.Plain E.catalog) : Cumulative E (G.Finds E.catalog) where
  nil := {
    nothing := fun _ => rfl
    alone := fun _ _ _ h => by cases h }
  append h hscopes hS hown := h.append hG hscopes hS hown
  congr h ht hs := {
    nothing := h.nothing
    alone := fun owner key X honly hfree hX hty =>
      h.alone owner key X honly
        (((SameKeys.of_beq hs).contains_eq rfl).symm.trans hfree) hX (BEq.trans (BEq.symm ht) hty) }
  mono h hS hscopes := {
    nothing := fun hnone => h.nothing (visibleIn_of_grows hS hscopes ▸ hnone)
    alone := fun owner key X honly hfree hX ht => by
      rw [visibleIn_of_grows hS hscopes] at honly
      obtain ⟨c, Z, hc, hmade, hZ⟩ := h.alone owner key X honly hfree hX ht
      exact ⟨c, Z, hc, hmade.mono hS, hZ⟩ }

end Snowball
end Wiring
