import Wiring.Proofs.Fit.Answers
import Wiring.Proofs.Session.Expansion
import Wiring.Session.Framework

namespace Wiring

open Ty

def Ty.TagsAvoid (cs : List Classifier) (t : Ty) : Prop :=
  t.Everywhere fun t => ∀ tag ∈ t.tags, cs.contains tag.classifier = false

namespace Catalog

variable {K : Catalog} {statics : List Classifier} {m n : Substitution} {t u : Ty} {c : Classifier}
  {d : Declaration} {p q : Producer}

theorem contains_of_mem {cs : List Classifier} (h : c ∈ cs) : cs.contains c = true :=
  List.contains_iff_exists_mem_beq.2 ⟨c, h, BEq.rfl⟩

/-! ### Types -/

theorem regular_withInstanceKey (ht : K.Regular t) (k : Option Nat) :
    K.Regular (t.withInstanceKey k) :=
  Everywhere.node ⟨ht.here.star, ht.here.arity, ht.here.distinct, ht.here.proper⟩
    ht.arguments ht.tags

theorem regular_functionParameters (ht : K.Regular t) :
    ∀ u ∈ K.functionParameters t, K.Regular u := by
  intro u hu
  unfold functionParameters at hu
  split at hu
  · exact ht.arguments u (List.dropLast_subset _ hu)
  · cases hu

theorem regular_functionReturn (ht : K.Regular t) (h : K.functionReturn? t = some u) :
    K.Regular u := by
  unfold functionReturn? at h
  split at h
  · exact ht.arguments u (List.mem_of_getLast? h)
  · cases h

theorem regular_supertypes (hK : K.Orderly statics) (ht : K.Regular t) :
    ∀ s ∈ K.supertypes t, K.Regular s := by
  intro s hs
  cases hstar : t.isStar with
  | true =>
    obtain ⟨head, as, n, ts, k⟩ := t
    cases head with
    | star => cases hs
    | named c => simp [isStar] at hstar
  | false =>
    rw [supertypes_eq hstar] at hs
    obtain ⟨declared, hd, rfl⟩ := List.mem_map.1 hs
    exact regular_above (regular_declared hK ht hd) ht

/-! ### Bindings -/

structure RegularBindings (K : Catalog) (m : Substitution) : Prop where
  -- Type parameters are bound, and to regular types.
  parameter : ∀ c t, m.get? c = some t → K.isTypeParameter c = true
  regular : ∀ c t, m.get? c = some t → K.Regular t

theorem regularBindings_empty : K.RegularBindings .empty :=
  ⟨by simp, by simp⟩

theorem Admissible.bindings (hm : K.Admissible statics m) : K.RegularBindings m :=
  ⟨hm.parameter, hm.regular⟩

structure Takes (K : Catalog) (m : Substitution) (t : Ty) : Prop where
  -- A type that spares its tags may be substituted.
  type : K.Regular t
  spares : t.Everywhere m.Spares
  values : ∀ c v, m.get? c = some v → K.Regular v

theorem Takes.substitute (h : Takes K m t) (hK : K.Coherent) : K.Regular (t.substitute m) :=
  regular_substitute hK h.type h.spares h.values

theorem RegularBindings.takes (hm : K.RegularBindings m) (ht : K.Regular t) : Takes K m t where
  type := ht
  spares := ht.imp fun t ht s hs => by
    cases h : m.get? s.classifier with
    | none => rfl
    | some v =>
      have hp := hm.parameter _ v h
      rw [ht.proper s hs] at hp
      cases hp
  values := hm.regular

theorem RegularBindings.insert (hm : K.RegularBindings m) (hK : K.Coherent)
    (hc : K.isTypeParameter c = true) (ht : K.Regular t) : K.RegularBindings (m.insert c t) := by
  have hget : ∀ d u, (m.insert c t).get? d = some u →
      K.isTypeParameter d = true ∧ K.Regular u := by
    intro d u h
    rw [Substitution.get_insert] at h
    split at h
    · next hd =>
      cases h
      rw [hK.isTypeParameter_eq (Classifier.beq_iff_key_eq.1 hd)]
      exact ⟨hc, ht⟩
    · exact ⟨hm.parameter d u h, hm.regular d u h⟩
  exact ⟨fun d u h => (hget d u h).1, fun d u h => (hget d u h).2⟩

/-- The arguments of a regular type may be put into a regular type whose tags avoid the parameters.
-/
theorem takes_argumentsOf (ht : K.Regular t) (hu : K.Regular u)
    (ha : u.TagsAvoid (K.typeParameters t.classifier)) : Takes K (K.argumentsOf t) u :=
  ⟨hu, spares_argumentsOf ha, regular_of_get_argumentsOf ht⟩

/-! ### Declarations -/

structure RegularDeclaration (K : Catalog) (d : Declaration) : Prop where
  ty : K.Regular d.ty
  parameters : ∀ p ∈ d.parameters, K.Regular p.ty

/-- All that a host says of a program is regular, and tags avoid the parameters of a classifier in
what stands over these. -/
structure RegularHost (K : Catalog) (h : Host) : Prop where
  members : ∀ c, ∀ d ∈ h.membersOf c, RegularDeclaration K d ∧
    d.ty.TagsAvoid (K.typeParameters c) ∧ ∀ p ∈ d.parameters, p.ty.TagsAvoid (K.typeParameters c)
  typeScopes : ∀ c, ∀ d ∈ h.typeScopeDeclarations c, RegularDeclaration K d
  components : ∀ c, ∀ m ∈ h.componentMembers c,
    K.Regular m.ty ∧ m.ty.TagsAvoid (K.typeParameters c)

theorem isTypeParameter_of_isValid (hK : K.Coherent) (hd : d.isValid K = true)
    (hc : d.typeParameters.contains c = true) : K.isTypeParameter c = true := by
  obtain ⟨p, hp, hcp⟩ := List.contains_iff_exists_mem_beq.1 hc
  rw [hK.isTypeParameter_eq (Classifier.beq_iff_key_eq.1 hcp)]
  unfold Declaration.isValid Declaration.validate at hd
  split at hd
  · cases hd
  · next hnone => simpa using List.find?_eq_none.1 hnone p hp

theorem ok_of_toOption {α β : Type} {x : Except α β} {b : β} (h : x.toOption = some b) :
    x = .ok b := by
  cases x with
  | error a => cases h
  | ok b' => exact congrArg Except.ok (Option.some.inj h)

structure RegularProducer (K : Catalog) (p : Producer) : Prop where
  -- The types of a producer are regular, and so is what its declaration binds.
  ty : K.Regular p.ty
  parameters : ∀ x ∈ p.parameterTypes, K.Regular x.2
  typeArguments : K.RegularBindings p.typeArguments
  valid : p.declaration.isValid K = true

theorem RegularDeclaration.producer (h : RegularDeclaration K d) (hd : d.isValid K = true) :
    RegularProducer K (.ofDeclaration d) where
  ty := h.ty
  parameters := List.forall_mem_map.2 h.parameters
  typeArguments := regularBindings_empty
  valid := hd

namespace RegularProducer

theorem ty_substitute (p : Producer) (m : Substitution) :
    (p.substitute m).ty = p.ty.substitute m := by
  unfold Producer.substitute
  split
  · next he => rw [substitute_of_isEmpty he]
  · rfl

/-- A producer stays regular if each of its types may be substituted. -/
theorem substitute_of_takes (h : RegularProducer K p) (hK : K.Coherent) (ht : Takes K m p.ty)
    (hp : ∀ x ∈ p.parameterTypes, Takes K m x.2)
    (ha : ∀ c t, p.typeArguments.get? c = some t → Takes K m t) :
    RegularProducer K (p.substitute m) := by
  unfold Producer.substitute
  split
  · exact h
  · -- what is bound then was bound before, or is bound now; other parameters are dropped
    have hbound : ∀ c t, ((p.typeArguments.compose m).restrict p.declaration.typeParameters).get? c
        = some t → p.declaration.typeParameters.contains c = true ∧ K.Regular t := by
      intro c t hc
      rw [Substitution.get_restrict] at hc
      split at hc
      · next hown =>
        rw [Substitution.get_compose] at hc
        refine ⟨hown, ?_⟩
        rcases Option.or_eq_some_iff.1 hc with hc | ⟨_, hc⟩
        · obtain ⟨v, hv, rfl⟩ := Option.map_eq_some_iff.1 hc
          exact (ha c v hv).substitute hK
        · exact ht.values c t hc
      · cases hc
    refine ⟨ht.substitute hK, ?_, ⟨fun c t hc => ?_, fun c t hc => (hbound c t hc).2⟩, h.valid⟩
    · exact List.forall_mem_map.2 fun x hx => (hp x hx).substitute hK
    · exact isTypeParameter_of_isValid hK h.valid (hbound c t hc).1

theorem substitute (h : RegularProducer K p) (hK : K.Coherent) (hm : K.RegularBindings m) :
    RegularProducer K (p.substitute m) :=
  h.substitute_of_takes hK (hm.takes h.ty) (fun x hx => hm.takes (h.parameters x hx))
    fun c t hc => hm.takes (h.typeArguments.regular c t hc)

theorem withType (h : RegularProducer K p) (ht : K.Regular t) : RegularProducer K (p.withType t) :=
  ⟨ht, h.parameters, h.typeArguments, h.valid⟩

theorem derived (h : RegularProducer K p) : RegularProducer K p.derived :=
  ⟨h.ty, h.parameters, h.typeArguments, h.valid⟩

theorem derivedFrom (h : RegularProducer K p) (q : Producer) : RegularProducer K (p.derivedFrom q) :=
  ⟨h.ty, h.parameters, h.typeArguments, h.valid⟩

theorem lifted (h : RegularProducer K p) (hu : K.liftedResult? p.ty = some u) :
    RegularProducer K (p.lift u) := by
  unfold liftedResult? at hu
  split at hu
  · exact ⟨regular_functionReturn h.ty hu, h.parameters, h.typeArguments, h.valid⟩
  · cases hu

theorem withReceiver (h : RegularProducer K p) (ht : K.Regular t) :
    RegularProducer K (p.withReceiver t) where
  ty := h.ty
  parameters := List.forall_mem_cons.2
    ⟨ht, fun x hx => h.parameters x (List.mem_filter.1 hx).1⟩
  typeArguments := h.typeArguments
  valid := h.valid

theorem members {E : Environment} (h : RegularProducer E.catalog p)
    (hE : RegularHost E.catalog E.host) (hK : E.catalog.Coherent) :
    ∀ q ∈ p.members E, RegularProducer E.catalog q := by
  intro q hq
  unfold Producer.members at hq
  split at hq
  · cases hq
  · obtain ⟨d, hd, rfl⟩ := List.mem_map.1 hq
    obtain ⟨hmem, hvalid⟩ := List.mem_filter.1 hd
    obtain ⟨hreg, hty, hparams⟩ := hE.members _ d hmem
    have hsub : RegularProducer E.catalog
        ((Producer.ofDeclaration d).substitute (E.catalog.argumentsOf p.ty)) := by
      refine (hreg.producer hvalid).substitute_of_takes hK (takes_argumentsOf h.ty hreg.ty hty) ?_ ?_
      · exact List.forall_mem_map.2 fun x hx =>
          takes_argumentsOf h.ty (hreg.parameters x hx) (hparams x hx)
      · exact fun c t hc => by simp [Producer.ofDeclaration] at hc
    exact (hsub.withReceiver h.ty).derivedFrom p

theorem spread {rule candidate output : Producer} (hr : RegularProducer K rule)
    (hc : RegularProducer K candidate) (hK : K.Orderly statics)
    (h : rule.spread? K statics candidate = some output) : RegularProducer K output := by
  obtain ⟨parameter, bound, m, hb, hm, rfl⟩ := Producer.of_spread h
  obtain ⟨hparameter, hbound⟩ := Declaration.of_spreadConstraint hb
  have hparameter := isTypeParameter_of_isValid hK.coherent hr.valid (contains_of_mem hparameter)
  -- the pattern is the bound with what the rule has bound already
  have hpattern := (hr.typeArguments.takes (hK.regular _ bound hbound)).substitute hK.coherent
  have hadm := (Fit.admissible_of_fit hK hc.ty hpattern (ok_of_toOption hm)).1
  have hout := hr.substitute hK.coherent (hadm.bindings.insert hK.coherent hparameter hc.ty)
  split
  · exact hout.derived
  · exact hout.derivedFrom candidate

end RegularProducer

/-- Every step of an expansion keeps producers regular. -/
theorem closed_regularProducer {E : Environment} (hK : E.catalog.Orderly statics)
    (hE : RegularHost E.catalog E.host) :
    Expansion.Closed E statics (RegularProducer E.catalog) where
  keyed _ _ hp := hp.withType (regular_withInstanceKey hp.ty _)
  lifted _ _ hp := hp.lifted
  members _ hp := hp.members hE hK.coherent
  spread _ _ _ hr hc := hr.spread hc hK

/-- A specialized producer is regular and answers the request. -/
theorem RegularProducer.specialize (h : RegularProducer K p) (hK : K.Orderly statics)
    (ht : K.Regular t) (hq : p.specialize? K statics t = some q) :
    RegularProducer K q ∧ K.Answers statics q.ty t := by
  unfold Producer.specialize? at hq
  split at hq
  · cases hq
  · obtain ⟨m, hm, rfl⟩ := Option.map_eq_some_iff.1 hq
    obtain ⟨hadm, hsub⟩ := Fit.admissible_of_fit hK h.ty ht (ok_of_toOption hm)
    refine ⟨h.substitute hK.coherent hadm.bindings, m, hadm, ?_⟩
    rw [ty_substitute]
    exact hsub

/-- What a regular producer adds to a collection has a regular type. -/
theorem RegularProducer.elementType (h : RegularProducer K p) (hK : K.Orderly statics)
    (ht : K.Regular t) (hu : p.elementType? K statics t = some u) : K.Regular u := by
  unfold Producer.elementType? at hu
  obtain ⟨m, hm, rfl⟩ := Option.map_eq_some_iff.1 hu
  have hadm : K.Admissible statics m := by
    -- as one element, or else as a collection of some
    rcases Option.or_eq_some_iff.1 hm with hm | ⟨_, hm⟩
    · exact (Fit.admissible_of_fit hK h.ty ht (ok_of_toOption hm)).1
    · obtain ⟨view, hview, hm⟩ := Option.bind_eq_some_iff.1 hm
      obtain ⟨argument, harg, hm⟩ := Option.bind_eq_some_iff.1 hm
      have hreg : K.Regular view := of_collectionView (fun _ ht => regular_supertypes hK ht) h.ty hview
      have harg := hreg.arguments argument (List.mem_of_head? harg)
      exact (Fit.admissible_of_fit hK harg ht (ok_of_toOption hm)).1
  exact hadm.regular_substitute hK.coherent h.ty

/-! ### Injectables -/

def RegularForm (K : Catalog) : Form → Prop
  | .produced p => RegularProducer K p
  | .collection ty elements => K.Regular ty ∧ ∀ t ∈ elements, K.Regular t
  | .provider ty => K.Regular ty
  | .witness ty => K.Regular ty ∧ ty.arguments.length = 1
  | .component ty members => K.Regular ty ∧ ∀ m ∈ members, K.Regular m.ty

theorem RegularForm.ty {i : Injectable} (h : RegularForm K i.form) : K.Regular i.ty := by
  unfold Injectable.ty
  cases hf : i.form with
  | produced p => rw [hf] at h; exact RegularProducer.ty h
  | collection ty elements => rw [hf] at h; exact h.1
  | provider ty => rw [hf] at h; exact h
  | witness ty => rw [hf] at h; exact h.1
  | component ty members => rw [hf] at h; exact h.1

theorem regular_partRequests {callable : String} {parts : List (String × Ty)}
    (h : ∀ part ∈ parts, K.Regular part.2) :
    ∀ r ∈ Injectable.partRequests callable parts, K.Regular r.ty := by
  intro r hr
  obtain ⟨i, hi, rfl⟩ := List.mem_mapIdx.1 hr
  exact h _ (List.getElem_mem hi)

/-- The dependencies of a regular injectable ask for regular types. -/
theorem regular_dependencies (hK : K.Orderly statics) {i : Injectable}
    (h : RegularForm K i.form) : ∀ r ∈ i.dependencies K, K.Regular r.ty := by
  unfold Injectable.dependencies
  cases hf : i.form with
  | produced p =>
    rw [hf] at h
    exact List.forall_mem_map.2 (RegularProducer.parameters h)
  | collection ty elements =>
    rw [hf] at h
    apply regular_partRequests
    intro part hpart
    obtain ⟨j, hj, rfl⟩ := List.mem_mapIdx.1 hpart
    exact h.2 _ (List.getElem_mem hj)
  | provider ty =>
    have hty : K.Regular ty := by rwa [hf] at h
    apply regular_partRequests
    intro part hpart
    obtain ⟨result, hr, rfl⟩ := List.mem_map.1 hpart
    exact regular_functionReturn hty (Option.mem_toList.1 hr)
  | witness ty =>
    obtain ⟨hty, hl⟩ : K.Regular ty ∧ ty.arguments.length = 1 := by rwa [hf] at h
    apply regular_partRequests
    intro part hpart
    obtain ⟨parameter, hp, rfl⟩ := List.mem_map.1 hpart
    -- the request has the classifier of `ty` and one argument too
    have hparameter : K.Regular (.of parameter) := by
      unfold Injectable.witnessed at hp
      split at hp
      · have hmem := (of_mem_parametersIn (List.mem_filter.1 hp).1).2
        exact regular_of (hK.plain parameter hmem)
      · cases hp
    have hstar : ty.isStar = false := by
      cases hs : ty.isStar with
      | false => rfl
      | true => simp [hty.here.star hs] at hl
    refine Everywhere.node ⟨fun hs => ?_, fun _ => ?_, List.nodup_nil, List.forall_mem_nil _⟩
      (List.forall_mem_singleton.2 hparameter) (List.forall_mem_nil _)
    · exact absurd hs (by rw [show Ty.isStar ⟨ty.head, _, _, _, _⟩ = ty.isStar from rfl, hstar]; simp)
    · exact hl.symm.trans (hty.here.arity hstar)
  | component ty members =>
    rw [hf] at h
    apply regular_partRequests
    exact List.forall_mem_map.2 h.2

end Catalog
end Wiring
