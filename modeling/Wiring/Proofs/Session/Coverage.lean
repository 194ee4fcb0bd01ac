import Wiring.Proofs.Fit.Coverage
import Wiring.Session.Framework
import Wiring.Proofs.Session.Expansion

namespace Wiring.Vocabulary

variable {V W : Vocabulary} {E : Environment} {K : Catalog} {d : Declaration} {p q : Producer}
  {m : Substitution} {t u : Ty} {statics : List Classifier}

structure CoversDeclaration (V : Vocabulary) (d : Declaration) : Prop where
  -- The types of a declaration are covered, and it is known if it has parameters.
  ty : V.Covers d.ty
  parameters : ∀ p ∈ d.parameters, V.Covers p.ty
  known : d.parameters ≠ [] → V.declaration d.id

structure CoversProducer (V : Vocabulary) (p : Producer) : Prop where
  -- The types and type arguments of a producer are covered, and its declaration is known if it has
  -- parameters.
  ty : V.Covers p.ty
  parameters : ∀ x ∈ p.parameterTypes, V.Covers x.2
  typeArguments : V.Binds p.typeArguments
  known : p.parameterTypes ≠ [] → V.declaration p.id

structure CoversHost (V : Vocabulary) (h : Host) : Prop where
  -- All that a host says of a program is covered. Members are known in any case, since each of them
  -- gets a receiver.
  members : ∀ c, ∀ d ∈ h.membersOf c, V.CoversDeclaration d ∧ V.declaration d.id
  typeScopes : ∀ c, ∀ d ∈ h.typeScopeDeclarations c, V.CoversDeclaration d
  components : ∀ c, ∀ m ∈ h.componentMembers c, V.Covers m.ty

structure Speaks (V : Vocabulary) (E : Environment) : Prop where
  -- The vocabulary of a session with the given catalog and host.
  catalog : V.Describes E.catalog
  host : V.CoversHost E.host

def CoversForm (V : Vocabulary) : Form → Prop
  | .produced p => V.CoversProducer p
  | .collection ty elements => V.Covers ty ∧ V.CoversAll elements
  | .provider ty => V.Covers ty
  | .witness ty => V.Covers ty
  | .component ty members => V.Covers ty ∧ ∀ m ∈ members, V.Covers m.ty

/-! ### Producers -/

theorem id_substitute (p : Producer) (m : Substitution) : (p.substitute m).id = p.id := by
  unfold Producer.substitute
  split <;> rfl

theorem CoversDeclaration.producer (h : V.CoversDeclaration d) :
    V.CoversProducer (.ofDeclaration d) where
  ty := h.ty
  parameters := List.forall_mem_map.2 h.parameters
  typeArguments := binds_empty
  known hne := h.known fun he => hne (by rw [Producer.ofDeclaration, he]; rfl)

namespace CoversProducer

theorem substitute (h : V.CoversProducer p) (hm : V.Binds m) :
    V.CoversProducer (p.substitute m) := by
  unfold Producer.substitute
  split
  · exact h
  · refine ⟨h.ty.substitute hm, ?_, (h.typeArguments.compose hm).restrict _, fun hne => ?_⟩
    · exact List.forall_mem_map.2 fun x hx => (h.parameters x hx).substitute hm
    · exact h.known fun he => hne (by rw [he]; rfl)

theorem withType (h : V.CoversProducer p) (ht : V.Covers t) : V.CoversProducer (p.withType t) :=
  ⟨ht, h.parameters, h.typeArguments, h.known⟩

theorem derived (h : V.CoversProducer p) : V.CoversProducer p.derived :=
  ⟨h.ty, h.parameters, h.typeArguments, h.known⟩

theorem derivedFrom (h : V.CoversProducer p) (q : Producer) : V.CoversProducer (p.derivedFrom q) :=
  ⟨h.ty, h.parameters, h.typeArguments, h.known⟩

theorem lift (h : V.CoversProducer p) (ht : V.Covers t) : V.CoversProducer (p.lift t) :=
  ⟨ht, h.parameters, h.typeArguments, h.known⟩

theorem withReceiver (h : V.CoversProducer p) (ht : V.Covers t) (hk : V.declaration p.id) :
    V.CoversProducer (p.withReceiver t) where
  ty := h.ty
  parameters := List.forall_mem_cons.2
    ⟨ht, fun x hx => h.parameters x (List.mem_filter.1 hx).1⟩
  typeArguments := h.typeArguments
  known _ := hk

theorem specialize (h : V.CoversProducer p) (hK : V.Describes K) (ht : V.Covers t)
    (hq : p.specialize? K statics t = some q) : V.CoversProducer q := by
  unfold Producer.specialize? at hq
  split at hq
  · cases hq
  · obtain ⟨m, hm, rfl⟩ := Option.map_eq_some_iff.1 hq
    exact h.substitute (Fit.fit_binds hK h.ty ht hm)

theorem elementType (h : V.CoversProducer p) (hK : V.Describes K) (ht : V.Covers t)
    (hu : p.elementType? K statics t = some u) : V.Covers u := by
  unfold Producer.elementType? at hu
  obtain ⟨m, hm, rfl⟩ := Option.map_eq_some_iff.1 hu
  apply h.ty.substitute
  rcases Option.or_eq_some_iff.1 hm with hm | ⟨_, hm⟩
  · exact Fit.fit_binds hK h.ty ht hm
  · obtain ⟨view, hview, hm⟩ := Option.bind_eq_some_iff.1 hm
    obtain ⟨argument, ha, hm⟩ := Option.bind_eq_some_iff.1 hm
    have harg := (h.ty.collectionView hK hview).arguments argument (List.mem_of_head? ha)
    exact Fit.fit_binds hK harg ht hm

theorem lifted (h : V.CoversProducer p) (hu : K.liftedResult? p.ty = some u) :
    V.CoversProducer (p.lift u) := by
  unfold Catalog.liftedResult? at hu
  split at hu
  · exact h.lift (h.ty.functionReturn hu)
  · cases hu

theorem members (h : V.CoversProducer p) (hE : V.Speaks E) :
    ∀ q ∈ p.members E, V.CoversProducer q := by
  intro q hq
  unfold Producer.members at hq
  split at hq
  · cases hq
  · obtain ⟨d, hd, rfl⟩ := List.mem_map.1 hq
    obtain ⟨hd, hk⟩ := hE.host.members _ d (List.mem_filter.1 hd).1
    have hsub := hd.producer.substitute (h.ty.argumentsOf (K := E.catalog))
    exact (hsub.withReceiver h.ty (by rwa [id_substitute])).derivedFrom p

theorem spread {rule candidate output : Producer} (hr : V.CoversProducer rule)
    (hc : V.CoversProducer candidate) (hK : V.Describes K)
    (h : rule.spread? K statics candidate = some output) : V.CoversProducer output := by
  obtain ⟨parameter, bound, m, hb, hm, rfl⟩ := Producer.of_spread h
  have hbound := hK _ bound (Declaration.of_spreadConstraint hb).2
  have hbinds := Fit.fit_binds hK hc.ty (hbound.substitute hr.typeArguments) hm
  have hout := hr.substitute (hbinds.insert hc.ty (c := parameter))
  split
  · exact hout.derived
  · exact hout.derivedFrom candidate

end CoversProducer

/-! ### Expansion -/

structure CoversExpansion (V : Vocabulary) (x : Expansion) : Prop where
  -- All producers and rules of an expansion are covered.
  injectables : ∀ p ∈ x.injectables, V.CoversProducer p
  spreading : ∀ p ∈ x.spreading, V.CoversProducer p

structure CoversInherited (V : Vocabulary) (inherited : Expansion.Inherited) : Prop where
  rules : ∀ p ∈ inherited.rules, V.CoversProducer p
  candidates : ∀ p ∈ inherited.candidates, V.CoversProducer p

/-- Every step of an expansion stays within the vocabulary. -/
theorem closed_coversProducer (hE : V.Speaks E) (statics : List Classifier) :
    Expansion.Closed E statics V.CoversProducer where
  keyed _ _ hp := hp.withType (hp.ty.withInstanceKey _)
  lifted _ _ hp := hp.lifted
  members _ hp := hp.members hE
  spread _ _ _ hr hc := hr.spread hc hE.catalog

theorem CoversExpansion.ofDeclarations (statics : List Classifier)
    {inherited : Expansion.Inherited} {ds : List Declaration} (hE : V.Speaks E)
    (hi : V.CoversInherited inherited) (hd : ∀ d ∈ ds, V.CoversDeclaration d) (n : Nat) :
    V.CoversExpansion (Expansion.ofDeclarations E statics inherited ds n) := by
  have h := Expansion.consists_ofDeclarations (closed_coversProducer hE statics)
    ⟨hi.rules, hi.candidates⟩ (fun d hmem => (hd d hmem).producer) n
  exact ⟨h.injectables, h.spreading⟩

/-! ### Injectables -/

theorem covers_partRequests {callable : String} {parts : List (String × Ty)}
    (h : ∀ part ∈ parts, V.Covers part.2) :
    ∀ r ∈ Injectable.partRequests callable parts, V.Covers r.ty := by
  intro r hr
  obtain ⟨i, hi, rfl⟩ := List.mem_mapIdx.1 hr
  exact h _ (List.getElem_mem hi)

theorem covers_parametersOf (h : V.CoversProducer p) :
    ∀ r ∈ Request.parametersOf p, V.Covers r.ty :=
  List.forall_mem_map.2 h.parameters

/-- The dependencies of a covered injectable ask for covered types. -/
theorem covers_dependencies {i : Injectable} (h : V.CoversForm i.form) :
    ∀ r ∈ i.dependencies K, V.Covers r.ty := by
  unfold Injectable.dependencies
  cases hf : i.form with
  | produced p =>
    rw [hf] at h
    exact covers_parametersOf h
  | collection ty elements =>
    rw [hf] at h
    apply covers_partRequests
    intro part hpart
    obtain ⟨j, hj, rfl⟩ := List.mem_mapIdx.1 hpart
    exact h.2 _ (List.getElem_mem hj)
  | provider ty =>
    rw [hf] at h
    apply covers_partRequests
    intro part hpart
    obtain ⟨result, hr, rfl⟩ := List.mem_map.1 hpart
    exact Covers.functionReturn h (Option.mem_toList.1 hr)
  | witness ty =>
    have hty : V.Covers ty := by rwa [hf] at h
    apply covers_partRequests
    intro part hpart
    obtain ⟨parameter, hp, rfl⟩ := List.mem_map.1 hpart
    refine hty.of_head rfl (List.forall_mem_singleton.2 (covers_of ?_)) (List.forall_mem_nil _)
    -- a witness needs one for each parameter in its argument
    unfold Injectable.witnessed at hp
    split at hp
    · next argument ha =>
      have harg : V.Covers argument := hty.arguments argument (List.mem_of_head? ha)
      exact harg.parametersIn parameter (List.mem_filter.1 hp).1
    · cases hp
  | component ty members =>
    rw [hf] at h
    apply covers_partRequests
    exact List.forall_mem_map.2 h.2

/-! ### Larger vocabularies -/

theorem CoversProducer.mono (h : V.CoversProducer p) (hVW : V.Within W) : W.CoversProducer p where
  ty := h.ty.mono hVW
  parameters x hx := (h.parameters x hx).mono hVW
  typeArguments := h.typeArguments.mono hVW
  known hne := hVW.declaration _ (h.known hne)

theorem CoversDeclaration.mono (h : V.CoversDeclaration d) (hVW : V.Within W) :
    W.CoversDeclaration d where
  ty := h.ty.mono hVW
  parameters x hx := (h.parameters x hx).mono hVW
  known hne := hVW.declaration _ (h.known hne)

theorem CoversForm.mono {form : Form} (h : V.CoversForm form) (hVW : V.Within W) :
    W.CoversForm form := by
  cases form with
  | produced p => exact CoversProducer.mono h hVW
  | collection ty elements => exact ⟨h.1.mono hVW, fun t ht => (h.2 t ht).mono hVW⟩
  | provider ty => exact Covers.mono h hVW
  | witness ty => exact Covers.mono h hVW
  | component ty members => exact ⟨h.1.mono hVW, fun m hm => (h.2 m hm).mono hVW⟩

theorem CoversHost.mono {h : Host} (hV : V.CoversHost h) (hVW : V.Within W) :
    W.CoversHost h where
  members c d hd := ⟨(hV.members c d hd).1.mono hVW, hVW.declaration _ (hV.members c d hd).2⟩
  typeScopes c d hd := (hV.typeScopes c d hd).mono hVW
  components c m hm := (hV.components c m hm).mono hVW

theorem Speaks.mono (h : V.Speaks E) (hVW : V.Within W) : W.Speaks E where
  catalog c s hs := (h.catalog c s hs).mono hVW
  host := h.host.mono hVW

end Wiring.Vocabulary
