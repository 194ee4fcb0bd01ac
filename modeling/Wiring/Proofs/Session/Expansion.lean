import Wiring.Session.Expansion

namespace Wiring

/-- The spread parameter is a type parameter of the declaration, and the bound is declared for it. -/
theorem Declaration.of_spreadConstraint {K : Catalog} {d : Declaration} {parameter : Classifier}
    {bound : Ty} (h : d.spreadConstraint? K = some (parameter, bound)) :
    parameter ∈ d.typeParameters ∧ bound ∈ K.declaredSupertypes parameter := by
  unfold spreadConstraint? at h
  obtain ⟨index, _, h⟩ := Option.bind_eq_some_iff.1 h
  obtain ⟨c, hc, h⟩ := Option.bind_eq_some_iff.1 h
  obtain ⟨s, hs, h⟩ := Option.bind_eq_some_iff.1 h
  cases h
  exact ⟨List.mem_of_getElem? hc, List.mem_of_head? hs⟩

/-- A rule that spreads a candidate has a bound that the candidate fits, and the output is the rule
at the arguments of the fit, with the type of the candidate for the spread parameter. -/
theorem Producer.of_spread {K : Catalog} {statics : List Classifier}
    {rule candidate output : Producer} (h : rule.spread? K statics candidate = some output) :
    ∃ parameter bound m, rule.declaration.spreadConstraint? K = some (parameter, bound) ∧
      (K.fit statics candidate.ty (bound.substitute rule.typeArguments)).toOption = some m ∧
      output = if candidate.chainLength < rule.chainLength then
          (rule.substitute (m.insert parameter candidate.ty)).derived
        else (rule.substitute (m.insert parameter candidate.ty)).derivedFrom candidate := by
  unfold Producer.spread? at h
  obtain ⟨⟨parameter, bound⟩, hb, h⟩ := Option.bind_eq_some_iff.1 h
  obtain ⟨m, hm, h⟩ := Option.bind_eq_some_iff.1 h
  exact ⟨parameter, bound, m, hb, hm, (Option.some.inj h).symm⟩

namespace Expansion

variable {E : Environment} {statics : List Classifier} {P : Producer → Prop}

structure Closed (E : Environment) (statics : List Classifier) (P : Producer → Prop) : Prop where
  -- A property that each step of an expansion keeps.
  keyed : ∀ p n, P p → P (p.withType (p.ty.withInstanceKey n))
  lifted : ∀ p t, P p → E.catalog.liftedResult? p.ty = some t → P (p.lift t)
  members : ∀ p, P p → ∀ q ∈ p.members E, P q
  spread : ∀ rule candidate output, P rule → P candidate →
    rule.spread? E.catalog statics candidate = some output → P output

structure Consists (P : Producer → Prop) (x : Expansion) : Prop where
  -- All producers and rules of an expansion have a property.
  injectables : ∀ p ∈ x.injectables, P p
  spreading : ∀ p ∈ x.spreading, P p

structure Inherits (P : Producer → Prop) (inherited : Inherited) : Prop where
  -- So do those of the scopes around.
  rules : ∀ p ∈ inherited.rules, P p
  candidates : ∀ p ∈ inherited.candidates, P p

theorem foldl_consists {α : Type} {f : Expansion → α → Expansion} {xs : List α} {x : Expansion}
    (hf : ∀ a ∈ xs, ∀ x, Consists P x → Consists P (f x a)) (hx : Consists P x) :
    Consists P (xs.foldl f x) := by
  induction xs generalizing x with
  | nil => exact hx
  | cons a xs ih =>
    apply ih (fun b hb => hf b (List.mem_cons_of_mem a hb))
    exact hf a (List.mem_cons_self ..) x hx

namespace Consists

theorem rule {x : Expansion} {p : Producer} (hx : Consists P x) (hp : P p) :
    Consists P { x with spreading := x.spreading ++ [p] } where
  injectables := hx.injectables
  spreading := List.forall_mem_append.2 ⟨hx.spreading, List.forall_mem_singleton.2 hp⟩

theorem injectable {x : Expansion} {p : Producer} (hx : Consists P x) (hp : P p) (n : Nat) :
    Consists P { x with injectables := x.injectables ++ [p], nextInstanceKey := n } where
  injectables := List.forall_mem_append.2 ⟨hx.injectables, List.forall_mem_singleton.2 hp⟩
  spreading := hx.spreading

theorem collectWithin (hP : Closed E statics P) (steps : Nat) {x : Expansion} {p : Producer}
    (hp : P p) (hx : Consists P x) : Consists P (Expansion.collectWithin E steps p x) := by
  -- on the steps that are left, for any producer and whatever has been collected
  induction steps generalizing p x with
  | zero => exact hx
  | succ steps ih =>
    rw [Expansion.collectWithin]
    split
    · exact hx
    · have hseen : Consists P { x with seen := p.identity :: x.seen } :=
        ⟨hx.injectables, hx.spreading⟩
      dsimp only
      split
      · exact hseen.rule hp
      · -- the producer itself, then what it lifts to, then its members
        have hkeyed := hP.keyed p (some x.nextInstanceKey) hp
        have hown := hseen.injectable hkeyed (x.nextInstanceKey + 1)
        refine foldl_consists (fun q hq x hx => ih (hP.members _ hkeyed q hq) hx) ?_
        split
        · next result hresult => exact ih (hP.lifted _ result hkeyed hresult) hown
        · exact hown

theorem collect (hP : Closed E statics P) {x : Expansion} {p : Producer} (hp : P p)
    (hx : Consists P x) : Consists P (x.collect E p) :=
  hx.collectWithin hP _ hp

/-- Both sides of a pair have the property. -/
theorem pairs {inherited : Inherited} {x : Expansion} (hi : Inherits P inherited)
    (hx : Consists P x) : ∀ pair ∈ x.pairs inherited, P pair.1 ∧ P pair.2 := by
  intro pair hpair
  rcases List.mem_append.1 hpair with h | h
  · -- an own rule meets all candidates, an inherited one only those of this scope
    obtain ⟨rule, hr, h⟩ := List.mem_flatMap.1 h
    obtain ⟨candidate, hc, rfl⟩ := List.mem_map.1 h
    refine ⟨hx.spreading rule hr, ?_⟩
    rcases List.mem_append.1 hc with hc | hc
    · exact hi.candidates candidate hc
    · exact hx.injectables candidate hc
  · obtain ⟨rule, hr, h⟩ := List.mem_flatMap.1 h
    obtain ⟨candidate, hc, rfl⟩ := List.mem_map.1 h
    exact ⟨hi.rules rule hr, hx.injectables candidate hc⟩

theorem apply (hP : Closed E statics P) {outputs : List Producer} {x : Expansion}
    {pair : Producer × Producer} (hr : P pair.1) (hc : P pair.2) (ho : ∀ p ∈ outputs, P p)
    (hx : Consists P x) :
    (∀ p ∈ (Expansion.apply E.catalog statics (outputs, x) pair).1, P p) ∧
      Consists P (Expansion.apply E.catalog statics (outputs, x) pair).2 := by
  obtain ⟨rule, candidate⟩ := pair
  unfold Expansion.apply
  dsimp only
  split
  · exact ⟨ho, hx⟩
  · split
    · next output houtput =>
      have hout := hP.spread rule candidate output hr hc houtput
      exact ⟨List.forall_mem_append.2 ⟨ho, List.forall_mem_singleton.2 hout⟩,
        ⟨hx.injectables, hx.spreading⟩⟩
    · exact ⟨ho, ⟨hx.injectables, hx.spreading⟩⟩

theorem foldl_apply (hP : Closed E statics P) {ps : List (Producer × Producer)}
    {outputs : List Producer} {x : Expansion} (hps : ∀ pair ∈ ps, P pair.1 ∧ P pair.2)
    (ho : ∀ p ∈ outputs, P p) (hx : Consists P x) :
    (∀ p ∈ (ps.foldl (Expansion.apply E.catalog statics) (outputs, x)).1, P p) ∧
      Consists P (ps.foldl (Expansion.apply E.catalog statics) (outputs, x)).2 := by
  induction ps generalizing outputs x with
  | nil => exact ⟨ho, hx⟩
  | cons pair ps ih =>
    obtain ⟨⟨hr, hc⟩, hps⟩ := List.forall_mem_cons.1 hps
    obtain ⟨ho', hx'⟩ := apply hP hr hc ho hx
    exact ih hps ho' hx'

theorem saturate (hP : Closed E statics P) {inherited : Inherited} (rounds : Nat) {x : Expansion}
    (hi : Inherits P inherited) (hx : Consists P x) :
    Consists P (Expansion.saturate E statics inherited rounds x) := by
  induction rounds generalizing x with
  | zero => exact hx
  | succ rounds ih =>
    obtain ⟨ho, hx'⟩ := foldl_apply hP (hx.pairs hi) (List.forall_mem_nil _) hx
    rw [Expansion.saturate]
    dsimp only
    split
    · exact hx'
    · apply ih
      exact foldl_consists (fun p hp x hx => hx.collect hP (ho p hp)) hx'

end Consists

/-- What holds of declarations and of what is inherited holds of all that is collected. -/
theorem consists_ofDeclarations (hP : Closed E statics P) {inherited : Inherited}
    {ds : List Declaration} (hi : Inherits P inherited) (hd : ∀ d ∈ ds, P (.ofDeclaration d))
    (n : Nat) : Consists P (ofDeclarations E statics inherited ds n) := by
  apply Consists.saturate hP _ hi
  refine foldl_consists (fun p hp x hx => hx.collect hP ?_)
    ⟨List.forall_mem_nil _, List.forall_mem_nil _⟩
  obtain ⟨d, hd', rfl⟩ := List.mem_map.1 hp
  exact hd d hd'

end Expansion
end Wiring
