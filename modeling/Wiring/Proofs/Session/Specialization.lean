import Mathlib.Data.List.Induction
import Wiring.Producer
import Wiring.Proofs.Types.Composition

/-!
The types of a producer are specialized as a whole with each step, and the record is composed and cut
down to the type parameters beside them; the two stay in step as long as nothing else in the types of
the declaration is bound.
-/
namespace Wiring

open Ty

namespace Substitution

variable {m other : Substitution} {c : Classifier}

theorem contains_compose : (m.compose other).contains c = (m.contains c || other.contains c) := by
  simp only [contains, get_compose, Option.isSome_or, Option.isSome_map]

theorem contains_restrict (cs : List Classifier) :
    (m.restrict cs).contains c = (cs.contains c && m.contains c) := by
  rw [contains, get_restrict, contains]
  cases cs.contains c <;> rfl

theorem get_of_not_contains (h : m.contains c = false) : m.get? c = none :=
  Option.not_isSome_iff_eq_none.1 (ne_true_of_eq_false h)

end Substitution

def Declaration.types (d : Declaration) : List Ty :=
  d.ty :: d.parameters.map (·.ty)

/-- Substitutions that a declaration may be specialized by, one after the other: no value is a star, no
classifier of a tag is bound, and of what the types of the declaration mention nothing is bound but its
type parameters. -/
structure Specializes (d : Declaration) (ms : List Substitution) : Prop where
  star : ∀ m ∈ ms, ∀ c v, m.get? c = some v → v.isStar = false
  tags : ∀ t ∈ d.types, Everywhere (fun u => ∀ m ∈ ms, m.Spares u) t
  valueTags : ∀ m ∈ ms, ∀ c v, m.get? c = some v → Everywhere (fun u => ∀ m' ∈ ms, m'.Spares u) v
  own : ∀ t ∈ d.types, ∀ c ∈ t.classifiers, ∀ m ∈ ms, m.contains c = true →
    d.typeParameters.contains c = true

theorem Specializes.init {d : Declaration} {ms : List Substitution} {m : Substitution}
    (h : Specializes d (ms ++ [m])) : Specializes d ms where
  star m' hm' := h.star m' (List.mem_append_left _ hm')
  tags t ht := (h.tags t ht).imp fun _ hspares m' hm' => hspares m' (List.mem_append_left _ hm')
  valueTags m' hm' c v hv := (h.valueTags m' (List.mem_append_left _ hm') c v hv).imp
    fun _ hspares m'' hm'' => hspares m'' (List.mem_append_left _ hm'')
  own t ht c hc m' hm' := h.own t ht c hc m' (List.mem_append_left _ hm')

namespace Producer

variable {d : Declaration} {ms : List Substitution} {m : Substitution} {p : Producer}

structure InStep (d : Declaration) (ms : List Substitution) (p : Producer) : Prop where
  -- The types of a producer, and what it has recorded of the substitutions it was specialized by.
  declaration : p.declaration = d
  ty : (p.ty == d.ty.substitute p.typeArguments) = true
  parameters : List.Forall₂ (fun q parameter =>
    q.1 = parameter.slot ∧ (q.2 == parameter.ty.substitute p.typeArguments) = true)
    p.parameterTypes d.parameters
  bound : ∀ c, p.typeArguments.contains c =
    (d.typeParameters.contains c && ms.any fun m => m.contains c)
  star : ∀ c v, p.typeArguments.get? c = some v → v.isStar = false
  -- What spares the tags of all values so far spares those of the record.
  spared : ∀ b : Substitution,
    (∀ m ∈ ms, ∀ c v, m.get? c = some v → Everywhere b.Spares v) →
      ∀ c v, p.typeArguments.get? c = some v → Everywhere b.Spares v

/-- At first nothing is recorded. -/
theorem substitute_ofDeclaration (d : Declaration) (t : Ty) :
    (t == t.substitute (ofDeclaration d).typeArguments) = true := by
  have hempty : (ofDeclaration d).typeArguments.isEmpty = true := rfl
  rw [substitute_of_isEmpty hempty]
  exact BEq.rfl

theorem inStep_ofDeclaration (d : Declaration) : InStep d [] (ofDeclaration d) where
  declaration := rfl
  ty := substitute_ofDeclaration d d.ty
  parameters := List.forall₂_map_left_iff.2
    (List.forall₂_same.2 fun parameter _ => ⟨rfl, substitute_ofDeclaration d parameter.ty⟩)
  bound c := by
    rw [List.any_nil, Bool.and_false]
    rfl
  star _ _ h := by cases h
  spared _ _ _ _ h := by cases h

/-- A type of the declaration at what is recorded, specialized once more, is that type at what is
recorded then. -/
theorem InStep.specialize (h : InStep d ms p) (hs : Specializes d (ms ++ [m])) {t u : Ty}
    (ht : t ∈ d.types) (hcanonical : Canonical t)
    (hu : (u == t.substitute p.typeArguments) = true) :
    (u.substitute m ==
      t.substitute ((p.typeArguments.compose m).restrict d.typeParameters)) = true := by
  have hm : m ∈ ms ++ [m] := List.mem_append_right _ (List.mem_singleton_self m)
  have hunbound : ∀ c, (∀ m' ∈ ms, m'.contains c = false) → p.typeArguments.get? c = none := by
    intro c hc
    apply Substitution.get_of_not_contains
    rw [h.bound, List.any_eq_false.2 fun m' hm' => ne_true_of_eq_false (hc m' hm'), Bool.and_false]
  have hspared : Everywhere p.typeArguments.Spares t := (hs.tags t ht).imp fun _ hspares s hmem =>
    hunbound _ fun m' hm' => by
      rw [Substitution.contains, hspares m' (List.mem_append_left _ hm') s hmem]
      rfl
  have hvalues : ∀ c v, p.typeArguments.get? c = some v → Everywhere m.Spares v :=
    h.spared m fun m' hm' c v hv =>
      (hs.valueTags m' (List.mem_append_left _ hm') c v hv).imp fun _ hspares => hspares m hm
  have htags : Everywhere (p.typeArguments.SparesAfter m) t :=
    everywhere_sparesAfter hspared ((hs.tags t ht).imp fun _ hspares => hspares m hm)
  have hcompose := substitute_twice hcanonical h.star htags fun c v hv => (hvalues c v hv).here
  -- what the restriction drops does not occur in the type
  have hrestrict : t.substitute (p.typeArguments.compose m) =
      t.substitute ((p.typeArguments.compose m).restrict d.typeParameters) := by
    refine substitute_congr fun c hc => ?_
    rw [Substitution.get_restrict]
    split
    · rfl
    · next hforeign =>
      have hnone : ∀ m' ∈ ms ++ [m], m'.contains c = false := fun m' hm' =>
        Bool.eq_false_iff.2 fun hbound => hforeign (hs.own t ht c hc m' hm' hbound)
      rw [Substitution.get_compose,
        hunbound c fun m' hm' => hnone m' (List.mem_append_left _ hm'),
        Substitution.get_of_not_contains (hnone m hm)]
      rfl
  rw [← hrestrict]
  exact BEq.trans (substitute_beq m hu) hcompose

/-- One more substitution keeps the types and the record in step. -/
theorem InStep.substitute (h : InStep d ms p) (hs : Specializes d (ms ++ [m]))
    (hcanonical : ∀ t ∈ d.types, Canonical t) : InStep d (ms ++ [m]) (p.substitute m) := by
  have hany : ∀ c, (ms ++ [m]).any (fun m => m.contains c) =
      (ms.any (fun m => m.contains c) || m.contains c) := fun c => by
    rw [List.any_append, List.any_cons, List.any_nil, Bool.or_false]
  cases hempty : m.isEmpty with
  | true =>
    have hnone : ∀ c, m.contains c = false := fun c => by
      rw [Substitution.contains, Substitution.get?, List.isEmpty_iff.1 hempty]
      rfl
    rw [Producer.substitute, if_pos hempty]
    refine { h with bound := fun c => ?_, spared := fun b hb => h.spared b fun m' hm' => ?_ }
    · rw [hany, hnone, Bool.or_false, h.bound]
    · exact hb m' (List.mem_append_left _ hm')
  | false =>
    have hm : m ∈ ms ++ [m] := List.mem_append_right _ (List.mem_singleton_self m)
    -- a recorded value is a value from before, specialized once more, or a new one
    have hvalue : ∀ c v, ((p.typeArguments.compose m).restrict d.typeParameters).get? c = some v →
        (∃ w, p.typeArguments.get? c = some w ∧ w.substitute m = v) ∨ m.get? c = some v := by
      intro c v hv
      rw [Substitution.get_restrict] at hv
      split at hv
      · rw [Substitution.get_compose] at hv
        rcases Option.or_eq_some_iff.1 hv with hv | ⟨_, hv⟩
        · exact Or.inl (Option.map_eq_some_iff.1 hv)
        · exact Or.inr hv
      · cases hv
    rw [Producer.substitute, if_neg (ne_true_of_eq_false hempty), h.declaration]
    refine ⟨rfl, ?_, ?_, fun c => ?_, fun c v hv => ?_, fun b hb c v hv => ?_⟩
    · exact h.specialize hs (List.mem_cons_self ..) (hcanonical _ (List.mem_cons_self ..)) h.ty
    · refine List.forall₂_map_left_iff.2 (forall₂_imp_of_mem h.parameters ?_)
      rintro q - parameter hmem ⟨hslot, hty⟩
      have ht : parameter.ty ∈ d.types := List.mem_cons_of_mem _ (List.mem_map_of_mem hmem)
      exact ⟨hslot, h.specialize hs ht (hcanonical _ ht) hty⟩
    · rw [hany, Substitution.contains_restrict, Substitution.contains_compose, h.bound]
      cases d.typeParameters.contains c <;> rfl
    · rcases hvalue c v hv with ⟨w, hw, rfl⟩ | hv
      · exact isStar_substitute (h.star c w hw) (hs.star m hm)
      · exact hs.star m hm c v hv
    · rcases hvalue c v hv with ⟨w, hw, rfl⟩ | hv
      · have hspared : Everywhere m.Spares w := h.spared m (fun m' hm' c v hv =>
          (hs.valueTags m' (List.mem_append_left _ hm') c v hv).imp fun _ hspares => hspares m hm)
          c w hw
        exact everywhere_spares_substitute hspared
          (h.spared b (fun m' hm' => hb m' (List.mem_append_left _ hm')) c w hw) (hb m hm)
      · exact hb m hm c v hv

/-- So they stay in step over any number of substitutions. -/
theorem inStep_foldl (hs : Specializes d ms) (hcanonical : ∀ t ∈ d.types, Canonical t) :
    InStep d ms (ms.foldl Producer.substitute (ofDeclaration d)) := by
  induction ms using List.reverseRecOn with
  | nil => exact inStep_ofDeclaration d
  | append_singleton ms m ih =>
    rw [List.foldl_append, List.foldl_cons, List.foldl_nil]
    exact (ih hs.init).substitute hs hcanonical

/-- A producer that is specialized step by step is its declaration at the type arguments that it has
recorded, in the type that it gives and in those that it needs. Recorded are the type parameters of the
declaration that a step has bound, and all others count as unbound, in the order of the declaration. -/
theorem substitute_typeArguments (hs : Specializes d ms)
    (hcanonical : ∀ t ∈ d.types, Canonical t) :
    let p := ms.foldl Producer.substitute (ofDeclaration d)
    (p.ty == d.ty.substitute p.typeArguments) = true ∧
      List.Forall₂ (fun q parameter =>
        q.1 = parameter.slot ∧ (q.2 == parameter.ty.substitute p.typeArguments) = true)
        p.parameterTypes d.parameters ∧
      (∀ c, p.typeArguments.contains c =
        (d.typeParameters.contains c && ms.any fun m => m.contains c)) ∧
      p.unbound = d.typeParameters.filter fun c => !ms.any fun m => m.contains c := by
  have h := inStep_foldl hs hcanonical
  refine ⟨h.ty, h.parameters, h.bound, ?_⟩
  rw [unbound, h.declaration]
  refine List.filter_congr fun c hc => ?_
  rw [h.bound, List.contains_iff_exists_mem_beq.2 ⟨c, hc, BEq.rfl⟩, Bool.true_and]

/-! ### Boxes -/

def boxing : Declaration where
  id := "boxing"
  ty := { head := .named ⟨"Box", 0⟩, arguments := [.of ⟨"T", 0⟩] }
  parameters := [{ name := "content", slot := .value 0, ty := .of ⟨"T", 0⟩ }]
  typeParameters := [⟨"T", 0⟩, ⟨"S", 0⟩]

def boxSteps : List Substitution := [
  .ofList [(⟨"T", 0⟩, { head := .named ⟨"List", 0⟩, arguments := [.of ⟨"U", 0⟩] })],
  .ofList [(⟨"U", 0⟩, .of ⟨"Int", 0⟩)]]

theorem boxing_specialized :
    let p := boxSteps.foldl Producer.substitute (ofDeclaration boxing)
    (p.ty == boxing.ty.substitute p.typeArguments) = true ∧ p.unbound = [⟨"S", 0⟩] := by
  -- no type has tags, and of what the types of the declaration mention only `T` is bound
  have huntagged : ∀ {P : Ty → Prop}, (∀ t : Ty, t.tags = [] → P t) →
      ∀ t : Ty, t.tags = [] → (∀ u ∈ t.arguments, ∃ c, u = .of c) → Everywhere P t := by
    intro P hP t ht hleaf
    refine everywhere_of_leaves t (hP t ht) (fun c => hP _ rfl) ?_
    rw [ht, List.append_nil]
    exact hleaf
  have htypes : ∀ t ∈ boxing.types, t.tags = [] ∧ ∀ u ∈ t.arguments, ∃ c, u = .of c := by
    simp [boxing, Declaration.types, Ty.of]
  have hvalues : ∀ m ∈ boxSteps, ∀ c v, m.get? c = some v →
      v.isStar = false ∧ v.tags = [] ∧ ∀ u ∈ v.arguments, ∃ c, u = .of c := by
    simp only [boxSteps, List.forall_mem_cons, Substitution.ofList, List.foldl,
      Substitution.get_insert]
    refine ⟨fun c v h => ?_, fun c v h => ?_, List.forall_mem_nil _⟩
    all_goals
      split at h
      · cases h
        simp [isStar, Ty.of]
      · cases h
  have hspares : ∀ t : Ty, t.tags = [] → ∀ m ∈ boxSteps, m.Spares t := fun t ht m _ => by
    rw [Substitution.Spares, ht]
    exact List.forall_mem_nil _
  have hs : Specializes boxing boxSteps := {
    star := fun m hm c v hv => (hvalues m hm c v hv).1
    tags := fun t ht => huntagged hspares t (htypes t ht).1 (htypes t ht).2
    valueTags := fun m hm c v hv => huntagged hspares v (hvalues m hm c v hv).2.1
      (hvalues m hm c v hv).2.2
    own := by decide }
  have hcanonical : ∀ t ∈ boxing.types, Canonical t := fun t ht =>
    huntagged (fun u hu => by rw [hu]; exact List.Pairwise.nil) t (htypes t ht).1 (htypes t ht).2
  obtain ⟨hty, _, _, hunbound⟩ := substitute_typeArguments hs hcanonical
  exact ⟨hty, hunbound⟩

def homonyms : Catalog :=
  ⟨[("Foo", [{}, { flags := { typeParameter := true } }]), ("Bar", [{}])]⟩

def classFoo : Declaration where
  id := "foo"
  ty := .of ⟨"Foo", 0⟩

def parameterFoo : Substitution :=
  .ofList [(⟨"Foo", 1⟩, .of ⟨"Bar", 0⟩)]

/-- The declaration mentions no type parameter and the substitution binds nothing else. But classifiers
are looked up by their keys, so the type becomes a `Bar`, of which the record says nothing. -/
theorem homonym_not_recorded :
    (∀ t ∈ classFoo.types, ∀ c ∈ t.classifiers, homonyms.isTypeParameter c = false) ∧
      (∀ b ∈ parameterFoo.bindings, homonyms.isTypeParameter b.1 = true ∧ b.2.isStar = false ∧
        b.2.tags = [] ∧ b.2.arguments = []) ∧
      (∀ t ∈ classFoo.types, t.tags = [] ∧ t.arguments = []) ∧
      (((ofDeclaration classFoo).substitute parameterFoo).ty ==
        classFoo.ty.substitute ((ofDeclaration classFoo).substitute parameterFoo).typeArguments) =
          false := by
  decide

end Producer
end Wiring
