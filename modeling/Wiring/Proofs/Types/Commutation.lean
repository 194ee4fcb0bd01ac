import Wiring.Proofs.Types.Composition
import Wiring.Proofs.Types.Likeness
import Wiring.Proofs.Types.Mentions

namespace Wiring

namespace Ty

variable {a b m : Substitution} {n : Bool} {k : Option Nat} {t u v : Ty} {ts : List Ty}

/-! ### A substitution inside another one -/

/-- If the second one binds nothing that the first one leaves, it is enough to apply it to the
values. -/
theorem substitute_map (ht : Canonical t)
    (hstar : ∀ c v, a.get? c = some v → v.isStar = false)
    (htags : Everywhere (Substitution.SparesAfter a b) t)
    (hv : ∀ c v, a.get? c = some v → b.Spares v)
    (hfree : ∀ c ∈ t.classifiers, a.get? c = none → b.get? c = none) :
    ((t.substitute a).substitute b == t.substitute (a.map (substitute b))) = true := by
  have hget : ∀ c ∈ t.classifiers, (a.map (substitute b)).get? c = (a.compose b).get? c := by
    intro c hc
    rw [Substitution.get_map, Substitution.get_compose]
    cases ha : a.get? c with
    | none => exact (hfree c hc ha).symm
    | some v => rfl
  rw [substitute_congr hget]
  exact substitute_twice ht hstar htags hv

/-- The result spares its tags, those of the type and those that come with a value. -/
theorem spares_substitute_of_after (hs : t.isStar = false) (ht : Substitution.SparesAfter a b t)
    (hv : ∀ c v, a.get? c = some v → b.Spares v) : b.Spares (t.substitute a) := by
  have hmapped : ∀ s ∈ t.tags.map (substitute a), b.get? s.classifier = none :=
    List.forall_mem_map.2 ht
  obtain ⟨head, as, n, ts, k⟩ := t
  cases head with
  | star => cases hs
  | named c =>
    intro s hmem
    cases hc : a.get? c with
    | some v =>
      rw [substitute_bound hc] at hmem
      exact (List.mem_append.1 (mem_of_mem_canonicalTags hmem)).elim (hmapped s) (hv c v hc s)
    | none =>
      rcases substitute_unbound hc with ⟨he, -, hts⟩ | he
      · -- nothing has changed, so each tag is equal to what becomes of it
        rw [he] at hmem
        obtain ⟨s', hmem', hss'⟩ := exists_mem_of_forall₂ (forall₂_of_beq hts) hmem
        rw [b.get_congr (key_of_beq hss')]
        exact hmapped s' hmem'
      · rw [he] at hmem
        exact hmapped s (mem_of_mem_canonicalTags hmem)

def partwise (m : Substitution) (t : Ty) : Ty where
  head := t.head
  arguments := t.arguments.map (substitute m)
  nullable := t.nullable
  tags := canonicalTags (t.tags.map (substitute m))
  instanceKey := t.instanceKey

/-- That is what becomes of a type whose classifier is not bound, which keeps its description. -/
theorem substitute_partwise (hs : t.isStar = false) (ht : Keyed.Sorted key t.tags)
    (h : m.get? t.classifier = none) :
    (t.substitute m == t.partwise m) = true ∧ (t.substitute m).head = (t.partwise m).head := by
  obtain ⟨head, as, n, ts, k⟩ := t
  cases head with
  | star => cases hs
  | named c =>
    have hc : m.get? c = none := h
    refine ⟨substitute_beq_of_unbound as n k hc ht, ?_⟩
    rcases substitute_unbound hc with ⟨he, -⟩ | he
    · rw [he]
      rfl
    · rw [he]
      rfl

theorem placed_canonicalTags : placed n (canonicalTags ts) k v = placed n ts k v := by
  have htags : canonicalTags (canonicalTags ts ++ v.tags) = canonicalTags (ts ++ v.tags) :=
    canonicalTags_ext fun c => by simp only [lookupTag_append, lookupTag_canonicalTags]
  simp only [placed, htags]

/-- A supertype stands at the place of the type below it. -/
theorem above_eq_placed (t sub : Ty) : t.above sub = placed sub.nullable sub.tags none t := rfl

end Ty

namespace Catalog

open Ty

variable {K : Catalog} {m : Substitution} {s t u : Ty}

/-! ### Supertypes -/

/-- Equal types with one and the same description of their classifier have equal supertypes. -/
theorem supertypes_beq (hs : t.isStar = false) (hh : t.head = u.head) (h : (t == u) = true) :
    (K.supertypes t == K.supertypes u) = true := by
  have hu : u.isStar = false := (likeness_beq K).isStar_eq h ▸ hs
  have hc : t.classifier = u.classifier := congrArg Head.classifier hh
  rw [supertypes_eq hs, supertypes_eq hu, argumentsOf_eq hs, argumentsOf_eq hu, hc]
  refine beq_of_forall₂ (forall₂_map_same fun s _ => (likeness_beq K).above ?_ h)
  exact (likeness_beq K).substitute BEq.rfl
    (Substitution.rel_ofArguments _ (parts_of_beq h).arguments)

theorem get_argumentsOf_partwise (hs : t.isStar = false) (c : Classifier) :
    (K.argumentsOf (t.partwise m)).get? c = ((K.argumentsOf t).map (substitute m)).get? c := by
  rw [argumentsOf_eq hs, argumentsOf_eq (t := t.partwise m) hs, Substitution.get_map]
  exact get_ofArguments_map (substitute m) _ t.arguments c

/-- A type with its tags in order, as many arguments as there are parameters and no star among them;
`m` binds neither its classifier nor that of a tag. -/
structure Clear (K : Catalog) (m : Substitution) (t : Ty) : Prop where
  named : t.isStar = false
  canonical : Canonical t
  arity : t.arguments.length = (K.typeParameters t.classifier).length
  solid : ∀ a ∈ t.arguments, a.isStar = false
  unbound : m.get? t.classifier = none
  tags : Everywhere m.Spares t

/-- A supertype, declared for the classifier of `t`, that is not a star. Of the classifiers in it
`m` binds only parameters, and none that is left on a tag when the arguments of `t` are put in. -/
structure ClearAbove (K : Catalog) (m : Substitution) (t s : Ty) : Prop where
  named : s.isStar = false
  canonical : Canonical s
  own : ∀ c ∈ s.classifiers, m.contains c = true → (K.typeParameters t.classifier).contains c = true
  tags : Everywhere (Substitution.SparesAfter (K.argumentsOf t) m) s

/-- With the arguments put in nothing is left of a declared supertype that `m` binds. -/
theorem Clear.get_eq_none (h : K.Clear m t) (hd : K.ClearAbove m t s) {c : Classifier}
    (hc : c ∈ s.classifiers) (ha : (K.argumentsOf t).get? c = none) : m.get? c = none := by
  by_contra hm
  have hbound : m.contains c = true := Option.isSome_iff_ne_none.2 hm
  have hsome := isSome_get_ofArguments h.arity (hd.own c hc hbound)
  rw [← argumentsOf_eq h.named, ha] at hsome
  cases hsome

/-- One declared supertype, seen from the substituted type and from the type itself. -/
theorem Clear.above_substitute (h : K.Clear m t) (hd : K.ClearAbove m t s) :
    ((s.substitute (K.argumentsOf (t.partwise m))).above (t.partwise m) ==
      ((s.substitute (K.argumentsOf t)).above t).substitute m) = true := by
  have hstar : ∀ c v, (K.argumentsOf t).get? c = some v → v.isStar = false := fun c v hv =>
    h.solid v (of_get_argumentsOf hv).1
  have hspares : ∀ c v, (K.argumentsOf t).get? c = some v → m.Spares v := fun c v hv =>
    (h.tags.arguments v (of_get_argumentsOf hv).1).here
  have hinside : ((s.substitute (K.argumentsOf t)).substitute m ==
      s.substitute ((K.argumentsOf t).map (substitute m))) = true :=
    substitute_map hd.canonical hstar hd.tags hspares fun c hc => h.get_eq_none hd hc
  have hplace := placed_substitute (n := t.nullable) (k := none) (isStar_substitute hd.named hstar)
    (spares_substitute_of_after hd.named hd.tags.here hspares) h.tags.here
  -- on both sides the supertype stands at the substituted place of `t`
  have hleft : (s.substitute (K.argumentsOf (t.partwise m))).above (t.partwise m) =
      placed t.nullable (t.tags.map (substitute m)) none
        (s.substitute ((K.argumentsOf t).map (substitute m))) := by
    rw [substitute_congr fun c _ => get_argumentsOf_partwise h.named c, above_eq_placed]
    exact placed_canonicalTags
  rw [hleft, above_eq_placed]
  refine BEq.symm (BEq.trans hplace ?_)
  exact placed_beq hinside (List.forall₂_same.2 fun _ _ => BEq.rfl)

/-- The supertypes of a substituted type are its supertypes with the substitution applied to them,
in the same order. -/
theorem supertypes_substitute (h : K.Clear m t)
    (hd : ∀ s ∈ K.declaredSupertypes t.classifier, K.ClearAbove m t s) :
    (K.supertypes (t.substitute m) == (K.supertypes t).map (substitute m)) = true := by
  obtain ⟨hparts, hhead⟩ := substitute_partwise h.named h.canonical.here h.unbound
  have hnamed : (t.substitute m).isStar = false := (parts_of_unbound h.named h.unbound).1
  refine BEq.trans (supertypes_beq hnamed hhead hparts) ?_
  rw [supertypes_eq (t := t.partwise m) h.named, supertypes_eq h.named, List.map_map]
  exact beq_of_forall₂ (forall₂_map_same fun s hs => h.above_substitute (hd s hs))

/-! ### Where the two sides differ -/

theorem canonical_of_leaves (h : Keyed.Sorted key t.tags)
    (hleaf : ∀ u ∈ t.arguments ++ t.tags, ∃ c, u = .of c) : Canonical t :=
  everywhere_of_leaves t h (fun _ => List.Pairwise.nil) hleaf

theorem spares_of_leaves (h : m.Spares t) (hleaf : ∀ u ∈ t.arguments ++ t.tags, ∃ c, u = .of c) :
    Everywhere m.Spares t :=
  everywhere_of_leaves t h (fun _ => List.forall_mem_nil _) hleaf

/-- A type is clear if its parts are classifiers alone and the rest holds of the type itself. -/
theorem clear_of_leaves (hs : t.isStar = false)
    (hleaf : ∀ u ∈ t.arguments ++ t.tags, ∃ c, u = .of c) (hsorted : Keyed.Sorted key t.tags)
    (harity : t.arguments.length = (K.typeParameters t.classifier).length)
    (hc : m.get? t.classifier = none) (htags : m.Spares t) : K.Clear m t where
  named := hs
  canonical := canonical_of_leaves hsorted hleaf
  arity := harity
  solid a ha := by
    obtain ⟨c, rfl⟩ := hleaf a (List.mem_append_left _ ha)
    rfl
  unbound := hc
  tags := spares_of_leaves htags hleaf

/-- A clear type whose declared supertypes mention no parameters but those of its classifier and
have no tag that `m` binds, and still it makes a difference on which side of them `m` is applied. -/
structure Strays (K : Catalog) (m : Substitution) (t : Ty) : Prop where
  clear : K.Clear m t
  values : ∀ b ∈ m.bindings, b.2.isStar = false
  own : ∀ s ∈ K.declaredSupertypes t.classifier, ∀ p ∈ K.parametersIn s,
    (K.typeParameters t.classifier).contains p = true
  tags : ∀ s ∈ K.declaredSupertypes t.classifier, Everywhere m.Spares s
  differs : (K.supertypes (t.substitute m) == (K.supertypes t).map (substitute m)) = false

def shelters : Catalog where
  entries := [
    ("Aviary", [{
      typeParameters := [⟨"E", 0⟩]
      supertypes := some [{
        head := .named ⟨"House", 0⟩, arguments := [.of ⟨"E", 0⟩], tags := [.of ⟨"Tall", 0⟩] }] }]),
    ("Cage", [{
      typeParameters := [⟨"E", 0⟩]
      supertypes := some [{ head := .named ⟨"Pen", 0⟩, tags := [.of ⟨"E", 0⟩] }] }]),
    ("E", [{ flags := { typeParameter := true } }]),
    ("House", [{ typeParameters := [⟨"E", 0⟩] }]),
    ("Kennel", [{ typeParameters := [⟨"E", 0⟩], supertypes := some [.of ⟨"Shelter", 0⟩] }]),
    ("Kept", [{ typeParameters := [⟨"E", 0⟩] }]),
    ("Leash", [{ supertypes := some [.star] }]),
    ("Shelter", [{}, { flags := { typeParameter := true } }]),
    ("T", [{ flags := { typeParameter := true } }])]

def aviary : Ty where
  head := .named ⟨"Aviary", 0⟩
  arguments := [.of ⟨"T", 0⟩]
  nullable := true
  tags := [.of ⟨"Wild", 0⟩]
  instanceKey := some 3

def smallDogs : Substitution :=
  .ofList [(⟨"T", 0⟩, { head := .named ⟨"Dog", 0⟩, tags := [.of ⟨"Small", 0⟩] }),
    (⟨"E", 0⟩, .of ⟨"Cat", 0⟩)]

/-- Above an aviary of small dogs stands a house of small dogs. -/
theorem aviary_substituted :
    (shelters.supertypes (aviary.substitute smallDogs) ==
      (shelters.supertypes aviary).map (substitute smallDogs)) = true := by
  have hclear : shelters.Clear smallDogs aviary :=
    clear_of_leaves rfl (by simp [aviary]) (List.pairwise_singleton ..) rfl (by decide)
      (List.forall_mem_singleton.2 (by decide))
  refine supertypes_substitute hclear (List.forall_mem_singleton.2 ?_)
  refine ⟨rfl, ?_, ?_, ?_⟩
  · exact canonical_of_leaves (List.pairwise_singleton ..) (by simp)
  · decide
  · exact everywhere_of_leaves _ (List.forall_mem_singleton.2 (by decide))
      (fun _ => List.forall_mem_nil _) (by simp)

def kennel : Ty where
  head := .named ⟨"Kennel", 0⟩
  arguments := [.of ⟨"T", 0⟩]

def wildCage : Ty where
  head := .named ⟨"Cage", 0⟩
  arguments := [.of ⟨"T", 0⟩]
  tags := [.of ⟨"Wild", 0⟩]

def keptLeash : Ty where
  head := .named ⟨"Leash", 0⟩
  tags := [{ head := .named ⟨"Kept", 0⟩, arguments := [.of ⟨"T", 0⟩] }]

/-- A substitution reaches by its key what is declared above a type, a parameter that stands as a
tag gives way before the tags are merged or after it, and a star keeps the tags that it takes over. -/
theorem supertypes_stray :
    shelters.Strays (.ofList [(⟨"T", 0⟩, .of ⟨"Dog", 0⟩), (⟨"Shelter", 1⟩, .of ⟨"Zoo", 0⟩)])
        kennel ∧
      shelters.Strays (.ofList [(⟨"T", 0⟩, { head := .named ⟨"Wild", 0⟩, nullable := true })])
        wildCage ∧
      shelters.Strays (.ofList [(⟨"T", 0⟩, .of ⟨"Dog", 0⟩)]) keptLeash := by
  refine ⟨⟨?_, by decide, by decide, ?_, by decide⟩, ⟨?_, by decide, by decide, ?_, by decide⟩,
    ⟨?_, by decide, by decide, ?_, by decide⟩⟩
  · exact clear_of_leaves rfl (by simp [kennel]) List.Pairwise.nil rfl (by decide)
      (List.forall_mem_nil _)
  · exact List.forall_mem_singleton.2 (spares_of_leaves (List.forall_mem_nil _) (by simp [Ty.of]))
  · exact clear_of_leaves rfl (by simp [wildCage]) (List.pairwise_singleton ..) rfl (by decide)
      (List.forall_mem_singleton.2 (by decide))
  · exact List.forall_mem_singleton.2
      (spares_of_leaves (List.forall_mem_singleton.2 (by decide)) (by simp))
  · -- the tag of the leash has an argument, so the parts are gone through by hand
    have hleaf : ∀ u ∈ [Ty.of ⟨"T", 0⟩] ++ [], ∃ c, u = .of c := by simp
    refine ⟨rfl, Everywhere.node (List.pairwise_singleton ..) (List.forall_mem_nil _) ?_, rfl,
      List.forall_mem_nil _, by decide,
      Everywhere.node (List.forall_mem_singleton.2 (by decide)) (List.forall_mem_nil _) ?_⟩
    · exact List.forall_mem_singleton.2 (canonical_of_leaves List.Pairwise.nil hleaf)
    · exact List.forall_mem_singleton.2 (spares_of_leaves (List.forall_mem_nil _) hleaf)
  · exact List.forall_mem_singleton.2
      (spares_of_leaves (t := .star) (List.forall_mem_nil _) (List.forall_mem_nil _))

end Catalog
end Wiring
