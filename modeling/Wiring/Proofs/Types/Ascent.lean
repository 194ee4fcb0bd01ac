import Wiring.Proofs.Types.Descent

namespace Wiring.Catalog

open Ty Relation

variable {K : Catalog} {s t u v : Ty}

theorem inherits_of_climbs (hK : K.Ascending) (h : TransGen K.Climbs t s) :
    TransGen K.Inherits t.key s.key :=
  h.lift key fun _ _ h => hK.proper.inherits h

/-- Nothing has the classifier of a type below it. -/
theorem key_ne_of_climbs (hK : K.Ascending) (h : TransGen K.Climbs t s) : s.key ≠ t.key := fun he =>
  hK.acyclic t.key (by simpa only [he] using inherits_of_climbs hK h)

theorem isStar_of_climbs (h : TransGen K.Climbs t s) : t.isStar = false := by
  obtain ⟨u, hu, -⟩ := TransGen.head'_iff.1 h
  refine Bool.eq_false_iff.2 fun hstar => ?_
  have hu : u ∈ K.supertypes t := hu
  rw [supertypes_of_isStar hstar] at hu
  cases hu

theorem canonical_of_climbs (hK : K.Ascending) (ht : Canonical t) (h : ReflTransGen K.Climbs t s) :
    Canonical s := by
  induction h with
  | refl => exact ht
  | tail _ hs ih => exact hK.canonical_supertypes ih _ hs

/-- A type passes its nullability and its tags on to all that is above it. -/
theorem dress_of_climbs (h : ReflTransGen K.Climbs t s) :
    (t.nullable = true → s.nullable = true) ∧
      ∀ c present, t.tag? c = some present → s.tag? c = some present := by
  induction h with
  | refl => exact ⟨id, fun _ _ h => h⟩
  | tail _ hs ih =>
    obtain ⟨d, -, rfl⟩ := exists_declared hs
    refine ⟨fun hn => ?_, fun c present hp => ?_⟩
    · simp [above, withNullability, ih.1 hn]
    · rw [tag_above, ih.2 c present hp, Option.some_or]

/-- Where no tags are declared with supertypes a type has all the tags of what is above it. -/
theorem tag_of_climbs (hK : K.Ascending) (hplain : ∀ c, ∀ d ∈ K.declaredSupertypes c, d.tags = [])
    (h : ReflTransGen K.Climbs t s) (c : Classifier) : s.tag? c = t.tag? c := by
  induction h with
  | refl => rfl
  | @tail s u _ hu ih =>
    obtain ⟨d, hd, rfl⟩ := exists_declared hu
    have hnone : (d.substitute (K.argumentsOf s)).tag? c = none := by
      cases hs : d.isStar with
      | true =>
        rw [substitute_of_isStar hs, tag_eq_lookupTag, hplain _ d hd]
        rfl
      | false =>
        have hrel := (parts_of_unbound hs (hK.proper.get_argumentsOf hd hs)).2.2.2.2 c
        rw [hplain _ d hd] at hrel
        exact eq_none_of_rel hrel
    rw [tag_above, hnone, Option.or_none, ih]

/-- All ways up from a type to one classifier lead to the same type. -/
def SameRoutes (K : Catalog) (t : Ty) : Prop :=
  ∀ u v, TransGen K.Climbs t u → TransGen K.Climbs t v → u.key = v.key → (u == v) = true

theorem SameRoutes.keys_supertypes (hr : K.SameRoutes t) (hK : K.Ascending)
    (hu : ReflTransGen K.Climbs t u) (hv : ReflTransGen K.Climbs t v) (hk : u.key = v.key) :
    ∀ x ∈ K.supertypes u, ∃ y ∈ K.supertypes v, y.key = x.key := by
  refine exists_supertype_of_key_eq hK.coherent hK.proper ?_ hk
  rcases reflTransGen_iff_eq_or_transGen.1 hu with rfl | hu
  · rcases reflTransGen_iff_eq_or_transGen.1 hv with rfl | hv
    · rfl
    · exact absurd hk.symm (key_ne_of_climbs hK hv)
  · rcases reflTransGen_iff_eq_or_transGen.1 hv with rfl | hv
    · exact absurd hk (key_ne_of_climbs hK hu)
    · exact isStar_of_beq (hr u v hu hv hk)

/-- There is one way up where no classifier has two supertypes. -/
theorem sameRoutes_of_single (hK : K.Ascending)
    (h : ∀ c, (K.declaredSupertypes c).length ≤ 1) (t : Ty) : K.SameRoutes t := by
  have hunique : Relator.RightUnique K.Climbs := by
    intro t u v hu hv
    obtain ⟨d, hd, rfl⟩ := exists_declared hu
    obtain ⟨e, he, rfl⟩ := exists_declared hv
    have hone := h t.classifier
    generalize K.declaredSupertypes t.classifier = ds at hd he hone
    match ds, hone with
    | [x], _ => rw [List.mem_singleton.1 hd, List.mem_singleton.1 he]
  intro u v hu hv hk
  rcases ReflTransGen.total_of_right_unique hunique hu.to_reflTransGen hv.to_reflTransGen with h | h
  · rcases reflTransGen_iff_eq_or_transGen.1 h with rfl | h
    · exact BEq.rfl
    · exact absurd hk.symm (key_ne_of_climbs hK h)
  · rcases reflTransGen_iff_eq_or_transGen.1 h with rfl | h
    · exact BEq.rfl
    · exact absurd hk (key_ne_of_climbs hK h)

/-- The view of a type by the classifier of one that is above it is equal to that one. -/
theorem SameRoutes.exists_view (hr : K.SameRoutes t) (hK : K.Ascending)
    (hs : TransGen K.Climbs t s) :
    ∃ view, K.view? t s.classifier = some view ∧ (view == s) = true := by
  obtain ⟨view, hview⟩ : ∃ view, K.view? t s.classifier = some view :=
    Catalog.exists_view (P := ReflTransGen K.Climbs t) (fun _ hu _ hs => hu.tail hs)
      (fun _ _ hu hv hk => hr.keys_supertypes hK hu hv hk) ReflTransGen.refl hs.to_reflTransGen rfl
  obtain ⟨hup, hk⟩ := climbs_of_view hview
  refine ⟨view, hview, ?_⟩
  rcases reflTransGen_iff_eq_or_transGen.1 hup with rfl | hup
  · exact absurd hk.symm (key_ne_of_climbs hK hs)
  · exact hr view s hup hs hk

theorem isSubtype_above (hK : K.Ascending) (ht : Canonical t) (hr : K.SameRoutes t)
    (hs : TransGen K.Climbs t s)
    (htags : ∀ tag ∈ s.tags, (t.tag? tag.classifier).isSome = true) : K.isSubtype t s = true := by
  have hsc := canonical_of_climbs hK ht hs.to_reflTransGen
  obtain ⟨hnull, hdress⟩ := dress_of_climbs hs.to_reflTransGen
  obtain ⟨view, hview, hsame⟩ := hr.exists_view hK hs
  refine isSubtype_of_view ht.distinct hsc.distinct hnull (fun needed hn => ?_)
    (Or.inr ⟨view, hview, (parts_of_beq hsame).arguments.imp fun _ _ h => Agree.of_beq h⟩)
    fun _ hv => (hK.canonical_view ht hv).distinct
  -- a tag that both have is the same one, since the tags of the type come first
  obtain ⟨present, hp⟩ := Option.isSome_iff_exists.1 (htags needed hn)
  have hself : s.tag? needed.classifier = some needed := lookupTag_of_mem hsc.distinct.here hn
  obtain rfl := Option.some.inj ((hdress _ _ hp).symm.trans hself)
  exact ⟨present, hp, Agree.refl present⟩

/-- A type is a subtype of one that is above it if and only if it has the tags that are needed, and
of every one where no tags are declared with supertypes. -/
theorem isSubtype_above_iff (hK : K.Ascending) (ht : Canonical t) (hr : K.SameRoutes t)
    (hs : TransGen K.Climbs t s) :
    (K.isSubtype t s = true ↔
      s.isStar = true ∨ ∀ tag ∈ s.tags, (t.tag? tag.classifier).isSome = true) ∧
    ((∀ c, ∀ d ∈ K.declaredSupertypes c, d.tags = []) → K.isSubtype t s = true) := by
  have hsc := canonical_of_climbs hK ht hs.to_reflTransGen
  refine ⟨⟨fun h => ?_, ?_⟩, fun hplain => isSubtype_above hK ht hr hs fun tag htag => ?_⟩
  · cases hstar : s.isStar with
    | true => exact Or.inl rfl
    | false =>
      refine Or.inr fun tag htag => ?_
      obtain ⟨present, hp, -⟩ :=
        ((below_of_isSubtype h).assigned (isStar_of_climbs hs) hstar).tags tag htag
      rw [hp, Option.isSome_some]
  · rintro (hstar | htags)
    · exact isSubtype_of_compatible (compatible_of_star (Or.inr hstar)) ht.distinct hsc.distinct
    · exact isSubtype_above hK ht hr hs htags
  · rw [← tag_of_climbs hK hplain hs.to_reflTransGen]
    exact Option.isSome_iff_exists.2 ⟨tag, lookupTag_of_mem hsc.distinct.here htag⟩

def named (t : Ty) : Ty :=
  t.tagged (.of ⟨"Named", 0⟩)

def zoo : Catalog where
  entries :=
    [("Named", [{ flags := { tag := true } }]),
      ("Animal", [{}]),
      ("P", [{ flags := { typeParameter := true } }]),
      ("Pet", [{ typeParameters := [⟨"P", 0⟩], supertypes := some [.of ⟨"Animal", 0⟩] }]),
      ("Cat", [{ supertypes := some [named (unary "Pet" (.of ⟨"Cat", 0⟩))] }]),
      ("T", [{
        supertypes := some [named (.of ⟨"Cat", 0⟩)]
        flags := { typeParameter := true } }])]

theorem single_zoo : zoo.Single := by decide

theorem supertypes_zoo {d : Classifier} {s : Ty} (h : s ∈ zoo.declaredSupertypes d) :
    (d.key, s) ∈ [("Pet", .of ⟨"Animal", 0⟩), ("Cat", named (unary "Pet" (.of ⟨"Cat", 0⟩))),
      ("T", named (.of ⟨"Cat", 0⟩))] :=
  single_zoo.entry_induction
    (P := fun e => ∀ s ∈ e.supertypes.getD [], (d.key, s) ∈ [("Pet", .of ⟨"Animal", 0⟩),
      ("Cat", named (unary "Pet" (.of ⟨"Cat", 0⟩))), ("T", named (.of ⟨"Cat", 0⟩))]) d (by simp)
    (by simp +contextual [zoo]) s h

theorem canonical_named {t : Ty} (h : Canonical t) : Canonical (named t) :=
  Everywhere.node (Keyed.ofList_sorted key _) h.arguments fun s hs => by
    rcases List.mem_cons.1 (mem_of_mem_canonicalTags hs) with rfl | hs
    · exact canonical_of _
    · exact h.tags s hs

theorem ascending_zoo : zoo.Ascending where
  coherent := single_zoo.coherent
  canonical c s hs := by
    have hmem := supertypes_zoo hs
    simp only [List.mem_cons, Prod.mk.injEq, List.not_mem_nil, or_false] at hmem
    rcases hmem with ⟨-, rfl⟩ | ⟨-, rfl⟩ | ⟨-, rfl⟩
    · exact canonical_of _
    · exact canonical_named (canonical_unary _ (canonical_of _))
    · exact canonical_named (canonical_of _)
  proper c s hs _ := by
    have hmem := supertypes_zoo hs
    simp only [List.mem_cons, Prod.mk.injEq, List.not_mem_nil, or_false] at hmem
    rcases hmem with ⟨hk, rfl⟩ | ⟨hk, rfl⟩ | ⟨hk, rfl⟩
    all_goals
      rw [single_zoo.coherent.typeParameters_eq (d := ⟨_, 0⟩) hk]
      rfl
  acyclic := by
    refine acyclic_of_rank (fun k => ["Animal", "Pet", "Cat", "T"].idxOf k) ?_
    rintro _ _ ⟨c, rfl, s, hs, rfl⟩
    have hmem := supertypes_zoo hs
    simp only [List.mem_cons, Prod.mk.injEq, List.not_mem_nil, or_false] at hmem
    rcases hmem with ⟨hk, rfl⟩ | ⟨hk, rfl⟩ | ⟨hk, rfl⟩
    all_goals
      rw [hk]
      decide

theorem sameRoutes_zoo (t : Ty) : zoo.SameRoutes t := by
  refine sameRoutes_of_single ascending_zoo (fun c => ?_) t
  exact single_zoo.entry_induction (P := fun e => (e.supertypes.getD []).length ≤ 1) c (by simp)
    (by simp [zoo])

/-- What stands for `T` and may be null is an animal that may be null, and has a name if it was given
one. -/
theorem parameter_above :
    zoo.isSubtype ((named (.of ⟨"T", 0⟩)).withNullability true)
      ((named (.of ⟨"Animal", 0⟩)).withNullability true) = true ∧
    zoo.isSubtype ((Ty.of ⟨"T", 0⟩).withNullability true)
      ((named (.of ⟨"Animal", 0⟩)).withNullability true) = false := by
  have hclimbs : ∀ t ∈ [Ty.of ⟨"T", 0⟩, named (.of ⟨"T", 0⟩)], TransGen zoo.Climbs
      (t.withNullability true) ((named (.of ⟨"Animal", 0⟩)).withNullability true) := by
    intro t ht
    have hcat : zoo.Climbs (t.withNullability true)
        ((named (.of ⟨"Cat", 0⟩)).withNullability true) := by
      simp only [List.mem_cons, List.not_mem_nil, or_false] at ht
      rcases ht with rfl | rfl
      all_goals exact List.mem_singleton_self _
    have hpet : zoo.Climbs ((named (.of ⟨"Cat", 0⟩)).withNullability true)
        ((named (unary "Pet" (.of ⟨"Cat", 0⟩))).withNullability true) := List.mem_singleton_self _
    exact ((TransGen.single hcat).tail hpet).tail (List.mem_singleton_self _)
  have hnamed := isSubtype_above_iff ascending_zoo
    ((canonical_named (canonical_of ⟨"T", 0⟩)).withNullability true) (sameRoutes_zoo _)
    (hclimbs _ (by simp))
  have hplain := isSubtype_above_iff ascending_zoo
    ((canonical_of ⟨"T", 0⟩).withNullability true) (sameRoutes_zoo _)
    (hclimbs _ (by simp))
  refine ⟨hnamed.1.2 (Or.inr (by decide)), Bool.eq_false_iff.2 fun h => ?_⟩
  exact absurd (hplain.1.1 h) (by decide)

/-- A cat without a name is no subtype of its supertype, a pet with a name. -/
theorem unnamed_cat_not_below : zoo.Ascending ∧ (∀ t, zoo.SameRoutes t) ∧
    Canonical (.of ⟨"Cat", 0⟩) ∧
    zoo.Climbs (.of ⟨"Cat", 0⟩) (named (unary "Pet" (.of ⟨"Cat", 0⟩))) ∧
    zoo.isSubtype (.of ⟨"Cat", 0⟩) (named (unary "Pet" (.of ⟨"Cat", 0⟩))) = false :=
  ⟨ascending_zoo, sameRoutes_zoo, canonical_of _, List.mem_singleton_self _, by decide +kernel⟩

end Wiring.Catalog
