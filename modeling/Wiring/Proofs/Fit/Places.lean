import Wiring.Proofs.Types.Assignable
import Wiring.Proofs.Types.Projection

namespace Wiring.Fit

open Ty Catalog

variable {K : Catalog} {statics : List Classifier} {m : Substitution} {c r u u' : Ty}

/-- A parameter with tags and nullability is the parameter at a place. -/
theorem dressed_parameter {v : Classifier} {t : Ty} (hs : t.isStar = false) (hk : v.key = t.key)
    (ha : t.arguments = []) : Dressed t.nullable t.tags (.of v) t := by
  refine Dressed.node rfl hs hk.symm (by simp [Ty.of]) ?_ fun d => ?_
  · rw [ha]
    exact List.Forall₂.nil
  · rw [show (Ty.of v).tag? d = none from rfl, Option.or_none]
    exact optionRel_agree_refl _

/-- A type is what is left of it without some of its tags, at a place with these tags. -/
theorem dressed_without {n : Bool} {value t : Ty} (cs : List Classifier) (hh : value.head = t.head)
    (ha : value.arguments = t.arguments) (ht : value.tags = (t.withoutTags cs).tags)
    (hn : t.nullable = (n || value.nullable)) :
    Dressed n (t.tags.filter fun s => cs.contains s.classifier) value t := by
  have hstar : value.isStar = t.isStar := by rw [isStar, isStar, hh]
  have hkey : t.key = value.key := by rw [key, key, classifier, classifier, hh]
  cases hs : t.isStar with
  | true => exact Dressed.star (hstar.trans hs) hs
  | false =>
    refine Dressed.node (hstar.trans hs) hs hkey hn ?_ fun d => ?_
    · rw [ha]
      exact forall₂_alike_refl _
    · have hl := lookupTag_filter (p := cs.contains) (fun _ _ hk => contains_congr hk) t.tags d
      have hr : value.tag? d = if cs.contains d then none else t.tag? d := by
        rw [← tag_withoutTags, tag_eq_lookupTag, tag_eq_lookupTag, ht]
      rw [hl, hr, tag_eq_lookupTag]
      cases cs.contains d with
      | true => simpa using optionRel_agree_refl _
      | false => simpa using optionRel_agree_refl _

/-- Compatible values at places with compatible tags give compatible types. -/
theorem compatible_at_places {n : Bool} {cs rs : List Ty} (hm : Admissible K statics m)
    (hc : Dressed n cs u c) (hr : Dressed n rs u' r) (hcr : K.Regular c) (hrr : K.Regular r)
    (hur : K.Regular u) (hur' : K.Regular u') (hcs : ∀ s ∈ cs, s ∈ c.tags)
    (hrs : ∀ s ∈ rs, s ∈ r.tags) (hu : Compatible (u.substitute m) (u'.substitute m))
    (ht : ∀ d, Option.Rel (fun x y => Compatible (x.substitute m) (y.substitute m))
      (lookupTag cs d) (lookupTag rs d)) : Compatible (c.substitute m) (r.substitute m) := by
  have hplace : ∀ {t : Ty}, K.Regular t → ∀ s ∈ t.tags,
      m.get? s.classifier = none ∧ Everywhere m.Spares s := fun ht s hs =>
    ⟨hm.spares ht.here s hs, hm.everywhere_spares (ht.tags s hs)⟩
  have hc' := hc.substitute (hm.everywhere_spares hcr) (hm.everywhere_spares hur)
    fun s hs => hplace hcr s (hcs s hs)
  have hr' := hr.substitute (hm.everywhere_spares hrr) (hm.everywhere_spares hur')
    fun s hs => hplace hrr s (hrs s hs)
  refine hc'.agree hr' rfl (fun d => ?_) hu
  rw [lookupTag_map fun s hs => key_substitute (hplace hcr s (hcs s hs)).1,
    lookupTag_map fun s hs => key_substitute (hplace hrr s (hrs s hs)).1]
  exact optionRel_map (ht d) fun _ _ _ _ h => h

/-- The requested tags correspond to those tags of the candidate that have their classifiers. -/
theorem requestedTags_rel {P : Ty → Ty → Prop}
    (h : ∀ tag ∈ r.tags, ∃ present, c.tag? tag.classifier = some present ∧ P present tag)
    (d : Classifier) :
    Option.Rel P
      (lookupTag (c.tags.filter fun s => (r.tags.map Ty.classifier).contains s.classifier) d)
      (lookupTag r.tags d) := by
  rw [lookupTag_filter fun _ _ hk => contains_congr hk]
  cases hd : lookupTag r.tags d with
  | none =>
    -- only tags with the classifier of a requested one are kept
    have hno : (r.tags.map Ty.classifier).contains d = false := by
      apply Bool.eq_false_iff.2
      intro hc
      obtain ⟨e, he, hde⟩ := List.contains_iff_exists_mem_beq.1 hc
      obtain ⟨s, hs, rfl⟩ := List.mem_map.1 he
      exact lookupTag_eq_none_iff.1 hd s hs (Classifier.beq_iff_key_eq.1 hde).symm
    rw [hno]
    exact Option.Rel.none
  | some tag =>
    have hyes : (r.tags.map Ty.classifier).contains d = true :=
      List.contains_iff_exists_mem_beq.2 ⟨tag.classifier,
        List.mem_map_of_mem (mem_of_lookupTag hd),
        Classifier.beq_iff_key_eq.2 (key_of_lookupTag hd).symm⟩
    obtain ⟨present, hp, hP⟩ := h tag (mem_of_lookupTag hd)
    have hp' : lookupTag c.tags d = some present := by
      rw [lookupTag_congr _ (key_of_lookupTag hd).symm]
      exact hp
    rw [hyes, if_pos rfl, hp']
    exact Option.Rel.some hP

/-- Two types that stay, with the same classifier and with compatible parts, are compatible. -/
theorem compatible_of_parts (hm : Admissible K statics m) (hcr : K.Regular c) (hrr : K.Regular r)
    (hcs : c.isStar = false) (hrs : r.isStar = false) (hk : c.key = r.key)
    (hn : c.nullable = r.nullable) (hc : m.get? c.classifier = none)
    (ht : ∀ d, Option.Rel (fun x y => Compatible (x.substitute m) (y.substitute m))
      (c.tag? d) (r.tag? d))
    (ha : List.Forall₂ (fun x y => Compatible (x.substitute m) (y.substitute m))
      c.arguments r.arguments) : Compatible (c.substitute m) (r.substitute m) := by
  refine (dressed_substitute hcs).agree (dressed_substitute hrs) hn (fun d => ?_) ?_
  · rw [lookupTag_substitute (hm.spares hcr.here), lookupTag_substitute (hm.spares hrr.here)]
    exact optionRel_map (ht d) fun _ _ _ _ h => h
  · apply agree_bare_substitute hcs hrs hk
    · rw [hc]
      exact Option.Rel.none
    · rw [List.forall₂_map_left_iff, List.forall₂_map_right_iff]
      exact ha

/-- Each tag that is needed after the substitution comes from one that was needed before, and what was
present for that one is present after it too. -/
theorem exists_tag_substitute (hm : Admissible K statics m) (hcr : K.Regular c) (hrr : K.Regular r)
    (hcs : c.isStar = false) (hrs : r.isStar = false) (hc : m.get? c.classifier = none)
    (hr : m.get? r.classifier = none) (hd : DistinctAt (r.substitute m))
    (ht : ∀ tag ∈ r.tags, ∃ present, c.tag? tag.classifier = some present ∧
      Compatible (present.substitute m) (tag.substitute m)) :
    ∀ needed ∈ (r.substitute m).tags, ∃ present,
      (c.substitute m).tag? needed.classifier = some present ∧ Compatible present needed := by
  intro needed hneeded
  obtain ⟨_, _, _, _, hct⟩ := parts_of_unbound hcs hc
  obtain ⟨_, _, _, _, hrt⟩ := parts_of_unbound hrs hr
  have hself := lookupTag_of_mem hd hneeded
  have hrel := hrt needed.classifier
  rw [tag_eq_lookupTag, hself, lookupTag_substitute (hm.spares hrr.here)] at hrel
  obtain ⟨y, hy, hny⟩ := exists_of_rel_some hrel
  obtain ⟨tag, htag, rfl⟩ := Option.map_eq_some_iff.1 hy
  obtain ⟨present, hp, hpt⟩ := ht tag (mem_of_lookupTag htag)
  have hp' : c.tag? needed.classifier = some present := by
    rw [← hp]
    exact lookupTag_congr _ (key_of_lookupTag htag).symm
  have hrel' := hct needed.classifier
  rw [lookupTag_substitute (hm.spares hcr.here), hp'] at hrel'
  obtain ⟨z, hz, hzp⟩ := exists_of_rel_some (optionRel_symm hrel')
  exact ⟨z, hz, Alike.trans hzp (Agree.trans_alike hpt hny.symm)⟩

/-- A type is assignable to another one, both of which stay, if its view has compatible parts. -/
theorem isSubtype_of_parts (hK : K.Orderly statics) (hm : Admissible K statics m)
    (hcr : K.Regular c) (hrr : K.Regular r) (hcs : c.isStar = false) (hrs : r.isStar = false)
    (hc : Settled K statics c.classifier) (hr : m.get? r.classifier = none)
    (hn : c.nullable = true → r.nullable = true)
    (ht : ∀ tag ∈ r.tags, ∃ present, c.tag? tag.classifier = some present ∧
      Compatible (present.substitute m) (tag.substitute m))
    (hv : (K.flagsOf r).top = true ∨ ∃ view, K.view? c r.classifier = some view ∧
      List.Forall₂ (fun x y => Compatible (x.substitute m) (y.substitute m))
        view.arguments r.arguments) :
    K.isSubtype (c.substitute m) (r.substitute m) = true := by
  have hcm : m.get? c.classifier = none := hm.get_of_settled hc
  obtain ⟨_, _, hcn, _, _⟩ := parts_of_unbound hcs hcm
  obtain ⟨hrs', hrk, hrn, hra, _⟩ := parts_of_unbound hrs hr
  have hcreg := regular_substitute hK.coherent hcr (hm.everywhere_spares hcr) hm.regular
  have hrreg := regular_substitute hK.coherent hrr (hm.everywhere_spares hrr) hm.regular
  have himage : Image K statics m c (c.substitute m) := Image.of_regular hK hm hcr fun _ => hc
  have hview := view_image hK hm himage r.classifier (r.substitute m).classifier hrk.symm
  refine isSubtype_of_view hcreg.distinct hrreg.distinct ?_ ?_ ?_ ?_
  · rw [hcn, hrn]
    exact hn
  · exact exists_tag_substitute hm hcr hrr hcs hrs hcm hr hrreg.here.distinct ht
  · rcases hv with hv | ⟨view, hv, ha⟩
    · left
      rw [flagsOf_congr hK.coherent hrs' hrs hrk]
      exact hv
    · -- the view of the substituted type is the image of that view, so its arguments are alike
      right
      obtain ⟨view', hv', hi⟩ := exists_of_rel_some (hv ▸ hview)
      refine ⟨view', hv', ?_⟩
      have hmap : List.Forall₂ Compatible (view.arguments.map (substitute m))
          (r.arguments.map (substitute m)) := by
        rw [List.forall₂_map_left_iff, List.forall₂_map_right_iff]
        exact ha
      exact forall₂_alike_trans (hi.arguments hm)
        (forall₂_trans_alike hmap (forall₂_alike_symm hra))
  · intro view' hv'
    obtain ⟨view, _, hi⟩ := exists_of_rel_some (optionRel_symm (hv' ▸ hview))
    exact hi.right.distinct

/-- A type that may be null only on the requested side does not get in the way of a subtype. -/
theorem isSubtype_of_nullable {a b : Ty} (h : Compatible (a.withNullability true) b)
    (ha : Distinct a) (hb : Distinct b) (hn : b.nullable = true) : K.isSubtype a b = true := by
  cases h with
  | star h =>
    have hs : (a.isStar || b.isStar) = true := by
      rcases h with ⟨h, _⟩ | ⟨_, h⟩
      · exact Bool.or_eq_true_iff.2 (Or.inl h)
      · exact Bool.or_eq_true_iff.2 h
    have hpos : 0 < K.subtypeDepth a b := by
      unfold subtypeDepth
      omega
    obtain ⟨depth, hd⟩ := Nat.exists_eq_succ_of_ne_zero (Nat.ne_of_gt hpos)
    rw [isSubtype, hd, subtypeWithin_succ [] (by simp [premises?, hs]) (by simp)]
    rfl
  | node left right key nullable arguments tags =>
    have hview : K.view? a b.classifier = some a := view_self key
    refine isSubtype_of_view ha hb (fun _ => hn)
      (fun needed hneeded => exists_tag_of_compatible hb.here tags hneeded)
      (Or.inr ⟨a, hview, arguments⟩) ?_
    intro view hv
    obtain rfl : a = view := Option.some.inj (hview.symm.trans hv)
    exact ha

/-- Letting a type be null commutes with substitution. -/
theorem alike_substitute_withNullability (m : Substitution) (c : Ty) :
    Alike ((c.withNullability true).substitute m) ((c.substitute m).withNullability true) := by
  cases hs : c.isStar with
  | true =>
    rw [substitute_of_isStar hs]
    exact Agree.of_stars (isStar_substitute_of_isStar (t := c.withNullability true) hs) hs
  | false =>
    have hr : Dressed true (c.tags.map (substitute m)) (c.bare.substitute m)
        ((c.substitute m).withNullability true) := by
      cases dressed_substitute (m := m) hs with
      | star left right => exact Dressed.star left right
      | node left right key nullable arguments tags =>
        exact Dressed.node left right key rfl arguments tags
    exact (dressed_substitute (t := c.withNullability true) hs).agree hr rfl
      (fun d => optionRel_agree_refl _) (Agree.refl _)

end Wiring.Fit
