import Wiring.Proofs.Types.Tables

namespace Wiring.Catalog

open Ty

variable {K : Catalog} {statics : List Classifier} {m : Substitution} {t u : Ty}

structure Image (K : Catalog) (statics : List Classifier) (m : Substitution) (t u : Ty) : Prop where
  -- `u` is what the substitution makes of `t`, which it does not replace as a whole.
  left : K.Regular t
  right : K.Regular u
  settled : t.isStar = false → Settled K statics t.classifier
  key : u.key = t.key
  alike : Alike u (t.substitute m)

theorem Settled.congr (hK : K.Coherent) {c d : Classifier} (h : Settled K statics c)
    (hk : c.key = d.key) : Settled K statics d := by
  intro hd
  rw [← contains_congr hk]
  apply h
  rw [hK.isTypeParameter_eq hk]
  exact hd

namespace Image

theorem of_regular (hK : K.Orderly statics) (hm : Admissible K statics m) (ht : K.Regular t)
    (hs : t.isStar = false → Settled K statics t.classifier) :
    Image K statics m t (t.substitute m) where
  left := ht
  right := regular_substitute hK.coherent ht (hm.everywhere_spares ht) hm.regular
  settled := hs
  key := by
    cases h : t.isStar with
    | true => rw [substitute_of_isStar h]
    | false => exact key_substitute (hm.get_of_settled (hs h))
  alike := Agree.refl _

theorem isStar_eq (hm : Admissible K statics m) (h : Image K statics m t u) :
    u.isStar = t.isStar := by
  rw [h.alike.isStar_eq]
  cases hs : t.isStar with
  | true => exact isStar_substitute_of_isStar hs
  | false => exact (parts_of_unbound hs (hm.get_of_settled (h.settled hs))).1

/-- What the parts of an image are. -/
theorem parts (hm : Admissible K statics m) (h : Image K statics m t u) (hs : t.isStar = false) :
    u.nullable = t.nullable ∧ List.Forall₂ Alike u.arguments (t.arguments.map (substitute m)) ∧
      ∀ c, Option.Rel Alike (u.tag? c) (lookupTag (t.tags.map (substitute m)) c) := by
  obtain ⟨hs', hk', hn', ha', ht'⟩ := parts_of_unbound hs (hm.get_of_settled (h.settled hs))
  cases h.alike with
  | star h => simp [hs'] at h
  | node _ _ _ nullable arguments tags =>
    refine ⟨nullable.trans hn', forall₂_alike_trans arguments ha', fun c => ?_⟩
    exact optionRel_alike_trans (tags c) (ht' c)

theorem arguments (hm : Admissible K statics m) (h : Image K statics m t u) :
    List.Forall₂ Alike u.arguments (t.arguments.map (substitute m)) := by
  cases hs : t.isStar with
  | true =>
    have hu : u.isStar = true := (h.isStar_eq hm).trans hs
    rw [h.left.here.star hs, h.right.here.star hu]
    exact List.Forall₂.nil
  | false => exact (h.parts hm hs).2.1

end Image

/-! ### Direct supertypes -/

/-- The tags of the type below come first. -/
theorem tag_above (t sub : Ty) (c : Classifier) :
    (t.above sub).tag? c = (sub.tag? c).or (t.tag? c) := by
  have h : (t.above sub).tag? c = lookupTag (sub.tags ++ t.tags) c := lookupTag_canonicalTags _ c
  rw [h, lookupTag_append]
  rfl

theorem dressed_above (t sub : Ty) : Dressed sub.nullable sub.tags t (t.above sub) := by
  cases hs : t.isStar with
  | true => exact Dressed.star hs hs
  | false =>
    refine Dressed.node hs hs rfl rfl (forall₂_alike_refl _) fun c => ?_
    rw [tag_above]
    exact optionRel_agree_refl _

theorem regular_above {sub : Ty} (ht : K.Regular t) (hsub : K.Regular sub) :
    K.Regular (t.above sub) := by
  have hmem : ∀ s ∈ (t.above sub).tags, s ∈ sub.tags ∨ s ∈ t.tags := fun s hs =>
    List.mem_append.1 (mem_of_mem_canonicalTags hs)
  refine Everywhere.node ⟨ht.here.star, ht.here.arity, canonicalTags_nodup _, fun s hs => ?_⟩
    ht.arguments fun s hs => ?_
  · exact (hmem s hs).elim (hsub.here.proper s) (ht.here.proper s)
  · exact (hmem s hs).elim (hsub.tags s) (ht.tags s)

theorem argumentsOf_eq (hs : t.isStar = false) :
    K.argumentsOf t = .ofArguments (K.typeParameters t.classifier) t.arguments := by
  obtain ⟨head, as, n, ts, k⟩ := t
  cases head with
  | star => simp [isStar] at hs
  | named c => rfl

theorem supertypes_eq (hs : t.isStar = false) :
    K.supertypes t = (K.declaredSupertypes t.classifier).map fun s =>
      (s.substitute (K.argumentsOf t)).above t := by
  obtain ⟨head, as, n, ts, k⟩ := t
  cases head with
  | star => simp [isStar] at hs
  | named c => rfl

theorem argumentsOf_of_isStar (hs : t.isStar = true) : K.argumentsOf t = .empty := by
  obtain ⟨head, as, n, ts, k⟩ := t
  cases head with
  | star => rfl
  | named c => simp [isStar] at hs

theorem supertypes_of_isStar (hs : t.isStar = true) : K.supertypes t = [] := by
  obtain ⟨head, as, n, ts, k⟩ := t
  cases head with
  | star => rfl
  | named c => simp [isStar] at hs

/-- A supertype is a declared one with the arguments put in, above the type. -/
theorem exists_declared (hu : u ∈ K.supertypes t) :
    ∃ s ∈ K.declaredSupertypes t.classifier, u = (s.substitute (K.argumentsOf t)).above t := by
  unfold supertypes at hu
  split at hu
  · cases hu
  · next c hc =>
    obtain ⟨s, hs, rfl⟩ := List.mem_map.1 hu
    rw [classifier, hc]
    exact ⟨s, hs, rfl⟩

theorem of_get_argumentsOf {c : Classifier} (h : (K.argumentsOf t).get? c = some u) :
    u ∈ t.arguments ∧ (K.typeParameters t.classifier).contains c = true := by
  unfold argumentsOf at h
  split at h
  · cases h
  · next d hd =>
    rw [classifier, hd]
    exact mem_of_get_ofArguments h

/-- The arguments bind nothing but the parameters of the classifier. -/
theorem get_argumentsOf_eq_none {c : Classifier}
    (h : (K.typeParameters t.classifier).contains c = false) : (K.argumentsOf t).get? c = none := by
  refine Option.eq_none_iff_forall_ne_some.2 fun v hv => ?_
  have hc := (of_get_argumentsOf hv).2
  rw [h] at hc
  cases hc

theorem spares_argumentsOf
    (h : Everywhere (fun v => ∀ tag ∈ v.tags,
      (K.typeParameters t.classifier).contains tag.classifier = false) u) :
    Everywhere (K.argumentsOf t).Spares u :=
  h.imp fun _ hv tag htag => get_argumentsOf_eq_none (hv tag htag)

theorem regular_of_get_argumentsOf (ht : K.Regular t) (c : Classifier) (v : Ty)
    (h : (K.argumentsOf t).get? c = some v) : K.Regular v :=
  ht.arguments v (of_get_argumentsOf h).1

/-- No classifier is directly below one of its own parameters. -/
def Proper (K : Catalog) : Prop :=
  ∀ c, ∀ s ∈ K.declaredSupertypes c, s.isStar = false →
    (K.typeParameters c).contains s.classifier = false

/-- No argument of `t` takes the place of a declared supertype. -/
theorem Proper.get_argumentsOf (hK : K.Proper) {s : Ty} (hd : s ∈ K.declaredSupertypes t.classifier)
    (hs : s.isStar = false) : (K.argumentsOf t).get? s.classifier = none :=
  get_argumentsOf_eq_none (hK _ s hd hs)

/-- A declared supertype with the arguments of `t` has the classifier that is declared. -/
theorem Proper.key_declared (hK : K.Proper) {s : Ty} (hd : s ∈ K.declaredSupertypes t.classifier) :
    (s.substitute (K.argumentsOf t)).key = s.key := by
  cases hs : s.isStar with
  | true => rw [substitute_of_isStar hs]
  | false => exact key_substitute (hK.get_argumentsOf hd hs)

theorem regular_declared (hK : K.Orderly statics) (ht : K.Regular t) {s : Ty}
    (hd : s ∈ K.declaredSupertypes t.classifier) :
    K.Regular (s.substitute (K.argumentsOf t)) :=
  regular_substitute hK.coherent (hK.regular _ s hd) (spares_argumentsOf (hK.tags _ s hd))
    (regular_of_get_argumentsOf ht)

/-- The classifier of a supertype of a settled type is settled. -/
theorem settled_declared (hK : K.Orderly statics) (hc : Settled K statics t.classifier) {s : Ty}
    (hd : s ∈ K.declaredSupertypes t.classifier) (hs : s.isStar = false) :
    Settled K statics s.classifier := by
  intro hp
  cases ht : K.isTypeParameter t.classifier with
  | true => exact hK.bounds_of_mem (hc ht) hd (classifier_mem hs) hp
  | false =>
    have hown := hK.own_of_mem ht hd (classifier_mem hs) hp
    rw [hK.proper _ s hd hs] at hown
    contradiction

/-- On what a declared supertype mentions, the arguments of the image are the images of the
arguments. -/
theorem argumentsOf_image (hK : K.Orderly statics) (hm : Admissible K statics m)
    (h : Image K statics m t u) (hs : t.isStar = false) {s : Ty}
    (hd : s ∈ K.declaredSupertypes t.classifier) {c : Classifier} (hc : c ∈ s.classifiers) :
    Option.Rel Alike ((K.argumentsOf u).get? c) (((K.argumentsOf t).compose m).get? c) := by
  have hu : u.isStar = false := (h.isStar_eq hm).trans hs
  have hr := get_ofArguments_rel (K.typeParameters t.classifier) (h.arguments hm) c
  rw [get_ofArguments_map, ← argumentsOf_eq hs, ← hK.coherent.typeParameters_eq h.key,
    ← argumentsOf_eq hu] at hr
  rw [Substitution.get_compose]
  cases hv : (K.argumentsOf t).get? c with
  | some v =>
    rw [hv] at hr
    exact hr
  | none =>
    -- no argument is given for it, so it is static if it is a parameter at all
    have hset : Settled K statics c := by
      intro hp
      cases ht : K.isTypeParameter t.classifier with
      | true => exact hK.bounds_of_mem (h.settled hs ht) hd hc hp
      | false =>
        have hown := isSome_get_ofArguments (h.left.here.arity hs) (hK.own_of_mem ht hd hc hp)
        rw [← argumentsOf_eq hs, hv] at hown
        contradiction
    rw [hm.get_of_settled hset]
    rw [hv] at hr
    exact hr

/-- The arguments of the image, put into a declared supertype, come to the image of the supertype. -/
theorem alike_declared (hK : K.Orderly statics) (hm : Admissible K statics m)
    (h : Image K statics m t u) (hs : t.isStar = false) {s : Ty}
    (hd : s ∈ K.declaredSupertypes t.classifier) (hd' : s ∈ K.declaredSupertypes u.classifier) :
    Alike (s.substitute (K.argumentsOf u)) ((s.substitute (K.argumentsOf t)).substitute m) := by
  have hspares := spares_argumentsOf (hK.tags _ s hd)
  have hspares' := hm.everywhere_spares (hK.regular _ s hd)
  have hvals : ∀ c v, (K.argumentsOf t).get? c = some v → Everywhere m.Spares v := fun c v hv =>
    hm.everywhere_spares (regular_of_get_argumentsOf h.left c v hv)
  have hboth : Everywhere ((K.argumentsOf t).compose m).Spares s :=
    (hspares.and hspares').imp fun _ hv => spares_compose hv.1 hv.2
  have hargs : Alike (s.substitute (K.argumentsOf u)) (s.substitute ((K.argumentsOf t).compose m)) :=
    agree_substitute (Agree.refl s) (spares_argumentsOf (hK.tags _ s hd')) hboth
      fun c hc => argumentsOf_image hK hm h hs hd hc
  exact Alike.trans hargs (alike_substitute_compose hspares hspares' hvals).symm

/-- A declared supertype above a type has as its image the one above the image of the type. -/
theorem above_image (hK : K.Orderly statics) (hm : Admissible K statics m)
    (h : Image K statics m t u) (hs : t.isStar = false) {s : Ty}
    (hd : s ∈ K.declaredSupertypes t.classifier) :
    Image K statics m ((s.substitute (K.argumentsOf t)).above t)
      ((s.substitute (K.argumentsOf u)).above u) := by
  have hu : u.isStar = false := (h.isStar_eq hm).trans hs
  have hd' : s ∈ K.declaredSupertypes u.classifier := by
    rw [hK.coherent.declaredSupertypes_eq h.key]
    exact hd
  have hreg := regular_declared hK h.left hd
  have hreg' := regular_declared hK h.right hd'
  have hkey := Proper.key_declared hK.proper hd
  have hkey' := Proper.key_declared hK.proper hd'
  refine ⟨regular_above hreg h.left, regular_above hreg' h.right, fun ha => ?_,
    hkey'.trans hkey.symm, ?_⟩
  · -- a supertype that comes to a named type was one when it was declared
    have hstar : s.isStar = false := by
      cases hss : s.isStar with
      | false => rfl
      | true =>
        rw [← ha, ← isStar_substitute_of_isStar (m := K.argumentsOf t) hss]
        rfl
    exact (settled_declared hK (h.settled hs) hd hstar).congr hK.coherent hkey.symm
  · -- both stand at the place that `t` gives its supertypes, substituted on one side
    obtain ⟨hn, ha, ht⟩ := h.parts hm hs
    have hplace := (dressed_above (s.substitute (K.argumentsOf t)) t).substitute
      (hm.everywhere_spares (regular_above hreg h.left)) (hm.everywhere_spares hreg)
      fun tag htag => ⟨hm.spares h.left.here tag htag, hm.everywhere_spares (h.left.tags tag htag)⟩
    exact (dressed_above _ u).agree hplace hn ht (alike_declared hK hm h hs hd hd')

theorem supertypes_image (hK : K.Orderly statics) (hm : Admissible K statics m)
    (h : Image K statics m t u) :
    List.Forall₂ (Image K statics m) (K.supertypes t) (K.supertypes u) := by
  have hst := h.isStar_eq hm
  cases hs : t.isStar with
  | true =>
    rw [supertypes_of_isStar hs, supertypes_of_isStar (hst.trans hs)]
    exact List.Forall₂.nil
  | false =>
    rw [supertypes_eq hs, supertypes_eq (hst.trans hs),
      hK.coherent.declaredSupertypes_eq h.key, List.forall₂_map_left_iff,
      List.forall₂_map_right_iff]
    exact List.forall₂_same.2 fun s hd => above_image hK hm h hs hd

/-! ### The search for a view -/

section Search

variable {R : Ty → Ty → Prop} {goal goal' : Classifier} {visited visited' : List Classifier}
  {level level' : List Ty}

theorem beq_goal_eq (hk : t.key = u.key) (hg : goal.key = goal'.key) :
    (t.classifier == goal) = (u.classifier == goal') := by
  rw [BEq.congr_left (c := goal) (Classifier.beq_iff_key_eq.2 hk)]
  exact BEq.congr_right (Classifier.beq_iff_key_eq.2 hg)

/-- The first one of two lists whose elements have a property alike. -/
theorem forall₂_find {α β : Type} {P : α → β → Prop} {p : α → Bool} {q : β → Bool} {xs : List α}
    {ys : List β} (h : List.Forall₂ P xs ys) (hpq : ∀ x y, P x y → p x = q y) :
    Option.Rel P (xs.find? p) (ys.find? q) := by
  induction h with
  | nil => exact Option.Rel.none
  | @cons x y xs ys hxy _ ih =>
    rw [List.find?_cons, List.find?_cons, hpq x y hxy]
    split
    · exact Option.Rel.some hxy
    · exact ih

theorem find_rel (hkey : ∀ t u, R t u → t.key = u.key) (h : List.Forall₂ R level level')
    (hg : goal.key = goal'.key) :
    Option.Rel R (level.find? (·.classifier == goal)) (level'.find? (·.classifier == goal')) :=
  forall₂_find h fun t u htu => beq_goal_eq (hkey t u htu) hg

theorem unvisited_rel (hkey : ∀ t u, R t u → t.key = u.key) (h : List.Forall₂ R level level')
    (hv : ∀ c, visited.contains c = visited'.contains c) :
    List.Forall₂ R (unvisited visited level) (unvisited visited' level') := by
  induction h generalizing visited visited' with
  | nil => exact List.Forall₂.nil
  | @cons t u level level' htu _ ih =>
    have hc : visited.contains t.classifier = visited'.contains u.classifier := by
      rw [hv]
      exact contains_congr (hkey t u htu)
    simp only [unvisited, ← hc]
    split
    · exact ih hv
    · refine List.Forall₂.cons htu (ih fun c => ?_)
      have hb : (c == t.classifier) = (c == u.classifier) :=
        BEq.congr_right (Classifier.beq_iff_key_eq.2 (hkey t u htu))
      rw [List.contains_cons, List.contains_cons, hb, hv]

theorem contains_classifiers_rel (hkey : ∀ t u, R t u → t.key = u.key)
    (h : List.Forall₂ R level level') (hv : ∀ c, visited.contains c = visited'.contains c)
    (c : Classifier) : (level.map Ty.classifier ++ visited).contains c =
      (level'.map Ty.classifier ++ visited').contains c := by
  induction h with
  | nil => exact hv c
  | @cons t u level level' htu _ ih =>
    have hb : (c == t.classifier) = (c == u.classifier) :=
      BEq.congr_right (Classifier.beq_iff_key_eq.2 (hkey t u htu))
    rw [List.map_cons, List.map_cons, List.cons_append, List.cons_append, List.contains_cons,
      List.contains_cons, hb, ih]

def RelFound (R : Ty → Ty → Prop) (p q : Ty × Nat) : Prop :=
  R p.1 q.1 ∧ p.2 = q.2

theorem searchAbove_rel (hkey : ∀ t u, R t u → t.key = u.key)
    (hR : ∀ t u, R t u → List.Forall₂ R (K.supertypes t) (K.supertypes u))
    (hg : goal.key = goal'.key) (fuel : Nat) (h : List.Forall₂ R level level')
    (hv : ∀ c, visited.contains c = visited'.contains c) :
    Option.Rel (RelFound R) (K.searchAbove goal fuel visited level)
      (K.searchAbove goal' fuel visited' level') := by
  -- level by level: the levels correspond, so both searches find their goal on the same one
  induction fuel generalizing visited visited' level level' with
  | zero => exact Option.Rel.none
  | succ fuel ih =>
    have habove : List.Forall₂ R (level.flatMap K.supertypes) (level'.flatMap K.supertypes) :=
      List.rel_flatMap h hR
    have hfind := find_rel hkey habove hg
    simp only [searchAbove]
    cases hx : (level.flatMap K.supertypes).find? (·.classifier == goal) with
    | some x =>
      obtain ⟨y, hy, hxy⟩ := exists_of_rel_some (hx ▸ hfind)
      rw [hy]
      exact Option.Rel.some ⟨hxy, rfl⟩
    | none =>
      rw [hx] at hfind
      have hnone : (level'.flatMap K.supertypes).find? (·.classifier == goal') = none :=
        eq_none_of_rel (optionRel_symm hfind)
      rw [hnone]
      have hnext := unvisited_rel hkey habove hv
      have hempty : (unvisited visited (level.flatMap K.supertypes)).isEmpty =
          (unvisited visited' (level'.flatMap K.supertypes)).isEmpty := by
        rw [Bool.eq_iff_iff, List.isEmpty_iff_length_eq_zero, List.isEmpty_iff_length_eq_zero,
          hnext.length_eq]
      simp only [hempty]
      split
      · exact Option.Rel.none
      · have habove := ih hnext (contains_classifiers_rel hkey hnext hv)
        revert habove
        generalize K.searchAbove goal fuel _ _ = x, K.searchAbove goal' fuel _ _ = y
        rintro (⟨hxy, hn⟩ | _)
        · exact Option.Rel.some ⟨hxy, congrArg (· + 1) hn⟩
        · exact Option.Rel.none

theorem nearest_rel (hkey : ∀ t u, R t u → t.key = u.key)
    (hR : ∀ t u, R t u → List.Forall₂ R (K.supertypes t) (K.supertypes u)) (h : R t u)
    (hg : goal.key = goal'.key) :
    Option.Rel (RelFound R) (K.nearest? t goal) (K.nearest? u goal') := by
  have hb := beq_goal_eq (hkey t u h) hg
  simp only [nearest?]
  cases hc : t.classifier == goal with
  | true =>
    rw [← hb, hc]
    exact Option.Rel.some ⟨h, rfl⟩
  | false =>
    rw [← hb, hc]
    apply searchAbove_rel hkey hR hg _ (List.Forall₂.cons h List.Forall₂.nil)
    intro c
    rw [List.contains_cons, List.contains_cons]
    congr 1
    exact BEq.congr_right (Classifier.beq_iff_key_eq.2 (hkey t u h))

/-- Types that correspond have views that correspond, if the supertypes of such types do. -/
theorem view_rel (hkey : ∀ t u, R t u → t.key = u.key)
    (hR : ∀ t u, R t u → List.Forall₂ R (K.supertypes t) (K.supertypes u)) (h : R t u)
    (hg : goal.key = goal'.key) : Option.Rel R (K.view? t goal) (K.view? u goal') := by
  have hnearest := nearest_rel hkey hR h hg
  unfold view?
  revert hnearest
  generalize K.nearest? t goal = x, K.nearest? u goal' = y
  rintro (⟨hxy, -⟩ | _)
  · exact Option.Rel.some hxy
  · exact Option.Rel.none

/-- The views are equally far above them. -/
theorem distance_rel (hkey : ∀ t u, R t u → t.key = u.key)
    (hR : ∀ t u, R t u → List.Forall₂ R (K.supertypes t) (K.supertypes u)) (h : R t u)
    (hg : goal.key = goal'.key) : K.distance? t goal = K.distance? u goal' := by
  have hnearest := nearest_rel hkey hR h hg
  unfold distance?
  revert hnearest
  generalize K.nearest? t goal = x, K.nearest? u goal' = y
  rintro (⟨-, hn⟩ | _)
  · exact congrArg some hn
  · rfl

end Search

/-- A type and its image have corresponding views by each classifier. -/
theorem view_image (hK : K.Orderly statics) (hm : Admissible K statics m)
    (h : Image K statics m t u) (goal goal' : Classifier) (hg : goal.key = goal'.key) :
    Option.Rel (Image K statics m) (K.view? t goal) (K.view? u goal') :=
  view_rel (fun _ _ h => h.key.symm) (fun _ _ h => supertypes_image hK hm h) h hg

end Wiring.Catalog
