import Wiring.Proofs.Types.Hierarchy
import Wiring.Proofs.Types.Likeness

namespace Wiring

namespace Ty

mutual
def keyless : Ty → Ty
  | ⟨h, as, n, ts, _⟩ => ⟨h, allKeyless as, n, allKeyless ts, none⟩

def allKeyless : List Ty → List Ty
  | [] => []
  | t :: ts => t.keyless :: allKeyless ts
end

theorem all_keyless_eq_map (ts : List Ty) : allKeyless ts = ts.map keyless := by
  induction ts with
  | nil => rfl
  | cons t ts ih => rw [allKeyless, ih, List.map_cons]

theorem keyless_eq (t : Ty) :
    t.keyless = ⟨t.head, t.arguments.map keyless, t.nullable, t.tags.map keyless, none⟩ := by
  obtain ⟨head, as, n, ts, k⟩ := t
  rw [keyless, all_keyless_eq_map, all_keyless_eq_map]

theorem keyless_withoutInstanceKey (t : Ty) : t.withoutInstanceKey.keyless = t.keyless := by
  rw [keyless_eq, keyless_eq t]
  rfl

/-- At every depth the tags are in order of their keys, one to a key. -/
abbrev Canonical (t : Ty) : Prop :=
  Everywhere (fun t => Keyed.Sorted key t.tags) t

theorem canonical_of_wellFormed {K : Catalog} {t : Ty} (h : K.WellFormed t) : Canonical t :=
  h.imp fun _ h => h.sorted

theorem Canonical.distinct {t : Ty} (h : Canonical t) : Catalog.Distinct t := by
  refine h.imp fun t h => List.pairwise_map.2 (h.imp ?_)
  intro a b hab he
  exact String.lt_irrefl _ (he ▸ hab)

theorem Canonical.withNullability {t : Ty} (h : Canonical t) (nullable : Bool) :
    Canonical (t.withNullability nullable) :=
  Everywhere.node h.here h.arguments h.tags

structure Kin (a b : Ty) : Prop where
  -- Types with their tags in order that are equal but for instance keys.
  left : Canonical a
  right : Canonical b
  same : (a.keyless == b.keyless) = true

variable {m m' : Substitution} {a a' b b' c t u v v' : Ty} {as bs : List Ty}

theorem forall₂_kin (ha : ∀ x ∈ as, Canonical x) (hb : ∀ x ∈ bs, Canonical x)
    (h : (as.map keyless == bs.map keyless) = true) : List.Forall₂ Kin as bs := by
  have hsame := forall₂_of_beq h
  rw [List.forall₂_map_left_iff, List.forall₂_map_right_iff] at hsame
  exact forall₂_imp_of_mem hsame fun x hx y hy hxy => ⟨ha x hx, hb y hy, hxy⟩

theorem map_keyless_beq (h : List.Forall₂ Kin as bs) :
    (as.map keyless == bs.map keyless) = true := by
  apply beq_of_forall₂
  rw [List.forall₂_map_left_iff, List.forall₂_map_right_iff]
  exact h.imp fun _ _ h => h.same

theorem canonical_of_forall₂_kin (h : List.Forall₂ Kin as bs) :
    (∀ x ∈ as, Canonical x) ∧ ∀ x ∈ bs, Canonical x := by
  induction h with
  | nil => exact ⟨List.forall_mem_nil _, List.forall_mem_nil _⟩
  | cons h _ ih =>
    exact ⟨List.forall_mem_cons.2 ⟨h.left, ih.1⟩, List.forall_mem_cons.2 ⟨h.right, ih.2⟩⟩

theorem kin_withoutInstanceKey (h : Canonical t) : Kin t.withoutInstanceKey t where
  left := Everywhere.node h.here h.arguments h.tags
  right := h
  same := by
    rw [keyless_withoutInstanceKey]
    exact BEq.rfl

namespace Kin

theorem refl (h : Canonical a) : Kin a a :=
  ⟨h, h, BEq.rfl⟩

theorem symm (h : Kin a b) : Kin b a :=
  ⟨h.right, h.left, BEq.symm h.same⟩

theorem trans (h : Kin a b) (h' : Kin b c) : Kin a c :=
  ⟨h.left, h'.right, BEq.trans h.same h'.same⟩

theorem of_parts (head : (a.head == b.head) = true) (nullable : a.nullable = b.nullable)
    (arguments : List.Forall₂ Kin a.arguments b.arguments)
    (tags : List.Forall₂ Kin a.tags b.tags) (left : Keyed.Sorted key a.tags)
    (right : Keyed.Sorted key b.tags) : Kin a b := by
  obtain ⟨hargs, hargs'⟩ := canonical_of_forall₂_kin arguments
  obtain ⟨htags, htags'⟩ := canonical_of_forall₂_kin tags
  refine ⟨Everywhere.node left hargs htags, Everywhere.node right hargs' htags', ?_⟩
  simp only [beq_eq, keyless_eq, head, nullable, map_keyless_beq arguments, map_keyless_beq tags,
    BEq.rfl, Bool.and_self]

/-- Types that are equal even in their instance keys. -/
theorem of_beq (ha : Canonical a) (hb : Canonical b) (h : (a == b) = true) : Kin a b := by
  refine Ty.induct (P := fun a => ∀ b, Canonical a → Canonical b → (a == b) = true → Kin a b) ?_
    a b ha hb h
  intro a iha iht b ha hb h
  obtain ⟨hhead, hnull, -, hargs, htags⟩ := parts_of_beq h
  refine of_parts hhead hnull ?_ ?_ ha.here hb.here
  · exact forall₂_imp_of_mem hargs fun x hx y hy hxy =>
      iha x hx y (ha.arguments x hx) (hb.arguments y hy) hxy
  · exact forall₂_imp_of_mem htags fun x hx y hy hxy =>
      iht x hx y (ha.tags x hx) (hb.tags y hy) hxy

/-- What is known of the parts of types that are the same but for instance keys. -/
theorem parts (h : Kin a b) : (a.head == b.head) = true ∧ a.nullable = b.nullable ∧
    List.Forall₂ Kin a.arguments b.arguments ∧ List.Forall₂ Kin a.tags b.tags := by
  have hsame := h.same
  simp only [beq_eq, keyless_eq, Bool.and_eq_true, beq_iff_eq (α := Bool)] at hsame
  obtain ⟨⟨⟨⟨hhead, hnull⟩, -⟩, hargs⟩, htags⟩ := hsame
  exact ⟨hhead, hnull, forall₂_kin h.left.arguments h.right.arguments hargs,
    forall₂_kin h.left.tags h.right.tags htags⟩

theorem isStar_eq (h : Kin a b) : a.isStar = b.isStar := by
  have hstar := isStar_of_beq h.same
  rwa [keyless_eq, keyless_eq b] at hstar

theorem key_eq (h : Kin a b) : a.key = b.key := by
  have hkey := key_of_beq h.same
  rwa [keyless_eq, keyless_eq b] at hkey

theorem canonicalTags (h : List.Forall₂ Kin as bs) :
    List.Forall₂ Kin (canonicalTags as) (canonicalTags bs) :=
  Keyed.ofList_rel (fun _ _ h => h.key_eq) h

theorem withoutInstanceKey (h : Kin a b) : Kin a.withoutInstanceKey b.withoutInstanceKey :=
  of_parts h.parts.1 h.parts.2.1 h.parts.2.2.1 h.parts.2.2.2 h.left.here h.right.here

/-! ### Substitution -/

/-- In a type whose classifier is not bound everything else is replaced, whether or not that changes
anything. -/
theorem substitute_unbound {c : Classifier} {n : Bool} {ts : List Ty} {k : Option Nat}
    (ht : Canonical ⟨.named c, as, n, ts, k⟩) (hc : m.get? c = none)
    (ha : ∀ x ∈ as.map (Ty.substitute m), Canonical x)
    (hs : ∀ x ∈ ts.map (Ty.substitute m), Canonical x) :
    Kin (Ty.substitute m ⟨.named c, as, n, ts, k⟩)
      ⟨.named c, as.map (Ty.substitute m), n, Ty.canonicalTags (ts.map (Ty.substitute m)), k⟩ := by
  have hnew : Canonical
      ⟨.named c, as.map (Ty.substitute m), n, Ty.canonicalTags (ts.map (Ty.substitute m)), k⟩ :=
    Everywhere.node (Keyed.ofList_sorted key _) ha fun x hx => hs x (mem_of_mem_canonicalTags hx)
  obtain ⟨he, has, hts⟩ | he :
      ((⟨.named c, as, n, ts, k⟩ : Ty).substitute m = ⟨.named c, as, n, ts, k⟩ ∧
        (as == as.map (Ty.substitute m)) = true ∧ (ts == ts.map (Ty.substitute m)) = true) ∨ _ :=
    Ty.substitute_unbound hc
  · rw [he]
    -- the tags are sorted already
    have hold : Ty.canonicalTags ts = ts := Keyed.ofList_of_sorted ht.here
    have htags := beq_of_forall₂ (canonicalTags_beq (forall₂_of_beq hts))
    rw [hold] at htags
    refine of_beq ht hnew ?_
    simp only [beq_eq, has, htags, BEq.rfl, Bool.and_self]
  · rw [he]
    exact refl hnew

/-- If the parts become the same but for instance keys, and so do the values of the classifier itself,
then the types do. -/
theorem substitute_of_parts (h : Kin a b) (hs : a.isStar = false)
    (ha : List.Forall₂ Kin (a.arguments.map (Ty.substitute m)) (b.arguments.map (Ty.substitute m')))
    (ht : List.Forall₂ Kin (a.tags.map (Ty.substitute m)) (b.tags.map (Ty.substitute m')))
    (hself : Option.Rel Kin (m.get? a.classifier) (m'.get? a.classifier)) :
    Kin (a.substitute m) (b.substitute m') := by
  obtain ⟨hhead, hnull, -, -⟩ := h.parts
  obtain ⟨hargsl, hargsr⟩ := canonical_of_forall₂_kin ha
  obtain ⟨htagsl, htagsr⟩ := canonical_of_forall₂_kin ht
  have hl := h.left
  have hr := h.right
  obtain ⟨head, as, n, ts, k⟩ := a
  obtain ⟨head', as', n', ts', k'⟩ := b
  rcases head_of_beq hhead with ⟨rfl, rfl⟩ | ⟨c, d, rfl, rfl, hcd⟩
  · cases hs
  have hget : m'.get? d = m'.get? c :=
    (m'.get_congr (Classifier.beq_iff_key_eq.1 hcd)).symm
  change Option.Rel Kin (m.get? c) (m'.get? c) at hself
  dsimp only at hnull
  -- a bound classifier takes the value and keeps the tags; one that is not bound keeps its key
  cases hc : m.get? c with
  | some v =>
    obtain ⟨v', hc', hv⟩ := exists_of_rel_some (hc ▸ hself)
    obtain ⟨hvhead, hvnull, hvargs, hvtags⟩ := hv.parts
    rw [substitute_bound hc, substitute_bound (hget.trans hc')]
    refine of_parts hvhead ?_ hvargs (canonicalTags (List.rel_append ht hvtags))
      (Keyed.ofList_sorted key _) (Keyed.ofList_sorted key _)
    rw [hnull, hvnull]
  | none =>
    have hc' : m'.get? d = none :=
      hget.trans (eq_none_of_rel (optionRel_symm (hc ▸ hself)))
    have hmid : Kin
        ⟨.named c, as.map (Ty.substitute m), n, Ty.canonicalTags (ts.map (Ty.substitute m)), k⟩
        ⟨.named d, as'.map (Ty.substitute m'), n',
          Ty.canonicalTags (ts'.map (Ty.substitute m')), k'⟩ :=
      of_parts hhead hnull ha (canonicalTags ht) (Keyed.ofList_sorted key _)
        (Keyed.ofList_sorted key _)
    have hleft := substitute_unbound hl hc hargsl htagsl
    have hright := substitute_unbound hr hc' hargsr htagsr
    exact hleft.trans (hmid.trans hright.symm)

/-- Substitutions with values that are the same but for instance keys give such results. -/
theorem substitute (h : Kin a b)
    (hm : ∀ c ∈ a.classifiers, Option.Rel Kin (m.get? c) (m'.get? c)) :
    Kin (a.substitute m) (b.substitute m') := by
  refine Ty.induct (P := fun a => ∀ b, Kin a b →
    (∀ c ∈ a.classifiers, Option.Rel Kin (m.get? c) (m'.get? c)) →
    Kin (a.substitute m) (b.substitute m')) ?_ a b h hm
  intro a iha iht b h hm
  cases hs : a.isStar with
  | true =>
    rw [substitute_of_isStar hs, substitute_of_isStar (h.isStar_eq ▸ hs)]
    exact h
  | false =>
    obtain ⟨-, -, hargs, htags⟩ := h.parts
    refine h.substitute_of_parts hs ?_ ?_ (hm _ (classifier_mem hs))
    · rw [List.forall₂_map_left_iff, List.forall₂_map_right_iff]
      exact forall₂_imp_of_mem hargs fun x hx y _ hxy => iha x hx y hxy fun c hc =>
        hm c (mem_classifiers_of_argument hs hx hc)
    · rw [List.forall₂_map_left_iff, List.forall₂_map_right_iff]
      exact forall₂_imp_of_mem htags fun x hx y _ hxy => iht x hx y hxy fun c hc =>
        hm c (mem_classifiers_of_tag hs hx hc)

theorem above (h : Kin a b) (hsub : Kin a' b') : Kin (a.above a') (b.above b') := by
  obtain ⟨hhead, hnull, hargs, htags⟩ := h.parts
  obtain ⟨-, hnull', -, htags'⟩ := hsub.parts
  refine of_parts hhead ?_ hargs (canonicalTags (List.rel_append htags' htags))
    (Keyed.ofList_sorted key _) (Keyed.ofList_sorted key _)
  simp only [Ty.above, withNullability, hnull, hnull']

end Kin
end Ty

/-! ### Likeness -/

namespace Catalog

open Ty

variable {K : Catalog} {a a' b b' : Ty}

/-- The tags of all declared supertypes are in their stored form. -/
def DeclaresCanonical (K : Catalog) : Prop :=
  ∀ c, ∀ s ∈ K.declaredSupertypes c, Canonical s

theorem likeness_kin (hD : K.DeclaresCanonical) : K.Likeness Kin where
  symm h := h.symm
  trans h h' := h.trans h'
  of_beq ha hb h := Kin.of_beq ha.left hb.left h
  head h := h.parts.1
  nullable h := h.parts.2.1
  arguments h := h.parts.2.2.1
  tags h := h.parts.2.2.2
  parameter hk := Kin.of_parts (Classifier.beq_iff_key_eq.2 hk) rfl List.Forall₂.nil List.Forall₂.nil
    List.Pairwise.nil List.Pairwise.nil
  declared c s hs := Kin.refl (hD c s hs)
  withNullability _ h := Kin.of_parts h.parts.1 rfl h.parts.2.2.1 h.parts.2.2.2 h.left.here
    h.right.here
  remainder h hk := Kin.of_parts h.parts.1 h.parts.2.1 h.parts.2.2.1
    (forall₂_filter h.parts.2.2.2 fun _ _ hxy => congrArg not (hk.contains_eq hxy.key_eq))
    (h.left.here.filter _) (h.right.here.filter _)
  above h h' := h.above h'
  substitute h hm := h.substitute fun c _ => hm.get c

theorem supertypes_kin (hK : K.Coherent) (hD : K.DeclaresCanonical) (h : Kin a b) :
    List.Forall₂ Kin (K.supertypes a) (K.supertypes b) :=
  (likeness_kin hD).supertypes hK h

theorem subtypeWithin_kin (hK : K.Coherent) (hD : K.DeclaresCanonical) (depth : Nat)
    (ha : Kin a a') (hb : Kin b b') :
    K.subtypeWithin depth a b = K.subtypeWithin depth a' b' :=
  (likeness_kin hD).subtypeWithin_eq hK depth ha hb

/-- Instance keys have no part in subtyping. -/
theorem isSubtype_kin (hK : K.Coherent) (hD : K.DeclaresCanonical) (ha : Kin a a')
    (hb : Kin b b') : K.isSubtype a b = K.isSubtype a' b' :=
  (likeness_kin hD).isSubtype_eq hK ha hb

end Catalog
end Wiring
