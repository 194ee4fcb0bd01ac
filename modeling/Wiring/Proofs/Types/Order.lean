import Wiring.Proofs.Types.Ascent

/-!
Types that are below each other are the same, so nothing is lost where arguments are compared both
ways, and what a type is below of is found above the view in between.
-/
namespace Wiring

open Ty

/-! ### Tags in order -/

/-- Lists of tags in order of their keys that have corresponding tags correspond one by one. -/
theorem Ty.forall₂_of_lookupTag {R : Ty → Ty → Prop} {ss ts : List Ty}
    (hs : Keyed.Sorted key ss) (ht : Keyed.Sorted key ts)
    (h : ∀ c, Option.Rel R (lookupTag ss c) (lookupTag ts c)) : List.Forall₂ R ss ts := by
  induction ss generalizing ts with
  | nil =>
    cases ts with
    | nil => exact List.Forall₂.nil
    | cons t ts =>
      have ht := h t.classifier
      rw [lookupTag_cons, if_pos BEq.rfl] at ht
      cases ht
  | cons s ss ih =>
    cases ts with
    | nil =>
      have hs := h s.classifier
      rw [lookupTag_cons, if_pos BEq.rfl] at hs
      cases hs
    | cons t ts =>
      obtain ⟨hsmall, hss⟩ := List.pairwise_cons.1 hs
      obtain ⟨htsmall, hts⟩ := List.pairwise_cons.1 ht
      have hself : ∀ (u : Ty) us, lookupTag (u :: us) u.classifier = some u := fun u us => by
        rw [lookupTag_cons, if_pos BEq.rfl]
      -- the tag of either list with the least key has a counterpart in the other one
      have hk : s.key = t.key := by
        obtain ⟨t', ht', -⟩ := exists_of_rel_some (hself s ss ▸ h s.classifier)
        obtain ⟨s', hs', -⟩ := exists_of_rel_some (optionRel_symm (hself t ts ▸ h t.classifier))
        rcases List.mem_cons.1 (mem_of_lookupTag ht') with rfl | hmem
        · exact (key_of_lookupTag ht').symm
        rcases List.mem_cons.1 (mem_of_lookupTag hs') with rfl | hmem'
        · exact key_of_lookupTag hs'
        have hts : t.key < s.key := lt_of_lt_of_eq (htsmall t' hmem) (key_of_lookupTag ht')
        have hst : s.key < t.key := lt_of_lt_of_eq (hsmall s' hmem') (key_of_lookupTag hs')
        exact absurd (String.lt_trans hts hst) (String.lt_irrefl _)
      have hc : ∀ c, (s.classifier == c) = (t.classifier == c) := fun c =>
        BEq.congr_left (Classifier.beq_iff_key_eq.2 hk)
      refine List.Forall₂.cons ?_ (ih hss hts fun c => ?_)
      · have hhead := h s.classifier
        rw [hself, lookupTag_cons, ← hc, if_pos BEq.rfl] at hhead
        cases hhead with
        | some h => exact h
      · cases hsc : s.classifier == c with
        | true =>
          have hkc : s.key = c.key := Classifier.beq_iff_key_eq.1 hsc
          rw [lookupTag_eq_none_iff.2 fun u hu he => String.lt_irrefl _ (he ▸ hkc ▸ hsmall u hu),
            lookupTag_eq_none_iff.2 fun u hu he =>
              String.lt_irrefl _ (he ▸ hkc ▸ hk ▸ htsmall u hu)]
          exact Option.Rel.none
        | false =>
          have htail := h c
          rwa [lookupTag_cons, lookupTag_cons, ← hc, hsc] at htail

namespace Catalog

open Relation

variable {K : Catalog} {a b c t u : Ty} {goal : Classifier}

/-! ### Types without stars -/

abbrev StarFree (t : Ty) : Prop :=
  Everywhere (fun t => t.isStar = false) t

/-- A well-formed type without stars. -/
structure Solid (K : Catalog) (t : Ty) : Prop where
  wellFormed : K.WellFormed t
  starFree : StarFree t

theorem Solid.arguments (h : K.Solid t) : ∀ x ∈ t.arguments, K.Solid x := fun x hx =>
  ⟨h.wellFormed.arguments x hx, h.starFree.arguments x hx⟩

theorem Solid.tags (h : K.Solid t) : ∀ x ∈ t.tags, K.Solid x := fun x hx =>
  ⟨h.wellFormed.tags x hx, h.starFree.tags x hx⟩

theorem Solid.canonical (h : K.Solid t) : Canonical t :=
  canonical_of_wellFormed h.wellFormed

/-- Solid types that are compatible are the same but for instance keys. -/
theorem kin_of_compatible (h : Compatible a b) (ha : K.Solid a) (hb : K.Solid b) : Kin a b := by
  induction h using Agree.induct with
  | star a b h =>
    have has := ha.starFree.here
    have hbs := hb.starFree.here
    simp [has, hbs] at h
  | node a b left right hk nullable _ _ arguments tags =>
    have hhead : (a.head == b.head) = true := by
      obtain ⟨head, as, n, ts, k⟩ := a
      obtain ⟨head', as', n', ts', k'⟩ := b
      cases head with
      | star => cases left
      | named c =>
        cases head' with
        | star => cases right
        | named d => exact Classifier.beq_iff_key_eq.2 hk
    refine Kin.of_parts hhead nullable ?_ (forall₂_of_lookupTag ?_ ?_ fun c => ?_)
      ha.wellFormed.here.sorted hb.wellFormed.here.sorted
    · exact forall₂_imp_of_mem arguments fun x hx y hy ⟨_, ih⟩ =>
        ih (ha.arguments x hx) (hb.arguments y hy)
    · exact ha.wellFormed.here.sorted
    · exact hb.wellFormed.here.sorted
    · exact optionRel_imp_of_mem (tags c) fun x y hx hy ⟨_, ih⟩ =>
        ih (ha.tags x (mem_of_lookupTag hx)) (hb.tags y (mem_of_lookupTag hy))

/-- Solid types that are below each other are the same but for instance keys. -/
theorem kin_of_below (hK : K.Hierarchy) (hT : K.SingleTop) (ha : K.Solid a) (hb : K.Solid b)
    (hab : K.Below a b) (hba : K.Below b a) : Kin a b :=
  kin_of_compatible (compatible_of_below hK hT ha.wellFormed hb.wellFormed hab hba) ha hb

/-! ### Going up -/

/-- No star is declared as a supertype or as a part of one. -/
def DeclaresStarFree (K : Catalog) : Prop :=
  ∀ c, ∀ s ∈ K.declaredSupertypes c, StarFree s

/-- All ways up from a solid type to one classifier yield the same arguments, but for instance
keys. -/
def SameArguments (K : Catalog) : Prop :=
  ∀ t, K.Solid t → ∀ u v, TransGen K.Climbs t u → TransGen K.Climbs t v → u.key = v.key →
    (u.arguments.map keyless == v.arguments.map keyless) = true

theorem Solid.supertypes (ht : K.Solid t) (hK : K.Hierarchy) (hS : K.DeclaresStarFree) :
    ∀ s ∈ K.supertypes t, K.Solid s := by
  intro s hs
  refine ⟨hK.wellFormed_supertypes ht.wellFormed s hs, ?_⟩
  obtain ⟨d, hd, rfl⟩ := exists_declared hs
  have hvalues : ∀ c v, (K.argumentsOf t).get? c = some v → StarFree v := fun c v hv =>
    ht.starFree.arguments v (of_get_argumentsOf hv).1
  have hsub : StarFree (d.substitute (K.argumentsOf t)) :=
    Everywhere.substitute (hS _ d hd) (fun _ h => h) hvalues fun _ h =>
      isStar_substitute h fun c v hv => (hvalues c v hv).here
  refine Everywhere.node hsub.here hsub.arguments fun x hx => ?_
  rcases List.mem_append.1 (mem_of_mem_canonicalTags hx) with hx | hx
  · exact ht.starFree.tags x hx
  · exact hsub.tags x hx

theorem Solid.view (ht : K.Solid t) (hK : K.Hierarchy) (hS : K.DeclaresStarFree)
    (hu : K.view? t goal = some u) : K.Solid u :=
  (of_view (fun _ ht => ht.supertypes hK hS) ht hu).1

structure Akin (a b : Ty) : Prop where
  -- Types that differ in their dress and in instance keys.
  key : a.key = b.key
  isStar : a.isStar = b.isStar
  arguments : List.Forall₂ Kin a.arguments b.arguments

/-- What is above such types corresponds, since only their arguments are put in. -/
theorem Akin.supertypes (hK : K.Ascending) (h : Akin a b) :
    List.Forall₂ Akin (K.supertypes a) (K.supertypes b) := by
  cases hs : a.isStar with
  | true =>
    rw [supertypes_of_isStar hs, supertypes_of_isStar (h.isStar ▸ hs)]
    exact List.Forall₂.nil
  | false =>
    have hbs : b.isStar = false := h.isStar ▸ hs
    rw [supertypes_eq hs, supertypes_eq hbs, hK.coherent.declaredSupertypes_eq h.key,
      List.forall₂_map_left_iff, List.forall₂_map_right_iff]
    refine List.forall₂_same.2 fun d hd => ?_
    have hkin : Kin (d.substitute (K.argumentsOf a)) (d.substitute (K.argumentsOf b)) := by
      refine (Kin.refl (hK.canonical _ d hd)).substitute fun c _ => ?_
      rw [argumentsOf_eq hs, argumentsOf_eq hbs, hK.coherent.typeParameters_eq h.key]
      exact get_ofArguments_rel _ h.arguments c
    exact ⟨hkin.key_eq, hkin.isStar_eq, hkin.parts.2.2.1⟩

theorem Akin.view (hK : K.Ascending) (h : Akin a b) (hu : K.view? b goal = some u) :
    ∃ v, K.view? a goal = some v ∧ Akin v u := by
  have hrel : Option.Rel Akin (K.view? a goal) (K.view? b goal) :=
    view_rel (fun _ _ h => h.key) (fun _ _ h => h.supertypes hK) h rfl
  rw [hu] at hrel
  obtain ⟨v, hv, hvu⟩ := exists_of_rel_some (optionRel_symm hrel)
  exact ⟨v, hv, hvu⟩

/-- A type has a view by the classifier of each type above it, with the arguments of that one. -/
theorem SameArguments.exists_view (hR : K.SameArguments) (hK : K.Hierarchy)
    (hS : K.DeclaresStarFree) (ht : K.Solid t) (hup : ReflTransGen K.Climbs t u)
    (hk : u.key = goal.key) :
    ∃ v, K.view? t goal = some v ∧ List.Forall₂ Kin v.arguments u.arguments := by
  have hsolid : ∀ s, ReflTransGen K.Climbs t s → K.Solid s := by
    intro s hs
    induction hs with
    | refl => exact ht
    | tail _ hs ih => exact ih.supertypes hK hS _ hs
  obtain ⟨v, hv⟩ := Catalog.exists_view (P := K.Solid) (fun _ ht => ht.supertypes hK hS)
    (fun _ _ ht hu => exists_supertype_of_key_eq hK.coherent hK.proper
      (ht.starFree.here.trans hu.starFree.here.symm)) ht hup hk
  obtain ⟨hvup, hvk⟩ := climbs_of_view hv
  refine ⟨v, hv, forall₂_kin (fun x hx => (hsolid v hvup).canonical.arguments x hx)
    (fun x hx => (hsolid u hup).canonical.arguments x hx) ?_⟩
  -- neither way goes back to the classifier of `t`
  rcases reflTransGen_iff_eq_or_transGen.1 hvup with rfl | hvup
  · rcases reflTransGen_iff_eq_or_transGen.1 hup with rfl | hup
    · exact BEq.rfl
    · exact absurd (hk.trans hvk.symm) (key_ne_of_climbs hK.ascending hup)
  · rcases reflTransGen_iff_eq_or_transGen.1 hup with rfl | hup
    · exact absurd (hvk.trans hk.symm) (key_ne_of_climbs hK.ascending hvup)
    · exact hR t ht v u hvup hup (hvk.trans hk.symm)

/-! ### Three types in a row -/

theorem below_kin (hK : K.Ascending) {a' b' : Ty} (ha : Kin a a') (hb : Kin b b')
    (h : K.Below a' b') : K.Below a b := by
  obtain ⟨depth, h⟩ := h
  exact ⟨depth, (subtypeWithin_kin hK.coherent hK.canonical depth ha hb).trans h⟩

/-- The view by a type above a supertype. -/
theorem Assigned.view_trans (hK : K.Hierarchy) (hT : K.SingleTop) (hS : K.DeclaresStarFree)
    (hR : K.SameArguments) (ha : K.Solid a) (hb : K.Solid b) (hc : K.Solid c)
    (hab : K.Assigned a b) (hbc : K.Assigned b c) :
    (K.flagsOf c).top = true ∨ ∃ view, K.view? a c.classifier = some view ∧
      List.Forall₂ (fun x y => K.Below x y ∧ K.Below y x) view.arguments c.arguments := by
  rcases hbc.view with htop | ⟨w, hw, hargs⟩
  · exact Or.inl htop
  rcases hab.view with htop | ⟨v, hv, hargs'⟩
  · -- nothing is above the top type but itself
    refine Or.inl ?_
    have hbs := hb.starFree.here
    rw [flagsOf_of_named hbs] at htop
    have hk := key_of_view_of_topmost (hT.supertypes _ htop) hw
    rwa [← flagsOf_congr hK.coherent hbs hc.starFree.here hk, flagsOf_of_named hbs]
  · have hvs := ha.view hK hS hv
    have hvk := (climbs_of_view hv).2
    have hakin : Akin v b := by
      refine ⟨hvk, hvs.starFree.here.trans hb.starFree.here.symm, ?_⟩
      exact forall₂_imp_of_mem hargs' fun x hx y hy h =>
        kin_of_below hK hT (hvs.arguments x hx) (hb.arguments y hy) h.1 h.2
    obtain ⟨v', hv', hvw⟩ := hakin.view hK.ascending hw
    have hup := (climbs_of_view hv).1.trans (climbs_of_view hv').1
    obtain ⟨z, hz, hzv⟩ := hR.exists_view hK hS ha hup (climbs_of_view hv').2
    have hzw : List.Forall₂ Kin z.arguments w.arguments :=
      forall₂_trans_of (fun _ _ _ h h' => h.trans h') hzv hvw.arguments
    have hargs : List.Forall₂ (fun x y => (K.Below x y ∧ K.Below y x) ∧ Kin y y) w.arguments
        c.arguments := forall₂_imp_of_mem hargs fun _ _ y hy h =>
      ⟨h, Kin.refl (hc.arguments y hy).canonical⟩
    refine Or.inr ⟨z, hz, forall₂_trans_of (fun _ _ _ hkin h => ⟨?_, ?_⟩) hzw hargs⟩
    · exact below_kin hK.ascending hkin h.2 h.1.1
    · exact below_kin hK.ascending h.2 hkin h.1.2

/-- A subtype of a subtype is a subtype. -/
theorem Below.trans (hK : K.Hierarchy) (hT : K.SingleTop) (hS : K.DeclaresStarFree)
    (hR : K.SameArguments) (ha : K.Solid a) (hb : K.Solid b) (hc : K.Solid c)
    (hab : K.Below a b) (hbc : K.Below b c) : K.Below a c := by
  refine Ty.induct (P := fun c => ∀ a b, K.Solid a → K.Solid b → K.Solid c → K.Below a b →
    K.Below b c → K.Below a c) ?_ c a b ha hb hc hab hbc
  intro c _ iht a b ha hb hc hab hbc
  have hab := hab.assigned ha.starFree.here hb.starFree.here
  have hbc := hbc.assigned hb.starFree.here hc.starFree.here
  refine Assigned.below ⟨fun hn => hbc.nullable (hab.nullable hn), fun needed hn => ?_,
    hab.view_trans hK hT hS hR ha hb hc hbc⟩
  -- the tag that `b` has for it is needed of `a`
  obtain ⟨inner, hi, hin⟩ := hbc.tags needed hn
  obtain ⟨present, hp, hpi⟩ := hab.tags inner (mem_of_lookupTag hi)
  rw [tag_eq_lookupTag, lookupTag_congr _ (key_of_lookupTag hi)] at hp
  exact ⟨present, hp, iht needed hn present inner (ha.tags _ (mem_of_lookupTag hp))
    (hb.tags _ (mem_of_lookupTag hi)) (hc.tags _ hn) hpi hin⟩

/-- Subtyping is a partial order on the types without stars, where types that are the same but for
instance keys count as equal. -/
theorem isSubtype_partialOrder (hK : K.Hierarchy) (hT : K.SingleTop) (hS : K.DeclaresStarFree)
    (hR : K.SameArguments) (ha : K.Solid a) (hb : K.Solid b) (hc : K.Solid c) :
    K.isSubtype a a = true ∧
      (K.isSubtype a b = true → K.isSubtype b c = true → K.isSubtype a c = true) ∧
      (K.isSubtype a b = true → K.isSubtype b a = true → (a.keyless == b.keyless) = true) := by
  have hiff : ∀ x y, K.Solid x → K.Solid y → (K.isSubtype x y = true ↔ K.Below x y) :=
    fun _ _ hx hy => isSubtype_iff_below hK.ascending hT.supertypes hx.canonical hy.canonical
  have hdistinct := ha.canonical.distinct
  refine ⟨isSubtype_of_compatible (Agree.refl a) hdistinct hdistinct, fun hab hbc => ?_,
    fun hab hba => ?_⟩
  · rw [hiff _ _ ha hb] at hab
    rw [hiff _ _ hb hc] at hbc
    exact (hiff _ _ ha hc).2 (hab.trans hK hT hS hR ha hb hc hbc)
  · rw [hiff _ _ ha hb] at hab
    rw [hiff _ _ hb ha] at hba
    exact (kin_of_below hK hT ha hb hab hba).same

def storehouse : Catalog where
  entries :=
    [("Any", [{ flags := { top := true } }]),
      ("Int", [{}]),
      ("P", [{ flags := { typeParameter := true } }]),
      ("Store", [{ typeParameters := [⟨"P", 0⟩] }]),
      ("Crate", [{
        typeParameters := [⟨"P", 0⟩], supertypes := some [unary "Store" (.of ⟨"P", 0⟩)] }]),
      ("Shelf", [{
        typeParameters := [⟨"P", 0⟩], supertypes := some [unary "Store" (.of ⟨"P", 0⟩)] }]),
      ("Box", [{
        typeParameters := [⟨"P", 0⟩]
        supertypes := some [unary "Crate" (.of ⟨"P", 0⟩), unary "Shelf" (.of ⟨"P", 0⟩)] }])]

theorem single_storehouse : storehouse.Single := by decide

def storage : List (String × String) :=
  [("Crate", "Store"), ("Shelf", "Store"), ("Box", "Crate"), ("Box", "Shelf")]

/-- Supertypes are declared with the parameter as their argument. -/
theorem supertypes_storehouse {d : Classifier} {s : Ty}
    (h : s ∈ storehouse.declaredSupertypes d) : storehouse.typeParameters d = [⟨"P", 0⟩] ∧
      ∃ e ∈ storage, d.key = e.1 ∧ s = unary e.2 (.of ⟨"P", 0⟩) :=
  single_storehouse.entry_induction
    (P := fun entry => ∀ s ∈ entry.supertypes.getD [], entry.typeParameters = [⟨"P", 0⟩] ∧
      ∃ e ∈ storage, d.key = e.1 ∧ s = unary e.2 (.of ⟨"P", 0⟩))
    d (by simp) (by simp +contextual [storehouse, storage]) s h

theorem solid_of (hp : K.typeParameters goal = []) : K.Solid (.of goal) :=
  ⟨wellFormed_of hp, Everywhere.node rfl (List.forall_mem_nil _) (List.forall_mem_nil _)⟩

theorem solid_unary {key : String} (hk : (K.typeParameters ⟨key, 0⟩).length = 1) (ht : K.Solid t) :
    K.Solid (unary key t) := by
  refine ⟨Everywhere.node ⟨nofun, fun _ => hk.symm, List.Pairwise.nil⟩
    (List.forall_mem_singleton.2 ht.wellFormed) (List.forall_mem_nil _), ?_⟩
  exact Everywhere.node rfl (List.forall_mem_singleton.2 ht.starFree) (List.forall_mem_nil _)

theorem solid_storehouse {d : Classifier} {s : Ty} (h : s ∈ storehouse.declaredSupertypes d) :
    storehouse.Solid s := by
  obtain ⟨-, e, he, -, rfl⟩ := supertypes_storehouse h
  have harity : ∀ e ∈ storage, (storehouse.typeParameters ⟨e.2, 0⟩).length = 1 := by decide
  exact solid_unary (harity e he) (solid_of rfl)

theorem hierarchy_storehouse : storehouse.Hierarchy where
  coherent := single_storehouse.coherent
  wellFormed _ _ hs := (solid_storehouse hs).wellFormed
  proper c s hs _ := by
    obtain ⟨hp, e, he, -, rfl⟩ := supertypes_storehouse hs
    have hother : ∀ e ∈ storage, [(⟨"P", 0⟩ : Classifier)].contains ⟨e.2, 0⟩ = false := by decide
    rw [hp]
    exact hother e he
  acyclic := by
    refine acyclic_of_rank (fun k => ["Store", "Crate", "Shelf", "Box"].idxOf k) ?_
    rintro _ _ ⟨c, rfl, s, hs, rfl⟩
    obtain ⟨-, e, he, hk, rfl⟩ := supertypes_storehouse hs
    have hdown : ∀ e ∈ storage, ["Store", "Crate", "Shelf", "Box"].idxOf e.2 <
      ["Store", "Crate", "Shelf", "Box"].idxOf e.1 := by decide
    rw [hk]
    exact hdown e he

theorem singleTop_storehouse : storehouse.SingleTop := by
  have htop : ∀ c, (storehouse.flags c).top = true → c.key = "Any" := fun c =>
    single_storehouse.entry_induction (P := fun e => e.flags.top = true → c.key = "Any") c (by simp)
      (by simp +contextual [storehouse])
  refine ⟨fun c d hc hd => (htop c hc).trans (htop d hd).symm, fun c hc => ?_, fun c hc => ?_⟩
  · exact single_storehouse.coherent.typeParameters_eq (d := ⟨"Any", 0⟩) (htop c hc)
  · exact single_storehouse.coherent.declaredSupertypes_eq (d := ⟨"Any", 0⟩) (htop c hc)

/-- The only argument of a type becomes that of each supertype. -/
theorem kin_arguments_storehouse (ht : storehouse.Solid t) (hu : u ∈ storehouse.supertypes t) :
    List.Forall₂ Kin u.arguments t.arguments := by
  obtain ⟨s, hs, rfl⟩ := exists_declared hu
  obtain ⟨hp, e, he, -, rfl⟩ := supertypes_storehouse hs
  have hstar := ht.starFree.here
  obtain ⟨x, hx⟩ : ∃ x, t.arguments = [x] := by
    rw [← List.length_eq_one_iff, ht.wellFormed.here.arity hstar, hp]
    rfl
  have hxc : Canonical x := ht.canonical.arguments x (hx ▸ List.mem_singleton_self x)
  have hm : storehouse.argumentsOf t = .ofArguments [⟨"P", 0⟩] [x] := by
    rw [argumentsOf_eq hstar, hp, hx]
  -- every supertype applies its classifier to the parameter, which the argument replaces
  have hparameter : (Ty.of ⟨"P", 0⟩).substitute (.ofArguments [⟨"P", 0⟩] [x]) = x := by
    have hsame : canonicalTags x.tags = x.tags := Keyed.ofList_of_sorted hxc.here
    rw [show Ty.of ⟨"P", 0⟩ = ⟨.named ⟨"P", 0⟩, [], false, [], none⟩ from rfl,
      substitute_bound (v := x) rfl, List.map_nil, List.nil_append, hsame, Bool.false_or,
      Option.none_or]
    cases x
    rfl
  have hnone := Proper.get_argumentsOf hierarchy_storehouse.proper hs rfl
  rw [hm] at hnone ⊢
  have hkin := Kin.substitute_unbound (solid_storehouse hs).canonical hnone
    (by simpa [hparameter] using hxc) (by simp)
  rw [hx]
  have hargs := hkin.parts.2.2.1
  rwa [List.map_singleton, hparameter] at hargs

theorem starFree_storehouse : storehouse.DeclaresStarFree :=
  fun _ _ hs => (solid_storehouse hs).starFree

theorem sameArguments_storehouse : storehouse.SameArguments := by
  have htrans : ∀ {as bs cs : List Ty}, List.Forall₂ Kin as bs → List.Forall₂ Kin bs cs →
      List.Forall₂ Kin as cs := forall₂_trans_of fun _ _ _ h h' => h.trans h'
  have habove : ∀ t u, storehouse.Solid t → TransGen storehouse.Climbs t u →
      storehouse.Solid u ∧ List.Forall₂ Kin u.arguments t.arguments := by
    intro t u ht hu
    induction hu with
    | single hu =>
      exact ⟨ht.supertypes hierarchy_storehouse starFree_storehouse _ hu,
        kin_arguments_storehouse ht hu⟩
    | tail _ hv ih =>
      exact ⟨ih.1.supertypes hierarchy_storehouse starFree_storehouse _ hv,
        htrans (kin_arguments_storehouse ih.1 hv) ih.2⟩
  intro t ht u v hu hv _
  have hback := (habove t v ht hv).2.flip.imp fun _ _ h => Kin.symm h
  exact map_keyless_beq (htrans (habove t u ht hu).2 hback)

/-- A certain box of integers is a shelf, and so a store of them, and it is the same as any other box of
integers but for its key. -/
theorem box_ordered :
    storehouse.isSubtype ((unary "Box" (.of ⟨"Int", 0⟩)).withInstanceKey (some 7))
        (unary "Store" (.of ⟨"Int", 0⟩)) = true ∧
      (((unary "Box" (.of ⟨"Int", 0⟩)).withInstanceKey (some 7)).keyless ==
        (unary "Box" (.of ⟨"Int", 0⟩)).keyless) = true := by
  have hint : storehouse.Solid (.of ⟨"Int", 0⟩) := solid_of rfl
  have hbox : storehouse.Solid (unary "Box" (.of ⟨"Int", 0⟩)) := solid_unary rfl hint
  have hkeyed : storehouse.Solid ((unary "Box" (.of ⟨"Int", 0⟩)).withInstanceKey (some 7)) :=
    ⟨Everywhere.node ⟨nofun, fun _ => rfl, List.Pairwise.nil⟩ hbox.wellFormed.arguments
      (List.forall_mem_nil _), Everywhere.node rfl hbox.starFree.arguments (List.forall_mem_nil _)⟩
  have hup := isSubtype_partialOrder hierarchy_storehouse singleTop_storehouse starFree_storehouse
    sameArguments_storehouse hkeyed (b := unary "Shelf" (.of ⟨"Int", 0⟩))
    (c := unary "Store" (.of ⟨"Int", 0⟩)) (solid_unary rfl hint) (solid_unary rfl hint)
  have hsame := isSubtype_partialOrder hierarchy_storehouse singleTop_storehouse starFree_storehouse
    sameArguments_storehouse hkeyed hbox hbox
  exact ⟨hup.2.1 (by decide +kernel) (by decide +kernel),
    hsame.2.2 (by decide +kernel) (by decide +kernel)⟩

end Catalog
end Wiring
