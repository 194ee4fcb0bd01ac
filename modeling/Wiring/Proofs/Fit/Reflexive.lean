import Wiring.Proofs.Fit.Closed
import Wiring.Proofs.Fit.Halting

namespace Wiring.Fit

open Ty Catalog UnionFind

variable {K : Catalog} {vars : List Classifier} {U : UnionFind} {b : U.Table} {c r t value : Ty}
  {variance : Variance} {compare : Compare U} {v : Classifier} {f : Ty → Ty} {deep : Prop}
  {R : Ty → Ty → Prop}

/-! ### Walks in step -/

/-- A fold over images goes in step with one over what they are images of. -/
theorem foldlM_image {α β : Type} {p : U.Table → β → Result U} {q : U.Table → α → Result U}
    {g : α → β} {xs : List α} {ys : List β} (hys : xs.map g = ys) (h : ∀ a ∈ xs, ∀ b, p b (g a) = q b a)
    (b : U.Table) : ys.foldlM p b = xs.foldlM q b := by
  subst hys
  rw [List.foldlM_map]
  induction xs generalizing b with
  | nil => rfl
  | cons a xs ih =>
    rw [List.foldlM_cons, List.foldlM_cons, h a (List.mem_cons_self ..)]
    exact bind_congr fun b => ih (fun a ha => h a (List.mem_cons_of_mem _ ha)) b

def comparePairs (compare : Compare U) (pairs : List (Ty × Ty)) (b : U.Table) : Result U :=
  pairs.foldlM (fun b p => compare .invariant p.1 p.2 b) b

structure Abreast (ts us : List Ty) : Prop where
  -- Tags with the same classifiers, one to a classifier.
  key : List.Forall₂ (fun t u => t.key = u.key) ts us
  distinct : (ts.map Ty.key).Nodup

namespace Abreast

variable {ts us : List Ty} {p : Ty × Ty}

theorem map_key_eq (h : Abreast ts us) : ts.map Ty.key = us.map Ty.key := by
  rw [← List.forall₂_eq_eq_eq, List.forall₂_map_left_iff, List.forall₂_map_right_iff]
  exact h.key

/-- What is found for a tag on one side is its counterpart on the other. -/
theorem lookupTag_left (h : Abreast ts us) (hp : p ∈ ts.zip us) :
    lookupTag ts p.2.classifier = some p.1 := by
  have hk : p.1.key = p.2.key := (List.forall₂_iff_zip.1 h.key).2 hp
  rw [lookupTag_congr _ hk.symm]
  exact lookupTag_of_mem h.distinct (List.of_mem_zip hp).1

theorem lookupTag_right (h : Abreast ts us) (hp : p ∈ ts.zip us) :
    lookupTag us p.1.classifier = some p.2 := by
  have hk : p.1.key = p.2.key := (List.forall₂_iff_zip.1 h.key).2 hp
  rw [lookupTag_congr _ hk]
  exact lookupTag_of_mem (h.map_key_eq ▸ h.distinct) (List.of_mem_zip hp).2

theorem map_fst_zip (h : Abreast ts us) : (ts.zip us).map Prod.fst = ts :=
  List.map_fst_zip (Nat.le_of_eq h.key.length_eq)

theorem map_snd_zip (h : Abreast ts us) : (ts.zip us).map Prod.snd = us :=
  List.map_snd_zip (Nat.le_of_eq h.key.length_eq.symm)

end Abreast

theorem unifyCandidateTags_zip (h : Abreast c.tags r.tags) :
    unifyCandidateTags compare c r b = comparePairs compare (c.tags.zip r.tags) b := by
  refine foldlM_image h.map_fst_zip (fun p hp b => ?_) b
  rw [tag_eq_lookupTag, h.lookupTag_right hp]

theorem unifyRequestedTags_zip (h : Abreast c.tags r.tags) :
    unifyRequestedTags compare c r b = comparePairs compare (c.tags.zip r.tags) b := by
  refine foldlM_image h.map_snd_zip (fun p hp b => ?_) b
  rw [tag_eq_lookupTag, h.lookupTag_left hp]

/-- Types of one classifier are compared tag by tag and argument by argument. -/
theorem unifyConcrete_zip (h : Abreast c.tags r.tags) (hk : c.key = r.key)
    (hn : r.nullable = c.nullable) (hlen : c.arguments.length = r.arguments.length)
    (htop : variance = .covariant → (K.flagsOf r).top = true → c.arguments = []) :
    unifyConcrete K compare variance c r b =
      comparePairs compare (c.tags.zip r.tags) b >>=
        comparePairs compare (c.arguments.zip r.arguments) := by
  have hnull : nullabilityFits variance c r = true := by
    cases variance <;> simp [nullabilityFits, hn]
  have hextra : c.tags.find? (fun tag => (r.tag? tag.classifier).isNone) = none := by
    refine find_eq_none_iff.2 fun tag hmem => ?_
    rw [← h.map_fst_zip] at hmem
    obtain ⟨p, hp, rfl⟩ := List.mem_map.1 hmem
    rw [tag_eq_lookupTag, h.lookupTag_right hp]
    rfl
  have hview : viewFor? K variance c r = some c := by
    cases variance with
    | covariant => exact view_self hk
    | invariant =>
      rw [viewFor?]
      exact if_pos (Classifier.beq_iff_key_eq.2 hk)
  simp only [unifyConcrete, hnull, unifyRequestedTags_zip h, hextra, hview, if_pos hlen]
  refine bind_congr fun b => ?_
  split
  · next h =>
    rw [htop h.1 h.2]
    rfl
  · rfl

def compareImages (compare : Compare U) (f : Ty → Ty) (ts : List Ty) (b : U.Table) : Result U :=
  ts.foldlM (fun b t => compare .invariant t (f t) b) b

structure KeepsKeys (f : Ty → Ty) (ts : List Ty) : Prop where
  -- The types have different classifiers, which `f` keeps.
  key : ∀ t ∈ ts, (f t).key = t.key
  distinct : (ts.map Ty.key).Nodup

theorem KeepsKeys.abreast {ts : List Ty} (h : KeepsKeys f ts) : Abreast ts (ts.map f) where
  key := by
    rw [List.forall₂_map_right_iff]
    exact List.forall₂_same.2 fun t ht => (h.key t ht).symm
  distinct := h.distinct

theorem comparePairs_image (compare : Compare U) (f : Ty → Ty) (ts : List Ty) (b : U.Table) :
    comparePairs compare (ts.zip (ts.map f)) b = compareImages compare f ts b := by
  have hzip : ts.zip (ts.map f) = ts.map fun t => (t, f t) := by
    simpa using List.zip_map' (l := ts) (f := id) (g := f)
  rw [comparePairs, hzip, List.foldlM_map, compareImages]

theorem unifyCandidateTags_image (hf : KeepsKeys f c.tags) (hr : r.tags = c.tags.map f) :
    unifyCandidateTags compare c r b = compareImages compare f c.tags b := by
  rw [unifyCandidateTags_zip (hr ▸ hf.abreast), hr, comparePairs_image]

/-- Here one type is the image of the other, part by part. -/
theorem unifyConcrete_image (hf : KeepsKeys f c.tags) (hk : c.key = r.key)
    (hn : r.nullable = c.nullable) (ht : r.tags = c.tags.map f)
    (ha : r.arguments = c.arguments.map f)
    (htop : variance = .covariant → (K.flagsOf r).top = true → c.arguments = []) :
    unifyConcrete K compare variance c r b =
      compareImages compare f c.tags b >>= compareImages compare f c.arguments := by
  have hlen : c.arguments.length = r.arguments.length := by rw [ha, List.length_map]
  rw [unifyConcrete_zip (ht ▸ hf.abreast) hk hn hlen htop, ht, ha, comparePairs_image]
  exact bind_congr fun b => comparePairs_image compare f c.arguments b

/-! ### A type and itself -/

structure Sameness (K : Catalog) (R : Ty → Ty → Prop) : Prop where
  -- A relation between types that a walk takes for the same: their parts are related again.
  isStar {c r : Ty} : R c r → c.isStar = r.isStar
  key {c r : Ty} : R c r → c.key = r.key
  isParameter {c r : Ty} : R c r → K.isParameter c = K.isParameter r
  nullable {c r : Ty} : R c r → c.nullable = r.nullable
  arguments {c r : Ty} : R c r → List.Forall₂ R c.arguments r.arguments
  tags {c r : Ty} : R c r → List.Forall₂ R c.tags r.tags

theorem sameness_eq (K : Catalog) : Sameness K Eq where
  isStar h := h ▸ rfl
  key h := h ▸ rfl
  isParameter h := h ▸ rfl
  nullable h := h ▸ rfl
  arguments h := h ▸ List.forall₂_same.2 fun _ _ => rfl
  tags h := h ▸ List.forall₂_same.2 fun _ _ => rfl

theorem sameness_beq (hK : K.ParametersByKey) : Sameness K fun c r => (c == r) = true where
  isStar h := isStar_of_beq h
  key h := key_of_beq h
  isParameter h := hK.isParameter_eq (isStar_of_beq h) (key_of_beq h)
  nullable h := (parts_of_beq h).nullable
  arguments h := (parts_of_beq h).arguments
  tags h := (parts_of_beq h).tags

/-- A variable that meets itself is not bound. -/
theorem bindVariable_self (hv : asVariable? K vars value = some v) (ht : value.tags = [])
    (hn : value.nullable = false) : bindVariable K vars compare v value b = .ok b := by
  simp [bindVariable, unifyVariables, hv, ht, hn, joined_refl]

namespace Sameness

variable (hR : Sameness K R) (h : R c r)
include hR h

theorem asVariable_eq : asVariable? K vars c = asVariable? K vars r := by
  have hfind : (fun v : Classifier => v == c.classifier) = fun v => v == r.classifier :=
    funext fun v => BEq.congr_right (Classifier.beq_iff_key_eq.2 (hR.key h))
  rw [asVariable?, asVariable?, hR.isParameter h, hfind]

theorem abreast (hd : DistinctAt c) : Abreast c.tags r.tags :=
  ⟨(hR.tags h).imp fun _ _ h => hR.key h, hd⟩

/-- Where a variable meets itself its tags and its null are taken away, and the variable is left. -/
theorem bindRequested_eq (hd : DistinctAt c) (hv : asVariable? K vars c = some v) :
    bindRequested K vars compare variance v c r b = unifyRequestedTags compare c r b := by
  let value := (c.withoutTags (r.tags.map Ty.classifier)).withoutInstanceKey
  have htags : value.tags = [] := by
    refine List.filter_eq_nil_iff.2 fun tag htag => ?_
    have hkey : tag.key ∈ r.tags.map Ty.key :=
      (hR.abreast h hd).map_key_eq ▸ List.mem_map_of_mem htag
    obtain ⟨tag', htag', hk⟩ := List.mem_map.1 hkey
    rw [List.contains_iff_exists_mem_beq.2
      ⟨_, List.mem_map_of_mem htag', Classifier.beq_iff_key_eq.2 hk.symm⟩]
    decide
  -- what is left is the variable itself, which need not be bound
  have hbare : ∀ b, bindVariable K vars compare v (value.withNullability false) b = .ok b := by
    intro b
    have hpared : Pared (value.withNullability false) c := ⟨rfl, rfl, by
      rw [show (value.withNullability false).tags = [] from htags]
      exact List.nil_sublist _⟩
    exact bindVariable_self (hpared.asVariable_eq.trans hv) htags rfl
  have hnull := hR.nullable h
  have hrest : ∀ b, (if r.nullable then
        if variance = .invariant ∧ c.nullable = false then clash (.nullability c r)
        else bindVariable K vars compare v (value.withNullability false) b
      else bindVariable K vars compare v value b) = .ok b := by
    intro b
    cases hn : r.nullable with
    | true => simpa [hnull, hn] using hbare b
    | false =>
      have hvalue : value.withNullability false = value := by
        rw [withNullability, ← hn, ← hnull]
        rfl
      simpa [hvalue] using hbare b
  calc bindRequested K vars compare variance v c r b
      = unifyRequestedTags compare c r b >>= fun b => .ok b := bind_congr hrest
    _ = unifyRequestedTags compare c r b := bind_pure _

/-- Types that are no variables meet: tags and arguments are compared with their counterparts. -/
theorem unifyConcrete_passes (hd : DistinctAt c)
    (htags : Passes deep b (comparePairs compare (c.tags.zip r.tags) b))
    (hargs : Passes deep b (comparePairs compare (c.arguments.zip r.arguments) b)) :
    Passes deep b (unifyConcrete K compare variance c r b) := by
  have habreast := hR.abreast h hd
  by_cases htop : variance = .covariant ∧ (K.flagsOf r).top = true
  · -- below the top type nothing but tags is looked at
    have hnull : nullabilityFits variance c r = true := by
      cases variance <;> simp [nullabilityFits, hR.nullable h]
    have hconcrete : unifyConcrete K compare variance c r b =
        comparePairs compare (c.tags.zip r.tags) b >>= fun b => .ok b := by
      rw [unifyConcrete, hnull, unifyRequestedTags_zip habreast]
      exact bind_congr fun b => if_pos htop
    rw [hconcrete]
    exact htags.bind (Or.inl rfl)
  · rw [unifyConcrete_zip habreast (hR.key h) (hR.nullable h).symm (hR.arguments h).length_eq
      fun hv ht => absurd ⟨hv, ht⟩ htop]
    exact htags.bind hargs

end Sameness

/-- A walk through a type and one that it takes for the same binds nothing. -/
theorem walk_same {depth : Nat} (hR : Sameness K R) (h : R c r) (hd : Distinct c) :
    Passes False b (walk K vars depth variance c r b) := by
  induction depth generalizing c r b variance with
  | zero => exact Or.inr ⟨rfl, not_false⟩
  | succ depth ih =>
    have hpairs : ∀ {ts us : List Ty}, List.Forall₂ R ts us → (∀ t ∈ ts, Distinct t) →
        Passes False b (comparePairs (walk K vars depth) (ts.zip us) b) := fun htu hts =>
      foldlM_passes fun p hp =>
        ih ((List.forall₂_iff_zip.1 htu).2 hp) (hts p.1 (List.of_mem_zip hp).1)
    have htags := hpairs (hR.tags h) hd.tags
    have hargs := hpairs (hR.arguments h) hd.arguments
    rw [walk]
    -- a star, a type that is no variable, or a variable that meets itself
    cases hs : c.isStar with
    | true =>
      rw [step, hs]
      exact Or.inl rfl
    | false =>
      have hv' : asVariable? K vars c = asVariable? K vars r := hR.asVariable_eq h
      cases hv : asVariable? K vars c with
      | none =>
        simp only [step, hs, ← hR.isStar h, hv, ← hv', Bool.or_self, Bool.false_eq_true, if_false]
        exact hR.unifyConcrete_passes h hd.here htags hargs
      | some v =>
        simp only [step, hs, ← hR.isStar h, hv, ← hv', Bool.or_self, Bool.false_eq_true, if_false]
        split
        · rw [unifyVariables, joined_refl, if_pos rfl]
          exact Or.inl rfl
        · rw [hR.bindRequested_eq h hd.here hv, unifyRequestedTags_zip (hR.abreast h hd.here)]
          exact htags

theorem walk_self {depth : Nat} (hd : Distinct t) :
    Passes False b (walk K vars depth variance t t b) :=
  walk_same (sameness_eq K) rfl hd

/-! ### Fits -/

/-- A fit binds open type parameters only. -/
theorem free_of_fit {statics : List Classifier} {m : Substitution} (hK : K.Coherent)
    (h : K.fit statics c r = .ok m) {d : Classifier} (hd : (m.get? d).isSome = true) :
    K.isTypeParameter d = true ∧ statics.contains d = false := by
  obtain ⟨_, b, -, hsolution⟩ := exists_walk_of_fit h
  obtain ⟨rfl, -⟩ := of_checkBounds hsolution
  have hiterate : ∀ (n : Nat) (m : Substitution),
      (((fun m : Substitution => m.map (·.substitute m))^[n] m).get? d).isSome =
        (m.get? d).isSome := by
    intro n
    induction n with
    | zero => exact fun m => rfl
    | succ n ih =>
      intro m
      rw [Function.iterate_succ_apply, ih, Substitution.get_map, Option.isSome_map]
  obtain ⟨n, -, hclose⟩ := exists_close_eq ((variablesOf K statics c r).length + 1)
    (readOff (variablesOf K statics c r) b)
  rw [hclose, hiterate] at hd
  obtain ⟨t, ht⟩ := Option.isSome_iff_exists.1 hd
  obtain ⟨v, hv, hk, -⟩ := of_get_readOff ht
  apply free_variablesOf hK statics c r d
  rw [← contains_congr hk]
  exact List.contains_iff_exists_mem_beq.2 ⟨v, hv, BEq.rfl⟩

/-- So it leaves a type as it is that mentions none. -/
theorem substitute_of_fit {statics : List Classifier} {m : Substitution} (hK : K.Coherent)
    (h : K.fit statics c r = .ok m) (ht : ∀ p ∈ K.parametersIn t, statics.contains p = true) :
    t.substitute m = t := by
  refine substitute_eq_self fun d hd => Option.not_isSome_iff_eq_none.1 fun hsome => ?_
  obtain ⟨hparameter, hfree⟩ := free_of_fit hK h hsome
  obtain ⟨p, hp, hk⟩ := exists_mem_parametersIn hd hparameter
  have hstatic := ht p hp
  rw [contains_congr hk, hfree] at hstatic
  cases hstatic

/-- Without bindings there is no solution to close and no bound to check. -/
theorem solution_start (U : UnionFind) (K : Catalog) (vars : List Classifier) :
    solution K vars U.start = .ok .empty := by
  have hread : readOff vars U.start = .empty := by
    rw [readOff_eq]
    have hnote : ∀ m v, note U.start m v = m := fun m v => by
      simp [note, reading?, U.value_start, U.representative_start]
    induction vars with
    | nil => rfl
    | cons v vars ih => rw [List.foldl_cons, hnote, ih]
  rw [solution, hread]
  rfl

/-- A walk through types that it takes for the same binds nothing if it goes as deep as it needs to. -/
theorem walk_depth_same (hR : Sameness K R) (vars : List Classifier) (h : R c r)
    (hd : Distinct c) :
    walk K vars (depth K vars c r) .covariant c r U.start = .ok U.start :=
  (walk_same hR h hd).resolve_right fun h => walk_depth_ne U K vars c r (Nat.le_refl _) h.1

/-- So the fit binds nothing. -/
theorem fit_same (hR : Sameness K R) (statics : List Classifier) (h : R c r) (hd : Distinct c) :
    K.fit statics c r = .ok .empty := by
  rw [fit_of_walk (walk_depth_same hR (variablesOf K statics c r) h hd), solution_start]

/-- Every type fits itself, whatever is static, and nothing is bound. -/
theorem fit_self (K : Catalog) (statics : List Classifier) (hd : Distinct t) :
    K.fit statics t t = .ok .empty :=
  fit_same (sameness_eq K) statics rfl hd

def labelledBox : Ty where
  head := .named ⟨"Box", 0⟩
  arguments := [
    { head := .named ⟨"T", 0⟩
      nullable := true
      tags := [{ head := .named ⟨"Box", 0⟩, arguments := [.star] }, .of ⟨"T", 0⟩] }]

theorem distinct_labelledBox : Distinct labelledBox := by
  have hleaf : ∀ t : Ty, t.arguments = [] → t.tags = [] → Distinct t := fun t ha ht =>
    Everywhere.node (by simp [DistinctAt, ht]) (by simp [ha]) (by simp [ht])
  have hanyBox : Distinct { head := .named ⟨"Box", 0⟩, arguments := [.star] } :=
    Everywhere.node List.nodup_nil (List.forall_mem_singleton.2 (hleaf _ rfl rfl))
      (List.forall_mem_nil _)
  refine Everywhere.node List.nodup_nil (List.forall_mem_singleton.2 ?_) (List.forall_mem_nil _)
  exact Everywhere.node (by unfold DistinctAt; decide) (List.forall_mem_nil _)
    (List.forall_mem_cons.2 ⟨hanyBox, List.forall_mem_singleton.2 (hleaf _ rfl rfl)⟩)

/-- The box fits itself, with `T` as a variable and with `T` static. -/
theorem labelledBox_fits_itself : shelf.fit [] labelledBox labelledBox = .ok .empty ∧
    shelf.fit [⟨"T", 0⟩] labelledBox labelledBox = .ok .empty :=
  ⟨fit_self shelf [] distinct_labelledBox, fit_self shelf [⟨"T", 0⟩] distinct_labelledBox⟩

end Wiring.Fit
