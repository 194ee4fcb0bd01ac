import Wiring.Proofs.Fit.Solution
import Wiring.Proofs.Types.Mutual

namespace Wiring.Fit

open Ty Catalog

variable {K : Catalog} {statics : List Classifier} {U : UnionFind} {b b' : U.Table} {c r : Ty}
  {variance : Variance} {compare : Compare U} {depth n : Nat} {deep : Prop} {x : Result U}

/-! ### What a walk looks for -/

structure Meets (K : Catalog) (variance : Variance) (c r : Ty) : Prop where
  -- What a walk without variables asks of two types neither of which is a star.
  nullable : nullabilityFits variance c r = true
  tags : ∀ needed ∈ r.tags, ∃ present,
    c.tag? needed.classifier = some present ∧ Compatible present needed
  view : (variance = .covariant ∧ (K.flagsOf r).top = true) ∨
    (∀ tag ∈ c.tags, (r.tag? tag.classifier).isSome = true) ∧
      ∃ view, viewFor? K variance c r = some view ∧
        List.Forall₂ Compatible view.arguments r.arguments

def Suits (K : Catalog) (variance : Variance) (c r : Ty) : Prop :=
  c.isStar = true ∨ r.isStar = true ∨ Meets K variance c r

theorem find_eq_none_iff : c.tags.find? (fun tag => (r.tag? tag.classifier).isNone) = none ↔
    ∀ tag ∈ c.tags, (r.tag? tag.classifier).isSome = true := by
  simp [List.find?_eq_none, Option.isSome_iff_ne_none]

/-- Where both sides have to be the same type, that is what they are. -/
theorem compatible_of_suits (h : Suits K .invariant c r) : Compatible c r := by
  refine compatible_of_named fun hc hr => ?_
  have h := (h.resolve_left (by simp [hc])).resolve_left (by simp [hr])
  obtain ⟨hextra, view, hview, hargs⟩ := h.view.resolve_left fun hv => by cases hv.1
  obtain ⟨hk, rfl⟩ := of_viewFor_invariant hview
  exact Agree.node hc hr hk (beq_iff_eq.1 h.nullable) hargs
    (tags_rel (find_eq_none_iff.2 hextra) h.tags)

theorem suits_of_compatible (h : Compatible c r) (hr : DistinctAt r) :
    Suits K .invariant c r := by
  cases h with
  | star h =>
    rcases h with ⟨hc, -⟩ | ⟨-, hc | hr⟩
    · exact Or.inl hc
    · exact Or.inl hc
    · exact Or.inr (Or.inl hr)
  | node left right key nullable arguments tags =>
    refine Or.inr (Or.inr ⟨beq_iff_eq.2 nullable, fun needed hn => ?_, Or.inr ⟨fun tag ht => ?_, c, ?_,
      arguments⟩⟩)
    · exact exists_tag_of_compatible hr tags hn
    · have hrel := tags tag.classifier
      cases hc : c.tag? tag.classifier with
      | none =>
        -- the tag itself is one with its classifier
        exact absurd rfl (lookupTag_eq_none_iff.1 hc tag ht)
      | some s =>
        rw [hc] at hrel
        obtain ⟨t, ht, -⟩ := exists_of_rel_some hrel
        rw [ht]
        rfl
    · simp only [viewFor?]
      rw [if_pos (Classifier.beq_iff_key_eq.2 key)]

/-! ### What a walk finds -/

theorem foldlM_finds {α : Type} {f : U.Table → α → Result U} {P : α → Prop} {xs : List α}
    (hf : ∀ x ∈ xs, ∀ {b b' : U.Table}, f b x = .ok b' → b' = b ∧ P x)
    (h : xs.foldlM f b = .ok b') : b' = b ∧ ∀ x ∈ xs, P x := by
  induction xs generalizing b with
  | nil =>
    cases h
    exact ⟨rfl, List.forall_mem_nil _⟩
  | cons x xs ih =>
    rw [List.foldlM_cons] at h
    obtain ⟨b₁, h₁, h₂⟩ := exists_of_bind_ok h
    obtain ⟨rfl, hx⟩ := hf x (List.mem_cons_self ..) h₁
    obtain ⟨rfl, hxs⟩ := ih (fun y hy => hf y (List.mem_cons_of_mem x hy)) h₂
    exact ⟨rfl, List.forall_mem_cons.2 ⟨hx, hxs⟩⟩

/-- Two types that go through have met, if their parts do. -/
theorem meets_of_unifyConcrete
    (hcompare : ∀ {c r b b'}, compare .invariant c r b = .ok b' → b' = b ∧ Compatible c r)
    (h : unifyConcrete K compare variance c r b = .ok b') : b' = b ∧ Meets K variance c r := by
  obtain ⟨hnull, b₁, h₁, hrest⟩ := of_unifyConcrete h
  obtain ⟨rfl, htags⟩ := foldlM_finds (P := fun needed => ∃ present,
      c.tag? needed.classifier = some present ∧ Compatible present needed)
    (fun needed _ b b' h => by
      split at h
      · next present hp =>
        obtain ⟨rfl, hc⟩ := hcompare h
        exact ⟨rfl, present, hp, hc⟩
      · cases h) h₁
  rcases hrest with ⟨hv, htop, rfl⟩ | ⟨hextra, view, hview, hlen, hrest⟩
  · exact ⟨rfl, hnull, htags, Or.inl ⟨hv, htop⟩⟩
  · obtain ⟨rfl, hargs⟩ := foldlM_finds (P := fun p : Ty × Ty => Compatible p.1 p.2)
      (fun _ _ _ _ h => hcompare h) hrest
    have hfit : List.Forall₂ Compatible view.arguments r.arguments :=
      List.forall₂_iff_zip.2 ⟨hlen, fun hp => hargs _ hp⟩
    exact ⟨rfl, hnull, htags, Or.inr ⟨find_eq_none_iff.1 hextra, view, hview, hfit⟩⟩

theorem asVariable_nil (t : Ty) : asVariable? K [] t = none := by
  unfold asVariable?
  split <;> rfl

theorem step_nil : step K [] compare variance c r b =
    if c.isStar || r.isStar then .ok b else unifyConcrete K compare variance c r b := by
  simp only [step, asVariable_nil]

/-- A walk without variables leaves the bindings as they are, and the types suit each other if it
ends well. -/
theorem suits_of_walk (h : walk K [] depth variance c r b = .ok b') :
    b' = b ∧ Suits K variance c r := by
  induction depth generalizing variance c r b b' with
  | zero => cases h
  | succ depth ih =>
    rw [walk, step_nil] at h
    split at h
    · next hs =>
      cases h
      rcases Bool.or_eq_true_iff.1 hs with hs | hs
      · exact ⟨rfl, Or.inl hs⟩
      · exact ⟨rfl, Or.inr (Or.inl hs)⟩
    · obtain ⟨rfl, hmeets⟩ := meets_of_unifyConcrete (fun h => (ih h).imp_right compatible_of_suits) h
      exact ⟨rfl, Or.inr (Or.inr hmeets)⟩

/-! ### What a walk gets through -/

def Passes (deep : Prop) (b : U.Table) (x : Result U) : Prop :=
  x = .ok b ∨ x = .error .tooDeep ∧ ¬ deep

theorem Passes.mono {deep' : Prop} (h : Passes deep b x) (hd : deep' → deep) : Passes deep' b x :=
  h.imp_right fun ⟨hx, hn⟩ => ⟨hx, fun hd' => hn (hd hd')⟩

theorem Passes.bind {f : U.Table → Result U} (h : Passes deep b x) (hf : Passes deep b (f b)) :
    Passes deep b (x >>= f) := by
  rcases h with rfl | ⟨rfl, hn⟩
  · exact hf
  · exact Or.inr ⟨rfl, hn⟩

theorem foldlM_passes {α : Type} {f : U.Table → α → Result U} {xs : List α}
    (hf : ∀ x ∈ xs, Passes deep b (f b x)) : Passes deep b (xs.foldlM f b) := by
  induction xs with
  | nil => exact Or.inl rfl
  | cons x xs ih =>
    rw [List.foldlM_cons]
    exact (hf x (List.mem_cons_self ..)).bind (ih fun y hy => hf y (List.mem_cons_of_mem x hy))

/-- Two types that meet get through, if their parts do. -/
theorem unifyConcrete_passes (hcompare : ∀ {c r}, Compatible c r → Distinct r →
      Passes (r.size ≤ n) b (compare .invariant c r b))
    (h : Meets K variance c r) (hr : Distinct r) :
    Passes (r.size ≤ n + 1) b (unifyConcrete K compare variance c r b) := by
  have htags : Passes (r.size ≤ n + 1) b (unifyRequestedTags compare c r b) := by
    refine foldlM_passes fun needed hneeded => ?_
    obtain ⟨present, hp, hc⟩ := h.tags needed hneeded
    have hlt := size_lt_of_mem_tags hneeded
    rw [hp]
    exact (hcompare hc (hr.tags needed hneeded)).mono fun hd => by omega
  unfold unifyConcrete
  rw [h.nullable]
  refine htags.bind ?_
  -- below the top type no tag is left over, and there is a view whose arguments meet one by one
  rcases h.view with htop | ⟨hextra, view, hview, hargs⟩
  · rw [if_pos htop]
    exact Or.inl rfl
  · split
    · exact Or.inl rfl
    rw [find_eq_none_iff.2 hextra, hview]
    dsimp only
    rw [if_pos hargs.length_eq]
    refine foldlM_passes fun p hp => ?_
    have hmem := (List.of_mem_zip hp).2
    have hlt := size_lt_of_mem_arguments hmem
    exact (hcompare ((List.forall₂_iff_zip.1 hargs).2 hp) (hr.arguments _ hmem)).mono
      fun hd => by omega

/-- Types that suit each other get through a walk that is as deep as the requested one. -/
theorem walk_passes (h : Suits K variance c r) (hr : Distinct r) :
    Passes (r.size ≤ depth) b (walk K [] depth variance c r b) := by
  induction depth generalizing variance c r b with
  | zero =>
    have hpos := size_pos r
    exact Or.inr ⟨rfl, by omega⟩
  | succ depth ih =>
    rw [walk, step_nil]
    split
    · exact Or.inl rfl
    · next hs =>
      rw [Bool.or_eq_true_iff, not_or] at hs
      have hmeets := (h.resolve_left hs.1).resolve_left hs.2
      exact unifyConcrete_passes (fun hc hd => ih (suits_of_compatible hc hd.here) hd) hmeets hr

/-! ### Fits -/

theorem variablesOf_eq_nil (hc : ∀ p ∈ K.parametersIn c, statics.contains p = true)
    (hr : ∀ p ∈ K.parametersIn r, statics.contains p = true) :
    variablesOf K statics c r = [] := by
  have hnone : (K.parametersIn c ++ K.parametersIn r).filter (fun p => !statics.contains p) = [] := by
    refine List.filter_eq_nil_iff.2 fun p hp => ?_
    rcases List.mem_append.1 hp with hp | hp
    · simp [hc p hp]
    · simp [hr p hp]
  rw [variablesOf, hnone]
  rfl

theorem solution_nil (b : U.Table) : solution K [] b = .ok .empty := rfl

theorem within_eq (hv : variablesOf K statics c r = []) (h : Suits K .covariant c r)
    (hr : Distinct r) (hd : r.size ≤ depth ∨ within U K depth statics c r ≠ none) :
    within U K depth statics c r = some (.ok .empty) := by
  unfold within at hd ⊢
  rw [hv] at hd ⊢
  have hwalk : Passes (r.size ≤ depth) U.start (walk K [] depth .covariant c r U.start) :=
    walk_passes h hr
  rcases hwalk with hw | ⟨hw, hn⟩
  · simp only [hw, solution_nil]
  · simp [hw, hn] at hd

/-- Without variables a candidate fits just when it suits the request, and nothing is bound. -/
theorem fit_eq (hv : variablesOf K statics c r = []) (h : Suits K .covariant c r)
    (hr : Distinct r) : K.fit statics c r = .ok .empty := by
  unfold Catalog.fit
  cases hw : within Bindings.byRank K (1 <<< 16) statics c r with
  | some result =>
    have hne : within Bindings.byRank K (1 <<< 16) statics c r ≠ none := by
      rw [hw]
      exact Option.some_ne_none result
    have he := within_eq hv h hr (Or.inr hne)
    exact Option.some.inj (hw.symm.trans he)
  | none =>
    have hd : r.size ≤ Fit.depth K (variablesOf K statics c r) c r := by
      rw [Fit.depth, hv]
      dsimp only [List.length_nil]
      omega
    simp only [within_eq hv h hr (Or.inl hd), Option.getD_some]

theorem suits_of_fit {m : Substitution} (hv : variablesOf K statics c r = [])
    (h : K.fit statics c r = .ok m) : Suits K .covariant c r ∧ m = .empty := by
  obtain ⟨depth, b, hw, hs⟩ := exists_walk_of_fit h
  rw [hv] at hw hs
  exact ⟨(suits_of_walk hw).2, (Except.ok.inj hs).symm⟩

/-! ### Subtypes -/

/-- A tag that adds nothing but its classifier and its arguments. -/
structure PlainTag (t : Ty) : Prop where
  nullable : t.nullable = false
  tags : t.tags = []

/-- Tags of one classifier that is below the other one are the same. -/
theorem compatible_of_plain_tags (hK : K.Hierarchy) (hT : K.SingleTop) {s t : Ty}
    (hs : K.WellFormed s) (ht : K.WellFormed t) (hsp : PlainTag s) (htp : PlainTag t)
    (hk : s.key = t.key) (h : K.Below s t) : Compatible s t := by
  refine compatible_of_named fun hss hts => ?_
  refine Agree.node hss hts hk (hsp.nullable.trans htp.nullable.symm) ?_ fun d => ?_
  · have hargs := (h.assigned hss hts).arguments hK hT hs ht hss hts hk
    exact forall₂_imp_of_mem hargs fun x hx y hy hxy =>
      compatible_of_below hK hT (hs.arguments x hx) (ht.arguments y hy) hxy.1 hxy.2
  · rw [tag_eq_lookupTag, tag_eq_lookupTag, hsp.tags, htp.tags]
    exact Option.Rel.none

/-- A candidate that suits a request is a subtype of it. -/
theorem isSubtype_of_suits (hK : K.Hierarchy) (hc : K.WellFormed c) (hr : K.WellFormed r)
    (h : Suits K .covariant c r) : K.isSubtype c r = true := by
  rcases h with hs | hs | h
  · exact isSubtype_of_compatible (compatible_of_star (Or.inl hs)) hc.distinct hr.distinct
  · exact isSubtype_of_compatible (compatible_of_star (Or.inr hs)) hc.distinct hr.distinct
  · refine isSubtype_of_view hc.distinct hr.distinct (fun hn => ?_) h.tags ?_
      fun view hv => (hc.view hK hv).distinct
    · simpa [nullabilityFits, hn] using h.nullable
    · exact h.view.imp And.right And.right

/-- A subtype suits a request unless it has tags that the request lacks. -/
theorem suits_of_isSubtype (hK : K.Hierarchy) (hT : K.SingleTop) (hc : K.WellFormed c)
    (hr : K.WellFormed r) (hct : ∀ t ∈ c.tags, PlainTag t) (hrt : ∀ t ∈ r.tags, PlainTag t)
    (h : K.isSubtype c r = true)
    (hextra : c.isStar = true ∨ r.isStar = true ∨ (K.flagsOf r).top = true ∨
      ∀ t ∈ c.tags, (r.tag? t.classifier).isSome = true) :
    Suits K .covariant c r := by
  by_cases hcs : c.isStar = true
  · exact Or.inl hcs
  by_cases hrs : r.isStar = true
  · exact Or.inr (Or.inl hrs)
  have hextra := (hextra.resolve_left hcs).resolve_left hrs
  have ha := (below_of_isSubtype h).assigned (Bool.eq_false_iff.2 hcs) (Bool.eq_false_iff.2 hrs)
  -- null, tags and view, each read off what is assigned
  refine Or.inr (Or.inr ⟨?_, fun needed hneeded => ?_, ?_⟩)
  · cases hn : c.nullable with
    | false => simp [nullabilityFits, hn]
    | true => simp [nullabilityFits, ha.nullable hn]
  · obtain ⟨present, hp, hb⟩ := ha.tags needed hneeded
    have hmem := mem_of_lookupTag hp
    exact ⟨present, hp, compatible_of_plain_tags hK hT (hc.tags _ hmem) (hr.tags _ hneeded)
      (hct _ hmem) (hrt _ hneeded) (key_of_lookupTag hp) hb⟩
  · rcases hextra with htop | hextra
    · exact Or.inl ⟨rfl, htop⟩
    · rcases ha.view with htop | ⟨view, hview, hargs⟩
      · exact Or.inl ⟨rfl, htop⟩
      · have hvw := hc.view hK hview
        refine Or.inr ⟨hextra, view, hview, forall₂_imp_of_mem hargs fun x hx y hy hxy => ?_⟩
        exact compatible_of_below hK hT (hvw.arguments x hx) (hr.arguments y hy) hxy.1 hxy.2

theorem Suits.extra (h : Suits K .covariant c r) :
    c.isStar = true ∨ r.isStar = true ∨ (K.flagsOf r).top = true ∨
      ∀ t ∈ c.tags, (r.tag? t.classifier).isSome = true := by
  rcases h with hs | hs | h
  · exact Or.inl hs
  · exact Or.inr (Or.inl hs)
  · exact Or.inr (Or.inr (h.view.imp And.right And.left))

/-- Where all type parameters are static, a candidate fits a request just when it is a subtype and,
unless one of them is a star or the request is the top type, has no tag that the request lacks; the
substitution is empty then. -/
theorem fit_iff_isSubtype (hK : K.Hierarchy) (hT : K.SingleTop) (hc : K.WellFormed c)
    (hr : K.WellFormed r) (hcp : ∀ p ∈ K.parametersIn c, statics.contains p = true)
    (hrp : ∀ p ∈ K.parametersIn r, statics.contains p = true)
    (hct : ∀ t ∈ c.tags, PlainTag t) (hrt : ∀ t ∈ r.tags, PlainTag t) :
    ((∃ m, K.fit statics c r = .ok m) ↔
      K.isSubtype c r = true ∧
        (c.isStar = true ∨ r.isStar = true ∨ (K.flagsOf r).top = true ∨
          ∀ t ∈ c.tags, (r.tag? t.classifier).isSome = true)) ∧
      ∀ m, K.fit statics c r = .ok m → m = .empty := by
  have hv := variablesOf_eq_nil hcp hrp
  refine ⟨⟨?_, ?_⟩, fun m h => (suits_of_fit hv h).2⟩
  · rintro ⟨m, h⟩
    have hsuits := (suits_of_fit hv h).1
    exact ⟨isSubtype_of_suits hK hc hr hsuits, hsuits.extra⟩
  · rintro ⟨h, hextra⟩
    have hsuits := suits_of_isSubtype hK hT hc hr hct hrt h hextra
    exact ⟨_, fit_eq hv hsuits hr.distinct⟩

def depot : Catalog where
  entries := [
    ("Any", [{ flags := { top := true } }]),
    ("Box", [{ typeParameters := [⟨"E", 0⟩],
               supertypes := some [{ head := .named ⟨"Crate", 0⟩, arguments := [.of ⟨"E", 0⟩] }] }]),
    ("C", [{ flags := { typeParameter := true } }]),
    ("Crate", [{ typeParameters := [⟨"C", 0⟩] }]),
    ("E", [{ flags := { typeParameter := true } }]),
    ("T", [{ flags := { typeParameter := true } }])]

def crate (key : String) : Ty :=
  { head := .named ⟨"Crate", 0⟩, arguments := [.of ⟨key, 0⟩] }

def fresh (t : Ty) : Ty :=
  t.tagged (.of ⟨"Fresh", 0⟩)

theorem single_depot : depot.Single := by decide

theorem supertypes_depot {d : Classifier} {s : Ty} (h : s ∈ depot.declaredSupertypes d) :
    s = crate "E" ∧ d.key = "Box" :=
  single_depot.entry_induction
    (P := fun e => ∀ s ∈ e.supertypes.getD [], s = crate "E" ∧ d.key = "Box") d (by simp)
    (by simp +contextual [depot, crate]) s h

theorem top_depot {d : Classifier} (h : (depot.flags d).top = true) : d.key = "Any" :=
  single_depot.entry_induction (P := fun e => e.flags.top = true → d.key = "Any") d (by simp)
    (by simp +contextual [depot]) h

theorem wellFormed_applied {d key : String} (hd : (depot.typeParameters ⟨d, 0⟩).length = 1)
    (h : depot.typeParameters ⟨key, 0⟩ = []) :
    depot.WellFormed { head := .named ⟨d, 0⟩, arguments := [.of ⟨key, 0⟩] } := by
  refine Everywhere.node ⟨fun hs => ?_, fun _ => hd.symm, List.Pairwise.nil⟩ ?_
    (List.forall_mem_nil _)
  · cases hs
  · exact List.forall_mem_singleton.2 (wellFormed_of h)

theorem wellFormed_fresh {t : Ty} (ht : depot.WellFormed t) : depot.WellFormed (fresh t) := by
  refine ht.withTags (List.forall_mem_cons.2 ⟨wellFormed_of rfl, ht.tags⟩)

theorem hierarchy_depot : depot.Hierarchy where
  coherent := single_depot.coherent
  wellFormed c s hs := by
    obtain ⟨rfl, -⟩ := supertypes_depot hs
    exact wellFormed_applied rfl rfl
  proper c s hs _ := by
    obtain ⟨rfl, hk⟩ := supertypes_depot hs
    exact single_depot.coherent.typeParameters_eq (d := ⟨"Box", 0⟩) hk ▸ rfl
  acyclic := by
    refine acyclic_of_rank (fun k => if k = "Box" then 1 else 0) ?_
    rintro _ _ ⟨c, rfl, s, hs, rfl⟩
    obtain ⟨rfl, hk⟩ := supertypes_depot hs
    rw [hk]
    decide

theorem singleTop_depot : depot.SingleTop where
  unique c d hc hd := (top_depot hc).trans (top_depot hd).symm
  parameters c hc := by
    exact single_depot.coherent.typeParameters_eq (d := ⟨"Any", 0⟩) (top_depot hc)
  supertypes c hc := by
    exact single_depot.coherent.declaredSupertypes_eq (d := ⟨"Any", 0⟩) (top_depot hc)

/-- A fresh box of `T` is a subtype of a crate of `T`, but it fits only where a fresh crate is
wanted. -/
theorem fresh_box_fits : depot.isSubtype (fresh (box "T")) (crate "T") = true ∧
    (¬ ∃ m, depot.fit [⟨"T", 0⟩] (fresh (box "T")) (crate "T") = .ok m) ∧
    ∃ m, depot.fit [⟨"T", 0⟩] (fresh (box "T")) (fresh (crate "T")) = .ok m := by
  have hbox : depot.WellFormed (fresh (box "T")) := wellFormed_fresh (wellFormed_applied rfl rfl)
  have hcrate : depot.WellFormed (crate "T") := wellFormed_applied rfl rfl
  have hplain : ∀ t ∈ [Ty.of ⟨"Fresh", 0⟩], PlainTag t := List.forall_mem_singleton.2 ⟨rfl, rfl⟩
  have hstatic : ∀ t ∈ [fresh (box "T"), crate "T", fresh (crate "T")],
      ∀ p ∈ depot.parametersIn t, [(⟨"T", 0⟩ : Classifier)].contains p = true := by decide
  have hunmarked := (fit_iff_isSubtype hierarchy_depot singleTop_depot hbox hcrate
    (hstatic _ (by simp)) (hstatic _ (by simp)) hplain (List.forall_mem_nil _)).1
  have hmarked := (fit_iff_isSubtype hierarchy_depot singleTop_depot hbox (wellFormed_fresh hcrate)
    (hstatic _ (by simp)) (hstatic _ (by simp)) hplain hplain).1
  refine ⟨by decide +kernel, fun h => ?_, hmarked.2 ⟨by decide +kernel, ?_⟩⟩
  · exact absurd (hunmarked.1 h).2 (by decide)
  · decide

end Wiring.Fit
