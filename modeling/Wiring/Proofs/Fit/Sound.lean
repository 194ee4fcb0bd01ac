import Wiring.Proofs.Fit.Places
import Wiring.Proofs.Fit.Triangular

namespace Wiring.Fit

open Ty Catalog UnionFind

variable {K : Catalog} {statics vars : List Classifier} {U : UnionFind} {b b' b'' : U.Table}
  {σ : Substitution} {v w : Classifier} {c r t : Ty} {variance : Variance} {compare : Compare U}

structure Solves (K : Catalog) (statics vars : List Classifier) (b : U.Table) (σ : Substitution) :
    Prop where
  -- `σ` binds variables only, and takes the sides of each equation in `b` to types that agree.
  admissible : Admissible K statics σ
  domain : ∀ c t, σ.get? c = some t → vars.contains c = true
  joined : ∀ v w, U.joined b v w = true → Alike ((Ty.of v).substitute σ) ((Ty.of w).substitute σ)
  value : ∀ v t, U.value? b v = some t → Alike ((Ty.of v).substitute σ) (t.substitute σ)

theorem Solves.of_extends (h : Solves K statics vars b' σ) (he : U.Extends b b') :
    Solves K statics vars b σ where
  admissible := h.admissible
  domain := h.domain
  joined v w hj := h.joined v w (he.joined v w hj)
  value v t hv := h.value v t (he.value v t hv)

theorem Solves.regular (h : Solves K statics vars b σ) (hK : K.Orderly statics)
    (ht : K.Regular t) : K.Regular (t.substitute σ) :=
  regular_substitute hK.coherent ht (h.admissible.everywhere_spares ht) h.admissible.regular

structure Sane (K : Catalog) (vars : List Classifier) (b : U.Table) : Prop where
  -- What all bindings of a walk have in common.
  acyclic : Acyclic K vars b
  regular : ∀ v t, U.value? b v = some t → K.Regular t
  bound : ∀ v t, U.value? b v = some t → vars.contains v = true
  linked : ∀ v w, U.joined b v w = true →
    v.key = w.key ∨ (vars.contains v = true ∧ vars.contains w = true)

theorem sane_start : Sane K vars U.start where
  acyclic := acyclic_start
  regular _ _ h := absurd h value_start_ne
  bound _ _ h := absurd h value_start_ne
  linked _ _ h := Or.inl (key_eq_of_joined_start h)

theorem Sane.triangular (hb : Sane K vars b) : Triangular K vars b where
  acyclic := hb.acyclic
  bound := hb.bound
  linked := hb.linked

/-- Triangular bindings of regular values. -/
theorem sane_of_triangular (hb : Triangular K vars b)
    (hr : ∀ v t, U.value? b v = some t → K.Regular t) : Sane K vars b where
  acyclic := hb.acyclic
  regular := hr
  bound := hb.bound
  linked := hb.linked

theorem Sane.contains_of_joined (hb : Sane K vars b) (hj : U.joined b v w = true)
    (hw : vars.contains w = true) : vars.contains v = true :=
  hb.triangular.contains_of_joined hj hw

structure Outcome (K : Catalog) (statics vars : List Classifier) (b b' : U.Table)
    (P : Substitution → Prop) : Prop where
  -- From `b` a part of the walk comes to `b'`, and what solves `b'` has the property `P`.
  grows : U.Extends b b'
  sane : Sane K vars b'
  holds : ∀ σ, Solves K statics vars b' σ → P σ

def Fits (K : Catalog) (variance : Variance) (c r : Ty) : Prop :=
  match variance with
  | .covariant => K.isSubtype c r = true
  | .invariant => Compatible c r

def Sound (K : Catalog) (statics vars : List Classifier) (compare : Compare U) : Prop :=
  -- A way to compare is sound if what solves its result makes the two types fit. A candidate that
  -- has to be assignable must not be a parameter of unknown standing.
  ∀ variance c r b b', compare variance c r b = .ok b' → K.Regular c → K.Regular r →
    Sane K vars b →
    (variance = .covariant → c.isStar = false →
      vars.contains c.classifier = true ∨ Settled K statics c.classifier) →
    Outcome K statics vars b b' fun σ => Fits K variance (c.substitute σ) (r.substitute σ)

theorem fits_of_compatible (hc : K.Regular c) (hr : K.Regular r) (h : Compatible c r) :
    Fits K variance c r := by
  cases variance with
  | covariant => exact isSubtype_of_compatible h hc.distinct hr.distinct
  | invariant => exact h

theorem exists_of_bind_ok {α β : Type} {x : Except Stop α} {f : α → Except Stop β} {y : β}
    (h : x >>= f = .ok y) : ∃ a, x = .ok a ∧ f a = .ok y := by
  cases x with
  | error e => cases h
  | ok a => exact ⟨a, rfl, h⟩

/-! ### Variables -/

theorem asVariable_spec (h : asVariable? K vars t = some v) :
    t.isStar = false ∧ v.key = t.key ∧ K.isTypeParameter t.classifier = true ∧
      vars.contains v = true := by
  unfold asVariable? at h
  split at h
  · next hp =>
    have hs : t.isStar = false := by
      obtain ⟨hd, as, n, ts, k⟩ := t
      cases hd with
      | star => simp [isParameter, flagsOf] at hp
      | named c => rfl
    have hk := List.find?_some h
    rw [isTypeParameter_eq_isParameter hs] at hp
    exact ⟨hs, Classifier.beq_iff_key_eq.1 hk, hp,
      List.contains_iff_exists_mem_beq.2 ⟨v, List.mem_of_find?_eq_some h, BEq.rfl⟩⟩
  · cases h

theorem get_of_asVariable_none (hσ : Solves K statics vars b σ) (hs : t.isStar = false)
    (h : asVariable? K vars t = none) : σ.get? t.classifier = none := by
  cases hg : σ.get? t.classifier with
  | none => rfl
  | some u =>
    have hp := hσ.admissible.parameter _ _ hg
    obtain ⟨x, hx, he⟩ := List.contains_iff_exists_mem_beq.1 (hσ.domain _ _ hg)
    rw [asVariable?, isTypeParameter_eq_isParameter hs, if_pos hp, List.find?_eq_none] at h
    exact absurd (BEq.symm he) (h x hx)

/-- A variable, with whatever tags and nullability, has no arguments. -/
theorem arguments_of_parameter (hK : K.Orderly statics) (ht : K.Regular t)
    (hs : t.isStar = false) (hp : K.isTypeParameter t.classifier = true) : t.arguments = [] := by
  apply List.eq_nil_of_length_eq_zero
  rw [ht.here.arity hs, hK.plain _ hp]
  rfl

theorem regular_of_parameter (hK : K.Orderly statics) (hp : K.isTypeParameter v = true) :
    K.Regular (.of v) :=
  regular_of (hK.plain v hp)

/-- However two classes are joined, the bindings stay sane if the second has no value and that of the
first does not reach it. -/
theorem Sane.join (hb : Sane K vars b) (hv : vars.contains v = true) (hw : vars.contains w = true)
    (hwn : U.value? b w = none) (ho : ∀ s, U.value? b v = some s → ¬ Reaches K vars b s w)
    (hj : U.Joins b b' v w) : U.Extends b b' ∧ Sane K vars b' := by
  refine ⟨hj.extends (Or.inr hwn),
    sane_of_triangular (hb.triangular.join hv hw hwn ho hj) fun x t hx => ?_⟩
  rw [hj.value, hwn, Option.or_none] at hx
  split at hx
  · exact hb.regular v t hx
  · exact hb.regular x t hx

theorem unifyVariables_sound (hsound : Sound K statics vars compare) (hb : Sane K vars b)
    (hv : vars.contains v = true) (hw : vars.contains w = true)
    (h : unifyVariables K vars compare v w b = .ok b') :
    Outcome K statics vars b b' fun σ =>
      Compatible ((Ty.of v).substitute σ) ((Ty.of w).substitute σ) := by
  unfold unifyVariables at h
  split at h
  · next hj =>
    cases h
    exact ⟨Extends.refl b, hb, fun σ hσ => Agree.of_alike (hσ.joined v w hj)⟩
  · next hvw =>
    have hvw := Bool.eq_false_iff.2 hvw
    -- four cases, by which of the two classes has a value
    split at h
    · next x y hx hy =>
      obtain ⟨hext, hsane, hfits⟩ := hsound _ _ _ _ _ h (hb.regular v x hx) (hb.regular w y hy) hb
        fun hcov => by cases hcov
      refine ⟨hext, hsane, fun σ hσ => ?_⟩
      have hvx := hσ.value v x (hext.value v x hx)
      have hwy := hσ.value w y (hext.value w y hy)
      exact Alike.trans hvx (Agree.trans_alike (hfits σ hσ) hwy.symm)
    · next x hx hy =>
      split at h
      · cases h
      · next ho =>
        cases h
        have hj := joins_join hvw (Or.inr hy)
        obtain ⟨hext, hsane⟩ := hb.join hv hw hy (value_not_reaches hx ho) hj
        exact ⟨hext, hsane, fun σ hσ => Agree.of_alike (hσ.joined v w hj.joins)⟩
    · next y hx hy =>
      split at h
      · cases h
      · next ho =>
        cases h
        have hj := joins_join hvw (Or.inl hx)
        -- joined with the sides exchanged, since it is `v` that has no value
        obtain ⟨hext, hsane⟩ := hb.join hw hv hx (value_not_reaches hy ho) (hj.symm (Or.inl hx))
        exact ⟨hext, hsane, fun σ hσ => Agree.of_alike (hσ.joined v w hj.joins)⟩
    · next hx hy =>
      cases h
      have hj := joins_join hvw (Or.inl hx)
      obtain ⟨hext, hsane⟩ := hb.join hv hw hy (value_not_reaches_of_none hx) hj
      exact ⟨hext, hsane, fun σ hσ => Agree.of_alike (hσ.joined v w hj.joins)⟩

/-- Without tags and nullability a variable is no more than that. -/
theorem alike_of_bare (hK : K.Orderly statics) (ht : K.Regular t)
    (hw : asVariable? K vars t = some w) (htags : t.tags.isEmpty = true)
    (hnull : (!t.nullable) = true) : Alike (.of w) t := by
  obtain ⟨hs, hk, hp, _⟩ := asVariable_spec hw
  refine Agree.node rfl hs hk ?_ ?_ fun d => ?_
  · simpa [Ty.of] using hnull
  · rw [arguments_of_parameter hK ht hs hp]
    exact List.Forall₂.nil
  · rw [tag_eq_lookupTag, tag_eq_lookupTag, List.isEmpty_iff.1 htags]
    exact Option.Rel.none

theorem bindVariable_sound (hK : K.Orderly statics) (hsound : Sound K statics vars compare)
    (hb : Sane K vars b) (ht : K.Regular t) (hv : vars.contains v = true)
    (h : bindVariable K vars compare v t b = .ok b') :
    Outcome K statics vars b b' fun σ =>
      Compatible ((Ty.of v).substitute σ) (t.substitute σ) := by
  unfold bindVariable at h
  dsimp only at h
  split at h
  · next w hw =>
    -- a bare variable
    split at hw
    · next hbare =>
      obtain ⟨_, hk, hp, hwc⟩ := asVariable_spec hw
      obtain ⟨htags, hnull⟩ := Bool.and_eq_true_iff.1 hbare
      obtain ⟨hext, hsane, hholds⟩ := unifyVariables_sound hsound hb hv hwc h
      refine ⟨hext, hsane, fun σ hσ => ?_⟩
      have hparam : K.isTypeParameter w = true := by
        rw [hK.coherent.isTypeParameter_eq hk]
        exact hp
      have hsub := agree_substitute (alike_of_bare hK ht hw htags hnull)
        (hσ.admissible.everywhere_spares (regular_of_parameter hK hparam))
        (hσ.admissible.everywhere_spares ht) fun c _ => optionRel_agree_refl _
      exact Agree.trans_alike (hholds σ hσ) hsub
    · cases hw
  · split at h
    · cases h
    · next ho =>
      split at h
      · next existing he =>
        obtain ⟨hext, hsane, hfits⟩ := hsound _ _ _ _ _ h (hb.regular v existing he) ht hb
          fun hcov => by cases hcov
        refine ⟨hext, hsane, fun σ hσ => ?_⟩
        exact Alike.trans (hσ.value v existing (hext.value v existing he)) (hfits σ hσ)
      · next he =>
        cases h
        have hocc := not_reaches_of_occurs (Bool.eq_false_iff.2 ho)
        refine ⟨extends_assign he,
          sane_of_triangular (hb.triangular.assign hv hocc) fun x u hx => ?_,
          fun σ hσ => Agree.of_alike (hσ.value v t (U.value_assign_self b v t))⟩
        rw [U.value_assign] at hx
        split at hx
        · obtain rfl := Option.some.inj hx
          exact ht
        · exact hb.regular x u hx

/-! ### Tags -/

/-- A sound step for each element gives a sound fold, which keeps what each step gives. -/
theorem foldlM_sound {α : Type} {f : U.Table → α → Result U} {P : α → Substitution → Prop}
    {xs : List α}
    (hf : ∀ x ∈ xs, ∀ {b b' : U.Table}, Sane K vars b → f b x = .ok b' →
      Outcome K statics vars b b' (P x))
    (hb : Sane K vars b) (h : xs.foldlM f b = .ok b') :
    Outcome K statics vars b b' fun σ => ∀ x ∈ xs, P x σ := by
  induction xs generalizing b with
  | nil =>
    cases h
    exact ⟨Extends.refl _, hb, fun σ _ x hx => absurd hx List.not_mem_nil⟩
  | cons x xs ih =>
    rw [List.foldlM_cons] at h
    obtain ⟨b₁, h₁, h₂⟩ := exists_of_bind_ok h
    obtain ⟨hext₁, hsane₁, hx⟩ := hf x (List.mem_cons_self ..) hb h₁
    obtain ⟨hext₂, hsane₂, hxs⟩ := ih (fun y hy => hf y (List.mem_cons_of_mem x hy)) hsane₁ h₂
    refine ⟨hext₁.trans hext₂, hsane₂, fun σ hσ y hy => ?_⟩
    rcases List.mem_cons.1 hy with rfl | hy
    · exact hx σ (hσ.of_extends hext₂)
    · exact hxs σ hσ y hy

theorem unifyRequestedTags_sound (hsound : Sound K statics vars compare) (hb : Sane K vars b)
    (hc : K.Regular c) (hr : K.Regular r) (h : unifyRequestedTags compare c r b = .ok b') :
    Outcome K statics vars b b' fun σ => ∀ tag ∈ r.tags, ∃ present,
      c.tag? tag.classifier = some present ∧
        Compatible (present.substitute σ) (tag.substitute σ) := by
  refine foldlM_sound (fun tag htag _ _ hb h => ?_) hb h
  split at h
  · next present hp =>
    obtain ⟨hext, hsane, hfits⟩ := hsound _ _ _ _ _ h (hc.tags _ (mem_of_lookupTag hp))
      (hr.tags _ htag) hb fun hcov => by cases hcov
    exact ⟨hext, hsane, fun σ hσ => ⟨present, hp, hfits σ hσ⟩⟩
  · cases h

theorem unifyCandidateTags_sound (hsound : Sound K statics vars compare) (hb : Sane K vars b)
    (hc : K.Regular c) (hr : K.Regular r) (h : unifyCandidateTags compare c r b = .ok b') :
    Outcome K statics vars b b' fun σ => ∀ tag ∈ c.tags, ∃ wanted,
      r.tag? tag.classifier = some wanted ∧
        Compatible (tag.substitute σ) (wanted.substitute σ) := by
  refine foldlM_sound (fun tag htag _ _ hb h => ?_) hb h
  split at h
  · next wanted hw =>
    obtain ⟨hext, hsane, hfits⟩ := hsound _ _ _ _ _ h (hc.tags _ htag)
      (hr.tags _ (mem_of_lookupTag hw)) hb fun hcov => by cases hcov
    exact ⟨hext, hsane, fun σ hσ => ⟨wanted, hw, hfits σ hσ⟩⟩
  · cases h

/-! ### A variable on one side -/

theorem regular_withoutTags {t value : Ty} (cs : List Classifier) (ht : K.Regular t)
    (hh : value.head = t.head) (ha : value.arguments = t.arguments)
    (hts : value.tags = (t.withoutTags cs).tags) : K.Regular value := by
  have hmem : ∀ s ∈ value.tags, s ∈ t.tags := by
    intro s hs
    rw [hts] at hs
    exact List.mem_of_mem_filter hs
  refine Everywhere.node ⟨?_, ?_, ?_, fun s hs => ht.here.proper s (hmem s hs)⟩ ?_
    fun s hs => ht.tags s (hmem s hs)
  · rw [isStar, hh, ha]
    exact ht.here.star
  · rw [isStar, classifier, hh, ha]
    exact ht.here.arity
  · rw [hts]
    exact ht.here.distinct.sublist (List.filter_sublist.map key)
  · rw [ha]
    exact ht.arguments

/-- What is bound to a requested variable is the candidate without the tags and without the
nullability of the place, so that in its place it is compatible with the candidate. -/
theorem bindPlaced_sound (hK : K.Orderly statics) (hsound : Sound K statics vars compare)
    (hr : K.Regular r) (hw : asVariable? K vars r = some w) {b₁ : U.Table} {value : Ty}
    (htag : Outcome K statics vars b b₁ fun σ => ∀ tag ∈ r.tags, ∃ present,
      c.tag? tag.classifier = some present ∧
        Compatible (present.substitute σ) (tag.substitute σ))
    (hbind : bindVariable K vars compare w value b₁ = .ok b') (hc : K.Regular c)
    (hh : value.head = c.head) (ha : value.arguments = c.arguments)
    (ht : value.tags = (c.withoutTags (r.tags.map Ty.classifier)).tags)
    (hn : c.nullable = (r.nullable || value.nullable)) :
    Outcome K statics vars b b' fun σ => Compatible (c.substitute σ) (r.substitute σ) := by
  obtain ⟨hrs, hwk, hp, hwc⟩ := asVariable_spec hw
  have hparam : K.isTypeParameter w = true := by
    rw [hK.coherent.isTypeParameter_eq hwk]
    exact hp
  have hplace := dressed_parameter hrs hwk (arguments_of_parameter hK hr hrs hp)
  have hval := regular_withoutTags _ hc hh ha ht
  obtain ⟨hext₁, hsane₁, htag⟩ := htag
  obtain ⟨hext₂, hsane₂, hv⟩ := bindVariable_sound hK hsound hsane₁ hval hwc hbind
  refine ⟨hext₁.trans hext₂, hsane₂, fun σ hσ => ?_⟩
  exact compatible_at_places hσ.admissible (dressed_without _ hh ha ht hn) hplace hc hr hval
    (regular_of_parameter hK hparam) (fun s hs => List.mem_of_mem_filter hs) (fun s hs => hs)
    (hv σ hσ).symm (requestedTags_rel (htag σ (hσ.of_extends hext₂)))

theorem regular_withNullability (hc : K.Regular c) (n : Bool) : K.Regular (c.withNullability n) :=
  Everywhere.node ⟨hc.here.star, hc.here.arity, hc.here.distinct, hc.here.proper⟩
    hc.arguments hc.tags

theorem bindRequested_sound (hK : K.Orderly statics) (hsound : Sound K statics vars compare)
    (hb : Sane K vars b) (hc : K.Regular c) (hr : K.Regular r)
    (hw : asVariable? K vars r = some w)
    (h : bindRequested K vars compare variance w c r b = .ok b') :
    Outcome K statics vars b b' fun σ => Fits K variance (c.substitute σ) (r.substitute σ) := by
  obtain ⟨hrs, _, _, _⟩ := asVariable_spec hw
  unfold bindRequested at h
  obtain ⟨b₁, h₁, hbind⟩ := exists_of_bind_ok h
  have htag := unifyRequestedTags_sound hsound hb hc hr h₁
  dsimp only at hbind
  split at hbind
  · next hrn =>
    split at hbind
    · cases hbind
    · next hvar =>
      by_cases hcn : c.nullable = true
      · obtain ⟨hext, hsane, hfits⟩ := bindPlaced_sound hK hsound hr hw htag hbind hc rfl rfl rfl
          (by rw [hrn, hcn, Bool.true_or])
        exact ⟨hext, hsane, fun σ hσ =>
          fits_of_compatible (hσ.regular hK hc) (hσ.regular hK hr) (hfits σ hσ)⟩
      · -- only the request may be null
        have hcov : variance = .covariant := by
          cases variance with
          | covariant => rfl
          | invariant => exact absurd ⟨rfl, Bool.eq_false_iff.2 hcn⟩ hvar
        subst hcov
        obtain ⟨hext, hsane, hfits⟩ := bindPlaced_sound (c := c.withNullability true) hK hsound hr hw
          htag hbind (regular_withNullability hc true) rfl rfl rfl (by rw [hrn, Bool.true_or]; rfl)
        refine ⟨hext, hsane, fun σ hσ => ?_⟩
        have hcd := (hσ.regular hK hc).distinct
        have hrd := (hσ.regular hK hr).distinct
        have hfit := Alike.trans (alike_substitute_withNullability σ c).symm (hfits σ hσ)
        by_cases hrstar : (r.substitute σ).isStar = true
        · exact isSubtype_of_compatible (Agree.star (Or.inr ⟨trivial, Or.inr hrstar⟩)) hcd hrd
        · have hrn' : (r.substitute σ).nullable = true := by
            cases dressed_substitute (m := σ) hrs with
            | star _ h => exact absurd h hrstar
            | node _ _ _ hn => rw [hn, hrn, Bool.true_or]
          exact isSubtype_of_nullable hfit hcd hrd hrn'
  · next hrn =>
    obtain ⟨hext, hsane, hfits⟩ := bindPlaced_sound hK hsound hr hw htag hbind hc rfl rfl rfl
      (by rw [Bool.eq_false_iff.2 hrn, Bool.false_or]; rfl)
    exact ⟨hext, hsane, fun σ hσ =>
      fits_of_compatible (hσ.regular hK hc) (hσ.regular hK hr) (hfits σ hσ)⟩

theorem bindCandidate_sound (hK : K.Orderly statics) (hsound : Sound K statics vars compare)
    (hb : Sane K vars b) (hc : K.Regular c) (hr : K.Regular r)
    (hv : asVariable? K vars c = some v) (h : bindCandidate K vars compare v c r b = .ok b') :
    Outcome K statics vars b b' fun σ => Fits K variance (c.substitute σ) (r.substitute σ) := by
  obtain ⟨hcs, hvk, hp, hvc⟩ := asVariable_spec hv
  have hparam : K.isTypeParameter v = true := by
    rw [hK.coherent.isTypeParameter_eq hvk]
    exact hp
  have hvr := regular_of_parameter hK hparam
  have hplace := dressed_parameter hcs hvk (arguments_of_parameter hK hc hcs hp)
  unfold bindCandidate at h
  split at h
  · cases h
  · next hnull =>
    obtain ⟨b₁, h₁, hbind⟩ := exists_of_bind_ok h
    obtain ⟨hext₁, hsane₁, htag⟩ := unifyCandidateTags_sound hsound hb hc hr h₁
    dsimp only at hbind
    -- if the place may be null the value need not be, but all else of it is the request
    generalize hvalue : (if c.nullable = true then _ else _ : Ty) = value at hbind
    have hh : value.head = r.head := by rw [← hvalue]; split <;> rfl
    have ha : value.arguments = r.arguments := by rw [← hvalue]; split <;> rfl
    have ht : value.tags = (r.withoutTags (c.tags.map Ty.classifier)).tags := by
      rw [← hvalue]; split <;> rfl
    have hn : r.nullable = (c.nullable || value.nullable) := by
      rw [← hvalue]
      cases hcn : c.nullable with
      | true => simpa [hcn] using hnull
      | false => rfl
    have hval := regular_withoutTags _ hr hh ha ht
    obtain ⟨hext₂, hsane₂, hholds⟩ := bindVariable_sound hK hsound hsane₁ hval hvc hbind
    refine ⟨hext₁.trans hext₂, hsane₂, fun σ hσ => ?_⟩
    have hrel := requestedTags_rel (P := fun y x => Compatible (x.substitute σ) (y.substitute σ))
      (htag σ (hσ.of_extends hext₂))
    have hfit := compatible_at_places hσ.admissible hplace (dressed_without _ hh ha ht hn) hc hr
      hvr hval (fun s hs => hs) (fun s hs => List.mem_of_mem_filter hs) (hholds σ hσ)
      fun d => optionRel_symm (hrel d)
    exact fits_of_compatible (hσ.regular hK hc) (hσ.regular hK hr) hfit

/-! ### Two types neither of which is a variable -/

/-- Where both sides have to be the same type, the candidate is looked at as it is. -/
theorem of_viewFor_invariant {view : Ty} (h : viewFor? K .invariant c r = some view) :
    c.key = r.key ∧ view = c := by
  rw [viewFor?] at h
  split at h
  · next hk => exact ⟨Classifier.beq_iff_key_eq.1 hk, (Option.some.inj h).symm⟩
  · cases h

/-- What it takes for two such types to go through: the candidate may be null only where the request may,
it has the tags of the request, and below a request that is not the top type it has no other tags and
arguments that go through one by one. -/
theorem of_unifyConcrete (h : unifyConcrete K compare variance c r b = .ok b') :
    nullabilityFits variance c r = true ∧ ∃ b₁, unifyRequestedTags compare c r b = .ok b₁ ∧
      ((variance = .covariant ∧ (K.flagsOf r).top = true ∧ b' = b₁) ∨
        c.tags.find? (fun tag => (r.tag? tag.classifier).isNone) = none ∧
          ∃ view, viewFor? K variance c r = some view ∧
            view.arguments.length = r.arguments.length ∧
            (view.arguments.zip r.arguments).foldlM (fun b (x, y) => compare .invariant x y b) b₁ =
              .ok b') := by
  unfold unifyConcrete at h
  split at h
  · cases h
  next hnull =>
  obtain ⟨b₁, h₁, hrest⟩ := exists_of_bind_ok h
  refine ⟨by simpa using hnull, b₁, h₁, ?_⟩
  split at hrest
  · next htop =>
    cases hrest
    exact Or.inl ⟨htop.1, htop.2, rfl⟩
  split at hrest
  · cases hrest
  next hextra =>
  split at hrest
  · cases hrest
  next view hview =>
  split at hrest
  · next hlen => exact Or.inr ⟨hextra, view, hview, hlen, hrest⟩
  · cases hrest

theorem settled_of_asVariable_none (hs : t.isStar = false) (h : asVariable? K vars t = none)
    (hc : vars.contains t.classifier = true ∨ Settled K statics t.classifier) :
    Settled K statics t.classifier := by
  intro hp
  rcases hc with hc | hc
  · rw [asVariable?, isTypeParameter_eq_isParameter hs, if_pos hp, List.find?_eq_none] at h
    obtain ⟨x, hx, he⟩ := List.contains_iff_exists_mem_beq.1 hc
    exact absurd (BEq.symm he) (h x hx)
  · exact hc hp

theorem regular_view (hK : K.Orderly statics) (hc : K.Regular c)
    (hs : c.isStar = false → Settled K statics c.classifier) {d : Classifier} {view : Ty}
    (h : K.view? c d = some view) : K.Regular view := by
  have hm : Admissible K statics .empty := ⟨by simp, by simp, by simp⟩
  have hv := view_image hK hm (Image.of_regular hK hm hc hs) d d rfl
  rw [h] at hv
  obtain ⟨_, _, hi⟩ := exists_of_rel_some hv
  exact hi.left

/-- Arguments that are compared one by one are compatible. -/
theorem unifyArguments_sound (hsound : Sound K statics vars compare) (hb : Sane K vars b)
    {as bs : List Ty} (has : ∀ a ∈ as, K.Regular a) (hbs : ∀ a ∈ bs, K.Regular a)
    (hl : as.length = bs.length)
    (h : (as.zip bs).foldlM (fun b (x, y) => compare .invariant x y b) b = .ok b') :
    Outcome K statics vars b b' fun σ =>
      List.Forall₂ (fun x y => Compatible (x.substitute σ) (y.substitute σ)) as bs := by
  obtain ⟨hext, hsane, hfits⟩ := foldlM_sound
    (P := fun p σ => Compatible (p.1.substitute σ) (p.2.substitute σ)) (fun p hp _ _ hb h =>
      hsound _ _ _ _ _ h (has _ (List.of_mem_zip hp).1) (hbs _ (List.of_mem_zip hp).2) hb
        fun hcov => by cases hcov) hb h
  exact ⟨hext, hsane, fun σ hσ => List.forall₂_iff_zip.2 ⟨hl, fun hp => hfits σ hσ _ hp⟩⟩

/-- If each requested tag is present and no other one is, the tags correspond. -/
theorem tags_rel {P : Ty → Ty → Prop}
    (hextra : c.tags.find? (fun tag => (r.tag? tag.classifier).isNone) = none)
    (h : ∀ tag ∈ r.tags, ∃ present, c.tag? tag.classifier = some present ∧ P present tag)
    (d : Classifier) : Option.Rel P (c.tag? d) (r.tag? d) := by
  cases hd : r.tag? d with
  | none =>
    have hno : c.tag? d = none := by
      apply lookupTag_eq_none_iff.2
      intro s hs he
      have hex := List.find?_eq_none.1 hextra s hs
      rw [tag_eq_lookupTag, lookupTag_congr _ he, ← tag_eq_lookupTag, hd] at hex
      exact hex rfl
    rw [hno]
    exact Option.Rel.none
  | some tag =>
    obtain ⟨present, hp, hpt⟩ := h tag (mem_of_lookupTag hd)
    have hp' : c.tag? d = some present := by
      rw [← hp]
      exact lookupTag_congr _ (key_of_lookupTag hd).symm
    rw [hp']
    exact Option.Rel.some hpt

theorem unifyConcrete_sound (hK : K.Orderly statics) (hsound : Sound K statics vars compare)
    (hb : Sane K vars b) (hc : K.Regular c) (hr : K.Regular r) (hcs : c.isStar = false)
    (hrs : r.isStar = false) (hcv : asVariable? K vars c = none)
    (hrv : asVariable? K vars r = none)
    (hcov : variance = .covariant →
      vars.contains c.classifier = true ∨ Settled K statics c.classifier)
    (h : unifyConcrete K compare variance c r b = .ok b') :
    Outcome K statics vars b b' fun σ => Fits K variance (c.substitute σ) (r.substitute σ) := by
  obtain ⟨hnull, b₁, h₁, hrest⟩ := of_unifyConcrete h
  obtain ⟨hext₁, hsane₁, htag⟩ := unifyRequestedTags_sound hsound hb hc hr h₁
  rcases hrest with ⟨rfl, htop, rfl⟩ | ⟨hextra, view, hview, hlen, hrest⟩
  · -- below the top type
    have hset := settled_of_asVariable_none hcs hcv (hcov rfl)
    refine ⟨hext₁, hsane₁, fun σ hσ => ?_⟩
    refine isSubtype_of_parts hK hσ.admissible hc hr hcs hrs hset
      (get_of_asVariable_none hσ hrs hrv) ?_ (htag σ hσ) (Or.inl htop)
    intro hcn
    simpa [nullabilityFits, hcn] using hnull
  -- a candidate that has to be assignable is seen as its view, any other one as itself
  cases variance with
  | covariant =>
    have hset := settled_of_asVariable_none hcs hcv (hcov rfl)
    have hvr := regular_view hK hc (fun _ => hset) hview
    obtain ⟨hext₂, hsane₂, hargs⟩ :=
      unifyArguments_sound hsound hsane₁ hvr.arguments hr.arguments hlen hrest
    refine ⟨hext₁.trans hext₂, hsane₂, fun σ hσ => ?_⟩
    refine isSubtype_of_parts hK hσ.admissible hc hr hcs hrs hset
      (get_of_asVariable_none hσ hrs hrv) ?_ (htag σ (hσ.of_extends hext₂))
      (Or.inr ⟨view, hview, hargs σ hσ⟩)
    intro hcn
    simpa [nullabilityFits, hcn] using hnull
  | invariant =>
    obtain ⟨hk, rfl⟩ := of_viewFor_invariant hview
    obtain ⟨hext₂, hsane₂, hargs⟩ :=
      unifyArguments_sound hsound hsane₁ hc.arguments hr.arguments hlen hrest
    refine ⟨hext₁.trans hext₂, hsane₂, fun σ hσ => ?_⟩
    refine compatible_of_parts hσ.admissible hc hr hcs hrs hk (by simpa [nullabilityFits] using hnull)
      (get_of_asVariable_none hσ hcs hcv) ?_ (hargs σ hσ)
    exact tags_rel hextra (htag σ (hσ.of_extends hext₂))

/-! ### The walk -/

/-- If going on with the parts is sound, so is a level of the walk. -/
theorem step_sound (hK : K.Orderly statics) (hsound : Sound K statics vars compare) :
    Sound K statics vars (step K vars compare) := by
  intro variance c r b b' h hc hr hb hcov
  unfold step at h
  split at h
  · next hs =>
    cases h
    refine ⟨Extends.refl _, hb, fun σ hσ => ?_⟩
    -- a star stays one, and is compatible with everything
    apply fits_of_compatible (hσ.regular hK hc) (hσ.regular hK hr)
    refine Agree.star (Or.inr ⟨trivial, ?_⟩)
    exact (Bool.or_eq_true_iff.1 hs).imp isStar_substitute_of_isStar isStar_substitute_of_isStar
  next hs =>
  obtain ⟨hcs, hrs⟩ : c.isStar = false ∧ r.isStar = false := by simpa using hs
  split at h
  · next v w hv hw =>
    split at h
    · next hbare =>
      obtain ⟨htags, hnull⟩ := Bool.and_eq_true_iff.1 hbare
      obtain ⟨hct, hrt⟩ := Bool.and_eq_true_iff.1 htags
      obtain ⟨_, hvk, hvp, hvc⟩ := asVariable_spec hv
      obtain ⟨_, hwk, hwp, hwc⟩ := asVariable_spec hw
      -- neither has tags and both may be null or both not, so the variables are all there is
      have hvr := regular_of_parameter hK ((hK.coherent.isTypeParameter_eq hvk).trans hvp)
      have hwr := regular_of_parameter hK ((hK.coherent.isTypeParameter_eq hwk).trans hwp)
      have hcd := dressed_parameter hcs hvk (arguments_of_parameter hK hc hcs hvp)
      have hrd := dressed_parameter hrs hwk (arguments_of_parameter hK hr hrs hwp)
      obtain ⟨hext, hsane, hholds⟩ := unifyVariables_sound hsound hb hvc hwc h
      refine ⟨hext, hsane, fun σ hσ => ?_⟩
      rw [← eq_of_beq hnull] at hrd
      apply fits_of_compatible (hσ.regular hK hc) (hσ.regular hK hr)
      refine compatible_at_places hσ.admissible hcd hrd hc hr hvr hwr (fun s hs => hs)
        (fun s hs => hs) (hholds σ hσ) fun d => ?_
      rw [List.isEmpty_iff.1 hct, List.isEmpty_iff.1 hrt]
      exact Option.Rel.none
    · exact bindRequested_sound hK hsound hb hc hr hw h
  · next w _ hw => exact bindRequested_sound hK hsound hb hc hr hw h
  · next v hv _ => exact bindCandidate_sound hK hsound hb hc hr hv h
  · next hv hw =>
    exact unifyConcrete_sound hK hsound hb hc hr hcs hrs hv hw (fun h => hcov h hcs) h

/-- What solves the bindings in which a walk ends makes the two types fit. -/
theorem walk_sound (hK : K.Orderly statics) (depth : Nat) :
    Sound K statics vars (walk (U := U) K vars depth) := by
  induction depth with
  | zero =>
    intro variance c r b b' h
    cases h
  | succ depth ih => exact step_sound hK ih

end Wiring.Fit
