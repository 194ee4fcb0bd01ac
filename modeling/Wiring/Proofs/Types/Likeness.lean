import Wiring.Proofs.Types.Plain

namespace Wiring

open Ty

variable {R S : Ty → Ty → Prop} {m m' : Substitution} {c d : Classifier} {t u : Ty}

/-! ### Lists -/

section Lists

variable {α β γ δ : Type} {P : α → β → Prop} {xs : List α} {ys : List β}

theorem forall₂_filter {p : α → Bool} {q : β → Bool} (h : List.Forall₂ P xs ys)
    (hpq : ∀ x y, P x y → p x = q y) : List.Forall₂ P (xs.filter p) (ys.filter q) := by
  induction h with
  | nil => exact List.Forall₂.nil
  | @cons x y xs ys hxy _ ih =>
    rw [List.filter_cons, List.filter_cons, hpq x y hxy]
    split
    · exact List.Forall₂.cons hxy ih
    · exact ih

theorem forall₂_zip {Q : γ → δ → Prop} {zs : List γ} {ws : List δ} (h : List.Forall₂ P xs ys)
    (h' : List.Forall₂ Q zs ws) :
    List.Forall₂ (fun p q => P p.1 q.1 ∧ Q p.2 q.2) (xs.zip zs) (ys.zip ws) := by
  induction h generalizing zs ws with
  | nil => exact List.Forall₂.nil
  | cons hxy _ ih =>
    cases h' with
    | nil => exact List.Forall₂.nil
    | cons hzw h' => exact List.Forall₂.cons ⟨hxy, hzw⟩ (ih h')

theorem mapM_rel {Q : γ → δ → Prop} {f : α → Option γ} {g : β → Option δ}
    (h : List.Forall₂ P xs ys) (hfg : ∀ x y, P x y → Option.Rel Q (f x) (g y)) :
    Option.Rel (List.Forall₂ Q) (xs.mapM f) (ys.mapM g) := by
  induction h with
  | nil => exact Option.Rel.some List.Forall₂.nil
  | @cons x y xs ys hxy _ ih =>
    have hhead := hfg x y hxy
    rw [List.mapM_cons, List.mapM_cons]
    revert hhead ih
    generalize f x = p, g y = p', xs.mapM f = ps, ys.mapM g = ps'
    rintro (hps | _) (hp | _)
    · exact Option.Rel.some (List.Forall₂.cons hp hps)
    · exact Option.Rel.none
    · exact Option.Rel.none
    · exact Option.Rel.none

theorem allM_congr {p : α → Option Bool} {q : β → Option Bool} (h : List.Forall₂ P xs ys)
    (hpq : ∀ x y, P x y → p x = q y) : xs.allM p = ys.allM q := by
  induction h with
  | nil => rfl
  | cons hxy _ ih => rw [List.allM, List.allM, hpq _ _ hxy, ih]

end Lists

/-! ### Classifiers -/

def SameKeys (cs ds : List Classifier) : Prop :=
  List.Forall₂ (fun c d => c.key = d.key) cs ds

namespace SameKeys

variable {cs ds cs' ds' : List Classifier} {p q : Classifier → Bool}

theorem refl (cs : List Classifier) : SameKeys cs cs :=
  List.forall₂_same.2 fun _ _ => rfl

theorem of_beq (h : (cs == ds) = true) : SameKeys cs ds :=
  (forall₂_of_beq h).imp fun _ _ h => Classifier.beq_iff_key_eq.1 h

theorem map_plain_eq_iff : cs.map Classifier.plain = ds.map Classifier.plain ↔ SameKeys cs ds := by
  constructor
  · intro h
    rw [← List.forall₂_eq_eq_eq, List.forall₂_map_left_iff, List.forall₂_map_right_iff] at h
    exact h.imp fun c d h => congrArg Classifier.key h
  · intro h
    exact map_eq_map_of_rel h fun _ _ _ hk => Classifier.plain_eq_of_beq
      (Classifier.beq_iff_key_eq.2 hk)

theorem append (h : SameKeys cs ds) (h' : SameKeys cs' ds') : SameKeys (cs ++ cs') (ds ++ ds') :=
  List.rel_append h h'

theorem filter (h : SameKeys cs ds) (hpq : ∀ c d, c.key = d.key → p c = q d) :
    SameKeys (cs.filter p) (ds.filter q) :=
  forall₂_filter h hpq

theorem eraseDups (h : SameKeys cs ds) : SameKeys cs.eraseDups ds.eraseDups := by
  rw [← map_plain_eq_iff] at h ⊢
  rw [← eraseDups_map Classifier.plain_beq_plain, ← eraseDups_map Classifier.plain_beq_plain, h]

theorem contains_eq (h : SameKeys cs ds) (hk : c.key = d.key) : cs.contains c = ds.contains d := by
  rw [contains_congr hk]
  induction h with
  | nil => rfl
  | @cons e f cs ds he _ ih =>
    rw [List.contains_cons, List.contains_cons, ih,
      BEq.congr_right (Classifier.beq_iff_key_eq.2 he)]

end SameKeys

/-! ### Substitutions -/

namespace Substitution

def Rel (R : Ty → Ty → Prop) (m m' : Substitution) : Prop :=
  List.Forall₂ (fun b b' => b.1.key = b'.1.key ∧ R b.2 b'.2) m.bindings m'.bindings

theorem rel_empty : Rel R empty empty :=
  List.Forall₂.nil

theorem Rel.get (h : m.Rel R m') (c : Classifier) : Option.Rel R (m.get? c) (m'.get? c) := by
  unfold Rel at h
  unfold get?
  revert h
  generalize m.bindings = bs, m'.bindings = bs'
  intro h
  induction h with
  | nil => exact Option.Rel.none
  | @cons b b' bs bs' hb _ ih =>
    rw [lookup_bindings, lookup_bindings, BEq.congr_right (Classifier.beq_iff_key_eq.2 hb.1)]
    split
    · exact Option.Rel.some hb.2
    · exact ih

theorem Rel.contains_eq (h : m.Rel R m') (hk : c.key = d.key) : m.contains c = m'.contains d := by
  have hget := h.get c
  rw [m'.get_congr hk] at hget
  unfold contains
  revert hget
  generalize m.get? c = x, m'.get? d = y
  rintro (_ | _) <;> rfl

theorem Rel.insert (h : m.Rel R m') (hk : c.key = d.key) (ht : R t u) :
    (m.insert c t).Rel R (m'.insert d u) := by
  show List.Forall₂ _ (put c t m.bindings) (put d u m'.bindings)
  unfold Rel at h
  revert h
  generalize m.bindings = bs, m'.bindings = bs'
  intro h
  induction h with
  | nil => exact List.Forall₂.cons ⟨hk, ht⟩ List.Forall₂.nil
  | @cons b b' bs bs' hb h ih =>
    simp only [put, hk, hb.1]
    split
    · exact List.Forall₂.cons ⟨hk, ht⟩ (List.Forall₂.cons hb h)
    · split
      · exact List.Forall₂.cons ⟨hb.1, ht⟩ h
      · exact List.Forall₂.cons hb ih

theorem Rel.map {f g : Ty → Ty} (h : m.Rel R m') (hfg : ∀ t u, R t u → S (f t) (g u)) :
    (m.map f).Rel S (m'.map g) := by
  show List.Forall₂ _ (m.bindings.map _) (m'.bindings.map _)
  rw [List.forall₂_map_left_iff, List.forall₂_map_right_iff]
  exact List.Forall₂.imp (fun _ _ hb => ⟨hb.1, hfg _ _ hb.2⟩) h

theorem rel_ofArguments (ps : List Classifier) {as bs : List Ty} (h : List.Forall₂ R as bs) :
    (ofArguments ps as).Rel R (ofArguments ps bs) := by
  unfold ofArguments ofList
  suffices hs : ∀ m m' : Substitution, m.Rel R m' →
      ((ps.zip as).foldl (fun m b => m.insert b.1 b.2) m).Rel R
        ((ps.zip bs).foldl (fun m b => m.insert b.1 b.2) m') from
    hs .empty .empty rel_empty
  induction h generalizing ps with
  | nil => simp
  | @cons a b as bs hab _ ih =>
    intro m m' hm
    cases ps with
    | nil => exact hm
    | cons p ps => exact ih ps _ _ (hm.insert rfl hab)

theorem Rel.beq (h : m.Rel (fun t u => (t == u) = true) m') : (m == m') = true :=
  beq_of_forall₂ (List.Forall₂.imp (fun _ _ hb => Bool.and_eq_true_iff.2
    ⟨Classifier.beq_iff_key_eq.2 hb.1, hb.2⟩) h)

theorem Rel.plain_eq (h : m.Rel (fun t u => (t == u) = true) m') : m.plain = m'.plain :=
  eq_of_bindings <| map_eq_map_of_rel h fun _ _ _ hb =>
    Prod.ext (Classifier.plain_eq_of_beq (Classifier.beq_iff_key_eq.2 hb.1)) (plain_eq_of_beq hb.2)

end Substitution

/-- A type comes out equal under substitutions that bind the same keys to equal types. -/
theorem Ty.substitute_beq_of_plain (h : m.plain = m'.plain) (t : Ty) :
    (t.substitute m == t.substitute m') = true := by
  rw [← plain_eq_plain_iff, plain_substitute, plain_substitute, h]

namespace Catalog

/-- A relation between types that their parts inherit and that comes through what is made of types
in a search. It is an equivalence between the types that it relates to themselves. -/
structure Likeness (K : Catalog) (R : Ty → Ty → Prop) : Prop where
  symm {a b : Ty} : R a b → R b a
  trans {a b c : Ty} : R a b → R b c → R a c
  of_beq {a b : Ty} : R a a → R b b → (a == b) = true → R a b
  head {a b : Ty} : R a b → (a.head == b.head) = true
  nullable {a b : Ty} : R a b → a.nullable = b.nullable
  arguments {a b : Ty} : R a b → List.Forall₂ R a.arguments b.arguments
  tags {a b : Ty} : R a b → List.Forall₂ R a.tags b.tags
  parameter {c d : Classifier} : c.key = d.key → R (.of c) (.of d)
  declared (c : Classifier) : ∀ s ∈ K.declaredSupertypes c, R s s
  withNullability {a b : Ty} (n : Bool) : R a b → R (a.withNullability n) (b.withNullability n)
  -- What remains of a type beside some of its tags, without its instance key.
  remainder {a b : Ty} {cs ds : List Classifier} : R a b → SameKeys cs ds →
    R (a.withoutTags cs).withoutInstanceKey (b.withoutTags ds).withoutInstanceKey
  above {a b a' b' : Ty} : R a b → R a' b' → R (a.above a') (b.above b')
  substitute {a b : Ty} {m m' : Substitution} : R a b → m.Rel R m' →
    R (a.substitute m) (b.substitute m')

namespace Likeness

variable {K : Catalog} {a a' b b' : Ty} {as as' bs bs' : List Ty}

/-! ### Parts -/

theorem isStar_eq (hR : K.Likeness R) (h : R a b) : a.isStar = b.isStar := by
  have hhead := hR.head h
  obtain ⟨head, as, n, ts, k⟩ := a
  obtain ⟨head', as', n', ts', k'⟩ := b
  rcases head_of_beq hhead with ⟨rfl, rfl⟩ | ⟨c, d, rfl, rfl, -⟩ <;> rfl

theorem key_eq (hR : K.Likeness R) (h : R a b) : a.key = b.key := by
  have hhead := hR.head h
  obtain ⟨head, as, n, ts, k⟩ := a
  obtain ⟨head', as', n', ts', k'⟩ := b
  rcases head_of_beq hhead with ⟨rfl, rfl⟩ | ⟨c, d, rfl, rfl, hcd⟩
  · rfl
  · exact Classifier.beq_iff_key_eq.1 hcd

theorem size_eq (hR : K.Likeness R) (h : R a b) : a.size = b.size := by
  refine Ty.induct (P := fun a => ∀ b, R a b → a.size = b.size) ?_ a b h
  intro a iha iht b h
  rw [Ty.size_eq a, Ty.size_eq b,
    totalSize_congr (forall₂_imp_of_mem (hR.arguments h) fun x hx y _ hxy => iha x hx y hxy),
    totalSize_congr (forall₂_imp_of_mem (hR.tags h) fun x hx y _ hxy => iht x hx y hxy)]

theorem sameKeys_classifiers (hR : K.Likeness R) (h : R a b) :
    SameKeys a.classifiers b.classifiers := by
  refine Ty.induct (P := fun a => ∀ b, R a b → SameKeys a.classifiers b.classifiers) ?_ a b h
  intro a iha iht b h
  have hall : ∀ {xs ys : List Ty}, List.Forall₂ R xs ys →
      (∀ x ∈ xs, ∀ y, R x y → SameKeys x.classifiers y.classifiers) →
      SameKeys (allClassifiers xs) (allClassifiers ys) := by
    intro xs ys hxy ih
    rw [all_classifiers_eq_flat_map, all_classifiers_eq_flat_map]
    exact List.rel_flatMap (forall₂_imp_of_mem hxy fun x hx y _ hxy => ih x hx y hxy)
      fun _ _ h => h
  have hhead := hR.head h
  have hargs := hall (hR.arguments h) iha
  have htags := hall (hR.tags h) iht
  obtain ⟨head, as, n, ts, k⟩ := a
  obtain ⟨head', as', n', ts', k'⟩ := b
  rcases head_of_beq hhead with ⟨rfl, rfl⟩ | ⟨c, d, rfl, rfl, hcd⟩
  · exact List.Forall₂.nil
  · exact List.Forall₂.cons (Classifier.beq_iff_key_eq.1 hcd) (hargs.append htags)

theorem tag (hR : K.Likeness R) (h : R a b) (hk : c.key = d.key) :
    Option.Rel R (a.tag? c) (b.tag? d) :=
  find_rel (fun _ _ h => hR.key_eq h) (hR.tags h) hk

theorem flagsOf_eq (hR : K.Likeness R) (hK : K.Coherent) (h : R a b) :
    K.flagsOf a = K.flagsOf b := by
  have hhead := hR.head h
  obtain ⟨head, as, n, ts, k⟩ := a
  obtain ⟨head', as', n', ts', k'⟩ := b
  rcases head_of_beq hhead with ⟨rfl, rfl⟩ | ⟨c, d, rfl, rfl, hcd⟩
  · rfl
  · exact hK.flags_eq (Classifier.beq_iff_key_eq.1 hcd)

theorem isParameter_eq (hR : K.Likeness R) (hK : K.Coherent) (h : R a b) :
    K.isParameter a = K.isParameter b := by
  rw [isParameter, isParameter, hR.flagsOf_eq hK h]

theorem sameKeys_parametersIn (hR : K.Likeness R) (hK : K.Coherent) (h : R a b) :
    SameKeys (K.parametersIn a) (K.parametersIn b) :=
  ((hR.sameKeys_classifiers h).filter fun _ _ hk => hK.isTypeParameter_eq hk).eraseDups

/-! ### Supertypes -/

theorem argumentsOf (hR : K.Likeness R) (hK : K.Coherent) (h : R a b) :
    (K.argumentsOf a).Rel R (K.argumentsOf b) := by
  cases hs : a.isStar with
  | true =>
    rw [argumentsOf_of_isStar hs, argumentsOf_of_isStar (hR.isStar_eq h ▸ hs)]
    exact Substitution.rel_empty
  | false =>
    rw [argumentsOf_eq hs, argumentsOf_eq (hR.isStar_eq h ▸ hs),
      hK.typeParameters_eq (hR.key_eq h)]
    exact Substitution.rel_ofArguments _ (hR.arguments h)

theorem supertypes (hR : K.Likeness R) (hK : K.Coherent) (h : R a b) :
    List.Forall₂ R (K.supertypes a) (K.supertypes b) := by
  cases hs : a.isStar with
  | true =>
    rw [supertypes_of_isStar hs, supertypes_of_isStar (hR.isStar_eq h ▸ hs)]
    exact List.Forall₂.nil
  | false =>
    rw [supertypes_eq hs, supertypes_eq (hR.isStar_eq h ▸ hs),
      hK.declaredSupertypes_eq (hR.key_eq h)]
    refine forall₂_map_same fun s hd => ?_
    exact hR.above (hR.substitute (hR.declared _ s hd) (hR.argumentsOf hK h)) h

theorem view (hR : K.Likeness R) (hK : K.Coherent) (h : R a b) (hk : c.key = d.key) :
    Option.Rel R (K.view? a c) (K.view? b d) :=
  view_rel (fun _ _ h => hR.key_eq h) (fun _ _ h => hR.supertypes hK h) h hk

theorem distance_eq (hR : K.Likeness R) (hK : K.Coherent) (h : R a b) (hk : c.key = d.key) :
    K.distance? a c = K.distance? b d :=
  distance_rel (fun _ _ h => hR.key_eq h) (fun _ _ h => hR.supertypes hK h) h hk

/-! ### Subtyping -/

def RelPremise (R : Ty → Ty → Prop) (p q : Ty × Ty) : Prop :=
  R p.1 q.1 ∧ R p.2 q.2

theorem tagPremises (hR : K.Likeness R) (ha : R a a') (hb : R b b') :
    Option.Rel (List.Forall₂ (RelPremise R)) (tagPremises? a b) (tagPremises? a' b') := by
  refine mapM_rel (hR.tags hb) fun x y hxy => ?_
  have hfind := hR.tag ha (hR.key_eq hxy)
  revert hfind
  generalize a.tag? x.classifier = present, a'.tag? y.classifier = present'
  rintro (hpresent | _)
  · exact Option.Rel.some ⟨hpresent, hxy⟩
  · exact Option.Rel.none

theorem argumentPremises (ha : List.Forall₂ R as as') (hb : List.Forall₂ R bs bs') :
    Option.Rel (List.Forall₂ (RelPremise R)) (argumentPremises? as bs)
      (argumentPremises? as' bs') := by
  unfold argumentPremises?
  rw [ha.length_eq, hb.length_eq]
  split
  · exact Option.Rel.some (List.rel_flatMap (forall₂_zip ha hb) fun p q h =>
      List.Forall₂.cons ⟨h.1, h.2⟩ (List.Forall₂.cons ⟨h.2, h.1⟩ List.Forall₂.nil))
  · exact Option.Rel.none

theorem premises (hR : K.Likeness R) (hK : K.Coherent) (ha : R a a') (hb : R b b') :
    Option.Rel (List.Forall₂ (RelPremise R)) (K.premises? a b) (K.premises? a' b') := by
  unfold premises?
  rw [hR.isStar_eq ha, hR.isStar_eq hb, hR.nullable ha, hR.nullable hb, hR.flagsOf_eq hK hb]
  -- a star or a null may settle it; otherwise tags and arguments are the premises
  split
  · exact Option.Rel.some List.Forall₂.nil
  split
  · exact Option.Rel.none
  have htags := hR.tagPremises ha hb
  have hview := hR.view hK ha (hR.key_eq hb)
  revert htags hview
  generalize tagPremises? a b = tags, tagPremises? a' b' = tags'
  generalize K.view? a b.classifier = view, K.view? a' b'.classifier = view'
  rintro (htags | _) hview
  · by_cases htop : (K.flagsOf b').top = true
    · simpa [htop] using Option.Rel.some htags
    · rcases hview with hview | _
      · have harguments := argumentPremises (hR.arguments hview) (hR.arguments hb)
        revert harguments
        simp only [htop, Option.bind_eq_bind, Option.bind_some]
        generalize argumentPremises? _ b.arguments = q, argumentPremises? _ b'.arguments = q'
        rintro (hq | _)
        · exact Option.Rel.some (List.rel_append htags hq)
        · exact Option.Rel.none
      · simp only [htop, Option.bind_eq_bind, Option.bind_none, Option.bind_some]
        exact Option.Rel.none
  · exact Option.Rel.none

theorem subtypeWithin_eq (hR : K.Likeness R) (hK : K.Coherent) (depth : Nat) (ha : R a a')
    (hb : R b b') : K.subtypeWithin depth a b = K.subtypeWithin depth a' b' := by
  induction depth generalizing a a' b b' with
  | zero => rfl
  | succ depth ih =>
    have hpremises := hR.premises hK ha hb
    rw [subtypeWithin, subtypeWithin]
    revert hpremises
    generalize K.premises? a b = ps, K.premises? a' b' = ps'
    rintro (hps | _)
    · exact allM_congr hps fun p q h => ih h.1 h.2
    · rfl

/-- Types that are alike are subtypes of the same types, up to what is alike. -/
theorem isSubtype_eq (hR : K.Likeness R) (hK : K.Coherent) (ha : R a a') (hb : R b b') :
    K.isSubtype a b = K.isSubtype a' b' := by
  have hdepth : K.subtypeDepth a b = K.subtypeDepth a' b' := by
    rw [subtypeDepth, subtypeDepth, hR.size_eq ha, hR.size_eq hb]
  rw [isSubtype, isSubtype, hdepth, hR.subtypeWithin_eq hK _ ha hb]

end Likeness

/-! ### Equality -/

/-- Equal types are alike. -/
theorem likeness_beq (K : Catalog) : K.Likeness fun a b => (a == b) = true where
  symm h := BEq.symm h
  trans h h' := BEq.trans h h'
  of_beq _ _ h := h
  head h := (parts_of_beq h).head
  nullable h := (parts_of_beq h).nullable
  arguments h := (parts_of_beq h).arguments
  tags h := (parts_of_beq h).tags
  parameter hk := by
    have hhead : (Head.named _ == Head.named _) = true := Classifier.beq_iff_key_eq.2 hk
    simp only [Ty.of, beq_eq, hhead, BEq.rfl, Bool.and_self]
  declared c s hs := BEq.rfl
  withNullability n h := by
    obtain ⟨hhead, -, hkey, hargs, htags⟩ := parts_of_beq h
    simp only [beq_eq, Ty.withNullability, hhead, hkey, beq_of_forall₂ hargs, beq_of_forall₂ htags,
      BEq.rfl, Bool.and_self]
  remainder h hk := by
    obtain ⟨hhead, hnull, -, hargs, htags⟩ := parts_of_beq h
    have hrest := beq_of_forall₂ (forall₂_filter htags fun x y hxy =>
      congrArg not (hk.contains_eq (key_of_beq hxy)))
    simp only [beq_eq, withoutInstanceKey, withInstanceKey, withoutTags, hhead, hnull,
      beq_of_forall₂ hargs, hrest, BEq.rfl, Bool.and_self]
  above h h' := by
    obtain ⟨hhead, hnull, hkey, hargs, htags⟩ := parts_of_beq h
    obtain ⟨-, hnull', -, -, htags'⟩ := parts_of_beq h'
    have hmerged := beq_of_forall₂ (canonicalTags_beq (List.rel_append htags' htags))
    simp only [beq_eq, Ty.above, Ty.withNullability, withTags, hhead, hnull, hnull', hkey,
      beq_of_forall₂ hargs, hmerged, BEq.rfl, Bool.and_self]
  substitute h hm := BEq.trans (substitute_beq _ h) (substitute_beq_of_plain hm.plain_eq _)

end Catalog
end Wiring
