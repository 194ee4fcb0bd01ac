import Wiring.Proofs.Types.Assignable
import Wiring.Proofs.Types.Projection

namespace Wiring

/-! ### Equality of pairs and lists -/

section Lists

variable {α β : Type}

theorem beq_of_forall₂ [BEq α] {xs ys : List α}
    (h : List.Forall₂ (fun x y => (x == y) = true) xs ys) : (xs == ys) = true := by
  induction h with
  | nil => rfl
  | cons hxy _ ih => rw [List.cons_beq_cons, hxy, ih, Bool.and_self]

variable {R : α → β → Prop} {key : α → String} {key' : β → String} {x : α} {y : β} {xs : List α}
  {ys : List β}

/-- Elements with equal keys come to stand in the same places. -/
theorem Keyed.insert_rel (hR : ∀ x y, R x y → key x = key' y) (h : R x y)
    (hs : List.Forall₂ R xs ys) : List.Forall₂ R (insert key x xs) (insert key' y ys) := by
  induction hs with
  | nil => exact List.Forall₂.cons h List.Forall₂.nil
  | @cons x' y' xs ys hxy hs ih =>
    simp only [insert, hR x y h, hR x' y' hxy]
    split
    · exact List.Forall₂.cons h (List.Forall₂.cons hxy hs)
    · split
      · exact List.Forall₂.cons hxy hs
      · exact List.Forall₂.cons hxy ih

theorem Keyed.ofList_rel (hR : ∀ x y, R x y → key x = key' y) (h : List.Forall₂ R xs ys) :
    List.Forall₂ R (ofList key xs) (ofList key' ys) := by
  suffices hacc : ∀ acc acc', List.Forall₂ R acc acc' →
      List.Forall₂ R (xs.foldl (fun sorted x => insert key x sorted) acc)
        (ys.foldl (fun sorted x => insert key' x sorted) acc') from
    hacc [] [] List.Forall₂.nil
  induction h with
  | nil => exact fun _ _ hacc => hacc
  | cons hxy _ ih => exact fun _ _ hacc => ih _ _ (insert_rel hR hxy hacc)

end Lists

instance equivBEqProd {α β : Type} [BEq α] [BEq β] [EquivBEq α] [EquivBEq β] :
    EquivBEq (α × β) where
  rfl {a} := by
    show (a.1 == a.1 && a.2 == a.2) = true
    simp
  symm {a b} h := by
    obtain ⟨h₁, h₂⟩ := Bool.and_eq_true_iff.1 (show (a.1 == b.1 && a.2 == b.2) = true from h)
    exact Bool.and_eq_true_iff.2 ⟨BEq.symm h₁, BEq.symm h₂⟩
  trans {a b c} h k := by
    obtain ⟨h₁, h₂⟩ := Bool.and_eq_true_iff.1 (show (a.1 == b.1 && a.2 == b.2) = true from h)
    obtain ⟨k₁, k₂⟩ := Bool.and_eq_true_iff.1 (show (b.1 == c.1 && b.2 == c.2) = true from k)
    exact Bool.and_eq_true_iff.2 ⟨BEq.trans h₁ k₁, BEq.trans h₂ k₂⟩

instance equivBEqList {α : Type} [BEq α] [EquivBEq α] : EquivBEq (List α) where
  rfl {as} := by
    induction as with
    | nil => rfl
    | cons a as ih => rw [List.cons_beq_cons, BEq.rfl, ih, Bool.and_self]
  symm {as bs} h := by
    induction as generalizing bs with
    | nil => cases bs <;> simp_all
    | cons a as ih =>
      cases bs with
      | nil => simp at h
      | cons b bs =>
        rw [List.cons_beq_cons, Bool.and_eq_true] at h ⊢
        exact ⟨BEq.symm h.1, ih h.2⟩
  trans {as bs cs} h k := by
    induction as generalizing bs cs with
    | nil => cases bs <;> simp_all
    | cons a as ih =>
      cases bs with
      | nil => simp at h
      | cons b bs =>
        cases cs with
        | nil => simp at k
        | cons c cs =>
          rw [List.cons_beq_cons, Bool.and_eq_true] at h k ⊢
          exact ⟨BEq.trans h.1 k.1, ih h.2 k.2⟩

instance equivBEqSubstitution : EquivBEq Substitution where
  rfl {m} := show (m.bindings == m.bindings) = true from BEq.rfl
  symm {m m'} h := show (m'.bindings == m.bindings) = true from BEq.symm h
  trans {m m' m''} h k := show (m.bindings == m''.bindings) = true from
    BEq.trans (b := m'.bindings) h k

namespace Ty

variable {a b t u : Ty} {m m' : Substitution} {as bs : List Ty}

theorem totalSize_congr (h : List.Forall₂ (fun x y => x.size = y.size) as bs) :
    totalSize as = totalSize bs := by
  induction h with
  | nil => rfl
  | cons hab _ ih => rw [totalSize, totalSize, hab, ih]

theorem size_of_beq (h : (a == b) = true) : a.size = b.size := by
  refine Ty.induct (P := fun a => ∀ b, (a == b) = true → a.size = b.size) ?_ a b h
  intro a has hts b h
  have hparts := parts_of_beq h
  have harguments := totalSize_congr
    (forall₂_imp_of_mem hparts.arguments fun x hx y _ hxy => has x hx y hxy)
  have htags := totalSize_congr
    (forall₂_imp_of_mem hparts.tags fun x hx y _ hxy => hts x hx y hxy)
  rw [size_eq a, size_eq b, harguments, htags]

/-! ### Classifiers -/

/-- Equal types mention the same classifiers in the same places. -/
theorem classifiers_beq (h : (a == b) = true) :
    List.Forall₂ (fun c d => (c == d) = true) a.classifiers b.classifiers := by
  refine Ty.induct (P := fun a => ∀ b, (a == b) = true →
    List.Forall₂ (fun c d => (c == d) = true) a.classifiers b.classifiers) ?_ a b h
  intro a iha iht b h
  obtain ⟨hhead, _, _, hargs, htags⟩ := parts_of_beq h
  have hall : ∀ {xs ys : List Ty}, List.Forall₂ (fun x y => (x == y) = true) xs ys →
      (∀ x ∈ xs, ∀ y, (x == y) = true →
        List.Forall₂ (fun c d => (c == d) = true) x.classifiers y.classifiers) →
      List.Forall₂ (fun c d => (c == d) = true) (allClassifiers xs) (allClassifiers ys) := by
    intro xs ys hxy ih
    rw [all_classifiers_eq_flat_map, all_classifiers_eq_flat_map]
    have hrel := forall₂_imp_of_mem hxy fun x hx y _ hxy => ih x hx y hxy
    exact List.rel_flatMap hrel fun _ _ h => h
  obtain ⟨head, as, n, ts, k⟩ := a
  obtain ⟨head', as', n', ts', k'⟩ := b
  rcases head_of_beq hhead with ⟨rfl, rfl⟩ | ⟨c, d, rfl, rfl, hcd⟩
  · exact List.Forall₂.nil
  · exact List.Forall₂.cons hcd (List.rel_append (hall hargs iha) (hall htags iht))

/-- Of equal types all classifiers are equal, from the outside in and in order of keys. -/
theorem covering_beq (h : (a == b) = true) :
    List.Forall₂ (fun c d => (c == d) = true) a.covering b.covering :=
  Keyed.ofList_rel (fun _ _ => Classifier.beq_iff_key_eq.1) (classifiers_beq h)

/-! ### Substitution -/

theorem canonicalTags_beq (h : List.Forall₂ (fun x y => (x == y) = true) as bs) :
    List.Forall₂ (fun x y => (x == y) = true) (canonicalTags as) (canonicalTags bs) :=
  Keyed.ofList_rel (fun _ _ => key_of_beq) h

/-- A substitution takes equal types to equal types. -/
theorem substitute_beq (m : Substitution) (h : (t == u) = true) :
    (t.substitute m == u.substitute m) = true := by
  refine Ty.induct
    (P := fun t => ∀ u, (t == u) = true → (t.substitute m == u.substitute m) = true) ?_ t u h
  intro t iha iht u h
  obtain ⟨hhead, hnull, hkey, hargs, htags⟩ := parts_of_beq h
  have ha : List.Forall₂ (fun x y => (x == y) = true)
      (t.arguments.map (substitute m)) (u.arguments.map (substitute m)) := by
    rw [List.forall₂_map_left_iff, List.forall₂_map_right_iff]
    exact forall₂_imp_of_mem hargs fun x hx y _ hxy => iha x hx y hxy
  have ht : List.Forall₂ (fun x y => (x == y) = true)
      (t.tags.map (substitute m)) (u.tags.map (substitute m)) := by
    rw [List.forall₂_map_left_iff, List.forall₂_map_right_iff]
    exact forall₂_imp_of_mem htags fun x hx y _ hxy => iht x hx y hxy
  obtain ⟨head, as, n, ts, k⟩ := t
  obtain ⟨head', as', n', ts', k'⟩ := u
  rcases head_of_beq hhead with ⟨rfl, rfl⟩ | ⟨c, d, rfl, rfl, hcd⟩
  · simpa [substitute] using h
  · have hget : m.get? c = m.get? d := m.get_congr (Classifier.beq_iff_key_eq.1 hcd)
    dsimp only at hnull hkey hargs htags ha ht
    -- what does not change is left as it is, for both types or for none
    have hsame : (as.map (substitute m) == as && ts.map (substitute m) == ts) =
        (as'.map (substitute m) == as' && ts'.map (substitute m) == ts') := by
      rw [BEq.congr_left (beq_of_forall₂ ha), BEq.congr_right (beq_of_forall₂ hargs),
        BEq.congr_left (beq_of_forall₂ ht), BEq.congr_right (beq_of_forall₂ htags)]
    simp only [substitute, substitute_all_eq_map, ← hget, ← hsame]
    split
    · exact h
    · split
      · next v hv =>
        -- a bound classifier: the value is the same, and the tags are put on it
        have hrefl : List.Forall₂ (fun x y => (x == y) = true) v.tags v.tags :=
          List.forall₂_same.2 fun _ _ => BEq.rfl
        have hmerged := beq_of_forall₂ (canonicalTags_beq (List.rel_append ht hrefl))
        simp only [beq_eq, withTags, withNullability, withInstanceKey, hmerged, hnull, hkey,
          BEq.rfl, Bool.and_self]
      · split
        · exact h
        · have hmerged := beq_of_forall₂ (canonicalTags_beq ht)
          simp only [beq_eq, withTags, hmerged, beq_of_forall₂ ha, hnull, hkey, hhead, BEq.rfl,
            Bool.and_self]

/-- A substitution that binds nothing in a type leaves it as it is. -/
theorem substitute_eq_self (h : ∀ c ∈ t.classifiers, m.get? c = none) : t.substitute m = t := by
  refine Ty.induct
    (P := fun t => (∀ c ∈ t.classifiers, m.get? c = none) → t.substitute m = t) ?_ t h
  intro t iha iht h
  cases hs : t.isStar with
  | true => exact substitute_of_isStar hs
  | false =>
    have ha : t.arguments.map (substitute m) = t.arguments := calc
      t.arguments.map (substitute m) = t.arguments.map id :=
        List.map_congr_left fun a hmem =>
          iha a hmem fun c hc => h c (mem_classifiers_of_argument hs hmem hc)
      _ = t.arguments := List.map_id _
    have ht : t.tags.map (substitute m) = t.tags := calc
      t.tags.map (substitute m) = t.tags.map id :=
        List.map_congr_left fun s hmem =>
          iht s hmem fun c hc => h c (mem_classifiers_of_tag hs hmem hc)
      _ = t.tags := List.map_id _
    have hself := h _ (classifier_mem hs)
    obtain ⟨head, as, n, ts, k⟩ := t
    cases head with
    | star => simp [isStar] at hs
    | named c =>
      have hc : m.get? c = none := hself
      dsimp only at ha ht
      simp [substitute, substitute_all_eq_map, hc, ha, ht]

/-- Substitutions that bind alike what is in a type do the same to it. -/
theorem substitute_congr (h : ∀ c ∈ t.classifiers, m.get? c = m'.get? c) :
    t.substitute m = t.substitute m' := by
  -- a substitution without bindings does nothing, and one that binds nothing here neither
  cases hm : m.isEmpty with
  | true =>
    rw [substitute_of_isEmpty hm]
    refine (substitute_eq_self fun c hc => ?_).symm
    rw [← h c hc, Substitution.get_of_isEmpty hm]
  | false =>
    cases hm' : m'.isEmpty with
    | true =>
      rw [substitute_of_isEmpty hm']
      refine substitute_eq_self fun c hc => ?_
      rw [h c hc, Substitution.get_of_isEmpty hm']
    | false =>
      refine Ty.induct (P := fun t => (∀ c ∈ t.classifiers, m.get? c = m'.get? c) →
        t.substitute m = t.substitute m') ?_ t h
      intro t iha iht h
      cases hs : t.isStar with
      | true => rw [substitute_of_isStar hs, substitute_of_isStar hs]
      | false =>
        have ha : t.arguments.map (substitute m) = t.arguments.map (substitute m') :=
          List.map_congr_left fun a hmem =>
            iha a hmem fun c hc => h c (mem_classifiers_of_argument hs hmem hc)
        have ht : t.tags.map (substitute m) = t.tags.map (substitute m') :=
          List.map_congr_left fun s hmem =>
            iht s hmem fun c hc => h c (mem_classifiers_of_tag hs hmem hc)
        have hself := h _ (classifier_mem hs)
        obtain ⟨head, as, n, ts, k⟩ := t
        cases head with
        | star => simp [isStar] at hs
        | named c =>
          change m.get? c = m'.get? c at hself
          dsimp only at ha ht
          simp only [substitute, substitute_all_eq_map, hm, hm', hself, ha, ht]

end Ty

namespace Catalog

open Ty

variable {K : Catalog} {statics : List Classifier} {a a' b b' : Ty} {as as' bs bs' : List Ty}

/-! ### Subtyping -/

def described (K : Catalog) : List Classifier :=
  K.entries.map fun e => ⟨e.1, 0⟩

theorem contains_described {c : Classifier} (h : K.isTypeParameter c = true) :
    K.described.contains c = true := by
  cases hl : K.entries.lookup c.key with
  | none =>
    have hentry : K.entry c = {} := by simp [entry, revisions, hl]
    simp [isTypeParameter, flags, hentry] at h
  | some es =>
    have hmem : ¬ ∀ e ∈ K.entries, (c.key != e.1) = true := fun hnone => by
      rw [List.lookup_eq_none_iff.2 hnone] at hl
      cases hl
    simp only [not_forall, bne_iff_ne, not_not] at hmem
    obtain ⟨e, he, hk⟩ := hmem
    refine List.contains_iff_exists_mem_beq.2 ⟨⟨e.1, 0⟩, List.mem_map_of_mem he, ?_⟩
    exact Classifier.beq_iff_key_eq.2 hk

/-- A catalog that is orderly with some static parameters is so when all parameters are static. -/
theorem Orderly.closed (hK : K.Orderly statics) : K.Orderly K.described :=
  { hK with bounds := fun _ _ _ _ _ hp => contains_described (of_mem_parametersIn hp).2 }

structure Twins (K : Catalog) (a b : Ty) : Prop where
  -- Regular types that agree, in this order.
  left : K.Regular a
  right : K.Regular b
  alike : Alike a b

theorem Twins.refl (ha : K.Regular a) : Twins K a a :=
  ⟨ha, ha, Agree.refl a⟩

theorem Twins.key_eq (h : Twins K a b) : a.key = b.key := by
  cases h.alike with
  | star hs =>
    have hstar : ∀ t : Ty, t.isStar = true → t.key = "*" := by
      rintro ⟨head, _, _, _, _⟩ ht
      cases head with
      | star => rfl
      | named c => simp [isStar] at ht
    rcases hs with ⟨ha, hb⟩ | ⟨h, _⟩
    · rw [hstar a ha, hstar b hb]
    · exact False.elim h
  | node _ _ key => exact key

theorem Twins.dress (h : Twins K a b) (hs : a.isStar = false) :
    a.nullable = b.nullable ∧ ∀ c, Option.Rel Alike (a.tag? c) (b.tag? c) := by
  cases h.alike with
  | star hstar => simp [hs] at hstar
  | node _ _ _ nullable _ tags => exact ⟨nullable, tags⟩

theorem Twins.flagsOf_eq (h : Twins K a b) (hK : K.Coherent) (hs : a.isStar = false) :
    K.flagsOf a = K.flagsOf b :=
  flagsOf_congr hK hs (h.alike.isStar_eq ▸ hs) h.key_eq

/-- Types that agree have views that agree. -/
theorem view_twins (hK : K.Orderly statics) (h : Twins K a b) {goal goal' : Classifier}
    (hg : goal.key = goal'.key) :
    Option.Rel (Twins K) (K.view? a goal) (K.view? b goal') := by
  have hm : Admissible K K.described .empty := ⟨by simp, by simp, by simp⟩
  have himage : Image K K.described .empty b a := {
    left := h.right
    right := h.left
    settled := fun _ => contains_described
    key := h.key_eq
    alike := by
      rw [substitute_of_isEmpty rfl]
      exact h.alike }
  refine optionRel_imp ?_ (optionRel_symm (view_image hK.closed hm himage goal' goal hg.symm))
  intro x y hxy
  have halike := hxy.alike
  rw [substitute_of_isEmpty rfl] at halike
  exact ⟨hxy.right, hxy.left, halike⟩

theorem exists_mem_zip {R : Ty → Ty → Prop} (ha : List.Forall₂ R as as')
    (hb : List.Forall₂ R bs bs') {p : Ty × Ty} (hp : p ∈ as'.zip bs') :
    ∃ q ∈ as.zip bs, R q.1 p.1 ∧ R q.2 p.2 := by
  induction ha generalizing bs bs' with
  | nil => simp at hp
  | @cons x x' as as' hx _ ih =>
    cases hb with
    | nil => simp at hp
    | @cons y y' bs bs' hy hb =>
      rw [List.zip_cons_cons] at hp ⊢
      rcases List.mem_cons.1 hp with rfl | hp
      · exact ⟨(x, y), List.mem_cons_self .., hx, hy⟩
      · obtain ⟨q, hq, hR⟩ := ih hb hp
        exact ⟨q, List.mem_cons_of_mem _ hq, hR⟩

def Echoes (K : Catalog) (ps : List (Ty × Ty)) (p : Ty × Ty) : Prop :=
  ∃ q ∈ ps, Twins K q.1 p.1 ∧ Twins K q.2 p.2

theorem echoes_tagPremises {ps : List (Ty × Ty)} (ha : Twins K a a') (hb : Twins K b b')
    (hta : ∀ c, Option.Rel Alike (a.tag? c) (a'.tag? c))
    (htb : ∀ c, Option.Rel Alike (b.tag? c) (b'.tag? c)) (h : tagPremises? a b = some ps) :
    ∃ ps', tagPremises? a' b' = some ps' ∧ ∀ p ∈ ps', Echoes K ps p := by
  have hneeded : ∀ needed ∈ b'.tags, ∃ present, a'.tag? needed.classifier = some present ∧
      Echoes K ps (present, needed) := by
    intro needed hn
    -- the tag on the other side that is needed there, and the one that is present for it
    have hself : b'.tag? needed.classifier = some needed :=
      lookupTag_of_mem hb.right.here.distinct hn
    have hrel := htb needed.classifier
    rw [hself] at hrel
    obtain ⟨wanted, hw, hwn⟩ := exists_of_rel_some (optionRel_alike_symm hrel)
    have hwmem : wanted ∈ b.tags := mem_of_lookupTag hw
    obtain ⟨given, hg, hmem⟩ := mem_tagPremises h wanted hwmem
    have hkey : wanted.classifier.key = needed.classifier.key := key_of_lookupTag hw
    have hrel' := hta wanted.classifier
    rw [hg, show a'.tag? wanted.classifier = a'.tag? needed.classifier from
      lookupTag_congr _ hkey] at hrel'
    obtain ⟨present, hp, hgp⟩ := exists_of_rel_some hrel'
    refine ⟨present, hp, (given, wanted), hmem, ?_, ?_⟩
    · exact ⟨ha.left.tags _ (mem_of_lookupTag hg), ha.right.tags _ (mem_of_lookupTag hp), hgp⟩
    · exact ⟨hb.left.tags _ hwmem, hb.right.tags _ hn, hwn.symm⟩
  obtain ⟨ps', hps', hall⟩ := exists_tagPremises hneeded
  exact ⟨ps', hps', fun p hp => (hall p hp).2.2⟩

theorem echoes_argumentPremises {ps : List (Ty × Ty)} (ha : List.Forall₂ (Twins K) as as')
    (hb : List.Forall₂ (Twins K) bs bs') (h : argumentPremises? as bs = some ps) :
    ∃ ps', argumentPremises? as' bs' = some ps' ∧ ∀ p ∈ ps', Echoes K ps p := by
  unfold argumentPremises? at h ⊢
  split at h
  · next hl =>
    obtain rfl := Option.some.inj h
    rw [← ha.length_eq, ← hb.length_eq, if_pos hl]
    refine ⟨_, rfl, fun p hp => ?_⟩
    obtain ⟨pair, hpair, hp⟩ := List.mem_flatMap.1 hp
    obtain ⟨q, hq, hleft, hright⟩ := exists_mem_zip ha hb hpair
    rcases List.mem_cons.1 hp with rfl | hp
    · refine ⟨(q.1, q.2), List.mem_flatMap.2 ⟨q, hq, ?_⟩, hleft, hright⟩
      exact List.mem_cons_self ..
    · obtain rfl := List.mem_singleton.1 hp
      refine ⟨(q.2, q.1), List.mem_flatMap.2 ⟨q, hq, ?_⟩, hright, hleft⟩
      exact List.mem_cons_of_mem _ (List.mem_singleton_self _)
  · cases h

theorem forall₂_twins (ha : ∀ x ∈ as, K.Regular x) (ha' : ∀ x ∈ as', K.Regular x)
    (h : List.Forall₂ Alike as as') : List.Forall₂ (Twins K) as as' :=
  forall₂_imp_of_mem h fun x hx y hy hxy => ⟨ha x hx, ha' y hy, hxy⟩

theorem Twins.arguments (h : Twins K a b) : List.Forall₂ (Twins K) a.arguments b.arguments := by
  cases h.alike with
  | star hs =>
    rcases hs with ⟨ha, hb⟩ | ⟨hf, _⟩
    · rw [h.left.here.star ha, h.right.here.star hb]
      exact List.Forall₂.nil
    · exact False.elim hf
  | node _ _ _ _ arguments => exact forall₂_twins h.left.arguments h.right.arguments arguments

/-- Types that agree come down to premises that agree. -/
theorem echoes_premises (hK : K.Orderly statics) {ps : List (Ty × Ty)} (ha : Twins K a a')
    (hb : Twins K b b') (h : K.premises? a b = some ps) :
    ∃ ps', K.premises? a' b' = some ps' ∧ ∀ p ∈ ps', Echoes K ps p := by
  have hstar : (a'.isStar || b'.isStar) = (a.isStar || b.isStar) := by
    rw [ha.alike.isStar_eq, hb.alike.isStar_eq]
  unfold premises? at h ⊢
  rw [hstar]
  split at h
  · next hs =>
    rw [if_pos hs]
    exact ⟨[], rfl, List.forall_mem_nil _⟩
  · next hs =>
    rw [if_neg hs]
    obtain ⟨has, hbs⟩ : a.isStar = false ∧ b.isStar = false := by simpa using hs
    obtain ⟨hna, hta⟩ := ha.dress has
    obtain ⟨hnb, htb⟩ := hb.dress hbs
    rw [← hna, ← hnb, ← hb.flagsOf_eq hK.coherent hbs]
    split at h
    · cases h
    · next hnull =>
      rw [if_neg hnull]
      obtain ⟨tags, htags, h⟩ := Option.bind_eq_some_iff.1 h
      obtain ⟨tags', htags', hall⟩ := echoes_tagPremises ha hb hta htb htags
      rw [htags']
      split at h
      · next htop =>
        -- nothing but tags is compared with the type above all types
        cases h
        refine ⟨tags', ?_, hall⟩
        simp [htop]
      · next htop =>
        obtain ⟨view, hview, h⟩ := Option.bind_eq_some_iff.1 h
        obtain ⟨arguments, harguments, h⟩ := Option.bind_eq_some_iff.1 h
        cases h
        have hviews := view_twins hK ha hb.key_eq
        rw [hview] at hviews
        obtain ⟨view', hview', hvv⟩ := exists_of_rel_some hviews
        obtain ⟨arguments', harguments', hall'⟩ :=
          echoes_argumentPremises hvv.arguments hb.arguments harguments
        refine ⟨tags' ++ arguments', by simp [htop, hview', harguments'], fun p hp => ?_⟩
        rcases List.mem_append.1 hp with hp | hp
        · obtain ⟨q, hq, hqp⟩ := hall p hp
          exact ⟨q, List.mem_append_left _ hq, hqp⟩
        · obtain ⟨q, hq, hqp⟩ := hall' p hp
          exact ⟨q, List.mem_append_right _ hq, hqp⟩

/-- What a type is a subtype of does not depend on how the two are written. -/
theorem subtypeWithin_of_twins (hK : K.Orderly statics) {depth : Nat} (ha : Twins K a a')
    (hb : Twins K b b') (h : K.subtypeWithin depth a b = some true) :
    K.subtypeWithin depth a' b' = some true := by
  induction depth generalizing a a' b b' with
  | zero => cases h
  | succ depth ih =>
    rw [subtypeWithin] at h
    cases hps : K.premises? a b with
    | none =>
      rw [hps] at h
      cases h
    | some ps =>
      rw [hps] at h
      have hall := forall_of_allM h
      obtain ⟨ps', hps', hechoes⟩ := echoes_premises hK ha hb hps
      refine subtypeWithin_succ ps' hps' fun p hp => ?_
      obtain ⟨q, hq, hleft, hright⟩ := hechoes p hp
      exact ih hleft hright (hall q hq)

/-- A subtype of a type is a subtype of every equal type. -/
theorem isSubtype_of_beq (hK : K.Orderly statics) (ha : K.Regular a) (hb : K.Regular b)
    (hb' : K.Regular b') (he : (b == b') = true) (h : K.isSubtype a b = true) :
    K.isSubtype a b' = true := by
  have hdepth : K.subtypeDepth a b' = K.subtypeDepth a b := by
    rw [subtypeDepth, subtypeDepth, size_of_beq he]
  unfold isSubtype at h ⊢
  rw [hdepth]
  cases hw : K.subtypeWithin (K.subtypeDepth a b) a b with
  | none =>
    rw [hw] at h
    cases h
  | some r =>
    rw [hw, Option.getD_some] at h
    subst h
    rw [subtypeWithin_of_twins hK (Twins.refl ha) ⟨hb, hb', Agree.of_beq he⟩ hw]
    rfl

end Catalog
end Wiring
