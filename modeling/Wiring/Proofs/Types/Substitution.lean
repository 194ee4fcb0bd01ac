import Wiring.Catalog
import Wiring.Proofs.Types.Agreement

namespace Wiring

namespace Ty

/-- A property of every node of a type: of itself and of all that stands in it. -/
inductive Everywhere (P : Ty → Prop) : Ty → Prop
  | node {t : Ty} (here : P t) (arguments : ∀ a ∈ t.arguments, Everywhere P a)
      (tags : ∀ s ∈ t.tags, Everywhere P s) : Everywhere P t

namespace Everywhere

variable {P Q : Ty → Prop} {t : Ty}

theorem here (h : Everywhere P t) : P t := by
  cases h
  assumption

theorem arguments (h : Everywhere P t) : ∀ a ∈ t.arguments, Everywhere P a := by
  cases h
  assumption

theorem tags (h : Everywhere P t) : ∀ s ∈ t.tags, Everywhere P s := by
  cases h
  assumption

theorem imp (hPQ : ∀ t, P t → Q t) (h : Everywhere P t) : Everywhere Q t := by
  induction h with
  | node here _ _ arguments tags => exact node (hPQ _ here) arguments tags

theorem and (hP : Everywhere P t) (hQ : Everywhere Q t) : Everywhere (fun t => P t ∧ Q t) t := by
  induction hP with
  | node here _ _ arguments tags =>
    refine node ⟨here, hQ.here⟩ ?_ ?_
    · exact fun a ha => arguments a ha (hQ.arguments a ha)
    · exact fun s hs => tags s hs (hQ.tags s hs)

end Everywhere

def bare (t : Ty) : Ty :=
  { head := t.head, arguments := t.arguments }

inductive Dressed (nullable : Bool) (tags : List Ty) (u t : Ty) : Prop
  -- `t` is `u` at a place with the given nullability and tags.
  | star (left : u.isStar = true) (right : t.isStar = true)
  | node (left : u.isStar = false) (right : t.isStar = false) (key : t.key = u.key)
      (nullability : t.nullable = (nullable || u.nullable))
      (arguments : List.Forall₂ Alike t.arguments u.arguments)
      (tagging : ∀ c, Option.Rel Alike (t.tag? c) ((lookupTag tags c).or (u.tag? c)))

theorem forall₂_alike_refl (ts : List Ty) : List.Forall₂ Alike ts ts :=
  List.forall₂_same.2 fun _ _ => Agree.refl _

theorem forall₂_alike_symm {as bs : List Ty} (h : List.Forall₂ Alike as bs) :
    List.Forall₂ Alike bs as :=
  (h.imp fun _ _ hab => Agree.symm hab).flip

theorem forall₂_alike_trans {lax : Prop} {as bs cs : List Ty} (hab : List.Forall₂ Alike as bs)
    (hbc : List.Forall₂ (Agree lax) bs cs) : List.Forall₂ (Agree lax) as cs :=
  forall₂_trans_of (R := Alike) (S := Agree lax) (fun _ _ _ h h' => Alike.trans h h') hab hbc

theorem optionRel_agree_refl {lax : Prop} (t : Option Ty) : Option.Rel (Agree lax) t t := by
  cases t with
  | none => exact Option.Rel.none
  | some t => exact Option.Rel.some (Agree.refl t)

theorem optionRel_or {R : Ty → Ty → Prop} {x x' y y' : Option Ty} (hx : Option.Rel R x x')
    (hy : Option.Rel R y y') : Option.Rel R (x.or y) (x'.or y') := by
  cases hx with
  | none => exact hy
  | some h => exact Option.Rel.some h

theorem optionRel_alike_trans {lax : Prop} {x y z : Option Ty} (hxy : Option.Rel Alike x y)
    (hyz : Option.Rel (Agree lax) y z) : Option.Rel (Agree lax) x z :=
  optionRel_trans_of (R := Alike) (S := Agree lax) (fun _ _ _ h h' => Alike.trans h h') hxy hyz

theorem optionRel_trans_alike {lax : Prop} {x y z : Option Ty}
    (hxy : Option.Rel (Agree lax) x y) (hyz : Option.Rel Alike y z) :
    Option.Rel (Agree lax) x z :=
  optionRel_trans_of (R := Agree lax) (S := Alike) (fun _ _ _ h h' => Agree.trans_alike h h')
    hxy hyz

theorem optionRel_alike_symm {x y : Option Ty} (h : Option.Rel Alike x y) :
    Option.Rel Alike y x :=
  optionRel_imp (fun _ _ h => Agree.symm h) (optionRel_symm h)

theorem forall₂_trans_alike {lax : Prop} {as bs cs : List Ty}
    (hab : List.Forall₂ (Agree lax) as bs) (hbc : List.Forall₂ Alike bs cs) :
    List.Forall₂ (Agree lax) as cs :=
  forall₂_trans_of (R := Agree lax) (S := Alike) (fun _ _ _ h h' => Agree.trans_alike h h') hab hbc

theorem forall₂_imp_of_mem {α β : Type} {R S : α → β → Prop} {as : List α} {bs : List β}
    (h : List.Forall₂ R as bs)
    (hRS : ∀ a ∈ as, ∀ b ∈ bs, R a b → S a b) : List.Forall₂ S as bs := by
  induction h with
  | nil => exact List.Forall₂.nil
  | @cons a b as bs hr _ ih =>
    refine List.Forall₂.cons (hRS a (List.mem_cons_self ..) b (List.mem_cons_self ..) hr) ?_
    exact ih fun x hx y hy => hRS x (List.mem_cons_of_mem a hx) y (List.mem_cons_of_mem b hy)

theorem exists_mem_of_forall₂ {α β : Type} {R : α → β → Prop} {as : List α} {bs : List β} {a : α}
    (h : List.Forall₂ R as bs) (ha : a ∈ as) : ∃ b ∈ bs, R a b := by
  induction h with
  | nil => simp at ha
  | @cons x y as bs hxy _ ih =>
    rcases List.mem_cons.1 ha with rfl | ha
    · exact ⟨y, List.mem_cons_self .., hxy⟩
    · obtain ⟨b, hb, hab⟩ := ih ha
      exact ⟨b, List.mem_cons_of_mem y hb, hab⟩

/-- Two images of one list are related where the images of each of its members are. -/
theorem forall₂_map_same {α β γ : Type} {R : β → γ → Prop} {f : α → β} {g : α → γ} {xs : List α}
    (h : ∀ x ∈ xs, R (f x) (g x)) : List.Forall₂ R (xs.map f) (xs.map g) := by
  rw [List.forall₂_map_left_iff, List.forall₂_map_right_iff]
  exact List.forall₂_same.2 h

theorem optionRel_map {R S : Ty → Ty → Prop} {f g : Ty → Ty} {x y : Option Ty}
    (h : Option.Rel R x y)
    (hRS : ∀ a b, x = some a → y = some b → R a b → S (f a) (g b)) :
    Option.Rel S (x.map f) (y.map g) := by
  cases h with
  | none => exact Option.Rel.none
  | some h => exact Option.Rel.some (hRS _ _ rfl rfl h)

theorem optionRel_imp_of_mem {R S : Ty → Ty → Prop} {x y : Option Ty} (h : Option.Rel R x y)
    (hRS : ∀ a b, x = some a → y = some b → R a b → S a b) : Option.Rel S x y := by
  cases h with
  | none => exact Option.Rel.none
  | some h => exact Option.Rel.some (hRS _ _ rfl rfl h)

theorem exists_of_rel_some {R : Ty → Ty → Prop} {a : Ty} {y : Option Ty}
    (h : Option.Rel R (some a) y) : ∃ b, y = some b ∧ R a b := by
  cases h with
  | some h => exact ⟨_, rfl, h⟩

theorem eq_none_of_rel {R : Ty → Ty → Prop} {x : Option Ty} (h : Option.Rel R x none) :
    x = none := by
  cases h
  rfl

theorem all_beq_comm {as bs : List Ty} (h : (as == bs) = true) : (bs == as) = true :=
  all_beq_symm (fun _ _ _ hab => BEq.symm hab) h

namespace Dressed

variable {lax : Prop} {n n' : Bool} {ts ts' : List Ty} {u u' t t' : Ty}

/-- Types that agree, at places that agree, give types that agree. -/
theorem agree (h : Dressed n ts u t) (h' : Dressed n' ts' u' t') (hn : n = n')
    (hts : ∀ c, Option.Rel (Agree lax) (lookupTag ts c) (lookupTag ts' c))
    (hu : Agree lax u u') : Agree lax t t' := by
  have hs : t.isStar = u.isStar := by
    cases h with
    | star left right => rw [left, right]
    | node left right => rw [left, right]
  have hs' : t'.isStar = u'.isStar := by
    cases h' with
    | star left right => rw [left, right]
    | node left right => rw [left, right]
  cases hu with
  | star hu =>
    rw [← hs, ← hs'] at hu
    exact Agree.star hu
  | node left right key nullable arguments tags =>
    -- a type that is no star gives no star, so both results have parts to compare
    cases h with
    | star h => simp [left] at h
    | node _ ht htk htn hta htt =>
      cases h' with
      | star h' => simp [right] at h'
      | node _ ht' htk' htn' hta' htt' =>
        refine Agree.node ht ht' ?_ ?_ ?_ fun c => ?_
        · rw [htk, htk', key]
        · rw [htn, htn', hn, nullable]
        · have hr := forall₂_trans_alike arguments (forall₂_alike_symm hta')
          exact forall₂_alike_trans hta hr
        · have hm := optionRel_or (hts c) (tags c)
          exact optionRel_alike_trans (htt c)
            (optionRel_trans_alike hm (optionRel_alike_symm (htt' c)))

theorem of_alike (h : Dressed n ts u t) (hu : Alike u u') : Dressed n ts u' t := by
  cases h with
  | star left right => exact star (hu.isStar_eq ▸ left) right
  | node _ right key nullable arguments tags =>
    cases hu with
    | star h => simp_all
    | node _ right' key' nullable' arguments' tags' =>
      refine node right' right (key.trans key') (by rw [nullable, nullable'])
        (forall₂_alike_trans arguments arguments') fun c => ?_
      exact optionRel_alike_trans (tags c) (optionRel_or (optionRel_agree_refl _) (tags' c))

end Dressed

end Ty

open Ty

/-! ### One substitution -/

theorem Substitution.get_congr (m : Substitution) {c d : Classifier} (h : c.key = d.key) :
    m.get? c = m.get? d := by
  simp only [get?]
  induction m.bindings with
  | nil => rfl
  | cons b rest ih =>
    simp only [lookup_bindings, BEq.congr_left (c := b.1) (Classifier.beq_iff_key_eq.2 h), ih]

theorem Substitution.get_of_isEmpty {m : Substitution} (h : m.isEmpty = true) (c : Classifier) :
    m.get? c = none := by
  simp only [isEmpty, List.isEmpty_iff] at h
  simp [get?, h]

/-- No tag of `t` has a classifier that is bound. -/
def Substitution.Spares (m : Substitution) (t : Ty) : Prop :=
  ∀ s ∈ t.tags, m.get? s.classifier = none

namespace Ty

variable {m : Substitution} {t : Ty} {c : Classifier} {as ts : List Ty} {n : Bool} {k : Option Nat}

theorem substitute_of_isStar (h : t.isStar = true) : t.substitute m = t := by
  obtain ⟨head, as, n, ts, k⟩ := t
  cases head with
  | star => simp [substitute]
  | named c => simp [isStar] at h

theorem substitute_of_isEmpty (h : m.isEmpty = true) (t : Ty) : t.substitute m = t := by
  obtain ⟨head, as, n, ts, k⟩ := t
  cases head <;> simp [substitute, h]

/-- In the place of a bound classifier stands its value, with what the place adds to it. -/
theorem substitute_bound {v : Ty} (h : m.get? c = some v) :
    (⟨.named c, as, n, ts, k⟩ : Ty).substitute m =
      { head := v.head, arguments := v.arguments, nullable := n || v.nullable,
        tags := canonicalTags (ts.map (substitute m) ++ v.tags),
        instanceKey := k.or v.instanceKey } := by
  have hm : m.isEmpty = false := by
    apply Bool.eq_false_iff.2
    intro he
    rw [Substitution.get_of_isEmpty he] at h
    cases h
  simp only [substitute, hm, h, substitute_all_eq_map]
  rfl

/-- A classifier that is not bound stays. What stands in the type is substituted, unless that leaves
all of it as it is. -/
theorem substitute_unbound (h : m.get? c = none) :
    ((⟨.named c, as, n, ts, k⟩ : Ty).substitute m = ⟨.named c, as, n, ts, k⟩ ∧
      (as == as.map (substitute m)) = true ∧ (ts == ts.map (substitute m)) = true) ∨
    (⟨.named c, as, n, ts, k⟩ : Ty).substitute m =
      ⟨.named c, as.map (substitute m), n, canonicalTags (ts.map (substitute m)), k⟩ := by
  by_cases hm : m.isEmpty = true
  · have hid : substitute m = id := funext (substitute_of_isEmpty hm)
    left
    simp [hid]
  · have hm' : m.isEmpty = false := Bool.eq_false_iff.2 hm
    by_cases hsame : (as.map (substitute m) == as && ts.map (substitute m) == ts) = true
    · left
      obtain ⟨has, hts⟩ := Bool.and_eq_true_iff.1 hsame
      refine ⟨?_, all_beq_comm has, all_beq_comm hts⟩
      simp [substitute, hm', h, substitute_all_eq_map, has, hts]
    · right
      simp [substitute, hm', h, substitute_all_eq_map, withTags, hsame]

/-- What `substitute_unbound` says of the parts of the result. -/
theorem parts_of_unbound (hs : t.isStar = false) (h : m.get? t.classifier = none) :
    (t.substitute m).isStar = false ∧ (t.substitute m).key = t.key ∧
      (t.substitute m).nullable = t.nullable ∧
      List.Forall₂ Alike (t.substitute m).arguments (t.arguments.map (substitute m)) ∧
      ∀ d, Option.Rel Alike ((t.substitute m).tag? d) (lookupTag (t.tags.map (substitute m)) d) := by
  obtain ⟨head, as, n, ts, k⟩ := t
  cases head with
  | star => simp [isStar] at hs
  | named c =>
    change m.get? c = none at h
    rcases substitute_unbound h with ⟨he, has, hts⟩ | he
    · rw [he]
      refine ⟨rfl, rfl, rfl, (forall₂_of_beq has).imp fun _ _ h => Agree.of_beq h, fun d => ?_⟩
      exact lookupTag_rel ((forall₂_of_beq hts).imp fun _ _ h => ⟨key_of_beq h, Agree.of_beq h⟩) d
    · rw [he]
      refine ⟨rfl, rfl, rfl, forall₂_alike_refl _, fun d => ?_⟩
      rw [tag_eq_lookupTag, lookupTag_canonicalTags]
      exact optionRel_agree_refl _

/-- The result of a substitution is that for the bare type, at the place of the type. -/
theorem dressed_substitute (hs : t.isStar = false) :
    Dressed t.nullable (t.tags.map (substitute m)) (t.bare.substitute m) (t.substitute m) := by
  cases hc : m.get? t.classifier with
  | some v =>
    obtain ⟨head, as, n, ts, k⟩ := t
    cases head with
    | star => simp [isStar] at hs
    | named c =>
      change m.get? c = some v at hc
      simp only [bare, substitute_bound hc]
      cases hv : v.isStar with
      | true => exact Dressed.star hv hv
      | false =>
        refine Dressed.node hv hv rfl (by simp) (forall₂_alike_refl _) fun d => ?_
        simp only [tag_eq_lookupTag, lookupTag_canonicalTags, lookupTag_append, List.map_nil,
          lookupTag_nil, Option.none_or]
        exact optionRel_agree_refl _
  | none =>
    obtain ⟨hs₁, hk₁, hn₁, ha₁, ht₁⟩ := parts_of_unbound hs hc
    obtain ⟨hs₂, hk₂, hn₂, ha₂, ht₂⟩ := parts_of_unbound (t := t.bare) hs hc
    refine Dressed.node hs₂ hs₁ (hk₁.trans hk₂.symm) (by rw [hn₁, hn₂]; simp [bare]) ?_ fun d => ?_
    · exact forall₂_alike_trans ha₁ (forall₂_alike_symm ha₂)
    · rw [eq_none_of_rel (ht₂ d), Option.or_none]
      exact ht₁ d

theorem bare_substitute_bound {v : Ty} (hs : t.isStar = false) (h : m.get? t.classifier = some v) :
    Alike (t.bare.substitute m) v := by
  obtain ⟨head, as, n, ts, k⟩ := t
  cases head with
  | star => simp [isStar] at hs
  | named c =>
    change m.get? c = some v at h
    rw [bare, substitute_bound h]
    cases hv : v.isStar with
    | true => exact Agree.of_stars hv hv
    | false =>
      refine Agree.node hv hv rfl (by simp) (forall₂_alike_refl _) fun d => ?_
      rw [tag_eq_lookupTag, lookupTag_canonicalTags]
      exact optionRel_agree_refl _

theorem isStar_substitute_of_isStar (h : t.isStar = true) : (t.substitute m).isStar = true := by
  rw [substitute_of_isStar h]
  exact h

theorem key_substitute (h : m.get? t.classifier = none) : (t.substitute m).key = t.key := by
  cases hs : t.isStar with
  | true => rw [substitute_of_isStar hs]
  | false => exact (parts_of_unbound hs h).2.1

/-- Where no star takes the place of a parameter none comes about. -/
theorem isStar_substitute (hs : t.isStar = false)
    (hm : ∀ c v, m.get? c = some v → v.isStar = false) : (t.substitute m).isStar = false := by
  obtain ⟨head, as, n, ts, k⟩ := t
  cases head with
  | star => cases hs
  | named c =>
    cases hc : m.get? c with
    | none => exact (parts_of_unbound hs hc).1
    | some v =>
      rw [substitute_bound hc]
      exact hm c v hc

/-! ### Types that spare their tags -/

theorem lookupTag_substitute (h : m.Spares t) (c : Classifier) :
    lookupTag (t.tags.map (substitute m)) c = (t.tag? c).map (substitute m) :=
  lookupTag_map (fun s hs => key_substitute (h s hs)) c

theorem classifiers_eq (hs : t.isStar = false) :
    t.classifiers = t.classifier :: (t.arguments.flatMap classifiers ++ t.tags.flatMap classifiers)
    := by
  obtain ⟨head, as, n, ts, k⟩ := t
  cases head with
  | star => simp [isStar] at hs
  | named c =>
    simp only [classifiers, all_classifiers_eq_flat_map]
    rfl

theorem classifier_mem (hs : t.isStar = false) : t.classifier ∈ t.classifiers := by
  rw [classifiers_eq hs]
  exact List.mem_cons_self ..

theorem mem_classifiers_of_argument {a : Ty} (hs : t.isStar = false) (ha : a ∈ t.arguments)
    (hc : c ∈ a.classifiers) : c ∈ t.classifiers := by
  rw [classifiers_eq hs]
  apply List.mem_cons_of_mem
  exact List.mem_append_left _ (List.mem_flatMap.2 ⟨a, ha, hc⟩)

theorem mem_classifiers_of_tag {s : Ty} (hs : t.isStar = false) (ht : s ∈ t.tags)
    (hc : c ∈ s.classifiers) : c ∈ t.classifiers := by
  rw [classifiers_eq hs]
  apply List.mem_cons_of_mem
  exact List.mem_append_right _ (List.mem_flatMap.2 ⟨s, ht, hc⟩)

/-- Where the arguments of a result come from. -/
theorem mem_arguments_substitute {a : Ty} (h : a ∈ (t.substitute m).arguments) :
    (∃ c v, m.get? c = some v ∧ a ∈ v.arguments) ∨ a ∈ t.arguments ∨
      a ∈ t.arguments.map (substitute m) := by
  obtain ⟨head, as, n, ts, k⟩ := t
  cases head with
  | star => exact Or.inr (Or.inl h)
  | named c =>
    cases hc : m.get? c with
    | some v =>
      rw [substitute_bound hc] at h
      exact Or.inl ⟨c, v, hc, h⟩
    | none =>
      rcases substitute_unbound hc with ⟨he, -⟩ | he
      · rw [he] at h
        exact Or.inr (Or.inl h)
      · rw [he] at h
        exact Or.inr (Or.inr h)

/-- Where the tags of a result come from. -/
theorem mem_tags_substitute {s : Ty} (h : s ∈ (t.substitute m).tags) :
    (∃ v, m.get? t.classifier = some v ∧ s ∈ v.tags) ∨ s ∈ t.tags ∨
      s ∈ t.tags.map (substitute m) := by
  obtain ⟨head, as, n, ts, k⟩ := t
  cases head with
  | star => exact Or.inr (Or.inl h)
  | named c =>
    cases hc : m.get? c with
    | some v =>
      rw [substitute_bound hc] at h
      rcases List.mem_append.1 (mem_of_mem_canonicalTags h) with h | h
      · exact Or.inr (Or.inr h)
      · exact Or.inl ⟨v, hc, h⟩
    | none =>
      rcases substitute_unbound hc with ⟨he, -⟩ | he
      · rw [he] at h
        exact Or.inr (Or.inl h)
      · rw [he] at h
        exact Or.inr (Or.inr (mem_of_mem_canonicalTags h))

/-- What holds of the nodes of all values holds of those of a result, if it holds of the nodes of
the type and of what becomes of each of them. -/
theorem Everywhere.substitute {P Q : Ty → Prop} (ht : Everywhere Q t) (hQ : ∀ t, Q t → P t)
    (hv : ∀ c v, m.get? c = some v → Everywhere P v) (step : ∀ t, Q t → P (t.substitute m)) :
    Everywhere P (t.substitute m) := by
  induction ht with
  | @node t here arguments tags iha iht =>
    refine Everywhere.node (step t here) ?_ ?_
    · intro a ha
      rcases mem_arguments_substitute ha with ⟨c, v, hc, ha⟩ | ha | ha
      · exact (hv c v hc).arguments a ha
      · exact (arguments a ha).imp hQ
      · obtain ⟨b, hb, rfl⟩ := List.mem_map.1 ha
        exact iha b hb
    · intro s hs
      rcases mem_tags_substitute hs with ⟨v, hc, hs⟩ | hs | hs
      · exact (hv t.classifier v hc).tags s hs
      · exact (tags s hs).imp hQ
      · obtain ⟨u, hu, rfl⟩ := List.mem_map.1 hs
        exact iht u hu

/-- A result spares its tags from a further substitution if the type and all values do. -/
theorem spares_substitute {b : Substitution} (ht : m.Spares t) (hb : b.Spares t)
    (hv : ∀ c v, m.get? c = some v → b.Spares v) : b.Spares (t.substitute m) := by
  intro s hs
  rcases mem_tags_substitute hs with ⟨v, hc, hs⟩ | hs | hs
  · exact hv _ v hc s hs
  · exact hb s hs
  · obtain ⟨u, hu, rfl⟩ := List.mem_map.1 hs
    rw [b.get_congr (key_substitute (ht u hu))]
    exact hb u hu

theorem everywhere_spares_substitute {b : Substitution} (ht : Everywhere m.Spares t)
    (hb : Everywhere b.Spares t) (hv : ∀ c v, m.get? c = some v → Everywhere b.Spares v) :
    Everywhere b.Spares (t.substitute m) := by
  apply (ht.and hb).substitute (fun _ h => h.2) hv
  rintro t ⟨ht, hb⟩
  exact spares_substitute ht hb fun c v hc => (hv c v hc).here

/-! ### Agreement under substitution -/

theorem agree_bare_substitute {lax : Prop} {m' : Substitution} {t t' : Ty}
    (hs : t.isStar = false) (hs' : t'.isStar = false) (hk : t.key = t'.key)
    (hm : Option.Rel (Agree lax) (m.get? t.classifier) (m'.get? t.classifier))
    (ha : List.Forall₂ (Agree lax) (t.arguments.map (substitute m))
      (t'.arguments.map (substitute m'))) :
    Agree lax (t.bare.substitute m) (t'.bare.substitute m') := by
  rw [show m'.get? t.classifier = m'.get? t'.classifier from m'.get_congr hk] at hm
  -- bound on both sides or on none, as the values are related
  cases hv : m.get? t.classifier with
  | some v =>
    obtain ⟨v', hv', hvv⟩ := exists_of_rel_some (hv ▸ hm)
    have hl := bare_substitute_bound hs hv
    have hr := bare_substitute_bound hs' hv'
    exact Agree.trans_alike (Alike.trans hl hvv) hr.symm
  | none =>
    have hv' : m'.get? t'.classifier = none := eq_none_of_rel (optionRel_symm (hv ▸ hm))
    obtain ⟨hs₁, hk₁, hn₁, ha₁, ht₁⟩ := parts_of_unbound (t := t.bare) hs hv
    obtain ⟨hs₂, hk₂, hn₂, ha₂, ht₂⟩ := parts_of_unbound (t := t'.bare) hs' hv'
    refine Agree.node hs₁ hs₂ ?_ ?_ ?_ fun c => ?_
    · rw [hk₁, hk₂]
      exact hk
    · rw [hn₁, hn₂]
      rfl
    · exact forall₂_alike_trans ha₁ (forall₂_trans_alike ha (forall₂_alike_symm ha₂))
    · rw [eq_none_of_rel (ht₁ c), eq_none_of_rel (ht₂ c)]
      exact Option.Rel.none

/-- Substitutions that agree on what a type mentions take types that agree to types that agree. -/
theorem agree_substitute {lax : Prop} {m' : Substitution} {t t' : Ty} (h : Agree lax t t')
    (ht : Everywhere m.Spares t) (ht' : Everywhere m'.Spares t')
    (hm : ∀ c ∈ t.classifiers, Option.Rel (Agree lax) (m.get? c) (m'.get? c)) :
    Agree lax (t.substitute m) (t'.substitute m') := by
  induction h using Agree.induct with
  | star a b h =>
    apply Agree.star
    exact h.imp (And.imp isStar_substitute_of_isStar isStar_substitute_of_isStar)
      (And.imp_right (Or.imp isStar_substitute_of_isStar isStar_substitute_of_isStar))
  | node a b left right key nullable _ _ arguments tags =>
    have hargs : List.Forall₂ (Agree lax) (a.arguments.map (substitute m))
        (b.arguments.map (substitute m')) := by
      rw [List.forall₂_map_left_iff, List.forall₂_map_right_iff]
      refine forall₂_imp_of_mem arguments ?_
      rintro x hx y hy ⟨_, ih⟩
      apply ih (ht.arguments x hx) (ht'.arguments y hy)
      exact fun c hc => hm c (mem_classifiers_of_argument left hx hc)
    -- tags are found by their classifiers, which neither substitution replaces
    have htags : ∀ c, Option.Rel (Agree lax) (lookupTag (a.tags.map (substitute m)) c)
        (lookupTag (b.tags.map (substitute m')) c) := by
      intro c
      rw [lookupTag_substitute ht.here, lookupTag_substitute ht'.here]
      refine optionRel_map (tags c) ?_
      rintro x y hx hy ⟨_, ih⟩
      have hxa : x ∈ a.tags := mem_of_lookupTag hx
      apply ih (ht.tags x hxa) (ht'.tags y (mem_of_lookupTag hy))
      exact fun d hd => hm d (mem_classifiers_of_tag left hxa hd)
    have hbare := agree_bare_substitute left right key (hm _ (classifier_mem left)) hargs
    exact Dressed.agree (dressed_substitute left) (dressed_substitute right) nullable htags hbare

theorem forall₂_map_substitute {b : Substitution} {us vs : List Ty} (h : List.Forall₂ Alike us vs)
    (hu : ∀ u ∈ us, Everywhere b.Spares u) (hv : ∀ v ∈ vs, Everywhere b.Spares v) :
    List.Forall₂ Alike (us.map (substitute b)) (vs.map (substitute b)) := by
  rw [List.forall₂_map_left_iff, List.forall₂_map_right_iff]
  refine forall₂_imp_of_mem h fun x hx y hy hxy => ?_
  exact agree_substitute hxy (hu x hx) (hv y hy) fun c _ => optionRel_agree_refl _

/-- A type at a place, substituted, is the substituted type at the substituted place. -/
theorem Dressed.substitute {b : Substitution} {u : Ty} (h : Dressed n ts u t)
    (ht : Everywhere b.Spares t) (hu : Everywhere b.Spares u)
    (hts : ∀ s ∈ ts, b.get? s.classifier = none ∧ Everywhere b.Spares s) :
    Dressed n (ts.map (substitute b)) (u.substitute b) (t.substitute b) := by
  cases h with
  | star left right => exact star (isStar_substitute_of_isStar left) (isStar_substitute_of_isStar right)
  | node left right key nullable arguments tags =>
    have hbare : Alike (t.bare.substitute b) (u.bare.substitute b) := by
      apply agree_bare_substitute right left key (optionRel_agree_refl _)
      exact forall₂_map_substitute arguments ht.arguments hu.arguments
    have hT := (dressed_substitute (m := b) right).of_alike hbare
    have hU := dressed_substitute (m := b) left
    cases hU with
    | star left' right' =>
      cases hT with
      | star _ right => exact star right' right
      | node left => simp [left'] at left
    | node left' right' key' nullable' arguments' tags' =>
      cases hT with
      | star left => simp [left'] at left
      | node _ right'' key'' nullable'' arguments'' tags'' =>
        refine node right' right'' (key''.trans key'.symm) ?_ ?_ fun c => ?_
        · rw [nullable'', nullable', nullable, Bool.or_assoc]
        · exact forall₂_alike_trans arguments'' (forall₂_alike_symm arguments')
        · -- a tag of the place or, if it has none for `c`, a tag of `u`
          have htag : Option.Rel Alike (lookupTag (t.tags.map (Ty.substitute b)) c)
              ((lookupTag (ts.map (Ty.substitute b)) c).or
                (lookupTag (u.tags.map (Ty.substitute b)) c)) := by
            rw [lookupTag_substitute ht.here, lookupTag_substitute hu.here,
              lookupTag_map fun s hs => key_substitute (hts s hs).1, ← Option.map_or]
            refine optionRel_map (tags c) fun x y hx hy hxy => ?_
            have hy' : Everywhere b.Spares y := by
              rcases Option.or_eq_some_iff.1 hy with hy | ⟨_, hy⟩
              · exact (hts y (mem_of_lookupTag hy)).2
              · exact hu.tags y (mem_of_lookupTag hy)
            exact agree_substitute hxy (ht.tags x (mem_of_lookupTag hx)) hy' fun c _ =>
              optionRel_agree_refl _
          have hl := optionRel_alike_trans (tags'' c)
            (optionRel_or htag (optionRel_agree_refl ((u.bare.substitute b).tag? c)))
          rw [Option.or_assoc] at hl
          exact optionRel_alike_trans hl
            (optionRel_or (optionRel_agree_refl _) (optionRel_alike_symm (tags' c)))

/-! ### Two substitutions in a row -/

section Compose

variable {b : Substitution}

theorem spares_compose (hm : m.Spares t) (hb : b.Spares t) :
    (m.compose b).Spares t := by
  intro s hs
  rw [Substitution.get_compose, hm s hs, hb s hs]
  rfl

/-- The second substitution finds the tags that the first one leaves in their places. -/
theorem spared_tags (ht : Everywhere m.Spares t) (hb : Everywhere b.Spares t)
    (hv : ∀ c v, m.get? c = some v → Everywhere b.Spares v) :
    ∀ s ∈ t.tags.map (substitute m), b.get? s.classifier = none ∧ Everywhere b.Spares s := by
  intro s hs
  obtain ⟨u, hu, rfl⟩ := List.mem_map.1 hs
  rw [b.get_congr (key_substitute (ht.here u hu))]
  exact ⟨hb.here u hu, everywhere_spares_substitute (ht.tags u hu) (hb.tags u hu) hv⟩

/-- Looking up a tag after both substitutions is substituting the tag that is looked up. -/
theorem lookupTag_substitute_twice
    (hs : ∀ s ∈ t.tags.map (substitute m), b.get? s.classifier = none ∧ Everywhere b.Spares s)
    (c : Classifier) : lookupTag ((t.tags.map (substitute m)).map (substitute b)) c =
      (lookupTag (t.tags.map (substitute m)) c).map (substitute b) :=
  lookupTag_map (fun s hmem => key_substitute (hs s hmem).1) c

/-- Where the classifier is bound, its value is what the second substitution is applied to. -/
theorem alike_compose_of_bound {v : Ty} (hs : t.isStar = false) (hc : m.get? t.classifier = some v)
    (ht : Everywhere m.Spares t) (hb : Everywhere b.Spares t)
    (hv : ∀ c v, m.get? c = some v → Everywhere b.Spares v)
    (htags : ∀ c, Option.Rel Alike
      (lookupTag ((t.tags.map (substitute m)).map (substitute b)) c)
      (lookupTag (t.tags.map (substitute (m.compose b))) c)) :
    Alike ((t.substitute m).substitute b) (t.substitute (m.compose b)) := by
  have hvb : (m.compose b).get? t.classifier = some (v.substitute b) := by
    rw [Substitution.get_compose, hc]
    rfl
  have hvalue : Dressed t.nullable (t.tags.map (substitute m)) v (t.substitute m) :=
    (dressed_substitute hs).of_alike (bare_substitute_bound hs hc)
  have hl := hvalue.substitute (everywhere_spares_substitute ht hb hv) (hv _ v hc)
    (spared_tags ht hb hv)
  have hr := (dressed_substitute (m := m.compose b) hs).of_alike (bare_substitute_bound hs hvb)
  exact hl.agree hr rfl htags (Agree.refl _)

/-- Where the classifier is not bound, it is what the second substitution is applied to. -/
theorem alike_compose_of_unbound (hs : t.isStar = false) (hc : m.get? t.classifier = none)
    (ht : Everywhere m.Spares t) (hb : Everywhere b.Spares t)
    (hv : ∀ c v, m.get? c = some v → Everywhere b.Spares v)
    (htags : ∀ c, Option.Rel Alike
      (lookupTag ((t.tags.map (substitute m)).map (substitute b)) c)
      (lookupTag (t.tags.map (substitute (m.compose b))) c))
    (hargs : List.Forall₂ Alike ((t.arguments.map (substitute m)).map (substitute b))
      (t.arguments.map (substitute (m.compose b)))) :
    Alike ((t.substitute m).substitute b) (t.substitute (m.compose b)) := by
  have hspares := everywhere_spares_substitute ht hb hv
  have hplaced := spared_tags ht hb hv
  obtain ⟨hs', hk', hn', ha', ht'⟩ := parts_of_unbound hs hc
  -- the classifier stays after `m`, and its tags and bare type are then those of the composition
  refine (dressed_substitute hs').agree (dressed_substitute hs) hn' (fun c => ?_) ?_
  · refine optionRel_alike_trans ?_ (htags c)
    rw [lookupTag_substitute hspares.here, lookupTag_substitute_twice hplaced]
    refine optionRel_map (ht' c) fun x y hx hy hxy => ?_
    exact agree_substitute hxy (hspares.tags x (mem_of_lookupTag hx))
      (hplaced y (mem_of_lookupTag hy)).2 fun c _ => optionRel_agree_refl _
  · apply agree_bare_substitute hs' hs hk'
    · rw [b.get_congr hk', Substitution.get_congr _ hk', Substitution.get_compose, hc]
      exact optionRel_agree_refl _
    · have harg : ∀ a ∈ t.arguments.map (substitute m), Everywhere b.Spares a :=
        List.forall_mem_map.2 fun a ha =>
          everywhere_spares_substitute (ht.arguments a ha) (hb.arguments a ha) hv
      exact forall₂_alike_trans (forall₂_map_substitute ha' hspares.arguments harg) hargs

/-- Two substitutions in a row act as their composition. -/
theorem alike_substitute_compose (ht : Everywhere m.Spares t) (hb : Everywhere b.Spares t)
    (hv : ∀ c v, m.get? c = some v → Everywhere b.Spares v) :
    Alike ((t.substitute m).substitute b) (t.substitute (m.compose b)) := by
  induction ht with
  | @node t here arguments tags iha iht =>
    have ht : Everywhere m.Spares t := Everywhere.node here arguments tags
    cases hs : t.isStar with
    | true =>
      apply Agree.of_stars
      · exact isStar_substitute_of_isStar (isStar_substitute_of_isStar hs)
      · exact isStar_substitute_of_isStar hs
    | false =>
      -- a tag that both leave in its place is substituted as any other type
      have htags : ∀ c, Option.Rel Alike
          (lookupTag ((t.tags.map (substitute m)).map (substitute b)) c)
          (lookupTag (t.tags.map (substitute (m.compose b))) c) := by
        intro c
        rw [lookupTag_substitute (spares_compose here hb.here),
          lookupTag_substitute_twice (spared_tags ht hb hv), lookupTag_substitute here]
        cases hx : t.tag? c with
        | none => exact Option.Rel.none
        | some x =>
          have hxt : x ∈ t.tags := mem_of_lookupTag hx
          exact Option.Rel.some (iht x hxt (hb.tags x hxt))
      have hargs : List.Forall₂ Alike ((t.arguments.map (substitute m)).map (substitute b))
          (t.arguments.map (substitute (m.compose b))) := by
        rw [List.map_map]
        exact forall₂_map_same fun a ha => iha a ha (hb.arguments a ha)
      cases hc : m.get? t.classifier with
      | some v => exact alike_compose_of_bound hs hc ht hb hv htags
      | none => exact alike_compose_of_unbound hs hc ht hb hv htags hargs

end Compose

end Ty
end Wiring
