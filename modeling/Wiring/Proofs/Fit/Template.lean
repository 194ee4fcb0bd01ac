import Wiring.Proofs.Fit.Reflexive
import Wiring.Proofs.Types.Keyless
import Wiring.Proofs.Types.Mentions

/-!
A walk through a type and what a substitution makes of it goes through both in step: where a
variable stands, what its place has added to the value is taken away again, and that leaves the value.
-/
namespace Wiring.Fit

open Ty Catalog UnionFind

variable {K : Catalog} {statics vars : List Classifier} {U : UnionFind} {b b' : U.Table}
  {s : Substitution} {c g r t u x y : Ty} {variance : Variance} {compare : Compare U}
  {v : Classifier} {f : Ty → Ty}

/-! ### Types without variables -/

def Closed (vars : List Classifier) (t : Ty) : Prop :=
  ∀ d ∈ t.classifiers, vars.contains d = false

theorem asVariable_eq_none (h : t.isStar = false → vars.contains t.classifier = false) :
    asVariable? K vars t = none := by
  cases hv : asVariable? K vars t with
  | none => rfl
  | some v =>
    obtain ⟨hs, hk, -, hmem⟩ := asVariable_spec hv
    have hnot := h hs
    rw [← contains_congr (c := v) hk, hmem] at hnot
    cases hnot

theorem Closed.asVariable (h : Closed vars t) : asVariable? K vars t = none :=
  asVariable_eq_none fun hs => h _ (classifier_mem hs)

theorem Closed.variablesIn (h : Closed vars t) : variablesIn K vars t = [] := by
  refine List.eq_nil_iff_forall_not_mem.2 fun w hw => ?_
  obtain ⟨d, hd, -, hfind⟩ := mem_variablesIn.1 hw
  have hwd := List.find?_some hfind
  have hcontains : vars.contains d = true := List.contains_iff_exists_mem_beq.2
    ⟨w, List.mem_of_find?_eq_some hfind, BEq.symm hwd⟩
  rw [h d hd] at hcontains
  cases hcontains

/-- A variable meets a type without variables as its value. -/
theorem bindVariable_closed (h : Closed vars t) : bindVariable K vars compare v t b =
    match U.value? b v with
    | some existing => compare .invariant existing t b
    | none => .ok (U.assign b v t) := by
  have hoccurs : occurs K vars b v t = false := by
    rw [occurs, occursWithin, h.variablesIn]
    rfl
  simp only [bindVariable, h.asVariable, ite_self, hoccurs]
  rfl

/-! ### A type and what a substitution makes of it -/

structure Filling (vars : List Classifier) (u : Ty) : Prop where
  -- What a variable may be replaced by so that it can be told from its place: a type that is no
  -- variable, and that has neither null nor tags, which may as well be those of the place.
  named : u.isStar = false
  nullable : u.nullable = false
  tags : u.tags = []
  distinct : Distinct u
  closed : Closed vars u

theorem Filling.withoutInstanceKey (h : Filling vars u) : Filling vars u.withoutInstanceKey where
  named := h.named
  nullable := h.nullable
  tags := h.tags
  distinct := Everywhere.node h.distinct.here h.distinct.arguments h.distinct.tags
  closed d hd := by
    rw [classifiers_eq (t := u.withoutInstanceKey) h.named] at hd
    exact h.closed d ((classifiers_eq h.named).symm ▸ hd)

def Fills (vars : List Classifier) (s : Substitution) (d : Classifier) : Prop :=
  (vars.contains d = true ∧ ∃ u, s.get? d = some u ∧ Filling vars u) ∨
    (vars.contains d = false ∧ s.get? d = none)

structure Template (K : Catalog) (vars : List Classifier) (s : Substitution) (x : Ty) : Prop where
  -- A type with variables to fill. Tags are no variables, and what has no arguments by its nature
  -- has none: a type parameter and a top type.
  parameter : ∀ v, vars.contains v = true → K.isTypeParameter v = true
  canonical : Canonical x
  proper : x.Everywhere fun t => ∀ tag ∈ t.tags, K.isTypeParameter tag.classifier = false
  leaf : x.Everywhere fun t => t.isStar = false →
    K.isTypeParameter t.classifier = true ∨ (K.flags t.classifier).top = true → t.arguments = []
  fills : ∀ d ∈ x.classifiers, Fills vars s d

/-- What the fillings make of a type has no variables. -/
theorem closed_substitute (h : ∀ d ∈ x.classifiers, Fills vars s d) :
    Closed vars (x.substitute s) := by
  intro d hd
  rcases arises_of_mentions_substitute ⟨d, hd, rfl⟩ with
    ⟨⟨e, he, hk⟩, hnone⟩ | ⟨e, u, ⟨e', he', hk⟩, hu, w, hw, hwk⟩
  · -- a classifier of `x` that is not bound
    rw [← contains_congr hk]
    rcases h e he with ⟨-, u, hu, -⟩ | ⟨hnot, -⟩
    · rw [s.get_congr hk] at hu
      rw [s.get_congr (c := ⟨d.key, 0⟩) (d := d) rfl, hu] at hnone
      cases hnone
    · exact hnot
  · -- a classifier of a filling
    rw [← contains_congr hwk]
    rcases h e' he' with ⟨-, u', hu', hfill⟩ | ⟨-, hnone⟩
    · rw [s.get_congr hk, hu] at hu'
      cases hu'
      exact hfill.closed w hw
    · rw [s.get_congr hk, hu] at hnone
      cases hnone

/-- What comes out equal has no variables to fill. -/
theorem substitute_eq_of_beq (h : ∀ d ∈ x.classifiers, Fills vars s d)
    (he : (x == x.substitute s) = true) : x.substitute s = x := by
  refine substitute_eq_self fun d hd => ?_
  rcases h d hd with ⟨hv, -⟩ | ⟨-, hnone⟩
  · obtain ⟨e, hmem, hk⟩ : Mentions (x.substitute s) d.key := Mentions.of_beq ⟨d, hd, rfl⟩ he
    have hnot := closed_substitute h e hmem
    rw [contains_congr hk, hv] at hnot
    cases hnot
  · exact hnone

namespace Template

theorem argument (h : Template K vars s x) (hs : x.isStar = false) (ht : t ∈ x.arguments) :
    Template K vars s t where
  parameter := h.parameter
  canonical := h.canonical.arguments t ht
  proper := h.proper.arguments t ht
  leaf := h.leaf.arguments t ht
  fills d hd := h.fills d (mem_classifiers_of_argument hs ht hd)

theorem tag (h : Template K vars s x) (hs : x.isStar = false) (ht : t ∈ x.tags) :
    Template K vars s t where
  parameter := h.parameter
  canonical := h.canonical.tags t ht
  proper := h.proper.tags t ht
  leaf := h.leaf.tags t ht
  fills d hd := h.fills d (mem_classifiers_of_tag hs ht hd)

theorem keepsKeys (h : Template K vars s x) (hs : x.isStar = false) :
    KeepsKeys (substitute s) x.tags := by
  refine ⟨fun t ht => ?_, h.canonical.distinct.here⟩
  cases hts : t.isStar with
  | true => rw [substitute_of_isStar hts]
  | false =>
    refine key_substitute ?_
    rcases (h.tag hs ht).fills _ (classifier_mem hts) with ⟨hv, -⟩ | ⟨-, hnone⟩
    · have hproper := h.proper.here t ht
      rw [h.parameter _ hv] at hproper
      cases hproper
    · exact hnone

/-- The tags are in their stored form after the substitution too. -/
theorem canonicalTags_eq (h : Template K vars s x) (hs : x.isStar = false) :
    canonicalTags (x.tags.map (substitute s)) = x.tags.map (substitute s) := by
  refine Keyed.ofList_of_sorted (List.pairwise_map.2 ?_)
  refine List.Pairwise.imp_of_mem (fun {t u} ht hu hlt => ?_) h.canonical.here
  rw [(h.keepsKeys hs).key t ht, (h.keepsKeys hs).key u hu]
  exact hlt

/-- A variable is replaced by its filling, with the null and the tags of the place. -/
theorem substitute_variable (h : Template K vars s x) (hs : x.isStar = false)
    (hu : s.get? x.classifier = some u) (hf : Filling vars u) :
    x.substitute s = { head := u.head, arguments := u.arguments, nullable := x.nullable,
                       tags := x.tags.map (substitute s),
                       instanceKey := x.instanceKey.or u.instanceKey } := by
  have htags := h.canonicalTags_eq hs
  obtain ⟨head, as, n, ts, k⟩ := x
  cases head with
  | star => cases hs
  | named d =>
    rw [substitute_bound (c := d) hu, hf.tags, hf.nullable, List.append_nil, htags, Bool.or_false]

/-- In a type that is no variable all arguments and tags are replaced. -/
theorem substitute_other (h : Template K vars s x) (hs : x.isStar = false)
    (hnone : s.get? x.classifier = none) :
    x.substitute s = { x with arguments := x.arguments.map (substitute s),
                              tags := x.tags.map (substitute s) } := by
  have htags := h.canonicalTags_eq hs
  have hall : ∀ {ts : List Ty}, (∀ t ∈ ts, Template K vars s t) →
      (ts == ts.map (substitute s)) = true → ts.map (substitute s) = ts := by
    intro ts hts he
    have hpairs := forall₂_of_beq he
    rw [List.forall₂_map_right_iff, List.forall₂_same] at hpairs
    calc ts.map (substitute s) = ts.map id :=
          List.map_congr_left fun t ht => substitute_eq_of_beq (hts t ht).fills (hpairs t ht)
      _ = ts := List.map_id _
  have ha := hall (fun t ht => h.argument hs ht)
  have ht := hall (fun t ht => h.tag hs ht)
  obtain ⟨head, as, n, ts, k⟩ := x
  cases head with
  | star => cases hs
  | named d =>
    rcases substitute_unbound (c := d) hnone with ⟨he, has, hts⟩ | he
    · rw [he, ha has, ht hts]
    · rw [he, htags]

end Template

/-! ### What a walk learns -/

structure Records (s : Substitution) (b : U.Table) : Prop where
  -- Each variable that is bound has the value that the substitution gives it, without its instance
  -- key, and no two variables are joined.
  apart : ∀ v, U.representative b v = v
  values : ∀ v t, U.value? b v = some t → ∃ u, s.get? v = some u ∧ t = u.withoutInstanceKey

theorem records_start : Records s U.start where
  apart := U.representative_start
  values _ _ h := absurd h value_start_ne

def Learns (vars : List Classifier) (s : Substitution) (ds : List Classifier) (b : U.Table)
    (x : Result U) : Prop :=
  -- A walk ends with more that is recorded, the variables among `ds` in any case, if it does not
  -- end for going too deep.
  x = .error .tooDeep ∨ ∃ b', x = .ok b' ∧ Records s b' ∧ U.Extends b b' ∧
    ∀ d ∈ ds, vars.contains d = true → (U.value? b' d).isSome = true

variable {ds es : List Classifier} {z : Result U}

theorem Learns.bind {next : U.Table → Result U} (h : Learns vars s ds b z)
    (hnext : ∀ b', Records s b' → Learns vars s es b' (next b')) :
    Learns vars s (ds ++ es) b (z >>= next) := by
  rcases h with rfl | ⟨b₁, rfl, hb₁, hext₁, hds⟩
  · exact Or.inl rfl
  rcases hnext b₁ hb₁ with he | ⟨b₂, he, hb₂, hext₂, hes⟩
  · exact Or.inl he
  refine Or.inr ⟨b₂, he, hb₂, hext₁.trans hext₂, fun d hd hv => ?_⟩
  rcases List.mem_append.1 hd with hd | hd
  · obtain ⟨t, ht⟩ := Option.isSome_iff_exists.1 (hds d hd hv)
    rw [hext₂.value d t ht]
    rfl
  · exact hes d hd hv

theorem Learns.of_subset (h : Learns vars s ds b z)
    (hes : ∀ d ∈ es, vars.contains d = true → d ∈ ds) : Learns vars s es b z := by
  rcases h with h | ⟨b', h, hb', hext, hds⟩
  · exact Or.inl h
  · exact Or.inr ⟨b', h, hb', hext, fun d hd hv => hds d (hes d hd hv) hv⟩

theorem learns_nothing (hb : Records s b) : Learns vars s [] b (.ok b) :=
  Or.inr ⟨b, rfl, hb, Extends.refl b, List.forall_mem_nil _⟩

theorem compareImages_learns {ts : List Ty} (hb : Records s b)
    (h : ∀ t ∈ ts, ∀ b, Records s b → Learns vars s t.classifiers b (compare .invariant t (f t) b)) :
    Learns vars s (ts.flatMap classifiers) b (compareImages compare f ts b) := by
  induction ts generalizing b with
  | nil => exact learns_nothing hb
  | cons t ts ih =>
    rw [compareImages, List.foldlM_cons, List.flatMap_cons]
    refine (h t (List.mem_cons_self ..) b hb).bind fun b' hb' => ?_
    exact ih hb' fun u hu => h u (List.mem_cons_of_mem t hu)

/-- The place of a variable shows the value. If the variable has one, it is the same one. -/
theorem learns_bindVariable (hb : Records s b) (hu : s.get? v = some u) (hf : Filling vars u)
    (hcompare : Passes False b
      (compare .invariant u.withoutInstanceKey u.withoutInstanceKey b)) {d : Classifier}
    (hk : d.key = v.key) :
    Learns vars s [d] b (bindVariable K vars compare v u.withoutInstanceKey b) := by
  rw [bindVariable_closed hf.withoutInstanceKey.closed]
  -- a value recorded before is the one `s` has, so the two are compared with themselves
  cases hv : U.value? b v with
  | some existing =>
    obtain ⟨u', hu', rfl⟩ := hb.values v existing hv
    obtain rfl : u = u' := Option.some.inj (hu.symm.trans hu')
    rcases hcompare with he | ⟨he, -⟩
    · refine Or.inr ⟨b, he, hb, Extends.refl b, List.forall_mem_singleton.2 fun _ => ?_⟩
      rw [value_eq_of_joined (joined_of_key hk), hv]
      rfl
    · exact Or.inl he
  | none =>
    refine Or.inr ⟨_, rfl, ⟨fun w => ?_, fun w t hw => ?_⟩, extends_assign hv,
      List.forall_mem_singleton.2 fun _ => ?_⟩
    · rw [U.representative_assign]
      exact hb.apart w
    · rw [U.value_assign] at hw
      split at hw
      · next hj =>
        rw [hb.apart, hb.apart] at hj
        exact ⟨u, (s.get_congr (Classifier.beq_iff_key_eq.1 hj)).trans hu, (Option.some.inj hw).symm⟩
      · exact hb.values w t hw
    · rw [value_assign_of_joined (joined_of_key hk)]
      rfl

/-- What a variable is bound to, where it meets what it has been replaced by: the tags and the null of
the place are taken away again. -/
theorem Template.bindCandidate_eq (h : Template K vars s x) (hs : x.isStar = false)
    (hu : s.get? x.classifier = some u) (hf : Filling vars u) :
    bindCandidate K vars compare v x (x.substitute s) b =
      compareImages compare (substitute s) x.tags b >>=
        bindVariable K vars compare v u.withoutInstanceKey := by
  have hx := h.substitute_variable hs hu hf
  have htags : (x.substitute s).tags = x.tags.map (substitute s) := by rw [hx]
  have hnull : (x.substitute s).nullable = x.nullable := by rw [hx]
  -- each tag of the image is that of a tag of the template, so all are taken away
  have hnone : (x.substitute s).tags.filter
      (fun tag => !(x.tags.map Ty.classifier).contains tag.classifier) = [] := by
    refine List.filter_eq_nil_iff.2 fun tag htag => ?_
    rw [htags] at htag
    obtain ⟨t, ht, rfl⟩ := List.mem_map.1 htag
    have hmem : (x.tags.map Ty.classifier).contains (t.substitute s).classifier = true :=
      List.contains_iff_exists_mem_beq.2 ⟨t.classifier, List.mem_map_of_mem ht,
        Classifier.beq_iff_key_eq.2 ((h.keepsKeys hs).key t ht)⟩
    rw [hmem]
    decide
  have hbare : ((x.substitute s).withoutTags (x.tags.map Ty.classifier)).withoutInstanceKey =
      u.withoutInstanceKey.withNullability x.nullable := by
    rw [withoutTags, hnone, hx]
    simp only [withoutInstanceKey, withInstanceKey, withNullability, hf.tags]
  have hvalue : (if x.nullable then (u.withoutInstanceKey.withNullability x.nullable).withNullability
        false else u.withoutInstanceKey.withNullability x.nullable) = u.withoutInstanceKey := by
    have hself : u.withoutInstanceKey.withNullability false = u.withoutInstanceKey := by
      simp only [withoutInstanceKey, withInstanceKey, withNullability, hf.nullable]
    cases x.nullable <;> exact hself
  rw [bindCandidate, hnull, Bool.and_not_self, unifyCandidateTags_image (h.keepsKeys hs) htags]
  refine bind_congr fun b => ?_
  dsimp only
  rw [hbare, hvalue]

/-- A variable in the template, which has no arguments: its tags are learned, and then itself. -/
theorem Template.learns_variable (h : Template K vars s x) (hs : x.isStar = false)
    (hv : vars.contains x.classifier = true) (hu : s.get? x.classifier = some u)
    (hf : Filling vars u)
    (htags : Learns vars s (x.tags.flatMap classifiers) b
      (compareImages compare (substitute s) x.tags b))
    (hself : ∀ b, Passes False b
      (compare .invariant u.withoutInstanceKey u.withoutInstanceKey b)) :
    Learns vars s x.classifiers b (step K vars compare variance x (x.substitute s) b) := by
  have hstar : (x.substitute s).isStar = false := by
    rw [h.substitute_variable hs hu hf]
    exact hf.named
  have hparameter := h.parameter _ hv
  obtain ⟨w, hw⟩ : ∃ w, asVariable? K vars x = some w := by
    obtain ⟨w, hw, hk⟩ := List.contains_iff_exists_mem_beq.1 hv
    rw [asVariable?, isTypeParameter_eq_isParameter hs, if_pos hparameter]
    exact Option.isSome_iff_exists.1 (List.find?_isSome.2 ⟨w, hw, BEq.symm hk⟩)
  obtain ⟨-, hk, -, -⟩ := asVariable_spec hw
  -- the image has no variables, so the template is the one that is bound
  have hstep : step K vars compare variance x (x.substitute s) b =
      bindCandidate K vars compare w x (x.substitute s) b := by
    simp only [step, hs, hstar, hw, (closed_substitute h.fills).asVariable, Bool.or_self,
      Bool.false_eq_true, if_false]
  rw [hstep, h.bindCandidate_eq hs hu hf]
  have hvariable : ∀ b, Records s b → Learns vars s [x.classifier] b
      (bindVariable K vars compare w u.withoutInstanceKey b) := fun b hb =>
    learns_bindVariable hb ((s.get_congr hk).trans hu) hf (hself b) hk.symm
  refine (htags.bind hvariable).of_subset fun d hd _ => ?_
  rw [classifiers_eq hs, h.leaf.here hs (Or.inl hparameter)] at hd
  simpa [or_comm] using hd

/-- No variable in the template: the same classifier stands on both sides, so the tags are learned and
then the arguments. -/
theorem Template.learns_other (h : Template K vars s x) (hs : x.isStar = false)
    (hv : vars.contains x.classifier = false) (hu : s.get? x.classifier = none)
    (htags : Learns vars s (x.tags.flatMap classifiers) b
      (compareImages compare (substitute s) x.tags b))
    (harguments : ∀ b, Records s b → Learns vars s (x.arguments.flatMap classifiers) b
      (compareImages compare (substitute s) x.arguments b)) :
    Learns vars s x.classifiers b (step K vars compare variance x (x.substitute s) b) := by
  have hsame := h.substitute_other hs hu
  have hstar : (x.substitute s).isStar = false := by
    rw [hsame]
    exact hs
  have hstep : step K vars compare variance x (x.substitute s) b =
      unifyConcrete K compare variance x (x.substitute s) b := by
    simp only [step, hs, hstar, asVariable_eq_none fun _ => hv,
      (closed_substitute h.fills).asVariable, Bool.or_self, Bool.false_eq_true, if_false]
  -- the classifier stays, so the image is its own view
  have hconcrete : unifyConcrete K compare variance x (x.substitute s) b =
      compareImages compare (substitute s) x.tags b >>=
        compareImages compare (substitute s) x.arguments := by
    refine unifyConcrete_image (h.keepsKeys hs) ?_ ?_ ?_ ?_ fun _ htop => ?_
    · rw [hsame]
      rfl
    · rw [hsame]
    · rw [hsame]
    · rw [hsame]
    · rw [flagsOf_of_named hstar, hsame] at htop
      exact h.leaf.here hs (Or.inr htop)
  rw [hstep, hconcrete]
  refine (htags.bind harguments).of_subset fun d hd hvd => ?_
  rw [classifiers_eq hs, List.mem_cons, List.mem_append] at hd
  rcases hd with rfl | hd | hd
  · rw [hv] at hvd
    cases hvd
  · exact List.mem_append_right _ hd
  · exact List.mem_append_left _ hd

/-- A walk through a type with variables and what the fillings make of it learns all variables of the
type. -/
theorem learns_walk {depth : Nat} (hx : Template K vars s x) (hb : Records s b) :
    Learns vars s x.classifiers b (walk K vars depth variance x (x.substitute s) b) := by
  induction depth generalizing variance x b with
  | zero => exact Or.inl rfl
  | succ depth ih =>
    rw [walk]
    cases hs : x.isStar with
    | true =>
      have hnone : x.classifiers = [] := List.eq_nil_iff_forall_not_mem.2 fun d hd =>
        not_mentions_of_isStar hs ⟨d, hd, rfl⟩
      rw [step, hs, hnone]
      exact learns_nothing hb
    | false =>
      have htags : Learns vars s (x.tags.flatMap classifiers) b
          (compareImages (walk K vars depth) (substitute s) x.tags b) :=
        compareImages_learns hb fun t ht b hb => ih (hx.tag hs ht) hb
      rcases hx.fills _ (classifier_mem hs) with ⟨hv, u, hu, hf⟩ | ⟨hv, hu⟩
      · exact hx.learns_variable hs hv hu hf htags fun b => walk_self hf.withoutInstanceKey.distinct
      · exact hx.learns_other hs hv hu htags fun b hb =>
          compareImages_learns hb fun t ht b hb => ih (hx.argument hs ht) hb

end Wiring.Fit
