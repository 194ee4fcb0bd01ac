import Wiring.Supertypes
import Wiring.Proofs.Types.Substitution

namespace Wiring

open Ty

/-! ### Lists without repetition -/

theorem eraseDupsBy_sublist {α : Type} (r : α → α → Bool) :
    ∀ xs : List α, (xs.eraseDupsBy r).Sublist xs
  | [] => List.Sublist.refl _
  | z :: zs => by
    rw [List.eraseDupsBy_cons]
    exact ((eraseDupsBy_sublist r _).trans List.filter_sublist).cons_cons z
termination_by xs => xs.length
decreasing_by exact Nat.lt_succ_of_le (List.length_filter_le _ _)

theorem mem_of_mem_eraseDupsBy {α : Type} {r : α → α → Bool} {x : α} {xs : List α}
    (h : x ∈ xs.eraseDupsBy r) : x ∈ xs :=
  (eraseDupsBy_sublist r xs).mem h

theorem mem_of_mem_eraseDups {α : Type} [BEq α] {x : α} {xs : List α} (h : x ∈ xs.eraseDups) :
    x ∈ xs :=
  mem_of_mem_eraseDupsBy h

/-- What is dropped is related to something that stays. -/
theorem exists_mem_eraseDupsBy {α : Type} {r : α → α → Bool} {x : α} :
    ∀ {xs : List α}, x ∈ xs → ∃ y ∈ xs.eraseDupsBy r, x = y ∨ r x y = true
  | [], h => absurd h List.not_mem_nil
  | z :: zs, h => by
    rw [List.eraseDupsBy_cons]
    rcases List.mem_cons.1 h with rfl | h
    · exact ⟨x, List.mem_cons_self .., Or.inl rfl⟩
    · cases hx : r x z with
      | true => exact ⟨z, List.mem_cons_self .., Or.inr hx⟩
      | false =>
        have hz : x ∈ zs.filter fun y => r y z = false := List.mem_filter.2 ⟨h, by simpa using hx⟩
        obtain ⟨y, hy, hyx⟩ := exists_mem_eraseDupsBy hz
        exact ⟨y, List.mem_cons_of_mem z hy, hyx⟩
termination_by xs => xs.length
decreasing_by exact Nat.lt_succ_of_le (List.length_filter_le _ _)

theorem exists_mem_eraseDups {α : Type} [BEq α] [EquivBEq α] {x : α} {xs : List α} (h : x ∈ xs) :
    ∃ y ∈ xs.eraseDups, (y == x) = true := by
  obtain ⟨y, hy, hxy⟩ := exists_mem_eraseDupsBy h
  refine ⟨y, hy, ?_⟩
  rcases hxy with rfl | hxy
  · exact BEq.rfl
  · exact BEq.symm hxy

/-- What stays is not related to what stays before it. -/
theorem pairwise_eraseDupsBy {α : Type} (r : α → α → Bool) :
    ∀ xs : List α, (xs.eraseDupsBy r).Pairwise fun x y => r y x = false
  | [] => List.Pairwise.nil
  | z :: zs => by
    rw [List.eraseDupsBy_cons]
    refine List.pairwise_cons.2 ⟨fun y hy => ?_, pairwise_eraseDupsBy r _⟩
    exact of_decide_eq_true (List.mem_filter.1 (mem_of_mem_eraseDupsBy hy)).2
termination_by xs => xs.length
decreasing_by exact Nat.lt_succ_of_le (List.length_filter_le _ _)

theorem nodup_eraseDupsBy {α : Type} {r : α → α → Bool} (hr : ∀ x, r x x = true) (xs : List α) :
    (xs.eraseDupsBy r).Nodup := by
  refine (pairwise_eraseDupsBy r xs).imp ?_
  rintro x y hxy rfl
  rw [hr] at hxy
  cases hxy

namespace Catalog

structure RegularAt (K : Catalog) (t : Ty) : Prop where
  -- A node as it is constructed: as many arguments as its classifier has parameters, and at most
  -- one tag to a classifier, none of which is a type parameter.
  star : t.isStar = true → t.arguments = []
  arity : t.isStar = false → t.arguments.length = (K.typeParameters t.classifier).length
  distinct : (t.tags.map key).Nodup
  proper : ∀ s ∈ t.tags, K.isTypeParameter s.classifier = false

abbrev Regular (K : Catalog) (t : Ty) : Prop :=
  Everywhere K.RegularAt t

/-- A catalog in which fits are meaningful. The static parameters are those that stay symbolic;
declared supertypes speak of parameters of the same classifier, bounds of static parameters of
static parameters, and no classifier is directly below one of its own parameters. -/
structure Orderly (K : Catalog) (statics : List Classifier) : Prop where
  coherent : K.Coherent
  regular : ∀ c, ∀ s ∈ K.declaredSupertypes c, K.Regular s
  plain : ∀ p, K.isTypeParameter p = true → K.typeParameters p = []
  proper : ∀ c, ∀ s ∈ K.declaredSupertypes c, s.isStar = false →
    (K.typeParameters c).contains s.classifier = false
  tags : ∀ c, ∀ s ∈ K.declaredSupertypes c,
    s.Everywhere fun t => ∀ tag ∈ t.tags, (K.typeParameters c).contains tag.classifier = false
  own : ∀ c, K.isTypeParameter c = false → ∀ s ∈ K.declaredSupertypes c, ∀ p ∈ K.parametersIn s,
    (K.typeParameters c).contains p = true
  bounds : ∀ c, statics.contains c = true → ∀ s ∈ K.declaredSupertypes c, ∀ p ∈ K.parametersIn s,
    statics.contains p = true

def Settled (K : Catalog) (statics : List Classifier) (c : Classifier) : Prop :=
  K.isTypeParameter c = true → statics.contains c = true

structure Admissible (K : Catalog) (statics : List Classifier) (m : Substitution) : Prop where
  -- A substitution that binds open type parameters to regular types.
  parameter : ∀ c t, m.get? c = some t → K.isTypeParameter c = true
  free : ∀ c t, m.get? c = some t → statics.contains c = false
  regular : ∀ c t, m.get? c = some t → K.Regular t

section Coherence

variable {K : Catalog} {c d : Classifier}

def Single (K : Catalog) : Prop :=
  ∀ x ∈ K.entries, x.2.length = 1

instance (K : Catalog) : Decidable K.Single :=
  inferInstanceAs (Decidable (∀ x ∈ K.entries, x.2.length = 1))

theorem mem_entries_of_lookup {k : String} {es : List Entry} (h : K.entries.lookup k = some es) :
    (k, es) ∈ K.entries := by
  obtain ⟨before, after, hentries, -⟩ := List.lookup_eq_some_iff.1 h
  rw [hentries]
  exact List.mem_append_right before (List.mem_cons_self ..)

/-- A declared supertype stands in one of the descriptions for the key. -/
theorem mem_entries_of_declared {s : Ty} (h : s ∈ K.declaredSupertypes c) :
    ∃ x ∈ K.entries, x.1 = c.key ∧ ∃ e ∈ x.2, s ∈ e.supertypes.getD [] := by
  unfold declaredSupertypes entry at h
  dsimp only at h
  cases hread : ((K.revisions c.key)[c.revision]?).or (K.revisions c.key).head? with
  | none =>
    rw [hread] at h
    cases h
  | some e =>
    rw [hread, Option.getD_some] at h
    have he : e ∈ K.revisions c.key := by
      rcases Option.or_eq_some_iff.1 hread with hread | ⟨_, hread⟩
      · exact List.mem_of_getElem? hread
      · exact List.mem_of_head? hread
    unfold revisions at he
    cases hl : K.entries.lookup c.key with
    | none =>
      rw [hl] at he
      cases he
    | some es =>
      rw [hl] at he
      exact ⟨_, mem_entries_of_lookup hl, rfl, e, he, h⟩

theorem Single.entry_of_lookup (h : K.Single) {es : List Entry}
    (hes : K.entries.lookup c.key = some es) : es = [K.entry c] := by
  obtain ⟨e, rfl⟩ := List.length_eq_one_iff.1 (h _ (mem_entries_of_lookup hes))
  rw [entry, revisions, hes]
  cases c.revision <;> rfl

/-- What holds of a plain class and of all that the catalog has for the key, holds of the description
of a classifier. -/
theorem Single.entry_induction {P : Entry → Prop} (h : K.Single) (c : Classifier) (hnone : P {})
    (hsome : ∀ x ∈ K.entries, x.1 = c.key → ∀ e ∈ x.2, P e) : P (K.entry c) := by
  cases hes : K.entries.lookup c.key with
  | none =>
    rw [entry, revisions, hes]
    exact hnone
  | some es =>
    apply hsome _ (mem_entries_of_lookup hes) rfl
    rw [h.entry_of_lookup hes]
    exact List.mem_singleton_self _

theorem Single.coherent (h : K.Single) : K.Coherent := by
  intro c d hk
  cases hes : K.entries.lookup c.key with
  | none =>
    rw [entry, entry, revisions, revisions, ← hk, hes]
    rfl
  | some es =>
    have hd := hes
    rw [hk] at hd
    exact (List.cons.inj ((h.entry_of_lookup hes).symm.trans (h.entry_of_lookup hd))).1

theorem Coherent.typeParameters_eq (h : K.Coherent) (hk : c.key = d.key) :
    K.typeParameters c = K.typeParameters d := by
  simp only [typeParameters, h c d hk]

theorem Coherent.isTypeParameter_eq (h : K.Coherent) (hk : c.key = d.key) :
    K.isTypeParameter c = K.isTypeParameter d := by
  simp only [isTypeParameter, flags, h c d hk]

theorem Coherent.declaredSupertypes_eq (h : K.Coherent) (hk : c.key = d.key) :
    K.declaredSupertypes c = K.declaredSupertypes d := by
  simp only [declaredSupertypes, h c d hk]

theorem Coherent.flags_eq (h : K.Coherent) (hk : c.key = d.key) : K.flags c = K.flags d := by
  simp only [flags, h c d hk]

end Coherence

variable {K : Catalog} {statics : List Classifier} {m : Substitution} {t : Ty}

theorem flagsOf_of_named (hs : t.isStar = false) : K.flagsOf t = K.flags t.classifier := by
  obtain ⟨head, as, n, ts, k⟩ := t
  cases head with
  | star => simp [isStar] at hs
  | named c => rfl

/-- A star is no type parameter. -/
theorem isParameter_of_isStar (hs : t.isStar = true) : K.isParameter t = false := by
  obtain ⟨head, as, n, ts, k⟩ := t
  cases head with
  | star => rfl
  | named c => cases hs

theorem flagsOf_congr {u : Ty} (hK : K.Coherent) (ht : t.isStar = false) (hu : u.isStar = false)
    (hk : t.key = u.key) : K.flagsOf t = K.flagsOf u := by
  rw [flagsOf_of_named ht, flagsOf_of_named hu]
  exact hK.flags_eq hk

theorem isTypeParameter_eq_isParameter (hs : t.isStar = false) :
    K.isParameter t = K.isTypeParameter t.classifier := by
  rw [isParameter, flagsOf_of_named hs, isTypeParameter]

/-- Classifiers with equal keys agree on whether they are type parameters. -/
def ParametersByKey (K : Catalog) : Prop :=
  ∀ c d : Classifier, c.key = d.key → K.isTypeParameter c = K.isTypeParameter d

theorem ParametersByKey.isParameter_eq {u : Ty} (hK : K.ParametersByKey)
    (hs : t.isStar = u.isStar) (hk : t.key = u.key) : K.isParameter t = K.isParameter u := by
  cases ht : t.isStar with
  | true => rw [isParameter_of_isStar ht, isParameter_of_isStar (hs ▸ ht)]
  | false =>
    rw [isTypeParameter_eq_isParameter ht, isTypeParameter_eq_isParameter (hs ▸ ht)]
    exact hK _ _ hk

theorem regular_of {c : Classifier} (h : K.typeParameters c = []) : K.Regular (.of c) := by
  refine Everywhere.node ⟨fun hs => ?_, fun _ => ?_, List.nodup_nil, List.forall_mem_nil _⟩
    (List.forall_mem_nil _) (List.forall_mem_nil _)
  · cases hs
  · rw [show (Ty.of c).classifier = c from rfl, h]
    rfl

theorem of_mem_parametersIn {c : Classifier} (h : c ∈ K.parametersIn t) :
    c ∈ t.classifiers ∧ K.isTypeParameter c = true :=
  List.mem_filter.1 (mem_of_mem_eraseDups h)

theorem exists_mem_parametersIn {c : Classifier} (hc : c ∈ t.classifiers)
    (hp : K.isTypeParameter c = true) : ∃ p ∈ K.parametersIn t, p.key = c.key := by
  obtain ⟨p, hpt, hpc⟩ := exists_mem_eraseDups (List.mem_filter.2 ⟨hc, hp⟩)
  exact ⟨p, hpt, Classifier.beq_iff_key_eq.1 hpc⟩

theorem Orderly.own_of_mem (hK : K.Orderly statics) {c d : Classifier}
    (hc : K.isTypeParameter c = false) {s : Ty} (hs : s ∈ K.declaredSupertypes c)
    (hd : d ∈ s.classifiers) (hp : K.isTypeParameter d = true) :
    (K.typeParameters c).contains d = true := by
  obtain ⟨p, hps, hpd⟩ := exists_mem_parametersIn hd hp
  rw [← contains_congr hpd]
  exact hK.own c hc s hs p hps

theorem Orderly.bounds_of_mem (hK : K.Orderly statics) {c d : Classifier}
    (hc : statics.contains c = true) {s : Ty} (hs : s ∈ K.declaredSupertypes c)
    (hd : d ∈ s.classifiers) (hp : K.isTypeParameter d = true) : statics.contains d = true := by
  obtain ⟨p, hps, hpd⟩ := exists_mem_parametersIn hd hp
  rw [← contains_congr hpd]
  exact hK.bounds c hc s hs p hps

/-! ### Admissible substitutions -/

theorem Admissible.get_of_settled (hm : Admissible K statics m) {c : Classifier}
    (hc : Settled K statics c) : m.get? c = none := by
  cases h : m.get? c with
  | none => rfl
  | some t =>
    have hs := hc (hm.parameter c t h)
    rw [hm.free c t h] at hs
    contradiction

theorem Admissible.spares (hm : Admissible K statics m) (ht : K.RegularAt t) : m.Spares t := by
  intro s hs
  apply hm.get_of_settled
  intro hp
  rw [ht.proper s hs] at hp
  contradiction

theorem Admissible.everywhere_spares (hm : Admissible K statics m) (ht : K.Regular t) :
    Everywhere m.Spares t :=
  ht.imp fun _ => hm.spares

/-- A node stays regular if its tags are spared and the value that takes its place is regular. -/
theorem regularAt_substitute (hK : K.Coherent) (ht : K.RegularAt t) (hs : m.Spares t)
    (hv : ∀ c v, m.get? c = some v → K.RegularAt v) : K.RegularAt (t.substitute m) := by
  have hkey : ∀ u ∈ t.tags, K.isTypeParameter (u.substitute m).classifier = false := by
    intro u hu
    rw [hK.isTypeParameter_eq (key_substitute (hs u hu))]
    exact ht.proper u hu
  have hproper : ∀ u ∈ (t.substitute m).tags, K.isTypeParameter u.classifier = false := by
    intro u hu
    rcases mem_tags_substitute hu with ⟨v, hc, hu⟩ | hu | hu
    · exact (hv _ v hc).proper u hu
    · exact ht.proper u hu
    · obtain ⟨w, hw, rfl⟩ := List.mem_map.1 hu
      exact hkey w hw
  -- only the tags are put together anew, the rest is that of the type or of the value
  obtain ⟨head, as, n, ts, k⟩ := t
  cases head with
  | star => exact ht
  | named c =>
    cases hc : m.get? c with
    | some v =>
      rw [substitute_bound hc] at hproper ⊢
      exact ⟨(hv c v hc).star, (hv c v hc).arity, canonicalTags_nodup _, hproper⟩
    | none =>
      rcases substitute_unbound hc with ⟨he, -⟩ | he
      · rw [he]
        exact ht
      · rw [he] at hproper ⊢
        refine ⟨fun h => by simp [isStar] at h, fun h => ?_, canonicalTags_nodup _, hproper⟩
        rw [List.length_map]
        exact ht.arity rfl

theorem regular_substitute (hK : K.Coherent) (ht : K.Regular t) (hs : Everywhere m.Spares t)
    (hv : ∀ c v, m.get? c = some v → K.Regular v) : K.Regular (t.substitute m) :=
  (ht.and hs).substitute (fun _ h => h.1) hv fun _ h =>
    regularAt_substitute hK h.1 h.2 fun c v hc => (hv c v hc).here

/-! ### Parameters bound to arguments -/

theorem get_ofArguments_rel {R : Ty → Ty → Prop} (ps : List Classifier) {as bs : List Ty}
    (h : List.Forall₂ R as bs) (c : Classifier) :
    Option.Rel R ((Substitution.ofArguments ps as).get? c)
      ((Substitution.ofArguments ps bs).get? c) := by
  suffices hs : ∀ m m' : Substitution, Option.Rel R (m.get? c) (m'.get? c) →
      Option.Rel R (((ps.zip as).foldl (fun m b => m.insert b.1 b.2) m).get? c)
        (((ps.zip bs).foldl (fun m b => m.insert b.1 b.2) m').get? c) from
    hs .empty .empty Option.Rel.none
  induction h generalizing ps with
  | nil => simp
  | @cons a b as bs hab _ ih =>
    intro m m' hm
    cases ps with
    | nil => simpa using hm
    | cons p ps =>
      simp only [List.zip_cons_cons, List.foldl_cons]
      apply ih
      rw [Substitution.get_insert, Substitution.get_insert]
      split
      · exact Option.Rel.some hab
      · exact hm

theorem get_ofArguments_map (f : Ty → Ty) (ps : List Classifier) (as : List Ty) (c : Classifier) :
    (Substitution.ofArguments ps (as.map f)).get? c =
      ((Substitution.ofArguments ps as).get? c).map f := by
  have h : List.Forall₂ (fun a b => b = f a) as (as.map f) :=
    List.forall₂_map_right_iff.2 (List.forall₂_same.2 fun _ _ => rfl)
  have hr := get_ofArguments_rel ps h c
  cases hx : (Substitution.ofArguments ps as).get? c with
  | none => exact eq_none_of_rel (optionRel_symm (hx ▸ hr))
  | some x =>
    obtain ⟨y, hy, rfl⟩ := exists_of_rel_some (hx ▸ hr)
    exact hy

/-- What a parameter is bound to is one of the arguments. -/
theorem mem_of_get_ofArguments {ps : List Classifier} {as : List Ty} {c : Classifier} {t : Ty}
    (h : (Substitution.ofArguments ps as).get? c = some t) :
    t ∈ as ∧ ps.contains c = true := by
  suffices hs : ∀ m : Substitution,
      ((ps.zip as).foldl (fun m b => m.insert b.1 b.2) m).get? c = some t →
        (t ∈ as ∧ ps.contains c = true) ∨ m.get? c = some t from
    (hs .empty h).resolve_right (by simp)
  clear h
  induction as generalizing ps with
  | nil => simp
  | cons a as ih =>
    intro m h
    cases ps with
    | nil => exact Or.inr (by simpa using h)
    | cons p ps =>
      simp only [List.zip_cons_cons, List.foldl_cons] at h
      rcases ih _ h with ⟨ht, hc⟩ | h
      · exact Or.inl ⟨List.mem_cons_of_mem a ht, by simp [hc]⟩
      · rw [Substitution.get_insert] at h
        split at h
        · next hc => exact Or.inl ⟨by simp_all, by simp [hc]⟩
        · exact Or.inr h

/-- If there are enough arguments every parameter is bound. -/
theorem isSome_get_ofArguments {ps : List Classifier} {as : List Ty} {c : Classifier}
    (hl : as.length = ps.length) (hc : ps.contains c = true) :
    ((Substitution.ofArguments ps as).get? c).isSome = true := by
  suffices hs : ∀ m : Substitution, ps.contains c = true ∨ (m.get? c).isSome = true →
      (((ps.zip as).foldl (fun m b => m.insert b.1 b.2) m).get? c).isSome = true from
    hs .empty (Or.inl hc)
  clear hc
  induction as generalizing ps with
  | nil =>
    intro m h
    have hps : ps = [] := List.eq_nil_of_length_eq_zero hl.symm
    simpa [hps] using h
  | cons a as ih =>
    intro m h
    cases ps with
    | nil => simp at hl
    | cons p ps =>
      simp only [List.zip_cons_cons, List.foldl_cons]
      apply ih (by simpa using hl)
      rw [Substitution.get_insert]
      by_cases hp : (c == p) = true
      · simp [hp]
      · simpa [hp] using h

/-! ### Collections -/

/-- What passes from a type to its supertypes passes to its view as a collection. -/
theorem of_searchCollection {P : Ty → Prop} (hP : ∀ t, P t → ∀ s ∈ K.supertypes t, P s)
    {fuel : Nat} {visited : List Classifier} {pending : List Ty} {view : Ty}
    (h : ∀ t ∈ pending, P t) (hv : K.searchCollection fuel visited pending = some view) :
    P view := by
  induction fuel generalizing visited pending with
  | zero => cases hv
  | succ fuel ih =>
    cases pending with
    | nil => cases hv
    | cons t pending =>
      obtain ⟨ht, hp⟩ := List.forall_mem_cons.1 h
      rw [searchCollection] at hv
      split at hv
      · cases hv
        exact ht
      · split at hv
        · exact ih hp hv
        · refine ih (fun s hs => ?_) hv
          rcases List.mem_append.1 hs with hs | hs
          · exact hP t ht s (List.mem_reverse.1 hs)
          · exact hp s hs

theorem of_collectionView {P : Ty → Prop} (hP : ∀ t, P t → ∀ s ∈ K.supertypes t, P s)
    {view : Ty} (ht : P t) (hv : K.collectionView? t = some view) : P view := by
  unfold collectionView? at hv
  split at hv
  · cases hv
    exact ht
  · exact of_searchCollection hP (fun s hs => hP t ht s (List.mem_reverse.1 hs)) hv

/-! ### Views -/

theorem mem_of_mem_unvisited {s : Ty} {visited : List Classifier} {level : List Ty}
    (h : s ∈ unvisited visited level) : s ∈ level := by
  induction level generalizing visited with
  | nil => exact h
  | cons t level ih =>
    rw [unvisited] at h
    split at h
    · exact List.mem_cons_of_mem t (ih h)
    · rcases List.mem_cons.1 h with rfl | h
      · exact List.mem_cons_self ..
      · exact List.mem_cons_of_mem t (ih h)

theorem of_searchAbove {P : Ty → Prop} (hP : ∀ t, P t → ∀ s ∈ K.supertypes t, P s)
    {goal : Classifier} {fuel : Nat} {visited : List Classifier} {level : List Ty}
    {found : Ty × Nat} (h : ∀ t ∈ level, P t)
    (hf : K.searchAbove goal fuel visited level = some found) :
    P found.1 ∧ found.1.key = goal.key := by
  induction fuel generalizing visited level found with
  | zero => cases hf
  | succ fuel ih =>
    have habove : ∀ s ∈ level.flatMap K.supertypes, P s := by
      intro s hs
      obtain ⟨t, ht, hs⟩ := List.mem_flatMap.1 hs
      exact hP t (h t ht) s hs
    rw [searchAbove] at hf
    split at hf
    · next s hs =>
      cases hf
      have hk := List.find?_some hs
      exact ⟨habove s (List.mem_of_find?_eq_some hs), Classifier.beq_iff_key_eq.1 hk⟩
    · dsimp only at hf
      split at hf
      · cases hf
      · obtain ⟨inner, hi, rfl⟩ := Option.map_eq_some_iff.1 hf
        have hinner := ih (fun s hs => habove s (mem_of_mem_unvisited hs)) hi
        exact hinner

/-- What passes from a type to its supertypes passes to its view by a classifier. -/
theorem of_view {P : Ty → Prop} (hP : ∀ t, P t → ∀ s ∈ K.supertypes t, P s) {goal : Classifier}
    {view : Ty} (ht : P t) (hv : K.view? t goal = some view) : P view ∧ view.key = goal.key := by
  obtain ⟨found, hf, rfl⟩ := Option.map_eq_some_iff.1 hv
  unfold nearest? at hf
  split at hf
  · next hself =>
    cases hf
    exact ⟨ht, Classifier.beq_iff_key_eq.1 hself⟩
  · exact of_searchAbove hP (List.forall_mem_singleton.2 ht) hf

end Catalog
end Wiring
