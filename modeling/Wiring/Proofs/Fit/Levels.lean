import Wiring.Proofs.Fit.Sound
import Wiring.Proofs.Types.Mentions

namespace Wiring.Fit

open Ty Catalog UnionFind

variable {K : Catalog} {vars : List Classifier} {M : Nat} {U : UnionFind} {b b' b'' : U.Table}
  {v w : Classifier} {c r t value : Ty} {variance : Variance} {compare compare' : Compare U}

/-! ### The course of the bindings -/

def vacant (vars : List Classifier) (b : U.Table) : List Classifier :=
  vars.filter fun v => U.representative b v == v && (U.value? b v).isNone

theorem mem_vacant : v ∈ vacant vars b ↔
    v ∈ vars ∧ (U.representative b v).key = v.key ∧ U.value? b v = none := by
  rw [vacant, List.mem_filter, Bool.and_eq_true, Classifier.beq_iff_key_eq, Option.isNone_iff_eq_none]

/-- Fewer classes are vacant if all that are have been, and one that has been is not. -/
theorem length_vacant_lt (h : ∀ x ∈ vacant vars b', x ∈ vacant vars b) (hv : v ∈ vacant vars b)
    (hn : v ∉ vacant vars b') : (vacant vars b').length < (vacant vars b).length := by
  have hsub : (vacant vars b').Sublist (vacant vars b) := by
    have hfilter : vacant vars b' = (vacant vars b).filter fun v =>
        U.representative b' v == v && (U.value? b' v).isNone := by
      rw [vacant, vacant, List.filter_filter]
      refine List.filter_congr fun x hx => ?_
      cases hx' : U.representative b' x == x && (U.value? b' x).isNone with
      | false => rfl
      | true => exact (List.mem_filter.1 (h x (List.mem_filter.2 ⟨hx, hx'⟩))).2.symm
    rw [hfilter]
    exact List.filter_sublist
  refine Nat.lt_of_le_of_ne hsub.length_le fun he => hn ?_
  rw [hsub.eq_of_length he]
  exact hv

/-- Each class of a variable without a value is vacant. -/
theorem Triangular.exists_vacant (hb : Triangular K vars b) (hv : vars.contains v = true)
    (hn : U.value? b v = none) : ∃ u ∈ vacant vars b, u.key = (U.representative b v).key := by
  have hj : U.joined b (U.representative b v) v = true := joined_iff.2 (U.idempotent b v)
  obtain ⟨u, hu, hk⟩ := List.contains_iff_exists_mem_beq.1 (hb.contains_of_joined hj hv)
  have hk := (Classifier.beq_iff_key_eq.1 hk).symm
  have huv : U.joined b u v = true := joined_trans (joined_of_key hk) hj
  refine ⟨u, mem_vacant.2 ⟨hu, ?_, ?_⟩, hk⟩
  · rw [joined_iff.1 huv, hk]
  · rw [value_eq_of_joined huv, hn]

theorem Triangular.length_vacant_assign (hb : Triangular K vars b) (hv : vars.contains v = true)
    (hn : U.value? b v = none) :
    (vacant vars (U.assign b v t)).length < (vacant vars b).length := by
  obtain ⟨u, hu, hk⟩ := hb.exists_vacant hv hn
  have hj : U.joined b u v = true := joined_iff.2 ((mem_vacant.1 hu).2.1.trans hk)
  refine length_vacant_lt (fun x hx => ?_) hu fun hu' => ?_
  · obtain ⟨hmem, hrep, hval⟩ := mem_vacant.1 hx
    rw [U.value_assign] at hval
    split at hval
    · cases hval
    · rw [U.representative_assign] at hrep
      exact mem_vacant.2 ⟨hmem, hrep, hval⟩
  · have hval := (mem_vacant.1 hu').2.2
    rw [value_assign_of_joined hj] at hval
    cases hval

/-- What is vacant after two classes have been joined has been so before. -/
theorem mem_vacant_of_join (hvw : U.joined b v w = false)
    (hn : U.value? b v = none ∨ U.value? b w = none) {u : Classifier}
    (hu : u ∈ vacant vars (U.join b v w)) : u ∈ vacant vars b := by
  obtain ⟨x, y, -, hrep⟩ := U.representative_join b v w
  obtain ⟨hmem, hu, hval⟩ := mem_vacant.1 hu
  refine mem_vacant.2 ⟨hmem, ?_, ?_⟩
  · rw [hrep] at hu
    split at hu
    · rw [U.key_representative b hu.symm, U.idempotent, hu]
    · exact hu
  · cases hbu : U.value? b u with
    | none => rfl
    | some t =>
      rw [((joins_join hvw hn).extends hn).value u t hbu] at hval
      cases hval

theorem Triangular.length_vacant_join (hb : Triangular K vars b) (hv : vars.contains v = true)
    (hw : vars.contains w = true) (hvw : U.joined b v w = false)
    (hn : U.value? b v = none ∨ U.value? b w = none) :
    (vacant vars (U.join b v w)).length < (vacant vars b).length := by
  obtain ⟨x, y, hxy, hrep⟩ := U.representative_join b v w
  have hj := joins_join hvw hn
  have hsub : ∀ u ∈ vacant vars (U.join b v w), u ∈ vacant vars b := fun u =>
    mem_vacant_of_join hvw hn
  by_cases hx : U.value? b x = none
  · -- the class that gives way is vacant no more
    have hxc : vars.contains x = true := by
      rcases hxy with ⟨rfl, _⟩ | ⟨rfl, _⟩
      · exact hv
      · exact hw
    obtain ⟨u, hu, hk⟩ := hb.exists_vacant hxc hx
    refine length_vacant_lt hsub hu fun hu' => ?_
    have hux : (U.representative b u == U.representative b x) = true :=
      Classifier.beq_iff_key_eq.2 ((mem_vacant.1 hu).2.1.trans hk)
    have hyx := (mem_vacant.1 hu').2.1
    rw [hrep, if_pos hux, hk] at hyx
    have hjoin : U.joined b v w = true := by
      rcases hxy with ⟨rfl, rfl⟩ | ⟨rfl, rfl⟩
      · exact joined_iff.2 hyx.symm
      · exact joined_iff.2 hyx
    rw [hvw] at hjoin
    cases hjoin
  · -- the other class is vacant, and takes over a value
    obtain ⟨t, ht⟩ := Option.ne_none_iff_exists'.1 hx
    have hyn : U.value? b y = none ∧ vars.contains y = true ∧
        (U.joined b y v || U.joined b y w) = true := by
      rcases hxy with ⟨rfl, rfl⟩ | ⟨rfl, rfl⟩
      · exact ⟨hn.resolve_left hx, hw, by simp [joined_refl]⟩
      · exact ⟨hn.resolve_right hx, hv, by simp [joined_refl]⟩
    obtain ⟨u, hu, hk⟩ := hb.exists_vacant hyn.2.1 hyn.1
    refine length_vacant_lt hsub hu fun hu' => ?_
    have huy : U.joined b u y = true := joined_iff.2 ((mem_vacant.1 hu).2.1.trans hk)
    have hval := (mem_vacant.1 hu').2.2
    rw [value_eq_of_joined ((hj.extends hn).joined _ _ huy), hj.value, if_pos hyn.2.2]
      at hval
    rcases hxy with ⟨rfl, rfl⟩ | ⟨rfl, rfl⟩
    · rw [ht] at hval
      cases hval
    · rw [ht, hyn.1] at hval
      cases hval

structure Fine (K : Catalog) (vars : List Classifier) (M : Nat) (b : U.Table) : Prop where
  -- Triangular bindings to types of a size of at most `M`.
  triangular : Triangular K vars b
  small : ∀ v t, U.value? b v = some t → t.size ≤ M

structure Evolves (K : Catalog) (vars : List Classifier) (M : Nat) (b b' : U.Table) : Prop where
  -- From `b` a walk may come to `b'`: it is the same, or fewer classes are vacant.
  fine : Fine K vars M b'
  advances : b' = b ∨ (vacant vars b').length < (vacant vars b).length

theorem Fine.evolves (hb : Fine K vars M b) : Evolves K vars M b b :=
  ⟨hb, Or.inl rfl⟩

theorem Evolves.trans (h : Evolves K vars M b b') (h' : Evolves K vars M b' b'') :
    Evolves K vars M b b'' := by
  refine ⟨h'.fine, ?_⟩
  rcases h.advances with rfl | hlt
  · exact h'.advances
  · rcases h'.advances with rfl | hlt'
    · exact Or.inr hlt
    · exact Or.inr (Nat.lt_trans hlt' hlt)

theorem Fine.assign (hb : Fine K vars M b) (hv : vars.contains v = true) (hn : U.value? b v = none)
    (ho : occurs K vars b v t = false) (ht : t.size ≤ M) :
    Evolves K vars M b (U.assign b v t) := by
  refine ⟨⟨hb.triangular.assign hv (not_reaches_of_occurs ho), fun x u hx => ?_⟩,
    Or.inr (hb.triangular.length_vacant_assign hv hn)⟩
  rw [U.value_assign] at hx
  split at hx
  · obtain rfl := Option.some.inj hx
    exact ht
  · exact hb.small x u hx

theorem Fine.join (hb : Fine K vars M b) (hv : vars.contains v = true)
    (hw : vars.contains w = true) (hvw : U.joined b v w = false)
    (hn : U.value? b v = none ∨ U.value? b w = none)
    (hov : ∀ s, U.value? b v = some s → ¬ Reaches K vars b s w)
    (how : ∀ s, U.value? b w = some s → ¬ Reaches K vars b s v) :
    Evolves K vars M b (U.join b v w) := by
  have hj := joins_join hvw hn
  refine ⟨⟨?_, fun x u hx => ?_⟩, Or.inr (hb.triangular.length_vacant_join hv hw hvw hn)⟩
  · rcases hn with hn | hn
    · exact hb.triangular.join hw hv hn how (hj.symm (Or.inl hn))
    · exact hb.triangular.join hv hw hn hov hj
  · rw [hj.value] at hx
    split at hx
    · rcases Option.or_eq_some_iff.1 hx with hx | ⟨_, hx⟩
      · exact hb.small v u hx
      · exact hb.small w u hx
    · exact hb.small x u hx

/-! ### What is compared -/

structure Pared (value t : Ty) : Prop where
  -- A type without some of its tags, and perhaps without its instance key and its nullability.
  head : value.head = t.head
  arguments : value.arguments = t.arguments
  tags : value.tags.Sublist t.tags

theorem pared_withoutTags (t : Ty) (cs : List Classifier) : Pared (t.withoutTags cs) t :=
  ⟨rfl, rfl, List.filter_sublist⟩

theorem Pared.asVariable_eq (h : Pared value t) :
    asVariable? K vars value = asVariable? K vars t := by
  obtain ⟨head, as, n, ts, k⟩ := value
  obtain ⟨head', as', n', ts', k'⟩ := t
  cases h.head
  rfl

theorem totalSize_le_of_sublist {ss ts : List Ty} (h : ss.Sublist ts) :
    totalSize ss ≤ totalSize ts := by
  induction h with
  | slnil => exact Nat.le_refl _
  | cons t _ ih => exact Nat.le_trans ih (Nat.le_add_left _ _)
  | cons_cons t _ ih => exact Nat.add_le_add_left ih _

theorem Pared.size_le (h : Pared value t) : value.size ≤ t.size := by
  have htags := totalSize_le_of_sublist h.tags
  rw [size_eq, size_eq, h.arguments]
  omega

theorem Pared.mem_classifiers (h : Pared value t) {d : Classifier} (hd : d ∈ value.classifiers) :
    d ∈ t.classifiers := by
  have hstar : value.isStar = t.isStar := by rw [isStar, isStar, h.head]
  cases hs : t.isStar with
  | true => exact absurd ⟨d, hd, rfl⟩ (not_mentions_of_isStar (k := d.key) (hstar.trans hs))
  | false =>
    rw [classifiers_eq (hstar.trans hs), List.mem_cons, List.mem_append] at hd
    rw [classifiers_eq hs, List.mem_cons, List.mem_append]
    refine hd.imp (fun hd => ?_) (Or.imp (fun hd => ?_) fun hd => ?_)
    · rw [hd, classifier, classifier, h.head]
    · rwa [← h.arguments]
    · obtain ⟨s, hs', hds⟩ := List.mem_flatMap.1 hd
      exact List.mem_flatMap.2 ⟨s, h.tags.subset hs', hds⟩

theorem Pared.mem_variablesIn (h : Pared value t) (hw : w ∈ variablesIn K vars value) :
    w ∈ variablesIn K vars t := by
  obtain ⟨d, hd, hfind⟩ := Fit.mem_variablesIn.1 hw
  exact Fit.mem_variablesIn.2 ⟨d, h.mem_classifiers hd, hfind⟩

theorem mem_variablesIn_of_asVariable (h : asVariable? K vars t = some v) :
    v ∈ variablesIn K vars t := by
  obtain ⟨hs, _, hp, _⟩ := asVariable_spec h
  unfold asVariable? at h
  split at h
  · exact Fit.mem_variablesIn.2 ⟨t.classifier, classifier_mem hs, hp, h⟩
  · cases h

inductive Compares (K : Catalog) (vars : List Classifier) (variance : Variance) (c r : Ty)
    (b : U.Table) : Ty → Ty → Prop
  -- What a level compares with what, in the bindings `b` that it has come to by then.
  | tags {x y : Ty} (left : x ∈ c.tags) (right : y ∈ r.tags) : Compares K vars variance c r b x y
  | arguments {view x y : Ty} (viewed : viewFor? K variance c r = some view)
      (left : x ∈ view.arguments) (right : y ∈ r.arguments) : Compares K vars variance c r b x y
  | values {v w : Classifier} {x y : Ty} (left : asVariable? K vars c = some v)
      (right : asVariable? K vars r = some w) (valueLeft : U.value? b v = some x)
      (valueRight : U.value? b w = some y) : Compares K vars variance c r b x y
  | valuesSwapped {v w : Classifier} {x y : Ty} (left : asVariable? K vars c = some v)
      (right : asVariable? K vars r = some w) (valueLeft : U.value? b v = some x)
      (valueRight : U.value? b w = some y) : Compares K vars variance c r b y x
  | requested {w : Classifier} {x value : Ty} (right : asVariable? K vars r = some w)
      (valueRight : U.value? b w = some x) (pared : Pared value c) :
      Compares K vars variance c r b x value
  | candidate {v : Classifier} {x value : Ty} (left : asVariable? K vars c = some v)
      (valueLeft : U.value? b v = some x) (pared : Pared value r) :
      Compares K vars variance c r b x value

/-! ### Two ways to compare -/

/-- From `b` a walk ends as another one does or goes too deep, which it does only if it may, and it
comes to where a walk may come. -/
structure Tracks (K : Catalog) (vars : List Classifier) (M : Nat) (deep : Prop) (b : U.Table)
    (x y : Result U) : Prop where
  same : x = y ∨ x = .error .tooDeep
  evolves : ∀ b', x = .ok b' → Evolves K vars M b b'
  bounded : x = .error .tooDeep → deep

variable {deep : Prop} {x y : Result U}

theorem Tracks.eq (h : Tracks K vars M deep b x y) (hx : x ≠ .error .tooDeep) : x = y :=
  h.same.resolve_right hx

theorem tracks_tooDeep : Tracks K vars M True b (.error .tooDeep) y where
  same := Or.inr rfl
  evolves _ h := by cases h
  bounded _ := trivial

theorem tracks_clash (reason : Misfit) :
    Tracks K vars M deep b (clash reason) (clash reason) where
  same := Or.inl rfl
  evolves _ h := by cases h
  bounded h := by cases h

theorem Evolves.tracks (h : Evolves K vars M b b') : Tracks K vars M deep b (.ok b') (.ok b') where
  same := Or.inl rfl
  evolves _ he := by
    cases he
    exact h
  bounded h := by cases h

theorem Tracks.bind {k k' : U.Table → Result U} (h : Tracks K vars M deep b x y)
    (hk : ∀ b', Evolves K vars M b b' → Tracks K vars M deep b' (k b') (k' b')) :
    Tracks K vars M deep b (x >>= k) (y >>= k') := by
  cases x with
  | error stop =>
    cases stop with
    | misfit reason =>
      obtain rfl := h.eq (by rintro ⟨⟩)
      exact tracks_clash reason
    | tooDeep => exact ⟨Or.inr rfl, fun _ he => (by cases he), fun _ => h.bounded rfl⟩
  | ok b' =>
    obtain rfl := h.eq (by rintro ⟨⟩)
    have hb' := h.evolves b' rfl
    obtain ⟨hsame, hevolves, hbounded⟩ := hk b' hb'
    exact ⟨hsame, fun b'' he => hb'.trans (hevolves b'' he), hbounded⟩

theorem tracks_foldlM {α : Type} {f g : U.Table → α → Result U} {xs : List α}
    (hb : Fine K vars M b)
    (hf : ∀ x ∈ xs, ∀ b', Evolves K vars M b b' → Tracks K vars M deep b' (f b' x) (g b' x)) :
    Tracks K vars M deep b (xs.foldlM f b) (xs.foldlM g b) := by
  induction xs generalizing b with
  | nil => exact hb.evolves.tracks
  | cons x xs ih =>
    rw [List.foldlM_cons, List.foldlM_cons]
    refine (hf x (List.mem_cons_self ..) b hb.evolves).bind fun b' hb' => ?_
    exact ih hb'.fine fun y hy b'' hb'' => hf y (List.mem_cons_of_mem x hy) b'' (hb'.trans hb'')

theorem tracks_unifyVariables (hb : Fine K vars M b) (hv : vars.contains v = true)
    (hw : vars.contains w = true)
    (h : ∀ x y, U.value? b v = some x → U.value? b w = some y →
      Tracks K vars M deep b (compare .invariant x y b) (compare' .invariant x y b)) :
    Tracks K vars M deep b (unifyVariables K vars compare v w b)
      (unifyVariables K vars compare' v w b) := by
  unfold unifyVariables
  split
  · exact hb.evolves.tracks
  · next hvw =>
    have hvw := Bool.eq_false_iff.2 hvw
    -- four cases, by which of the two classes has a value
    split
    · next x y hx hy => exact h x y hx hy
    · next x hx hy =>
      split
      · exact tracks_clash _
      · next ho =>
        exact (hb.join hv hw hvw (Or.inr hy) (value_not_reaches hx ho)
          (value_not_reaches_of_none hy)).tracks
    · next y hx hy =>
      split
      · exact tracks_clash _
      · next ho =>
        exact (hb.join hv hw hvw (Or.inl hx) (value_not_reaches_of_none hx)
          (value_not_reaches hy ho)).tracks
    · next hx hy =>
      exact (hb.join hv hw hvw (Or.inl hx) (value_not_reaches_of_none hx)
        (value_not_reaches_of_none hy)).tracks

theorem tracks_bindVariable (hb : Fine K vars M b) (hv : vars.contains v = true)
    (ht : value.size ≤ M)
    (hvalues : ∀ w x y, asVariable? K vars value = some w → U.value? b v = some x →
      U.value? b w = some y →
      Tracks K vars M deep b (compare .invariant x y b) (compare' .invariant x y b))
    (hvalue : ∀ x, U.value? b v = some x →
      Tracks K vars M deep b (compare .invariant x value b) (compare' .invariant x value b)) :
    Tracks K vars M deep b (bindVariable K vars compare v value b)
      (bindVariable K vars compare' v value b) := by
  unfold bindVariable
  dsimp only
  split
  · next w hw =>
    have hw : asVariable? K vars value = some w := by
      split at hw
      · exact hw
      · cases hw
    exact tracks_unifyVariables hb hv (asVariable_spec hw).2.2.2 fun x y => hvalues w x y hw
  · split
    · exact tracks_clash _
    · next ho =>
      split
      · next x hx => exact hvalue x hx
      · next hn => exact (hb.assign hv hn (Bool.eq_false_iff.2 ho) ht).tracks

section Level

variable (hb : Fine K vars M b)
  (h : ∀ b' x y, Evolves K vars M b b' → Compares K vars variance c r b' x y →
    Tracks K vars M deep b' (compare .invariant x y b') (compare' .invariant x y b'))
include hb h

theorem tracks_unifyRequestedTags :
    Tracks K vars M deep b (unifyRequestedTags compare c r b) (unifyRequestedTags compare' c r b) := by
  refine tracks_foldlM hb fun tag htag b' hb' => ?_
  split
  · next present hp => exact h b' present tag hb' (.tags (mem_of_lookupTag hp) htag)
  · exact tracks_clash _

theorem tracks_unifyCandidateTags :
    Tracks K vars M deep b (unifyCandidateTags compare c r b) (unifyCandidateTags compare' c r b) := by
  refine tracks_foldlM hb fun tag htag b' hb' => ?_
  split
  · next wanted hw => exact h b' tag wanted hb' (.tags htag (mem_of_lookupTag hw))
  · exact tracks_clash _

theorem tracks_bindRequested (hc : c.size ≤ M) (hw : asVariable? K vars r = some w) :
    Tracks K vars M deep b (bindRequested K vars compare variance w c r b)
      (bindRequested K vars compare' variance w c r b) := by
  have hwc := (asVariable_spec hw).2.2.2
  unfold bindRequested
  refine (tracks_unifyRequestedTags hb h).bind fun b' hb' => ?_
  have hbind : ∀ value, Pared value c →
      Tracks K vars M deep b' (bindVariable K vars compare w value b')
        (bindVariable K vars compare' w value b') := by
    intro value hvalue
    refine tracks_bindVariable hb'.fine hwc (Nat.le_trans hvalue.size_le hc) (fun v x y hv hx hy => ?_)
      fun x hx => h b' x value hb' (.requested hw hx hvalue)
    rw [hvalue.asVariable_eq] at hv
    exact h b' x y hb' (.valuesSwapped hv hw hy hx)
  have hpared := pared_withoutTags c (r.tags.map Ty.classifier)
  dsimp only
  split
  · split
    · exact tracks_clash _
    · exact hbind _ ⟨hpared.head, hpared.arguments, hpared.tags⟩
  · exact hbind _ ⟨hpared.head, hpared.arguments, hpared.tags⟩

theorem tracks_bindCandidate (hr : r.size ≤ M) (hv : asVariable? K vars c = some v) :
    Tracks K vars M deep b (bindCandidate K vars compare v c r b)
      (bindCandidate K vars compare' v c r b) := by
  have hvc := (asVariable_spec hv).2.2.2
  unfold bindCandidate
  split
  · exact tracks_clash _
  · refine (tracks_unifyCandidateTags hb h).bind fun b' hb' => ?_
    have hbind : ∀ value, Pared value r →
        Tracks K vars M deep b' (bindVariable K vars compare v value b')
          (bindVariable K vars compare' v value b') := by
      intro value hvalue
      refine tracks_bindVariable hb'.fine hvc (Nat.le_trans hvalue.size_le hr) (fun w x y hw hx hy => ?_)
        fun x hx => h b' x value hb' (.candidate hv hx hvalue)
      rw [hvalue.asVariable_eq] at hw
      exact h b' x y hb' (.values hv hw hx hy)
    have hpared := pared_withoutTags r (c.tags.map Ty.classifier)
    apply hbind
    split
    · exact ⟨hpared.head, hpared.arguments, hpared.tags⟩
    · exact ⟨hpared.head, hpared.arguments, hpared.tags⟩

theorem tracks_unifyConcrete :
    Tracks K vars M deep b (unifyConcrete K compare variance c r b)
      (unifyConcrete K compare' variance c r b) := by
  unfold unifyConcrete
  split
  · exact tracks_clash _
  · refine (tracks_unifyRequestedTags hb h).bind fun b' hb' => ?_
    split
    · exact hb'.fine.evolves.tracks
    · split
      · exact tracks_clash _
      · split
        · exact tracks_clash _
        · next view hview =>
          split
          · refine tracks_foldlM hb'.fine fun p hp b'' hb'' => ?_
            obtain ⟨hx, hy⟩ := List.of_mem_zip hp
            exact h b'' p.1 p.2 (hb'.trans hb'') (.arguments hview hx hy)
          · exact tracks_clash _

end Level

/-- Two ways to compare that do the same with all that a level compares make the same level of it. -/
theorem tracks_step (hb : Fine K vars M b) (hc : c.size ≤ M) (hr : r.size ≤ M)
    (h : c.isStar = false → r.isStar = false → ∀ b' x y, Evolves K vars M b b' →
      Compares K vars variance c r b' x y →
      Tracks K vars M deep b' (compare .invariant x y b') (compare' .invariant x y b')) :
    Tracks K vars M deep b (step K vars compare variance c r b)
      (step K vars compare' variance c r b) := by
  unfold step
  split
  · exact hb.evolves.tracks
  · next hs =>
    obtain ⟨hcs, hrs⟩ : c.isStar = false ∧ r.isStar = false := by simpa using hs
    have h := h hcs hrs
    split
    · next v w hv hw =>
      split
      · exact tracks_unifyVariables hb (asVariable_spec hv).2.2.2 (asVariable_spec hw).2.2.2
          fun x y hx hy => h b x y hb.evolves (.values hv hw hx hy)
      · exact tracks_bindRequested hb h hc hw
    · next w _ hw => exact tracks_bindRequested hb h hc hw
    · next v hv _ => exact tracks_bindCandidate hb h hr hv
    · exact tracks_unifyConcrete hb h

end Wiring.Fit
