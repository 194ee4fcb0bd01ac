import Wiring.Proofs.Fit.Closure

namespace Wiring.Fit

open Ty Catalog UnionFind

variable {K : Catalog} {statics vars : List Classifier} {U : UnionFind} {b : U.Table}
  {m : Substitution} {c r t : Ty}

def reading? (b : U.Table) (v : Classifier) : Option Ty :=
  match U.value? b v with
  | some value => some value
  | none => if U.representative b v == v then none else some (.of (U.representative b v))

def note (b : U.Table) (m : Substitution) (v : Classifier) : Substitution :=
  match reading? b v with
  | some t => m.insert v t
  | none => m

theorem readOff_eq (vars : List Classifier) (b : U.Table) :
    readOff vars b = vars.foldl (note b) .empty := by
  unfold readOff
  congr 1
  funext m v
  unfold note reading?
  cases U.value? b v with
  | some t => rfl
  | none =>
    dsimp only
    split <;> rfl

theorem get_note (b : U.Table) (m : Substitution) (v d : Classifier) :
    (note b m v).get? d = if d == v then (reading? b v).or (m.get? d) else m.get? d := by
  unfold note
  cases reading? b v with
  | some t =>
    rw [Substitution.get_insert]
    rfl
  | none => simp

/-- What is bound in the end is the reading of some variable, and no other variable has one. -/
theorem get_readOff (b : U.Table) (vars : List Classifier) (d : Classifier) :
    (∃ v ∈ vars, v.key = d.key ∧ (readOff vars b).get? d = reading? b v ∧
      (reading? b v).isSome = true) ∨
    ((readOff vars b).get? d = none ∧ ∀ v ∈ vars, v.key = d.key → reading? b v = none) := by
  -- for any bindings to start with, since each step of the fold adds one
  suffices h : ∀ m : Substitution,
      (∃ v ∈ vars, v.key = d.key ∧ (vars.foldl (note b) m).get? d = reading? b v ∧
        (reading? b v).isSome = true) ∨
      ((vars.foldl (note b) m).get? d = m.get? d ∧
        ∀ v ∈ vars, v.key = d.key → reading? b v = none) by
    rw [readOff_eq]
    exact h .empty
  induction vars with
  | nil => exact fun m => Or.inr ⟨rfl, fun v hv => absurd hv List.not_mem_nil⟩
  | cons v vars ih =>
    intro m
    rw [List.foldl_cons]
    rcases ih (note b m v) with ⟨w, hw, h⟩ | ⟨hget, hnone⟩
    · exact Or.inl ⟨w, List.mem_cons_of_mem v hw, h⟩
    · rw [hget, get_note]
      by_cases hk : v.key = d.key
      · rw [if_pos (Classifier.beq_iff_key_eq.2 hk.symm)]
        cases hv : reading? b v with
        | some t => exact Or.inl ⟨v, List.mem_cons_self .., hk, hv.symm, by rw [hv]; rfl⟩
        | none =>
          refine Or.inr ⟨rfl, fun w hw hkw => ?_⟩
          rcases List.mem_cons.1 hw with rfl | hw
          · exact hv
          · exact hnone w hw hkw
      · rw [if_neg (fun h => hk (Classifier.beq_iff_key_eq.1 h).symm)]
        refine Or.inr ⟨rfl, fun w hw hkw => ?_⟩
        rcases List.mem_cons.1 hw with rfl | hw
        · exact absurd hkw hk
        · exact hnone w hw hkw

/-- A bound classifier has the key of a variable and is bound to its value or representative. -/
theorem of_get_readOff {d : Classifier} (h : (readOff vars b).get? d = some t) :
    ∃ v ∈ vars, v.key = d.key ∧ (U.value? b v = some t ∨
      (U.value? b v = none ∧ (U.representative b v).key ≠ v.key ∧ t = .of (U.representative b v))) := by
  rcases get_readOff b vars d with ⟨v, hv, hk, hget, _⟩ | ⟨hget, _⟩
  · refine ⟨v, hv, hk, ?_⟩
    rw [hget] at h
    unfold reading? at h
    cases hval : U.value? b v with
    | some value =>
      rw [hval] at h
      exact Or.inl h
    | none =>
      rw [hval] at h
      dsimp only at h
      split at h
      · cases h
      · next hne =>
        exact Or.inr ⟨rfl, mt Classifier.beq_iff_key_eq.2 hne, (Option.some.inj h).symm⟩
  · rw [hget] at h
    cases h

theorem get_readOff_of_value {v : Classifier} (hv : vars.contains v = true)
    (h : U.value? b v = some t) : (readOff vars b).get? v = some t := by
  have hread : ∀ w : Classifier, w.key = v.key → reading? b w = some t := fun w hk => by
    unfold reading?
    rw [U.value_eq (U.key_representative b hk), h]
  obtain ⟨x, hx, hvx⟩ := List.contains_iff_exists_mem_beq.1 hv
  have hkx : x.key = v.key := (Classifier.beq_iff_key_eq.1 hvx).symm
  rcases get_readOff b vars v with ⟨w, _, hk, hget, _⟩ | ⟨_, hnone⟩
  · rw [hget, hread w hk]
  · have := hnone x hx hkx
    rw [hread x hkx] at this
    cases this

theorem exists_mem_variablesIn {d : Classifier} (hd : Mentions t d.key)
    (hp : ∀ e : Classifier, e.key = d.key → K.isTypeParameter e = true)
    (hv : vars.contains d = true) :
    ∃ w ∈ variablesIn K vars t, w ∈ vars ∧ w.key = d.key := by
  obtain ⟨e, he, hed⟩ := hd
  obtain ⟨p, hpt, hpe⟩ := exists_mem_parametersIn he (hp e hed)
  obtain ⟨x, hx, hdx⟩ := List.contains_iff_exists_mem_beq.1 hv
  have hxp : (x == p) = true := by
    rw [Classifier.beq_iff_key_eq, hpe, hed]
    exact (Classifier.beq_iff_key_eq.1 hdx).symm
  have hsome : (vars.find? (· == p)).isSome = true := List.find?_isSome.2 ⟨x, hx, hxp⟩
  obtain ⟨w, hw⟩ := Option.isSome_iff_exists.1 hsome
  refine ⟨w, List.mem_filterMap.2 ⟨p, hpt, hw⟩, List.mem_of_find?_eq_some hw, ?_⟩
  have hwp := List.find?_some hw
  rw [Classifier.beq_iff_key_eq.1 hwp, hpe, hed]

/-! ### The substitution that is read off -/

def Free (K : Catalog) (statics vars : List Classifier) : Prop :=
  ∀ v, vars.contains v = true → K.isTypeParameter v = true ∧ statics.contains v = false

theorem admissible_readOff (hK : K.Orderly statics) (hb : Sane K vars b)
    (hf : Free K statics vars) : Admissible K statics (readOff vars b) := by
  have hvar : ∀ d t, (readOff vars b).get? d = some t → vars.contains d = true := by
    intro d t h
    obtain ⟨v, hv, hk, _⟩ := of_get_readOff h
    rw [← contains_congr hk]
    exact List.contains_iff_exists_mem_beq.2 ⟨v, hv, BEq.rfl⟩
  refine ⟨fun d t h => (hf d (hvar d t h)).1, fun d t h => (hf d (hvar d t h)).2, fun d t h => ?_⟩
  obtain ⟨v, hv, hk, hval | ⟨_, _, rfl⟩⟩ := of_get_readOff h
  · exact hb.regular v t hval
  · have hvc : vars.contains v = true := List.contains_iff_exists_mem_beq.2 ⟨v, hv, BEq.rfl⟩
    have hj : U.joined b (U.representative b v) v = true := joined_iff.2 (U.idempotent b v)
    exact regular_of_parameter hK (hf _ (hb.contains_of_joined hj hvc)).1

theorem descends_readOff (hb : Triangular K vars b) (hf : Free K statics vars) :
    Descends (height K vars b) 0 (readOff vars b) := by
  intro d t hd e hmen he
  obtain ⟨u, hu⟩ := Option.isSome_iff_exists.1 he
  obtain ⟨w, hw, hwe, hwu⟩ := of_get_readOff hu
  obtain ⟨v, hv, hvd, hval | ⟨hval, hne, rfl⟩⟩ := of_get_readOff hd
  · have hec : vars.contains e = true := by
      rw [← contains_congr hwe]
      exact List.contains_iff_exists_mem_beq.2 ⟨w, hw, BEq.rfl⟩
    obtain ⟨x, hx, _, hxe⟩ := exists_mem_variablesIn hmen (fun f hf' => by
      rw [← contains_congr hf'] at hec
      exact (hf f hec).1) hec
    rw [← hxe, ← hvd]
    exact hb.height_lt hval hx
  · -- a representative without a value is not bound
    obtain ⟨f, hf', hfe⟩ := hmen
    have hrep : w.key = (U.representative b v).key := by
      rw [hwe, ← hfe]
      simp only [Ty.of, classifiers, allClassifiers, List.append_nil, List.mem_singleton] at hf'
      rw [hf']
    have hj : U.joined b w v = true := by
      rw [joined_iff, U.key_representative b hrep]
      exact U.idempotent b v
    rcases hwu with hwu | ⟨_, hne', _⟩
    · rw [value_eq_of_joined hj, hval] at hwu
      cases hwu
    · exact absurd ((joined_iff.1 hj).trans hrep.symm) hne'

theorem alike_of_key (σ : Substitution) {v w : Classifier} (hk : v.key = w.key) :
    Alike ((Ty.of v).substitute σ) ((Ty.of w).substitute σ) := by
  have hspares : ∀ v, Everywhere σ.Spares (Ty.of v) := fun v =>
    Everywhere.node (List.forall_mem_nil _) (List.forall_mem_nil _) (List.forall_mem_nil _)
  refine agree_substitute ?_ (hspares v) (hspares w) fun _ _ => optionRel_agree_refl _
  exact Agree.node rfl rfl hk rfl List.Forall₂.nil fun _ => Option.Rel.none

/-- What solves the substitution that is read off takes a variable without a value to the same as its
representative. -/
theorem alike_representative {σ : Substitution} (h : Solved (readOff vars b) σ)
    {v : Classifier} (hv : vars.contains v = true) (hval : U.value? b v = none) :
    Alike ((Ty.of v).substitute σ) ((Ty.of (U.representative b v)).substitute σ) := by
  have hread : ∀ w : Classifier, w.key = v.key → reading? b w =
      if U.representative b w == w then none else some (.of (U.representative b w)) := by
    intro w hk
    unfold reading?
    rw [U.value_eq (U.key_representative b hk), hval]
  rcases get_readOff b vars v with ⟨w, _, hk, hget, hsome⟩ | ⟨_, hnone⟩
  · -- what is bound is the reading of `w`, which has the same representative
    rw [hread w hk] at hget hsome
    split at hsome
    · cases hsome
    · next hself =>
      rw [if_neg hself] at hget
      exact Alike.trans (h v _ hget) (alike_of_key σ (U.key_representative b hk))
  · obtain ⟨x, hx, hvx⟩ := List.contains_iff_exists_mem_beq.1 hv
    have hk : x.key = v.key := (Classifier.beq_iff_key_eq.1 hvx).symm
    have hself := hnone x hx hk
    rw [hread x hk] at hself
    split at hself
    · next hrep =>
      apply alike_of_key
      rw [U.key_representative b hk.symm, Classifier.beq_iff_key_eq.1 hrep, hk]
    · cases hself

/-- What closing makes of bindings solves them. -/
theorem solves_solution (hK : K.Orderly statics) (hb : Sane K vars b) (hf : Free K statics vars) :
    Solves K statics vars b (close (vars.length + 1) (readOff vars b)) := by
  obtain ⟨hsolved, hadm, hdom⟩ := close_solved hK (admissible_readOff hK hb hf)
    (descends_readOff hb.triangular hf) (height_le K vars b)
  generalize close (vars.length + 1) (readOff vars b) = σ at hsolved hadm hdom
  have hvalue : ∀ v t, U.value? b v = some t →
      Alike ((Ty.of v).substitute σ) (t.substitute σ) := fun v t hval =>
    hsolved v t (get_readOff_of_value (hb.bound v t hval) hval)
  refine ⟨hadm, fun d t hd => ?_, fun v w hj => ?_, hvalue⟩
  · obtain ⟨u, hu⟩ := Option.isSome_iff_exists.1 ((hdom d).symm.trans (by rw [hd]; rfl))
    obtain ⟨v, hv, hk, _⟩ := of_get_readOff hu
    rw [← contains_congr hk]
    exact List.contains_iff_exists_mem_beq.2 ⟨v, hv, BEq.rfl⟩
  · -- joined variables have one value, or else one representative
    cases hval : U.value? b v with
    | some t =>
      have hw := hvalue w t ((value_eq_of_joined hj).symm.trans hval)
      exact Alike.trans (hvalue v t hval) hw.symm
    | none =>
      have hvalw : U.value? b w = none := (value_eq_of_joined hj).symm.trans hval
      rcases hb.linked v w hj with hk | ⟨hv, hw⟩
      · exact alike_of_key σ hk
      · have hmid := alike_of_key σ (joined_iff.1 hj)
        have hleft := alike_representative hsolved hv hval
        have hright := alike_representative hsolved hw hvalw
        exact Alike.trans hleft (Alike.trans hmid hright.symm)

/-! ### Fits -/

theorem of_mem_variablesOf {v : Classifier} (h : v ∈ variablesOf K statics c r) :
    (v ∈ K.parametersIn c ∨ v ∈ K.parametersIn r) ∧ K.isTypeParameter v = true ∧
      statics.contains v = false := by
  obtain ⟨hmem, hstatic⟩ := List.mem_filter.1 (mem_of_mem_eraseDups h)
  have hmem := List.mem_append.1 hmem
  refine ⟨hmem, ?_, by simpa using hstatic⟩
  rcases hmem with hmem | hmem
  · exact (of_mem_parametersIn hmem).2
  · exact (of_mem_parametersIn hmem).2

theorem free_variablesOf_of_flags
    (hK : ∀ c d : Classifier, c.key = d.key → K.isTypeParameter c = K.isTypeParameter d)
    (statics : List Classifier) (c r : Ty) : Free K statics (variablesOf K statics c r) := by
  intro v hv
  obtain ⟨w, hw, hvw⟩ := List.contains_iff_exists_mem_beq.1 hv
  have hk : v.key = w.key := Classifier.beq_iff_key_eq.1 hvw
  rw [hK v w hk, contains_congr hk]
  exact (of_mem_variablesOf hw).2

theorem free_variablesOf (hK : K.Coherent) (statics : List Classifier) (c r : Ty) :
    Free K statics (variablesOf K statics c r) :=
  free_variablesOf_of_flags (fun _ _ => hK.isTypeParameter_eq) statics c r

/-- The open type parameters of a candidate are variables. -/
theorem contains_variablesOf {d : Classifier} (hd : d ∈ c.classifiers)
    (hp : K.isTypeParameter d = true) (hst : statics.contains d = false) :
    (variablesOf K statics c r).contains d = true := by
  obtain ⟨p, hpc, hpk⟩ := exists_mem_parametersIn hd hp
  have hfree : (!statics.contains p) = true := by
    rw [contains_congr hpk, hst]
    rfl
  have hmem : p ∈ (K.parametersIn c ++ K.parametersIn r).filter fun p => !statics.contains p :=
    List.mem_filter.2 ⟨List.mem_append_left (K.parametersIn r) hpc, hfree⟩
  obtain ⟨q, hq, hqp⟩ := exists_mem_eraseDups hmem
  refine List.contains_iff_exists_mem_beq.2 ⟨q, hq, ?_⟩
  rw [Classifier.beq_iff_key_eq, ← hpk]
  exact (Classifier.beq_iff_key_eq.1 hqp).symm

/-- A candidate that is a parameter is a variable, unless it is static. -/
theorem contains_head (K : Catalog) (statics : List Classifier) (r : Ty)
    (hs : c.isStar = false) : (variablesOf K statics c r).contains c.classifier = true ∨
      Settled K statics c.classifier := by
  by_cases hset : Settled K statics c.classifier
  · exact Or.inr hset
  · obtain ⟨hp, hst⟩ : K.isTypeParameter c.classifier = true ∧
        statics.contains c.classifier = false := by
      simpa [Settled] using hset
    exact Or.inl (contains_variablesOf (classifier_mem hs) hp hst)

theorem exists_walk_of_fit (h : K.fit statics c r = .ok m) : ∃ depth b,
    walk K (variablesOf K statics c r) depth .covariant c r Bindings.byRank.start = .ok b ∧
      solution K (variablesOf K statics c r) b = .ok m := by
  have hwithin : ∀ depth result, within Bindings.byRank K depth statics c r = some result →
      result = .ok m → ∃ b,
        walk K (variablesOf K statics c r) depth .covariant c r Bindings.byRank.start = .ok b ∧
          solution K (variablesOf K statics c r) b = .ok m := by
    intro depth result hr hm
    unfold within at hr
    dsimp only at hr
    split at hr
    · next b hb => exact ⟨b, hb, (Option.some.inj hr).trans hm⟩
    · obtain rfl := Option.some.inj hr
      cases hm
    · cases hr
  -- the fit is tried at the usual depth first, and at a depth that is enough if that gives nothing
  unfold Catalog.fit at h
  split at h
  · next result hr => exact ⟨_, hwithin _ _ hr h⟩
  · next hnone =>
    dsimp only at h
    cases hw : within Bindings.byRank K (depth K (variablesOf K statics c r) c r) statics c r with
    | none =>
      rw [hw] at h
      cases h
    | some result =>
      rw [hw] at h
      exact ⟨_, hwithin _ _ hw h⟩

theorem of_checkBounds {m' : Substitution} (h : checkBounds K vars m = .ok m') :
    m = m' ∧ ∀ p t, (p, t) ∈ m.bindings → violatedBound? K vars m p t = none := by
  unfold checkBounds at h
  split at h
  · cases h
  · next hnone =>
    refine ⟨Except.ok.inj h, fun p t hp => ?_⟩
    have := List.findSome?_eq_none_iff.1 hnone (p, t) hp
    simpa using this

theorem checkBounds_eq_ok (h : ∀ p t, (p, t) ∈ m.bindings → violatedBound? K vars m p t = none) :
    checkBounds K vars m = .ok m := by
  unfold checkBounds
  split
  · next hsome =>
    obtain ⟨⟨p, t⟩, hmem, hbound⟩ := List.exists_of_findSome?_eq_some hsome
    dsimp only at hbound
    rw [h p t hmem] at hbound
    cases hbound
  · rfl

theorem mem_of_get {p : Classifier} (h : m.get? p = some t) :
    ∃ q, q.key = p.key ∧ (q, t) ∈ m.bindings := by
  simp only [Substitution.get?] at h
  generalize m.bindings = bs at h
  induction bs with
  | nil => cases h
  | cons x bs ih =>
    rw [Substitution.lookup_bindings] at h
    split at h
    · next hk =>
      obtain rfl := Option.some.inj h
      exact ⟨x.1, (Classifier.beq_iff_key_eq.1 hk).symm, List.mem_cons_self ..⟩
    · obtain ⟨q, hq, hmem⟩ := ih h
      exact ⟨q, hq, List.mem_cons_of_mem x hmem⟩

/-- Upper bounds are kept as far as they can be checked. -/
theorem bounds_of_checkBounds {m' : Substitution} (hK : K.Coherent)
    (h : checkBounds K vars m = .ok m') {p : Classifier} (hp : m.get? p = some t)
    (ht : isOpen K vars m t = false) {bound : Ty} (hb : bound ∈ K.declaredSupertypes p)
    (ho : isOpen K vars m (bound.substitute m) = false) :
    K.isSubtype t (bound.substitute m) = true := by
  obtain ⟨q, hq, hmem⟩ := mem_of_get hp
  have hv := (of_checkBounds h).2 q t hmem
  rw [violatedBound?, if_neg (by simp [ht]), List.find?_eq_none] at hv
  have hb' : bound.substitute m ∈ (K.declaredSupertypes q).map (·.substitute m) := by
    rw [hK.declaredSupertypes_eq hq]
    exact List.mem_map_of_mem hb
  simpa [ho] using hv _ hb'

/-- Under the substitution of a fit the candidate is assignable to the request, and each bound
parameter whose argument and upper bound mention no unbound variable is within that bound. -/
theorem fit_sound (hK : K.Orderly statics) (hc : K.Regular c) (hr : K.Regular r)
    (h : K.fit statics c r = .ok m) :
    K.isSubtype (c.substitute m) (r.substitute m) = true ∧
      ∀ p t, m.get? p = some t → isOpen K (variablesOf K statics c r) m t = false →
        ∀ bound ∈ K.declaredSupertypes p,
          isOpen K (variablesOf K statics c r) m (bound.substitute m) = false →
            K.isSubtype t (bound.substitute m) = true := by
  obtain ⟨depth, b, hwalk, hsol⟩ := exists_walk_of_fit h
  obtain ⟨rfl, _⟩ := of_checkBounds hsol
  obtain ⟨_, hsane, hfits⟩ := walk_sound hK depth _ _ _ _ _ hwalk hc hr sane_start
    fun _ hs => contains_head K statics r hs
  refine ⟨hfits _ (solves_solution hK hsane (free_variablesOf hK.coherent statics c r)), ?_⟩
  intro p t hp ht bound hb ho
  exact bounds_of_checkBounds hK.coherent hsol hp ht hb ho

def shelf : Catalog where
  entries := [
    ("Box", [{ typeParameters := [⟨"E", 0⟩] }]),
    ("E", [{ flags := { typeParameter := true } }]),
    ("Int", [{ supertypes := some [.of ⟨"Number", 0⟩] }]),
    ("T", [{ supertypes := some [.of ⟨"Number", 0⟩], flags := { typeParameter := true } }])]

def box (key : String) : Ty :=
  { head := .named ⟨"Box", 0⟩, arguments := [.of ⟨key, 0⟩] }

theorem single_shelf : shelf.Single := by decide

theorem supertypes_shelf {c : Classifier} {s : Ty} (h : s ∈ shelf.declaredSupertypes c) :
    s = .of ⟨"Number", 0⟩ ∧ shelf.typeParameters c = [] :=
  single_shelf.entry_induction
    (P := fun e => ∀ s ∈ e.supertypes.getD [], s = .of ⟨"Number", 0⟩ ∧ e.typeParameters = [])
    c (by simp) (by simp [shelf]) s h

theorem orderly_shelf : shelf.Orderly [] where
  coherent := single_shelf.coherent
  regular c s hs := by
    obtain ⟨rfl, -⟩ := supertypes_shelf hs
    exact regular_of rfl
  plain p hp :=
    single_shelf.entry_induction
      (P := fun e => e.flags.typeParameter = true → e.typeParameters = []) p (by simp)
      (by simp [shelf]) hp
  proper c s hs _ := by
    rw [(supertypes_shelf hs).2]
    rfl
  tags c s hs := by
    obtain ⟨rfl, -⟩ := supertypes_shelf hs
    exact Everywhere.node (List.forall_mem_nil _) (List.forall_mem_nil _) (List.forall_mem_nil _)
  own c _ s hs p hp := by
    obtain ⟨rfl, -⟩ := supertypes_shelf hs
    cases hp
  bounds c hc := by cases hc

theorem regular_box {key : String} (h : shelf.typeParameters ⟨key, 0⟩ = []) :
    shelf.Regular (box key) := by
  refine Everywhere.node ⟨fun hs => ?_, fun _ => rfl, List.nodup_nil, List.forall_mem_nil _⟩ ?_
    (List.forall_mem_nil _)
  · cases hs
  · intro a ha
    obtain rfl := List.mem_singleton.1 ha
    exact regular_of h

/-- A box of `T` fits a box of integers, with `T` bound to a number. -/
theorem box_fits : ∃ m, shelf.fit [] (box "T") (box "Int") = .ok m ∧
    shelf.isSubtype ((box "T").substitute m) ((box "Int").substitute m) = true ∧
    shelf.isSubtype (.of ⟨"Int", 0⟩) (.of ⟨"Number", 0⟩) = true := by
  have h : shelf.fit [] (box "T") (box "Int") = .ok (.ofList [(⟨"T", 0⟩, .of ⟨"Int", 0⟩)]) :=
    Eq.refl _
  obtain ⟨hfits, hbounds⟩ := fit_sound orderly_shelf (regular_box rfl) (regular_box rfl) h
  refine ⟨_, h, hfits, ?_⟩
  exact hbounds ⟨"T", 0⟩ (.of ⟨"Int", 0⟩) rfl rfl (.of ⟨"Number", 0⟩) (List.mem_singleton.2 rfl) rfl

end Wiring.Fit
