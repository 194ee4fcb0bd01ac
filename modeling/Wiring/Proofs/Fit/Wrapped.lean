import Wiring.Proofs.Fit.Template

namespace Wiring

namespace Ty

variable {w c : Classifier} {s t : Ty} {m : Substitution}

def wrap (w : Classifier) (t : Ty) : Ty :=
  { head := .named w, arguments := [t] }

def standIn (t : Ty) : Ty :=
  t.withoutInstanceKey.withTags t.tags

theorem size_wrap (w : Classifier) (t : Ty) : (t.wrap w).size = t.size + 1 := by
  rw [size_eq]
  simp only [wrap, totalSize]
  omega

theorem size_wraps (w : Classifier) (k : Nat) (t : Ty) : ((wrap w)^[k] t).size = t.size + k := by
  induction k with
  | zero => rfl
  | succ k ih =>
    rw [Function.iterate_succ_apply', size_wrap, ih]
    rfl

theorem classifiers_wrap (w : Classifier) (t : Ty) :
    (t.wrap w).classifiers = w :: t.classifiers := by
  simp [wrap, classifiers, allClassifiers]

theorem classifiers_withoutInstanceKey (t : Ty) :
    t.withoutInstanceKey.classifiers = t.classifiers := by
  obtain ⟨head, as, n, ts, k⟩ := t
  cases head <;> simp only [withoutInstanceKey, withInstanceKey, classifiers]

theorem covering_withoutInstanceKey (t : Ty) : t.withoutInstanceKey.covering = t.covering := by
  rw [covering, classifiers_withoutInstanceKey, covering]

theorem size_withoutInstanceKey (t : Ty) : t.withoutInstanceKey.size = t.size := by
  rw [size_eq, size_eq]
  rfl

/-- Of one classifier in several places the first counts. -/
theorem covering_wrap_wrap (w : Classifier) (t : Ty) :
    ((t.wrap w).wrap w).covering = (t.wrap w).covering := by
  have hfirst : Keyed.insert Classifier.key w [w] = [w] := by
    simp [Keyed.insert]
  simp only [covering, classifiers_wrap, Keyed.ofList, List.foldl_cons]
  rw [show Keyed.insert Classifier.key w [] = [w] from rfl, hfirst]

theorem covering_wraps (w : Classifier) (k : Nat) (t : Ty) :
    ((wrap w)^[k] (t.wrap w)).covering = (t.wrap w).covering := by
  induction k generalizing t with
  | zero => rfl
  | succ k ih => rw [Function.iterate_succ_apply, ih, covering_wrap_wrap]

theorem wrap_beq_wrap (w : Classifier) (s t : Ty) : (s.wrap w == t.wrap w) = (s == t) := by
  simp [beq_eq, wrap]

theorem wraps_beq_wraps (w : Classifier) (k : Nat) (s t : Ty) :
    ((wrap w)^[k] s == (wrap w)^[k] t) = (s == t) := by
  induction k with
  | zero => rfl
  | succ k ih => rw [Function.iterate_succ_apply', Function.iterate_succ_apply', wrap_beq_wrap, ih]

/-- What equals a wrapped type is a wrapped type. -/
theorem exists_wrap_of_beq (h : (s == t.wrap w) = true) :
    ∃ v x, s = x.wrap v ∧ v.key = w.key ∧ (x == t) = true := by
  obtain ⟨hhead, hnullable, hkey, harguments, htags⟩ := parts_of_beq h
  obtain ⟨head, as, n, ts, k⟩ := s
  obtain ⟨x, _, hx, hnil, has⟩ := List.forall₂_cons_right_iff.1 harguments
  cases List.forall₂_nil_right_iff.1 hnil
  cases List.forall₂_nil_right_iff.1 htags
  cases has
  cases head with
  | star => cases hhead
  | named v =>
    obtain rfl : n = false := hnullable
    obtain rfl : k = none := hkey
    exact ⟨v, x, rfl, Classifier.beq_iff_key_eq.1 hhead, hx⟩

theorem standIn_beq (h : (s == t) = true) : (s.standIn == t.standIn) = true := by
  obtain ⟨hhead, hnullable, -, harguments, htags⟩ := parts_of_beq h
  have hcanonical := beq_of_forall₂ (canonicalTags_beq htags)
  simp only [beq_eq, standIn, withTags, withoutInstanceKey, withInstanceKey, hhead, hnullable,
    beq_of_forall₂ harguments, hcanonical, BEq.rfl, Bool.and_self]

theorem classifiers_standIn (t : Ty) : ∀ d ∈ t.standIn.classifiers, d ∈ t.classifiers := by
  intro d hd
  obtain ⟨head, as, n, ts, k⟩ := t
  cases head with
  | star => exact hd
  | named c =>
    simp only [standIn, withTags, withoutInstanceKey, withInstanceKey, classifiers,
      all_classifiers_eq_flat_map, List.mem_cons, List.mem_append, List.mem_flatMap] at hd ⊢
    refine hd.imp_right fun hd => hd.imp_right ?_
    rintro ⟨tag, htag, hd⟩
    exact ⟨tag, Keyed.mem_of_mem_ofList htag, hd⟩

/-! ### Substitution -/

theorem substitute_parameter (h : m.get? c = some t.withoutInstanceKey) :
    (of c).substitute m = t.standIn := by
  rw [show of c = ⟨.named c, [], false, [], none⟩ from rfl, substitute_bound h]
  rfl

/-- A wrapper stays, and what is inside of it is replaced. -/
theorem substitute_wrap (hw : m.get? w = none) (h : (t.substitute m == t) = false)
    (key : Option Nat) :
    ((t.wrap w).withInstanceKey key).substitute m =
      ((t.substitute m).wrap w).withInstanceKey key := by
  have hparts : ((t.wrap w).withInstanceKey key).substitute m = (t.wrap w).withInstanceKey key ∧
      ([t] == [t].map (substitute m)) = true ∧ ([] == [].map (substitute m)) = true ∨
      ((t.wrap w).withInstanceKey key).substitute m =
        ((t.substitute m).wrap w).withInstanceKey key := substitute_unbound hw
  rcases hparts with ⟨-, hsame, -⟩ | he
  · rw [List.map_singleton, List.cons_beq_cons, BEq.comm, h] at hsame
    cases hsame
  · exact he

theorem substitute_wraps (hw : m.get? w = none) (h : (t.substitute m == t) = false) (k : Nat) :
    ((wrap w)^[k] t).substitute m = (wrap w)^[k] (t.substitute m) := by
  induction k with
  | zero => rfl
  | succ k ih =>
    have hchanged : (((wrap w)^[k] t).substitute m == (wrap w)^[k] t) = false := by
      rw [ih, wraps_beq_wraps]
      exact h
    rw [Function.iterate_succ_apply', Function.iterate_succ_apply', ← ih]
    exact substitute_wrap hw hchanged none

end Ty

open Ty

/-! ### Types without type parameters -/

/-- A type that mentions no type parameters and is no star. -/
structure Catalog.Ground (K : Catalog) (t : Ty) : Prop where
  named : t.isStar = false
  closed : K.parametersIn t = []

namespace Catalog

variable {K : Catalog} {w c : Classifier} {s t : Ty}

theorem ground_of (hs : t.isStar = false) (h : ∀ d ∈ t.classifiers, K.isTypeParameter d = false) :
    K.Ground t := by
  refine ⟨hs, ?_⟩
  have hnone : t.classifiers.filter K.isTypeParameter = [] :=
    List.filter_eq_nil_iff.2 fun d hd => by simp [h d hd]
  rw [parametersIn, hnone]
  rfl

namespace Ground

theorem classifier (h : K.Ground t) : ∀ d ∈ t.classifiers, K.isTypeParameter d = false := by
  intro d hd
  refine Bool.eq_false_iff.2 fun hp => ?_
  obtain ⟨p, hmem, -⟩ := exists_mem_parametersIn hd hp
  rw [h.closed] at hmem
  cases hmem

theorem wrap (h : K.Ground t) (hw : K.isTypeParameter w = false) : K.Ground (t.wrap w) := by
  refine ground_of rfl fun d hd => ?_
  rw [classifiers_wrap] at hd
  rcases List.mem_cons.1 hd with rfl | hd
  · exact hw
  · exact h.classifier d hd

theorem wraps (h : K.Ground t) (hw : K.isTypeParameter w = false) (k : Nat) :
    K.Ground ((Ty.wrap w)^[k] t) := by
  induction k with
  | zero => exact h
  | succ k ih =>
    rw [Function.iterate_succ_apply']
    exact ih.wrap hw

theorem standIn (h : K.Ground t) : K.Ground t.standIn :=
  ground_of h.named fun d hd => h.classifier d (classifiers_standIn t d hd)

theorem withoutInstanceKey (h : K.Ground t) : K.Ground t.withoutInstanceKey :=
  ground_of h.named fun d hd => h.classifier d (classifiers_withoutInstanceKey t ▸ hd)

theorem of_beq (h : K.Ground t) (hK : K.ParametersByKey) (hst : (s == t) = true) :
    K.Ground s := by
  refine ground_of ((isStar_of_beq hst).trans h.named) fun d hd => ?_
  obtain ⟨e, he, hk⟩ := Mentions.of_beq ⟨d, hd, rfl⟩ hst
  rw [← hK e d hk]
  exact h.classifier e he

/-- A type parameter does not occur. -/
theorem closed_of (h : K.Ground t) (hK : K.ParametersByKey) (hc : K.isTypeParameter c = true) :
    Fit.Closed [c] t := by
  intro d hd
  refine Bool.eq_false_iff.2 fun hmem => ?_
  have hk : d.key = c.key := Classifier.beq_iff_key_eq.1 (by simpa using hmem)
  have hd := h.classifier d hd
  rw [hK d c hk, hc] at hd
  cases hd

end Ground
end Catalog

/-! ### The fit of a wrapped variable -/

namespace Fit

open Catalog

variable {K : Catalog} {statics : List Classifier} {U : UnionFind} {w v T : Classifier} {x : Ty}
  {key : Option Nat}

/-- The one variable of a wrapped parameter and a wrapped type without type parameters. -/
theorem variablesOf_wrap (key : Option Nat) (hw : K.isTypeParameter w = false)
    (hv : K.isTypeParameter v = false) (hT : K.isTypeParameter T = true)
    (hfree : statics.contains T = false) (hx : K.Ground x) :
    variablesOf K statics ((wrap w (.of T)).withInstanceKey key) (x.wrap v) = [T] := by
  have hcandidate : K.parametersIn ((wrap w (.of T)).withInstanceKey key) = [T] := by
    have hall : ((wrap w (.of T)).withInstanceKey key).classifiers = [w, T] := rfl
    rw [parametersIn, hall, List.filter_cons_of_neg (by simp [hw]), List.filter_cons_of_pos hT,
      List.filter_nil]
    rfl
  rw [variablesOf, hcandidate, (hx.wrap hv).closed, List.append_nil,
    List.filter_cons_of_pos (by simpa using hfree), List.filter_nil]
  rfl

/-- The variable meets the type that is wrapped, and stands for it. -/
theorem walk_wrap (hK : K.ParametersByKey) (key : Option Nat) (hk : v.key = w.key)
    (hw : K.flags w = {}) (hv : K.flags v = {}) (hT : K.isTypeParameter T = true)
    (hx : K.Ground x) (n : Nat) :
    walk K [T] (n + 2) .covariant ((wrap w (.of T)).withInstanceKey key) (x.wrap v) U.start =
      .ok (U.assign U.start T x.withoutInstanceKey) := by
  have hparameter : K.isParameter (.of T) = true := hT
  have hvariable : asVariable? K [T] (.of T) = some T := by
    rw [asVariable?, if_pos hparameter]
    exact List.find?_cons_of_pos BEq.rfl
  have hbare : ((x.withoutTags []).withoutInstanceKey) = x.withoutInstanceKey := by
    simp [withoutTags, withoutInstanceKey, withInstanceKey]
  have hinner : walk K [T] (n + 1) .invariant (.of T) x U.start =
      .ok (U.assign U.start T x.withoutInstanceKey) := calc
    walk K [T] (n + 1) .invariant (.of T) x U.start
      = bindCandidate K [T] (walk K [T] n) T (.of T) x U.start := by
        simp only [walk, step, hx.named, hvariable, (hx.closed_of hK hT).asVariable]
        rfl
    _ = bindVariable K [T] (walk K [T] n) T (x.withoutTags []).withoutInstanceKey U.start := rfl
    _ = .ok (U.assign U.start T x.withoutInstanceKey) := by
        rw [hbare, bindVariable_closed (hx.withoutInstanceKey.closed_of hK hT), U.value_start]
  -- neither side is a variable on the outside, and the view is the type itself
  have hwrapper : asVariable? K [T] ((wrap w (.of T)).withInstanceKey key) = none := by
    rw [asVariable?, if_neg]
    simp [isParameter, flagsOf, wrap, withInstanceKey, hw]
  have hwrapped : asVariable? K [T] (x.wrap v) = none := by
    rw [asVariable?, if_neg]
    simp [isParameter, flagsOf, wrap, hv]
  have hview : K.view? ((wrap w (.of T)).withInstanceKey key) v =
      some ((wrap w (.of T)).withInstanceKey key) := view_self hk.symm
  calc walk K [T] (n + 2) .covariant ((wrap w (.of T)).withInstanceKey key) (x.wrap v) U.start
      = unifyConcrete K (walk K [T] (n + 1)) .covariant ((wrap w (.of T)).withInstanceKey key)
          (x.wrap v) U.start := by
        rw [walk, step, hwrapper, hwrapped]
        rfl
    _ = walk K [T] (n + 1) .invariant (.of T) x U.start >>= pure := by
        have htop : (K.flagsOf (x.wrap v)).top = false := by simp [flagsOf, wrap, hv]
        have hviewed : viewFor? K .covariant ((wrap w (.of T)).withInstanceKey key) (x.wrap v) =
            some ((wrap w (.of T)).withInstanceKey key) := hview
        simp only [unifyConcrete, htop, hviewed]
        rfl
    _ = .ok (U.assign U.start T x.withoutInstanceKey) := by rw [hinner]; rfl

/-- A variable without bounds that stands for a type without type parameters is a solution as it is. -/
theorem solution_ground (hK : K.ParametersByKey) (hT : K.isTypeParameter T = true)
    (hbounds : K.declaredSupertypes T = []) (hx : K.Ground x) :
    solution K [T] (U.assign U.start T x) = .ok (Substitution.empty.insert T x) := by
  let m : Substitution := Substitution.empty.insert T x
  have hbindings : m.bindings = [(T, x)] := rfl
  have hread : readOff [T] (U.assign U.start T x) = m := by
    rw [readOff, List.foldl_cons, List.foldl_nil, U.value_assign_self]
  have hself : x.substitute m = x := by
    refine substitute_eq_self fun d hd => ?_
    have hne : (d == T) = false := by simpa using hx.closed_of hK hT d hd
    rw [Substitution.get_insert, hne]
    rfl
  have hstays : (m.map (·.substitute m) == m) = true := by
    change (m.bindings.map (fun b => (b.1, b.2.substitute m)) == m.bindings) = true
    rw [hbindings, List.map_singleton, hself]
    exact BEq.rfl
  have hclosed : close ([T].length + 1) m = m := by
    rw [close, if_pos hstays]
  have hallowed : violatedBound? K [T] m T x = none := by
    simp [violatedBound?, hbounds]
  rw [solution, hread, hclosed, checkBounds, hbindings]
  simp only [List.findSome?_cons, List.findSome?_nil, hallowed, Option.map_none]
  rfl

/-- A wrapped variable without bounds fits what is wrapped likewise and mentions no type parameters,
and stands for it. -/
theorem fit_wrap (hK : K.ParametersByKey) (hk : v.key = w.key) (hw : K.flags w = {})
    (hv : K.flags v = {}) (hT : K.isTypeParameter T = true) (hfree : statics.contains T = false)
    (hbounds : K.declaredSupertypes T = []) (hx : K.Ground x) :
    K.fit statics ((wrap w (.of T)).withInstanceKey key) (x.wrap v) =
      .ok (Substitution.empty.insert T x.withoutInstanceKey) := by
  have hplain : K.isTypeParameter w = false := by rw [isTypeParameter, hw]
  have hplain' : K.isTypeParameter v = false := by rw [isTypeParameter, hv]
  have hvars := variablesOf_wrap key hplain hplain' hT hfree hx
  obtain ⟨n, hn⟩ : ∃ n, depth K [T] ((wrap w (.of T)).withInstanceKey key) (x.wrap v) = n + 2 := by
    refine Nat.exists_eq_add_of_le' ?_
    simp only [depth, List.length_singleton]
    omega
  have hwalk := walk_wrap (U := Bindings.byRank) hK key hk hw hv hT hx n
  rw [← hn, ← hvars] at hwalk
  rw [fit_of_walk hwalk, hvars]
  exact solution_ground hK hT hbounds hx.withoutInstanceKey

end Fit
end Wiring
