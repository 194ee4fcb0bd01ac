import Wiring.Proofs.Fit.Idempotent
import Wiring.Proofs.Fit.Template

namespace Wiring.Fit

open Ty Catalog UnionFind

variable {K : Catalog} {statics vars : List Classifier} {U : UnionFind} {b : U.Table}
  {s m : Substitution} {g r t u : Ty} {d p : Classifier}

/-- The type parameters of a type that are not static. -/
def openIn (K : Catalog) (statics : List Classifier) (t : Ty) : List Classifier :=
  (K.parametersIn t).filter fun p => !statics.contains p

structure Ground (K : Catalog) (statics : List Classifier) (t : Ty) : Prop where
  -- A type that can stand for a type parameter without being mistaken for its place: one with a
  -- name, that mentions no open type parameters and has neither null nor tags.
  named : t.isStar = false
  nullable : t.nullable = false
  tags : t.tags = []
  canonical : Canonical t
  closed : ∀ p ∈ K.parametersIn t, statics.contains p = true

/-- `s` gives each open type parameter of `g` a ground type within the upper bounds of the parameter. -/
def Supplies (K : Catalog) (statics : List Classifier) (g : Ty) (s : Substitution) : Prop :=
  ∀ p ∈ openIn K statics g, ∃ t, s.get? p = some t ∧ Ground K statics t ∧
    ∀ bound ∈ K.declaredSupertypes p, K.isSubtype t (bound.substitute s) = true

/-- What `s` binds besides these parameters is mentioned neither by `g` nor by their bounds. -/
structure Specializes (K : Catalog) (statics : List Classifier) (g : Ty) (s : Substitution) :
    Prop where
  ground : Supplies K statics g s
  only : ∀ c, s.contains c = true → (openIn K statics g).contains c = true ∨
    (¬ Mentions g c.key ∧
      ∀ p ∈ openIn K statics g, ∀ bound ∈ K.declaredSupertypes p, ¬ Mentions bound c.key)

/-! ### The variables of the fit -/

theorem mem_openIn : p ∈ openIn K statics t ↔
    p ∈ K.parametersIn t ∧ statics.contains p = false := by
  simp [openIn]

/-- Which classifiers are open parameters depends on their keys only. -/
theorem contains_openIn (hK : K.Coherent) : (openIn K statics t).contains d = true ↔
    Mentions t d.key ∧ K.isTypeParameter d = true ∧ statics.contains d = false := by
  rw [List.contains_iff_exists_mem_beq]
  constructor
  · rintro ⟨p, hp, hdp⟩
    have hk : d.key = p.key := Classifier.beq_iff_key_eq.1 hdp
    obtain ⟨hmem, hst⟩ := mem_openIn.1 hp
    obtain ⟨hpt, hparam⟩ := of_mem_parametersIn hmem
    rw [hK.isTypeParameter_eq hk, contains_congr hk]
    exact ⟨⟨p, hpt, hk.symm⟩, hparam, hst⟩
  · rintro ⟨⟨e, he, hk⟩, hparam, hst⟩
    rw [← hK.isTypeParameter_eq hk] at hparam
    obtain ⟨p, hp, hpe⟩ := exists_mem_parametersIn he hparam
    have hpd : p.key = d.key := hpe.trans hk
    refine ⟨p, mem_openIn.2 ⟨hp, ?_⟩, Classifier.beq_iff_key_eq.2 hpd.symm⟩
    rw [contains_congr hpd]
    exact hst

theorem Ground.filling (h : Ground K statics t) (hf : Free K statics vars) : Filling vars t where
  named := h.named
  nullable := h.nullable
  tags := h.tags
  distinct := h.canonical.distinct
  closed d hd := by
    refine Bool.eq_false_iff.2 fun hv => ?_
    obtain ⟨hparam, hst⟩ := hf d hv
    obtain ⟨p, hp, hk⟩ := exists_mem_parametersIn hd hparam
    have hstatic := h.closed p hp
    rw [contains_congr hk, hst] at hstatic
    cases hstatic

theorem Specializes.get (h : Specializes K statics g s)
    (hd : (openIn K statics g).contains d = true) : ∃ p t, p ∈ openIn K statics g ∧ p.key = d.key ∧
      s.get? d = some t ∧ Ground K statics t ∧
      ∀ bound ∈ K.declaredSupertypes p, K.isSubtype t (bound.substitute s) = true := by
  obtain ⟨p, hp, hdp⟩ := List.contains_iff_exists_mem_beq.1 hd
  have hk : d.key = p.key := Classifier.beq_iff_key_eq.1 hdp
  obtain ⟨t, ht, hground, hbounds⟩ := h.ground p hp
  exact ⟨p, t, hp, hk.symm, (s.get_congr hk).trans ht, hground, hbounds⟩

theorem Specializes.get_eq_none (h : Specializes K statics g s)
    (hd : (openIn K statics g).contains d = false) (hmention : Mentions g d.key ∨
      ∃ p ∈ openIn K statics g, ∃ bound ∈ K.declaredSupertypes p, Mentions bound d.key) :
    s.get? d = none := by
  refine Option.eq_none_iff_forall_ne_some.2 fun t ht => ?_
  have hbound : s.contains d = true := by
    rw [Substitution.contains, ht]
    rfl
  rcases h.only d hbound with hopen | ⟨hg, hbounds⟩
  · rw [hd] at hopen
    cases hopen
  · rcases hmention with hmention | ⟨p, hp, bound, hb, hmention⟩
    · exact hg hmention
    · exact hbounds p hp bound hb hmention

/-- Where variables are the open parameters of `g` as far as `g` mentions them, `s` fills them. -/
theorem Specializes.fills (h : Specializes K statics g s) (hK : K.Coherent)
    (hf : Free K statics vars)
    (hvars : ∀ d ∈ g.classifiers, K.isTypeParameter d = true → statics.contains d = false →
      vars.contains d = true) : ∀ d ∈ g.classifiers, Fills vars s d := by
  intro d hd
  cases ho : (openIn K statics g).contains d with
  | true =>
    obtain ⟨-, hparam, hst⟩ := (contains_openIn hK).1 ho
    obtain ⟨_, t, _, _, ht, hground, _⟩ := h.get ho
    exact Or.inl ⟨hvars d hd hparam hst, t, ht, hground.filling hf⟩
  | false =>
    refine Or.inr ⟨Bool.eq_false_iff.2 fun hv => ?_, h.get_eq_none ho (Or.inl ⟨d, hd, rfl⟩)⟩
    rw [(contains_openIn hK).2 ⟨⟨d, hd, rfl⟩, hf d hv⟩] at ho
    cases ho

/-- The variables of a fit of `g` to what `s` makes of it are the open parameters of `g`. -/
theorem Specializes.contains_variablesOf (h : Specializes K statics g s) (hK : K.Coherent)
    (d : Classifier) : (variablesOf K statics g (g.substitute s)).contains d =
      (openIn K statics g).contains d := by
  have hfree := free_variablesOf hK statics g (g.substitute s)
  have hfills := h.fills hK hfree fun d hd hp hst => Fit.contains_variablesOf hd hp hst
  rw [Bool.eq_iff_iff]
  constructor
  · intro hd
    obtain ⟨v, hv, hdv⟩ := List.contains_iff_exists_mem_beq.1 hd
    have hk : d.key = v.key := Classifier.beq_iff_key_eq.1 hdv
    rw [contains_congr hk]
    rw [contains_congr hk] at hd
    obtain ⟨hmem, hopen⟩ := of_mem_variablesOf hv
    rcases hmem with hmem | hmem
    · exact (contains_openIn hK).2 ⟨⟨v, (of_mem_parametersIn hmem).1, rfl⟩, hopen⟩
    · -- no variables are left after the substitution
      have hclosed := closed_substitute hfills v (of_mem_parametersIn hmem).1
      rw [hd] at hclosed
      cases hclosed
  · intro hd
    obtain ⟨⟨e, he, hk⟩, hparam, hst⟩ := (contains_openIn hK).1 hd
    rw [← contains_congr hk]
    rw [← hK.isTypeParameter_eq hk] at hparam
    rw [← contains_congr hk] at hst
    exact Fit.contains_variablesOf he hparam hst

/-! ### The solution of the fit -/

structure Recovers (K : Catalog) (statics : List Classifier) (g : Ty) (s m : Substitution) :
    Prop where
  -- What is recovered of `s`: the open parameters of `g` and nothing else are bound, to the values
  -- of `s` without their instance keys.
  bound : ∀ d, (openIn K statics g).contains d = true →
    m.get? d = (s.get? d).map Ty.withoutInstanceKey
  only : ∀ d, (openIn K statics g).contains d = false → m.get? d = none

/-- Bindings with a value for all variables of `g` recover what they record. -/
theorem recovers_readOff (hK : K.Coherent) (hb : Records s b)
    (hvars : ∀ d, vars.contains d = (openIn K statics g).contains d)
    (hlearned : ∀ d ∈ g.classifiers, vars.contains d = true → (U.value? b d).isSome = true) :
    Recovers K statics g s (readOff vars b) where
  bound d hd := by
    obtain ⟨⟨e, he, hk⟩, -⟩ := (contains_openIn hK).1 hd
    rw [← hvars] at hd
    rw [← contains_congr hk] at hd
    obtain ⟨t, ht⟩ := Option.isSome_iff_exists.1 (hlearned e he hd)
    obtain ⟨u, hu, rfl⟩ := hb.values e t ht
    rw [← Substitution.get_congr _ hk, ← s.get_congr hk, get_readOff_of_value hd ht, hu]
    rfl
  only d hd := by
    rw [← hvars] at hd
    refine Option.eq_none_iff_forall_ne_some.2 fun t ht => ?_
    obtain ⟨v, hv, hk, -⟩ := of_get_readOff ht
    rw [← contains_congr hk, List.contains_iff_exists_mem_beq.2 ⟨v, hv, BEq.rfl⟩] at hd
    cases hd

namespace Recovers

theorem contains_eq (hm : Recovers K statics g s m) (h : Specializes K statics g s)
    (d : Classifier) : m.contains d = (openIn K statics g).contains d := by
  cases ho : (openIn K statics g).contains d with
  | true =>
    obtain ⟨_, t, _, _, ht, _⟩ := h.get ho
    rw [Substitution.contains, hm.bound d ho, ht]
    rfl
  | false =>
    rw [Substitution.contains, hm.only d ho]
    rfl

/-- On what `g` and the bounds of its parameters mention, the two substitutions agree. -/
theorem rel (hm : Recovers K statics g s m) (h : Specializes K statics g s)
    (hmention : Mentions g d.key ∨
      ∃ p ∈ openIn K statics g, ∃ bound ∈ K.declaredSupertypes p, Mentions bound d.key) :
    Option.Rel Kin (m.get? d) (s.get? d) := by
  cases ho : (openIn K statics g).contains d with
  | true =>
    obtain ⟨_, t, _, _, ht, hground, _⟩ := h.get ho
    rw [hm.bound d ho, ht]
    exact Option.Rel.some (kin_withoutInstanceKey hground.canonical)
  | false =>
    rw [hm.only d ho, h.get_eq_none ho hmention]
    exact Option.Rel.none

theorem exhausted (hm : Recovers K statics g s m) (h : Specializes K statics g s)
    (hf : Free K statics (openIn K statics g)) : Exhausted m := by
  intro c t hc d hd
  refine hm.only d ?_
  cases ho : (openIn K statics g).contains c with
  | true =>
    obtain ⟨_, u, _, _, hu, hground, _⟩ := h.get ho
    rw [hm.bound c ho, hu] at hc
    cases hc
    exact (hground.filling hf).withoutInstanceKey.closed d hd
  | false =>
    rw [hm.only c ho] at hc
    cases hc

/-- The values are within the bounds under `m`, as they are under `s`. -/
theorem violatedBound_eq (hm : Recovers K statics g s m) (h : Specializes K statics g s)
    (hK : K.Coherent) (hD : K.DeclaresCanonical) (hp : m.get? p = some t) :
    violatedBound? K vars m p t = none := by
  cases ho : (openIn K statics g).contains p with
  | false =>
    rw [hm.only p ho] at hp
    cases hp
  | true =>
    obtain ⟨q, u, hq, hk, hu, hground, hbounds⟩ := h.get ho
    rw [hm.bound p ho, hu] at hp
    cases hp
    have hsubtype : ∀ bound ∈ K.declaredSupertypes p,
        K.isSubtype u.withoutInstanceKey (bound.substitute m) = true := by
      intro bound hbound
      rw [← hK.declaredSupertypes_eq hk] at hbound
      -- all that a bound mentions is replaced by `m` as by `s`, so the bound becomes the same
      have hsame : Kin (bound.substitute m) (bound.substitute s) :=
        (Kin.refl (hD q bound hbound)).substitute fun d hd =>
          hm.rel h (Or.inr ⟨q, hq, bound, hbound, d, hd, rfl⟩)
      rw [isSubtype_kin hK hD (kin_withoutInstanceKey hground.canonical) hsame]
      exact hbounds bound hbound
    unfold violatedBound?
    split
    · rfl
    · refine List.find?_eq_none.2 (List.forall_mem_map.2 fun bound hbound => ?_)
      rw [hsubtype bound hbound]
      simp

theorem checkBounds_eq (hm : Recovers K statics g s m) (h : Specializes K statics g s)
    (hK : K.Coherent) (hD : K.DeclaresCanonical) : checkBounds K vars m = .ok m := by
  refine checkBounds_eq_ok fun p t hmem => ?_
  exact hm.violatedBound_eq h hK hD (get_of_mem_bindings hmem)

end Recovers

/-! ### Fits -/

/-- A type in which tags are no type parameters, and neither type parameters nor top types have
arguments, is a template for what specializes it. -/
theorem Specializes.template (hs : Specializes K statics g s) (hK : K.Coherent)
    (hleaf : ∀ c, K.isTypeParameter c = true ∨ (K.flags c).top = true → K.typeParameters c = [])
    (hg : K.WellFormed g)
    (hproper : g.Everywhere fun t => ∀ tag ∈ t.tags, K.isTypeParameter tag.classifier = false) :
    Template K (variablesOf K statics g (g.substitute s)) s g where
  parameter v hv := (free_variablesOf hK statics g (g.substitute s) v hv).1
  canonical := canonical_of_wellFormed hg
  proper := hproper
  leaf := hg.imp fun t ht hnamed hplain => by
    have harity := ht.arity hnamed
    rw [hleaf _ hplain] at harity
    exact List.length_eq_zero_iff.1 harity
  fills := hs.fills hK (free_variablesOf hK statics g (g.substitute s)) fun _ hd hp hst =>
    Fit.contains_variablesOf hd hp hst

theorem exists_fit_eq (hK : K.Coherent) (hD : K.DeclaresCanonical)
    (hg : Template K (variablesOf K statics g (g.substitute s)) s g)
    (hs : Specializes K statics g s) :
    ∃ m, K.fit statics g (g.substitute s) = .ok m ∧ Recovers K statics g s m := by
  have hvars := hs.contains_variablesOf hK
  have hfree : Free K statics (openIn K statics g) := fun v hv =>
    free_variablesOf hK statics g (g.substitute s) v ((hvars v).trans hv)
  have hends := walk_depth_ne Bindings.byRank K (variablesOf K statics g (g.substitute s)) g
    (g.substitute s) (Nat.le_refl _)
  have hlearns : Learns _ s g.classifiers Bindings.byRank.start
    (walk K (variablesOf K statics g (g.substitute s))
      (depth K (variablesOf K statics g (g.substitute s)) g (g.substitute s)) .covariant g
      (g.substitute s) Bindings.byRank.start) := learns_walk hg records_start
  rcases hlearns with hdeep | ⟨b, hb, hrecords, -, hlearned⟩
  · exact absurd hdeep hends
  have hm := recovers_readOff hK hrecords hvars hlearned
  -- nothing is left to close, and the bounds are satisfied
  refine ⟨_, ?_, hm⟩
  rw [fit_of_walk hb, solution, (hm.exhausted hs hfree).close_eq, hm.checkBounds_eq hs hK hD]

/-- A type is fitted to what a substitution of its open parameters makes of it, and that recovers the
substitution: the same parameters are bound, to the same types but for instance keys, and the type
becomes the same but for these. -/
theorem fit_specialization (hK : K.Coherent) (hD : K.DeclaresCanonical)
    (hleaf : ∀ c, K.isTypeParameter c = true ∨ (K.flags c).top = true → K.typeParameters c = [])
    (hg : K.WellFormed g)
    (hproper : g.Everywhere fun t => ∀ tag ∈ t.tags, K.isTypeParameter tag.classifier = false)
    (hs : Specializes K statics g s) : ∃ m, K.fit statics g (g.substitute s) = .ok m ∧
      (∀ c, m.contains c = (openIn K statics g).contains c) ∧
      (∀ p ∈ openIn K statics g, (m.get? p).map keyless = (s.get? p).map keyless) ∧
      ((g.substitute m).keyless == (g.substitute s).keyless) = true := by
  obtain ⟨m, hfit, hm⟩ := exists_fit_eq hK hD (hs.template hK hleaf hg hproper) hs
  refine ⟨m, hfit, hm.contains_eq hs, fun p hp => ?_, ?_⟩
  · rw [hm.bound p (List.contains_iff_exists_mem_beq.2 ⟨p, hp, BEq.rfl⟩), Option.map_map]
    exact Option.map_congr fun t _ => keyless_withoutInstanceKey t
  · have hsame := (Kin.refl (canonical_of_wellFormed hg)).substitute fun d hd =>
      hm.rel hs (Or.inl ⟨d, hd, rfl⟩)
    exact hsame.same

def nestedBox : Ty where
  head := .named ⟨"Box", 0⟩
  arguments := [{ head := .named ⟨"T", 0⟩, nullable := true, tags := [box "T"] }]

def someInt : Substitution :=
  .ofList [(⟨"T", 0⟩, (Ty.of ⟨"Int", 0⟩).withInstanceKey (some 7))]

/-- What holds of the box, of its argument, of the tag and of `T` holds everywhere. -/
theorem everywhere_nestedBox {P : Ty → Prop} (hbox : P nestedBox)
    (hargument : ∀ a ∈ nestedBox.arguments, P a) (htag : P (box "T")) (hT : P (.of ⟨"T", 0⟩)) :
    nestedBox.Everywhere P := by
  have htags : (box "T").Everywhere P :=
    Everywhere.node htag (List.forall_mem_singleton.2
      (Everywhere.node hT (List.forall_mem_nil _) (List.forall_mem_nil _))) (List.forall_mem_nil _)
  refine Everywhere.node hbox (List.forall_mem_singleton.2 ?_) (List.forall_mem_nil _)
  exact Everywhere.node (List.forall_mem_singleton.1 hargument) (List.forall_mem_nil _)
    (List.forall_mem_singleton.2 htags)

theorem wellFormed_nestedBox : shelf.WellFormed nestedBox :=
  everywhere_nestedBox ⟨nofun, fun _ => rfl, List.Pairwise.nil⟩
    (List.forall_mem_singleton.2 ⟨nofun, fun _ => rfl, List.pairwise_singleton _ _⟩)
    ⟨nofun, fun _ => rfl, List.Pairwise.nil⟩ ⟨nofun, fun _ => rfl, List.Pairwise.nil⟩

theorem specializes_someInt : Specializes shelf [] nestedBox someInt where
  ground p hp := by
    have hopen : openIn shelf [] nestedBox = [⟨"T", 0⟩] := rfl
    obtain rfl := List.mem_singleton.1 (hopen ▸ hp)
    have hleaf : Canonical ((Ty.of ⟨"Int", 0⟩).withInstanceKey (some 7)) :=
      Everywhere.node List.Pairwise.nil (List.forall_mem_nil _) (List.forall_mem_nil _)
    refine ⟨_, rfl, ⟨rfl, rfl, rfl, hleaf, by decide⟩, fun bound hbound => ?_⟩
    obtain ⟨rfl, -⟩ := supertypes_shelf hbound
    decide +kernel
  only c hc := by
    have hopen : openIn shelf [] nestedBox = [⟨"T", 0⟩] := rfl
    have hbindings : someInt.bindings = [(⟨"T", 0⟩, _)] := rfl
    rw [Substitution.contains, Substitution.get?, hbindings, Substitution.lookup_bindings] at hc
    refine Or.inl ?_
    cases hk : c == ⟨"T", 0⟩ with
    | true => rw [hopen, List.contains_cons, hk, Bool.true_or]
    | false => simp [hk] at hc

/-- The integer is recovered from both places, without its producer. -/
theorem nestedBox_recovered : ∃ m,
    shelf.fit [] nestedBox (nestedBox.substitute someInt) = .ok m ∧
      (m.get? ⟨"T", 0⟩).map keyless = some (.of ⟨"Int", 0⟩) ∧
      ((nestedBox.substitute m).keyless == (nestedBox.substitute someInt).keyless) = true := by
  have hcanonical : shelf.DeclaresCanonical := fun c s hs => by
    obtain ⟨rfl, -⟩ := supertypes_shelf hs
    exact Everywhere.node List.Pairwise.nil (List.forall_mem_nil _) (List.forall_mem_nil _)
  have hleaf : ∀ c, shelf.isTypeParameter c = true ∨ (shelf.flags c).top = true →
      shelf.typeParameters c = [] := fun c =>
    single_shelf.entry_induction
      (P := fun e => e.flags.typeParameter = true ∨ e.flags.top = true → e.typeParameters = [])
      c (by simp) (by simp [shelf])
  have hproper : nestedBox.Everywhere fun t =>
      ∀ tag ∈ t.tags, shelf.isTypeParameter tag.classifier = false :=
    everywhere_nestedBox (List.forall_mem_nil _)
      (List.forall_mem_singleton.2 (List.forall_mem_singleton.2 rfl)) (List.forall_mem_nil _)
      (List.forall_mem_nil _)
  obtain ⟨m, hfit, -, hvalues, hsame⟩ := fit_specialization orderly_shelf.coherent hcanonical hleaf
    wellFormed_nestedBox hproper specializes_someInt
  exact ⟨m, hfit, hvalues ⟨"T", 0⟩ (List.mem_singleton_self _), hsame⟩

/-! ### A bound that mentions another parameter -/

def comparable (key : String) : Ty :=
  { head := .named ⟨"Comparable", 0⟩, arguments := [.of ⟨key, 0⟩] }

def scales : Catalog where
  entries := [
    ("Box", [{ typeParameters := [⟨"E", 0⟩] }]),
    ("Comparable", [{ typeParameters := [⟨"E", 0⟩] }]),
    ("E", [{ flags := { typeParameter := true } }]),
    ("Int", [{ supertypes := some [comparable "Int"] }]),
    ("T", [{ supertypes := some [comparable "U"],
             flags := { typeParameter := true } }]),
    ("U", [{ flags := { typeParameter := true } }])]

def weighed : Substitution :=
  .ofList [(⟨"T", 0⟩, .of ⟨"Int", 0⟩), (⟨"U", 0⟩, .of ⟨"Int", 0⟩)]

theorem single_scales : scales.Single := by decide

theorem supertypes_scales {c : Classifier} {s : Ty} (h : s ∈ scales.declaredSupertypes c) :
    ∃ key, s = comparable key :=
  single_scales.entry_induction
    (P := fun e => ∀ s ∈ e.supertypes.getD [], ∃ key, s = comparable key)
    c (by simp) (by simp [scales]) s h

/-- A box of integers does not fit a box of `T`, as nothing tells the fit what `U` is. -/
theorem bound_unrecovered : scales.Coherent ∧ scales.DeclaresCanonical ∧
    (∀ c, scales.isTypeParameter c = true ∨ (scales.flags c).top = true →
      scales.typeParameters c = []) ∧
    scales.WellFormed (box "T") ∧
    ((box "T").Everywhere fun t => ∀ tag ∈ t.tags, scales.isTypeParameter tag.classifier = false) ∧
    Supplies scales [] (box "T") weighed ∧
    scales.fit [] (box "T") ((box "T").substitute weighed) =
      .error (.bound ⟨"T", 0⟩ (.of ⟨"Int", 0⟩) (comparable "U")) := by
  have hleaf : ∀ x : Classifier, Canonical (.of x) := fun x =>
    Everywhere.node List.Pairwise.nil (List.forall_mem_nil _) (List.forall_mem_nil _)
  refine ⟨single_scales.coherent, fun c s hs => ?_, fun c => ?_, ?_, ?_, fun p hp => ?_, ?_⟩
  · obtain ⟨key, rfl⟩ := supertypes_scales hs
    exact Everywhere.node List.Pairwise.nil (List.forall_mem_singleton.2 (hleaf ⟨key, 0⟩))
      (List.forall_mem_nil _)
  · exact single_scales.entry_induction
      (P := fun e => e.flags.typeParameter = true ∨ e.flags.top = true → e.typeParameters = [])
      c (by simp) (by simp [scales])
  · exact Everywhere.node ⟨nofun, fun _ => rfl, List.Pairwise.nil⟩
      (List.forall_mem_singleton.2 (Everywhere.node ⟨nofun, fun _ => rfl, List.Pairwise.nil⟩
        (List.forall_mem_nil _) (List.forall_mem_nil _))) (List.forall_mem_nil _)
  · exact Everywhere.node (List.forall_mem_nil _) (List.forall_mem_singleton.2
      (Everywhere.node (List.forall_mem_nil _) (List.forall_mem_nil _) (List.forall_mem_nil _)))
      (List.forall_mem_nil _)
  · have hopen : openIn scales [] (box "T") = [⟨"T", 0⟩] := rfl
    obtain rfl := List.mem_singleton.1 (hopen ▸ hp)
    refine ⟨_, rfl, ⟨rfl, rfl, rfl, hleaf _, by decide⟩, fun bound hbound => ?_⟩
    have hbounds : scales.declaredSupertypes ⟨"T", 0⟩ = [comparable "U"] :=
      rfl
    obtain rfl := List.mem_singleton.1 (hbounds ▸ hbound)
    decide +kernel
  · rfl

end Wiring.Fit
