import Wiring.Proofs.Fit.Closed
import Wiring.Proofs.Fit.Wrapped
import Wiring.Proofs.Session.Gathering

namespace Wiring

open Ty Catalog

variable {K : Catalog} {statics : List Classifier} {w p : Classifier} {t u x ty ty' : Ty}

/-! ### Bare types -/

structure Ty.Bare (t : Ty) : Prop where
  -- No more than a classifier: applied to nothing, without tags and not nullable.
  arguments : t.arguments = []
  nullable : t.nullable = false
  tags : t.tags = []

theorem Ty.Bare.distinct (h : t.Bare) : Distinct t := by
  refine Everywhere.node ?_ (h.arguments ▸ List.forall_mem_nil _) (h.tags ▸ List.forall_mem_nil _)
  rw [DistinctAt, h.tags]
  exact List.nodup_nil

theorem Ty.Bare.parametersIn (h : x.Bare) (hx : x.isStar = false) :
    K.parametersIn x = if K.isTypeParameter x.classifier then [x.classifier] else [] := by
  obtain ⟨head, as, n, ts, k⟩ := x
  obtain ⟨rfl, rfl, rfl⟩ := h
  cases head with
  | star => cases hx
  | named c =>
    have hclassifier : Ty.classifier { head := .named c, instanceKey := k } = c := rfl
    simp only [Catalog.parametersIn, classifiers, allClassifiers, List.append_nil, hclassifier]
    cases hc : K.isTypeParameter c with
    | true => rw [List.filter_cons_of_pos hc]; rfl
    | false => rw [List.filter_cons_of_neg (by simp [hc])]; rfl

/-- A classifier by itself is the same type as the bare types of its key. -/
theorem Ty.compatible_of_iff (hx : x.isStar = false) :
    Compatible (.of p) x ↔ x.Bare ∧ x.key = p.key := by
  constructor
  · intro h
    cases h with
    | star h =>
      rw [hx] at h
      rcases h with ⟨-, h⟩ | ⟨-, h | h⟩ <;> cases h
    | node left right key nullable arguments tags =>
      refine ⟨⟨List.forall₂_nil_left_iff.1 arguments, nullable.symm, ?_⟩, key.symm⟩
      -- a tag would need a counterpart
      refine List.eq_nil_iff_forall_not_mem.2 fun tag htag => ?_
      have hrel := tags tag.classifier
      cases hfound : x.tag? tag.classifier with
      | none => exact lookupTag_eq_none_iff.1 hfound tag htag rfl
      | some found =>
        rw [hfound] at hrel
        cases hrel
  · rintro ⟨⟨harguments, hnullable, htags⟩, hk⟩
    refine Agree.node rfl hx hk.symm hnullable.symm (harguments ▸ .nil) fun c => ?_
    rw [tag_eq_lookupTag, tag_eq_lookupTag, htags]
    exact .none

/-! ### Types of evidence -/

def Catalog.erased (K : Catalog) (t : Ty) : Bool :=
  -- A type parameter, tagged or nullable perhaps, of which the argument is not known when the
  -- program runs.
  (K.flagsOf t).typeParameter && !(K.flagsOf t).reified

structure Catalog.Attests (K : Catalog) (ty t : Ty) : Prop where
  -- `ty` is a type of evidence of `t`, and of no other kind.
  function : (K.flagsOf ty).function = false
  collection : (K.flagsOf ty).collection = false
  witness : (K.flagsOf ty).witness = true
  arguments : ty.arguments = [t]

namespace Catalog

theorem erased_congr (hK : K.Coherent) (ht : (t == u) = true) : K.erased t = K.erased u := by
  rw [erased, erased, (likeness_beq K).flagsOf_eq hK ht]

theorem attests_wrap (hw : K.flags w = { witness := true }) (t : Ty) : K.Attests (t.wrap w) t := by
  have hflags : K.flagsOf (t.wrap w) = { witness := true } := hw
  constructor <;> first | rw [hflags] | rfl

theorem Attests.isStar (h : K.Attests ty t) : ty.isStar = false := by
  obtain ⟨head, as, n, ts, k⟩ := ty
  cases head with
  | star => exact absurd h.witness Bool.false_ne_true
  | named c => rfl

/-- Equal types are types of evidence of equal types. -/
theorem Attests.congr (h : K.Attests ty t) (hK : K.Coherent) (ht : (ty' == ty) = true) :
    ∃ t', K.Attests ty' t' ∧ (t' == t) = true := by
  have hflags : K.flagsOf ty' = K.flagsOf ty := (likeness_beq K).flagsOf_eq hK ht
  have harguments := (parts_of_beq ht).arguments
  rw [h.arguments] at harguments
  obtain ⟨t', _, he, hnil, heq⟩ := List.forall₂_cons_right_iff.1 harguments
  rw [List.forall₂_nil_right_iff.1 hnil] at heq
  exact ⟨t', ⟨hflags ▸ h.function, hflags ▸ h.collection, hflags ▸ h.witness, heq⟩, he⟩

end Catalog

/-! ### Fits -/

namespace Fit

/-- What is wrapped alike suits each other just as what is inside does. -/
theorem suits_wrap_iff (hw : (K.flags w).top = false) {key : Option Nat} :
    Suits K .covariant ((t.wrap w).withInstanceKey key) (u.wrap w) ↔ Compatible t u := by
  have hself : viewFor? K .covariant ((t.wrap w).withInstanceKey key) (u.wrap w) =
      some ((t.wrap w).withInstanceKey key) := view_self rfl
  constructor
  · rintro (h | h | h)
    · cases h
    · cases h
    · obtain ⟨-, view, hview, harguments⟩ := h.view.resolve_left fun htop => by
        simp [flagsOf, wrap, hw] at htop
      cases hself.symm.trans hview
      exact (List.forall₂_cons.1 harguments).1
  · intro h
    exact Or.inr (Or.inr ⟨rfl, List.forall_mem_nil _, Or.inr ⟨List.forall_mem_nil _, _, hself,
      .cons h .nil⟩⟩)

theorem static_wrap (hw : K.isTypeParameter w = false) (key : Option Nat)
    (ht : ∀ q ∈ K.parametersIn t, statics.contains q = true) :
    ∀ q ∈ K.parametersIn ((t.wrap w).withInstanceKey key), statics.contains q = true := by
  intro q hq
  obtain ⟨hmem, hparameter⟩ := of_mem_parametersIn hq
  have hall : ((t.wrap w).withInstanceKey key).classifiers = w :: t.classifiers :=
    classifiers_wrap w t
  rw [hall] at hmem
  rcases List.mem_cons.1 hmem with rfl | hmem
  · rw [hw] at hparameter
    cases hparameter
  · obtain ⟨r, hr, hk⟩ := exists_mem_parametersIn hmem hparameter
    rw [← contains_congr hk]
    exact ht r hr

theorem variablesOf_evidence (hw : K.isTypeParameter w = false) (hp : statics.contains p = true)
    (hstatic : ∀ q ∈ K.parametersIn x, statics.contains q = true) (key : Option Nat) :
    variablesOf K statics (((Ty.of p).wrap w).withInstanceKey key) (x.wrap w) = [] := by
  refine variablesOf_eq_nil (static_wrap hw key ?_) (static_wrap hw none hstatic)
  intro q hq
  obtain rfl : q = p := by simpa [of, classifiers, allClassifiers] using (of_mem_parametersIn hq).1
  exact hp

end Fit

/-! ### Scopes of evidence -/

structure Declaration.Evidences (d : Declaration) (w p : Classifier) : Prop where
  -- The declaration is evidence of `p`: it gives `w<p>` and asks for nothing.
  ty : d.ty = (Ty.of p).wrap w
  parameters : d.parameters = []
  typeParameters : d.typeParameters = []

structure Producer.Evidences (q : Producer) (w p : Classifier) : Prop where
  -- The producer is evidence of `p`: it gives `w<p>` and asks for nothing.
  ty : ∃ key, q.ty = ((Ty.of p).wrap w).withInstanceKey key
  parameters : q.parameterTypes = []
  generic : q.declaration.typeParameters = []

section Evidence

variable {E : Environment} {d e : Declaration} {q : Producer} {ps : List Classifier}

/-- Evidence brings nothing along if its classifier has no members. -/
theorem Declaration.Evidences.alone (h : d.Evidences w p) (hw : E.catalog.flags w = { witness := true })
    (hmembers : E.host.membersOf w = []) : Expansion.Alone E (.ofDeclaration d) where
  chain := Nat.zero_le _
  rule := by
    have hnone : d.spreadConstraint? E.catalog = none := by
      unfold Declaration.spreadConstraint?
      rw [h.typeParameters]
      cases d.spreadParameter <;> rfl
    have hdeclaration : (Producer.ofDeclaration d).declaration = d := rfl
    rw [Producer.isRule, hdeclaration, hnone]
  brought key := by
    have hty : ((Producer.ofDeclaration d).withType
        ((Producer.ofDeclaration d).ty.withInstanceKey key)).ty =
          ((Ty.of p).wrap w).withInstanceKey key := congrArg (withInstanceKey · key) h.ty
    have hflags : E.catalog.flagsOf (((Ty.of p).wrap w).withInstanceKey key) = { witness := true } :=
      hw
    have hclassifier : (((Ty.of p).wrap w).withInstanceKey key).classifier = w := rfl
    rw [Producer.brought, Producer.members, liftedResult?, hty, hflags, hclassifier, hmembers]
    exact ite_self _

/-- Evidence of different type parameters is not the same. -/
theorem Declaration.Evidences.identity_ne {p' : Classifier} (hd : d.Evidences w p)
    (he : e.Evidences w p') (hp : (p == p') = false) :
    ((Producer.ofDeclaration e).identity == (Producer.ofDeclaration d).identity) = false := by
  refine Bool.eq_false_iff.2 fun hsame => ?_
  obtain ⟨-, hrest⟩ := Bool.and_eq_true_iff.1 hsame
  obtain ⟨-, hrest⟩ := Bool.and_eq_true_iff.1 hrest
  have htypes : (e.ty.withoutInstanceKey == d.ty.withoutInstanceKey) = true :=
    (Bool.and_eq_true_iff.1 hrest).1
  rw [hd.ty, he.ty] at htypes
  have hparameters : (Ty.of p' == Ty.of p) = true := (wrap_beq_wrap w _ _).symm.trans htypes
  have hsame : (p' == p) = true := (parts_of_beq hparameters).head
  rw [BEq.symm hsame] at hp
  cases hp

theorem Declaration.Evidences.stored (hd : d.Evidences w p)
    (hq : Expansion.StoredAs q (.ofDeclaration d)) : q.Evidences w p ∧ q.declaration = d := by
  obtain ⟨key, rfl⟩ := hq
  refine ⟨⟨⟨key, congrArg (withInstanceKey · key) hd.ty⟩, ?_, hd.typeParameters⟩, rfl⟩
  exact congrArg (List.map _) hd.parameters

end Evidence

/-! ### What is found -/

namespace Session

variable {V : Vocabulary} {E : Environment} {S S' : Session} {scope : ScopeId} {ps : List Classifier}
  {q : Producer} {found : List InjectableId} {c : InjectableId} {made : Option InjectableId}

structure EvidenceOf (E : Environment) (S : Session) (scope : ScopeId) (w : Classifier)
    (ps : List Classifier) : Prop where
  -- What is in sight in a scope is evidence of each of `ps`, one piece for each. These are type
  -- parameters that are static there. All of the evidence may be used, and what a session makes
  -- too.
  visible : List.Forall₂ (fun o p => o.2.Evidences w p ∧
    E.host.canCall (S.scope scope).callContext o.2.declaration.callContext = true)
    (S.visibleIn (S.ancestors scope)) ps
  static : ∀ p ∈ ps, E.catalog.isTypeParameter p = true ∧
    (S.scope scope).statics.contains p = true
  distinct : DistinctKeys ps
  callable : E.host.canCall (S.scope scope).callContext .default = true

/-- A scope at the top that declares evidence and nothing else is such a scope. -/
theorem evidenceOf_build (hw : E.catalog.flags w = { witness := true })
    (hmembers : E.host.membersOf w = []) {position : Position} (hroot : position.parent = none)
    (hcallable : E.host.canCall position.callContext .default = true)
    (hdeclared : List.Forall₂ (fun d p => d.Evidences w p ∧
      E.host.canCall position.callContext d.callContext = true) position.declarations ps)
    (hps : DistinctKeys ps) (hstatic : ∀ p ∈ ps, E.catalog.isTypeParameter p = true ∧
      position.typeParameters.contains p = true) (S : Session) :
    EvidenceOf E ((build E position).run S).2 S.scopes.size w ps := by
  obtain ⟨s, n, y, hrun, henclosing, hcontext, hstatics, hexpands, hinjectables⟩ :=
    run_build_top hroot S
  have hscope : ((build E position).run S).2.scope S.scopes.size = s := by
    rw [hrun]
    exact getD_push_size _ _ _
  -- evidence brings nothing along, so the declarations are stored one after the other
  have hstored : List.Forall₂ (fun q d => Expansion.StoredAs q (.ofDeclaration d)) s.injectables
      position.declarations := by
    rw [hinjectables]
    apply hexpands.alone rfl
    · intro d hd
      obtain ⟨p, -, hevidence, -⟩ := exists_mem_of_forall₂ hdeclared hd
      exact hevidence.alone hw hmembers
    · exact pairwise_of_forall₂ hdeclared (fun _ _ _ _ hd he hp => hd.1.identity_ne he.1 hp) hps
  have hvisible : ((build E position).run S).2.visibleIn
      (((build E position).run S).2.ancestors S.scopes.size) =
        s.injectables.map fun q => (S.scopes.size, q) := by
    rw [ancestors, hscope, henclosing]
    simp only [visibleIn, List.reverse_singleton, List.flatMap_singleton, hscope]
  -- what is visible, that the parameters are static, and that the scope may be called in itself
  refine ⟨?_, fun p hp => ?_, hps, ?_⟩
  · rw [hvisible, hscope, hcontext]
    refine List.forall₂_map_left_iff.2 (forall₂_trans_of ?_ hstored hdeclared)
    rintro q d p hq ⟨hevidence, hcall⟩
    obtain ⟨hq, hdeclaration⟩ := hevidence.stored hq
    exact ⟨hq, hdeclaration.symm ▸ hcall⟩
  · obtain ⟨own, hfold, hown, -⟩ := exists_own_statics position.typeParameters []
    rw [hscope, hstatics, hfold, List.nil_append, hown]
    exact ⟨(hstatic p hp).1, by rw [(hstatic p hp).2]; rfl⟩
  · rw [hscope, hcontext]
    exact hcallable

structure Proves (S : Session) (E : Environment) (scope : ScopeId) (c : InjectableId) : Prop where
  -- The injectable is a piece of evidence that may be used in the scope.
  lt : c < S.injectables.size
  made : ∃ q, (S.injectable c).form = .produced q ∧ q.parameterTypes = [] ∧
    q.declaration.typeParameters = [] ∧
    E.host.canCall (S.scope scope).callContext q.declaration.callContext = true

/-- Where all type parameters are static, evidence of one of them is offered where evidence of the same
one by itself is wanted. -/
theorem offer_evidence (hq : q.Evidences w p) (hw : E.catalog.flags w = { witness := true })
    (hx : x.isStar = false) (hp : statics.contains p = true)
    (hstatic : ∀ q ∈ E.catalog.parametersIn x, statics.contains q = true) :
    (x.Bare ∧ x.key = p.key → offer? E (x.wrap w) statics q = some q) ∧
      (¬ (x.Bare ∧ x.key = p.key) → offer? E (x.wrap w) statics q = none) := by
  obtain ⟨key, hty⟩ := hq.ty
  have hkey : (x.wrap w).instanceKey = none := rfl
  have htop : (E.catalog.flags w).top = false := by rw [hw]
  -- no variables are left, so a fit is a comparison, and it binds nothing
  have hvars : Fit.variablesOf E.catalog statics q.ty (x.wrap w) = [] := by
    rw [hty]
    exact Fit.variablesOf_evidence (by rw [isTypeParameter, hw]) hp hstatic key
  have hsuits : Fit.Suits E.catalog .covariant q.ty (x.wrap w) ↔ x.Bare ∧ x.key = p.key := by
    rw [hty, Fit.suits_wrap_iff htop, compatible_of_iff hx]
  rw [offer?, if_pos (Or.inl hkey)]
  constructor
  · rintro h
    have hd : Distinct (x.wrap w) := by
      refine Everywhere.node List.nodup_nil (List.forall_mem_singleton.2 ?_) (List.forall_mem_nil _)
      exact h.1.distinct
    rw [Fit.fit_eq hvars (hsuits.2 h) hd]
    rfl
  · intro h
    cases hfit : E.catalog.fit statics q.ty (x.wrap w) with
    | ok m => exact absurd (hsuits.1 (Fit.suits_of_fit hvars hfit).1) h
    | error reason => rfl

/-- Of evidence of different type parameters one piece is offered, or none. -/
theorem offersIn_evidence {scopes : List ScopeId} {R : ScopeId × Producer → Classifier → Prop}
    (h : List.Forall₂ R (S.visibleIn scopes) ps) (hps : DistinctKeys ps)
    (hoffer : ∀ o, ∀ p ∈ ps, R o p → (x.Bare ∧ x.key = p.key → offer? E ty statics o.2 = some o.2) ∧
      (¬ (x.Bare ∧ x.key = p.key) → offer? E ty statics o.2 = none)) :
    (x.Bare ∧ ps.contains x.classifier = true → ∃ o p, R o p ∧
      S.offersIn E ty statics scopes = [o]) ∧
    (¬ (x.Bare ∧ ps.contains x.classifier = true) → S.offersIn E ty statics scopes = []) := by
  rw [offersIn_eq]
  generalize S.visibleIn scopes = visible at h ⊢
  induction h with
  | nil => exact ⟨fun h => by simp at h, fun _ => rfl⟩
  | @cons o p visible ps ho hrest ih =>
    obtain ⟨hp, hps⟩ := List.pairwise_cons.1 hps
    obtain ⟨ihone, ihnone⟩ := ih hps fun o p hp => hoffer o p (List.mem_cons_of_mem _ hp)
    obtain ⟨hsome, hnone⟩ := hoffer o p (List.mem_cons_self ..) ho
    have hk : (x.classifier == p) = true ↔ x.key = p.key := Classifier.beq_iff_key_eq
    rw [List.contains_cons, Bool.or_eq_true, hk]
    by_cases hx : x.Bare ∧ x.key = p.key
    · -- what comes behind is evidence of other type parameters
      have hothers : ¬ (x.Bare ∧ ps.contains x.classifier = true) := by
        rintro ⟨-, hmem⟩
        obtain ⟨p', hp', hk'⟩ := List.contains_iff_exists_mem_beq.1 hmem
        have hsame : (p == p') = true := BEq.trans (BEq.symm (hk.2 hx.2)) hk'
        rw [hp p' hp'] at hsame
        cases hsame
      refine ⟨fun _ => ⟨o, p, ho, ?_⟩, fun h => absurd ⟨hx.1, Or.inl hx.2⟩ h⟩
      rw [List.filterMap_cons_some (b := o) (by rw [hsome hx]; rfl), ihnone hothers]
    · have hiff : x.Bare ∧ (x.key = p.key ∨ ps.contains x.classifier = true) ↔
          x.Bare ∧ ps.contains x.classifier = true :=
        and_congr_right fun hbare => or_iff_right fun hk => hx ⟨hbare, hk⟩
      rw [hiff, List.filterMap_cons_none (by rw [hnone hx]; rfl)]
      exact ⟨ihone, ihnone⟩

theorem EvidenceOf.mono (h : EvidenceOf E S scope w ps) (hS : S.Extends S') (hs : Sound V E S)
    (hscope : scope < S.scopes.size) : EvidenceOf E S' scope w ps := by
  have hvisible : S'.visibleIn (S'.ancestors scope) = S.visibleIn (S.ancestors scope) := by
    rw [hS.ancestors hscope, visibleIn_of_grows hS (lt_of_mem_ancestors hs.nested hscope)]
  have hsame := hS.scope scope hscope
  constructor
  · rw [hvisible, hsame]
    exact h.visible
  · rw [hsame]
    exact h.static
  · exact h.distinct
  · rw [hsame]
    exact h.callable

/-- Evidence is found for a static type parameter by itself if there is some, and for nothing else. -/
theorem EvidenceOf.lookup (h : EvidenceOf E S scope w ps) (hw : E.catalog.flags w = { witness := true })
    (hl : Lists E S (S.ancestors scope) ty (S.scope scope).statics found)
    (ht : (ty == x.wrap w) = true) (hx : x.isStar = false)
    (hstatic : ∀ q ∈ E.catalog.parametersIn x, (S.scope scope).statics.contains q = true) :
    (x.Bare ∧ ps.contains x.classifier = true → ∃ c, found = [c] ∧ S.Proves E scope c) ∧
      (¬ (x.Bare ∧ ps.contains x.classifier = true) → found = []) := by
  have hexactly := hl.exactly _ _ ht BEq.rfl
  obtain ⟨hone, hnone⟩ := offersIn_evidence h.visible h.distinct fun o p hp ho =>
    offer_evidence ho.1 hw hx (h.static p hp).2 hstatic
  constructor
  · intro hevident
    obtain ⟨o, p, ⟨hevidence, hcall⟩, hoffers⟩ := hone hevident
    rw [hoffers] at hexactly
    obtain ⟨c, _, hc, hnil, rfl⟩ := List.forall₂_cons_right_iff.1 hexactly
    cases List.forall₂_nil_right_iff.1 hnil
    obtain ⟨-, q, hform, hmatch⟩ := hc
    refine ⟨c, rfl, hl.known c (List.mem_singleton_self c), q, hform, ?_, ?_, ?_⟩
    · have htypes := hmatch.parameterTypes
      rw [hevidence.parameters] at htypes
      exact List.forall₂_nil_right_iff.1 htypes
    · rw [hmatch.declaration, hevidence.generic]
    · rw [hmatch.declaration]
      exact hcall
  · intro hnot
    rw [hnone hnot] at hexactly
    exact List.forall₂_nil_right_iff.1 hexactly

/-! ### What is made -/

inductive Vouches (S : Session) (E : Environment) (scope : ScopeId) (ty t : Ty) :
    Option InjectableId → Prop
  -- What a session has for evidence of `t`: a witness, unless `t` is a type parameter that is not
  -- reified.
  | nothing (h : E.catalog.erased t = true) : Vouches S E scope ty t none
  | witness {c : InjectableId} {ty' : Ty} (h : E.catalog.erased t = false)
      (hc : c < S.injectables.size)
      (hform : S.injectable c = { owner := scope, form := .witness ty' })
      (ht : (ty' == ty) = true) : Vouches S E scope ty t (some c)

theorem Vouches.mono (h : S.Vouches E scope ty t made) (hS : S.Extends S') :
    S'.Vouches E scope ty t made := by
  cases h with
  | nothing h => exact .nothing h
  | witness h hc hform ht =>
    exact .witness h (hS.lt_injectables hc) ((hS.injectable _ hc).trans hform) ht

theorem Vouches.congr (hK : E.catalog.Coherent) (h : S.Vouches E scope ty t made)
    (ht : (ty == ty') = true) (hu : (u == t) = true) : S.Vouches E scope ty' u made := by
  have herased := erased_congr hK hu
  cases h with
  | nothing h => exact .nothing (herased.trans h)
  | witness h hc hform hty => exact .witness (herased.trans h) hc hform (BEq.trans hty ht)

def Vouched (E : Environment) (S : Session) : Prop :=
  ∀ e ∈ S.memo.framework, ∀ t, E.catalog.Attests e.1.2 t → S.Vouches E e.1.1 e.1.2 t e.2

theorem vouched_empty : Vouched E {} :=
  List.forall_mem_nil _

theorem Vouched.grow (h : Vouched E S) (hS : S.Extends S')
    (hsame : S'.memo.framework = S.memo.framework) : Vouched E S' :=
  fun e he t ht => (h e (hsame ▸ he) t ht).mono hS

/-- The form of what is made for a type of evidence. -/
theorem synthesize_attests (h : E.catalog.Attests ty t) (scope : ScopeId) :
    synthesize? E scope ty = pure (if E.catalog.erased t then none else some (.witness ty)) := by
  unfold synthesize?
  dsimp only
  rw [h.function, h.arguments, h.collection, h.witness]
  rfl

/-- What is right for a type of evidence may be remembered. -/
theorem Vouched.remember (h : Vouched E S)
    (hmade : ∀ t, E.catalog.Attests ty t → S.Vouches E scope ty t made) :
    Obeys (Vouched E) S (do
        Session.remember fun memo =>
          { memo with framework := ((scope, ty), made) :: memo.framework }
        pure made)
      fun made S' => ∀ t, E.catalog.Attests ty t → S'.Vouches E scope ty t made := by
  have hgrows : S.Extends { S with memo := { S.memo with
      framework := ((scope, ty), made) :: S.memo.framework } } :=
    Extends.of_same rfl rfl fun _ _ => id
  refine ⟨hgrows, ?_, fun t ht => (hmade t ht).mono hgrows⟩
  exact List.forall_mem_cons.2 ⟨fun t ht => (hmade t ht).mono hgrows,
    fun e he t ht => (h e he t ht).mono hgrows⟩

/-- What is given for a type of evidence is right. -/
theorem Vouched.framework (hS : Vouched E S) (hK : E.catalog.Coherent) (scope : ScopeId)
    (ht : E.catalog.Attests ty t) : Obeys (Vouched E) S (framework? E scope ty) fun made S' =>
      ty.instanceKey = none → S'.Vouches E scope ty t made := by
  -- it is a type of evidence of nothing else
  have hmade : ∀ {S : Session} {made}, S.Vouches E scope ty t made →
      ∀ u, E.catalog.Attests ty u → S.Vouches E scope ty u made := by
    intro S made h u hu
    obtain rfl : u = t := (List.cons.inj (hu.arguments.symm.trans ht.arguments)).1
    exact h
  unfold framework?
  split
  · next hnothing =>
    refine Obeys.pure hS fun hkey => ?_
    rw [hkey, ht.isStar] at hnothing
    cases hnothing
  · apply Obeys.get
    split
    · next known hknown =>
      obtain ⟨⟨⟨scope', ty'⟩, made⟩, he, hk, rfl⟩ := mem_of_lookup hknown
      obtain ⟨hsame, hty⟩ := of_beq_pair (k := ty) (l := ty') hk
      subst hsame
      -- the entry may have been made for an equal type
      obtain ⟨u, hu, hut⟩ := ht.congr hK (BEq.symm hty)
      exact Obeys.pure hS fun _ => (hS _ he u hu).congr hK (BEq.symm hty) (BEq.symm hut)
    · rw [synthesize_attests ht, pure_bind]
      cases herased : E.catalog.erased t with
      | true => exact (hS.remember (hmade (.nothing herased))).imp fun _ _ _ _ h _ => h t ht
      | false =>
        let i : Injectable := { owner := scope, form := .witness ty }
        let S₁ : Session := { S with injectables := S.injectables.push i }
        have h₁ : S.Extends S₁ := extends_pushInjectable S i
        have hself : S₁.injectable S.injectables.size = i := getD_push_size _ _ _
        have hpush : Obeys (Vouched E) S (some <$> pushInjectable i) fun made S' =>
            made = some S.injectables.size ∧ S' = S₁ := ⟨h₁, hS.grow h₁ rfl, rfl, rfl⟩
        apply hpush.bind
        rintro _ _ _ hS₁ ⟨rfl, rfl⟩
        have hwitness : S₁.Vouches E scope ty t (some S.injectables.size) :=
          .witness herased (lt_size_push _ _) hself BEq.rfl
        exact (hS₁.remember (hmade hwitness)).imp fun _ _ _ _ h _ => h t ht

/-- The table is kept, whatever the type is. -/
theorem vouched_framework (hK : E.catalog.Coherent) (scope : ScopeId) (ty : Ty)
    (hS : Vouched E S) : Obeys (Vouched E) S (framework? E scope ty) fun _ _ => True := by
  by_cases hattests : ∃ t, E.catalog.Attests ty t
  · obtain ⟨t, ht⟩ := hattests
    exact (hS.framework hK scope ht).imp fun _ _ _ _ _ => trivial
  · have hother : ∀ t, ¬ E.catalog.Attests ty t := fun t ht => hattests ⟨t, ht⟩
    refine framework_keeps ?_ ?_ scope ty ?_ hS
    · exact fun i hS => hS.grow (extends_pushInjectable _ i) rfl
    · exact fun _ hS => hS.grow (Extends.of_same rfl rfl fun _ _ => id) rfl
    · exact fun _ hS => (hS.remember fun t ht => absurd ht (hother t)).keeps

end Session

/-! ### What a witness asks for -/

def Catalog.unreified (K : Catalog) (t : Ty) : List Classifier :=
  (K.parametersIn t).filter fun p => !(K.flags p).reified

structure AsksFor (w : Classifier) (request : Request) (p : Classifier) : Prop where
  -- The request is for evidence of the type parameter, and there is no default for it.
  required : request.required = true
  ty : (request.ty == (Ty.of p).wrap w) = true

/-- By itself a classifier needs evidence if it is such a type parameter. -/
theorem Ty.Bare.mem_unreified_iff (h : x.Bare) (hx : x.isStar = false) :
    p ∈ K.unreified x ↔ K.erased x = true ∧ p = x.classifier := by
  rw [unreified, h.parametersIn hx, erased, flagsOf_of_named hx, isTypeParameter]
  cases (K.flags x.classifier).typeParameter with
  | false => simp
  | true =>
    rw [if_pos rfl, List.mem_filter, List.mem_singleton, Bool.true_and, and_comm]
    exact and_congr_left fun hp => by rw [hp]

theorem forall₂_partRequests (callable : String) (parts : List (String × Ty)) :
    List.Forall₂ (fun r part => r.required = true ∧ r.ty = part.2)
      (Injectable.partRequests callable parts) parts := by
  refine List.forall₂_iff_get.2 ⟨List.length_mapIdx, fun i _ _ => ?_⟩
  simp [Injectable.partRequests]

/-- A witness asks for evidence of all type parameters inside that are not reified. -/
theorem asksFor_dependencies {i : Injectable} (hK : K.Coherent) (hform : i.form = .witness ty)
    (ht : (ty == x.wrap w) = true) :
    List.Forall₂ (AsksFor w) (i.dependencies K) (K.unreified x) := by
  obtain ⟨v, x', rfl, hv, hx'⟩ := exists_wrap_of_beq ht
  have hsame : SameKeys (Injectable.witnessed K (x'.wrap v)) (K.unreified x) :=
    ((likeness_beq K).sameKeys_parametersIn hK hx').filter fun _ _ hk => by rw [hK.flags_eq hk]
  have hparts : List.Forall₂ (fun part p => (part.2 == (Ty.of p).wrap w) = true)
      ((Injectable.witnessed K (x'.wrap v)).map fun q => (q.key, (Ty.of q).wrap v))
      (K.unreified x) := by
    refine List.forall₂_map_left_iff.2 (hsame.imp fun q p hk => ?_)
    have hwrapper : (Head.named v == Head.named w) = true := Classifier.beq_iff_key_eq.2 hv
    have hargument : (Head.named q == Head.named p) = true := Classifier.beq_iff_key_eq.2 hk
    simp [beq_eq, wrap, of, hwrapper, hargument]
  rw [Injectable.dependencies, hform]
  refine forall₂_trans_of ?_ (forall₂_partRequests _ _) hparts
  rintro r part p ⟨hrequired, hty⟩ hpart
  exact ⟨hrequired, hty ▸ hpart⟩

end Wiring
