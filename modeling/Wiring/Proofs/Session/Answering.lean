import Wiring.Proofs.Session.Invariants
import Wiring.Proofs.Session.Typing

namespace Wiring.Session

open Catalog

variable {E : Environment} {S S' : Session} {scope : ScopeId} {c : InjectableId} {ty : Ty}
  {statics : List Classifier}

/-! ### Additions -/

theorem obeys_pushInjectable (hS : Typed E S) (i : Injectable) :
    Obeys (Typed E) S (pushInjectable i) fun c S' =>
      c < S'.injectables.size ∧ S'.injectable c = i := by
  have hgrows := extends_pushInjectable S i
  exact ⟨hgrows, hS.change { grows := hgrows }, lt_size_push _ _, getD_push_size _ _ _⟩

/-- A remembered thing is added to what is remembered. -/
theorem obeys_remember (hS : Typed E S) {f : Memo → Memo}
    (hc : TypedChange E S { S with memo := f S.memo }) :
    Obeys (Typed E) S (remember f) fun _ _ => True :=
  ⟨hc.grows, hS.change hc, trivial⟩

/-- What building does: one scope is added, with the expansion of the declarations. -/
theorem run_build (E : Environment) (position : Position) (S : Session) : ∃ s n,
    (build E position).run S =
      (S.scopes.size, { S with scopes := S.scopes.push s, nextInstanceKey := n }) ∧
    s.injectables = (Expansion.ofDeclarations E s.statics (S.inherited s.enclosing)
      position.declarations S.nextInstanceKey).injectables ∧
    s.spreading = (Expansion.ofDeclarations E s.statics (S.inherited s.enclosing)
      position.declarations S.nextInstanceKey).spreading :=
  ⟨_, _, rfl, rfl, rfl⟩

/-- The static parameters of a new scope are those of its parent and its own. -/
theorem statics_build (E : Environment) (position : Position) (S : Session) :
    (((build E position).run S).2.scope S.scopes.size).statics =
      position.typeParameters.foldl
        (fun statics c => if statics.contains c then statics else statics ++ [c])
        (match position.parent with
          | some parent => (S.scope parent).statics
          | none => []) :=
  congrArg Scope.statics (getD_push_size S.scopes _ default)

theorem inherits_regular (hS : Typed E S) (scopes : List ScopeId) :
    Expansion.Inherits E.catalog.RegularProducer (S.inherited scopes) where
  rules := by
    intro p hp
    obtain ⟨id, _, hp⟩ := List.mem_flatMap.1 hp
    exact (hS.scopes id).spreading p hp
  candidates := by
    intro p hp
    obtain ⟨id, _, hp⟩ := List.mem_flatMap.1 hp
    exact (hS.scopes id).injectables p hp

/-- A scope of regular declarations may be built if fits with its static parameters are meaningful. -/
theorem obeys_build (hE : RegularHost E.catalog E.host) (hS : Typed E S) {position : Position}
    (hd : ∀ d ∈ position.declarations, RegularDeclaration E.catalog d ∧ d.isValid E.catalog = true)
    (ho : E.catalog.Orderly (((build E position).run S).2.scope S.scopes.size).statics) :
    Obeys (Typed E) S (build E position) fun id S' =>
      id < S'.scopes.size ∧ S'.memo = S.memo := by
  obtain ⟨s, n, hrun, hinj, hspread⟩ := run_build E position S
  let S' : Session := { S with scopes := S.scopes.push s, nextInstanceKey := n }
  have hrun : (build E position).run S = (S.scopes.size, S') := hrun
  have hself : S'.scope S.scopes.size = s := getD_push_size _ _ _
  rw [hrun, hself] at ho
  have hx := Expansion.consists_ofDeclarations (closed_regularProducer ho hE)
    (inherits_regular hS s.enclosing) (fun d hmem => (hd d hmem).1.producer (hd d hmem).2)
    S.nextInstanceKey
  have hregular : RegularScope E.catalog s := ⟨hinj ▸ hx.injectables, hspread ▸ hx.spreading⟩
  have hgrows : S.Extends S' := by
    have hbuilt := extends_build E position S
    rwa [hrun] at hbuilt
  -- ids below the new one keep their scope, and those above it have none before and after
  have hnew : ∀ id, S'.scope id = S.scope id ∨
      RegularScope E.catalog (S'.scope id) ∧ E.catalog.Orderly (S'.scope id).statics := by
    intro id
    rcases Nat.lt_trichotomy id S.scopes.size with hlt | rfl | hlt
    · exact Or.inl (hgrows.scope id hlt)
    · rw [hself]
      exact Or.inr ⟨hregular, ho⟩
    · have hsize : S'.scopes.size = S.scopes.size + 1 := Array.size_push ..
      left
      rw [scope_of_size_le (Nat.le_of_lt hlt), scope_of_size_le (hsize ▸ hlt)]
  have hplace : S.scopes.size < S'.scopes.size := lt_size_push _ _
  constructor
  · rw [hrun]
    exact hgrows
  · rw [hrun]
    exact hS.change { grows := hgrows, scopes := hnew }
  · rw [hrun]
    exact ⟨hplace, rfl⟩

theorem ok_of_forM {α ε : Type} {f : α → Except ε Unit} {xs : List α}
    (h : xs.forM f = .ok ()) : ∀ x ∈ xs, (f x).isOk = true := by
  induction xs with
  | nil => exact List.forall_mem_nil _
  | cons x xs ih =>
    change (f x >>= fun _ => xs.forM f) = .ok () at h
    cases hx : f x with
    | error e =>
      rw [hx] at h
      cases h
    | ok u =>
      rw [hx] at h
      exact List.forall_mem_cons.2 ⟨by rw [hx]; rfl, ih h⟩

theorem valid_of_check {K : Catalog} {position : Position} (h : check K S position = .ok ()) :
    ∀ d ∈ position.declarations, d.isValid K = true := by
  apply ok_of_forM
  cases hp : position.parent with
  | none =>
    simp only [check, hp] at h
    split at h
    · cases h
    · exact h
  | some parent =>
    have hle : ¬S.scopes.size ≤ parent := Nat.not_le.2 (parent_lt_of_check h hp)
    simp only [check, hp, if_neg hle] at h
    split at h
    · cases h
    · exact h

/-- A position that is added with regular declarations keeps a session typed. -/
theorem obeys_addScope (hE : RegularHost E.catalog E.host) (hS : Typed E S) {position : Position}
    (hd : ∀ d ∈ position.declarations, RegularDeclaration E.catalog d)
    (ho : ∀ id, E.catalog.Orderly (((addScope E position).run S).2.scope id).statics) :
    Obeys (Typed E) S (addScope E position) fun _ _ => True := by
  -- what passes its check is built, so the new scope is the one that `ho` speaks of
  have hrun : check E.catalog S position = .ok () →
      ((addScope E position).run S).2 = ((build E position).run S).2 := by
    intro hcheck
    simp only [addScope, StateT.run_bind, StateT.run_get, pure_bind, hcheck, StateT.run_map]
    rfl
  unfold addScope
  apply Obeys.get
  split
  · exact Obeys.pure hS trivial
  · next hcheck =>
    rw [hrun hcheck] at ho
    have hvalid := valid_of_check hcheck
    apply Obeys.map
    refine (obeys_build hE hS ?_ ?_).imp fun _ _ _ _ _ => trivial
    · exact fun d hmem => ⟨hd d hmem, hvalid d hmem⟩
    · exact ho S.scopes.size

/-! ### Lookup -/

theorem contains_eq_of_beq {cs ds : List Classifier} (h : (cs == ds) = true) (c : Classifier) :
    cs.contains c = ds.contains c := by
  induction cs generalizing ds with
  | nil =>
    cases ds with
    | nil => rfl
    | cons d ds => simp at h
  | cons b cs ih =>
    cases ds with
    | nil => simp at h
    | cons d ds =>
      rw [List.cons_beq_cons, Bool.and_eq_true] at h
      rw [List.contains_cons, List.contains_cons, ih h.2, BEq.congr_right h.1]

theorem of_beq_triple {i j : ScopeId} {t u : Ty} {cs ds : List Classifier}
    (h : ((i, t, cs) == (j, u, ds)) = true) : i = j ∧ (t == u) = true ∧ (cs == ds) = true := by
  have hb : (i == j && (t == u && cs == ds)) = true := h
  simp only [Bool.and_eq_true, beq_iff_eq (α := Nat)] at hb
  exact ⟨hb.1, hb.2.1, hb.2.2⟩

/-- The injectables of a scope, specialized to a type, serve it. -/
theorem obeys_pushProduced (hS : Typed E S) (owner : ScopeId) {ps : List Producer}
    (hp : ∀ p ∈ ps, E.catalog.RegularProducer p ∧ E.catalog.Answers statics p.ty ty) :
    Obeys (Typed E) S (ps.mapM fun p => pushInjectable { owner, form := .produced p })
      fun found S' => ∀ c ∈ found, Serves E.catalog S' statics ty c := by
  refine Obeys.mapM hS (fun p hmem S hS => ?_) fun c S S' hSS' h => h.mono hSS'
  apply (obeys_pushInjectable hS { owner, form := .produced p }).imp
  rintro c S' _ _ ⟨hlt, hi⟩
  obtain ⟨hreg, hans⟩ := hp p hmem
  refine ⟨hlt, ?_, ?_⟩
  · rw [hi]
    exact hreg
  · rw [hi]
    exact hans

theorem obeys_candidatesIn (ht : E.catalog.Regular ty) (statics : List Classifier)
    (scopes : List ScopeId) (hS : Typed E S) :
    Obeys (Typed E) S (candidatesIn E ty statics scopes) fun found S' =>
      E.catalog.Orderly statics → ∀ c ∈ found, Serves E.catalog S' statics ty c := by
  -- from the inside out, since a scope looks up those around it before itself
  induction scopes generalizing S with
  | nil => exact Obeys.pure hS fun _ => List.forall_mem_nil _
  | cons scope enclosing ih =>
    rw [candidatesIn]
    apply Obeys.get
    split
    · next found hfound =>
      -- looked up before, for an equal type and with equal static parameters
      obtain ⟨⟨⟨scope', ty', statics'⟩, found'⟩, he, hk, rfl⟩ := mem_of_lookup hfound
      obtain ⟨_, hty, hstatics⟩ := of_beq_triple hk
      obtain ⟨ht', hserves⟩ := hS.candidates _ he
      refine Obeys.pure hS fun ho c hc => ?_
      have hsame := contains_eq_of_beq hstatics
      have h := hserves (ho.of_contains fun c => (hsame c).symm) c hc
      have h' : Serves E.catalog S statics ty' c :=
        { h with answers := h.answers.of_contains hsame }
      exact h'.of_beq ho ht' ht (BEq.symm hty)
    · apply Obeys.bind (ih hS)
      intro inherited S₁ h₁ hS₁ hin
      apply Obeys.get
      have hpush : Obeys (Typed E) S₁
          (((S₁.scope scope).injectables.filterMap (Producer.specialize? E.catalog statics ty)).mapM
            fun p => pushInjectable { owner := scope, form := .produced p })
          fun own S' => E.catalog.Orderly statics →
            ∀ c ∈ own, Serves E.catalog S' statics ty c := by
        by_cases ho : E.catalog.Orderly statics
        · refine (obeys_pushProduced hS₁ scope fun p hp => ?_).imp fun _ _ _ _ h _ => h
          obtain ⟨q, hq, hqp⟩ := List.mem_filterMap.1 hp
          exact ((hS₁.scopes scope).injectables q hq).specialize ho ht hqp
        · -- nothing is known of what is made then
          refine (Obeys.mapM (R := fun _ _ => True) hS₁ (fun p _ S hS => ?_)
            fun _ _ _ _ h => h).imp fun _ _ _ _ _ h => absurd h ho
          exact (obeys_pushInjectable hS _).imp fun _ _ _ _ _ => trivial
      apply Obeys.bind hpush
      intro own S₂ h₂ hS₂ hown
      have hall : E.catalog.Orderly statics →
          ∀ c ∈ inherited ++ own, Serves E.catalog S₂ statics ty c := fun ho =>
        List.forall_mem_append.2 ⟨fun c hc => (hin ho c hc).mono h₂, hown ho⟩
      refine Obeys.bind (obeys_remember hS₂ ?_) fun _ S₃ h₃ hS₃ _ =>
        Obeys.pure hS₃ fun ho c hc => (hall ho c hc).mono h₃
      have hgrows : S₂.Extends { S₂ with memo := { S₂.memo with
          candidates := ((scope, ty, statics), inherited ++ own) :: S₂.memo.candidates } } :=
        Extends.of_same rfl rfl fun _ _ => id
      exact { grows := hgrows
              candidates := mem_cons_imp ⟨ht, fun ho c hc => (hall ho c hc).mono hgrows⟩ }

/-- The candidates for a regular type serve it. -/
theorem obeys_candidates (ht : E.catalog.Regular ty) (scope : ScopeId) (statics : List Classifier)
    (hS : Typed E S) :
    Obeys (Typed E) S (candidates E scope ty statics) fun found S' =>
      E.catalog.Orderly statics → ∀ c ∈ found, Serves E.catalog S' statics ty c :=
  Obeys.get (obeys_candidatesIn ht statics _ hS)

/-- Element types are regular. -/
theorem obeys_elementsIn {element : Ty} (ht : E.catalog.Regular element)
    (ho : E.catalog.Orderly statics) (scopes : List ScopeId) (hS : Typed E S) :
    Obeys (Typed E) S (elementsIn E element statics scopes) fun found _ =>
      ∀ t ∈ found, E.catalog.Regular t := by
  induction scopes generalizing S with
  | nil => exact Obeys.pure hS (List.forall_mem_nil _)
  | cons scope enclosing ih =>
    rw [elementsIn]
    apply Obeys.get
    split
    · next found hfound =>
      obtain ⟨e, he, _, rfl⟩ := mem_of_lookup hfound
      exact Obeys.pure hS (hS.elements e he)
    · apply Obeys.bind (ih hS)
      intro inherited S₁ _ hS₁ hin
      apply Obeys.get
      have hown : ∀ t ∈ (S₁.scope scope).injectables.filterMap
          (Producer.elementType? E.catalog statics element), E.catalog.Regular t := by
        intro t hmem
        obtain ⟨p, hp, hpt⟩ := List.mem_filterMap.1 hmem
        exact ((hS₁.scopes scope).injectables p hp).elementType ho ht hpt
      have hall := forall_mem_insertNew hin hown
      refine Obeys.bind (obeys_remember hS₁ ?_) fun _ S₂ _ hS₂ _ => Obeys.pure hS₂ hall
      exact { grows := Extends.of_same rfl rfl fun _ _ => id, elements := mem_cons_imp hall }

/-! ### Scopes that a session adds by itself -/

theorem obeys_rememberTypeScope (hS : Typed E S) (classifiers : List Classifier)
    {found : Option ScopeId} (hf : ∀ id, found = some id → id < S.scopes.size) :
    Obeys (Typed E) S (do
        modify fun S => { S with typeScopes := (classifiers, found) :: S.typeScopes }
        pure found)
      fun found S' => ∀ id, found = some id → id < S'.scopes.size where
  grows := Extends.of_same rfl rfl fun _ _ => id
  keeps := hS.change {
    grows := Extends.of_same rfl rfl fun _ _ => id
    typeScopes := mem_cons_imp hf }
  result := hf

theorem obeys_typeScope (hE : RegularHost E.catalog E.host) (hS : Typed E S) (ty : Ty) :
    Obeys (Typed E) S (typeScope E ty) fun found S' =>
      ∀ id, found = some id → id < S'.scopes.size := by
  unfold typeScope
  dsimp only
  apply Obeys.get
  split
  · next known hknown =>
    obtain ⟨e, he, _, rfl⟩ := mem_of_lookup hknown
    exact Obeys.pure hS (hS.typeScopes e he)
  · split
    · exact obeys_rememberTypeScope hS _ fun _ h => by cases h
    · apply Obeys.bind (Obeys.map ((obeys_build hE hS ?_ ?_).imp ?_))
      · intro found S' _ hS' hfound
        exact obeys_rememberTypeScope hS' _ hfound
      · intro d hd
        obtain ⟨hmem, hvalid⟩ := List.mem_filter.1 hd
        obtain ⟨c, _, hd⟩ := List.mem_flatMap.1 hmem
        exact ⟨hE.typeScopes c d hd, hvalid⟩
      · -- a type scope has no static parameters, as a scope that does not exist
        have hnone := hS.orderly S.scopes.size
        rw [scope_of_size_le (Nat.le_refl _)] at hnone
        rw [statics_build]
        exact hnone
      · rintro id S' _ _ h _ ⟨⟩
        exact h.1

/-- The position of the dependencies has the static parameters of the scope that asks, and all in it
is regular. -/
theorem regular_childPosition {form : Form} {position : Position} (hf : E.catalog.RegularForm form)
    (h : childPosition? E scope form = some position) :
    position.parent = some scope ∧ position.typeParameters = [] ∧
      ∀ d ∈ position.declarations,
        RegularDeclaration E.catalog d ∧ d.isValid E.catalog = true := by
  unfold childPosition? at h
  cases form with
  | produced p => cases h
  | collection ty elements => cases h
  | witness ty => cases h
  | provider ty =>
    cases h
    refine ⟨rfl, rfl, fun d hd => ?_⟩
    obtain ⟨j, hj, rfl⟩ := List.mem_mapIdx.1 hd
    have hmem := List.getElem_mem hj
    -- a parameter of the function takes nothing itself
    exact ⟨⟨regular_functionParameters hf _ hmem, List.forall_mem_nil _⟩, rfl⟩
  | component ty members =>
    cases h
    exact ⟨rfl, rfl, List.forall_mem_nil _⟩

/-- The dependencies of a regular candidate have a scope of their own. -/
theorem obeys_dependencyScope (hE : RegularHost E.catalog E.host) (hS : Typed E S)
    (hscope : scope < S.scopes.size) (hc : E.catalog.RegularForm (S.injectable c).form) :
    Obeys (Typed E) S (dependencyScope E scope c) fun inner S' => inner < S'.scopes.size := by
  unfold dependencyScope
  apply Obeys.get
  split
  · exact Obeys.pure hS hscope
  · next position hposition =>
    obtain ⟨hparent, hparameters, hd⟩ := regular_childPosition hc hposition
    split
    · next child hlookup =>
      obtain ⟨e, he, _, rfl⟩ := mem_of_lookup hlookup
      exact Obeys.pure hS (hS.children e he)
    · next hlookup =>
      have ho : E.catalog.Orderly (((build E position).run S).2.scope S.scopes.size).statics := by
        rw [statics_build, hparent, hparameters]
        exact hS.orderly scope
      apply Obeys.bind (obeys_build hE hS hd ho)
      rintro child S₁ _ hS₁ ⟨hplace, hmemo⟩
      have hgrows := extends_rememberChild child (hmemo ▸ hlookup : S₁.memo.childScopes.lookup
        (scope, c) = none)
      refine Obeys.bind (obeys_remember hS₁ ?_) fun _ S₂ h₂ hS₂ _ =>
        Obeys.pure hS₂ (h₂.lt_scopes hplace)
      exact { grows := hgrows, children := mem_cons_imp (hgrows.lt_scopes hplace) }

/-! ### Injectables that a session makes -/

def FormFor (K : Catalog) (ty : Ty) (form : Form) : Prop :=
  K.RegularForm form ∧ ∀ owner, (Injectable.mk owner form).ty = ty

theorem formFor_component (hE : RegularHost E.catalog E.host) (ht : E.catalog.Regular ty)
    {flags : Flags} {form : Form} (h : synthesize?.component? E ty flags = some form)
    (hK : E.catalog.Coherent) : FormFor E.catalog ty form := by
  unfold synthesize?.component? at h
  split at h
  · cases h
    refine ⟨⟨ht, List.forall_mem_map.2 fun m hm => ?_⟩, fun _ => rfl⟩
    obtain ⟨hreg, havoid⟩ := hE.components _ m hm
    exact (takes_argumentsOf ht hreg havoid).substitute hK
  · cases h

/-- What is made for a regular type is regular, and of exactly this type. -/
theorem obeys_synthesize (hE : RegularHost E.catalog E.host) (hS : Typed E S)
    (ht : E.catalog.Regular ty) :
    Obeys (Typed E) S (synthesize? E scope ty) fun made _ =>
      ∀ form, made = some form → FormFor E.catalog ty form := by
  have hcomponent : ∀ flags form, synthesize?.component? E ty flags = some form →
      FormFor E.catalog ty form := fun _ _ h =>
    formFor_component hE ht h (hS.orderly scope).coherent
  unfold synthesize?
  dsimp only
  split
  · refine Obeys.pure hS ?_
    rintro form ⟨⟩
    exact ⟨ht, fun _ => rfl⟩
  · split
    · next argument hargs =>
      have harg : E.catalog.Regular argument :=
        ht.arguments argument (hargs ▸ List.mem_singleton_self argument)
      split
      · -- a collection of no elements is not made
        apply Obeys.get
        apply Obeys.bind (Obeys.get (obeys_elementsIn harg (hS.orderly scope) _ hS))
        intro elements S' _ hS' helements
        refine Obeys.pure hS' fun form h => ?_
        split at h
        · cases h
        · cases h
          exact ⟨⟨ht, helements⟩, fun _ => rfl⟩
      · split
        · refine Obeys.pure hS fun form h => ?_
          split at h
          · cases h
          · cases h
            exact ⟨⟨ht, by rw [hargs]; rfl⟩, fun _ => rfl⟩
        · exact Obeys.pure hS (hcomponent _)
    · exact Obeys.pure hS (hcomponent _)

theorem obeys_rememberFramework (hS : Typed E S) (scope : ScopeId) (ty : Ty)
    {made : Option InjectableId} (hm : ∀ c, made = some c → MadeFor E.catalog S ty c) :
    Obeys (Typed E) S (do
        remember fun memo => { memo with framework := ((scope, ty), made) :: memo.framework }
        pure made)
      fun made S' => ∀ c, made = some c → MadeFor E.catalog S' ty c := by
  have hgrows : S.Extends { S with memo := { S.memo with
      framework := ((scope, ty), made) :: S.memo.framework } } :=
    Extends.of_same rfl rfl fun _ _ => id
  have hnew := fun c hc => (hm c hc).mono hgrows
  exact ⟨hgrows, hS.change { grows := hgrows, framework := mem_cons_imp hnew }, hnew⟩

/-- The injectable that a session makes for a regular type serves it. It may have been made for an
equal type. -/
theorem obeys_framework (hE : RegularHost E.catalog E.host) (hS : Typed E S)
    (scope : ScopeId) (ht : E.catalog.Regular ty) :
    Obeys (Typed E) S (framework? E scope ty) fun made S' =>
      ∀ c, made = some c → Serves E.catalog S' (S'.scope scope).statics ty c := by
  -- made for `ty` or for an equal type, in this session or in an earlier one
  have hserves : ∀ {ty' : Ty}, (ty == ty') = true → ∀ S', Typed E S' → ∀ made : Option InjectableId,
      (∀ c, made = some c → MadeFor E.catalog S' ty' c) →
      ∀ c, made = some c → Serves E.catalog S' (S'.scope scope).statics ty c :=
    fun he S' hS' made hmade c hc => (hmade c hc).serves (hS'.orderly scope) ht (BEq.symm he)
  unfold framework?
  split
  · exact Obeys.pure hS fun c h => by cases h
  · apply Obeys.get
    split
    · next known hknown =>
      obtain ⟨⟨⟨scope', ty'⟩, known'⟩, he, hk, rfl⟩ := mem_of_lookup hknown
      exact Obeys.pure hS (hserves (of_beq_pair hk).2 S hS _ (hS.framework _ he))
    · apply Obeys.bind (obeys_synthesize hE hS ht)
      intro made S₁ _ hS₁ hmade
      split
      · next form =>
        obtain ⟨hform, htype⟩ := hmade form rfl
        apply Obeys.bind (Obeys.map ((obeys_pushInjectable hS₁ _).imp ?_))
        · intro made S₂ _ hS₂ h
          exact (obeys_rememberFramework hS₂ scope ty h).imp fun made S' _ hS' h =>
            hserves BEq.rfl S' hS' made h
        · rintro c S₂ _ _ ⟨hlt, hi⟩ c' ⟨⟩
          exact ⟨hlt, by rw [hi]; exact hform, by rw [hi]; exact htype scope⟩
      · exact (obeys_rememberFramework hS₁ scope ty fun c h => by cases h).imp
          fun made S' _ hS' h => hserves BEq.rfl S' hS' made h

end Wiring.Session
