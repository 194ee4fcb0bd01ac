import Wiring.Proofs.Session.Sound
import Wiring.Session.Derived
import Wiring.Session.Lookup
import Wiring.Session.Framework

namespace Wiring.Session

variable {V : Vocabulary} {E : Environment} {S : Session} {α β : Type}

structure Leads (V : Vocabulary) (E : Environment) (S : Session) (step : SessionM α)
    (Q : α → Session → Prop) : Prop where
  -- From `S` the step leads to a sound session that extends `S`, and what it gives satisfies `Q`.
  grows : S.Extends (step.run S).2
  sound : Sound V E (step.run S).2
  result : Q (step.run S).1 (step.run S).2

namespace Leads

variable {step : SessionM α} {f : α → SessionM β} {Q : α → Session → Prop}
  {R : β → Session → Prop}

theorem pure {a : α} (hS : Sound V E S) (h : Q a S) : Leads V E S (Pure.pure a) Q :=
  ⟨Extends.refl S, hS, h⟩

theorem get {f : Session → SessionM β} (h : Leads V E S (f S) R) :
    Leads V E S (MonadState.get >>= f) R :=
  ⟨h.grows, h.sound, h.result⟩

theorem bind (h : Leads V E S step Q)
    (hf : ∀ a S', S.Extends S' → Sound V E S' → Q a S' → Leads V E S' (f a) R) :
    Leads V E S (step >>= f) R := by
  have hnext := hf _ _ h.grows h.sound h.result
  exact ⟨h.grows.trans hnext.grows, hnext.sound, hnext.result⟩

theorem map {g : α → β} (h : Leads V E S step fun a S' => R (g a) S') :
    Leads V E S (g <$> step) R :=
  ⟨h.grows, h.sound, h.result⟩

theorem imp {Q' : α → Session → Prop} (h : Leads V E S step Q)
    (hQ : ∀ a S', S.Extends S' → Sound V E S' → Q a S' → Q' a S') : Leads V E S step Q' :=
  ⟨h.grows, h.sound, hQ _ _ h.grows h.sound h.result⟩

/-- What each of several steps gives is still so after the rest of them. -/
theorem mapM {f : α → SessionM β} {xs : List α} (hS : Sound V E S)
    (hf : ∀ x ∈ xs, ∀ S, Sound V E S → Leads V E S (f x) R)
    (hR : ∀ b S S', S.Extends S' → R b S → R b S') :
    Leads V E S (xs.mapM f) fun bs S' => ∀ b ∈ bs, R b S' := by
  induction xs generalizing S with
  | nil => exact Leads.pure hS (List.forall_mem_nil _)
  | cons x xs ih =>
    rw [List.mapM_cons]
    apply bind (hf x (List.mem_cons_self ..) S hS)
    intro b S₁ _ hS₁ hb
    apply bind (ih hS₁ fun y hy => hf y (List.mem_cons_of_mem x hy))
    intro bs S₂ h₁₂ hS₂ hbs
    exact Leads.pure hS₂ (List.forall_mem_cons.2 ⟨hR b S₁ S₂ h₁₂ hb, hbs⟩)

end Leads

/-! ### Additions -/

theorem lt_or_eq_of_lt_push {xs : Array α} {x : α} {i : Nat} (h : i < (xs.push x).size) :
    i < xs.size ∨ i = xs.size := by
  rw [Array.size_push] at h
  exact Nat.lt_or_eq_of_le (Nat.le_of_lt_succ h)

theorem leads_pushInjectable (hS : Sound V E S) {i : Injectable} (hi : V.CoversForm i.form) :
    Leads V E S (pushInjectable i) fun c S' =>
      c < S'.injectables.size ∧ S'.injectable c = i := by
  let S' : Session := { S with injectables := S.injectables.push i }
  have hself : S'.injectable S.injectables.size = i := getD_push_size _ _ _
  have hgrows : S.Extends S' := extends_pushInjectable S i
  have hchange : Change V E S S' := {
    grows := hgrows
    injectables := fun c hc => (lt_or_eq_of_lt_push hc).imp_right fun he => by
      rw [he, hself]
      exact hi }
  exact ⟨hgrows, hS.change hchange, lt_size_push _ _, hself⟩

theorem leads_pushScope (hS : Sound V E S) {s : Scope}
    (hn : s.enclosing = [] ∨ ∃ parent < S.scopes.size, s.enclosing = S.ancestors parent)
    (hs : V.CoversScope s) :
    Leads V E S (pushScope s) fun id S' =>
      id < S'.scopes.size ∧ S'.scope id = s ∧ S'.memo = S.memo := by
  let S' : Session := { S with scopes := S.scopes.push s }
  have hself : S'.scope S.scopes.size = s := getD_push_size _ _ _
  have hgrows : S.Extends S' := extends_pushScope S s
  -- the new scope is at the top, or inside of one that is there already
  have hnested : S'.Nested S.scopes.size := by
    unfold Nested
    rw [hself]
    refine hn.imp_right ?_
    rintro ⟨parent, hp, he⟩
    exact ⟨parent, hp, he.trans (hgrows.ancestors hp).symm⟩
  have hchange : Change V E S S' := {
    grows := hgrows
    nested := fun id hid => (lt_or_eq_of_lt_push hid).imp_right fun he => by
      rw [he]
      exact hnested
    scopes := fun id hid => (lt_or_eq_of_lt_push hid).imp_right fun he => by
      rw [he, hself]
      exact hs }
  exact ⟨hgrows, hS.change hchange, lt_size_push _ _, hself, rfl⟩

/-- An entry of a table with a new one was there before or is like the new one. -/
theorem mem_cons_imp {α : Type} {P : α → Prop} {a : α} {xs : List α} (h : P a) :
    ∀ x ∈ a :: xs, x ∈ xs ∨ P x :=
  List.forall_mem_cons.2 ⟨Or.inr h, fun _ => Or.inl⟩

theorem leads_remember (hS : Sound V E S) {f : Memo → Memo}
    (hc : Change V E S { S with memo := f S.memo }) :
    Leads V E S (remember f) fun _ _ => True :=
  ⟨hc.grows, hS.change hc, trivial⟩

/-! ### Lookup -/

/-- A key that compares equal to a remembered one finds an entry. -/
theorem mem_of_lookup {κ : Type} [BEq κ] {k : κ} {table : List (κ × α)} {a : α}
    (h : table.lookup k = some a) : ∃ e ∈ table, (k == e.1) = true ∧ e.2 = a := by
  induction table with
  | nil => cases h
  | cons e table ih =>
    obtain ⟨key, x⟩ := e
    rw [List.lookup_cons] at h
    cases hk : k == key with
    | true =>
      rw [hk] at h
      exact ⟨(key, x), List.mem_cons_self .., hk, Option.some.inj h⟩
    | false =>
      rw [hk] at h
      obtain ⟨e, he, hke, hea⟩ := ih h
      exact ⟨e, List.mem_cons_of_mem _ he, hke, hea⟩

/-- Keys of tables by scope are equal if the scopes are and the rest is. -/
theorem of_beq_pair {κ : Type} [BEq κ] {i j : Nat} {k l : κ} (h : ((i, k) == (j, l)) = true) :
    i = j ∧ (k == l) = true := by
  have hb : (i == j && k == l) = true := h
  simp only [Bool.and_eq_true, beq_iff_eq (α := Nat)] at hb
  exact hb

theorem fst_eq_of_beq {κ : Type} [BEq κ] {i j : Nat} {k l : κ} (h : ((i, k) == (j, l)) = true) :
    i = j :=
  (of_beq_pair h).1

theorem lineage_cons (hS : Sound V E S) {scope : ScopeId} {enclosing : List ScopeId}
    (h : S.Lineage (scope :: enclosing)) :
    scope < S.scopes.size ∧ scope :: enclosing = S.ancestors scope ∧ S.Lineage enclosing := by
  rcases h with h | ⟨id, hid, he⟩
  · cases h
  · obtain ⟨rfl, rfl⟩ := List.cons.inj he
    exact ⟨hid, he, lineage_enclosing hS.nested hid⟩

/-- The injectables of a scope that can give a covered type, specialized to it, belong to the scope. -/
theorem leads_pushProduced (hE : V.Speaks E) {ty : Ty} (ht : V.Covers ty)
    (statics : List Classifier) {scope : ScopeId} (hS : Sound V E S)
    (hscope : scope < S.scopes.size) :
    Leads V E S
      (((S.scope scope).injectables.filterMap (Producer.specialize? E.catalog statics ty)).mapM
        fun p => pushInjectable { owner := scope, form := .produced p })
      fun own S' => ∀ c ∈ own, c < S'.injectables.size ∧ (S'.injectable c).owner = scope := by
  have hproducers : ∀ p ∈ (S.scope scope).injectables.filterMap
      (Producer.specialize? E.catalog statics ty), V.CoversProducer p := by
    intro p hp
    obtain ⟨q, hq, hqp⟩ := List.mem_filterMap.1 hp
    exact ((hS.scopes scope hscope).injectables q hq).specialize hE.catalog ht hqp
  refine Leads.mapM hS (fun p hp S hS => ?_) fun c S S' hSS' h => ?_
  · apply (leads_pushInjectable hS (i := { owner := scope, form := .produced p })
      (hproducers p hp)).imp
    rintro c S' _ _ ⟨hlt, hi⟩
    exact ⟨hlt, by rw [hi]⟩
  · exact ⟨hSS'.lt_injectables h.1, by rw [hSS'.injectable c h.1, h.2]⟩

/-- The candidates found in some scopes belong to them. -/
theorem leads_candidatesIn (hE : V.Speaks E) {ty : Ty} (ht : V.Covers ty)
    (statics : List Classifier) {scopes : List ScopeId} (hS : Sound V E S)
    (hl : S.Lineage scopes) :
    Leads V E S (candidatesIn E ty statics scopes) fun found S' =>
      ∀ c ∈ found, c < S'.injectables.size ∧ (S'.injectable c).owner ∈ scopes := by
  -- from the inside out: what belongs to the scopes around a scope belongs to it and them
  induction scopes generalizing S with
  | nil => exact Leads.pure hS (List.forall_mem_nil _)
  | cons scope enclosing ih =>
    obtain ⟨hscope, hanc, hrest⟩ := lineage_cons hS hl
    rw [candidatesIn]
    apply Leads.get
    split
    · next found hfound =>
      obtain ⟨e, he, hk, rfl⟩ := mem_of_lookup hfound
      refine Leads.pure hS fun c hc => ?_
      have ho := hS.candidates e he c hc
      rw [← fst_eq_of_beq hk] at ho
      exact ⟨ho.candidate, hanc ▸ ho.owner⟩
    · apply Leads.bind (ih hS hrest)
      intro inherited S₁ h₁ hS₁ hin
      apply Leads.get
      apply Leads.bind (leads_pushProduced hE ht statics hS₁ (h₁.lt_scopes hscope))
      intro own S₂ h₂ hS₂ hown
      have hall : ∀ c ∈ inherited ++ own, c < S₂.injectables.size ∧
          (S₂.injectable c).owner ∈ scope :: enclosing := by
        intro c hc
        rcases List.mem_append.1 hc with hc | hc
        · obtain ⟨hlt, ho⟩ := hin c hc
          exact ⟨h₂.lt_injectables hlt, List.mem_cons_of_mem _ (by rwa [h₂.injectable c hlt])⟩
        · obtain ⟨hlt, ho⟩ := hown c hc
          exact ⟨hlt, by rw [ho]; exact List.mem_cons_self ..⟩
      have hscope₂ := h₂.lt_scopes (h₁.lt_scopes hscope)
      have hanc₂ : scope :: enclosing = S₂.ancestors scope := by
        rw [(h₁.trans h₂).ancestors hscope]
        exact hanc
      -- all of it belongs to this scope, so it may be remembered for it
      refine Leads.bind (leads_remember hS₂ ?_) fun _ S₃ h₃ hS₃ _ => Leads.pure hS₃ fun c hc => ?_
      · have hgrows : S₂.Extends { S₂ with memo := { S₂.memo with
            candidates := ((scope, ty, statics), inherited ++ own) :: S₂.memo.candidates } } :=
          Extends.of_same rfl rfl fun _ _ => id
        refine { grows := hgrows, candidates := mem_cons_imp fun c hc => ?_ }
        have hoffer : S₂.Offers scope c := ⟨hscope₂, (hall c hc).1, hanc₂ ▸ (hall c hc).2⟩
        exact hoffer.mono hgrows
      · obtain ⟨hlt, ho⟩ := hall c hc
        exact ⟨h₃.lt_injectables hlt, by rwa [h₃.injectable c hlt]⟩

/-- The candidates for a covered type are offered by the scope. -/
theorem leads_candidates (hE : V.Speaks E) {ty : Ty} (ht : V.Covers ty)
    (statics : List Classifier) {scope : ScopeId} (hS : Sound V E S)
    (hscope : scope < S.scopes.size) :
    Leads V E S (candidates E scope ty statics) fun found S' => ∀ c ∈ found, S'.Offers scope c := by
  apply Leads.get
  apply (leads_candidatesIn hE ht statics hS (Or.inr ⟨scope, hscope, rfl⟩)).imp
  intro found S' hgrows _ hfound c hc
  obtain ⟨hlt, ho⟩ := hfound c hc
  rw [← hgrows.ancestors hscope] at ho
  exact ⟨hgrows.lt_scopes hscope, hlt, ho⟩

/-- Nothing is gathered but what was there before and what is added. -/
theorem forall_mem_insertNew {P : Ty → Prop} {found own : List Ty} (hfound : ∀ t ∈ found, P t)
    (hown : ∀ t ∈ own, P t) :
    ∀ t ∈ own.foldl (fun found t => if found.contains t then found else found ++ [t]) found, P t := by
  induction own generalizing found with
  | nil => exact hfound
  | cons t own ih =>
    obtain ⟨ht, hown⟩ := List.forall_mem_cons.1 hown
    rw [List.foldl_cons]
    apply ih _ hown
    split
    · exact hfound
    · exact List.forall_mem_append.2 ⟨hfound, List.forall_mem_singleton.2 ht⟩

/-- Element types are covered. -/
theorem leads_elementsIn (hE : V.Speaks E) {element : Ty} (ht : V.Covers element)
    (statics : List Classifier) {scopes : List ScopeId} (hS : Sound V E S)
    (hl : S.Lineage scopes) :
    Leads V E S (elementsIn E element statics scopes) fun found _ => V.CoversAll found := by
  -- the same walk as for candidates, but nothing is pushed
  induction scopes generalizing S with
  | nil => exact Leads.pure hS (List.forall_mem_nil _)
  | cons scope enclosing ih =>
    obtain ⟨hscope, _, hrest⟩ := lineage_cons hS hl
    rw [elementsIn]
    apply Leads.get
    split
    · next found hfound =>
      obtain ⟨e, he, _, rfl⟩ := mem_of_lookup hfound
      exact Leads.pure hS (hS.elements e he)
    · apply Leads.bind (ih hS hrest)
      intro inherited S₁ h₁ hS₁ hin
      apply Leads.get
      have hown : V.CoversAll ((S₁.scope scope).injectables.filterMap
          (Producer.elementType? E.catalog statics element)) := by
        intro t hmem
        obtain ⟨p, hp, hpt⟩ := List.mem_filterMap.1 hmem
        have hcovers := (hS₁.scopes scope (h₁.lt_scopes hscope)).injectables p hp
        exact hcovers.elementType hE.catalog ht hpt
      have hall := forall_mem_insertNew hin hown
      refine Leads.bind (leads_remember hS₁ ?_) fun _ S₂ _ hS₂ _ => Leads.pure hS₂ hall
      exact { grows := Extends.of_same rfl rfl fun _ _ => id, elements := mem_cons_imp hall }

/-! ### Building scopes -/

theorem Sound.coversScope (hS : Sound V E S) (id : ScopeId) : V.CoversScope (S.scope id) := by
  rcases Nat.lt_or_ge id S.scopes.size with h | h
  · exact hS.scopes id h
  · rw [scope_of_size_le h]
    exact ⟨List.forall_mem_nil _, List.forall_mem_nil _⟩

theorem Sound.coversForm (hS : Sound V E S) (c : InjectableId) :
    V.CoversForm (S.injectable c).form := by
  rcases Nat.lt_or_ge c S.injectables.size with h | h
  · exact hS.injectables c h
  · rw [show S.injectable c = default by simp [injectable, Array.getD, Nat.not_lt.2 h]]
    exact Vocabulary.covers_star

theorem covers_inherited (hS : Sound V E S) (scopes : List ScopeId) :
    V.CoversInherited (S.inherited scopes) where
  rules := by
    intro p hp
    obtain ⟨id, _, hp⟩ := List.mem_flatMap.1 hp
    exact (hS.coversScope id).spreading p hp
  candidates := by
    intro p hp
    obtain ⟨id, _, hp⟩ := List.mem_flatMap.1 hp
    exact (hS.coversScope id).injectables p hp

structure Built (S : Session) (position : Position) (id : ScopeId) (S' : Session) : Prop where
  -- A scope as its position asks for it, in a session that remembers what it did before.
  place : id < S'.scopes.size
  parent : (S'.scope id).parent = position.parent
  isTypeScope : (S'.scope id).isTypeScope = position.isTypeScope
  enclosing : position.parent = none → (S'.scope id).enclosing = []
  memo : S'.memo = S.memo

theorem leads_setInstanceKey (hS : Sound V E S) (n : Nat) :
    Leads V E S (set { S with nextInstanceKey := n }) fun _ S' =>
      S' = { S with nextInstanceKey := n } := by
  have hgrows : S.Extends { S with nextInstanceKey := n } :=
    Extends.of_same rfl rfl fun _ _ => id
  exact ⟨hgrows, hS.change { grows := hgrows }, rfl⟩

/-- Building only adds to a session. -/
theorem extends_build (E : Environment) (position : Position) (S : Session) :
    S.Extends ((build E position).run S).2 := by
  let next : Session := { S with nextInstanceKey := ((build E position).run S).2.nextInstanceKey }
  have hnext : S.Extends next := Extends.of_same rfl rfl fun _ _ => id
  exact hnext.trans (extends_pushScope next _)

theorem leads_build (hE : V.Speaks E) (hS : Sound V E S) {position : Position}
    (hp : ∀ parent, position.parent = some parent → parent < S.scopes.size)
    (hd : ∀ d ∈ position.declarations, V.CoversDeclaration d) :
    Leads V E S (build E position) fun id S' => Built S position id S' := by
  unfold build
  apply Leads.get
  dsimp only
  -- expanding declarations takes instance keys, the scope is pushed after that
  apply Leads.bind (leads_setInstanceKey hS _)
  intro _ S₁ _ hS₁ hS₁eq
  refine (leads_pushScope hS₁ ?_ ?_).imp fun id S₂ _ _ h => ?_
  · cases hpar : position.parent with
    | none => exact Or.inl rfl
    | some parent =>
      have hlt := hp parent hpar
      subst hS₁eq
      exact Or.inr ⟨parent, hlt, rfl⟩
  · have hx := fun statics scopes n => Vocabulary.CoversExpansion.ofDeclarations statics hE
      (covers_inherited hS scopes) hd n
    exact ⟨(hx _ _ _).injectables, (hx _ _ _).spreading⟩
  · obtain ⟨hid, hs, hmemo⟩ := h
    refine ⟨hid, ?_, ?_, ?_, ?_⟩
    · rw [hs]
      cases hpar : position.parent with
      | none => rfl
      | some parent => rfl
    · rw [hs]
    · intro hnone
      rw [hs]
      simp only [hnone]
    · rw [hmemo, hS₁eq]

theorem parent_lt_of_check {K : Catalog} {position : Position} {parent : ScopeId}
    (h : check K S position = .ok ()) (hp : position.parent = some parent) :
    parent < S.scopes.size := by
  apply Nat.lt_of_not_le
  intro hle
  simp only [check, hp, hle, if_true] at h
  cases h

/-- A position that may not be built leaves the session as it is. -/
theorem leads_addScope (hE : V.Speaks E) (hS : Sound V E S) {position : Position}
    (hd : ∀ d ∈ position.declarations, V.CoversDeclaration d) :
    Leads V E S (addScope E position) fun _ _ => True := by
  unfold addScope
  apply Leads.get
  split
  · exact Leads.pure hS trivial
  · next hcheck =>
    refine ((leads_build hE hS ?_ hd).imp fun _ _ _ _ _ => trivial).map
    intro parent hpar
    exact parent_lt_of_check hcheck hpar

/-! ### Scopes that a session adds by itself -/

theorem leads_rememberTypeScope (hS : Sound V E S) (classifiers : List Classifier)
    {found : Option ScopeId} (hf : ∀ id, found = some id → S.IsTypeScope id) :
    Leads V E S (do
        modify fun S => { S with typeScopes := (classifiers, found) :: S.typeScopes }
        pure found)
      fun found S' => ∀ id, found = some id → S'.IsTypeScope id := by
  have hgrows : S.Extends { S with typeScopes := (classifiers, found) :: S.typeScopes } :=
    Extends.of_same rfl rfl fun _ _ => id
  have hnew : ∀ id, found = some id →
      ({ S with typeScopes := (classifiers, found) :: S.typeScopes } : Session).IsTypeScope id :=
    fun id hid => (hf id hid).mono hgrows
  exact ⟨hgrows, hS.change { grows := hgrows, typeScopes := mem_cons_imp hnew }, hnew⟩

/-- The type scope of a type is a type scope. -/
theorem leads_typeScope (hE : V.Speaks E) (hS : Sound V E S) (ty : Ty) :
    Leads V E S (typeScope E ty) fun found S' => ∀ id, found = some id → S'.IsTypeScope id := by
  unfold typeScope
  dsimp only
  apply Leads.get
  split
  · next known hknown =>
    obtain ⟨e, he, _, rfl⟩ := mem_of_lookup hknown
    exact Leads.pure hS (hS.typeScopes e he)
  · split
    · exact leads_rememberTypeScope hS _ fun _ h => by cases h
    · apply Leads.bind (Leads.map ((leads_build hE hS ?_ ?_).imp ?_))
      · intro found S' _ hS' hfound
        exact leads_rememberTypeScope hS' _ hfound
      · -- a type scope is at the top
        intro parent h
        cases h
      · intro d hd
        obtain ⟨c, _, hd⟩ := List.mem_flatMap.1 (List.mem_filter.1 hd).1
        exact hE.host.typeScopes c d hd
      · intro id S' _ _ h
        rintro _ ⟨⟩
        exact ⟨h.isTypeScope, h.enclosing rfl⟩

theorem hasChildScope_eq (E : Environment) (scope : ScopeId) (i : Injectable) :
    i.hasChildScope = (childPosition? E scope i.form).isSome := by
  unfold childPosition? Injectable.hasChildScope
  cases i.form <;> rfl

/-- The position of the dependencies is inside of `scope`, and all in it is covered. -/
theorem childPosition_spec {scope : ScopeId} {form : Form} {position : Position}
    (hf : V.CoversForm form) (h : childPosition? E scope form = some position) :
    position.parent = some scope ∧ ∀ d ∈ position.declarations, V.CoversDeclaration d := by
  unfold childPosition? at h
  cases form with
  | produced p => cases h
  | collection ty elements => cases h
  | witness ty => cases h
  | provider ty =>
    cases h
    refine ⟨rfl, fun d hd => ?_⟩
    obtain ⟨j, hj, rfl⟩ := List.mem_mapIdx.1 hd
    have hmem := List.getElem_mem hj
    -- a parameter of the function has no parameters itself, so that it need not be known
    exact ⟨Vocabulary.Covers.functionParameters hf _ hmem, List.forall_mem_nil _,
      fun h => absurd rfl h⟩
  | component ty members =>
    cases h
    exact ⟨rfl, List.forall_mem_nil _⟩

/-- A child scope is remembered for a place that has none. -/
theorem extends_rememberChild {place : ScopeId × InjectableId} (child : ScopeId)
    (h : S.memo.childScopes.lookup place = none) :
    S.Extends { S with memo := { S.memo with
      childScopes := (place, child) :: S.memo.childScopes } } := by
  refine Extends.of_same rfl rfl fun place' child' h' => ?_
  show ((place, child) :: S.memo.childScopes).lookup place' = some child'
  rw [List.lookup_cons]
  cases hp : place' == place with
  | false => exact h'
  | true =>
    rw [beq_iff_eq.1 hp, h] at h'
    cases h'

theorem lookup_self {κ : Type} [BEq κ] [ReflBEq κ] (k : κ) (a : α) (table : List (κ × α)) :
    ((k, a) :: table).lookup k = some a := by
  rw [List.lookup_cons, BEq.rfl]

/-- A scope that is made for the dependencies of a candidate is the one that they are filled in. -/
theorem leads_rememberChild (hS : Sound V E S) {scope child : ScopeId} {c : InjectableId}
    (hchild : (S.injectable c).hasChildScope = true) (hinside : S.IsChild scope child)
    (hnone : S.memo.childScopes.lookup (scope, c) = none) :
    Leads V E S (do
        remember fun memo => { memo with childScopes := ((scope, c), child) :: memo.childScopes }
        pure child)
      fun inner S' => inner < S'.scopes.size ∧ S'.Fills scope c inner := by
  have hgrows := extends_rememberChild child hnone
  have hinside' := hinside.mono hgrows
  refine ⟨hgrows, hS.change { grows := hgrows, children := mem_cons_imp hinside' },
    hinside'.place, ?_⟩
  rw [Fills, if_pos]
  · exact ⟨lookup_self _ _ _, hinside'.parent⟩
  · exact hchild

/-- The dependencies of a candidate are filled in the scope that is made for them. -/
theorem leads_dependencyScope (hE : V.Speaks E) (hS : Sound V E S) {scope : ScopeId}
    {c : InjectableId} (hscope : scope < S.scopes.size) (hc : c < S.injectables.size) :
    Leads V E S (dependencyScope E scope c) fun inner S' =>
      inner < S'.scopes.size ∧ S'.Fills scope c inner := by
  -- whether a scope is made depends on the form alone, so it can be said before and after
  have hchild := hasChildScope_eq E scope (S.injectable c)
  unfold dependencyScope
  apply Leads.get
  split
  · next hnone =>
    refine Leads.pure hS ⟨hscope, ?_⟩
    rw [hnone] at hchild
    simp [Fills, hchild]
  · next position hsome =>
    rw [hsome, Option.isSome_some] at hchild
    obtain ⟨hparent, hd⟩ := childPosition_spec (hS.injectables c hc) hsome
    split
    · next child hlookup =>
      obtain ⟨e, he, hk, rfl⟩ := mem_of_lookup hlookup
      have hm := hS.children e he
      rw [← fst_eq_of_beq hk] at hm
      refine Leads.pure hS ⟨hm.place, ?_⟩
      rw [Fills, if_pos hchild]
      exact ⟨hlookup, hm.parent⟩
    · next hlookup =>
      have hvalid : ∀ parent, position.parent = some parent → parent < S.scopes.size := by
        intro parent hp
        rw [hparent] at hp
        cases hp
        exact hscope
      apply Leads.bind (leads_build hE hS hvalid hd)
      intro child S₁ h₁ hS₁ hbuilt
      have hinside : S₁.IsChild scope child := ⟨hbuilt.place, hbuilt.parent.trans hparent⟩
      have hchild₁ : (S₁.injectable c).hasChildScope = true := by
        rw [h₁.injectable c hc]
        exact hchild
      -- building remembers no child scope, so there is none for this place yet
      have hnone : S₁.memo.childScopes.lookup (scope, c) = none := by
        rw [hbuilt.memo]
        exact hlookup
      exact leads_rememberChild hS₁ hchild₁ hinside hnone

/-! ### Injectables that a session makes -/

theorem covers_component (hE : V.Speaks E) {ty : Ty} (ht : V.Covers ty) {flags : Flags}
    {form : Form} (h : synthesize?.component? E ty flags = some form) : V.CoversForm form := by
  unfold synthesize?.component? at h
  split at h
  · cases h
    refine ⟨ht, List.forall_mem_map.2 fun m hm => ?_⟩
    exact (hE.host.components _ m hm).substitute ht.argumentsOf
  · cases h

theorem leads_synthesize (hE : V.Speaks E) (hS : Sound V E S) {scope : ScopeId} {ty : Ty}
    (hscope : scope < S.scopes.size) (ht : V.Covers ty) :
    Leads V E S (synthesize? E scope ty) fun made _ =>
      ∀ form, made = some form → V.CoversForm form := by
  unfold synthesize?
  dsimp only
  split
  · refine Leads.pure hS ?_
    rintro form ⟨⟩
    exact ht
  · split
    · next argument hargs =>
      -- an element is looked up by the only argument, which the type covers
      have harg : V.Covers argument :=
        ht.arguments argument (hargs ▸ List.mem_singleton_self argument)
      split
      · apply Leads.get
        have hl : S.Lineage (S.ancestors scope) := Or.inr ⟨scope, hscope, rfl⟩
        apply Leads.bind (Leads.get (leads_elementsIn hE harg _ hS hl))
        intro elements S' _ hS' helements
        refine Leads.pure hS' fun form h => ?_
        split at h
        · cases h
        · cases h
          exact ⟨ht, helements⟩
      · split
        · refine Leads.pure hS fun form h => ?_
          split at h
          · cases h
          · cases h
            exact ht
        · exact Leads.pure hS fun form h => covers_component hE ht h
    · exact Leads.pure hS fun form h => covers_component hE ht h

theorem leads_rememberFramework (hS : Sound V E S) {scope : ScopeId} (ty : Ty)
    {made : Option InjectableId} (hm : ∀ c, made = some c → S.Owns scope c) :
    Leads V E S (do
        remember fun memo => { memo with framework := ((scope, ty), made) :: memo.framework }
        pure made)
      fun made S' => ∀ c, made = some c → S'.Owns scope c := by
  have hgrows : S.Extends { S with memo := { S.memo with
      framework := ((scope, ty), made) :: S.memo.framework } } :=
    Extends.of_same rfl rfl fun _ _ => id
  have hnew := fun c hc => (hm c hc).mono hgrows
  exact ⟨hgrows, hS.change { grows := hgrows, framework := mem_cons_imp hnew }, hnew⟩

/-- The injectable that a session makes for a covered type belongs to the scope that asks. -/
theorem leads_framework (hE : V.Speaks E) (hS : Sound V E S) {scope : ScopeId} {ty : Ty}
    (hscope : scope < S.scopes.size) (ht : V.Covers ty) :
    Leads V E S (framework? E scope ty) fun made S' => ∀ c, made = some c → S'.Owns scope c := by
  unfold framework?
  split
  · exact Leads.pure hS fun c h => by cases h
  · apply Leads.get
    split
    · next known hknown =>
      obtain ⟨e, he, hk, rfl⟩ := mem_of_lookup hknown
      refine Leads.pure hS fun c hc => ?_
      rw [fst_eq_of_beq hk]
      exact hS.framework e he c hc
    · apply Leads.bind (leads_synthesize hE hS hscope ht)
      intro made S₁ _ hS₁ hmade
      split
      · next form =>
        have hform := hmade form rfl
        apply Leads.bind (Leads.map ((leads_pushInjectable hS₁ hform).imp ?_))
        · intro made S₂ _ hS₂ h
          exact leads_rememberFramework hS₂ ty h
        · rintro c S₂ _ _ ⟨hlt, hi⟩ c' ⟨⟩
          exact ⟨hlt, by rw [hi]⟩
      · exact leads_rememberFramework hS₁ ty fun c h => by cases h

end Wiring.Session
