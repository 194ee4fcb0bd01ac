import Wiring.Proofs.Session.Invariants
import Wiring.Proofs.Session.Steps

namespace Wiring

variable {S S' : Session}

def Resolved.Within (S : Session) (v : Resolved) : Prop :=
  v.Everywhere fun w => w.candidate < S.injectables.size ∧ w.scope < S.scopes.size

def Failure.Within (S : Session) : Failure → Prop
  | .noCandidates scope _ => scope < S.scopes.size
  | .ambiguity _ candidates => ∀ v ∈ candidates, v.Within S
  | .callContext candidate _ _ => candidate < S.injectables.size
  | .divergent candidate _ => candidate < S.injectables.size
  | .reifiedArgument candidate _ _ => candidate < S.injectables.size
  | .dependency candidate _ inner => candidate < S.injectables.size ∧ inner.Within S

theorem Resolved.Within.mono {v : Resolved} (h : v.Within S) (hS : S.Extends S') : v.Within S' :=
  h.imp fun _ hw => ⟨hS.lt_injectables hw.1, hS.lt_scopes hw.2⟩

theorem Failure.Within.mono {failure : Failure} (h : failure.Within S) (hS : S.Extends S') :
    failure.Within S' := by
  induction failure with
  | noCandidates scope request => exact hS.lt_scopes h
  | ambiguity request candidates => exact fun v hv => (h v hv).mono hS
  | callContext candidate | divergent candidate | reifiedArgument candidate =>
    exact hS.lt_injectables h
  | dependency candidate request inner ih => exact ⟨hS.lt_injectables h.1, ih h.2⟩

/-- A failure names the same places when it is reported on another request. -/
theorem Failure.Within.forRequest {failure : Failure} (h : failure.Within S) (request : Request) :
    (failure.forRequest request).Within S := by
  cases failure <;> exact h

namespace Session

variable {E : Environment} {scope : ScopeId} {c : InjectableId} {ty : Ty}
  {statics : List Classifier} {result : Except Failure Resolved}

def Knows (S : Session) : Except Failure Resolved → Prop
  | .ok v => v.Within S
  | .error failure => failure.Within S

theorem Knows.mono (h : S.Knows result) (hS : S.Extends S') : S'.Knows result := by
  cases result with
  | ok v => exact Resolved.Within.mono h hS
  | error failure => exact Failure.Within.mono h hS

/-- Every scope and every injectable that a session names exists. -/
structure Indexed (S : Session) : Prop where
  owners : ∀ c < S.injectables.size, (S.injectable c).owner < S.scopes.size
  typeScopes : ∀ e ∈ S.typeScopes, ∀ id, e.2 = some id → id < S.scopes.size
  candidates : ∀ e ∈ S.memo.candidates,
    e.1.1 < S.scopes.size ∧ ∀ c ∈ e.2, c < S.injectables.size
  elements : ∀ e ∈ S.memo.elements, e.1.1 < S.scopes.size
  framework : ∀ e ∈ S.memo.framework,
    e.1.1 < S.scopes.size ∧ ∀ c, e.2 = some c → c < S.injectables.size
  children : ∀ e ∈ S.memo.childScopes,
    e.1.1 < S.scopes.size ∧ e.1.2 < S.injectables.size ∧ e.2 < S.scopes.size
  byType : ∀ e ∈ S.memo.byType, e.1.1 < S.scopes.size ∧ S.Knows e.2
  byCandidate : ∀ e ∈ S.memo.byCandidate,
    e.1.1 < S.scopes.size ∧ e.1.2 < S.injectables.size ∧ S.Knows e.2

structure Indexing (S S' : Session) : Prop where
  -- What may happen to a session: it grows, and what is new in it names what exists.
  grows : S.Extends S'
  owners : ∀ c < S'.injectables.size,
      c < S.injectables.size ∨ (S'.injectable c).owner < S'.scopes.size := by
    exact fun _ => Or.inl
  typeScopes : ∀ e ∈ S'.typeScopes,
      e ∈ S.typeScopes ∨ ∀ id, e.2 = some id → id < S'.scopes.size := by
    exact fun _ => Or.inl
  candidates : ∀ e ∈ S'.memo.candidates, e ∈ S.memo.candidates ∨
      e.1.1 < S'.scopes.size ∧ ∀ c ∈ e.2, c < S'.injectables.size := by
    exact fun _ => Or.inl
  elements : ∀ e ∈ S'.memo.elements, e ∈ S.memo.elements ∨ e.1.1 < S'.scopes.size := by
    exact fun _ => Or.inl
  framework : ∀ e ∈ S'.memo.framework, e ∈ S.memo.framework ∨
      e.1.1 < S'.scopes.size ∧ ∀ c, e.2 = some c → c < S'.injectables.size := by
    exact fun _ => Or.inl
  children : ∀ e ∈ S'.memo.childScopes, e ∈ S.memo.childScopes ∨
      e.1.1 < S'.scopes.size ∧ e.1.2 < S'.injectables.size ∧ e.2 < S'.scopes.size := by
    exact fun _ => Or.inl
  byType : ∀ e ∈ S'.memo.byType,
      e ∈ S.memo.byType ∨ e.1.1 < S'.scopes.size ∧ S'.Knows e.2 := by
    exact fun _ => Or.inl
  byCandidate : ∀ e ∈ S'.memo.byCandidate, e ∈ S.memo.byCandidate ∨
      e.1.1 < S'.scopes.size ∧ e.1.2 < S'.injectables.size ∧ S'.Knows e.2 := by
    exact fun _ => Or.inl

theorem Indexed.change (h : Indexed S) (hc : Indexing S S') : Indexed S' where
  owners c hlt := by
    rcases hc.owners c hlt with hold | hnew
    · rw [hc.grows.injectable c hold]
      exact hc.grows.lt_scopes (h.owners c hold)
    · exact hnew
  typeScopes e he := by
    rcases hc.typeScopes e he with hold | hnew
    · exact fun id hid => hc.grows.lt_scopes (h.typeScopes e hold id hid)
    · exact hnew
  candidates e he := by
    rcases hc.candidates e he with hold | hnew
    · obtain ⟨hplace, hfound⟩ := h.candidates e hold
      exact ⟨hc.grows.lt_scopes hplace, fun c hmem => hc.grows.lt_injectables (hfound c hmem)⟩
    · exact hnew
  elements e he := by
    rcases hc.elements e he with hold | hnew
    · exact hc.grows.lt_scopes (h.elements e hold)
    · exact hnew
  framework e he := by
    rcases hc.framework e he with hold | hnew
    · obtain ⟨hplace, hmade⟩ := h.framework e hold
      exact ⟨hc.grows.lt_scopes hplace, fun c hmem => hc.grows.lt_injectables (hmade c hmem)⟩
    · exact hnew
  children e he := by
    rcases hc.children e he with hold | hnew
    · obtain ⟨hplace, hcandidate, hchild⟩ := h.children e hold
      exact ⟨hc.grows.lt_scopes hplace, hc.grows.lt_injectables hcandidate,
        hc.grows.lt_scopes hchild⟩
    · exact hnew
  byType e he := by
    rcases hc.byType e he with hold | hnew
    · obtain ⟨hplace, hknows⟩ := h.byType e hold
      exact ⟨hc.grows.lt_scopes hplace, hknows.mono hc.grows⟩
    · exact hnew
  byCandidate e he := by
    rcases hc.byCandidate e he with hold | hnew
    · obtain ⟨hplace, hcandidate, hknows⟩ := h.byCandidate e hold
      exact ⟨hc.grows.lt_scopes hplace, hc.grows.lt_injectables hcandidate,
        hknows.mono hc.grows⟩
    · exact hnew

theorem indexed_empty : Indexed {} where
  owners c h := absurd h (Nat.not_lt_zero c)
  typeScopes := List.forall_mem_nil _
  candidates := List.forall_mem_nil _
  elements := List.forall_mem_nil _
  framework := List.forall_mem_nil _
  children := List.forall_mem_nil _
  byType := List.forall_mem_nil _
  byCandidate := List.forall_mem_nil _

/-! ### Lookup -/

/-- The scopes around an existing scope exist. -/
theorem lt_of_mem_ancestors (hS : ∀ id < S.scopes.size, S.Nested id) (hscope : scope < S.scopes.size) :
    ∀ id ∈ S.ancestors scope, id < S.scopes.size := by
  intro id hid
  have haround := around_of_mem_ancestors hS hscope hid
  clear hid
  induction haround with
  | here scope => exact hscope
  | @out scope parent owner link _ ih =>
    have hparent := ((hS scope hscope).enclosing_eq link).1
    exact ih (Nat.lt_trans hparent hscope)

theorem indexed_pushInjectable (hS : Indexed S) {i : Injectable} (hi : i.owner < S.scopes.size) :
    Obeys Indexed S (pushInjectable i) fun c S' => c < S'.injectables.size := by
  let S' : Session := { S with injectables := S.injectables.push i }
  have hself : S'.injectable S.injectables.size = i := getD_push_size _ _ _
  have hgrows : S.Extends S' := extends_pushInjectable S i
  refine ⟨hgrows, hS.change { grows := hgrows, owners := fun c hc => ?_ }, lt_size_push _ _⟩
  refine (lt_or_eq_of_lt_push hc).imp_right fun he => ?_
  change (S'.injectable c).owner < S.scopes.size
  rw [he, hself]
  exact hi

/-- Producers of an existing scope may be pushed one after the other. -/
theorem indexed_pushProduced (ps : List Producer) (hS : Indexed S) (hscope : scope < S.scopes.size) :
    Obeys Indexed S (ps.mapM fun p => pushInjectable { owner := scope, form := .produced p })
      fun own S' => ∀ c ∈ own, c < S'.injectables.size := by
  have hpush : ∀ p ∈ ps, ∀ S : Session, Indexed S ∧ scope < S.scopes.size →
      Obeys (fun S => Indexed S ∧ scope < S.scopes.size) S
        (pushInjectable { owner := scope, form := .produced p })
        fun c S' => c < S'.injectables.size := by
    rintro p _ S ⟨hS, hscope⟩
    have hpushed := indexed_pushInjectable hS (i := { owner := scope, form := .produced p }) hscope
    exact ⟨hpushed.grows, ⟨hpushed.keeps, hpushed.grows.lt_scopes hscope⟩, hpushed.result⟩
  have hall := Obeys.mapM ⟨hS, hscope⟩ hpush fun c S S' hSS' hc => hSS'.lt_injectables hc
  exact ⟨hall.grows, hall.keeps.1, hall.result⟩

theorem indexed_candidatesIn (E : Environment) (ty : Ty) (statics : List Classifier)
    {scopes : List ScopeId} (hS : Indexed S) (hscopes : ∀ id ∈ scopes, id < S.scopes.size) :
    Obeys Indexed S (candidatesIn E ty statics scopes) fun found S' =>
      ∀ c ∈ found, c < S'.injectables.size := by
  -- from the inside out, with what the scopes around give already in place
  induction scopes generalizing S with
  | nil => exact Obeys.pure hS (List.forall_mem_nil _)
  | cons scope enclosing ih =>
    obtain ⟨hscope, henclosing⟩ := List.forall_mem_cons.1 hscopes
    rw [candidatesIn]
    apply Obeys.get
    split
    · next found hfound =>
      obtain ⟨e, he, _, rfl⟩ := mem_of_lookup hfound
      exact Obeys.pure hS (hS.candidates e he).2
    · apply Obeys.bind (ih hS henclosing)
      intro inherited S₁ h₁ hS₁ hin
      have hscope₁ := h₁.lt_scopes hscope
      apply Obeys.get
      apply Obeys.bind (indexed_pushProduced _ hS₁ hscope₁)
      intro own S₂ h₂ hS₂ hown
      have hall : ∀ c ∈ inherited ++ own, c < S₂.injectables.size :=
        List.forall_mem_append.2
          ⟨fun c hc => h₂.lt_injectables (hin c hc), hown⟩
      have hgrows : S₂.Extends { S₂ with memo := { S₂.memo with
          candidates := ((scope, ty, statics), inherited ++ own) :: S₂.memo.candidates } } :=
        Extends.of_same rfl rfl fun _ _ => id
      exact ⟨hgrows, hS₂.change { grows := hgrows
                                  candidates := mem_cons_imp ⟨h₂.lt_scopes hscope₁, hall⟩ }, hall⟩

theorem indexed_elementsIn (E : Environment) (element : Ty) (statics : List Classifier)
    {scopes : List ScopeId} (hS : Indexed S) (hscopes : ∀ id ∈ scopes, id < S.scopes.size) :
    Obeys Indexed S (elementsIn E element statics scopes) fun _ _ => True := by
  induction scopes generalizing S with
  | nil => exact Obeys.pure hS trivial
  | cons scope enclosing ih =>
    obtain ⟨hscope, henclosing⟩ := List.forall_mem_cons.1 hscopes
    rw [elementsIn]
    apply Obeys.get
    split
    · exact Obeys.pure hS trivial
    · apply Obeys.bind (ih hS henclosing)
      intro inherited S₁ h₁ hS₁ _
      exact ⟨Extends.of_same rfl rfl fun _ _ => id, hS₁.change {
        grows := Extends.of_same rfl rfl fun _ _ => id
        elements := mem_cons_imp (h₁.lt_scopes hscope) }, trivial⟩

/-! ### Scopes and injectables that a session makes -/

/-- Building a scope names nothing new but the scope. -/
theorem indexed_build (E : Environment) (position : Position) (hS : Indexed S) :
    Obeys Indexed S (build E position) fun id S' =>
      id < S'.scopes.size ∧ S'.memo = S.memo := by
  have hgrows := extends_build E position S
  exact ⟨hgrows, hS.change { grows := hgrows }, lt_size_push _ _, rfl⟩

theorem indexed_typeScope (E : Environment) (ty : Ty) (hS : Indexed S) :
    Obeys Indexed S (typeScope E ty) fun _ _ => True := by
  have hremember : ∀ (classifiers : List Classifier) (found : Option ScopeId) {S : Session},
      Indexed S → (∀ id, found = some id → id < S.scopes.size) →
      Obeys Indexed S (do
          modify fun S => { S with typeScopes := (classifiers, found) :: S.typeScopes }
          pure found)
        fun _ _ => True := by
    intro classifiers found S hS hfound
    have hgrows : S.Extends { S with typeScopes := (classifiers, found) :: S.typeScopes } :=
      Extends.of_same rfl rfl fun _ _ => id
    exact ⟨hgrows, hS.change { grows := hgrows, typeScopes := mem_cons_imp hfound }, trivial⟩
  unfold typeScope
  dsimp only
  apply Obeys.get
  split
  · exact Obeys.pure hS trivial
  · split
    · exact hremember _ none hS fun _ h => by cases h
    · apply Obeys.bind (Obeys.map ((indexed_build E _ hS).imp ?_))
      · exact fun found S' _ hS' hfound => hremember _ found hS' hfound
      · rintro id S' _ _ hid _ ⟨⟩
        exact hid.1

theorem indexed_dependencyScope (E : Environment) (hS : Indexed S) (hscope : scope < S.scopes.size)
    (hc : c < S.injectables.size) :
    Obeys Indexed S (dependencyScope E scope c) fun _ _ => True := by
  unfold dependencyScope
  apply Obeys.get
  split
  · exact Obeys.pure hS trivial
  · next position _ =>
    split
    · exact Obeys.pure hS trivial
    · next hmiss =>
      apply Obeys.bind (indexed_build E position hS)
      rintro child S₁ h₁ hS₁ ⟨hchild, hmemo⟩
      have hnone : S₁.memo.childScopes.lookup (scope, c) = none := by
        rw [hmemo]
        exact hmiss
      have hgrows := extends_rememberChild child hnone
      have hplaces := And.intro (h₁.lt_scopes hscope) (And.intro (h₁.lt_injectables hc) hchild)
      exact ⟨hgrows, hS₁.change { grows := hgrows, children := mem_cons_imp hplaces }, trivial⟩

theorem indexed_framework (E : Environment) (ty : Ty) (hS : Indexed S)
    (hscopes : ∀ id ∈ S.ancestors scope, id < S.scopes.size) :
    Obeys Indexed S (framework? E scope ty) fun _ _ => True := by
  have hscope : scope < S.scopes.size := hscopes scope (List.mem_cons_self ..)
  have hremember : ∀ (made : Option InjectableId) {S : Session}, Indexed S →
      scope < S.scopes.size → (∀ c, made = some c → c < S.injectables.size) →
      Obeys Indexed S (do
          remember fun memo => { memo with framework := ((scope, ty), made) :: memo.framework }
          pure made)
        fun _ _ => True := by
    intro made S hS hscope hmade
    have hgrows : S.Extends { S with memo := { S.memo with
        framework := ((scope, ty), made) :: S.memo.framework } } :=
      Extends.of_same rfl rfl fun _ _ => id
    exact ⟨hgrows, hS.change { grows := hgrows, framework := mem_cons_imp ⟨hscope, hmade⟩ },
      trivial⟩
  unfold framework?
  split
  · exact Obeys.pure hS trivial
  · apply Obeys.get
    split
    · exact Obeys.pure hS trivial
    · apply Obeys.bind (Obeys.synthesize hS fun _ => Obeys.get (indexed_elementsIn E _ _ hS hscopes))
      intro form S₁ h₁ hS₁ _
      have hscope₁ := h₁.lt_scopes hscope
      split
      · next form =>
        apply Obeys.bind (Obeys.map ((indexed_pushInjectable hS₁ hscope₁).imp ?_))
        · exact fun made S₂ h₂ hS₂ hmade => hremember made hS₂ (h₂.lt_scopes hscope₁) hmade
        · rintro id S' _ _ hid _ ⟨⟩
          exact hid
      · exact hremember none hS₁ hscope₁ fun _ h => by cases h

end Session
end Wiring
