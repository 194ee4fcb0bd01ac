import Wiring.Proofs.Search.Solve
import Wiring.Proofs.Session.Answering

/-!
The values of a candidate are told apart from the values for a request: any request may have led to
the candidate, and only the request at hand says what the candidate has to answer.
-/
namespace Wiring.Search

open Session Catalog

variable {E : Environment} {S S' : Session} {s : Search} {scope inner : ScopeId} {c : InjectableId}
  {solve : Solve} {chain : List InjectableId} {request : Request}

def Types (E : Environment) (solve : Solve) : Prop :=
  ∀ chain scope request s, Typed E s.session → scope < s.session.scopes.size →
    E.catalog.Regular request.ty →
      Obeys (Typed E) s (solve chain scope request) fun result S' =>
        ∀ v, result = .ok v → Gives E S' scope request.ty v

/-! ### Dependencies -/

def FilledFor (E : Environment) (S : Session) (inner : ScopeId)
    (filled : List (Request × Option Resolved)) : Prop :=
  ∀ r v, (r, some v) ∈ filled → Gives E S inner r.ty v

theorem FilledFor.cons {filled : List (Request × Option Resolved)} {v : Option Resolved}
    (h : FilledFor E S inner filled) (hv : ∀ w, v = some w → Gives E S inner request.ty w) :
    FilledFor E S inner ((request, v) :: filled) := by
  intro r w hw
  rcases List.mem_cons.1 hw with he | hw
  · cases he
    exact hv w rfl
  · exact h r w hw

theorem obeys_fillAll (hsolve : Types E solve) {requests : List Request} (hs : Typed E s.session)
    (hi : inner < s.session.scopes.size) (hr : ∀ r ∈ requests, E.catalog.Regular r.ty) :
    Obeys (Typed E) s (fillAll (solve chain inner) requests) fun result S' =>
      ∀ filled, result = .ok filled → FilledFor E S' inner filled := by
  induction requests generalizing s with
  | nil =>
    rw [fillAll]
    refine Obeys.pure hs ?_
    rintro _ ⟨⟩ r v h
    cases h
  | cons request rest ih =>
    obtain ⟨hrequest, hrest⟩ := List.forall_mem_cons.1 hr
    -- what fills this slot still answers it after the rest has been filled
    have hgoOn : ∀ (v : Option Resolved) (s' : Search), s.session.Extends s'.session →
        Typed E s'.session → (∀ w, v = some w → Gives E s'.session inner request.ty w) →
        Obeys (Typed E) s' (fillNext request v (fillAll (solve chain inner) rest))
          fun result S' => ∀ filled, result = .ok filled → FilledFor E S' inner filled := by
      intro v s' hgrows hs' hv
      unfold fillNext
      apply Obeys.bind (ih hs' (hgrows.lt_scopes hi) hrest)
      intro result s'' hgrows' hs'' hfilled
      split
      · next filled =>
        refine Obeys.pure hs'' ?_
        rintro _ ⟨⟩
        exact (hfilled filled rfl).cons fun w hw => (hv w hw).mono hgrows'
      · exact Obeys.pure hs'' fun _ h => by cases h
    rw [fillAll]
    apply Obeys.bind (hsolve chain inner request s hs hi hrequest)
    intro result s' hgrows hs' hresult
    split
    · next v =>
      apply hgoOn (some v) s' hgrows hs'
      rintro _ ⟨⟩
      exact hresult v rfl
    · split
      · exact Obeys.pure hs' fun _ h => by cases h
      · exact hgoOn none s' hgrows hs' fun _ h => by cases h

/-! ### Candidates -/

theorem obeys_fillCandidate (hsolve : Types E solve) {dependencies : List Request}
    (hs : Typed E s.session) (hi : inner < s.session.scopes.size)
    (hr : ∀ r ∈ dependencies, E.catalog.Regular r.ty) :
    Obeys (Typed E) s (fillCandidate (solve chain inner) scope c dependencies) fun result S' =>
      ∀ v, result = .ok v → Stems E S' scope c v := by
  unfold fillCandidate
  apply Obeys.bind (obeys_fillAll hsolve hs hi hr)
  intro result s' _ hs' hfilled
  split
  · next filled =>
    refine Obeys.pure hs' ?_
    rintro _ ⟨⟩
    have hf := hfilled filled rfl
    exact ⟨rfl, rfl, .node (fun r u hu => (hf r u hu).answered) fun r w hw => (hf r w hw).tree⟩
  · exact Obeys.pure hs' fun _ h => by cases h

theorem obeys_computeCandidate (hE : RegularHost E.catalog E.host) (hsolve : Types E solve)
    (hs : Typed E s.session) (hscope : scope < s.session.scopes.size)
    (hc : E.catalog.RegularForm (s.session.injectable c).form) :
    Obeys (Typed E) s (computeCandidate E solve chain scope request c) fun result S' =>
      ∀ v, result = .ok v → Stems E S' scope c v := by
  have hr := regular_dependencies (hs.orderly scope) hc
  unfold computeCandidate
  apply Obeys.get
  dsimp only
  split
  · exact Obeys.pure hs fun v h => by cases h
  · -- a divergence is counted, and gives no value either
    split
    · apply Obeys.bind (Obeys.count hs rfl)
      intro _ s' _ hs' _
      exact Obeys.pure hs' fun v h => by cases h
    · split
      · exact obeys_fillCandidate hsolve hs hscope hr
      · apply Obeys.bind (Obeys.lift (obeys_dependencyScope hE hs hscope hc))
        intro inner s' _ hs' hinner
        exact obeys_fillCandidate hsolve hs' hinner hr

/-- What a regular candidate resolves to is one of its values. -/
theorem obeys_resolveCandidate (hE : RegularHost E.catalog E.host) (hsolve : Types E solve)
    (hs : Typed E s.session) (hscope : scope < s.session.scopes.size)
    (hc : E.catalog.RegularForm (s.session.injectable c).form) :
    Obeys (Typed E) s (resolveCandidate E solve chain scope request c) fun result S' =>
      ∀ v, result = .ok v → Stems E S' scope c v := by
  unfold resolveCandidate
  apply Obeys.get
  split
  · next result hresult =>
    obtain ⟨⟨⟨scope', c'⟩, result'⟩, he, hk, rfl⟩ := mem_of_lookup hresult
    obtain ⟨rfl, rfl⟩ := Prod.mk.inj (eq_of_beq hk)
    exact Obeys.pure hs (hs.byCandidate _ he)
  · apply Obeys.unlessDiverged (obeys_computeCandidate hE hsolve hs hscope hc)
    intro result S hS hresult
    have hgrows : S.Extends { S with memo := { S.memo with
        byCandidate := ((scope, c), result) :: S.memo.byCandidate } } :=
      Extends.of_same rfl rfl fun _ _ => id
    have hnew := fun v hv => (hresult v hv).mono hgrows
    exact ⟨hgrows, hS.change { grows := hgrows, byCandidate := mem_cons_imp hnew }, hnew⟩

/-- A candidate that serves a type resolves to values for the type. -/
theorem obeys_serving (hE : RegularHost E.catalog E.host) (hsolve : Types E solve)
    (hs : Typed E s.session) (hscope : scope < s.session.scopes.size) {ty : Ty}
    (hc : Serves E.catalog s.session (s.session.scope scope).statics ty c) :
    Obeys (Typed E) s (resolveCandidate E solve chain scope request c) fun result S' =>
      ∀ v, result = .ok v → Gives E S' scope ty v := by
  apply (obeys_resolveCandidate hE hsolve hs hscope hc.form).imp
  intro result S' hgrows _ hstems v hv
  refine (hstems v hv).gives (hgrows.lt_scopes hscope) ?_
  rw [hgrows.scope scope hscope]
  exact hc.mono hgrows

/-! ### Choice -/

def StandsFor (E : Environment) (S : Session) (scope : ScopeId) (ty : Ty) (standing : Standing) :
    Prop :=
  ∀ v ∈ standing.best, Gives E S scope ty v

theorem StandsFor.add {ty requested : Ty} {standing : Standing} {result : Except Failure Resolved}
    (h : StandsFor E S scope ty standing) (hr : ∀ v, result = .ok v → Gives E S scope ty v) :
    StandsFor E S scope ty (standing.add E S' requested result) :=
  forall_best_add h hr

theorem StandsFor.outcome {ty : Ty} {standing : Standing} (h : StandsFor E S scope ty standing) :
    ∀ v, standing.outcome scope request = .ok v → Gives E S scope ty v := by
  intro v hv
  have hbest : standing.best = [v] := best_of_outcome hv
  exact h v (by rw [hbest]; exact List.mem_singleton_self v)

def AllServe (E : Environment) (S : Session) (scope : ScopeId) (ty : Ty)
    (candidates : List InjectableId) : Prop :=
  ∀ c ∈ candidates, Serves E.catalog S (S.scope scope).statics ty c

theorem AllServe.mono {ty : Ty} {candidates : List InjectableId}
    (h : AllServe E S scope ty candidates) (hscope : scope < S.scopes.size) (hS : S.Extends S') :
    AllServe E S' scope ty candidates := by
  intro c hc
  rw [hS.scope scope hscope]
  exact (h c hc).mono hS

theorem obeys_tryAll (hE : RegularHost E.catalog E.host) (hsolve : Types E solve)
    {candidates : List InjectableId} {standing : Standing} (hs : Typed E s.session)
    (hscope : scope < s.session.scopes.size)
    (hc : AllServe E s.session scope request.ty candidates)
    (hst : StandsFor E s.session scope request.ty standing) :
    Obeys (Typed E) s (tryAll E solve chain scope request standing candidates)
      fun standing S' => StandsFor E S' scope request.ty standing := by
  induction candidates generalizing s standing with
  | nil => exact Obeys.pure hs hst
  | cons c rest ih =>
    obtain ⟨hc, hrest⟩ := List.forall_mem_cons.1 hc
    rw [tryAll]
    apply Obeys.get
    split
    · exact Obeys.pure hs hst
    · apply Obeys.bind (obeys_serving hE hsolve hs hscope hc)
      intro result s' hgrows hs' hresult
      have hst' : StandsFor E s'.session scope request.ty standing :=
        fun v hv => (hst v hv).mono hgrows
      have hrest' : AllServe E s.session scope request.ty rest := hrest
      apply Obeys.get
      exact ih hs' (hgrows.lt_scopes hscope) (hrest'.mono hscope hgrows) (hst'.add hresult)

theorem obeys_resolveCandidates (hE : RegularHost E.catalog E.host) (hsolve : Types E solve)
    {candidates : List InjectableId} (hs : Typed E s.session)
    (hscope : scope < s.session.scopes.size)
    (hc : AllServe E s.session scope request.ty candidates) :
    Obeys (Typed E) s (resolveCandidates E solve chain scope request candidates) fun result S' =>
      ∀ v, result = .ok v → Gives E S' scope request.ty v := by
  unfold resolveCandidates
  split
  · next only => exact obeys_serving hE hsolve hs hscope (hc only (List.mem_singleton_self only))
  · apply Obeys.get
    have hnone : StandsFor E s.session scope request.ty {} := List.forall_mem_nil _
    split
    · exact Obeys.stop
    · next sorted hranked =>
      apply Obeys.bind (obeys_tryAll hE hsolve hs hscope
        (fun c h => hc c (mem_of_mem_ranked hranked h)) hnone)
      intro standing s' _ hs' hstands
      exact Obeys.pure hs' hstands.outcome

/-! ### Requests -/

theorem obeys_resolveSome (hE : RegularHost E.catalog E.host) (hsolve : Types E solve)
    {candidates : List InjectableId} (hs : Typed E s.session)
    (hscope : scope < s.session.scopes.size)
    (hc : AllServe E s.session scope request.ty candidates) :
    Obeys (Typed E) s (resolveSome E solve chain scope request candidates) fun result S' =>
      ∀ v, result = some (.ok v) → Gives E S' scope request.ty v := by
  unfold resolveSome
  split
  · exact Obeys.pure hs fun _ h => by cases h
  · apply Obeys.map
    apply (obeys_resolveCandidates hE hsolve hs hscope hc).imp
    rintro result S' _ _ hresult v ⟨⟩
    exact hresult v rfl

/-- The candidates of a type scope are looked up with the static parameters of the scope that asks. -/
theorem obeys_resolveInTypeScope (hE : RegularHost E.catalog E.host) (hsolve : Types E solve)
    (hs : Typed E s.session) (hscope : scope < s.session.scopes.size)
    (ht : E.catalog.Regular request.ty) :
    Obeys (Typed E) s (resolveInTypeScope E solve chain scope request) fun result S' =>
      ∀ v, result = some (.ok v) → Gives E S' scope request.ty v := by
  unfold resolveInTypeScope
  split
  · exact Obeys.pure hs fun _ h => by cases h
  · apply Obeys.bind (Obeys.lift (obeys_typeScope hE hs request.ty))
    intro found s₁ h₁ hs₁ _
    have hscope₁ := h₁.lt_scopes hscope
    split
    · exact Obeys.pure hs₁ fun _ h => by cases h
    · apply Obeys.get
      apply Obeys.bind (Obeys.lift (obeys_candidates ht _ _ hs₁))
      intro candidates s₂ h₂ hs₂ hc
      apply obeys_resolveSome hE hsolve hs₂ (h₂.lt_scopes hscope₁)
      intro c hmem
      -- fits of this lookup are meaningful, since the static parameters are those of a scope
      rw [h₂.scope scope hscope₁]
      exact hc (hs₁.orderly scope) c hmem

theorem obeys_resolveMade (hE : RegularHost E.catalog E.host) (hsolve : Types E solve)
    (hs : Typed E s.session) (hscope : scope < s.session.scopes.size) {made : Option InjectableId}
    (hm : ∀ c, made = some c →
      Serves E.catalog s.session (s.session.scope scope).statics request.ty c) :
    Obeys (Typed E) s (resolveMade E solve chain scope request made) fun result S' =>
      ∀ v, result = .ok v → Gives E S' scope request.ty v := by
  cases made with
  | none => exact Obeys.pure hs fun _ h => by cases h
  | some candidate => exact obeys_serving hE hsolve hs hscope (hm candidate rfl)

theorem obeys_resolveFramework (hE : RegularHost E.catalog E.host) (hsolve : Types E solve)
    (hs : Typed E s.session) (hscope : scope < s.session.scopes.size)
    (ht : E.catalog.Regular request.ty) :
    Obeys (Typed E) s (resolveFramework E solve chain scope request) fun result S' =>
      ∀ v, result = .ok v → Gives E S' scope request.ty v := by
  unfold resolveFramework
  split
  · apply Obeys.bind (Obeys.lift (obeys_framework hE hs scope ht))
    intro made s' hgrows hs' hm
    exact obeys_resolveMade hE hsolve hs' (hgrows.lt_scopes hscope) hm
  · change Obeys (Typed E) s (resolveMade E solve chain scope request none) _
    exact obeys_resolveMade hE hsolve hs hscope fun _ h => by cases h

theorem obeys_computeRequest (hE : RegularHost E.catalog E.host) (hsolve : Types E solve)
    (hs : Typed E s.session) (hscope : scope < s.session.scopes.size)
    (ht : E.catalog.Regular request.ty) :
    Obeys (Typed E) s (computeRequest E solve chain scope request) fun result S' =>
      ∀ v, result = .ok v → Gives E S' scope request.ty v := by
  unfold computeRequest
  apply Obeys.get
  apply Obeys.bind (Obeys.lift (obeys_candidates ht scope _ hs))
  intro candidates s₁ h₁ hs₁ hc
  have hscope₁ := h₁.lt_scopes hscope
  -- the static parameters of the scope are what its candidates were looked up with
  have hserve : AllServe E s₁.session scope request.ty candidates := by
    intro c hmem
    rw [h₁.scope scope hscope]
    exact hc (hs.orderly scope) c hmem
  apply Obeys.bind (obeys_resolveSome hE hsolve hs₁ hscope₁ hserve)
  intro result s₂ h₂ hs₂ hresult
  have hscope₂ := h₂.lt_scopes hscope₁
  -- found in the scope; failed there, which leaves the type scope; or not found there at all
  split
  · next v =>
    refine Obeys.pure hs₂ ?_
    rintro _ ⟨⟩
    exact hresult v rfl
  · apply Obeys.bind (obeys_resolveInTypeScope hE hsolve hs₂ hscope₂ ht)
    intro typed s₃ _ hs₃ htyped
    split
    · next v =>
      refine Obeys.pure hs₃ ?_
      rintro _ ⟨⟩
      exact htyped v rfl
    · exact Obeys.pure hs₃ fun _ h => by cases h
    · exact Obeys.pure hs₃ fun _ h => by cases h
  · apply Obeys.bind (obeys_resolveInTypeScope hE hsolve hs₂ hscope₂ ht)
    intro typed s₃ h₃ hs₃ htyped
    split
    · next result =>
      refine Obeys.pure hs₃ ?_
      rintro v rfl
      exact htyped v rfl
    · exact obeys_resolveFramework hE hsolve hs₃ (h₃.lt_scopes hscope₂) ht

/-- A value that is remembered for a type is a value for every equal type. -/
theorem types_resolveRequest (hE : RegularHost E.catalog E.host) (hsolve : Types E solve) :
    Types E (resolveRequest E solve) := by
  intro chain scope request s hs hscope ht
  unfold resolveRequest
  apply Obeys.get
  split
  · next v hv =>
    obtain ⟨⟨⟨scope', ty⟩, result⟩, he, hk, hresult⟩ := mem_of_lookup hv
    -- remembered for an equal type, which is as good as the requested one
    obtain ⟨rfl, hty⟩ := of_beq_pair hk
    obtain ⟨hreg, hgives⟩ := hs.byType _ he v hresult
    refine Obeys.pure hs ?_
    rintro _ ⟨⟩
    exact { hgives with
      serves := hgives.serves.of_beq (hs.orderly scope) hreg ht (BEq.symm hty) }
  · exact Obeys.pure hs fun _ h => by cases h
  · apply Obeys.unlessDiverged (obeys_computeRequest hE hsolve hs hscope ht)
    intro result S hS hresult
    have hgrows : S.Extends { S with memo := { S.memo with
        byType := ((scope, request.ty), result) :: S.memo.byType } } :=
      Extends.of_same rfl rfl fun _ _ => id
    have hnew := fun v hv => (hresult v hv).mono hgrows
    exact ⟨hgrows, hS.change {
      grows := hgrows
      byType := mem_cons_imp fun v hv => ⟨ht, hnew v hv⟩ }, hnew⟩

/-- A search of any depth fills a request for a regular type by values for the type. -/
theorem types_solve (hE : RegularHost E.catalog E.host) (depth : Nat) :
    Types E (Search.solve E depth) := by
  induction depth with
  | zero =>
    intro chain scope request s _ _ _ a s' h
    cases h
  | succ depth ih => exact types_resolveRequest hE ih

/-- Filling the requests of a call site keeps a session typed. -/
theorem obeys_solveAll (hE : RegularHost E.catalog E.host) (depth : Nat) {requests : List Request}
    {results : List (Request × Option Resolved)} {worst : Option (Request × Failure)}
    (hs : Typed E s.session) (hscope : scope < s.session.scopes.size)
    (ht : ∀ r ∈ requests, E.catalog.Regular r.ty) :
    Obeys (Typed E) s (solveAll E depth scope requests results worst) fun _ _ => True := by
  refine Obeys.solveAll (fun request hmem s hs hscope => ?_) hs hscope
  exact (types_solve hE depth [] scope request s hs hscope (ht request hmem)).imp
    fun _ _ _ _ _ => trivial

end Wiring.Search
