import Wiring.Proofs.Search.Steps
import Wiring.Search.Solve

namespace Wiring.Search

open Session

variable {V : Vocabulary} {E : Environment} {s : Search} {scope : ScopeId} {c : InjectableId}
  {solve : Solve} {chain : List InjectableId} {request : Request}

/-! ### Standings -/

section Standings

variable {S : Session} {requested : Ty} {standing : Standing} {v : Resolved}

inductive Taken (E : Environment) (S : Session) (requested : Ty) (best : List Resolved)
    (v : Resolved) : List Resolved → Prop
  -- What taking in a value does to the best ones.
  | first (hnone : best = []) : Taken E S requested best v [v]
  | better {leader : Resolved} (hleader : best.head? = some leader)
      (h : S.compareResolved E v leader requested = .lt) : Taken E S requested best v [v]
  | tied {leader : Resolved} (hleader : best.head? = some leader)
      (h : S.compareResolved E v leader requested = .eq) : Taken E S requested best v (best ++ [v])
  | worse {leader : Resolved} (hleader : best.head? = some leader)
      (h : S.compareResolved E v leader requested = .gt) : Taken E S requested best v best

theorem taken_add (standing : Standing) :
    Taken E S requested standing.best v (standing.add E S requested (.ok v)).best := by
  unfold Standing.add
  dsimp only
  split
  · next hnone => exact .first (List.head?_eq_none_iff.1 hnone)
  · next leader hleader =>
    split
    · next hlt => exact .better hleader hlt
    · next heq => exact .tied hleader heq
    · next hgt => exact .worse hleader hgt

/-- What holds of the best values and of a value that is taken in holds of the best ones then. -/
theorem forall_best_add {P : Resolved → Prop} {result : Except Failure Resolved}
    (h : ∀ v ∈ standing.best, P v) (hr : ∀ v, result = .ok v → P v) :
    ∀ v ∈ (standing.add E S requested result).best, P v := by
  cases result with
  | error failure => exact h
  | ok v =>
    have hv : ∀ w ∈ [v], P w := List.forall_mem_singleton.2 (hr v rfl)
    have htaken : Taken E S requested standing.best v (standing.add E S requested (.ok v)).best :=
      taken_add standing
    generalize (standing.add E S requested (.ok v)).best = best at htaken ⊢
    cases htaken with
    | first => exact hv
    | better => exact hv
    | tied => exact List.forall_mem_append.2 ⟨h, hv⟩
    | worse => exact h

theorem best_of_outcome {standing : Standing} (h : standing.outcome scope request = .ok v) :
    standing.best = [v] := by
  unfold Standing.outcome at h
  split at h
  · next hbest =>
    cases h
    exact hbest
  · cases h
  · cases h

end Standings

/-! ### Choice -/

def Stands (E : Environment) (S : Session) (scope : ScopeId) (standing : Standing) : Prop :=
  ∀ v ∈ standing.best, Legal E S v ∧ v.scope = scope

theorem Stands.mono {S S' : Session} {standing : Standing} (h : Stands E S scope standing)
    (hS : S.Extends S') : Stands E S' scope standing :=
  fun v hv => ⟨(h v hv).1.mono hS, (h v hv).2⟩

theorem Stands.add {S S' : Session} {standing : Standing} {requested : Ty}
    {result : Except Failure Resolved} (h : Stands E S scope standing)
    (hr : Remembers E S scope result) : Stands E S scope (standing.add E S' requested result) :=
  forall_best_add h hr

theorem Stands.outcome {S : Session} {standing : Standing} (h : Stands E S scope standing) :
    Remembers E S scope (standing.outcome scope request) := by
  intro v hv
  have hbest : standing.best = [v] := best_of_outcome hv
  exact h v (by rw [hbest]; exact List.mem_singleton_self v)

theorem leads_tryAll (hE : V.Speaks E) (hsolve : Resolves V E solve) {candidates : List InjectableId}
    {standing : Standing} (hs : Sound V E s.session) (hscope : scope < s.session.scopes.size)
    (hc : ∀ c ∈ candidates, Usable s.session scope c) (hst : Stands E s.session scope standing) :
    Leads V E s (tryAll E solve chain scope request standing candidates) fun standing S' =>
      Stands E S' scope standing := by
  induction candidates generalizing s standing with
  | nil => exact Leads.pure hs hst
  | cons c rest ih =>
    obtain ⟨hc, hrest⟩ := List.forall_mem_cons.1 hc
    rw [tryAll]
    apply Leads.get
    split
    · exact Leads.pure hs hst
    · apply Leads.bind (leads_resolveCandidate hE hsolve hs hscope hc)
      intro result s' hgrows hs' hresult
      apply Leads.get
      apply ih hs' (hgrows.lt_scopes hscope) (fun c hc => (hrest c hc).mono hgrows)
      exact (hst.mono hgrows).add hresult

theorem mem_of_mem_ranked {S : Session} {requested : Ty} {candidates sorted : List InjectableId}
    (hranked : ranked E S scope requested candidates = some sorted) (h : c ∈ sorted) :
    c ∈ candidates := by
  obtain ⟨ordered, hordered, rfl⟩ := Option.map_eq_some_iff.1 hranked
  exact (Sorting.sort_perm hordered).mem_iff.1 (mem_of_mem_eraseDupsBy h)

theorem leads_resolveCandidates (hE : V.Speaks E) (hsolve : Resolves V E solve)
    {candidates : List InjectableId} (hs : Sound V E s.session)
    (hscope : scope < s.session.scopes.size)
    (hc : ∀ c ∈ candidates, Usable s.session scope c) :
    Leads V E s (resolveCandidates E solve chain scope request candidates) fun result S' =>
      Remembers E S' scope result := by
  unfold resolveCandidates
  split
  · next only => exact leads_resolveCandidate hE hsolve hs hscope (hc only (by simp))
  · apply Leads.get
    split
    · exact Leads.stop
    · next sorted hranked =>
      have hnone : Stands E s.session scope {} := List.forall_mem_nil _
      apply Leads.bind (leads_tryAll hE hsolve hs hscope
        (fun c h => hc c (mem_of_mem_ranked hranked h)) hnone)
      intro standing s' _ hs' hstands
      exact Leads.pure hs' hstands.outcome

/-! ### Failures, reported on another request -/

@[simp] theorem rank_forRequest (f : Failure) (r : Request) : (f.forRequest r).rank = f.rank := by
  cases f <;> rfl

@[simp] theorem isDivergent_forRequest (f : Failure) (r : Request) :
    (f.forRequest r).isDivergent = f.isDivergent := by
  cases f <;> rfl

theorem report_forRequest (f g : Failure) (r : Request) :
    Failure.report (some (f.forRequest r)) (g.forRequest r) =
      (Failure.report (some f) g).forRequest r := by
  simp only [Failure.report, Failure.outranks, rank_forRequest]
  exact (apply_ite (Failure.forRequest r) _ _ _).symm

theorem overall_forRequest (user typed : Failure) (r : Request) :
    overall (user.forRequest r) (typed.forRequest r) = (overall user typed).forRequest r := by
  simp only [overall, Failure.outranks, rank_forRequest, isDivergent_forRequest]
  exact (apply_ite (Failure.forRequest r) _ _ _).symm

/-! ### Requests -/

def MayRemember (E : Environment) (S : Session) (scope : ScopeId)
    (result : Option (Except Failure Resolved)) : Prop :=
  ∀ r, result = some r → Remembers E S scope r

theorem remembers_error {S : Session} (failure : Failure) :
    Remembers E S scope (.error failure) :=
  fun _ h => by cases h

theorem leads_resolveSome (hE : V.Speaks E) (hsolve : Resolves V E solve)
    {candidates : List InjectableId} (hs : Sound V E s.session)
    (hscope : scope < s.session.scopes.size)
    (hc : ∀ c ∈ candidates, Usable s.session scope c) :
    Leads V E s (resolveSome E solve chain scope request candidates) fun result S' =>
      MayRemember E S' scope result := by
  unfold resolveSome
  split
  · exact Leads.pure hs fun _ h => by cases h
  · apply Leads.map
    apply (leads_resolveCandidates hE hsolve hs hscope hc).imp
    rintro result S' _ _ hresult _ ⟨⟩
    exact hresult

/-- What a scope offers may be used in it. -/
theorem usable_of_offers {S : Session} (hS : Sound V E S) (h : S.Offers scope c) :
    Usable S scope c :=
  ⟨h.candidate, Or.inl (hS.around h)⟩

/-- What a type scope offers may be used everywhere. -/
theorem usable_of_typeScope {S : Session} {typeScope : ScopeId} (hT : S.IsTypeScope typeScope)
    (h : S.Offers typeScope c) : Usable S scope c := by
  refine ⟨h.candidate, Or.inr ?_⟩
  have howner := h.owner
  rw [ancestors, hT.enclosing, List.mem_singleton] at howner
  rw [howner]
  exact hT.flag

theorem leads_resolveInTypeScope (hE : V.Speaks E) (hsolve : Resolves V E solve)
    (hs : Sound V E s.session) (hscope : scope < s.session.scopes.size)
    (ht : V.Covers request.ty) :
    Leads V E s (resolveInTypeScope E solve chain scope request) fun result S' =>
      MayRemember E S' scope result := by
  unfold resolveInTypeScope
  split
  · exact Leads.pure hs fun _ h => by cases h
  · apply Leads.bind (Leads.lift (leads_typeScope hE hs request.ty))
    intro found s₁ h₁ hs₁ hfound
    split
    · exact Leads.pure hs₁ fun _ h => by cases h
    · next typeScope =>
      have hT := hfound typeScope rfl
      apply Leads.get
      apply Leads.bind
        (Leads.lift (leads_candidates hE ht _ hs₁ (lt_of_isTypeScope hT.flag)))
      intro candidates s₂ h₂ hs₂ hc
      apply leads_resolveSome hE hsolve hs₂ (h₂.lt_scopes (h₁.lt_scopes hscope))
      exact fun c hmem => usable_of_typeScope (hT.mono h₂) (hc c hmem)

theorem leads_resolveMade (hE : V.Speaks E) (hsolve : Resolves V E solve)
    (hs : Sound V E s.session) (hscope : scope < s.session.scopes.size)
    {made : Option InjectableId} (hm : ∀ c, made = some c → s.session.Owns scope c) :
    Leads V E s (resolveMade E solve chain scope request made) fun result S' =>
      Remembers E S' scope result := by
  cases made with
  | none => exact Leads.pure hs (remembers_error _)
  | some candidate =>
    obtain ⟨hlt, howner⟩ := hm candidate rfl
    apply leads_resolveCandidate hE hsolve hs hscope
    exact ⟨hlt, Or.inl (by rw [howner]; exact .here scope)⟩

theorem leads_resolveFramework (hE : V.Speaks E) (hsolve : Resolves V E solve)
    (hs : Sound V E s.session) (hscope : scope < s.session.scopes.size)
    (ht : V.Covers request.ty) :
    Leads V E s (resolveFramework E solve chain scope request) fun result S' =>
      Remembers E S' scope result := by
  unfold resolveFramework
  split
  · apply Leads.bind (Leads.lift (leads_framework hE hs hscope ht))
    intro made s' hgrows hs' hm
    exact leads_resolveMade hE hsolve hs' (hgrows.lt_scopes hscope) hm
  · show Leads V E s (resolveMade E solve chain scope request none) _
    exact leads_resolveMade hE hsolve hs hscope fun _ h => by cases h

theorem leads_computeRequest (hE : V.Speaks E) (hsolve : Resolves V E solve)
    (hs : Sound V E s.session) (hscope : scope < s.session.scopes.size)
    (ht : V.Covers request.ty) :
    Leads V E s (computeRequest E solve chain scope request) fun result S' =>
      Remembers E S' scope result := by
  unfold computeRequest
  apply Leads.get
  apply Leads.bind (Leads.lift (leads_candidates hE ht _ hs hscope))
  intro candidates s₁ h₁ hs₁ hc
  have hscope₁ := h₁.lt_scopes hscope
  apply Leads.bind (leads_resolveSome hE hsolve hs₁ hscope₁ fun c hmem =>
    usable_of_offers hs₁ (hc c hmem))
  intro result s₂ h₂ hs₂ hresult
  have hscope₂ := h₂.lt_scopes hscope₁
  -- found in the scope; failed there, which leaves the type scope; or not found there at all
  split
  · next v => exact Leads.pure hs₂ (hresult _ rfl)
  · apply Leads.bind (leads_resolveInTypeScope hE hsolve hs₂ hscope₂ ht)
    intro typed s₃ _ hs₃ htyped
    split
    · next v => exact Leads.pure hs₃ (htyped _ rfl)
    · exact Leads.pure hs₃ (remembers_error _)
    · exact Leads.pure hs₃ (remembers_error _)
  · apply Leads.bind (leads_resolveInTypeScope hE hsolve hs₂ hscope₂ ht)
    intro typed s₃ h₃ hs₃ htyped
    split
    · next result => exact Leads.pure hs₃ (htyped _ rfl)
    · exact leads_resolveFramework hE hsolve hs₃ (h₃.lt_scopes hscope₂) ht

theorem resolves_resolveRequest (hE : V.Speaks E) (hsolve : Resolves V E solve) :
    Resolves V E (resolveRequest E solve) := by
  intro chain scope request s hs hscope ht
  unfold resolveRequest
  apply Leads.get
  split
  · next v hv =>
    obtain ⟨e, he, hk, hev⟩ := mem_of_lookup hv
    refine Leads.pure hs ?_
    rw [fst_eq_of_beq hk, ← hev]
    exact hs.byType e he
  · exact Leads.pure hs (remembers_error _)
  · apply Leads.unlessDiverged (leads_computeRequest hE hsolve hs hscope ht)
    intro result S _ hresult
    have hgrows : S.Extends { S with memo := { S.memo with
        byType := ((scope, request.ty), result) :: S.memo.byType } } :=
      Extends.of_same rfl rfl fun _ _ => id
    have hnew := hresult.mono hgrows
    exact ⟨{ grows := hgrows, byType := mem_cons_imp hnew }, hnew⟩

/-- A search of any depth fills a covered request by a legal tree of the scope that asks. -/
theorem resolves_solve (hE : V.Speaks E) (depth : Nat) : Resolves V E (Search.solve E depth) := by
  induction depth with
  | zero =>
    intro chain scope request s _ _ _ a s' h
    cases h
  | succ depth ih => exact resolves_resolveRequest hE ih

def SiteLegal (E : Environment) (S : Session) (scope : ScopeId) (site : CallSite) : Prop :=
  -- The requests of a call site are filled by legal trees of the scope, but for those that need not
  -- be filled.
  ∀ scope' results, site = .filled scope' results →
    scope' = scope ∧ (∀ r v, (r, some v) ∈ results → Legal E S v ∧ v.scope = scope) ∧
      ∀ r, (r, none) ∈ results → r.required = false

structure SoFar (E : Environment) (S : Session) (scope : ScopeId)
    (results : List (Request × Option Resolved)) : Prop where
  -- What the requests of a call site have been filled with so far: legal values of the scope, and
  -- nothing for those that need not be filled.
  values : ∀ r v, (r, some v) ∈ results → Legal E S v ∧ v.scope = scope
  required : ∀ r, (r, none) ∈ results → r.required = false

theorem soFar_nil {S : Session} : SoFar E S scope [] where
  values _ _ h := absurd h List.not_mem_nil
  required _ h := absurd h List.not_mem_nil

theorem SoFar.mono {S S' : Session} {results : List (Request × Option Resolved)}
    (h : SoFar E S scope results) (hS : S.Extends S') : SoFar E S' scope results :=
  { h with values := fun r v hv => ⟨(h.values r v hv).1.mono hS, (h.values r v hv).2⟩ }

theorem SoFar.append {S : Session} {results : List (Request × Option Resolved)}
    {v : Option Resolved} (h : SoFar E S scope results)
    (hv : ∀ w, v = some w → Legal E S w ∧ w.scope = scope)
    (hn : v = none → request.required = false) : SoFar E S scope (results ++ [(request, v)]) where
  values r w hw := by
    rcases List.mem_append.1 hw with hw | hw
    · exact h.values r w hw
    · cases List.mem_singleton.1 hw
      exact hv w rfl
  required r hr := by
    rcases List.mem_append.1 hr with hr | hr
    · exact h.required r hr
    · cases List.mem_singleton.1 hr
      exact hn rfl

theorem leads_solveAll (hE : V.Speaks E) (depth : Nat) {requests : List Request}
    {results : List (Request × Option Resolved)} {worst : Option (Request × Failure)}
    (hs : Sound V E s.session) (hscope : scope < s.session.scopes.size)
    (ht : ∀ r ∈ requests, V.Covers r.ty) (hr : SoFar E s.session scope results) :
    Leads V E s (solveAll E depth scope requests results worst) fun site S' =>
      SiteLegal E S' scope site := by
  induction requests generalizing s results worst with
  | nil =>
    cases worst with
    | none =>
      rw [solveAll]
      refine Leads.pure hs ?_
      rintro _ _ ⟨⟩
      exact ⟨rfl, hr.values, hr.required⟩
    | some w =>
      rw [solveAll]
      exact Leads.pure hs fun _ _ h => by cases h
  | cons request rest ih =>
    obtain ⟨ht, hrest⟩ := List.forall_mem_cons.1 ht
    rw [solveAll]
    apply Leads.bind (resolves_solve hE depth [] scope request s hs hscope ht)
    intro result s' hgrows hs' hresult
    have hgoOn : ∀ {results worst}, SoFar E s'.session scope results →
        Leads V E s' (solveAll E depth scope rest results worst) fun site S' =>
          SiteLegal E S' scope site :=
      fun hr => ih hs' (hgrows.lt_scopes hscope) hrest hr
    have hold := hr.mono hgrows
    split
    · next v =>
      apply hgoOn
      apply hold.append
      · rintro _ ⟨⟩
        exact hresult v rfl
      · exact fun h => by cases h
    · split
      · -- a required request that fails adds nothing, the call site is not filled in the end
        exact hgoOn hold
      · next hnot =>
        exact hgoOn (hold.append (fun _ h => by cases h) fun _ => Bool.eq_false_iff.2 hnot)

/-- What each request of a call site keeps, filling them all keeps. -/
theorem Obeys.solveAll {I : Session → Prop} {depth : Nat} {requests : List Request}
    {results : List (Request × Option Resolved)} {worst : Option (Request × Failure)}
    (hI : ∀ request ∈ requests, ∀ s, I s.session → scope < s.session.scopes.size →
      Obeys I s (Search.solve E depth [] scope request) fun _ _ => True)
    (hs : I s.session) (hscope : scope < s.session.scopes.size) :
    Obeys I s (Search.solveAll E depth scope requests results worst) fun _ _ => True := by
  induction requests generalizing s results worst with
  | nil =>
    cases worst with
    | none =>
      rw [Search.solveAll]
      exact Obeys.pure hs trivial
    | some w =>
      rw [Search.solveAll]
      exact Obeys.pure hs trivial
  | cons request rest ih =>
    obtain ⟨hrequest, hrest⟩ := List.forall_mem_cons.1 hI
    rw [Search.solveAll]
    apply Obeys.bind (hrequest s hs hscope)
    intro result s' hgrows hs' _
    -- whatever has been filled and whatever has failed so far, the rest is filled next
    have hgoOn : ∀ results worst,
        Obeys I s' (Search.solveAll E depth scope rest results worst) fun _ _ => True :=
      fun results worst => ih hrest hs' (hgrows.lt_scopes hscope)
    split
    · exact hgoOn _ _
    · split
      · exact hgoOn _ _
      · exact hgoOn _ _

end Wiring.Search
