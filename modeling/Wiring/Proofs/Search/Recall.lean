import Wiring.Proofs.Search.Comparison
import Wiring.Proofs.Search.Simulation
import Wiring.Proofs.Search.Solve

namespace Wiring.Search

open Session Vocabulary

variable {E : Environment} {S : Session} {s : Search} {n : Nat} {scope inner : ScopeId}
  {c : InjectableId} {solve : Solve} {chain : List InjectableId} {request request' : Request}

def Mirrors (E : Environment) (solve : Solve) : Prop :=
  -- Solving a request follows the reference. For another request of the same type the reference
  -- gives the same answer later on.
  ∀ n chain scope (request request' : Request) s, Sound everything E s.session →
    Recalls E s.session → scope < s.session.scopes.size → (request'.ty == request.ty) = true →
      Follows E n s (solve chain scope request) (fun d => reference E d [] scope request)
        (fun d => reference E d [] scope request') (answer request') fun a => answer request a = a

abbrev Fixed (a : Except Failure Resolved) : Prop :=
  ∀ request, answer request a = a

/-! ### Dependencies -/

theorem leads_dependencies (hsolve : Resolves everything E solve) {requests : List Request}
    (hs : Sound everything E s.session) (hi : inner < s.session.scopes.size) :
    Leads everything E s (fillAll (solve chain inner) requests) fun _ _ => True :=
  (leads_fillAll hs hi fun r _ s hs hi => hsolve chain inner r s hs hi (covers_everything _)).imp
    fun _ _ _ _ _ => trivial

abbrev FollowsIn (E : Environment) (solve : Solve) (chain : List InjectableId) (scope : ScopeId)
    (request request' : Request) (n : Nat) (s : Search) {α : Type}
    (step : (InjectableId → SearchM (Except Failure Resolved)) → Request → SearchM α) (g : α → α)
    (Q : α → Prop) : Prop :=
  -- A step in which candidates are resolved follows the same step without memory: for the request,
  -- and later on for another one for the same type.
  Follows E n s (step (resolveCandidate E solve chain scope request) request)
    (fun d => step (computeCandidate E (reference E d) [] scope request) request)
    (fun d => step (computeCandidate E (reference E d) [] scope request') request') g Q

section Traversal

variable (hsolve : Resolves everything E solve) (hm : Mirrors E solve)
include hsolve hm

theorem follows_fillAll {requests : List Request} (hs : Sound everything E s.session)
    (hr : Recalls E s.session) (hi : inner < s.session.scopes.size) :
    Follows E n s (fillAll (solve chain inner) requests)
      (fun d => fillAll (reference E d [] inner) requests)
      (fun d => fillAll (reference E d [] inner) requests) id fun _ => True := by
  induction requests generalizing s with
  | nil => exact Follows.pure hr fun _ => ⟨rfl, trivial⟩
  | cons request rest ih =>
    -- the rest of the slots, from wherever the search is by then
    have hgoOn : ∀ (v : Option Resolved) (s' : Search), Sound everything E s'.session →
        Recalls E s'.session → inner < s'.session.scopes.size →
        Follows E n s' (fillNext request v (fillAll (solve chain inner) rest))
          (fun d => fillNext request v (fillAll (reference E d [] inner) rest))
          (fun d => fillNext request v (fillAll (reference E d [] inner) rest)) id
          fun _ => True := by
      intro v s' hs' hr' hi'
      unfold fillNext
      refine Follows.bind (leads_dependencies hsolve hs' hi') (ih hs' hr' hi') ?_
      intro result s'' h
      cases result with
      | ok filled => exact Follows.pure h.recalls fun _ => ⟨rfl, trivial⟩
      | error failure => exact Follows.pure h.recalls fun _ => ⟨rfl, trivial⟩
    have hrequest := hm n chain inner request request s hs hr hi BEq.rfl
    simp only [fillAll]
    refine Follows.bind (hsolve chain inner request s hs hi (covers_everything _))
      (hrequest.imp (k := id) (R := fun _ => True) fun a ha => ⟨ha.symm, trivial⟩) ?_
    intro result s' h
    have hi' := h.grows.lt_scopes hi
    cases result with
    | ok v => exact hgoOn (some v) s' h.sound h.recalls hi'
    | error failure =>
      dsimp only [id]
      split
      · exact Follows.pure h.recalls fun _ => ⟨rfl, trivial⟩
      · exact hgoOn none s' h.sound h.recalls hi'

/-! ### Candidates -/

theorem follows_fillCandidate {dependencies : List Request} (hs : Sound everything E s.session)
    (hr : Recalls E s.session) (hi : inner < s.session.scopes.size) :
    Follows E n s (fillCandidate (solve chain inner) scope c dependencies)
      (fun d => fillCandidate (reference E d [] inner) scope c dependencies)
      (fun d => fillCandidate (reference E d [] inner) scope c dependencies) id Fixed := by
  unfold fillCandidate
  refine Follows.bind (leads_dependencies hsolve hs hi) (follows_fillAll hsolve hm hs hr hi) ?_
  intro result s' h
  cases result with
  | ok filled => exact Follows.pure h.recalls fun _ => ⟨rfl, fun _ => rfl⟩
  | error failure => exact Follows.pure h.recalls fun _ => ⟨rfl, fun _ => rfl⟩

def enterCandidate (E : Environment) (solve : Solve) (chain : List InjectableId) (scope : ScopeId)
    (c : InjectableId) (dependencies : List Request) : SearchM (Except Failure Resolved) := do
  let inner ← if dependencies.isEmpty then pure scope else lift (Session.dependencyScope E scope c)
  fillCandidate (solve (c :: chain) inner) scope c dependencies

omit hsolve hm in
/-- The three ways in which a candidate is computed. -/
theorem run_computeCandidate : computeCandidate E solve chain scope request c s =
    match obstacle? E s.session scope c with
    | some failure => .ok (.error failure, s)
    | none =>
      if diverges s.session chain (s.session.injectable c) then
        .ok (.error (.divergent c request), { s with divergences := s.divergences + 1 })
      else enterCandidate E solve chain scope c
        ((s.session.injectable c).dependencies E.catalog) s := by
  unfold computeCandidate
  change (match obstacle? E s.session scope c with | some failure => _ | none => _ :
    SearchM (Except Failure Resolved)) s = _
  cases obstacle? E s.session scope c with
  | some failure => rfl
  | none =>
    change (if diverges s.session chain (s.session.injectable c) then _ else _ :
      SearchM (Except Failure Resolved)) s = _
    split
    · rfl
    · rfl

omit hsolve hm in
/-- A candidate that nothing is remembered of is computed. -/
theorem run_resolveCandidate :
    resolveCandidate E solve chain scope request c s =
      match s.session.memo.byCandidate.lookup (scope, c) with
      | some result => .ok (result, s)
      | none => unlessDiverged (computeCandidate E solve chain scope request c) (fun result memo =>
          { memo with byCandidate := ((scope, c), result) :: memo.byCandidate }) s := by
  unfold resolveCandidate
  refine run_bind rfl ?_
  cases s.session.memo.byCandidate.lookup (scope, c) with
  | some result => rfl
  | none => rfl

omit hsolve hm in
/-- A request that no result is remembered for is computed. -/
theorem run_resolveRequest :
    resolveRequest E solve chain scope request s =
      match s.session.memo.byType.lookup (scope, request.ty) with
      | some result => .ok (answer request result, s)
      | none => unlessDiverged (computeRequest E solve chain scope request) (fun result memo =>
          { memo with byType := ((scope, request.ty), result) :: memo.byType }) s := by
  unfold resolveRequest
  refine run_bind rfl ?_
  cases s.session.memo.byType.lookup (scope, request.ty) with
  | some result => cases result <;> rfl
  | none => rfl

theorem follows_enterCandidate {dependencies : List Request} (hs : Sound everything E s.session)
    (hr : Recalls E s.session) (hscope : scope < s.session.scopes.size)
    (hc : c < s.session.injectables.size) :
    Follows E n s (enterCandidate E solve chain scope c dependencies)
      (fun d => enterCandidate E (reference E d) [] scope c dependencies)
      (fun d => enterCandidate E (reference E d) [] scope c dependencies) id Fixed := by
  unfold enterCandidate
  simp only [reference_chain]
  cases hempty : dependencies.isEmpty with
  | true => exact follows_fillCandidate hsolve hm hs hr hscope
  | false =>
    refine Follows.bind (Leads.lift (leads_dependencyScope (speaks_everything E) hs hscope hc))
      (Follows.lift hr (blind_dependencyScope E scope c) (found_dependencyScope E scope hc)) ?_
    intro inner s' h
    exact follows_fillCandidate hsolve hm h.sound h.recalls h.result.1

/-- What a candidate comes to is the same for every request. -/
theorem follows_computeCandidate (hs : Sound everything E s.session) (hr : Recalls E s.session)
    (hscope : scope < s.session.scopes.size) (hc : c < s.session.injectables.size) :
    Follows E n s (computeCandidate E solve chain scope request c)
      (fun d => computeCandidate E (reference E d) [] scope request c)
      (fun d => computeCandidate E (reference E d) [] scope request' c) id Fixed := by
  have hagain : ∀ T, s.session.Keeps T → obstacle? E T scope c = obstacle? E s.session scope c :=
    fun T hT => obstacle_eq hT.grows hscope hc
  cases ho : obstacle? E s.session scope c with
  | some failure =>
    -- an obstacle lies in the candidate and the scope, which do not change
    have hfixed : Fixed (.error failure) := fun r =>
      congrArg Except.error (forRequest_of_obstacle ho r)
    refine Follows.of_eq (Follows.pure hr fun _ => ⟨rfl, hfixed⟩) ?_ (fun d r m => ?_)
      fun d T m hT => ?_
    · rw [run_computeCandidate, ho]
      rfl
    · rw [run_computeCandidate, show obstacle? E (s.session.withResults r) scope c = _ from ho]
      rfl
    · rw [run_computeCandidate, hagain T hT, ho]
      rfl
  | none =>
    cases hd : diverges s.session chain (s.session.injectable c) with
    | true =>
      -- the reference would go on here, but nothing is claimed after a divergence
      refine Follows.diverged hr (a := .error (.divergent c request)) ?_
      rw [run_computeCandidate, ho]
      exact if_pos hd
    | false =>
      have henter : Follows E n s (enterCandidate E solve chain scope c
          ((s.session.injectable c).dependencies E.catalog)) _ _ id Fixed :=
        follows_enterCandidate hsolve hm hs hr hscope hc
      refine Follows.of_eq henter ?_ (fun d r m => ?_) fun d T m hT => ?_
      · rw [run_computeCandidate, ho]
        exact if_neg (Bool.eq_false_iff.1 hd)
      · rw [run_computeCandidate, show obstacle? E (s.session.withResults r) scope c = _ from ho]
        rfl
      · rw [run_computeCandidate, hagain T hT, ho, ← hT.grows.injectable c hc]
        rfl

/-- A result that is remembered of the candidate is what the reference computes. -/
theorem follows_resolveCandidate (hs : Sound everything E s.session) (hr : Recalls E s.session)
    (hscope : scope < s.session.scopes.size) (hc : c < s.session.injectables.size) :
    Follows E n s (resolveCandidate E solve chain scope request c)
      (fun d => computeCandidate E (reference E d) [] scope request c)
      (fun d => computeCandidate E (reference E d) [] scope request' c) id Fixed := by
  unfold resolveCandidate
  apply Follows.get
  split
  · next result hresult =>
    obtain ⟨⟨⟨scope', c'⟩, result'⟩, he, hk, rfl⟩ := mem_of_lookup hresult
    obtain ⟨rfl, rfl⟩ := Prod.mk.inj (eq_of_beq hk)
    have hrecalled := hr.byCandidate _ he
    exact Follows.recalled hr fun _ =>
      ⟨(hrecalled request).1, (hrecalled request').1, fun r => (hrecalled r).2⟩
  · refine Follows.unlessDiverged (follows_computeCandidate hsolve hm hs hr hscope hc)
      (fun a S => ⟨(_, _), rfl⟩) fun a s' ha hclean => ?_
    -- one run of the search is followed for every request, so its result is settled for all
    have hall : ∀ r, Followed E s.divergences s _ (fun d =>
        computeCandidate E (reference E d) [] scope r c) id Fixed a s' := fun r =>
      follows_computeCandidate hsolve hm hs hr hscope hc (Nat.le_refl _) a s' ha
    refine (hall request).recalls.addCandidate fun r => ?_
    exact ⟨((hall r).mirrored hclean).again, (hall r).fact hclean r⟩

/-! ### Choice -/

abbrev FixedStanding (standing : Standing) : Prop :=
  ∀ f, standing.failure = some f → ∀ request, f.forRequest request = f

omit hsolve hm in
theorem fixedStanding_add {standing : Standing} {ty : Ty} {result : Except Failure Resolved}
    (h : FixedStanding standing) (hr : Fixed result) :
    FixedStanding (standing.add E S ty result) := by
  cases result with
  | ok v =>
    unfold Standing.add
    dsimp only
    split
    · exact h
    · split
      · exact h
      · exact h
      · exact h
  | error failure =>
    have hnew : ∀ r, failure.forRequest r = failure := fun r => Except.error.inj (hr r)
    rintro f ⟨⟩
    unfold Failure.report
    split
    · next old hold =>
      split
      · exact hnew
      · exact h old hold
    · exact hnew

omit hsolve hm in
/-- What a standing means for another request. -/
theorem answer_outcome {standing : Standing} (h : FixedStanding standing)
    (request request' : Request) :
    answer request' (standing.outcome scope request) = standing.outcome scope request' := by
  unfold Standing.outcome
  split
  · rfl
  · cases hf : standing.failure with
    | none => rfl
    | some f => exact congrArg Except.error (h f hf request')
  · rfl

omit hsolve hm in
/-- A result is taken in as the reference takes it in. -/
theorem follows_goOn (hty : (request'.ty == request.ty) = true) {rest : List InjectableId}
    {standing : Standing} {result : Except Failure Resolved} (hs : Sound everything E s.session)
    (hst : Stands E s.session scope standing) (hresult : Remembers E s.session scope result)
    (hrest : FollowsIn E solve chain scope request request' n s (fun resolve r =>
      tryAllWith E resolve scope r (standing.add E s.session request.ty result) rest) id
      FixedStanding) :
    FollowsIn E solve chain scope request request' n s
      (fun resolve r => goOnWith E resolve scope r standing rest result) id FixedStanding := by
  have hbest : ∀ v ∈ standing.best, KnownTree s.session v := fun v hv =>
    knownTree_of_legal hs (hst v hv).1
  have hvalue : ∀ v, result = .ok v → KnownTree s.session v := fun v hv =>
    knownTree_of_legal hs (hresult v hv).1
  refine Follows.of_eq hrest rfl (fun d r m => ?_) fun d T m hT => ?_
  · exact congrArg (fun st => tryAllWith E (computeCandidate E (reference E d) [] scope request)
      scope request st rest ⟨s.session.withResults r, m⟩)
      (add_eq (keeps_withResults _ r).grows hbest hvalue BEq.rfl)
  · exact congrArg (fun st => tryAllWith E (computeCandidate E (reference E d) [] scope request')
      scope request' st rest ⟨T, m⟩) (add_eq hT.grows hbest hvalue hty)

/-- The same candidates are tried, and they come to the same standing. -/
theorem follows_tryAll (hty : (request'.ty == request.ty) = true) {candidates : List InjectableId}
    {standing : Standing} (hs : Sound everything E s.session) (hr : Recalls E s.session)
    (hscope : scope < s.session.scopes.size) (hc : ∀ c ∈ candidates, Usable s.session scope c)
    (hst : Stands E s.session scope standing) (hfixed : s.divergences ≤ n → FixedStanding standing) :
    FollowsIn E solve chain scope request request' n s
      (fun resolve r => tryAllWith E resolve scope r standing candidates) id FixedStanding := by
  induction candidates generalizing s standing with
  | nil => exact Follows.pure hr fun hn => ⟨rfl, hfixed hn⟩
  | cons c rest ih =>
    obtain ⟨hc, hrest⟩ := List.forall_mem_cons.1 hc
    -- whether a candidate is tried is decided alike here and in all later sessions
    have hbeats : ∀ T, s.session.Keeps T → standing.beats E T scope request'.ty c =
        standing.beats E s.session scope request.ty c := fun T hT =>
      beats_eq hT.grows hscope (known_of_usable hs hscope hc)
        (fun v hv => knownTree_of_legal hs (hst v hv).1) hty
    cases hb : standing.beats E s.session scope request.ty c with
    | true =>
      refine Follows.of_eq (Follows.pure hr fun hn => ⟨rfl, hfixed hn⟩) ?_ (fun d r m => ?_)
        fun d T m hT => ?_
      · exact run_tryAllWith.trans (if_pos hb)
      · exact run_tryAllWith.trans (if_pos hb)
      · exact run_tryAllWith.trans (if_pos ((hbeats T hT).trans hb))
    | false =>
      have hnext : FollowsIn E solve chain scope request request' n s (fun resolve r =>
          resolve c >>= goOnWith E resolve scope r standing rest) id FixedStanding := by
        refine Follows.bind (leads_resolveCandidate (speaks_everything E) hsolve hs hscope hc)
          (follows_resolveCandidate hsolve hm hs hr hscope hc.candidate) ?_
        intro result s' h
        have hst' : Stands E s'.session scope standing := hst.mono h.grows
        refine follows_goOn hty h.sound hst' h.result (ih h.sound h.recalls (h.grows.lt_scopes hscope)
          (fun c hc => (hrest c hc).mono h.grows) (hst'.add h.result) fun hn => ?_)
        exact fixedStanding_add (hfixed (Nat.le_trans h.divergences hn)) (h.fact hn)
      have hgo : ∀ {b : Bool}, b = false → ¬ b = true := fun h => Bool.eq_false_iff.1 h
      refine Follows.of_eq hnext ?_ (fun d r m => ?_) fun d T m hT => ?_
      · exact run_tryAllWith.trans (if_neg (hgo hb))
      · exact run_tryAllWith.trans (if_neg (hgo hb))
      · exact run_tryAllWith.trans (if_neg (hgo ((hbeats T hT).trans hb)))

theorem follows_choose (hty : (request'.ty == request.ty) = true)
    {candidates : List InjectableId} (hs : Sound everything E s.session) (hr : Recalls E s.session)
    (hscope : scope < s.session.scopes.size) (hc : ∀ c ∈ candidates, Usable s.session scope c) :
    FollowsIn E solve chain scope request request' n s
      (fun resolve r => chooseWith E resolve scope r candidates) (answer request')
      fun a => answer request a = a := by
  cases hsorted : ranked E s.session scope request.ty candidates with
  | none =>
    intro _ a s' hrun
    cases (run_chooseWith_none hsorted).symm.trans hrun
  | some sorted =>
    have husable : ∀ c ∈ sorted, Usable s.session scope c := fun c h =>
      hc c (mem_of_mem_ranked hsorted h)
    have hnone : Stands E s.session scope {} := List.forall_mem_nil _
    have hleads : Leads everything E s
        (tryAllWith E (resolveCandidate E solve chain scope request) scope request {} sorted)
        fun _ _ => True := by
      rw [← tryAll_eq]
      exact (leads_tryAll (speaks_everything E) hsolve hs hscope husable hnone).imp
        fun _ _ _ _ _ => trivial
    have htried : FollowsIn E solve chain scope request request' n s (fun resolve r =>
        tryAllWith E resolve scope r {} sorted >>= fun standing => pure (standing.outcome scope r))
        (answer request') fun a => answer request a = a := by
      refine Follows.bind hleads
        (follows_tryAll hsolve hm hty hs hr hscope husable hnone fun _ _ h => by cases h) ?_
      intro standing s' h
      exact Follows.pure h.recalls fun hn => ⟨(answer_outcome (h.fact hn) request request').symm,
        answer_outcome (h.fact hn) request request⟩
    -- later sessions rank the candidates as this one does
    have hranked : ∀ {T : Session} {r : Ty}, s.session.Keeps T → (r == request.ty) = true →
        ranked E T scope r candidates = some sorted := fun hT hr' =>
      (ranked_eq hT.grows hscope (fun c h => known_of_usable hs hscope (hc c h)) hr').trans hsorted
    refine Follows.of_eq htried (run_chooseWith hsorted) (fun d r m => ?_) fun d T m hT => ?_
    · exact run_chooseWith (hranked (keeps_withResults _ r) BEq.rfl)
    · exact run_chooseWith (hranked hT hty)

theorem follows_resolveCandidates (hty : (request'.ty == request.ty) = true)
    {candidates : List InjectableId} (hs : Sound everything E s.session) (hr : Recalls E s.session)
    (hscope : scope < s.session.scopes.size) (hc : ∀ c ∈ candidates, Usable s.session scope c) :
    FollowsIn E solve chain scope request request' n s
      (fun resolve r => resolveCandidatesWith E resolve scope r candidates) (answer request')
      fun a => answer request a = a := by
  have hone : ∀ only ∈ candidates, FollowsIn E solve chain scope request request' n s
      (fun resolve _ => resolve only) (answer request') fun a => answer request a = a :=
    fun only h => (follows_resolveCandidate hsolve hm hs hr hscope (hc only h).candidate).imp
      fun a ha => ⟨ha request', ha request⟩
  have hmany : FollowsIn E solve chain scope request request' n s
      (fun resolve r => chooseWith E resolve scope r candidates) (answer request')
      fun a => answer request a = a := follows_choose hsolve hm hty hs hr hscope hc
  match candidates with
  | [] => exact hmany
  | [only] => exact hone only (List.mem_singleton_self only)
  | _ :: _ :: _ => exact hmany

/-! ### Requests -/

abbrev NamesOnly (request : Request) (result : Option (Except Failure Resolved)) : Prop :=
  ∀ a, result = some a → answer request a = a

theorem follows_resolveSome (hty : (request'.ty == request.ty) = true)
    {candidates : List InjectableId} (hs : Sound everything E s.session) (hr : Recalls E s.session)
    (hscope : scope < s.session.scopes.size) (hc : ∀ c ∈ candidates, Usable s.session scope c) :
    FollowsIn E solve chain scope request request' n s
      (fun resolve r => resolveSomeWith E resolve scope r candidates) (Option.map (answer request'))
      (NamesOnly request) := by
  unfold resolveSomeWith
  cases candidates.isEmpty with
  | true => exact Follows.pure hr fun _ => ⟨rfl, fun _ h => by cases h⟩
  | false =>
    refine (follows_resolveCandidates hsolve hm hty hs hr hscope hc).map (fun _ => rfl) ?_
    rintro a ha _ ⟨⟩
    exact ha

theorem follows_resolveInTypeScope (hK : E.catalog.ParametersByKey)
    (hty : (request'.ty == request.ty) = true) (hs : Sound everything E s.session)
    (hr : Recalls E s.session) (hscope : scope < s.session.scopes.size) :
    FollowsIn E solve chain scope request request' n s
      (fun resolve r => resolveInTypeScopeWith E resolve scope r) (Option.map (answer request'))
      (NamesOnly request) := by
  have hE := speaks_everything E
  unfold resolveInTypeScopeWith
  cases E.config.typeScopes with
  | false => exact Follows.pure hr fun _ => ⟨rfl, fun _ h => by cases h⟩
  | true =>
    refine Follows.bind (Leads.lift (leads_typeScope hE hs request.ty))
      (Follows.lift hr (blind_typeScope E request.ty) (found_typeScope hK hty _)) ?_
    intro found s₁ h₁
    have hscope₁ := h₁.grows.lt_scopes hscope
    cases found with
    | none => exact Follows.pure h₁.recalls fun _ => ⟨rfl, fun _ h => by cases h⟩
    | some typeScope =>
      have hT := h₁.result typeScope rfl
      let statics := (s₁.session.scope scope).statics
      have hlooked : FollowsIn E solve chain scope request request' n s₁ (fun resolve r =>
          lift (Session.candidates E typeScope r.ty statics) >>=
            resolveSomeWith E resolve scope r) (Option.map (answer request'))
          (NamesOnly request) := by
        refine Follows.bind (Leads.lift
          (leads_candidates hE (covers_everything _) statics h₁.sound (lt_of_isTypeScope hT.flag)))
          (Follows.lift h₁.recalls (blind_candidates E typeScope request.ty statics)
            (found_candidates E typeScope statics hty _)) ?_
        intro candidates s₂ h₂
        exact follows_resolveSome hsolve hm hty h₂.sound h₂.recalls (h₂.grows.lt_scopes hscope₁)
          fun c hmem => usable_of_typeScope (hT.mono h₂.grows) (h₂.result c hmem)
      -- a later session looks up with the same static parameters
      refine Follows.of_eq hlooked rfl (fun _ _ _ => rfl) fun d T m hT' => ?_
      exact congrArg (fun statics => (lift (Session.candidates E typeScope request'.ty statics) >>=
        resolveSomeWith E (computeCandidate E (reference E d) [] scope request') scope request')
          ⟨T, m⟩)
        (congrArg Scope.statics (hT'.grows.scope scope hscope₁))

theorem follows_resolveMade (hs : Sound everything E s.session) (hr : Recalls E s.session)
    (hscope : scope < s.session.scopes.size) {made : Option InjectableId}
    (hmade : ∀ c, made = some c → s.session.Owns scope c) :
    FollowsIn E solve chain scope request request' n s
      (fun resolve r => resolveMadeWith resolve scope r made) (answer request')
      fun a => answer request a = a := by
  cases made with
  | none => exact Follows.pure hr fun _ => ⟨rfl, rfl⟩
  | some c =>
    exact (follows_resolveCandidate hsolve hm hs hr hscope (hmade c rfl).candidate).imp
      fun a ha => ⟨ha request', ha request⟩

theorem follows_resolveFramework (hty : (request'.ty == request.ty) = true)
    (hs : Sound everything E s.session) (hr : Recalls E s.session)
    (hscope : scope < s.session.scopes.size) :
    FollowsIn E solve chain scope request request' n s
      (fun resolve r => resolveFrameworkWith E resolve scope r) (answer request')
      fun a => answer request a = a := by
  unfold resolveFrameworkWith
  cases E.config.frameworkInjectables with
  | false =>
    have hnone : ∀ c, (none : Option InjectableId) = some c → s.session.Owns scope c :=
      fun _ h => by cases h
    change FollowsIn E solve chain scope request request' n s
      (fun resolve r => resolveMadeWith resolve scope r none) _ _
    exact follows_resolveMade hsolve hm hs hr hscope hnone
  | true =>
    refine Follows.bind
      (Leads.lift (leads_framework (speaks_everything E) hs hscope (covers_everything _)))
      (Follows.lift hr (blind_framework E scope request.ty) (found_framework E scope hty _)) ?_
    intro made s' h
    exact follows_resolveMade hsolve hm h.sound h.recalls (h.grows.lt_scopes hscope) h.result

theorem follows_fill (hK : E.catalog.ParametersByKey) (hty : (request'.ty == request.ty) = true)
    {candidates : List InjectableId} (hs : Sound everything E s.session) (hr : Recalls E s.session)
    (hscope : scope < s.session.scopes.size) (hc : ∀ c ∈ candidates, Usable s.session scope c) :
    FollowsIn E solve chain scope request request' n s
      (fun resolve r => fillWith E resolve scope r candidates) (answer request')
      fun a => answer request a = a := by
  have hE := speaks_everything E
  have hsome : Leads everything E s
      (resolveSomeWith E (resolveCandidate E solve chain scope request) scope request candidates)
      fun _ _ => True := by
    rw [← resolveSome_eq]
    exact (leads_resolveSome hE hsolve hs hscope hc).imp fun _ _ _ _ _ => trivial
  have htyped : ∀ s', Sound everything E s'.session → scope < s'.session.scopes.size →
      Leads everything E s'
        (resolveInTypeScopeWith E (resolveCandidate E solve chain scope request) scope request)
        fun _ _ => True := fun s' hs' hscope' => by
    rw [← resolveInTypeScope_eq]
    exact (leads_resolveInTypeScope hE hsolve hs' hscope' (covers_everything _)).imp
      fun _ _ _ _ _ => trivial
  unfold fillWith
  refine Follows.bind hsome (follows_resolveSome hsolve hm hty hs hr hscope hc) ?_
  intro result s₁ h₁
  have hscope₁ := h₁.grows.lt_scopes hscope
  have hinType : FollowsIn E solve chain scope request request' n s₁
      (fun resolve r => resolveInTypeScopeWith E resolve scope r) (Option.map (answer request'))
      (NamesOnly request) :=
    follows_resolveInTypeScope hsolve hm hK hty h₁.sound h₁.recalls hscope₁
  match result with
  | some (.ok v) => exact Follows.pure h₁.recalls fun _ => ⟨rfl, rfl⟩
  | some (.error user) =>
    refine Follows.bind (htyped s₁ h₁.sound hscope₁) hinType ?_
    intro typed s₂ h₂
    -- what has seen no divergence by now had seen none before
    have huser : s₂.divergences ≤ n → user.forRequest request = user := fun hn =>
      Except.error.inj (h₁.fact (Nat.le_trans h₂.divergences hn) _ rfl)
    match typed with
    | some (.ok v) => exact Follows.pure h₂.recalls fun _ => ⟨rfl, rfl⟩
    | some (.error typed) =>
      refine Follows.pure h₂.recalls fun hn => ?_
      have htyped := Except.error.inj (h₂.fact hn _ rfl)
      refine ⟨congrArg Except.error (overall_forRequest user typed request'), ?_⟩
      have hsame := overall_forRequest user typed request
      rw [huser hn, htyped] at hsame
      exact congrArg Except.error hsame.symm
    | none =>
      exact Follows.pure h₂.recalls fun hn => ⟨rfl, congrArg Except.error (huser hn)⟩
  | none =>
    refine Follows.bind (htyped s₁ h₁.sound hscope₁) hinType ?_
    intro typed s₂ h₂
    match typed with
    | some result => exact Follows.pure h₂.recalls fun hn => ⟨rfl, h₂.fact hn _ rfl⟩
    | none =>
      exact follows_resolveFramework hsolve hm hty h₂.sound h₂.recalls (h₂.grows.lt_scopes hscope₁)

/-- A computed request is answered as the reference answers it. -/
theorem follows_computeRequest (hK : E.catalog.ParametersByKey)
    (hty : (request'.ty == request.ty) = true) (hs : Sound everything E s.session)
    (hr : Recalls E s.session) (hscope : scope < s.session.scopes.size) :
    FollowsIn E solve chain scope request request' n s
      (fun resolve r => computeRequestWith E resolve scope r) (answer request')
      fun a => answer request a = a := by
  let statics := (s.session.scope scope).statics
  have hlooked : FollowsIn E solve chain scope request request' n s (fun resolve r =>
      lift (Session.candidates E scope r.ty statics) >>= fillWith E resolve scope r)
      (answer request') fun a => answer request a = a := by
    refine Follows.bind
      (Leads.lift (leads_candidates (speaks_everything E) (covers_everything _) statics hs hscope))
      (Follows.lift hr (blind_candidates E scope request.ty statics)
        (found_candidates E scope statics hty _)) ?_
    intro candidates s' h
    exact follows_fill hsolve hm hK hty h.sound h.recalls (h.grows.lt_scopes hscope)
      fun c hmem => usable_of_offers h.sound (h.result c hmem)
  refine Follows.of_eq hlooked rfl (fun _ _ _ => rfl) fun d T m hT => ?_
  exact congrArg (fun statics => (lift (Session.candidates E scope request'.ty statics) >>=
    fillWith E (computeCandidate E (reference E d) [] scope request') scope request') ⟨T, m⟩)
      (congrArg Scope.statics (hT.grows.scope scope hscope))

/-- A result that is remembered for an equal type is what the reference gives, as an answer to the
request at hand. -/
theorem mirrors_resolveRequest (hK : E.catalog.ParametersByKey) :
    ∀ n chain scope (request request' : Request) s, Sound everything E s.session →
      Recalls E s.session → scope < s.session.scopes.size → (request'.ty == request.ty) = true →
        Follows E n s (resolveRequest E solve chain scope request)
          (fun d => reference E d [] scope request)
          (fun d => reference E d [] scope request') (answer request')
          fun a => answer request a = a := by
  intro n chain scope request request' s hs hr hscope hty
  have hrecalled : ∀ {result}, s.session.memo.byType.lookup (scope, request.ty) = some result →
      ∀ r : Request, (r.ty == request.ty) = true →
        Settled s.session (fun d => reference E d [] scope r) (answer r result) := by
    intro result hresult r hr'
    obtain ⟨⟨⟨scope', ty⟩, result'⟩, he, hk, rfl⟩ := mem_of_lookup hresult
    obtain ⟨rfl, hty'⟩ := of_beq_pair hk
    exact hr.byType _ he r (BEq.trans hr' hty')
  have hfound : ∀ {result}, s.session.memo.byType.lookup (scope, request.ty) = some result →
      Follows E n s (pure (answer request result)) (fun d => reference E d [] scope request)
        (fun d => reference E d [] scope request') (answer request')
        fun a => answer request a = a := by
    intro result hresult
    refine Follows.recalled hr fun _ => ⟨hrecalled hresult request BEq.rfl, ?_, answer_answer _ _ _⟩
    rw [answer_answer]
    exact hrecalled hresult request' hty
  unfold resolveRequest
  rw [computeRequest_eq]
  apply Follows.get
  split
  · next v hv => exact hfound hv
  · next failure hv => exact hfound hv
  · refine Follows.deeper (Follows.unlessDiverged
      (follows_computeRequest hsolve hm hK hty hs hr hscope) (fun a S => ⟨(_, _), rfl⟩)
      fun a s' ha hclean => ?_)
    -- what is remembered has to be right for all requests for the type, not just for this one
    have hall : ∀ r : Request, (r.ty == request.ty) = true →
        Followed E s.divergences s _ (fun d =>
          computeRequestWith E (computeCandidate E (reference E d) [] scope r) scope r)
          (answer r) (fun a => answer request a = a) a s' := fun r hr' =>
      follows_computeRequest hsolve hm hK hr' hs hr hscope (Nat.le_refl _) a s' ha
    refine (hall request BEq.rfl).recalls.addType fun r hr' => ?_
    obtain ⟨N, hN⟩ := ((hall r hr').mirrored hclean).again
    refine ⟨N + 1, fun d hd T hT m => ?_⟩
    obtain ⟨d, rfl⟩ := Nat.exists_eq_add_of_lt hd
    exact hN (N + d) (Nat.le_add_right N d) T hT m

end Traversal

/-- The search follows its reference, whatever its depth. -/
theorem mirrors_solve (hK : E.catalog.ParametersByKey) (depth : Nat) :
    Mirrors E (Search.solve E depth) := by
  induction depth with
  | zero =>
    intro n chain scope request request' s _ _ _ _ _ a s' h
    cases h
  | succ depth ih =>
    exact mirrors_resolveRequest (resolves_solve (speaks_everything E) depth) ih hK

end Wiring.Search
