import Wiring.Resolver

namespace Wiring.Search

section Choice

variable (E : Environment) (resolve : InjectableId → SearchM (Except Failure Resolved))
  (scope : ScopeId) (request : Request)

def tryAllWith : Standing → List InjectableId → SearchM Standing
  | standing, [] => pure standing
  | standing, candidate :: rest => do
    if standing.beats E (← get).session scope request.ty candidate then pure standing
    else
      let result ← resolve candidate
      let standing := standing.add E (← get).session request.ty result
      tryAllWith standing rest

def goOnWith (standing : Standing) (rest : List InjectableId) (result : Except Failure Resolved) :
    SearchM Standing := do
  tryAllWith E resolve scope request (standing.add E (← get).session request.ty result) rest

/-- Try candidates in order of preference, and see what comes of it. -/
def chooseWith (candidates : List InjectableId) : SearchM (Except Failure Resolved) := do
  match ranked E (← get).session scope request.ty candidates with
  | none => throw .disorder
  | some sorted =>
    let standing ← tryAllWith E resolve scope request {} sorted
    pure (standing.outcome scope request)

def resolveCandidatesWith (candidates : List InjectableId) : SearchM (Except Failure Resolved) :=
  match candidates with
  | [only] => resolve only
  | _ => chooseWith E resolve scope request candidates

def resolveSomeWith (candidates : List InjectableId) :
    SearchM (Option (Except Failure Resolved)) := do
  if candidates.isEmpty then pure none
  else some <$> resolveCandidatesWith E resolve scope request candidates

def resolveInTypeScopeWith : SearchM (Option (Except Failure Resolved)) := do
  if !E.config.typeScopes then pure none
  else
    match ← lift (Session.typeScope E request.ty) with
    | none => pure none
    | some typeScope =>
      let statics := ((← get).session.scope scope).statics
      let candidates ← lift (Session.candidates E typeScope request.ty statics)
      resolveSomeWith E resolve scope request candidates

def resolveMadeWith : Option InjectableId → SearchM (Except Failure Resolved)
  | some candidate => resolve candidate
  | none => pure (.error (.noCandidates scope request))

def resolveFrameworkWith : SearchM (Except Failure Resolved) := do
  let made ←
    if E.config.frameworkInjectables then lift (Session.framework? E scope request.ty)
    else pure none
  resolveMadeWith resolve scope request made

def fillWith (candidates : List InjectableId) : SearchM (Except Failure Resolved) := do
  match ← resolveSomeWith E resolve scope request candidates with
  | some (.ok v) => pure (.ok v)
  | some (.error user) =>
    match ← resolveInTypeScopeWith E resolve scope request with
    | some (.ok v) => pure (.ok v)
    | some (.error typed) => pure (.error (overall user typed))
    | none => pure (.error user)
  | none =>
    match ← resolveInTypeScopeWith E resolve scope request with
    | some result => pure result
    | none => resolveFrameworkWith E resolve scope request

def computeRequestWith : SearchM (Except Failure Resolved) := do
  let statics := ((← get).session.scope scope).statics
  let candidates ← lift (Session.candidates E scope request.ty statics)
  fillWith E resolve scope request candidates

variable {E resolve scope request}

theorem run_tryAllWith {s : Search} {standing : Standing} {c : InjectableId}
    {rest : List InjectableId} :
    tryAllWith E resolve scope request standing (c :: rest) s =
      if standing.beats E s.session scope request.ty c then .ok (standing, s)
      else (resolve c >>= goOnWith E resolve scope request standing rest) s := by
  rw [tryAllWith]
  change (if standing.beats E s.session scope request.ty c then _ else _ : SearchM Standing) s = _
  split
  · rfl
  · rfl

theorem run_chooseWith {s : Search} {candidates sorted : List InjectableId}
    (h : ranked E s.session scope request.ty candidates = some sorted) :
    chooseWith E resolve scope request candidates s = (do
      let standing ← tryAllWith E resolve scope request {} sorted
      pure (standing.outcome scope request)) s := by
  change (match ranked E s.session scope request.ty candidates with
    | none => throw .disorder
    | some sorted => do
      let standing ← tryAllWith E resolve scope request {} sorted
      pure (standing.outcome scope request) : SearchM (Except Failure Resolved)) s = _
  rw [h]

theorem run_chooseWith_none {s : Search} {candidates : List InjectableId}
    (h : ranked E s.session scope request.ty candidates = none) :
    chooseWith E resolve scope request candidates s = .error .disorder := by
  change (match ranked E s.session scope request.ty candidates with
    | none => throw .disorder
    | some sorted => do
      let standing ← tryAllWith E resolve scope request {} sorted
      pure (standing.outcome scope request) : SearchM (Except Failure Resolved)) s = _
  rw [h]
  rfl

theorem exists_sorted_of_choose {s s' : Search} {candidates : List InjectableId}
    {result : Except Failure Resolved}
    (h : chooseWith E resolve scope request candidates s = .ok (result, s')) :
    ∃ sorted standing, ranked E s.session scope request.ty candidates = some sorted ∧
      tryAllWith E resolve scope request {} sorted s = .ok (standing, s') ∧
      result = standing.outcome scope request := by
  cases hranked : ranked E s.session scope request.ty candidates with
  | none => cases (run_chooseWith_none hranked).symm.trans h
  | some sorted =>
    rw [run_chooseWith hranked] at h
    obtain ⟨⟨standing, t⟩, htry, hrun⟩ := bind_eq_ok_iff.1 h
    cases hrun
    exact ⟨sorted, standing, rfl, htry, rfl⟩

end Choice

section Equal

variable {E : Environment} {solve : Solve} {chain : List InjectableId} {scope : ScopeId}
  {request : Request}

theorem tryAll_eq (standing : Standing) (candidates : List InjectableId) :
    tryAll E solve chain scope request standing candidates =
      tryAllWith E (resolveCandidate E solve chain scope request) scope request standing
        candidates := by
  induction candidates generalizing standing with
  | nil => rfl
  | cons c rest ih => simp only [tryAll, tryAllWith, ih]

theorem resolveCandidates_eq (candidates : List InjectableId) :
    resolveCandidates E solve chain scope request candidates =
      resolveCandidatesWith E (resolveCandidate E solve chain scope request) scope request
        candidates := by
  unfold resolveCandidates resolveCandidatesWith
  split
  · rfl
  · simp only [tryAll_eq]
    rfl

theorem resolveSome_eq : resolveSome E solve chain scope request =
    resolveSomeWith E (resolveCandidate E solve chain scope request) scope request := by
  funext candidates
  unfold resolveSome resolveSomeWith
  rw [resolveCandidates_eq]

theorem resolveInTypeScope_eq : resolveInTypeScope E solve chain scope request =
    resolveInTypeScopeWith E (resolveCandidate E solve chain scope request) scope request := by
  unfold resolveInTypeScope resolveInTypeScopeWith
  exact resolveSome_eq ▸ rfl

theorem resolveFramework_eq : resolveFramework E solve chain scope request =
    resolveFrameworkWith E (resolveCandidate E solve chain scope request) scope request := by
  have hmade : ∀ made, resolveMade E solve chain scope request made =
      resolveMadeWith (resolveCandidate E solve chain scope request) scope request made := by
    intro made
    cases made with
    | none => rfl
    | some c => rfl
  unfold resolveFramework resolveFrameworkWith
  simp only [hmade]

/-- A request is computed by choosing among candidates that are looked up among the results. -/
theorem computeRequest_eq : computeRequest E solve chain scope request =
    computeRequestWith E (resolveCandidate E solve chain scope request) scope request := by
  have hsome : resolveSome E solve chain scope request =
      resolveSomeWith E (resolveCandidate E solve chain scope request) scope request :=
    resolveSome_eq
  have htyped : resolveInTypeScope E solve chain scope request =
      resolveInTypeScopeWith E (resolveCandidate E solve chain scope request) scope request :=
    resolveInTypeScope_eq
  unfold computeRequest computeRequestWith fillWith
  exact hsome ▸ htyped ▸ resolveFramework_eq ▸ rfl

end Equal

def reference (E : Environment) : (depth : Nat) → Solve
  -- Fill a request, for as long as no more than `depth` requests are inside of each other, by
  -- computing all that is needed for it.
  | 0 => fun _ _ _ => throw .tooDeep
  | depth + 1 => fun _ scope request =>
    computeRequestWith E (computeCandidate E (reference E depth) [] scope request) scope request

theorem reference_chain (E : Environment) (depth : Nat) (chain : List InjectableId) :
    reference E depth chain = reference E depth [] := by
  cases depth with
  | zero => rfl
  | succ depth => rfl

end Wiring.Search
