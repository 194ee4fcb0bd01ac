import Wiring.Proofs.Search.Use
import Wiring.Proofs.Session.Memory

namespace Wiring.Search

open Session

variable {E E' : Environment} {S S' : Session} {chain : List InjectableId} {scope place : ScopeId}
  {request : Request} {ty ty' : Ty} {c : InjectableId} {found : List InjectableId} {f g : Failure}

/-! ### What is found -/

def Recorded (S : Session) (scope place : ScopeId) (ty : Ty) (found : List InjectableId) : Prop :=
  S.memo.candidates.lookup (place, ty, (S.scope scope).statics) = some found

def TypeScopeOf (E : Environment) (S : Session) (ty : Ty) (typeScope : Option ScopeId) : Prop :=
  -- The type scope that has been found for a type, or for an equal one. (Equal types have one type
  -- scope, unless a type parameter has the key of something else.)
  ∃ ty', (ty' == ty) = true ∧ S.typeScopes.lookup (modulesOf E ty') = some typeScope

def NoneInTypeScope (E : Environment) (S : Session) (scope : ScopeId) (ty : Ty) : Prop :=
  -- Type scopes have no candidates for a type: there are none, or there is none for this type, or
  -- nothing is found in it.
  E.config.typeScopes = true → ∃ typeScope, TypeScopeOf E S ty typeScope ∧
    ∀ place, typeScope = some place → Recorded S scope place ty []

def NoneMade (E : Environment) (S : Session) (scope : ScopeId) (ty : Ty) : Prop :=
  E.config.frameworkInjectables = true →
    makesNothing ty = true ∨ S.memo.framework.lookup (scope, ty) = some none

theorem Recorded.mono (h : Recorded S scope place ty found) (hS : S.Keeps S')
    (hscope : scope < S.scopes.size) : Recorded S' scope place ty found := by
  unfold Recorded
  rw [hS.grows.scope scope hscope]
  exact hS.candidates _ _ h

theorem TypeScopeOf.mono {typeScope : Option ScopeId} (h : TypeScopeOf E S ty typeScope)
    (hS : S.Keeps S') : TypeScopeOf E S' ty typeScope := by
  obtain ⟨ty', hty, hlookup⟩ := h
  exact ⟨ty', hty, hS.typeScopes _ _ hlookup⟩

theorem NoneInTypeScope.mono (h : NoneInTypeScope E S scope ty) (hS : S.Keeps S')
    (hscope : scope < S.scopes.size) : NoneInTypeScope E S' scope ty := by
  intro ht
  obtain ⟨typeScope, hfound, hnone⟩ := h ht
  exact ⟨typeScope, hfound.mono hS, fun place he => (hnone place he).mono hS hscope⟩

theorem NoneMade.mono (h : NoneMade E S scope ty) (hS : S.Keeps S') : NoneMade E S' scope ty :=
  fun hm => (h hm).imp_right fun h => hS.framework _ _ h

/-- Candidates that have been found exist. -/
theorem Recorded.lt (h : Recorded S scope place ty found) (hS : Sound everything E S) :
    ∀ c ∈ found, c < S.injectables.size := by
  obtain ⟨e, he, -, rfl⟩ := mem_of_lookup h
  exact fun c hc => (hS.candidates e he c hc).candidate

theorem lt_of_made (h : S.memo.framework.lookup (scope, ty) = some (some c))
    (hS : Sound everything E S) : c < S.injectables.size := by
  obtain ⟨e, he, -, hec⟩ := mem_of_lookup h
  exact (hS.framework e he c hec).candidate

/-! What has been found for a type has been found for all equal types. -/

theorem Recorded.of_beq (h : Recorded S scope place ty found) (hty : (ty' == ty) = true) :
    Recorded S scope place ty' found := by
  unfold Recorded
  rw [lookup_congr (beq_triple place hty _)]
  exact h

theorem TypeScopeOf.of_beq {typeScope : Option ScopeId} (h : TypeScopeOf E S ty typeScope)
    (hty : (ty' == ty) = true) : TypeScopeOf E S ty' typeScope := by
  obtain ⟨looked, hlooked, hlookup⟩ := h
  exact ⟨looked, BEq.trans hlooked (BEq.symm hty), hlookup⟩

theorem NoneInTypeScope.of_beq (h : NoneInTypeScope E S scope ty) (hty : (ty' == ty) = true) :
    NoneInTypeScope E S scope ty' := by
  intro ht
  obtain ⟨typeScope, hfound, hnone⟩ := h ht
  exact ⟨typeScope, hfound.of_beq hty, fun place he => (hnone place he).of_beq hty⟩

theorem lookup_framework (hty : (ty' == ty) = true) :
    S.memo.framework.lookup (scope, ty') = S.memo.framework.lookup (scope, ty) :=
  lookup_congr (beq_pair scope hty) _

theorem NoneMade.of_beq (h : NoneMade E S scope ty) (hty : (ty' == ty) = true) :
    NoneMade E S scope ty' := by
  intro hm
  rw [makesNothing_beq hty, lookup_framework hty]
  exact h hm

/-! ### Explanations -/

mutual
/-- Why a request fails in a scope, inside of the candidates of `chain`: nothing is found for it and
nothing made; what is made for it fails; or what is found for it fails, in the scope, in the type scope,
or in both of them. -/
inductive Explains (E : Environment) (S : Session) :
    List InjectableId → ScopeId → Request → Failure → Prop
  | nothing {chain : List InjectableId} {scope : ScopeId} {request : Request}
      (inScope : Recorded S scope scope request.ty [])
      (inTypeScope : NoneInTypeScope E S scope request.ty)
      (made : NoneMade E S scope request.ty) :
      Explains E S chain scope request (.noCandidates scope request)
  | made {chain : List InjectableId} {scope : ScopeId} {request : Request} {c : InjectableId}
      {f : Failure} (inScope : Recorded S scope scope request.ty [])
      (inTypeScope : NoneInTypeScope E S scope request.ty)
      (made : S.memo.framework.lookup (scope, request.ty) = some (some c))
      (h : Thwarted E S chain scope request c f) : Explains E S chain scope request f
  | inScope {chain : List InjectableId} {scope : ScopeId} {request : Request} {f : Failure}
      (h : Unserved E S chain scope scope request f)
      (inTypeScope : NoneInTypeScope E S scope request.ty) : Explains E S chain scope request f
  | inTypeScope {chain : List InjectableId} {scope typeScope : ScopeId} {request : Request}
      {f : Failure} (inScope : Recorded S scope scope request.ty [])
      (ht : TypeScopeOf E S request.ty (some typeScope))
      (h : Unserved E S chain scope typeScope request f) : Explains E S chain scope request f
  | inBoth {chain : List InjectableId} {scope typeScope : ScopeId} {request : Request}
      {user typed : Failure} (h : Unserved E S chain scope scope request user)
      (ht : TypeScopeOf E S request.ty (some typeScope))
      (h' : Unserved E S chain scope typeScope request typed) :
      Explains E S chain scope request (overall user typed)

inductive Unserved (E : Environment) (S : Session) :
    List InjectableId → ScopeId → ScopeId → Request → Failure → Prop
  -- Why the candidates that are found in `place` do not fill a request: several of them have
  -- values, all of them legal; or all of them fail, of those with one usage at least one.
  | ambiguity {chain : List InjectableId} {scope place : ScopeId} {request : Request}
      {found : List InjectableId} {values : List Resolved}
      (record : Recorded S scope place request.ty found) (many : 2 ≤ values.length)
      (distinct : (values.map (·.candidate)).Nodup)
      (legal : ∀ v ∈ values, Legal E S v ∧ v.scope = scope)
      (eligible : ∀ v ∈ values, v.candidate ∈ found) :
      Unserved E S chain scope place request (.ambiguity request values)
  | spent {chain : List InjectableId} {scope place : ScopeId} {request : Request}
      {found tried : List InjectableId} {f : Failure}
      (record : Recorded S scope place request.ty found) (eligible : ∀ c ∈ tried, c ∈ found)
      (all : ∀ c ∈ found, ∃ t ∈ tried, ((S.injectable c).usage == (S.injectable t).usage) = true)
      (h : Spent E S chain scope request tried f) : Unserved E S chain scope place request f

inductive Spent (E : Environment) (S : Session) :
    List InjectableId → ScopeId → Request → List InjectableId → Failure → Prop
  -- All candidates that have been tried fail, and `f` is the failure to report of theirs.
  | first {chain : List InjectableId} {scope : ScopeId} {request : Request} {c : InjectableId}
      {f : Failure} (h : Thwarted E S chain scope request c f) : Spent E S chain scope request [c] f
  | next {chain : List InjectableId} {scope : ScopeId} {request : Request}
      {tried : List InjectableId} {c : InjectableId} {f g : Failure}
      (h : Spent E S chain scope request tried f) (h' : Thwarted E S chain scope request c g) :
      Spent E S chain scope request (tried ++ [c]) (Failure.report (some f) g)

inductive Thwarted (E : Environment) (S : Session) :
    List InjectableId → ScopeId → Request → InjectableId → Failure → Prop
  -- Why a candidate fails: it may not be used in the scope; the search diverges with it, from one
  -- of the candidates that it is inside of; or a dependency that it requires fails, where its
  -- dependencies are filled.
  | obstacle {chain : List InjectableId} {scope : ScopeId} {request : Request} {c : InjectableId}
      {f : Failure} (h : obstacle? E S scope c = some f) : Thwarted E S chain scope request c f
  | divergent {chain : List InjectableId} {scope : ScopeId} {request : Request}
      {c outer : InjectableId} (inside : outer ∈ chain) (outer_lt : outer < S.injectables.size)
      (h : diverges S [outer] (S.injectable c) = true) :
      Thwarted E S chain scope request c (.divergent c request)
  | dependency {chain : List InjectableId} {scope inner : ScopeId} {request r : Request}
      {c : InjectableId} {f : Failure} (needs : r ∈ (S.injectable c).dependencies E.catalog)
      (required : r.required = true) (fills : S.Fills scope c inner)
      (h : Explains E S (c :: chain) inner r f) :
      Thwarted E S chain scope request c (.dependency c r f)
end

/-! ### Later sessions -/

theorem fills_lt {inner : ScopeId} (h : S.Fills scope c inner) (hscope : scope < S.scopes.size) :
    inner < S.scopes.size := by
  unfold Fills at h
  split at h
  · exact lt_of_parent h.2
  · rw [h]
    exact hscope

/-- Whether the search diverges from a candidate lies in injectables, which do not change. -/
theorem diverges_eq {outer : InjectableId} (hS : S.Extends S') (ho : outer < S.injectables.size)
    (i : Injectable) : diverges S' [outer] i = diverges S [outer] i := by
  unfold diverges
  rw [List.any_cons, List.any_cons, hS.injectable outer ho]
  rfl

mutual
theorem Explains.mono (hs : Sound everything E S) (hS : S.Keeps S') :
    ∀ {chain : List InjectableId} {scope : ScopeId} {request : Request} {f : Failure},
      Explains E S chain scope request f → scope < S.scopes.size →
        Explains E S' chain scope request f
  | _, _, _, _, .nothing inScope inTypeScope made, hscope =>
    .nothing (inScope.mono hS hscope) (inTypeScope.mono hS hscope) (made.mono hS)
  | _, _, _, _, .made inScope inTypeScope made h, hscope =>
    .made (inScope.mono hS hscope) (inTypeScope.mono hS hscope) (hS.framework _ _ made)
      (Thwarted.mono hs hS h hscope (lt_of_made made hs))
  | _, _, _, _, .inScope h inTypeScope, hscope =>
    .inScope (Unserved.mono hs hS h hscope) (inTypeScope.mono hS hscope)
  | _, _, _, _, .inTypeScope inScope ht h, hscope =>
    .inTypeScope (inScope.mono hS hscope) (ht.mono hS) (Unserved.mono hs hS h hscope)
  | _, _, _, _, .inBoth h ht h', hscope =>
    .inBoth (Unserved.mono hs hS h hscope) (ht.mono hS) (Unserved.mono hs hS h' hscope)

theorem Unserved.mono (hs : Sound everything E S) (hS : S.Keeps S') :
    ∀ {chain : List InjectableId} {scope place : ScopeId} {request : Request} {f : Failure},
      Unserved E S chain scope place request f → scope < S.scopes.size →
        Unserved E S' chain scope place request f
  | _, _, _, _, _, .ambiguity record many distinct legal eligible, hscope =>
    .ambiguity (record.mono hS hscope) many distinct
      (fun v hv => ⟨(legal v hv).1.mono hS.grows, (legal v hv).2⟩) eligible
  | _, _, _, _, _, .spent record eligible all h, hscope => by
    have hlt := record.lt hs
    refine .spent (record.mono hS hscope) eligible (fun c hc => ?_)
      (Spent.mono hs hS h hscope fun c hc => hlt c (eligible c hc))
    obtain ⟨t, ht, hsame⟩ := all c hc
    refine ⟨t, ht, ?_⟩
    rw [hS.grows.injectable c (hlt c hc), hS.grows.injectable t (hlt t (eligible t ht))]
    exact hsame

theorem Spent.mono (hs : Sound everything E S) (hS : S.Keeps S') :
    ∀ {chain : List InjectableId} {scope : ScopeId} {request : Request}
      {tried : List InjectableId} {f : Failure}, Spent E S chain scope request tried f →
        scope < S.scopes.size → (∀ c ∈ tried, c < S.injectables.size) →
          Spent E S' chain scope request tried f
  | _, _, _, _, _, .first h, hscope, hlt =>
    .first (Thwarted.mono hs hS h hscope (hlt _ (List.mem_singleton_self _)))
  | _, _, _, _, _, .next h h', hscope, hlt => by
    obtain ⟨hlt, hc⟩ := List.forall_mem_append.1 hlt
    exact .next (Spent.mono hs hS h hscope hlt)
      (Thwarted.mono hs hS h' hscope (hc _ (List.mem_singleton_self _)))

theorem Thwarted.mono (hs : Sound everything E S) (hS : S.Keeps S') :
    ∀ {chain : List InjectableId} {scope : ScopeId} {request : Request} {c : InjectableId}
      {f : Failure}, Thwarted E S chain scope request c f → scope < S.scopes.size →
        c < S.injectables.size → Thwarted E S' chain scope request c f
  | _, _, _, _, _, .obstacle h, hscope, hc => .obstacle ((obstacle_eq hS.grows hscope hc).trans h)
  | _, _, _, c, _, .divergent inside outer_lt h, hscope, hc => by
    refine .divergent inside (hS.grows.lt_injectables outer_lt) ?_
    rw [hS.grows.injectable c hc, diverges_eq hS.grows outer_lt]
    exact h
  | _, _, _, c, _, .dependency needs required fills h, hscope, hc => by
    refine .dependency ?_ required (fills.mono hc hS.grows)
      (Explains.mono hs hS h (fills_lt fills hscope))
    rw [hS.grows.injectable c hc]
    exact needs
end

/-! ### Supplied supertypes -/

theorem obstacle_supply (hhost : E'.host = E.host) (hK : E.catalog.Supplied E'.catalog)
    (scope : ScopeId) (c : InjectableId) : obstacle? E' S scope c = obstacle? E S scope c := by
  have hmismatch : reifiedMismatch? E'.catalog = reifiedMismatch? E.catalog := by
    funext statics p
    simp only [reifiedMismatch?, hK.flags_eq, hK.parametersIn_eq]
  simp only [obstacle?, hhost, hmismatch]

theorem TypeScopeOf.supply {typeScope : Option ScopeId} (h : TypeScopeOf E S ty typeScope)
    (hK : E.catalog.Supplied E'.catalog) : TypeScopeOf E' S ty typeScope := by
  obtain ⟨ty', hty, hlookup⟩ := h
  refine ⟨ty', hty, ?_⟩
  simpa only [modulesOf, hK.isTypeParameter_eq] using hlookup

theorem NoneInTypeScope.supply (h : NoneInTypeScope E S scope ty) (hconfig : E'.config = E.config)
    (hK : E.catalog.Supplied E'.catalog) : NoneInTypeScope E' S scope ty := by
  intro ht
  obtain ⟨typeScope, hfound, hnone⟩ := h (hconfig ▸ ht)
  exact ⟨typeScope, hfound.supply hK, hnone⟩

theorem NoneMade.supply (h : NoneMade E S scope ty) (hconfig : E'.config = E.config) :
    NoneMade E' S scope ty :=
  fun hm => h (hconfig ▸ hm)

mutual
theorem Explains.supply (hhost : E'.host = E.host) (hconfig : E'.config = E.config)
    (hK : E.catalog.Supplied E'.catalog) :
    ∀ {chain : List InjectableId} {scope : ScopeId} {request : Request} {f : Failure},
      Explains E S chain scope request f → Explains E' S chain scope request f
  | _, _, _, _, .nothing inScope inTypeScope made =>
    .nothing inScope (inTypeScope.supply hconfig hK) (made.supply hconfig)
  | _, _, _, _, .made inScope inTypeScope made h =>
    .made inScope (inTypeScope.supply hconfig hK) made (Thwarted.supply hhost hconfig hK h)
  | _, _, _, _, .inScope h inTypeScope =>
    .inScope (Unserved.supply hhost hconfig hK h) (inTypeScope.supply hconfig hK)
  | _, _, _, _, .inTypeScope inScope ht h =>
    .inTypeScope inScope (ht.supply hK) (Unserved.supply hhost hconfig hK h)
  | _, _, _, _, .inBoth h ht h' =>
    .inBoth (Unserved.supply hhost hconfig hK h) (ht.supply hK)
      (Unserved.supply hhost hconfig hK h')

theorem Unserved.supply (hhost : E'.host = E.host) (hconfig : E'.config = E.config)
    (hK : E.catalog.Supplied E'.catalog) :
    ∀ {chain : List InjectableId} {scope place : ScopeId} {request : Request} {f : Failure},
      Unserved E S chain scope place request f → Unserved E' S chain scope place request f
  | _, _, _, _, _, .ambiguity record many distinct legal eligible =>
    .ambiguity record many distinct
      (fun v hv => ⟨(legal v hv).1.supply hhost hK, (legal v hv).2⟩) eligible
  | _, _, _, _, _, .spent record eligible all h =>
    .spent record eligible all (Spent.supply hhost hconfig hK h)

theorem Spent.supply (hhost : E'.host = E.host) (hconfig : E'.config = E.config)
    (hK : E.catalog.Supplied E'.catalog) :
    ∀ {chain : List InjectableId} {scope : ScopeId} {request : Request}
      {tried : List InjectableId} {f : Failure}, Spent E S chain scope request tried f →
        Spent E' S chain scope request tried f
  | _, _, _, _, _, .first h => .first (Thwarted.supply hhost hconfig hK h)
  | _, _, _, _, _, .next h h' =>
    .next (Spent.supply hhost hconfig hK h) (Thwarted.supply hhost hconfig hK h')

theorem Thwarted.supply (hhost : E'.host = E.host) (hconfig : E'.config = E.config)
    (hK : E.catalog.Supplied E'.catalog) :
    ∀ {chain : List InjectableId} {scope : ScopeId} {request : Request} {c : InjectableId}
      {f : Failure}, Thwarted E S chain scope request c f → Thwarted E' S chain scope request c f
  | _, scope, _, c, _, .obstacle h => .obstacle ((obstacle_supply hhost hK scope c).trans h)
  | _, _, _, _, _, .divergent inside outer_lt h => .divergent inside outer_lt h
  | _, _, _, _, _, .dependency needs required fills h => by
    refine .dependency ?_ required fills (Explains.supply hhost hconfig hK h)
    rw [hK.dependencies_eq]
    exact needs
end

/-! ### Other requests -/

/-- A candidate fails every request for the same reason. -/
theorem Thwarted.forRequest (h : Thwarted E S chain scope request c f) (request' : Request) :
    Thwarted E S chain scope request' c (f.forRequest request') := by
  cases h with
  | obstacle h =>
    rw [forRequest_of_obstacle h]
    exact .obstacle h
  | divergent inside outer_lt h => exact .divergent inside outer_lt h
  | dependency needs required fills h => exact .dependency needs required fills h

theorem Spent.forRequest (request' : Request) : ∀ {tried : List InjectableId} {f : Failure},
    Spent E S chain scope request tried f →
      Spent E S chain scope request' tried (f.forRequest request')
  | _, _, .first h => .first (h.forRequest request')
  | _, _, .next h h' => by
    rw [← report_forRequest]
    exact .next (Spent.forRequest request' h) (h'.forRequest request')

theorem Unserved.forRequest {request' : Request} (h : Unserved E S chain scope place request f)
    (hty : (request'.ty == request.ty) = true) :
    Unserved E S chain scope place request' (f.forRequest request') := by
  cases h with
  | ambiguity record many distinct legal eligible =>
    exact .ambiguity (record.of_beq hty) many distinct legal eligible
  | spent record eligible all h =>
    exact .spent (record.of_beq hty) eligible all (h.forRequest request')

/-- A failure, reported on another request for an equal type, is explained for that request. -/
theorem Explains.forRequest {request' : Request} (h : Explains E S chain scope request f)
    (hty : (request'.ty == request.ty) = true) :
    Explains E S chain scope request' (f.forRequest request') := by
  cases h with
  | nothing inScope inTypeScope made =>
    exact .nothing (inScope.of_beq hty) (inTypeScope.of_beq hty) (made.of_beq hty)
  | made inScope inTypeScope made h =>
    exact .made (inScope.of_beq hty) (inTypeScope.of_beq hty) ((lookup_framework hty).trans made)
      (h.forRequest request')
  | inScope h inTypeScope => exact .inScope (h.forRequest hty) (inTypeScope.of_beq hty)
  | inTypeScope inScope ht h =>
    exact .inTypeScope (inScope.of_beq hty) (ht.of_beq hty) (h.forRequest hty)
  | inBoth h ht h' =>
    rw [← overall_forRequest]
    exact .inBoth (h.forRequest hty) (ht.of_beq hty) (h'.forRequest hty)

/-- A candidate that fails wherever the search comes from fails every request alike. -/
theorem Thwarted.of_request (h : ∀ chain, Thwarted E S chain scope request c f) (request' : Request)
    (chain : List InjectableId) : Thwarted E S chain scope request' c f := by
  have hsame : f.forRequest request' = f := by
    cases h [] with
    | obstacle h => exact forRequest_of_obstacle h request'
    | divergent inside => cases inside
    | dependency => rfl
  have hother := (h chain).forRequest request'
  rwa [hsame] at hother

end Wiring.Search
