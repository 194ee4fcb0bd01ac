import Wiring.Ranking
import Wiring.Search.Candidate

namespace Wiring.Search

def ranked (E : Environment) (S : Session) (scope : ScopeId) (requested : Ty)
    (candidates : List InjectableId) : Option (List InjectableId) :=
  -- sorted first, so that of equal usages the best one stays
  (E.sorting.sort (S.compareCandidates E scope requested) candidates).map fun sorted =>
    sorted.eraseDupsBy fun a b => (S.injectable a).usage == (S.injectable b).usage

structure Standing where
  -- The values that have been found and are equally good, and the failure to report if there are
  -- none.
  best : List Resolved := []
  failure : Option Failure := none

def Standing.add (E : Environment) (S : Session) (requested : Ty) (standing : Standing) :
    Except Failure Resolved → Standing
  | .ok v =>
    match standing.best.head? with
    | none => { standing with best := [v] }
    | some leader =>
      match S.compareResolved E v leader requested with
      | .lt => { standing with best := [v] }
      | .eq => { standing with best := standing.best ++ [v] }
      | .gt => standing
  | .error failure => { standing with failure := some (Failure.report standing.failure failure) }

def Standing.beats (E : Environment) (S : Session) (scope : ScopeId) (requested : Ty)
    (standing : Standing) (candidate : InjectableId) : Bool :=
  match standing.best.head? with
  | some leader => S.compareCandidates E scope requested candidate leader.candidate == .gt
  | none => false

def tryAll (E : Environment) (solve : Solve) (chain : List InjectableId) (scope : ScopeId)
    (request : Request) : Standing → List InjectableId → SearchM Standing
  | standing, [] => pure standing
  | standing, candidate :: rest => do
    -- the candidates after this one are no better, so none of them is tried
    if standing.beats E (← get).session scope request.ty candidate then pure standing
    else
      let result ← resolveCandidate E solve chain scope request candidate
      let standing := standing.add E (← get).session request.ty result
      tryAll E solve chain scope request standing rest

def Standing.outcome (scope : ScopeId) (request : Request) (standing : Standing) :
    Except Failure Resolved :=
  match standing.best with
  | [v] => .ok v
  | [] => .error (standing.failure.getD (.noCandidates scope request))
  | best => .error (.ambiguity request best)

def resolveCandidates (E : Environment) (solve : Solve) (chain : List InjectableId)
    (scope : ScopeId) (request : Request) (candidates : List InjectableId) :
    SearchM (Except Failure Resolved) := do
  match candidates with
  | [only] => resolveCandidate E solve chain scope request only
  | _ =>
    match ranked E (← get).session scope request.ty candidates with
    | none => throw .disorder
    | some sorted =>
      let standing ← tryAll E solve chain scope request {} sorted
      pure (standing.outcome scope request)

end Wiring.Search
