import Wiring.Injectable

namespace Wiring

structure Resolved where
  -- An injectable with what its dependencies resolve to.
  candidate : InjectableId
  -- The scope that the candidate was resolved in.
  scope : ScopeId
  -- Each dependency with its value, or with none if the declared default stands in.
  dependencies : List (Request × Option Resolved)

instance : Inhabited Resolved := ⟨⟨0, 0, []⟩⟩

def Resolved.dependency? (v : Resolved) (slot : Slot) : Option (Option Resolved) :=
  (v.dependencies.find? (·.1.slot == slot)).map (·.2)

inductive Failure where
  | noCandidates (scope : ScopeId) (request : Request)
  -- Several candidates resolve, and none is better than the others.
  | ambiguity (request : Request) (candidates : List Resolved)
  | callContext (candidate : InjectableId) (scopeContext candidateContext : CallContext)
  -- The search came back to where it was, with a type that is no smaller.
  | divergent (candidate : InjectableId) (request : Request)
  -- A reified type parameter would stand for a type that mentions a parameter which is not.
  | reifiedArgument (candidate : InjectableId) (parameter argument : Classifier)
  -- A dependency that is required fails.
  | dependency (candidate : InjectableId) (request : Request) (inner : Failure)

namespace Failure

def rank : Failure → Nat
  | ambiguity .. => 0
  | callContext .. | reifiedArgument .. => 1
  | divergent .. => 2
  | dependency _ _ inner => inner.rank
  | noCandidates .. => 3

def rootCause : Failure → Failure
  | dependency _ _ inner => inner.rootCause
  | failure => failure

def isDivergent (f : Failure) : Bool :=
  f.rootCause matches divergent ..

def forRequest (request : Request) : Failure → Failure
  -- The failure as a report on another request for the same type. A failed dependency keeps the
  -- request of its own.
  | noCandidates scope _ => noCandidates scope request
  | ambiguity _ candidates => ambiguity request candidates
  | divergent candidate _ => divergent candidate request
  | failure => failure

def outranks (f g : Failure) : Bool :=
  f.rank < g.rank

def report (old : Option Failure) (new : Failure) : Failure :=
  match old with
  | some f => if new.outranks f then new else f
  | none => new

theorem rank_root_cause (f : Failure) : f.rootCause.rank = f.rank := by
  induction f with
  | dependency _ _ inner ih => simpa [rootCause, rank] using ih
  | _ => rfl

end Failure

inductive CallSite where
  -- Each request with its value, or with none if the declared default stands in.
  | filled (scope : ScopeId) (results : List (Request × Option Resolved))
  -- The failure to report, and the required request it belongs to.
  | failed (scope : ScopeId) (request : Request) (failure : Failure)

namespace CallSite

def isFilled : CallSite → Bool
  | filled .. => true
  | failed .. => false

def value? (site : CallSite) (slot : Slot) : Option (Option Resolved) :=
  match site with
  | filled _ results => (results.find? (·.1.slot == slot)).map (·.2)
  | failed .. => none

def failure? : CallSite → Option Failure
  | filled .. => none
  | failed _ _ failure => some failure

end CallSite
end Wiring
