import Wiring.Proofs.Search.Legality

namespace Wiring

def Declaration.TypesSatisfy (P : Ty → Prop) (d : Declaration) : Prop :=
  P d.ty ∧ ∀ p ∈ d.parameters, P p.ty

namespace Session

open Vocabulary

variable {P : Ty → Prop} {E : Environment} {S S' : Session}

/-- One use of a session, in which all types that are declared or asked for satisfy `P`. -/
inductive Use (P : Ty → Prop) (E : Environment) (S : Session) : Session → Prop
  | addScope (position : Position) (hp : position.isTypeScope = false)
      (hd : ∀ d ∈ position.declarations, d.TypesSatisfy P) : Use P E S ((addScope E position).run S).2
  | candidates {scope : ScopeId} (hs : scope < S.scopes.size) {ty : Ty} (ht : P ty)
      (statics : List Classifier) : Use P E S ((candidates E scope ty statics).run S).2
  | resolve {S' : Session} {scope : ScopeId} (hs : scope < S.scopes.size) {depth : Nat}
      {request : Request} (ht : P request.ty) {result : Except Failure Resolved}
      (hr : S.resolve E depth scope request = .ok (result, S')) : Use P E S S'
  | resolveAll {S' : Session} {scope : ScopeId} (hs : scope < S.scopes.size) {depth : Nat}
      {requests : List Request} (ht : ∀ r ∈ requests, P r.ty) {site : CallSite}
      (hr : S.resolveAll E depth scope requests = .ok (site, S')) : Use P E S S'

/-- The sessions that come about by such uses. -/
inductive MadeOf (P : Ty → Prop) (E : Environment) : Session → Prop
  | start : MadeOf P E {}
  | use {S S' : Session} (h : MadeOf P E S) (hu : Use P E S S') : MadeOf P E S'

theorem Use.reachable (hu : Use P E S S') (h : Reachable E S) : Reachable E S' := by
  cases hu with
  | addScope position hp _ => exact h.addScope position hp
  | candidates hs _ statics => exact h.candidates hs _ statics
  | resolve hs _ hr => exact h.resolve hs hr
  | resolveAll hs _ hr => exact h.resolveAll hs hr

theorem MadeOf.reachable (h : MadeOf P E S) : Reachable E S := by
  induction h with
  | start => exact .start E
  | use _ hu ih => exact hu.reachable ih

theorem speaks_everything (E : Environment) : everything.Speaks E where
  catalog _ _ _ := covers_everything _
  host := coversHost_everything E.host

theorem Reachable.sound_everything (h : Reachable E S) : Sound everything E S := by
  obtain ⟨V, hV⟩ := h.sound (coversHost_everything E.host)
  exact hV.sound.widen ⟨fun _ _ => trivial, fun _ _ => trivial⟩

/-- A use only adds to a session. -/
theorem Use.grows (hu : Use P E S S') (hS : Sound everything E S) : S.Extends S' := by
  have hE := speaks_everything E
  cases hu with
  | addScope position _ _ =>
    have hcovers : ∀ d ∈ position.declarations, everything.CoversDeclaration d := fun d _ =>
      ⟨covers_everything _, fun _ _ => covers_everything _, fun _ => trivial⟩
    exact (leads_addScope hE hS hcovers).grows
  | candidates hs _ statics => exact (leads_candidates hE (covers_everything _) statics hS hs).grows
  | resolve hs _ hr =>
    obtain ⟨s', hrun, rfl⟩ := exists_run_of_resolve hr
    exact (Search.resolves_solve hE _ [] _ _ { session := S } hS hs (covers_everything _) _ s'
      hrun).1
  | @resolveAll S' scope hs depth requests _ site hr =>
    obtain ⟨s', hrun, rfl⟩ := exists_run_of_resolveAll hr
    have hleads : Search.Leads everything E { session := S }
        (Search.solveAll E depth scope requests [] none)
        fun site S' => Search.SiteLegal E S' scope site :=
      Search.leads_solveAll hE depth hS hs (fun _ _ => covers_everything _) Search.soFar_nil
    exact (hleads _ s' hrun).1

end Session
end Wiring
