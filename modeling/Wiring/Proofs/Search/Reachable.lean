import Wiring.Proofs.Search.Solve
import Wiring.Resolver

namespace Wiring

/-- The sessions that come about with a host and a configuration, and the catalog as it is then. The
classifiers are all described at the start, since a description that nothing mentions yet changes
nothing. -/
inductive Session.Reachable : Environment → Session → Prop
  | start (E : Environment) : Reachable E {}
  | supply {E : Environment} {S : Session} (h : Reachable E S) (c : Classifier) (ts : List Ty) :
      Reachable { E with catalog := (E.catalog.supplySupertypes c ts).2 } S
  | addScope {E : Environment} {S : Session} (h : Reachable E S) (position : Position)
      (hp : position.isTypeScope = false) : Reachable E ((Session.addScope E position).run S).2
  | candidates {E : Environment} {S : Session} (h : Reachable E S) {scope : ScopeId}
      (hs : scope < S.scopes.size) (ty : Ty) (statics : List Classifier) :
      Reachable E ((Session.candidates E scope ty statics).run S).2
  | resolve {E : Environment} {S S' : Session} (h : Reachable E S) {scope : ScopeId}
      (hs : scope < S.scopes.size) {depth : Nat} {request : Request}
      {result : Except Failure Resolved}
      (hr : S.resolve E depth scope request = .ok (result, S')) : Reachable E S'
  | resolveAll {E : Environment} {S S' : Session} (h : Reachable E S) {scope : ScopeId}
      (hs : scope < S.scopes.size) {depth : Nat} {requests : List Request} {site : CallSite}
      (hr : S.resolveAll E depth scope requests = .ok (site, S')) : Reachable E S'

/-- What is resolved comes from a search that starts with nothing around it. -/
theorem Session.exists_run_of_resolve {E : Environment} {S S' : Session} {scope : ScopeId}
    {depth : Nat} {request : Request} {result : Except Failure Resolved}
    (h : S.resolve E depth scope request = .ok (result, S')) : ∃ s',
      Search.solve E depth [] scope request { session := S } = .ok (result, s') ∧
        s'.session = S' := by
  obtain ⟨⟨_, s'⟩, hrun, he⟩ := map_eq_ok_iff.1 h
  obtain ⟨rfl, rfl⟩ := Prod.mk.inj he
  exact ⟨s', hrun, rfl⟩

theorem Session.exists_run_of_resolveAll {E : Environment} {S S' : Session} {scope : ScopeId}
    {depth : Nat} {requests : List Request} {site : CallSite}
    (h : S.resolveAll E depth scope requests = .ok (site, S')) : ∃ s',
      Search.solveAll E depth scope requests [] none { session := S } = .ok (site, s') ∧
        s'.session = S' := by
  obtain ⟨⟨_, s'⟩, hrun, he⟩ := map_eq_ok_iff.1 h
  obtain ⟨rfl, rfl⟩ := Prod.mk.inj he
  exact ⟨s', hrun, rfl⟩

namespace Session

def after {α : Type} : Except Stop (α × Session) → Session
  | .ok (_, S) => S
  | .error _ => {}

theorem exists_after {α : Type} {search : Except Stop (α × Session)} (h : search.isOk = true) :
    ∃ a, search = .ok (a, after search) := by
  cases search with
  | error stop => cases h
  | ok r => exact ⟨r.1, rfl⟩

end Session

namespace Vocabulary

open Session

variable {V W : Vocabulary} {E : Environment} {S : Session}

/-- Finitely many keys are enough for what a catalog declares. -/
theorem exists_keys_describes (K : Catalog) : ∃ keys : List String, ∀ V : Vocabulary,
    (∀ k ∈ keys, V.classifier k) → V.Describes K := by
  let declared : List Ty := K.entries.flatMap fun x =>
    x.2.flatMap fun e => e.supertypes.getD []
  have hmem : ∀ c, ∀ s ∈ K.declaredSupertypes c, s ∈ declared := by
    intro c s hs
    obtain ⟨x, hx, -, e, he, hs⟩ := Catalog.mem_entries_of_declared hs
    exact List.mem_flatMap.2 ⟨x, hx, List.mem_flatMap.2 ⟨e, he, hs⟩⟩
  obtain ⟨keys, hk⟩ := exists_keys_of_forall (P := fun V t => V.Covers t)
    (fun t (_ : t ∈ declared) => exists_keys t)
  exact ⟨keys, fun V hV c s hs => hk V hV s (hmem c s hs)⟩

/-- Finitely many keys are enough for declarations that are known. -/
theorem exists_keys_declarations (ds : List Declaration) : ∃ keys : List String, ∀ V : Vocabulary,
    (∀ k ∈ keys, V.classifier k) → ∀ d ∈ ds, V.declaration d.id → V.CoversDeclaration d := by
  refine exists_keys_of_forall (P := fun V d => V.declaration d.id → V.CoversDeclaration d)
    fun d _ => ?_
  obtain ⟨keys, hk⟩ := exists_keys d.ty
  obtain ⟨keys', hk'⟩ := exists_keys_of_forall (P := fun V (p : Parameter) => V.Covers p.ty)
    (fun p (_ : p ∈ d.parameters) => exists_keys p.ty)
  refine ⟨keys ++ keys', fun V hV hd => ⟨hk V ?_, hk' V ?_, fun _ => hd⟩⟩
  · exact fun k hk => hV k (List.mem_append_left keys' hk)
  · exact fun k hk => hV k (List.mem_append_right keys hk)

structure Hosts (W V : Vocabulary) (E : Environment) (S : Session) : Prop where
  -- `V` is a vocabulary for a session, no larger than it has to be around `W`.
  within : W.Within V
  finite : W.Finite → V.Finite
  speaks : V.Speaks E
  sound : Session.Sound V E S

/-- More classifiers and declarations may be talked about. -/
theorem Hosts.adding (h : Hosts W V E S) (keys ids : List String) :
    Hosts W (V.adding keys ids) E S where
  within := ⟨fun k hk => Or.inl (h.within.classifier k hk),
    fun d hd => Or.inl (h.within.declaration d hd)⟩
  finite hW := (h.finite hW).adding keys ids
  speaks := h.speaks.mono (within_adding keys ids)
  sound := h.sound.widen (within_adding keys ids)

theorem Hosts.covering (h : Hosts W V E S) (ts : List Ty) :
    ∃ V', Hosts W V' E S ∧ ∀ t ∈ ts, V'.Covers t := by
  obtain ⟨keys, hk⟩ := exists_keys_of_forall (P := fun V t => V.Covers t)
    (fun t (_ : t ∈ ts) => exists_keys t)
  exact ⟨V.adding keys [], h.adding keys [], hk _ fun k => Or.inr⟩

/-- Filling a covered request leads to a sound session and to a legal tree, if to any. -/
theorem Hosts.resolve (h : Hosts W V E S) {scope : ScopeId} (hs : scope < S.scopes.size)
    {depth : Nat} {request : Request} (ht : V.Covers request.ty) {S' : Session}
    {result : Except Failure Resolved}
    (hr : S.resolve E depth scope request = .ok (result, S')) :
    Hosts W V E S' ∧ Session.Remembers E S' scope result := by
  obtain ⟨s', hrun, rfl⟩ := exists_run_of_resolve hr
  obtain ⟨_, hsound, hresult⟩ := Search.resolves_solve h.speaks depth [] scope request
    { session := S } h.sound hs ht _ s' hrun
  exact ⟨{ h with sound := hsound }, hresult⟩

/-- So does filling the covered requests of a call site. -/
theorem Hosts.resolveAll (h : Hosts W V E S) {scope : ScopeId} (hs : scope < S.scopes.size)
    {depth : Nat} {requests : List Request} (ht : ∀ r ∈ requests, V.Covers r.ty) {S' : Session}
    {site : CallSite} (hr : S.resolveAll E depth scope requests = .ok (site, S')) :
    Hosts W V E S' ∧ Search.SiteLegal E S' scope site := by
  obtain ⟨s', hrun, rfl⟩ := exists_run_of_resolveAll hr
  have hleads : Search.Leads V E { session := S } (Search.solveAll E depth scope requests [] none)
      fun site S' => Search.SiteLegal E S' scope site :=
    Search.leads_solveAll h.speaks depth h.sound hs ht Search.soFar_nil
  obtain ⟨_, hsound, hsite⟩ := hleads _ s' hrun
  exact ⟨{ h with sound := hsound }, hsite⟩

end Vocabulary

open Vocabulary Session

/-- A session that has come about is sound over a vocabulary that covers the host. -/
theorem Session.Reachable.sound {E : Environment} {S : Session} (h : Reachable E S)
    {W : Vocabulary} (hW : W.CoversHost E.host) : ∃ V, Hosts W V E S := by
  -- a use may mention what no use did before, so the vocabulary grows with each one
  induction h with
  | start E =>
    obtain ⟨keys, hk⟩ := exists_keys_describes E.catalog
    have hspeaks : (W.adding keys []).Speaks E :=
      ⟨hk _ fun k => Or.inr, hW.mono (within_adding keys [])⟩
    exact ⟨W.adding keys [], within_adding keys [], fun hf => hf.adding keys [], hspeaks, sound_empty⟩
  | @supply E S _ c ts ih =>
    obtain ⟨V, hV⟩ := ih hW
    obtain ⟨keys, hk⟩ := exists_keys_describes (E.catalog.supplySupertypes c ts).2
    have hadd := hV.adding keys []
    refine ⟨V.adding keys [], hadd.within, hadd.finite, ⟨hk _ fun k => Or.inr, hadd.speaks.host⟩, ?_⟩
    exact hadd.sound.supply rfl (Catalog.supplied_supplySupertypes _ _ _)
  | @addScope E S _ position hp ih =>
    obtain ⟨V, hV⟩ := ih hW
    obtain ⟨keys, hk⟩ := exists_keys_declarations position.declarations
    have hadd := hV.adding keys (position.declarations.map (·.id))
    have hd : ∀ d ∈ position.declarations,
        (V.adding keys (position.declarations.map (·.id))).CoversDeclaration d := fun d hd =>
      hk _ (fun k => Or.inr) d hd (Or.inr (List.mem_map_of_mem hd))
    exact ⟨_, { hadd with sound := (leads_addScope hadd.speaks hadd.sound hd).sound }⟩
  | @candidates E S _ scope hs ty statics ih =>
    obtain ⟨V, hV⟩ := ih hW
    obtain ⟨V', hV', ht⟩ := hV.covering [ty]
    have hleads := leads_candidates hV'.speaks (ht ty (List.mem_singleton_self ty)) statics
      hV'.sound hs
    exact ⟨V', { hV' with sound := hleads.sound }⟩
  | @resolve E S S' _ scope hs depth request result hr ih =>
    obtain ⟨V, hV⟩ := ih hW
    obtain ⟨V', hV', ht⟩ := hV.covering [request.ty]
    exact ⟨V', (hV'.resolve hs (ht _ (List.mem_singleton_self _)) hr).1⟩
  | @resolveAll E S S' _ scope hs depth requests site hr ih =>
    obtain ⟨V, hV⟩ := ih hW
    obtain ⟨V', hV', ht⟩ := hV.covering (requests.map (·.ty))
    exact ⟨V', (hV'.resolveAll hs (List.forall_mem_map.1 ht) hr).1⟩

end Wiring
