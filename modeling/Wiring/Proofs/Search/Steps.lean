import Wiring.Proofs.Session.Invariants
import Wiring.Proofs.Session.Steps
import Wiring.Search.Candidate

namespace Wiring.Search

open Session

variable {V : Vocabulary} {E : Environment} {s : Search} {α β : Type} {scope inner : ScopeId}
  {c : InjectableId}

theorem run_bind {step : SearchM α} {f : α → SearchM β} {a : α} {s' : Search}
    {r : Except Stop (β × Search)} (h : step s = .ok (a, s')) (hf : f a s' = r) :
    (step >>= f) s = r := by
  change (step s).bind (fun r => f r.1 r.2) = r
  rw [h]
  exact hf

theorem run_bind_stop {step : SearchM α} {f : α → SearchM β} {stop : Stop}
    (h : step s = .error stop) : (step >>= f) s = .error stop := by
  change (step s).bind (fun r => f r.1 r.2) = .error stop
  rw [h]
  rfl

def Leads (V : Vocabulary) (E : Environment) (s : Search) (step : SearchM α)
    (Q : α → Session → Prop) : Prop :=
  -- If the step gives something, it leads to a sound session that extends the one before, and what
  -- it gives satisfies `Q`.
  ∀ a s', step s = .ok (a, s') →
    s.session.Extends s'.session ∧ Sound V E s'.session ∧ Q a s'.session

namespace Leads

variable {step : SearchM α} {f : α → SearchM β} {Q : α → Session → Prop} {R : β → Session → Prop}

theorem pure {a : α} (hs : Sound V E s.session) (h : Q a s.session) :
    Leads V E s (Pure.pure a) Q :=
  Obeys.pure hs h

theorem stop {stop : Stop} : Leads V E s (throw stop : SearchM α) Q :=
  Obeys.stop

theorem get {f : Search → SearchM β} (h : Leads V E s (f s) R) :
    Leads V E s (MonadState.get >>= f) R :=
  h

theorem bind (h : Leads V E s step Q)
    (hf : ∀ a s', s.session.Extends s'.session → Sound V E s'.session → Q a s'.session →
      Leads V E s' (f a) R) : Leads V E s (step >>= f) R :=
  Obeys.bind h hf

theorem map {g : α → β} (h : Leads V E s step fun a S' => R (g a) S') :
    Leads V E s (g <$> step) R :=
  Obeys.map h

theorem imp {Q' : α → Session → Prop} (h : Leads V E s step Q)
    (hQ : ∀ a S', s.session.Extends S' → Sound V E S' → Q a S' → Q' a S') :
    Leads V E s step Q' :=
  Obeys.imp h hQ

theorem lift {step : SessionM α} (h : Session.Leads V E s.session step Q) :
    Leads V E s (Search.lift step) Q :=
  Obeys.lift ⟨h.grows, h.sound, h.result⟩

/-- Counting a divergence leaves the session as it is. -/
theorem count (hs : Sound V E s.session) {f : Search → Search}
    (hf : (f s).session = s.session) :
    Leads V E s (modify f) fun _ _ => True :=
  Obeys.imp (Obeys.count hs hf) fun _ _ _ _ _ => trivial

/-- What is remembered is right, so a session that remembers it is sound. -/
theorem unlessDiverged {remember : α → Memo → Memo} (h : Leads V E s step Q)
    (hr : ∀ a S, Sound V E S → Q a S →
      Change V E S { S with memo := remember a S.memo } ∧
        Q a { S with memo := remember a S.memo }) :
    Leads V E s (Search.unlessDiverged step remember) Q :=
  Obeys.unlessDiverged h fun a S hS ha =>
    ⟨(hr a S hS ha).1.grows, hS.change (hr a S hS ha).1, (hr a S hS ha).2⟩

end Leads

/-! ### Dependencies -/

structure Filled (E : Environment) (S : Session) (inner : ScopeId) (requests : List Request)
    (filled : List (Request × Option Resolved)) : Prop where
  -- `filled` has the given requests in their order, with legal values of the scope `inner` or, for
  -- those that are not required, with none.
  slots : filled.map (·.1) = requests
  required : ∀ r, (r, none) ∈ filled → r.required = false
  values : ∀ r v, (r, some v) ∈ filled → Legal E S v ∧ v.scope = inner

theorem filled_nil {S : Session} : Filled E S inner [] [] where
  slots := rfl
  required _ h := absurd h List.not_mem_nil
  values _ _ h := absurd h List.not_mem_nil

theorem Filled.cons {S : Session} {request : Request} {requests : List Request}
    {filled : List (Request × Option Resolved)} {v : Option Resolved}
    (h : Filled E S inner requests filled) (hn : v = none → request.required = false)
    (hv : ∀ w, v = some w → Legal E S w ∧ w.scope = inner) :
    Filled E S inner (request :: requests) ((request, v) :: filled) where
  slots := by rw [List.map_cons, h.slots]
  required r hr := by
    rcases List.mem_cons.1 hr with he | hr
    · cases he
      exact hn rfl
    · exact h.required r hr
  values r w hw := by
    rcases List.mem_cons.1 hw with he | hw
    · cases he
      exact hv w rfl
    · exact h.values r w hw

section Solve

variable {solve : Solve} {chain : List InjectableId} {request : Request}

def Resolves (V : Vocabulary) (E : Environment) (solve : Solve) : Prop :=
  ∀ chain scope request s, Sound V E s.session → scope < s.session.scopes.size →
    V.Covers request.ty →
      Leads V E s (solve chain scope request) fun result S' => Remembers E S' scope result

theorem leads_fillAll {solve : Request → SearchM (Except Failure Resolved)}
    {requests : List Request} (hs : Sound V E s.session) (hi : inner < s.session.scopes.size)
    (hsolve : ∀ r ∈ requests, ∀ s, Sound V E s.session → inner < s.session.scopes.size →
      Leads V E s (solve r) fun result S' => Remembers E S' inner result) :
    Leads V E s (fillAll solve requests) fun result S' =>
      ∀ filled, result = .ok filled → Filled E S' inner requests filled := by
  induction requests generalizing s with
  | nil =>
    rw [fillAll]
    refine Leads.pure hs ?_
    rintro _ ⟨⟩
    exact filled_nil
  | cons request rest ih =>
    obtain ⟨hsolve, hrest⟩ := List.forall_mem_cons.1 hsolve
    -- the rest is filled in the same way after a value and after a default
    have hgoOn : ∀ (v : Option Resolved) (s' : Search), s.session.Extends s'.session →
        Sound V E s'.session → (v = none → request.required = false) →
        (∀ w, v = some w → Legal E s'.session w ∧ w.scope = inner) →
        Leads V E s' (fillNext request v (fillAll solve rest)) fun result S' =>
          ∀ filled, result = .ok filled → Filled E S' inner (request :: rest) filled := by
      intro v s' hgrows hs' hn hv
      unfold fillNext
      apply Leads.bind (ih hs' (hgrows.lt_scopes hi) hrest)
      intro result s'' hgrows' hs'' hfilled
      split
      · next filled =>
        refine Leads.pure hs'' ?_
        rintro _ ⟨⟩
        apply (hfilled filled rfl).cons hn
        exact fun w hw => ⟨(hv w hw).1.mono hgrows', (hv w hw).2⟩
      · exact Leads.pure hs'' fun _ h => by cases h
    rw [fillAll]
    apply Leads.bind (hsolve s hs hi)
    intro result s' hgrows hs' hresult
    split
    · next v =>
      apply hgoOn (some v) s' hgrows hs' (fun h => by cases h)
      rintro _ ⟨⟩
      exact hresult v rfl
    · split
      · exact Leads.pure hs' fun _ h => by cases h
      · next hr =>
        exact hgoOn none s' hgrows hs' (fun _ => Bool.eq_false_iff.2 hr) fun _ h => by cases h

/-! ### Candidates -/

/-- The candidate exists, and belongs to a scope around the given one or to a type scope. -/
structure Usable (S : Session) (scope : ScopeId) (c : InjectableId) : Prop where
  candidate : c < S.injectables.size
  visible : S.Around scope (S.injectable c).owner ∨
    (S.scope (S.injectable c).owner).isTypeScope = true

theorem Usable.mono {S S' : Session} (h : Usable S scope c) (hS : S.Extends S') :
    Usable S' scope c where
  candidate := hS.lt_injectables h.candidate
  visible := by
    rw [hS.injectable c h.candidate]
    refine h.visible.imp (fun ha => ha.mono hS) fun ht => ?_
    rw [hS.scope _ (lt_of_isTypeScope ht)]
    exact ht

theorem reifies_of_mismatch {K : Catalog} {statics : List Classifier} {i : Injectable}
    (h : i.producer?.bind (reifiedMismatch? K statics) = none) : i.Reifies K statics := by
  intro p hp parameter hparameter hreified argument hargument x hx hstatic
  rw [hp, Option.bind_some, reifiedMismatch?, List.findSome?_eq_none_iff] at h
  have hnone := h parameter (List.mem_filter.2 ⟨hparameter, hreified⟩)
  rw [hargument] at hnone
  have hfind : (K.parametersIn argument).find?
      (fun x => statics.contains x && !(K.flags x).reified) = none := by
    apply Option.eq_none_iff_forall_ne_some.2
    simpa using hnone
  have hx := List.find?_eq_none.1 hfind x hx
  rw [hstatic] at hx
  simpa using hx

/-- What may be called from the scope and loses nothing that is reified may be used in it. -/
theorem obstacle_eq_none {S : Session}
    (hcallable : E.host.canCall (S.scope scope).callContext (S.injectable c).callContext = true)
    (hreified : (S.injectable c).producer?.bind
      (reifiedMismatch? E.catalog (S.scope scope).statics) = none) :
    obstacle? E S scope c = none := by
  unfold obstacle?
  dsimp only
  rw [hcallable, hreified]
  rfl

/-- Nothing is lost if the type arguments mention no type parameters. -/
theorem obstacle_eq_none_of_closed {S : Session} {p : Producer}
    (hform : (S.injectable c).form = .produced p)
    (hcallable : E.host.canCall (S.scope scope).callContext (S.injectable c).callContext = true)
    (hclosed : ∀ parameter t, p.typeArguments.get? parameter = some t →
      E.catalog.parametersIn t = []) : obstacle? E S scope c = none := by
  have hmismatch : reifiedMismatch? E.catalog (S.scope scope).statics p = none := by
    refine List.findSome?_eq_none_iff.2 fun parameter _ => ?_
    cases ht : p.typeArguments.get? parameter with
    | none => rfl
    | some t =>
      change ((E.catalog.parametersIn t).find? _).bind _ = none
      rw [hclosed parameter t ht]
      rfl
  have hproducer : (S.injectable c).producer? = some p := by rw [Injectable.producer?, hform]
  exact obstacle_eq_none hcallable (by rw [hproducer]; exact hmismatch)

/-- A candidate without an obstacle may be called from the scope and keeps what is reified. -/
theorem of_obstacle_eq_none {S : Session} (h : obstacle? E S scope c = none) :
    E.host.canCall (S.scope scope).callContext (S.injectable c).callContext = true ∧
      (S.injectable c).Reifies E.catalog (S.scope scope).statics := by
  unfold obstacle? at h
  dsimp only at h
  split at h
  · cases h
  · next hcall =>
    refine ⟨by simpa using hcall, reifies_of_mismatch ?_⟩
    simpa using h

/-- What stands in the way of a candidate: it may not be called from the scope, or a reified type
parameter of it would be lost. -/
theorem obstacle_cases {S : Session} {f : Failure} (h : obstacle? E S scope c = some f) :
    (∃ context candidateContext, f = .callContext c context candidateContext) ∨
      ∃ parameter argument, f = .reifiedArgument c parameter argument := by
  unfold obstacle? at h
  dsimp only at h
  split at h
  · exact Or.inl ⟨_, _, (Option.some.inj h).symm⟩
  · obtain ⟨_, _, rfl⟩ := Option.map_eq_some_iff.1 h
    exact Or.inr ⟨_, _, rfl⟩

/-- It names no request. -/
theorem forRequest_of_obstacle {S : Session} {f : Failure} (h : obstacle? E S scope c = some f)
    (r : Request) : f.forRequest r = f := by
  rcases obstacle_cases h with ⟨_, _, rfl⟩ | ⟨_, _, rfl⟩ <;> rfl

/-- What stands in the way of a candidate does not change. -/
theorem obstacle_eq {S S' : Session} (hS : S.Extends S') (hscope : scope < S.scopes.size)
    (hc : c < S.injectables.size) : obstacle? E S' scope c = obstacle? E S scope c := by
  unfold obstacle?
  rw [hS.scope scope hscope, hS.injectable c hc]

/-- With its dependencies filled in the right scope, a candidate that may be used is a legal tree. -/
theorem leads_fillCandidate {solve : Request → SearchM (Except Failure Resolved)}
    (hs : Sound V E s.session) (hscope : scope < s.session.scopes.size)
    (hi : inner < s.session.scopes.size) (hc : Usable s.session scope c)
    (ho : obstacle? E s.session scope c = none)
    (hfills : (s.session.injectable c).dependencies E.catalog ≠ [] →
      s.session.Fills scope c inner)
    (hsolve : ∀ r, V.Covers r.ty → ∀ s, Sound V E s.session → inner < s.session.scopes.size →
      Leads V E s (solve r) fun result S' => Remembers E S' inner result) :
    Leads V E s (fillCandidate solve scope c ((s.session.injectable c).dependencies E.catalog))
      fun result S' => Remembers E S' scope result := by
  have hcovers := Vocabulary.covers_dependencies (K := E.catalog) (hs.injectables c hc.candidate)
  obtain ⟨hcall, hreifies⟩ := of_obstacle_eq_none ho
  unfold fillCandidate
  apply Leads.bind (leads_fillAll hs hi fun r hr s hs hi => hsolve r (hcovers r hr) s hs hi)
  intro result s' hgrows hs' hfilled
  split
  · next filled =>
    refine Leads.pure hs' ?_
    rintro _ ⟨⟩
    have hf := hfilled filled rfl
    -- what was checked before the dependencies were filled is still so after that
    have hcand := hgrows.injectable c hc.candidate
    have hplace := hgrows.scope scope hscope
    have husable := hc.mono hgrows
    refine ⟨.node ?_ fun r w hw => (hf.values r w hw).1, rfl⟩
    refine ⟨husable.candidate, hgrows.lt_scopes hscope, ?_, ?_, husable.visible, ?_,
      hf.required, fun r w hw => ?_⟩
    · rw [hplace, hcand]
      exact hcall
    · rw [hplace, hcand]
      exact hreifies
    · rw [hcand]
      exact hf.slots
    · have hne : (s.session.injectable c).dependencies E.catalog ≠ [] := by
        rw [← hf.slots]
        exact List.ne_nil_of_mem (List.mem_map_of_mem hw)
      -- there is a value, so there is a dependency and a scope in which it is filled
      rw [(hf.values r w hw).2]
      exact (hfills hne).mono hc.candidate hgrows
  · exact Leads.pure hs' fun _ h => by cases h

theorem leads_computeCandidate (hE : V.Speaks E) (hsolve : Resolves V E solve)
    (hs : Sound V E s.session) (hscope : scope < s.session.scopes.size)
    (hc : Usable s.session scope c) :
    Leads V E s (computeCandidate E solve chain scope request c) fun result S' =>
      Remembers E S' scope result := by
  unfold computeCandidate
  apply Leads.get
  dsimp only
  split
  · exact Leads.pure hs fun v h => by cases h
  · next hobstacle =>
    split
    · apply Leads.bind (Leads.count hs rfl)
      intro _ s' _ hs' _
      exact Leads.pure hs' fun v h => by cases h
    · split
      · next hempty =>
        refine leads_fillCandidate hs hscope hscope hc hobstacle ?_ ?_
        · exact fun hne => absurd (List.isEmpty_iff.1 hempty) hne
        · exact fun r hr s hs hi => hsolve (c :: chain) scope r s hs hi hr
      · apply Leads.bind (Leads.lift (leads_dependencyScope hE hs hscope hc.candidate))
        intro inner s' hgrows hs' h
        -- the obstacle is looked for before the scope is made, which does not bear on it
        rw [← obstacle_eq hgrows hscope hc.candidate] at hobstacle
        rw [← hgrows.injectable c hc.candidate]
        exact leads_fillCandidate hs' (hgrows.lt_scopes hscope) h.1 (hc.mono hgrows) hobstacle
          (fun _ => h.2) fun r hr s hs hi => hsolve (c :: chain) inner r s hs hi hr

theorem leads_resolveCandidate (hE : V.Speaks E) (hsolve : Resolves V E solve)
    (hs : Sound V E s.session) (hscope : scope < s.session.scopes.size)
    (hc : Usable s.session scope c) :
    Leads V E s (resolveCandidate E solve chain scope request c) fun result S' =>
      Remembers E S' scope result := by
  unfold resolveCandidate
  apply Leads.get
  split
  · next result hresult =>
    obtain ⟨e, he, hk, rfl⟩ := mem_of_lookup hresult
    refine Leads.pure hs ?_
    rw [fst_eq_of_beq hk]
    exact hs.byCandidate e he
  · apply Leads.unlessDiverged (leads_computeCandidate hE hsolve hs hscope hc)
    intro result S _ hresult
    have hgrows : S.Extends { S with memo := { S.memo with
        byCandidate := ((scope, c), result) :: S.memo.byCandidate } } :=
      Extends.of_same rfl rfl fun _ _ => id
    have hnew := hresult.mono hgrows
    exact ⟨{ grows := hgrows, byCandidate := mem_cons_imp hnew }, hnew⟩

end Solve

end Wiring.Search
