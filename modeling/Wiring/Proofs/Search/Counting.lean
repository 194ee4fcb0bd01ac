import Wiring.Search.Solve

namespace Wiring.Search

variable {E : Environment} {α β : Type} {chain : List InjectableId} {scope : ScopeId}
  {request : Request} {candidate : InjectableId}

def diverged (s : Search) (n : Nat) : Search :=
  { s with divergences := s.divergences + n }

def Uncounted (step : SearchM α) : Prop :=
  ∀ s n, step (s.diverged n) = (step s).map fun r => (r.1, r.2.diverged n)

namespace Uncounted

theorem pure (a : α) : Uncounted (Pure.pure a) :=
  fun _ _ => rfl

theorem stop (stop : Stop) : Uncounted (throw stop : SearchM α) :=
  fun _ _ => rfl

theorem lift (look : SessionM α) : Uncounted (Search.lift look) :=
  fun _ _ => rfl

theorem count :
    Uncounted (modify fun search => { search with divergences := search.divergences + 1 }) := by
  intro s n
  have hcount : (s.diverged n).divergences + 1 = s.divergences + 1 + n := Nat.add_right_comm ..
  change Except.ok (PUnit.unit, { s.diverged n with divergences := (s.diverged n).divergences + 1 }) = _
  rw [hcount]
  rfl

theorem bind {step : SearchM α} {f : α → SearchM β} (h : Uncounted step)
    (hf : ∀ a, Uncounted (f a)) : Uncounted (step >>= f) := by
  intro s n
  change (step (s.diverged n)).bind (fun r => f r.1 r.2) =
    ((step s).bind fun r => f r.1 r.2).map _
  rw [h s n]
  cases step s with
  | error stop => rfl
  | ok r => exact hf r.1 r.2 n

theorem map {step : SearchM α} {g : α → β} (h : Uncounted step) : Uncounted (g <$> step) :=
  show Uncounted (step >>= fun a => Pure.pure (g a)) from bind h fun a => pure (g a)

/-- A look at the session does not see the number. -/
theorem get {f : Search → SearchM β} (hf : ∀ s n, f (diverged s n) = f s)
    (h : ∀ s, Uncounted (f s)) : Uncounted (MonadState.get >>= f) := by
  intro s n
  change f (s.diverged n) (s.diverged n) = (f s s).map _
  rw [hf s n]
  exact h s s n

/-- Whether a step has seen a divergence does not depend on those before it. -/
theorem unlessDiverged {compute : SearchM α} {remember : α → Memo → Memo} (h : Uncounted compute) :
    Uncounted (Search.unlessDiverged compute remember) := by
  intro s n
  have hcompare : ∀ s' : Search,
      (s'.diverged n).divergences = (s.diverged n).divergences ↔ s'.divergences = s.divergences :=
    fun s' => Nat.add_right_cancel_iff
  change (compute (s.diverged n)).bind (fun r =>
      (if r.2.divergences = (s.diverged n).divergences then
        Search.lift (Session.remember (remember r.1)) >>= fun _ => Pure.pure r.1
      else Pure.pure r.1 : SearchM α) r.2) =
    ((compute s).bind fun r =>
      (if r.2.divergences = s.divergences then
        Search.lift (Session.remember (remember r.1)) >>= fun _ => Pure.pure r.1
      else Pure.pure r.1 : SearchM α) r.2).map _
  rw [h s n]
  cases compute s with
  | error stop => rfl
  | ok r =>
    dsimp only [Except.map, Except.bind]
    by_cases heq : r.2.divergences = s.divergences
    · rw [if_pos heq, if_pos ((hcompare r.2).2 heq)]
      rfl
    · rw [if_neg heq, if_neg (mt (hcompare r.2).1 heq)]
      rfl

end Uncounted

theorem uncounted_fillNext {v : Option Resolved} {rest : SearchM Filling} (h : Uncounted rest) :
    Uncounted (fillNext request v rest) := by
  unfold fillNext
  refine h.bind fun filling => ?_
  split
  · exact Uncounted.pure _
  · exact Uncounted.pure _

theorem uncounted_fillAll {solve : Request → SearchM (Except Failure Resolved)}
    (h : ∀ r, Uncounted (solve r)) (requests : List Request) :
    Uncounted (fillAll solve requests) := by
  induction requests with
  | nil => exact Uncounted.pure _
  | cons request rest ih =>
    rw [fillAll]
    refine (h request).bind fun result => ?_
    cases result with
    | ok v => exact uncounted_fillNext ih
    | error failure =>
      dsimp only
      split
      · exact Uncounted.pure _
      · exact uncounted_fillNext ih

section Solve

variable {solve : Solve} (hsolve : ∀ chain scope request, Uncounted (solve chain scope request))

include hsolve

theorem uncounted_computeCandidate :
    Uncounted (computeCandidate E solve chain scope request candidate) := by
  unfold computeCandidate
  refine Uncounted.get (fun _ _ => rfl) fun s => ?_
  dsimp only
  split
  · exact Uncounted.pure _
  · split
    · exact Uncounted.count.bind fun _ => Uncounted.pure _
    · have hfill : ∀ inner, Uncounted (fillCandidate (solve (candidate :: chain) inner) scope
          candidate ((s.session.injectable candidate).dependencies E.catalog)) := by
        intro inner
        refine (uncounted_fillAll (fun r => hsolve _ _ r) _).bind fun filling => ?_
        cases filling with
        | ok filled => exact Uncounted.pure _
        | error e => exact Uncounted.pure _
      split
      · exact hfill scope
      · exact (Uncounted.lift _).bind hfill

theorem uncounted_resolveCandidate :
    Uncounted (resolveCandidate E solve chain scope request candidate) := by
  unfold resolveCandidate
  refine Uncounted.get (fun _ _ => rfl) fun s => ?_
  split
  · exact Uncounted.pure _
  · exact (uncounted_computeCandidate hsolve).unlessDiverged

theorem uncounted_tryAll (candidates : List InjectableId) (standing : Standing) :
    Uncounted (tryAll E solve chain scope request standing candidates) := by
  induction candidates generalizing standing with
  | nil => exact Uncounted.pure _
  | cons candidate rest ih =>
    rw [tryAll]
    refine Uncounted.get (fun _ _ => rfl) fun s => ?_
    split
    · exact Uncounted.pure _
    · refine (uncounted_resolveCandidate hsolve).bind fun result => ?_
      exact Uncounted.get (fun _ _ => rfl) fun s => ih _

theorem uncounted_resolveSome (candidates : List InjectableId) :
    Uncounted (resolveSome E solve chain scope request candidates) := by
  unfold resolveSome
  split
  · exact Uncounted.pure _
  · refine Uncounted.map ?_
    unfold resolveCandidates
    split
    · exact uncounted_resolveCandidate hsolve
    · refine Uncounted.get (fun _ _ => rfl) fun s => ?_
      split
      · exact Uncounted.stop _
      · exact (uncounted_tryAll hsolve _ _).bind fun standing => Uncounted.pure _

theorem uncounted_resolveInTypeScope :
    Uncounted (resolveInTypeScope E solve chain scope request) := by
  unfold resolveInTypeScope
  split
  · exact Uncounted.pure _
  · refine (Uncounted.lift _).bind fun found => ?_
    cases found with
    | none => exact Uncounted.pure _
    | some typeScope =>
      refine Uncounted.get (fun _ _ => rfl) fun s => ?_
      exact (Uncounted.lift _).bind fun candidates => uncounted_resolveSome hsolve candidates

theorem uncounted_resolveFramework :
    Uncounted (resolveFramework E solve chain scope request) := by
  have hmade : ∀ made, Uncounted (resolveMade E solve chain scope request made) := by
    intro made
    cases made with
    | none => exact Uncounted.pure _
    | some candidate => exact uncounted_resolveCandidate hsolve
  unfold resolveFramework
  split
  · exact (Uncounted.lift _).bind hmade
  · exact hmade none

theorem uncounted_computeRequest : Uncounted (computeRequest E solve chain scope request) := by
  unfold computeRequest
  refine Uncounted.get (fun _ _ => rfl) fun s => ?_
  refine (Uncounted.lift _).bind fun candidates => ?_
  refine (uncounted_resolveSome hsolve candidates).bind fun result => ?_
  rcases result with _ | _ | v
  · refine (uncounted_resolveInTypeScope hsolve).bind fun typed => ?_
    cases typed with
    | none => exact uncounted_resolveFramework hsolve
    | some result => exact Uncounted.pure _
  · refine (uncounted_resolveInTypeScope hsolve).bind fun typed => ?_
    rcases typed with _ | _ | v
    · exact Uncounted.pure _
    · exact Uncounted.pure _
    · exact Uncounted.pure _
  · exact Uncounted.pure _

theorem uncounted_resolveRequest : Uncounted (resolveRequest E solve chain scope request) := by
  unfold resolveRequest
  refine Uncounted.get (fun _ _ => rfl) fun s => ?_
  split
  · exact Uncounted.pure _
  · exact Uncounted.pure _
  · exact (uncounted_computeRequest hsolve).unlessDiverged

end Solve

theorem uncounted_solve (E : Environment) (depth : Nat) (chain : List InjectableId)
    (scope : ScopeId) (request : Request) : Uncounted (solve E depth chain scope request) := by
  induction depth generalizing chain scope request with
  | zero => exact fun _ _ => rfl
  | succ depth ih => exact uncounted_resolveRequest ih

/-- Filling a request starts as well with no divergences seen. -/
theorem run_solve_eq (depth : Nat) (s : Search) :
    solve E depth [] scope request s =
      (solve E depth [] scope request { session := s.session }).map fun r =>
        (r.1, r.2.diverged s.divergences) := by
  have hrun := uncounted_solve E depth [] scope request { session := s.session } s.divergences
  rwa [show diverged { session := s.session } s.divergences = s by rw [diverged, Nat.zero_add]]
    at hrun

end Wiring.Search
