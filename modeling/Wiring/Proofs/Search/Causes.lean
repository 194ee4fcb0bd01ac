import Wiring.Proofs.Search.Weighing

namespace Wiring

/-- A failure that names a request names this one, and one for want of candidates this scope. -/
def Failure.Names (scope : ScopeId) (request : Request) : Failure → Prop
  | .noCandidates scope' request' => scope' = scope ∧ request' = request
  | .ambiguity request' _ => request' = request
  | .divergent _ request' => request' = request
  | _ => True

namespace Search

open Session

variable {E : Environment} {S : Session} {scope : ScopeId} {request : Request} {f g : Failure}

/-- A failure, read down to its root cause: it names the request and the scope, the values of an
ambiguity are two or more legal ones of different candidates, what stands in the way of a candidate
does so in the scope, and a dependency that fails is one that the candidate requires, with the failure
of just this dependency in the scope where it is filled. -/
inductive Causal (E : Environment) (S : Session) : ScopeId → Request → Failure → Prop
  | noCandidates {scope : ScopeId} {request : Request} :
      Causal E S scope request (.noCandidates scope request)
  | ambiguity {scope : ScopeId} {request : Request} {values : List Resolved}
      (many : 2 ≤ values.length) (distinct : (values.map (·.candidate)).Nodup)
      (legal : ∀ v ∈ values, Legal E S v ∧ v.scope = scope) :
      Causal E S scope request (.ambiguity request values)
  | obstacle {scope : ScopeId} {request : Request} {c : InjectableId} {f : Failure}
      (h : obstacle? E S scope c = some f) : Causal E S scope request f
  | divergent {scope : ScopeId} {request : Request} {c : InjectableId} :
      Causal E S scope request (.divergent c request)
  | dependency {scope inner : ScopeId} {request r : Request} {c : InjectableId} {f : Failure}
      (needs : r ∈ (S.injectable c).dependencies E.catalog) (required : r.required = true)
      (fills : S.Fills scope c inner) (h : Causal E S inner r f) :
      Causal E S scope request (.dependency c r f)

theorem Causal.names (h : Causal E S scope request f) : f.Names scope request := by
  cases h with
  | noCandidates => exact ⟨rfl, rfl⟩
  | ambiguity => exact rfl
  | obstacle h => rcases obstacle_cases h with ⟨_, _, rfl⟩ | ⟨_, _, rfl⟩ <;> trivial
  | divergent => exact rfl
  | dependency => trivial

/-- The failure to report is the old one or the new one. -/
theorem causal_report (hf : Causal E S scope request f) (hg : Causal E S scope request g) :
    Causal E S scope request (Failure.report (some f) g) := by
  unfold Failure.report
  dsimp only
  split
  · exact hg
  · exact hf

theorem causal_overall (hf : Causal E S scope request f) (hg : Causal E S scope request g) :
    Causal E S scope request (overall f g) := by
  unfold overall
  split
  · exact hg
  · exact hf

mutual
/-- What explains a failure makes it a chain of causes. -/
theorem Explains.causal : ∀ {chain : List InjectableId} {scope : ScopeId} {request : Request}
    {f : Failure}, Explains E S chain scope request f → Causal E S scope request f
  | _, _, _, _, .nothing _ _ _ => .noCandidates
  | _, _, _, _, .made _ _ _ h => Thwarted.causal h
  | _, _, _, _, .inScope h _ => Unserved.causal h
  | _, _, _, _, .inTypeScope _ _ h => Unserved.causal h
  | _, _, _, _, .inBoth h _ h' => causal_overall (Unserved.causal h) (Unserved.causal h')

theorem Unserved.causal : ∀ {chain : List InjectableId} {scope place : ScopeId}
    {request : Request} {f : Failure}, Unserved E S chain scope place request f →
      Causal E S scope request f
  | _, _, _, _, _, .ambiguity _ many distinct legal _ => .ambiguity many distinct legal
  | _, _, _, _, _, .spent _ _ _ h => Spent.causal h

theorem Spent.causal : ∀ {chain : List InjectableId} {scope : ScopeId} {request : Request}
    {tried : List InjectableId} {f : Failure}, Spent E S chain scope request tried f →
      Causal E S scope request f
  | _, _, _, _, _, .first h => Thwarted.causal h
  | _, _, _, _, _, .next h h' => causal_report (Spent.causal h) (Thwarted.causal h')

theorem Thwarted.causal : ∀ {chain : List InjectableId} {scope : ScopeId} {request : Request}
    {c : InjectableId} {f : Failure}, Thwarted E S chain scope request c f →
      Causal E S scope request f
  | _, _, _, _, _, .obstacle h => .obstacle h
  | _, _, _, _, _, .divergent _ _ _ => .divergent
  | _, _, _, _, _, .dependency needs required fills h =>
    .dependency needs required fills (Explains.causal h)
end

end Search

/-- A root cause is at the end of its chain. -/
theorem Failure.rootCause_rootCause (f : Failure) : f.rootCause.rootCause = f.rootCause := by
  induction f with
  | dependency _ _ inner ih => exact ih
  | _ => rfl

namespace Session

open Search Vocabulary

variable {E : Environment} {S S' : Session} {scope : ScopeId} {depth : Nat} {request : Request}

/-- A failure is explained at the end of the search that gives it. -/
theorem explained_resolve (hs : Sound everything E S) (hx : Explained E S)
    (hscope : scope < S.scopes.size) {result : Except Failure Resolved}
    (hr : S.resolve E depth scope request = .ok (result, S')) :
    Explained E S' ∧ ∀ f, result = .error f → Explains E S' [] scope request f := by
  obtain ⟨s', hrun, rfl⟩ := exists_run_of_resolve hr
  obtain ⟨h₁, hresult⟩ := (accountable_solve E depth).accounts 0 [] scope request { session := S }
    ⟨hs, hx, hscope, List.forall_mem_nil _, Nat.le_refl 0⟩ result s' hrun
  exact ⟨h₁.explained, fun f hf => (hresult f hf).1⟩

theorem explained_resolveAll (hs : Sound everything E S) (hx : Explained E S)
    (hscope : scope < S.scopes.size) {requests : List Request} {site : CallSite}
    (hr : S.resolveAll E depth scope requests = .ok (site, S')) : Explained E S' := by
  obtain ⟨s', hrun, rfl⟩ := exists_run_of_resolveAll hr
  have hsolve := accountable_solve E depth
  have hobeys : Search.Obeys (fun S => Sound everything E S ∧ Explained E S) { session := S }
      (Search.solveAll E depth scope requests [] none) fun _ _ => True := by
    refine Search.Obeys.solveAll (fun request _ s ⟨hs, hx⟩ hscope => ?_) ⟨hs, hx⟩ hscope
    intro result s' hrun
    obtain ⟨hgrows, hs', _⟩ := hsolve.leads [] scope request s hs hscope (covers_everything _)
      result s' hrun
    obtain ⟨h₁, _⟩ := hsolve.accounts 0 [] scope request s
      ⟨hs, hx, hscope, List.forall_mem_nil _, Nat.zero_le _⟩ result s' hrun
    exact ⟨hgrows, ⟨hs', h₁.explained⟩, trivial⟩
  exact (hobeys site s' hrun).2.1.2

/-- All failures that a session remembers are explained. -/
theorem Reachable.explained (h : Reachable E S) : Explained E S := by
  induction h with
  | start E => exact explained_empty E
  | supply _ c ts ih => exact ih.supply rfl rfl (Catalog.supplied_supplySupertypes _ _ _)
  | @addScope E S h position _ ih =>
    exact ih.keep h.sound_everything (keeps_addScope E position S)
      ((blind_addScope E position).results_eq S)
  | @candidates E S h scope _ ty statics ih =>
    exact ih.keep h.sound_everything (keeps_candidates E scope ty statics (Keeps.refl S)).keeps
      ((blind_candidates E scope ty statics).results_eq S)
  | resolve h hscope hr ih => exact (explained_resolve h.sound_everything ih hscope hr).1
  | resolveAll h hscope hr ih => exact explained_resolveAll h.sound_everything ih hscope hr

/-- A request that fails does so for reasons that hold in the session: the failure is explained, it names
this request and no earlier one, and its chain leads from candidate to required dependency down to a
root cause, of which it has the rank, and which is a divergence if the failure counts as one. -/
theorem resolve_failure_explained (hR : Reachable E S) (hs : scope < S.scopes.size) {f : Failure}
    (hr : S.resolve E depth scope request = .ok (.error f, S')) :
    Explains E S' [] scope request f ∧ Causal E S' scope request f ∧ f.Names scope request ∧
      f.rank = f.rootCause.rank ∧ f.isDivergent = f.rootCause.isDivergent := by
  have hexplains : Explains E S' [] scope request f :=
    (explained_resolve hR.sound_everything hR.explained hs hr).2 f rfl
  have hdivergent : f.isDivergent = f.rootCause.isDivergent := by
    unfold Failure.isDivergent
    rw [f.rootCause_rootCause]
  exact ⟨hexplains, hexplains.causal, hexplains.causal.names, f.rank_root_cause.symm, hdivergent⟩

def meadow : Session :=
  ((addScope village {
    name := "meadow"
    declarations := [
      { id := "tower"
        ty := .of ⟨"Tower", 0⟩
        parameters := [{ name := "bell", slot := .value 0, ty := .of ⟨"Bell", 0⟩ }] }] }).run {}).2

def tower : Request where
  ty := .of ⟨"Tower", 0⟩
  callable := "main"
  name := "landmark"
  slot := .value 0

def towerBell : Request where
  ty := .of ⟨"Bell", 0⟩
  callable := "tower"
  name := "bell"
  slot := .value 0

def alarmBell : Request :=
  { towerBell with callable := "alarm", name := "signal" }

def silent : Session :=
  after (meadow.resolve village 4 0 tower)

/-- The tower fails because there is no bell for it. That is remembered, so a bell that is asked for
afterwards fails in the same way, but the failure names the later request. -/
theorem silent_explained : Reachable village meadow ∧ 0 < meadow.scopes.size ∧
    meadow.resolve village 4 0 tower =
      .ok (.error (.dependency 0 towerBell (.noCandidates 0 towerBell)), silent) ∧
    Causal village silent 0 tower (.dependency 0 towerBell (.noCandidates 0 towerBell)) ∧
    (silent.memo.byType.lookup (0, alarmBell.ty)).isSome = true ∧
    ∃ S', silent.resolve village 4 0 alarmBell =
        .ok (.error (.noCandidates 0 alarmBell), S') ∧
      Explains village S' [] 0 alarmBell (.noCandidates 0 alarmBell) := by
  have hmeadow : Reachable village meadow := .addScope (.start village) _ rfl
  have hs : 0 < meadow.scopes.size := by decide +kernel
  have htower : meadow.resolve village 4 0 tower =
      .ok (.error (.dependency 0 towerBell (.noCandidates 0 towerBell)), silent) := rfl
  have hsilent : Reachable village silent := .resolve hmeadow hs htower
  have hs' : 0 < silent.scopes.size := by decide +kernel
  obtain ⟨S', hbell⟩ : ∃ S', silent.resolve village 4 0 alarmBell =
      .ok (.error (.noCandidates 0 alarmBell), S') := ⟨_, rfl⟩
  obtain ⟨_, hcausal, _⟩ := resolve_failure_explained hmeadow hs htower
  obtain ⟨hexplains, _⟩ := resolve_failure_explained hsilent hs' hbell
  exact ⟨hmeadow, hs, htower, hcausal, by decide +kernel, S', hbell, hexplains⟩

end Session
end Wiring
