import Wiring.Proofs.Search.Choice
import Wiring.Proofs.Search.Weighing

namespace Wiring.Search

open Session

variable {E : Environment} {s s' : Search} {scope : ScopeId} {request : Request} {solve : Solve}
  {chain : List InjectableId} {candidates : List InjectableId} {standing standing' : Standing}
  {failure : Failure}

/-- Candidates are only left out after one that has a value. -/
theorem trial_of_no_value
    (hrun : tryAllWith E (resolveCandidate E solve chain scope request) scope request standing
      candidates s = .ok (standing', s'))
    (hbest : standing'.best = []) : standing.best = [] ∧
      ∃ results, Trial E solve chain scope request s candidates results s' ∧
        ∀ r ∈ results, ∃ f, r = .error f := by
  induction candidates generalizing s standing with
  | nil =>
    cases hrun
    exact ⟨hbest, [], .nil, List.forall_mem_nil _⟩
  | cons c rest ih =>
    rw [run_tryAllWith] at hrun
    split at hrun
    · next hbeats =>
      -- a candidate is beaten by a value only
      cases hrun
      simp [Standing.beats, hbest] at hbeats
    · obtain ⟨⟨result, t⟩, hresult, hrun⟩ := bind_eq_ok_iff.1 hrun
      obtain ⟨hadded, results, htrial, hfailed⟩ := ih hrun
      cases result with
      | ok v =>
        have htaken : Taken E t.session request.ty standing.best v [] := hadded ▸ taken_add standing
        exact absurd rfl htaken.ne_nil
      | error f =>
        exact ⟨hadded, _, .cons hresult htrial, List.forall_mem_cons.2 ⟨⟨f, rfl⟩, hfailed⟩⟩

/-- If several candidates come to no value and not because they tie, all usages among them have been
tried, and the candidates that were tried for them have failed. -/
theorem failed_choice_spent (hseveral : candidates.length ≠ 1)
    (hrun : resolveCandidates E solve chain scope request candidates s = .ok (.error failure, s'))
    (hfailure : ∀ best, failure ≠ .ambiguity request best) :
    ∃ sorted results, ranked E s.session scope request.ty candidates = some sorted ∧
      Trial E solve chain scope request s sorted results s' ∧ (∀ r ∈ results, ∃ f, r = .error f) ∧
      ∀ c ∈ candidates, ∃ t ∈ sorted,
        ((s.session.injectable c).usage == (s.session.injectable t).usage) = true := by
  rw [resolveCandidates_eq] at hrun
  unfold resolveCandidatesWith at hrun
  split at hrun
  · next only => exact absurd rfl hseveral
  · obtain ⟨sorted, standing, hranked, htry, houtcome⟩ := exists_sorted_of_choose hrun
    have hbest : standing.best = [] := by
      unfold Standing.outcome at houtcome
      split at houtcome
      · cases houtcome
      · assumption
      · exact absurd (Except.error.inj houtcome) (hfailure _)
    obtain ⟨-, results, htrial, hfailed⟩ := trial_of_no_value htry hbest
    exact ⟨sorted, results, hranked, htrial, hfailed, fun c hc => exists_mem_ranked hranked hc⟩

def modular : Environment where
  host := HostTables.host {
    members := [("M", [{
      id := "M.foo", ty := plain "Foo"
      parameters := [{ name := "receiver", slot := .receiver, ty := plain "M" }] }])] }

def twoModules : Session :=
  let given := needing "given" "M" []
  let broken := needing "broken" "M" ["Missing"]
  let outer := { name := "outer", declarations := [given] }
  let inner := { name := "inner", parent := some 0, declarations := [broken] }
  ((do let _ ← addScope modular outer; addScope modular inner).run {}).2

def lookedUp : Session :=
  ((Session.candidates modular 1 (plain "Foo") []).run twoModules).2

/-- The `Foo` of the outer module can be had, but the one of the inner module ranks before it and has
its usage, so the outer one is not tried and the choice fails. -/
theorem receiver_shadowed :
    ((Session.candidates modular 1 (plain "Foo") []).run twoModules).1 = [0, 1] ∧
      ((lookedUp.injectable 0).usage == (lookedUp.injectable 1).usage) = true ∧
      (∃ v s, resolveCandidate modular (Search.solve modular 4) [] 1 prize 0
        { session := lookedUp } = .ok (.ok v, s)) ∧
      ∃ failure s, resolveCandidates modular (Search.solve modular 4) [] 1 prize [0, 1]
          { session := lookedUp } = .ok (.error failure, s) ∧
        ∀ best, failure ≠ .ambiguity prize best := by
  have houter : (resolveCandidate modular (Search.solve modular 4) [] 1 prize 0
      { session := lookedUp }).toOption.any (fun r => r.1.toOption.isSome) = true := by decide +kernel
  have hboth : (resolveCandidates modular (Search.solve modular 4) [] 1 prize [0, 1]
      { session := lookedUp }).toOption.any (fun r =>
        decide ((r.1.map fun _ => ()).mapError Failure.rank = .error 3)) = true := by decide +kernel
  refine ⟨by decide +kernel, by decide +kernel, ?_, ?_⟩
  · obtain ⟨⟨result, s⟩, hresult, hvalue⟩ := exists_ok_of_any houter
    cases result with
    | ok v => exact ⟨v, s, hresult⟩
    | error failure => cases hvalue
  · obtain ⟨⟨result, s⟩, hresult, hfailure⟩ := exists_ok_of_any hboth
    cases result with
    | ok v => cases hfailure
    | error failure =>
      refine ⟨failure, s, hresult, ?_⟩
      rintro best rfl
      cases hfailure

end Wiring.Search
