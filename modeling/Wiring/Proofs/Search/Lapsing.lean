import Wiring.Proofs.Search.Ending

namespace Wiring.Search

open Session

variable {E : Environment} {J : Session → Prop} {s : Search} {scope : ScopeId}
  {chain : List InjectableId} {c : InjectableId} {request r : Request}

def FailsDivergent (result : Except Failure Resolved) : Prop :=
  ∃ f, result = .error f ∧ f.isDivergent = true

abbrev Lapses (J : Session → Prop) (s : Search) (step : Nat → SearchM (Except Failure Resolved)) :
    Prop :=
  Ends J s step fun result s' => s.divergences < s'.divergences ∧ FailsDivergent result

/-- What has run into a divergence is remembered nowhere. -/
theorem Lapses.unlessDiverged {step : Nat → SearchM (Except Failure Resolved)} (h : Lapses J s step)
    (remember : Except Failure Resolved → Memo → Memo)
    (hresults : ∀ a (S : Session), ∃ results,
      ({ S with memo := remember a S.memo } : Session) = S.withResults results) :
    Lapses J s fun depth => Search.unlessDiverged (step depth) remember :=
  Ends.unlessDiverged h remember hresults
    (fun _ _ hlapsed hclean _ => absurd hlapsed.1 (Nat.not_lt.2 hclean))
    fun _ _ _ => id

/-- A candidate with one dependency, if nothing stands in its way. -/
theorem run_computeCandidate_single {solve : Solve} {p : Producer}
    (hobstacle : obstacle? E s.session scope c = none)
    (hd : diverges s.session chain (s.session.injectable c) = false)
    (hform : (s.session.injectable c).form = .produced p) (hr : Request.parametersOf p = [r]) :
    computeCandidate E solve chain scope request c s =
      fillCandidate (solve (c :: chain) scope) scope c [r] s := by
  have hdependencies : (s.session.injectable c).dependencies E.catalog = [r] := by
    rw [Injectable.dependencies, hform]
    exact hr
  rw [run_computeCandidate_here hobstacle hd (by rw [hform]; rfl), hdependencies]

/-- A candidate that the search is inside of already. -/
theorem lapses_of_diverges (hJ : J s.session) (hobstacle : obstacle? E s.session scope c = none)
    (hd : diverges s.session chain (s.session.injectable c) = true) :
    Lapses J s fun depth => computeCandidate E (solve E depth) chain scope request c := by
  have hrun : ∀ depth, computeCandidate E (solve E depth) chain scope request c s =
      .ok (.error (.divergent c request), { s with divergences := s.divergences + 1 }) := by
    intro depth
    rw [run_computeCandidate, hobstacle]
    exact if_pos hd
  refine ⟨Halts.of_ok hrun, fun depth result s' ha => ?_⟩
  rw [hrun depth] at ha
  cases ha
  exact ⟨⟨Nat.le_succ _, Keeps.refl _, hJ⟩, Nat.lt_succ_self _, _, rfl, rfl⟩

/-- A dependency that runs into a divergence, if nothing stands in for it. -/
theorem lapses_fillCandidate {fill : Nat → Request → SearchM (Except Failure Resolved)}
    (hrequired : r.required = true) (h : Lapses J s fun depth => fill depth r) :
    Lapses J s fun depth => fillCandidate (fill depth) scope c [r] := by
  unfold fillCandidate
  simp only [fillAll, bind_assoc]
  apply Ends.bind h
  rintro _ s' h₁ ⟨hlt, failure, rfl, hdivergent⟩
  simp only [hrequired, if_true, pure_bind]
  exact Ends.pure h₁.holds ⟨hlt, _, rfl, hdivergent⟩

/-- A candidate whose only dependency runs into a divergence. -/
theorem lapses_of_dependency {p : Producer} (hobstacle : obstacle? E s.session scope c = none)
    (hd : diverges s.session chain (s.session.injectable c) = false)
    (hform : (s.session.injectable c).form = .produced p)
    (hr : Request.parametersOf p = [r]) (hrequired : r.required = true)
    (h : Lapses J s fun depth => solve E depth (c :: chain) scope r) :
    Lapses J s fun depth => computeCandidate E (solve E depth) chain scope request c :=
  (lapses_fillCandidate hrequired h).congr fun _ =>
    run_computeCandidate_single hobstacle hd hform hr

theorem lapses_resolveCandidate
    (hmiss : s.session.memo.byCandidate.lookup (scope, c) = none)
    (h : Lapses J s fun depth => computeCandidate E (solve E depth) chain scope request c) :
    Lapses J s fun depth => resolveCandidate E (solve E depth) chain scope request c := by
  have hcomputed := h.unlessDiverged
    (fun result memo => { memo with byCandidate := ((scope, c), result) :: memo.byCandidate })
    fun _ _ => ⟨(_, _), rfl⟩
  exact hcomputed.congr fun _ => by rw [run_resolveCandidate, hmiss]

/-- A request whose only candidate runs into a divergence. -/
theorem lapses_computeRequest
    (hfound : Explores J s (lift (Session.candidates E scope request.ty
      (s.session.scope scope).statics)) fun found s' => ∃ c, found = [c] ∧
        Lapses J s' fun depth => resolveCandidate E (solve E depth) chain scope request c)
    (hnone : ∀ s', Onward J s s' →
      Explores J s' (lift (Session.typeScope E request.ty)) fun found _ => found = none) :
    Lapses J s fun depth => computeRequest E (solve E depth) chain scope request := by
  simp only [computeRequest_eq]
  apply ends_computeRequest_found hnone
  · exact fun _ _ _ h₁ _ h => ⟨Nat.lt_of_lt_of_le h.1 h₁.divergences, h.2⟩
  · apply hfound.imp
    rintro found s₁ h₁ ⟨c, hc, hlapses⟩
    exact ⟨c, hc, hlapses.imp fun _ _ _ h => ⟨Nat.lt_of_le_of_lt h₁.divergences h.1, h.2⟩⟩

theorem lapses_resolveRequest (hmiss : s.session.memo.byType.lookup (scope, request.ty) = none)
    (h : Lapses J s fun depth => computeRequest E (solve E depth) chain scope request) :
    Lapses J s fun depth => resolveRequest E (solve E depth) chain scope request := by
  have hcomputed := h.unlessDiverged
    (fun result memo => { memo with byType := ((scope, request.ty), result) :: memo.byType })
    fun _ _ => ⟨(_, _), rfl⟩
  exact hcomputed.congr fun _ => by rw [run_resolveRequest, hmiss]

end Wiring.Search
