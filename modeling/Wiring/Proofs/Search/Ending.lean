import Wiring.Proofs.Search.Halting
import Wiring.Proofs.Search.Progress
import Wiring.Proofs.Search.Recall
import Wiring.Proofs.Search.Upkeep

/-!
Steps that end, always in the same way, and what they come to. The rules are for any way to resolve a
candidate, so that the search and its reference may share them.
-/
namespace Wiring.Search

open Session Vocabulary

variable {E : Environment} {I J : Session → Prop} {s s' : Search} {α β : Type} {scope : ScopeId}
  {chain : List InjectableId} {c : InjectableId} {request : Request}

abbrev SoundAnd (E : Environment) (I : Session → Prop) (S : Session) : Prop :=
  Sound everything E S ∧ I S

/-- With enough depth the step ends, always in the same way, and however it ends it keeps an invariant
and `Q` holds. -/
structure Ends (J : Session → Prop) (s : Search) (step : Nat → SearchM α) (Q : α → Search → Prop) :
    Prop where
  halts : Halts False step s
  explores : ∀ depth, Explores J s (step depth) Q

namespace Ends

variable {step step' : Nat → SearchM α} {f : Nat → α → SearchM β} {Q Q' : α → Search → Prop}
  {R : β → Search → Prop}

theorem pure {a : α} (hJ : J s.session) (h : Q a s) : Ends J s (fun _ => Pure.pure a) Q :=
  ⟨Halts.pure a, fun _ => Explores.pure hJ h⟩

theorem lift {look : SessionM α} (h : Explores J s (Search.lift look) Q) :
    Ends J s (fun _ => Search.lift look) Q :=
  ⟨Halts.lift look, fun _ => h⟩

theorem get {f : Nat → Search → SearchM β} (h : Ends J s (fun depth => f depth s) R) :
    Ends J s (fun depth => MonadState.get >>= f depth) R :=
  ⟨h.halts, h.explores⟩

theorem bind (h : Ends J s step Q)
    (hf : ∀ a s', Onward J s s' → Q a s' → Ends J s' (fun depth => f depth a) R) :
    Ends J s (fun depth => step depth >>= f depth) R where
  halts := Halts.bind_of h.halts fun depth a s' ha =>
    (hf a s' (h.explores depth a s' ha).1 (h.explores depth a s' ha).2).halts
  explores depth := Explores.bind (h.explores depth) fun a s' h₁ hQ => (hf a s' h₁ hQ).explores depth

theorem imp (h : Ends J s step Q) (hQ : ∀ a s', Onward J s s' → Q a s' → Q' a s') :
    Ends J s step Q' :=
  ⟨h.halts, fun depth => (h.explores depth).imp hQ⟩

theorem congr (h : Ends J s step Q) (he : ∀ depth, step' depth s = step depth s) :
    Ends J s step' Q where
  halts := by
    obtain ⟨depth, result, hrun⟩ := h.halts.exists_ok
    exact ⟨depth, .inl ⟨result, fun d hd => (he d).trans (hrun d hd)⟩⟩
  explores depth a s' ha := h.explores depth a s' ((he depth).symm.trans ha)

/-- One request deeper. -/
theorem of_succ (hstop : step 0 s = .error .tooDeep)
    (h : Ends J s (fun depth => step (depth + 1)) Q) :
    Ends J s step Q where
  halts := h.halts.of_succ
  explores depth := by
    cases depth with
    | zero =>
      intro a s' ha
      rw [hstop] at ha
      cases ha
    | succ depth => exact h.explores depth

/-- What has been computed is remembered if no divergence was seen. -/
theorem unlessDiverged (h : Ends J s step Q) (remember : α → Memo → Memo)
    (hresults : ∀ a (S : Session), ∃ results,
      ({ S with memo := remember a S.memo } : Session) = S.withResults results)
    (hJ : ∀ a s', Q a s' → s'.divergences ≤ s.divergences → J s'.session →
      J { s'.session with memo := remember a s'.session.memo })
    (hQ : ∀ a s' results, Q a s' → Q a { s' with session := s'.session.withResults results }) :
    Ends J s (fun depth => Search.unlessDiverged (step depth) remember) Q where
  halts := h.halts.unlessDiverged
  explores depth := Explores.unlessDiverged (h.explores depth) hresults
    (fun a s' _ h₁ hq hclean => hJ a s' hq hclean h₁.holds) fun a s' results _ _ hq =>
      hQ a s' results hq

/-- Soundness is kept by what leads to sound sessions. -/
theorem soundAnd {P : α → Session → Prop} (h : Ends I s step Q)
    (hl : ∀ depth, Leads everything E s (step depth) P) : Ends (SoundAnd E I) s step Q where
  halts := h.halts
  explores depth a s' ha := by
    obtain ⟨h₁, hq⟩ := h.explores depth a s' ha
    exact ⟨⟨h₁.divergences, h₁.keeps, (hl depth a s' ha).2.1, h₁.holds⟩, hq⟩

theorem of_soundAnd (h : Ends (SoundAnd E I) s step Q) : Ends I s step Q where
  halts := h.halts
  explores depth a s' ha := by
    obtain ⟨h₁, hq⟩ := h.explores depth a s' ha
    exact ⟨⟨h₁.divergences, h₁.keeps, h₁.holds.2⟩, hq⟩

end Ends

/-! ### Candidates -/

/-- A candidate that nothing stands in the way of and that asks for its dependencies where it is
resolved. -/
theorem run_computeCandidate_here {solve : Solve}
    (hobstacle : obstacle? E s.session scope c = none)
    (hd : diverges s.session chain (s.session.injectable c) = false)
    (hhere : childPosition? E scope (s.session.injectable c).form = none) :
    computeCandidate E solve chain scope request c s =
      fillCandidate (solve (c :: chain) scope) scope c
        ((s.session.injectable c).dependencies E.catalog) s := by
  have hinner : (Session.dependencyScope E scope c).run s.session = (scope, s.session) := by
    unfold Session.dependencyScope
    rw [StateT.run_bind, StateT.run_get, pure_bind, hhere]
    rfl
  have henter : ∀ dependencies, enterCandidate E solve chain scope c dependencies s =
      fillCandidate (solve (c :: chain) scope) scope c dependencies s := by
    intro dependencies
    cases dependencies with
    | nil => rfl
    | cons r rest =>
      calc enterCandidate E solve chain scope c (r :: rest) s
          = fillCandidate (solve (c :: chain) ((Session.dependencyScope E scope c).run s.session).1)
              scope c (r :: rest)
              { s with session := ((Session.dependencyScope E scope c).run s.session).2 } := rfl
        _ = fillCandidate (solve (c :: chain) scope) scope c (r :: rest) s := by rw [hinner]
  rw [run_computeCandidate, hobstacle, hd]
  exact henter _

/-! ### Requests -/

/-- A lookup sees no divergence. -/
theorem Explores.unmoved {look : SessionM α} {Q : α → Search → Prop}
    (h : Explores J s (Search.lift look) Q) :
    Explores J s (Search.lift look) fun a s' => s'.divergences = s.divergences ∧ Q a s' := by
  intro a s' ha
  refine ⟨(h a s' ha).1, ?_, (h a s' ha).2⟩
  cases ha
  rfl

section Requests

variable {resolve : Nat → InjectableId → SearchM (Except Failure Resolved)}
  {Q : Except Failure Resolved → Search → Prop}

/-- Where no type scope is found, it has nothing to say. -/
theorem ends_resolveInTypeScope (hJ : J s.session)
    (h : Explores J s (lift (Session.typeScope E request.ty)) fun found _ => found = none) :
    Ends J s (fun depth => resolveInTypeScopeWith E (resolve depth) scope request)
      fun result s' => result = none ∧ s'.divergences = s.divergences := by
  unfold resolveInTypeScopeWith
  split
  · exact Ends.pure hJ ⟨rfl, rfl⟩
  · apply (Ends.lift h.unmoved).bind
    rintro _ s' h₁ ⟨hunmoved, rfl⟩
    exact Ends.pure h₁.holds ⟨rfl, hunmoved⟩

variable (hnone : ∀ s', Onward J s s' →
    Explores J s' (lift (Session.typeScope E request.ty)) fun found _ => found = none)
include hnone

/-- A request that one candidate is found for comes to what the candidate comes to. -/
theorem ends_computeRequest_found
    (hstays : ∀ a s' s'', Onward J s' s'' → s''.divergences = s'.divergences → Q a s' → Q a s'')
    (hfound : Explores J s (lift (Session.candidates E scope request.ty
      (s.session.scope scope).statics)) fun found s' => ∃ c, found = [c] ∧
        Ends J s' (fun depth => resolve depth c) Q) :
    Ends J s (fun depth => computeRequestWith E (resolve depth) scope request) Q := by
  unfold computeRequestWith
  apply Ends.get
  apply (Ends.lift hfound).bind
  rintro _ s₁ h₁ ⟨c, rfl, hends⟩
  have hsome : ∀ depth, resolveSomeWith E (resolve depth) scope request [c] =
      some <$> resolve depth c := fun _ => rfl
  unfold fillWith
  simp only [hsome, bind_map_left]
  apply hends.bind
  intro result s₂ h₂ hQ
  cases result with
  | ok v => exact Ends.pure h₂.holds hQ
  | error failure =>
    apply (ends_resolveInTypeScope h₂.holds (hnone s₂ (h₁.trans h₂))).bind
    rintro _ s₃ h₃ ⟨rfl, hunmoved⟩
    exact Ends.pure h₃.holds (hstays _ s₂ s₃ h₃ hunmoved hQ)

/-- A request that nothing is found for comes to what the session makes for it. -/
theorem ends_computeRequest_made (hframework : E.config.frameworkInjectables = true)
    (hfound : Explores J s (lift (Session.candidates E scope request.ty
      (s.session.scope scope).statics)) fun found _ => found = [])
    (hmade : ∀ s', Onward J s s' → s'.divergences = s.divergences →
      Explores J s' (lift (Session.framework? E scope request.ty)) fun made s'' =>
        Ends J s'' (fun depth => resolveMadeWith (resolve depth) scope request made) Q) :
    Ends J s (fun depth => computeRequestWith E (resolve depth) scope request) Q := by
  unfold computeRequestWith
  apply Ends.get
  apply (Ends.lift hfound.unmoved).bind
  rintro _ s₁ h₁ ⟨hunmoved₁, rfl⟩
  have hsome : ∀ depth, resolveSomeWith E (resolve depth) scope request [] = pure none := fun _ => rfl
  unfold fillWith
  simp only [hsome, pure_bind]
  apply (ends_resolveInTypeScope h₁.holds (hnone s₁ h₁)).bind
  rintro _ s₂ h₂ ⟨rfl, hunmoved₂⟩
  unfold resolveFrameworkWith
  simp only [hframework, if_true]
  apply (Ends.lift (hmade s₂ (h₁.trans h₂) (hunmoved₂.trans hunmoved₁))).bind
  exact fun made s₃ h₃ hends => hends

end Requests

/-! ### Memory -/

section Memory

variable {Q : Except Failure Resolved → Search → Prop} (hI : Upkeep E I)
  (hQ : ∀ a s' results, Q a s' → Q a { s' with session := s'.session.withResults results })
include hI hQ

/-- What a candidate comes to, remembered or computed. -/
theorem ends_resolveCandidate (hs : SoundAnd E I s.session) (hscope : scope < s.session.scopes.size)
    (hc : Usable s.session scope c)
    (hknown : ∀ result, s.session.memo.byCandidate.lookup (scope, c) = some result → Q result s)
    (h : Ends (SoundAnd E I) s
      (fun depth => computeCandidate E (solve E depth) chain scope request c) Q) :
    Ends (SoundAnd E I) s
      (fun depth => resolveCandidate E (solve E depth) chain scope request c) Q := by
  have hends : Ends I s (fun depth => resolveCandidate E (solve E depth) chain scope request c) Q := by
    cases hlookup : s.session.memo.byCandidate.lookup (scope, c) with
    | some result =>
      refine (Ends.pure hs.2 (hknown result hlookup)).congr fun depth => ?_
      rw [run_resolveCandidate, hlookup]
      rfl
    | none =>
      have hcomputed := h.of_soundAnd.unlessDiverged
        (fun result memo => { memo with byCandidate := ((scope, c), result) :: memo.byCandidate })
        (fun _ _ => ⟨(_, _), rfl⟩) (fun _ _ _ _ => hI.byCandidate _) hQ
      exact hcomputed.congr fun _ => by rw [run_resolveCandidate, hlookup]
  exact hends.soundAnd fun depth => leads_resolveCandidate (speaks_everything E)
    (resolves_solve (speaks_everything E) depth) hs.1 hscope hc

/-- What a request comes to, remembered or computed. -/
theorem ends_resolveRequest (hs : SoundAnd E I s.session) (hscope : scope < s.session.scopes.size)
    (hknown : ∀ result, s.session.memo.byType.lookup (scope, request.ty) = some result →
      Q (answer request result) s)
    (h : Ends (SoundAnd E I) s
      (fun depth => computeRequest E (solve E depth) chain scope request) Q) :
    Ends (SoundAnd E I) s (fun depth => solve E depth chain scope request) Q := by
  apply Ends.of_succ rfl
  have hends : Ends I s (fun depth => resolveRequest E (solve E depth) chain scope request) Q := by
    cases hlookup : s.session.memo.byType.lookup (scope, request.ty) with
    | some result =>
      refine (Ends.pure hs.2 (hknown result hlookup)).congr fun depth => ?_
      rw [run_resolveRequest, hlookup]
      rfl
    | none =>
      have hcomputed := h.of_soundAnd.unlessDiverged
        (fun result memo => { memo with byType := ((scope, request.ty), result) :: memo.byType })
        (fun _ _ => ⟨(_, _), rfl⟩) (fun _ _ _ _ => hI.byType _) hQ
      exact hcomputed.congr fun _ => by rw [run_resolveRequest, hlookup]
  exact hends.soundAnd fun depth => resolves_resolveRequest (speaks_everything E)
    (resolves_solve (speaks_everything E) depth) chain scope request s hs.1 hscope
    (covers_everything _)

end Memory

end Wiring.Search
