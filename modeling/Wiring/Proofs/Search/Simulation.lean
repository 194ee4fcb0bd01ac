import Wiring.Proofs.Search.Reference
import Wiring.Proofs.Search.Steps
import Wiring.Proofs.Search.Use
import Wiring.Proofs.Session.Memory

/-!
Simulation of the search by its reference. `Follows` relates a step of the search to two runs of the
reference: one from where the step starts, and one from any later session, perhaps for another request
for the same type. Both are claimed only if the step has seen no divergence.
-/
namespace Wiring

def answer (request : Request) : Except Failure Resolved → Except Failure Resolved
  | .ok v => .ok v
  | .error failure => .error (failure.forRequest request)

@[simp] theorem answer_answer (r r' : Request) (v : Except Failure Resolved) :
    answer r' (answer r v) = answer r' v := by
  cases v with
  | ok v => rfl
  | error f => cases f <;> rfl

namespace Search

open Session Vocabulary

variable {E : Environment} {S S' T : Session} {s s' : Search} {α β : Type} {n : Nat}

/-! ### Settled results -/

def Settled (S : Session) (again : Nat → SearchM α) (a : α) : Prop :=
  -- In `S` and in all later sessions the reference gives `a` and changes nothing, if its depth is
  -- large enough.
  ∃ N, ∀ d, N ≤ d → ∀ T, S.Keeps T → ∀ m, again d ⟨T, m⟩ = .ok (a, ⟨T, m⟩)

theorem Settled.mono {again : Nat → SearchM α} {a : α} (h : Settled S again a) (hS : S.Keeps S') :
    Settled S' again a := by
  obtain ⟨N, hN⟩ := h
  exact ⟨N, fun d hd T hT => hN d hd T (hS.trans hT)⟩

theorem settled_pure (S : Session) (a : α) : Settled S (fun _ => pure a) a :=
  ⟨0, fun _ _ _ _ _ => rfl⟩

/-- All results that are remembered are those of the reference. A failure by type is one for the
request at hand, and a result by candidate names no request. -/
structure Recalls (E : Environment) (S : Session) : Prop where
  byType : ∀ e ∈ S.memo.byType, ∀ request : Request, (request.ty == e.1.2) = true →
    Settled S (fun d => reference E d [] e.1.1 request) (answer request e.2)
  byCandidate : ∀ e ∈ S.memo.byCandidate, ∀ request,
    Settled S (fun d => computeCandidate E (reference E d) [] e.1.1 request e.1.2) e.2 ∧
      answer request e.2 = e.2

/-- What is recalled rightly is so in a later session with the same results. -/
theorem Recalls.keep (h : Recalls E S) (hS : S.Keeps S') (hr : S'.results = S.results) :
    Recalls E S' := by
  obtain ⟨htype, hcandidate⟩ := Prod.mk.inj hr
  constructor
  · rw [htype]
    exact fun e he request ht => (h.byType e he request ht).mono hS
  · rw [hcandidate]
    exact fun e he request => (h.byCandidate e he request).imp_left fun hs => hs.mono hS

/-- A settled result may be remembered for a type. -/
theorem Recalls.addType (h : Recalls E S) {scope : ScopeId} {ty : Ty}
    {result : Except Failure Resolved} (hnew : ∀ request : Request, (request.ty == ty) = true →
      Settled S (fun d => reference E d [] scope request) (answer request result)) :
    Recalls E { S with memo := { S.memo with
      byType := ((scope, ty), result) :: S.memo.byType } } := by
  have hS : S.Keeps { S with memo := { S.memo with
      byType := ((scope, ty), result) :: S.memo.byType } } := keeps_withResults S (_, _)
  constructor
  · refine List.forall_mem_cons.2 ⟨fun request ht => (hnew request ht).mono hS, ?_⟩
    exact fun e he request ht => (h.byType e he request ht).mono hS
  · exact fun e he request => (h.byCandidate e he request).imp_left fun hs => hs.mono hS

/-- So may a settled result that names no request for a candidate. -/
theorem Recalls.addCandidate (h : Recalls E S) {scope : ScopeId} {c : InjectableId}
    {result : Except Failure Resolved} (hnew : ∀ request,
      Settled S (fun d => computeCandidate E (reference E d) [] scope request c) result ∧
        answer request result = result) :
    Recalls E { S with memo := { S.memo with
      byCandidate := ((scope, c), result) :: S.memo.byCandidate } } := by
  have hS : S.Keeps { S with memo := { S.memo with
      byCandidate := ((scope, c), result) :: S.memo.byCandidate } } := keeps_withResults S (_, _)
  constructor
  · exact fun e he request ht => (h.byType e he request ht).mono hS
  · refine List.forall_mem_cons.2 ⟨fun request => (hnew request).imp_left fun hs => hs.mono hS, ?_⟩
    exact fun e he request => (h.byCandidate e he request).imp_left fun hs => hs.mono hS

theorem recalls_empty : Recalls E {} where
  byType := List.forall_mem_nil _
  byCandidate := List.forall_mem_nil _

/-! ### Steps and their references -/

structure Mirrored (s s' : Search) (first again : Nat → SearchM α) (a b : α) : Prop where
  -- The reference does from `s` what has been done up to `s'`, and gives `b` later on.
  first : ∃ N, ∀ d, N ≤ d → ∀ r m,
    first d ⟨s.session.withResults r, m⟩ = .ok (a, ⟨s'.session.withResults r, m⟩)
  again : Settled s'.session again b

structure Followed (E : Environment) (n : Nat) (s : Search) (first again : Nat → SearchM α)
    (g : α → α) (Q : α → Prop) (a : α) (s' : Search) : Prop where
  -- What a step leaves behind that started with `n` divergences or more.
  divergences : s.divergences ≤ s'.divergences
  keeps : s.session.Keeps s'.session
  recalls : Recalls E s'.session
  mirrored : s'.divergences ≤ n → Mirrored s s' first again a (g a)
  fact : s'.divergences ≤ n → Q a

/-- If the step gives something, what is remembered afterwards is right. If no more than `n`
divergences have been seen by then, the reference gives the same from where the step starts and, up
to `g`, later on, and what is given satisfies `Q`. -/
def Follows (E : Environment) (n : Nat) (s : Search) (step : SearchM α)
    (first again : Nat → SearchM α) (g : α → α) (Q : α → Prop) : Prop :=
  n ≤ s.divergences → ∀ a s', step s = .ok (a, s') → Followed E n s first again g Q a s'

structure Reaches (E : Environment) (n : Nat) (s : Search) (P : α → Session → Prop) (Q : α → Prop)
    (a : α) (s' : Search) : Prop where
  -- Where a sound search is after a step that gave `a`.
  divergences : s.divergences ≤ s'.divergences
  grows : s.session.Extends s'.session
  sound : Sound everything E s'.session
  recalls : Recalls E s'.session
  result : P a s'.session
  fact : s'.divergences ≤ n → Q a

namespace Follows

variable {step : SearchM α} {first again : Nat → SearchM α} {g : α → α} {Q : α → Prop}

theorem get {f : Search → SearchM α} (h : Follows E n s (f s) first again g Q) :
    Follows E n s (MonadState.get >>= f) first again g Q :=
  h

/-- What is given at once has been settled before. -/
theorem recalled {a : α} (hs : Recalls E s.session) (h : s.divergences ≤ n →
      Settled s.session first a ∧ Settled s.session again (g a) ∧ Q a) :
    Follows E n s (Pure.pure a) first again g Q := by
  rintro _ _ _ ⟨⟩
  refine ⟨Nat.le_refl _, Keeps.refl _, hs, fun hn => ?_, fun hn => (h hn).2.2⟩
  obtain ⟨⟨N, hN⟩, hagain, _⟩ := h hn
  exact ⟨⟨N, fun d hd r m => hN d hd _ (keeps_withResults _ r) m⟩, hagain⟩

theorem pure {a b : α} (hs : Recalls E s.session) (h : s.divergences ≤ n → b = g a ∧ Q a) :
    Follows E n s (Pure.pure a) (fun _ => Pure.pure a) (fun _ => Pure.pure b) g Q :=
  recalled hs fun hn => ⟨settled_pure _ a, (h hn).1 ▸ settled_pure _ b, (h hn).2⟩

/-- A divergence leaves nothing to be followed. -/
theorem diverged {a : α} (hs : Recalls E s.session)
    (h : step s = .ok (a, { s with divergences := s.divergences + 1 })) :
    Follows E n s step first again g Q := by
  intro hn a' s' ha
  cases h.symm.trans ha
  have hseen : ¬ s.divergences + 1 ≤ n := Nat.not_le.2 (Nat.lt_succ_of_le hn)
  exact ⟨Nat.le_succ _, Keeps.refl _, hs, fun h => absurd h hseen, fun h => absurd h hseen⟩

/-- What the steps do elsewhere does not count. -/
theorem of_eq {step' : SearchM α} {first' again' : Nat → SearchM α}
    (h : Follows E n s step' first' again' g Q) (hstep : step s = step' s)
    (hfirst : ∀ d r m,
      first d ⟨s.session.withResults r, m⟩ = first' d ⟨s.session.withResults r, m⟩)
    (hagain : ∀ d T m, s.session.Keeps T → again d ⟨T, m⟩ = again' d ⟨T, m⟩) :
    Follows E n s step first again g Q := by
  intro hn a s' ha
  obtain ⟨hd, hkeeps, hrecalls, hmirrored, hfact⟩ := h hn a s' (hstep ▸ ha)
  refine ⟨hd, hkeeps, hrecalls, fun hclean => ?_, hfact⟩
  obtain ⟨⟨N, hN⟩, ⟨M, hM⟩⟩ := hmirrored hclean
  refine ⟨⟨N, fun d hd r m => ?_⟩, ⟨M, fun d hd T hT m => ?_⟩⟩
  · rw [hfirst d r m]
    exact hN d hd r m
  · rw [hagain d T m (hkeeps.trans hT)]
    exact hM d hd T hT m

theorem imp {k : α → α} {R : α → Prop} (h : Follows E n s step first again g Q)
    (hQ : ∀ a, Q a → k a = g a ∧ R a) : Follows E n s step first again k R := by
  intro hn a s' ha
  obtain ⟨hd, hkeeps, hrecalls, hmirrored, hfact⟩ := h hn a s' ha
  refine ⟨hd, hkeeps, hrecalls, fun hclean => ?_, fun hclean => (hQ a (hfact hclean)).2⟩
  rw [(hQ a (hfact hclean)).1]
  exact hmirrored hclean

theorem bind {P : α → Session → Prop} {f : α → SearchM β} {first' again' : Nat → α → SearchM β}
    {g' : β → β} {R : β → Prop} (hl : Leads everything E s step P)
    (h : Follows E n s step first again g Q)
    (hf : ∀ a s', Reaches E n s P Q a s' →
      Follows E n s' (f a) (first' · a) (again' · (g a)) g' R) :
    Follows E n s (step >>= f) (fun d => first d >>= first' d) (fun d => again d >>= again' d)
      g' R := by
  intro hn b s'' hb
  obtain ⟨⟨a, s'⟩, ha, hb⟩ := bind_eq_ok_iff.1 hb
  obtain ⟨hd, hkeeps, hrecalls, hmirrored, hfact⟩ := h hn a s' ha
  obtain ⟨hgrows, hsound, hresult⟩ := hl a s' ha
  obtain ⟨hd', hkeeps', hrecalls', hmirrored', hfact'⟩ :=
    hf a s' ⟨hd, hgrows, hsound, hrecalls, hresult, hfact⟩ (Nat.le_trans hn hd) b s'' hb
  refine ⟨Nat.le_trans hd hd', hkeeps.trans hkeeps', hrecalls', fun hclean => ?_, hfact'⟩
  obtain ⟨⟨N, hN⟩, ⟨M, hM⟩⟩ := hmirrored (Nat.le_trans hd' hclean)
  obtain ⟨⟨N', hN'⟩, ⟨M', hM'⟩⟩ := hmirrored' hclean
  -- the depth has to do for both steps; later than the second one is later than the first one too
  refine ⟨⟨max N N', fun d hd r m => ?_⟩, ⟨max M M', fun d hd T hT m => ?_⟩⟩
  · obtain ⟨hdN, hdN'⟩ := Nat.max_le.1 hd
    exact bind_eq_ok_iff.2 ⟨_, hN d hdN r m, hN' d hdN' r m⟩
  · obtain ⟨hdM, hdM'⟩ := Nat.max_le.1 hd
    exact bind_eq_ok_iff.2 ⟨_, hM d hdM T (hkeeps'.trans hT) m, hM' d hdM' T hT m⟩

theorem map {f : α → β} {g' : β → β} {R : β → Prop} (h : Follows E n s step first again g Q)
    (hg : ∀ a, g' (f a) = f (g a)) (hR : ∀ a, Q a → R (f a)) :
    Follows E n s (f <$> step) (fun d => f <$> first d) (fun d => f <$> again d) g' R := by
  intro hn b s' hb
  obtain ⟨⟨a, s''⟩, ha, hb⟩ := bind_eq_ok_iff.1 hb
  cases hb
  obtain ⟨hd, hkeeps, hrecalls, hmirrored, hfact⟩ := h hn a _ ha
  refine ⟨hd, hkeeps, hrecalls, fun hclean => ?_, fun hclean => hR a (hfact hclean)⟩
  obtain ⟨⟨N, hN⟩, ⟨M, hM⟩⟩ := hmirrored hclean
  refine ⟨⟨N, fun d hd r m => ?_⟩, ⟨M, fun d hd T hT m => ?_⟩⟩
  · exact bind_eq_ok_iff.2 ⟨_, hN d hd r m, rfl⟩
  · rw [hg a]
    exact bind_eq_ok_iff.2 ⟨_, hM d hd T hT m, rfl⟩

/-- A lookup is the same for the search and for the reference, and gives the same later on. -/
theorem lift {look lookAgain : SessionM α} (hs : Recalls E s.session) (hb : Blind look)
    (hf : Found s.session look lookAgain) :
    Follows E n s (Search.lift look) (fun _ => Search.lift look) (fun _ => Search.lift lookAgain)
      id fun _ => True := by
  rintro hn _ _ ⟨⟩
  refine ⟨Nat.le_refl _, hf.keeps, hs.keep hf.keeps (hb.results_eq _), fun _ => ?_, fun _ => trivial⟩
  refine ⟨⟨0, fun d _ r m => ?_⟩, ⟨0, fun d _ T hT m => ?_⟩⟩
  · exact congrArg (fun x : α × Session => (.ok (x.1, ⟨x.2, m⟩) : Except Stop (α × Search)))
      (hb s.session r)
  · exact congrArg (fun x : α × Session => (.ok (x.1, ⟨x.2, m⟩) : Except Stop (α × Search)))
      (hf.again T hT)

/-- One more request around a step takes one more of depth. -/
theorem deeper (h : Follows E n s step (fun d => first (d + 1)) (fun d => again (d + 1)) g Q) :
    Follows E n s step first again g Q := by
  intro hn a s' ha
  obtain ⟨hd, hkeeps, hrecalls, hmirrored, hfact⟩ := h hn a s' ha
  refine ⟨hd, hkeeps, hrecalls, fun hclean => ?_, hfact⟩
  obtain ⟨⟨N, hN⟩, ⟨M, hM⟩⟩ := hmirrored hclean
  refine ⟨⟨N + 1, fun d hd r m => ?_⟩, ⟨M + 1, fun d hd T hT m => ?_⟩⟩
  · obtain ⟨d, rfl⟩ := Nat.exists_eq_add_of_lt hd
    exact hN (N + d) (Nat.le_add_right N d) r m
  · obtain ⟨d, rfl⟩ := Nat.exists_eq_add_of_lt hd
    exact hM (M + d) (Nat.le_add_right M d) T hT m

/-- What is remembered of a computation that has seen no divergence is right if it is settled. -/
theorem unlessDiverged {compute : SearchM α} {remember : α → Memo → Memo}
    (h : Follows E s.divergences s compute first again g Q)
    (hresults : ∀ a (S : Session), ∃ r,
      ({ S with memo := remember a S.memo } : Session) = S.withResults r)
    (hr : ∀ a s', compute s = .ok (a, s') → s'.divergences ≤ s.divergences →
      Recalls E { s'.session with memo := remember a s'.session.memo }) :
    Follows E n s (Search.unlessDiverged compute remember) first again g Q := by
  intro hn a s'' hrun
  obtain ⟨⟨a', s'⟩, hcompute, hrest⟩ := bind_eq_ok_iff.1 hrun
  obtain ⟨hd, hkeeps, hrecalls, hmirrored, hfact⟩ := h (Nat.le_refl _) a' s' hcompute
  change (if s'.divergences = s.divergences then _ else _ : SearchM α) s' = .ok (a, s'') at hrest
  split at hrest
  · next heq =>
    -- the result is remembered, which no lookup sees
    cases hrest
    have hclean : s'.divergences ≤ s.divergences := Nat.le_of_eq heq
    obtain ⟨r, hr'⟩ := hresults a s'.session
    have hlater : s'.session.Keeps { s'.session with memo := remember a s'.session.memo } := by
      rw [hr']
      exact keeps_withResults _ r
    refine ⟨hd, hkeeps.trans hlater, hr a s' hcompute hclean, fun _ => ?_, fun _ => hfact hclean⟩
    obtain ⟨⟨N, hN⟩, hagain⟩ := hmirrored hclean
    refine ⟨⟨N, fun d hd r' m => ?_⟩, hagain.mono hlater⟩
    have hsame : ({ s'.session with memo := remember a s'.session.memo } : Session).withResults r' =
        s'.session.withResults r' := by
      rw [hr', withResults_withResults]
    rw [hN d hd r' m, ← hsame]
  · cases hrest
    -- what has seen a divergence is not clean from where it started, so nor is it from before
    have hback : ∀ k, k ≤ n → k ≤ s.divergences := fun k h => Nat.le_trans h hn
    exact ⟨hd, hkeeps, hrecalls, fun h => hmirrored (hback _ h), fun h => hfact (hback _ h)⟩

end Follows

end Search
end Wiring
