import Wiring.Proofs.Search.Recall
import Wiring.Proofs.Search.TypeSafety

namespace Wiring.Session

open Search Vocabulary

variable {P : Ty → Prop} {E : Environment} {S S' : Session}

/-- What the search without memory gives for a request. -/
def resolveAfresh (E : Environment) (depth : Nat) (S : Session) (scope : ScopeId)
    (request : Request) : Except Stop (Except Failure Resolved) :=
  (reference E depth [] scope request { session := S }).map (·.1)

/-- What the search without memory gives for a candidate. -/
def resolveCandidateAfresh (E : Environment) (depth : Nat) (S : Session) (scope : ScopeId)
    (request : Request) (c : InjectableId) : Except Stop (Except Failure Resolved) :=
  (computeCandidate E (reference E depth) [] scope request c { session := S }).map (·.1)

/-- Filling the requests of a call site remembers nothing but what is settled. -/
theorem recalls_solveAll (hK : E.catalog.ParametersByKey) (depth : Nat) {scope : ScopeId} {s : Search}
    {requests : List Request} {results : List (Request × Option Resolved)}
    {worst : Option (Request × Failure)} (hs : Sound everything E s.session)
    (hr : Recalls E s.session) (hscope : scope < s.session.scopes.size) :
    Search.Obeys (fun S => Sound everything E S ∧ Recalls E S) s
      (solveAll E depth scope requests results worst) fun _ _ => True := by
  refine Search.Obeys.solveAll (fun request _ s ⟨hs, hr⟩ hscope => ?_) ⟨hs, hr⟩ hscope
  intro result s' hrun
  obtain ⟨hgrows, hs', _⟩ := resolves_solve (speaks_everything E) depth [] scope request s hs hscope
    (covers_everything _) result s' hrun
  have hfollowed := mirrors_solve hK depth 0 [] scope request request s hs hr hscope BEq.rfl
    (Nat.zero_le _) result s' hrun
  exact ⟨hgrows, ⟨hs', hfollowed.recalls⟩, trivial⟩

/-- A use of a session that recalls rightly leads to one that does so. -/
theorem Use.recalls (hu : Use P E S S') (hK : E.catalog.ParametersByKey)
    (hS : Sound everything E S) (hr : Recalls E S) : Recalls E S' := by
  cases hu with
  | addScope position _ _ =>
    exact hr.keep (keeps_addScope E position S) ((blind_addScope E position).results_eq S)
  | @candidates scope _ ty _ statics =>
    exact hr.keep (found_candidates E scope statics BEq.rfl S).keeps
      ((blind_candidates E scope ty statics).results_eq S)
  | @resolve S' scope hs depth request _ result hresolve =>
    obtain ⟨s', hrun, rfl⟩ := exists_run_of_resolve hresolve
    exact (mirrors_solve hK depth 0 [] scope request request { session := S } hS hr hs BEq.rfl
      (Nat.zero_le _) result s' hrun).recalls
  | @resolveAll S' scope hs depth requests _ site hresolve =>
    obtain ⟨s', hrun, rfl⟩ := exists_run_of_resolveAll hresolve
    have hobeys : Search.Obeys (fun S => Sound everything E S ∧ Recalls E S) { session := S }
        (solveAll E depth scope requests [] none) fun _ _ => True :=
      recalls_solveAll hK depth hS hr hs
    exact (hobeys site s' hrun).2.1.2

theorem MadeOf.recalls (h : MadeOf P E S) (hK : E.catalog.ParametersByKey) : Recalls E S := by
  induction h with
  | start => exact recalls_empty
  | use h hu ih => exact hu.recalls hK h.reachable.sound_everything ih

theorem exists_of_settled {α : Type} {again : Nat → SearchM α} {a : α} (h : Settled S again a) :
    ∃ N, ∀ d, N ≤ d → (again d { session := S }).map (·.1) = .ok a := by
  obtain ⟨N, hN⟩ := h
  exact ⟨N, fun d hd => map_eq_ok_iff.2 ⟨_, hN d hd S (Keeps.refl S) 0, rfl⟩⟩

/-- A search that sees no divergence comes to what the search without memory comes to. -/
theorem MadeOf.afresh_of_clean (hS : MadeOf P E S) (hK : E.catalog.ParametersByKey) {scope : ScopeId}
    (hs : scope < S.scopes.size) {depth : Nat} {request : Request} {result : Except Failure Resolved}
    {s' : Search} (hrun : solve E depth [] scope request { session := S } = .ok (result, s'))
    (hclean : s'.divergences = 0) :
    ∃ N, ∀ d, N ≤ d → S.resolveAfresh E d scope request = .ok result := by
  -- the search is followed from its start, where none has diverged
  have hfollowed := mirrors_solve hK depth 0 [] scope request request { session := S }
    hS.reachable.sound_everything (hS.recalls hK) hs BEq.rfl (Nat.zero_le _) result s' hrun
  obtain ⟨N, hN⟩ := (hfollowed.mirrored (Nat.le_of_eq hclean)).first
  exact ⟨N, fun d hd => map_eq_ok_iff.2 ⟨_, hN d hd S.results 0, rfl⟩⟩

/-- In a session that has come about by use, each result that is remembered for a type or for a
candidate is what the search without memory comes to in it, a failure for a type being taken as an
answer to the request at hand. A search that sees no divergence gives exactly the result of the
search without memory. -/
theorem resolve_faithful (hS : MadeOf P E S) (hK : E.catalog.ParametersByKey) :
    (∀ e ∈ S.memo.byType, ∀ request : Request, (request.ty == e.1.2) = true →
      ∃ N, ∀ d, N ≤ d → S.resolveAfresh E d e.1.1 request = .ok (answer request e.2)) ∧
    (∀ e ∈ S.memo.byCandidate, ∀ request,
      ∃ N, ∀ d, N ≤ d → S.resolveCandidateAfresh E d e.1.1 request e.1.2 = .ok e.2) ∧
    ∀ scope < S.scopes.size, ∀ depth request result s',
      Search.solve E depth [] scope request { session := S } = .ok (result, s') →
        s'.divergences = 0 →
          ∃ N, ∀ d, N ≤ d → S.resolveAfresh E d scope request = .ok result := by
  have hr := hS.recalls hK
  refine ⟨fun e he request ht => exists_of_settled (hr.byType e he request ht),
    fun e he request => exists_of_settled (hr.byCandidate e he request).1, ?_⟩
  intro scope hs depth request result s' hrun hclean
  exact hS.afresh_of_clean hK hs hrun hclean

def packed : Session :=
  after (shelved.resolve library 4 0 boxed)

/-- What is remembered of the box is what a search without memory finds. -/
theorem packed_faithful : MadeOf library.catalog.Regular library packed ∧
    library.catalog.ParametersByKey ∧ packed.memo.byType.length = 2 ∧
    packed.memo.byCandidate.length = 2 ∧
    (∀ e ∈ packed.memo.byType, ∀ request : Request, (request.ty == e.1.2) = true →
      ∃ N, ∀ d, N ≤ d →
        packed.resolveAfresh library d e.1.1 request = .ok (answer request e.2)) ∧
    (∀ e ∈ packed.memo.byCandidate, ∀ request,
      ∃ N, ∀ d, N ≤ d →
        packed.resolveCandidateAfresh library d e.1.1 request e.1.2 = .ok e.2) ∧
    ∃ v, ∃ N, ∀ d, N ≤ d → packed.resolveAfresh library d 0 boxed = .ok (.ok v) := by
  have hmade : MadeOf library.catalog.Regular library packed := by
    have hs : 0 < shelved.scopes.size := by decide +kernel
    have hok : (shelved.resolve library 4 0 boxed).isOk = true := by decide +kernel
    obtain ⟨_, hr⟩ := exists_after hok
    have ht : library.catalog.Regular boxed.ty := Fit.regular_box rfl
    exact .use shelved_madeOf (.resolve hs ht hr)
  have hK : library.catalog.ParametersByKey :=
    fun _ _ hkey => Fit.orderly_shelf.coherent.isTypeParameter_eq hkey
  -- a second search for the same box, answered from memory
  have hfilled : (Search.solve library 4 [] 0 boxed { session := packed }).toOption.any
      (fun r => r.1.toBool && r.2.divergences == 0) = true := by decide +kernel
  obtain ⟨⟨result, s'⟩, hrun, hok⟩ := exists_ok_of_any hfilled
  rw [Bool.and_eq_true, beq_iff_eq] at hok
  obtain ⟨hvalue, hclean⟩ := hok
  obtain ⟨hbyType, hbyCandidate, hsearch⟩ := resolve_faithful hmade hK
  cases result with
  | error failure => cases hvalue
  | ok v =>
    have hafresh := hsearch 0 (by decide +kernel) 4 boxed (.ok v) s' hrun hclean
    exact ⟨hmade, hK, by decide +kernel, by decide +kernel, hbyType, hbyCandidate, v, hafresh⟩

def clash : Environment where
  catalog := ⟨[("Foo", [{}, { flags := { typeParameter := true } }])]⟩
  host := HostTables.host { typeScopes := [("Foo", [{ id := "d", ty := .of ⟨"Foo", 0⟩ }])] }

def foo (n : Nat) : Request where
  ty := .of ⟨"Foo", n⟩
  callable := "main"
  name := "foo"
  slot := .value 0

def clashing : Session :=
  ((addScope clash { name := "root" }).run {}).2

def clashed : Session :=
  after (clashing.resolve clash 1 0 (foo 1))

/-- A class and a type parameter with one key are equal, though nothing comes with the parameter:
after a request for it, a request for the class is answered by the failure that is remembered, where
a search without memory finds the declaration that comes with the class. -/
theorem clash_unfaithful : MadeOf (fun _ => True) clash clashed ∧ 0 < clashed.scopes.size ∧
    (∃ failure s', Search.solve clash 1 [] 0 (foo 0) { session := clashed } =
      .ok (.error failure, s') ∧ s'.divergences = 0) ∧
    ∀ d, ∃ v, clashed.resolveAfresh clash (d + 1) 0 (foo 0) = .ok (.ok v) := by
  have hmade : MadeOf (fun _ => True) clash clashed := by
    have hs : 0 < clashing.scopes.size := by decide +kernel
    have hok : (clashing.resolve clash 1 0 (foo 1)).isOk = true := by decide +kernel
    obtain ⟨_, hr⟩ := exists_after hok
    exact .use (.use .start (.addScope { name := "root" } rfl (List.forall_mem_nil _)))
      (.resolve hs trivial hr)
  have hfails : (Search.solve clash 1 [] 0 (foo 0) { session := clashed }).toOption.any
      (fun r => !r.1.toBool && r.2.divergences == 0) = true := by decide +kernel
  have hfinds : ∀ d, (clashed.resolveAfresh clash (d + 1) 0 (foo 0)).toOption.any (·.toBool) = true :=
    fun _ => rfl
  obtain ⟨⟨result, s'⟩, hrun, hclean⟩ := exists_ok_of_any hfails
  rw [Bool.and_eq_true, Bool.not_eq_true', beq_iff_eq] at hclean
  refine ⟨hmade, by decide +kernel, ?_, fun d => ?_⟩
  · cases result with
    | error failure => exact ⟨failure, s', hrun, hclean.2⟩
    | ok v => cases hclean.1
  · obtain ⟨found, hfound, hvalue⟩ := exists_ok_of_any (hfinds d)
    cases found with
    | error failure => cases hvalue
    | ok v => exact ⟨v, hfound⟩

end Wiring.Session
