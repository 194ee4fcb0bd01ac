import Wiring.Proofs.Search.Lookup

namespace Wiring.Session

open Search Vocabulary

variable {E : Environment} {S S' T : Session} {scope : ScopeId} {ty ty' : Ty}
  {request request' : Request} {depth : Nat} {result : Except Failure Resolved} {s s' : Search}

def Recorded (S : Session) (scope : ScopeId) (ty : Ty) : Prop :=
  (S.memo.byType.lookup (scope, ty)).isSome = true

theorem Recorded.same (h : Recorded S scope ty) (hS : S'.results = S.results) :
    Recorded S' scope ty := by
  have hbyType : S'.memo.byType = S.memo.byType := congrArg Prod.fst hS
  unfold Recorded
  rw [hbyType]
  exact h

theorem Recorded.of_beq (h : Recorded S scope ty) (hty : (ty' == ty) = true) :
    Recorded S scope ty' := by
  unfold Recorded
  rw [lookup_congr (beq_pair scope hty)]
  exact h

theorem Recorded.cons (h : Recorded S scope ty)
    (e : (ScopeId × Ty) × Except Failure Resolved) :
    Recorded { S with memo := { S.memo with byType := e :: S.memo.byType } } scope ty := by
  obtain ⟨key, value⟩ := e
  unfold Recorded at h ⊢
  rw [List.lookup_cons]
  split
  · rfl
  · exact h

/-- What is recorded stays so in all searches. -/
theorem upkeep_recorded (E : Environment) (scope : ScopeId) (ty : Ty) :
    Upkeep E fun S => S.Recorded scope ty where
  candidates _ hS _ ty statics := hS.same ((blind_candidates E _ ty statics).results_eq _)
  typeScope _ hS ty := hS.same ((blind_typeScope E ty).results_eq _)
  dependencyScope _ hS _ _ := hS.same ((blind_dependencyScope E _ _).results_eq _)
  framework _ hS _ ty := hS.same ((blind_framework E _ ty).results_eq _)
  byType e hS := hS.cons e
  byCandidate _ hS := hS

/-- A computation that sees no divergence is remembered. -/
theorem remembered_of_clean {α : Type} {compute : SearchM α} {remember : α → Memo → Memo} {a : α}
    (hrun : Search.unlessDiverged compute remember s = .ok (a, s'))
    (hclean : s'.divergences = s.divergences) :
    ∃ S : Session, s'.session = { S with memo := remember a S.memo } := by
  obtain ⟨⟨a', s₁⟩, hcompute, hrest⟩ := bind_eq_ok_iff.1 hrun
  change (if s₁.divergences = s.divergences then _ else _ : SearchM α) s₁ = .ok (a, s') at hrest
  split at hrest
  · cases hrest
    exact ⟨s₁.session, rfl⟩
  · next hne =>
    cases hrest
    exact absurd hclean hne

/-- A search that sees no divergence records its result. -/
theorem recorded_of_clean
    (hrun : Search.solve E depth [] scope request { session := S } = .ok (result, s'))
    (hclean : s'.divergences = 0) : s'.session.Recorded scope request.ty := by
  cases depth with
  | zero => cases hrun
  | succ depth =>
    change resolveRequest E (Search.solve E depth) [] scope request { session := S } = _ at hrun
    rw [run_resolveRequest] at hrun
    cases hknown : S.memo.byType.lookup (scope, request.ty) with
    | some known =>
      rw [hknown] at hrun
      cases hrun
      exact Option.isSome_iff_exists.2 ⟨known, hknown⟩
    | none =>
      rw [hknown] at hrun
      obtain ⟨S', hS'⟩ := remembered_of_clean hrun hclean
      unfold Recorded
      rw [hS', lookup_self]
      rfl

/-- A step without memory comes to one result. -/
theorem settled_unique {α : Type} {again : Nat → SearchM α} {a b : α} (ha : Settled S again a)
    (hb : Settled S again b) : a = b := by
  obtain ⟨N, hN⟩ := exists_of_settled ha
  obtain ⟨M, hM⟩ := exists_of_settled hb
  exact Except.ok.inj ((hN _ (Nat.le_max_left N M)).symm.trans (hM _ (Nat.le_max_right N M)))

theorem Later.madeOf (h : Later E S T) (hS : MadeOf (fun _ => True) E S) :
    MadeOf (fun _ => True) E T := by
  induction h with
  | refl => exact hS
  | tail _ hu ih => exact .use ih hu

/-- What a search comes to without seeing a divergence is the answer for good. However the session
is used next, in this scope or in others, a request for an equal type in the scope is answered in
the same way, a failure naming the request at hand, and the session stays as it is. -/
theorem answer_lasts (hS : MadeOf (fun _ => True) E S) (hK : E.catalog.ParametersByKey)
    (hscope : scope < S.scopes.size)
    (hrun : Search.solve E depth [] scope request { session := S } = .ok (result, s'))
    (hclean : s'.divergences = 0) (hT : Later E s'.session T)
    (hty : (request'.ty == request.ty) = true) (depth' : Nat) :
    T.resolve E (depth' + 1) scope request' = .ok (answer request' result, T) := by
  have hresolve : S.resolve E depth scope request = .ok (result, s'.session) :=
    congrArg (Except.map fun r : Except Failure Resolved × Search => (r.1, r.2.session)) hrun
  have hS' : MadeOf (fun _ => True) E s'.session := .use hS (.resolve hscope trivial hresolve)
  have hfollowed := mirrors_solve hK depth 0 [] scope request request' { session := S }
    hS.reachable.sound_everything (hS.recalls hK) hscope hty (Nat.zero_le _) result s' hrun
  -- the answer is settled when the search ends, and so it is later on
  have hsettled : Settled T (fun d => reference E d [] scope request') (answer request' result) :=
    (hfollowed.mirrored (Nat.le_of_eq hclean)).again.mono (hT.keeps hS'.reachable hS'.indexed)
  -- what the later search finds remembered is settled as well
  have hrecorded : T.Recorded scope request'.ty :=
    (hT.upheld (upkeep_recorded E scope request'.ty)
      (fun T position h => h.same ((blind_addScope E position).results_eq T)) hS'.reachable
      ⟨hS'.indexed, (recorded_of_clean hrun hclean).of_beq hty⟩).2.2
  obtain ⟨known, hknown⟩ := Option.isSome_iff_exists.1 hrecorded
  obtain ⟨⟨⟨scope', ty⟩, known'⟩, he, hkey, rfl⟩ := mem_of_lookup hknown
  obtain ⟨rfl, hty'⟩ := of_beq_pair hkey
  have hknown' : Settled T (fun d => reference E d [] scope request') (answer request' known') :=
    ((hT.madeOf hS').recalls hK).byType _ he request' hty'
  have hsame : answer request' known' = answer request' result := settled_unique hknown' hsettled
  have hgiven : Search.solve E (depth' + 1) [] scope request' { session := T } =
      .ok (answer request' known', { session := T }) := by
    rw [Search.solve, run_resolveRequest, hknown]
  rw [hsame] at hgiven
  exact congrArg (Except.map fun r : Except Failure Resolved × Search => (r.1, r.2.session)) hgiven

/-- The session after a request that comes to a result. -/
theorem Use.resolved {P : Ty → Prop} (hscope : scope < S.scopes.size) (hty : P request.ty)
    (hok : (S.resolve E depth scope request).isOk = true) :
    Use P E S (after (S.resolve E depth scope request)) := by
  obtain ⟨_, hr⟩ := exists_after hok
  exact .resolve hscope hty hr

def vault : Environment where
  catalog := ⟨[
    ("Safe", [{ typeParameters := [⟨"Safe.T", 0⟩] }]),
    ("Safe.T", [{ flags := { typeParameter := true } }]),
    ("Key", [{ typeParameters := [⟨"Key.T", 0⟩] }]),
    ("Key.T", [{ flags := { typeParameter := true } }]),
    ("Fn", [{ typeParameters := [⟨"Fn.R", 0⟩], flags := { function := true } }]),
    ("Fn.R", [{ flags := { typeParameter := true } }]),
    ("T", [{ flags := { typeParameter := true } }])]⟩

def safeFor (t : Ty) : Ty :=
  { head := .named ⟨"Safe", 0⟩, arguments := [t] }

def keyFor (t : Ty) : Ty :=
  { head := .named ⟨"Key", 0⟩, arguments := [t] }

def gold : Ty :=
  .of ⟨"Gold", 0⟩

def cellar : Session :=
  -- A safe for anything takes its key. The key for gold is in a safe for such safes, the key for
  -- which is at hand.
  ((addScope vault {
    name := "cellar"
    declarations := [
      { id := "lock"
        ty := safeFor (.of ⟨"T", 0⟩)
        typeParameters := [⟨"T", 0⟩]
        parameters := [{ name := "key", slot := .value 0, ty := keyFor (.of ⟨"T", 0⟩) }] },
      { id := "inner"
        ty := keyFor gold
        parameters := [{ name := "safe", slot := .value 0, ty := safeFor (safeFor gold) }] },
      { id := "outer", ty := keyFor (safeFor gold) }] }).run {}).2

def safeMaker : Request where
  ty := { head := .named ⟨"Fn", 0⟩, arguments := [safeFor gold] }
  callable := "main"
  name := "safes"
  slot := .value 0

def outerSafe : Request where
  ty := safeFor (safeFor gold)
  callable := "main"
  name := "store"
  slot := .value 0

def searched : Session :=
  after (cellar.resolve vault 9 0 safeMaker)

def opened : Session :=
  after (searched.resolve vault 9 1 outerSafe)

/-- A safe for gold needs a safe for safes inside of it, with which the search for a maker diverges.
That is not for good: once a safe for safes has been found in the scope of the maker, it is taken
from memory where the search would diverge, and there is a maker. -/
theorem detour_changes_answer : MadeOf (fun _ => True) vault searched ∧
    vault.catalog.ParametersByKey ∧
    (∃ f S', searched.resolve vault 9 0 safeMaker = .ok (.error f, S') ∧ f.isDivergent = true) ∧
    Later vault searched opened ∧
    ∃ v S', opened.resolve vault 9 0 safeMaker = .ok (.ok v, S') := by
  have hsingle : vault.catalog.Single := by decide
  have hcellar : MadeOf (fun _ => True) vault cellar :=
    .use .start (.addScope _ rfl fun _ _ => ⟨trivial, fun _ _ => trivial⟩)
  have hsearched : Use (fun _ => True) vault cellar searched :=
    .resolved (by decide +kernel) trivial (by decide +kernel)
  have hopened : Use (fun _ => True) vault searched opened :=
    .resolved (by decide +kernel) trivial (by decide +kernel)
  have hbefore : (searched.resolve vault 9 0 safeMaker).toOption.any (fun r =>
      decide ((r.1.map fun _ => ()).mapError Failure.isDivergent = .error true)) = true := by
    decide +kernel
  have hafter : (opened.resolve vault 9 0 safeMaker).toOption.any (·.1.toBool) = true := by decide +kernel
  refine ⟨.use hcellar hsearched, fun _ _ hkey => hsingle.coherent.isTypeParameter_eq hkey, ?_,
    .single hopened, ?_⟩
  · obtain ⟨⟨result, S'⟩, hr, hfails⟩ := exists_ok_of_any hbefore
    cases result with
    | error f => exact ⟨f, S', hr, Except.error.inj (of_decide_eq_true hfails)⟩
    | ok v => cases hfails
  · obtain ⟨⟨result, S'⟩, hr, hfilled⟩ := exists_ok_of_any hafter
    cases result with
    | error f => cases hfilled
    | ok v => exact ⟨v, S', hr⟩

end Wiring.Session
