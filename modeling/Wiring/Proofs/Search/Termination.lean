import Wiring.Proofs.Search.Halting
import Wiring.Proofs.Search.Mark
import Wiring.Proofs.Search.Reachable

/-!
Types may grow on the way down, but the search does not get inside of a candidate again unless with a
smaller type, so what it is inside of is a trail that is not prolonged for ever.
-/
namespace Wiring

open Session

namespace Search

variable {V : Vocabulary} {E : Environment} {s : Search} {S S' : Session} {scope : ScopeId}
  {c : InjectableId} {chain : List InjectableId} {keys ids : List String}

def trailOf (S : Session) (chain : List InjectableId) : List (Mark × Nat) :=
  chain.map fun c => ((S.injectable c).mark, (S.injectable c).ty.size)

theorem trailOf_eq (hS : S.Extends S') (hc : ∀ c ∈ chain, c < S.injectables.size) :
    trailOf S' chain = trailOf S chain := by
  apply List.map_congr_left
  intro c hmem
  rw [hS.injectable c (hc c hmem)]

/-- A candidate that the search does not diverge with is smaller than each of its mark around it. -/
theorem size_lt_of_mem_trailOf {i : Injectable} {n : Nat} (h : diverges S chain i = false)
    (hn : (i.mark, n) ∈ trailOf S chain) : i.ty.size < n := by
  obtain ⟨c, hc, he⟩ := List.mem_map.1 hn
  obtain ⟨hmark, rfl⟩ := Prod.mk.inj he
  obtain ⟨horigin, hcovering⟩ := Injectable.same_of_mark_eq hmark
  by_contra hsize
  have hle : (S.injectable c).ty.size ≤ i.ty.size := by omega
  have hmeets := List.any_eq_false.1 h c hc
  dsimp only at hmeets
  rw [horigin, hcovering, decide_eq_true hle] at hmeets
  exact hmeets rfl

/-- Getting inside of a candidate with dependencies prolongs the trail. -/
theorem prolongs_trailOf (hs : Sound V E S) (hk : ∀ k, V.classifier k → k ∈ keys)
    (hd : ∀ d, V.declaration d → d ∈ ids) (h : diverges S chain (S.injectable c) = false)
    (hne : (S.injectable c).dependencies E.catalog ≠ []) :
    Trail.Prolongs (marksOver keys ids) (trailOf S (c :: chain)) (trailOf S chain) := by
  refine ⟨(S.injectable c).mark, (S.injectable c).ty.size, rfl, ?_, ?_⟩
  · exact Vocabulary.mark_mem hk hd (hs.coversForm c) hne
  · exact fun n hn => size_lt_of_mem_trailOf h hn

/-- Over a finite vocabulary every search finishes. The induction is on the trail, and the sessions
in which the search goes on extend the one in which it starts. -/
theorem finishes {R : Prop} (hE : V.Speaks E) (hV : V.Finite) (S : Session)
    (chain : List InjectableId) (hc : ∀ c ∈ chain, c < S.injectables.size)
    (hR : Disordered E S → R) : Finishes V E R S chain := by
  obtain ⟨keys, ids, hk, hd⟩ := hV
  induction ht : trailOf S chain using (Trail.prolongs_wf (marksOver keys ids)).induction
    generalizing S chain with
  | _ trail ih =>
    subst ht
    refine finishes_of_descends hE ⟨fun S' c hS hs hc' hdiverges hne => ?_, hR⟩
    have hin : ∀ c' ∈ c :: chain, c' < S'.injectables.size :=
      List.forall_mem_cons.2 ⟨hc', fun c' hmem => hS.lt_injectables (hc c' hmem)⟩
    have hlonger : Trail.Prolongs (marksOver keys ids) (trailOf S' (c :: chain)) (trailOf S chain) := by
      rw [← trailOf_eq hS hc]
      exact prolongs_trailOf hs hk hd hdiverges hne
    exact ih _ hlonger S' (c :: chain) hin (fun h => hR (h.mono hS)) rfl

theorem halts_solveAll {R : Prop} (hE : V.Speaks E) (hf : Finishes V E R S []) {requests : List Request}
    {results : List (Request × Option Resolved)} {worst : Option (Request × Failure)}
    (hS : S.Extends s.session) (hs : Sound V E s.session) (hscope : scope < s.session.scopes.size)
    (ht : ∀ r ∈ requests, V.Covers r.ty) :
    Halts R (fun d => solveAll E d scope requests results worst) s := by
  induction requests generalizing s results worst with
  | nil =>
    cases worst with
    | none =>
      simp only [solveAll]
      exact Halts.pure _
    | some w =>
      simp only [solveAll]
      exact Halts.pure _
  | cons request rest ih =>
    obtain ⟨ht, hrest⟩ := List.forall_mem_cons.1 ht
    simp only [solveAll]
    apply Halts.bind (hf scope request s hS hs hscope ht)
      fun d => resolves_solve hE d [] scope request s hs hscope ht
    intro result s' hgrows hs' _
    -- no request stops those after it, a failure is only reported in the end
    have hgoOn : ∀ results worst,
        Halts R (fun d => solveAll E d scope rest results worst) s' := fun results worst =>
      ih (hS.trans hgrows) hs' (hgrows.lt_scopes hscope) hrest
    cases result with
    | ok v => exact hgoOn _ _
    | error failure =>
      apply Halts.ite
      · exact fun _ => hgoOn _ _
      · exact fun _ => hgoOn _ _

/-! ### Disorder -/

section Disorder

variable {chain found : List InjectableId} {request : Request} {s : Search}

theorem resolveCandidates_stops {solve : Solve} (hmany : 1 < found.length)
    (hranked : ranked E s.session scope request.ty found = none) :
    resolveCandidates E solve chain scope request found s = .error .disorder := by
  unfold resolveCandidates
  split
  · cases Nat.lt_irrefl _ hmany
  · refine run_bind rfl ?_
    rw [hranked]
    rfl

/-- The search for a request that is not remembered stops if the sort makes nothing of what is found. -/
theorem solve_stops {looked : List InjectableId × Session}
    (hfresh : s.session.memo.byType.lookup (scope, request.ty) = none)
    (hlooked : (Session.candidates E scope request.ty (s.session.scope scope).statics).run s.session =
      looked) (hmany : 1 < looked.1.length)
    (hranked : ranked E looked.2 scope request.ty looked.1 = none) (depth : Nat) :
    solve E (depth + 1) chain scope request s = .error .disorder := by
  have hsome : resolveSome E (solve E depth) chain scope request looked.1
      { s with session := looked.2 } = .error .disorder := by
    have hne : looked.1.isEmpty = false := by
      rw [List.isEmpty_eq_false_iff]
      exact List.ne_nil_of_length_pos (Nat.lt_of_succ_lt hmany)
    rw [resolveSome, hne, if_neg Bool.false_ne_true, ← bind_pure_comp]
    exact run_bind_stop (resolveCandidates_stops hmany hranked)
  have hcompute : computeRequest E (solve E depth) chain scope request s = .error .disorder := by
    subst hlooked
    unfold computeRequest
    exact run_bind rfl (run_bind rfl (run_bind_stop hsome))
  rw [solve]
  unfold resolveRequest
  refine run_bind rfl ?_
  rw [hfresh]
  unfold unlessDiverged
  exact run_bind rfl (run_bind_stop hcompute)

end Disorder

end Search

/-! ### Hosts -/

/-- What the host says of a program mentions finitely many classifiers and declarations. -/
def Host.MentionsFinitely (h : Host) : Prop :=
  ∃ W : Vocabulary, W.Finite ∧ W.CoversHost h

theorem mem_flatMap_of_mem_lookup {α : Type} {table : List (String × List α)} {key : String} {a : α}
    (h : a ∈ (table.lookup key).getD []) : a ∈ table.flatMap (·.2) := by
  cases hl : table.lookup key with
  | none =>
    rw [hl] at h
    cases h
  | some row =>
    rw [hl] at h
    obtain ⟨e, he, _, rfl⟩ := mem_of_lookup hl
    exact List.mem_flatMap.2 ⟨e, he, h⟩

/-- So it is with every host that is given by tables. -/
theorem HostTables.host_mentionsFinitely (t : HostTables) : t.host.MentionsFinitely := by
  have hdeclared := Vocabulary.exists_keys_declarations
    (t.members.flatMap (·.2) ++ t.typeScopes.flatMap (·.2))
  obtain ⟨keys, hk⟩ := hdeclared
  obtain ⟨keys', hk'⟩ := Vocabulary.exists_keys_of_forall (P := fun V (m : Member) => V.Covers m.ty)
    (fun m (_ : m ∈ t.components.flatMap (·.2)) => Vocabulary.exists_keys m.ty)
  let ids := (t.members.flatMap (·.2) ++ t.typeScopes.flatMap (·.2)).map (·.id)
  let W := Vocabulary.listing (keys ++ keys') ids
  have hdeclaration : ∀ d ∈ t.members.flatMap (·.2) ++ t.typeScopes.flatMap (·.2),
      W.CoversDeclaration d ∧ W.declaration d.id := by
    intro d hd
    have hid : d.id ∈ ids := List.mem_map_of_mem hd
    exact ⟨hk W (fun k h => List.mem_append_left keys' h) d hd hid, hid⟩
  refine ⟨W, Vocabulary.finite_listing _ _, ?_, ?_, ?_⟩
  · intro c d hd
    exact hdeclaration d (List.mem_append_left _ (mem_flatMap_of_mem_lookup hd))
  · intro c d hd
    exact (hdeclaration d (List.mem_append_right _ (mem_flatMap_of_mem_lookup hd))).1
  · intro c m hm
    exact hk' W (fun k h => List.mem_append_right keys h) m (mem_flatMap_of_mem_lookup hm)

/-! ### Resolution -/

namespace Session

variable {E : Environment} {S : Session} {scope : ScopeId}

def Unordered (E : Environment) (S : Session) : Prop :=
  ∃ T scope requested, ∃ candidates : List InjectableId, S.Extends T ∧
    (∀ c ∈ candidates, Search.Usable T scope c) ∧
      ¬ Consistent (T.compareCandidates E scope requested) (· ∈ candidates)

/-- From some depth on, a search in `S` comes to the same at every depth: to a result, unless it meets
candidates that do not compare consistently and stops. -/
def Settles {α : Type} (E : Environment) (S : Session) (search : Nat → Except Stop α) : Prop :=
  ∃ depth, (∃ result, ∀ d, depth ≤ d → search d = .ok result) ∨
    S.Unordered E ∧ ∀ d, depth ≤ d → search d = .error .disorder

theorem unordered_of_disordered (h : Search.Disordered E S) : S.Unordered E := by
  obtain ⟨T, scope, requested, candidates, hT, hc, hranked⟩ := h
  refine ⟨T, scope, requested, candidates, hT, hc, fun hconsistent => ?_⟩
  obtain ⟨ordered, hordered, _⟩ := E.sorting.exists_sort hconsistent
  rw [Search.ranked, hordered] at hranked
  cases hranked

theorem settles_of_halts {α β : Type} {step : Nat → SearchM α} {f : α × Search → β}
    (h : Search.Halts (S.Unordered E) step { session := S }) :
    S.Settles E fun d => (step d { session := S }).map f := by
  obtain ⟨depth, h⟩ := h
  refine ⟨depth, h.imp (fun ⟨r, hr⟩ => ⟨f r, fun d hd => ?_⟩) fun ⟨hR, hr⟩ => ⟨hR, fun d hd => ?_⟩⟩
  · simp only [hr d hd]
    rfl
  · simp only [hr d hd]
    rfl

/-- With enough depth the search for a request, and for the requests of a call site, comes to an end,
and with more depth to the same one: a value, a failure, or a stop at candidates that do not compare
consistently. -/
theorem resolve_halts (hR : Reachable E S) (hf : E.host.MentionsFinitely)
    (hs : scope < S.scopes.size) :
    (∀ request, S.Settles E fun d => S.resolve E d scope request) ∧
    ∀ requests, S.Settles E fun d => S.resolveAll E d scope requests := by
  obtain ⟨W, hW, hhost⟩ := hf
  obtain ⟨V, hV⟩ := hR.sound hhost
  have hfin : ∀ {V' : Vocabulary}, V'.Speaks E → V'.Finite →
      Search.Finishes V' E (S.Unordered E) S [] := fun hE hV' =>
    Search.finishes hE hV' S [] (List.forall_mem_nil _) unordered_of_disordered
  constructor
  · intro request
    obtain ⟨V', hV', ht⟩ := hV.covering [request.ty]
    exact settles_of_halts (hfin hV'.speaks (hV'.finite hW) scope request { session := S }
      (Extends.refl S) hV'.sound hs (ht _ (List.mem_singleton_self _)))
  · intro requests
    obtain ⟨V', hV', ht⟩ := hV.covering (requests.map (·.ty))
    exact settles_of_halts (Search.halts_solveAll hV'.speaks (hfin hV'.speaks (hV'.finite hW))
      (Extends.refl S) hV'.sound hs (List.forall_mem_map.1 ht))

/-! ### A yard -/

def field : Environment where
  catalog := ⟨[("Any", [{ flags := { top := true } }]), ("Animal", [{}]),
    ("Cat", [{ supertypes := some [.of ⟨"Animal", 0⟩] }]), ("Rock", [{}])]⟩

def finds : List Declaration :=
  List.zipWith (fun id key => { id, ty := .of ⟨key, 0⟩ })
    ["a", "b", "c", "d", "e", "f", "g", "h", "i", "j", "k", "l", "m", "n", "o", "p", "q", "r", "s",
      "t", "u"]
    (List.replicate 8 "Rock" ++ ["Animal", "Cat"] ++ List.replicate 7 "Rock" ++
      "Cat" :: List.replicate 3 "Rock")

def yard : Session :=
  ((addScope field { name := "yard", declarations := finds }).run {}).2

def anyFind : Request where
  ty := .of ⟨"Any", 0⟩
  callable := "main"
  name := "find"
  slot := .value 0

/-- A cat is better than the animal and both tie with the rocks, so these candidates are in no order,
and by the merge sort the passes over them do not meet. -/
theorem yard_stops : Reachable field yard ∧ field.host.MentionsFinitely ∧ 0 < yard.scopes.size ∧
    ∀ depth, yard.resolve field (depth + 1) 0 anyFind = .error .disorder := by
  have hR : Reachable field yard := .addScope (.start field) _ rfl
  have hfresh : yard.memo.byType.lookup (0, anyFind.ty) = none := by decide +kernel
  refine ⟨hR, HostTables.host_mentionsFinitely {}, by decide +kernel, fun depth => ?_⟩
  have hstops : Search.solve field (depth + 1) [] 0 anyFind { session := yard } =
      .error .disorder :=
    Search.solve_stops hfresh rfl (by decide +kernel) (by decide +kernel) depth
  rw [resolve, StateT.run, hstops]
  rfl

end Session

end Wiring
