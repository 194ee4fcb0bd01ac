import Mathlib.Data.List.Induction
import Wiring.Proofs.Search.Comparison
import Wiring.Proofs.Search.Reference
import Wiring.Proofs.Search.Use

namespace Wiring

namespace Search

open Session Vocabulary

variable {E : Environment} {S : Session} {s s' : Search} {scope : ScopeId} {requested : Ty}
  {request : Request} {solve : Solve} {chain : List InjectableId} {v w : Resolved}
  {results : List (Except Failure Resolved)}

/-! ### Standings -/

def Standing.addAll (E : Environment) (S : Session) (requested : Ty) (standing : Standing)
    (results : List (Except Failure Resolved)) : Standing :=
  results.foldl (fun standing result => standing.add E S requested result) standing

theorem addAll_append_singleton {standing : Standing} {result : Except Failure Resolved} :
    standing.addAll E S requested (results ++ [result]) =
      (standing.addAll E S requested results).add E S requested result := by
  rw [Standing.addAll, List.foldl_append]
  rfl

/-- A value that is alone has just come in as the best, or it was alone before. -/
theorem Taken.alone {best best' : List Resolved} (h : Taken E S requested best w best')
    (hv : best' = [v]) :
    (w = v ∧ ∀ leader ∈ best.head?, S.compareResolved E v leader requested = .lt) ∨
      best = [v] ∧ S.compareResolved E w v requested = .gt := by
  cases h with
  | first hnone =>
    cases hv
    rw [hnone]
    exact Or.inl ⟨rfl, fun _ hleader => by cases hleader⟩
  | better hleader hlt =>
    cases hv
    rw [hleader]
    refine Or.inl ⟨rfl, ?_⟩
    rintro _ ⟨⟩
    exact hlt
  | tied hleader _ =>
    cases best with
    | nil => cases hleader
    | cons leader ties => simp at hv
  | worse hleader hgt =>
    subst hv
    cases hleader
    exact Or.inr ⟨rfl, hgt⟩

/-- A value that is alone at the end came in as the best, and those that came in later are worse. -/
theorem exists_of_best (h : (Standing.addAll E S requested {} results).best = [v]) :
    ∃ before after, results = before ++ .ok v :: after ∧
      (∀ w, .ok w ∈ after → S.compareResolved E w v requested = .gt) ∧
      ∀ leader ∈ (Standing.addAll E S requested {} before).best.head?,
        S.compareResolved E v leader requested = .lt := by
  induction results using List.reverseRecOn with
  | nil => cases h
  | append_singleton results result ih =>
    rw [addAll_append_singleton] at h
    -- a result that leaves the value alone has come after it
    have hlater : (Standing.addAll E S requested {} results).best = [v] →
        (∀ w, result = .ok w → S.compareResolved E w v requested = .gt) →
        ∃ before after, results ++ [result] = before ++ .ok v :: after ∧
          (∀ w, .ok w ∈ after → S.compareResolved E w v requested = .gt) ∧
          ∀ leader ∈ (Standing.addAll E S requested {} before).best.head?,
            S.compareResolved E v leader requested = .lt := by
      intro hbest hworse
      obtain ⟨before, after, rfl, hafter, hleader⟩ := ih hbest
      refine ⟨before, after ++ [result], by simp, fun w hw => ?_, hleader⟩
      rcases List.mem_append.1 hw with hw | hw
      · exact hafter w hw
      · exact hworse w (List.mem_singleton.1 hw).symm
    cases result with
    | error failure => exact hlater h fun _ hw => by cases hw
    | ok w =>
      rcases (taken_add _).alone h with ⟨rfl, hleader⟩ | ⟨hbest, hgt⟩
      · exact ⟨results, [], rfl, fun _ hw => absurd hw List.not_mem_nil, hleader⟩
      · refine hlater hbest ?_
        rintro _ ⟨⟩
        exact hgt

structure Unbeaten (E : Environment) (S : Session) (requested : Ty) (P found : Resolved → Prop)
    (best : List Resolved) : Prop where
  -- All of the best values satisfy `P`, none is better than the first of them, and those that are
  -- not among them are worse.
  known : ∀ v ∈ best, P v
  leads : ∀ w, found w → ∃ leader ∈ best.head?, S.compareResolved E leader w requested ≠ .gt ∧
    (w ∈ best ∨ S.compareResolved E leader w requested = .lt)

theorem Unbeaten.leader {P found : Resolved → Prop} {best : List Resolved}
    (h : Unbeaten E S requested P found best) {leader w : Resolved}
    (hleader : best.head? = some leader) (hw : found w) :
    S.compareResolved E leader w requested ≠ .gt ∧
      (w ∈ best ∨ S.compareResolved E leader w requested = .lt) := by
  obtain ⟨_, hmem, hw⟩ := h.leads w hw
  rw [hleader] at hmem
  cases hmem
  exact hw

/-- If values compare consistently, taking in one more keeps the best ones unbeaten. -/
theorem Unbeaten.take {P found : Resolved → Prop} {best best' : List Resolved}
    (hc : Consistent (fun v w => S.compareResolved E v w requested) P)
    (h : Unbeaten E S requested P found best) (hfound : ∀ w, found w → P w) (hv : P v)
    (ht : Taken E S requested best v best') :
    Unbeaten E S requested P (fun w => w = v ∨ found w) best' := by
  have hself : S.compareResolved E v v requested ≠ .gt := by
    rw [hc.refl v hv]
    decide
  have hknown : ∀ {leader}, best.head? = some leader → P leader := fun hleader =>
    h.known _ (List.mem_of_head? hleader)
  cases ht with
  | first hnone =>
    refine ⟨List.forall_mem_singleton.2 hv, ?_⟩
    rintro w (rfl | hw)
    · exact ⟨w, rfl, hself, Or.inl (List.mem_singleton_self _)⟩
    · obtain ⟨_, hmem, _⟩ := h.leads w hw
      rw [hnone] at hmem
      cases hmem
  | @better leader hleader hlt =>
    refine ⟨List.forall_mem_singleton.2 hv, ?_⟩
    rintro w (rfl | hw)
    · exact ⟨w, rfl, hself, Or.inl (List.mem_singleton_self _)⟩
    · have hbeats : S.compareResolved E v w requested = .lt :=
        hc.trans v leader w hv (hknown hleader) (hfound w hw) hlt (h.leader hleader hw).1
      refine ⟨v, rfl, ?_, Or.inr hbeats⟩
      rw [hbeats]
      decide
  | @tied leader hleader heq =>
    refine ⟨List.forall_mem_append.2 ⟨h.known, List.forall_mem_singleton.2 hv⟩, fun w hw => ?_⟩
    have hhead : leader ∈ (best ++ [v]).head? := by
      rw [List.head?_append, hleader]
      rfl
    refine ⟨leader, hhead, ?_⟩
    rcases hw with rfl | hw
    · have hswap := hc.swap w leader hv (hknown hleader)
      rw [heq] at hswap
      rw [← hswap]
      exact ⟨by decide, Or.inl (List.mem_append_right _ (List.mem_singleton_self _))⟩
    · exact (h.leader hleader hw).imp_right fun h => h.imp_left fun h => List.mem_append_left _ h
  | @worse leader hleader hgt =>
    refine ⟨h.known, fun w hw => ⟨leader, hleader, ?_⟩⟩
    rcases hw with rfl | hw
    · have hswap := hc.swap w leader hv (hknown hleader)
      rw [hgt] at hswap
      rw [← hswap]
      exact ⟨by decide, Or.inr rfl⟩
    · exact h.leader hleader hw

theorem unbeaten_addAll {P : Resolved → Prop}
    (hc : Consistent (fun v w => S.compareResolved E v w requested) P)
    (hP : ∀ v, .ok v ∈ results → P v) :
    Unbeaten E S requested P (fun w => .ok w ∈ results)
      (Standing.addAll E S requested {} results).best := by
  induction results using List.reverseRecOn with
  | nil => exact ⟨List.forall_mem_nil _, fun w hw => by cases hw⟩
  | append_singleton results result ih =>
    have hbefore : ∀ v, .ok v ∈ results → P v := fun v hv => hP v (List.mem_append_left _ hv)
    rw [addAll_append_singleton]
    cases result with
    | error failure =>
      refine ⟨(ih hbefore).known, fun w hw => (ih hbefore).leads w ?_⟩
      rcases List.mem_append.1 hw with hw | hw
      · exact hw
      · cases List.mem_singleton.1 hw
    | ok v =>
      have hv : P v := hP v (List.mem_append_right _ (List.mem_singleton_self _))
      have htake := (ih hbefore).take hc hbefore hv (taken_add _)
      refine ⟨htake.known, fun w hw => htake.leads w ?_⟩
      rcases List.mem_append.1 hw with hw | hw
      · exact Or.inr hw
      · exact Or.inl (Except.ok.inj (List.mem_singleton.1 hw))

def Level (E : Environment) (S : Session) (requested : Ty) (best : List Resolved) : Prop :=
  ∀ v ∈ best, ∀ leader ∈ best.head?, S.compareResolved E v leader requested = .eq

theorem Level.take {best best' : List Resolved} (h : Level E S requested best)
    (hself : S.compareResolved E v v requested = .eq) (ht : Taken E S requested best v best') :
    Level E S requested best' := by
  have halone : Level E S requested [v] := by
    intro w hw leader hleader
    cases hleader
    rw [List.mem_singleton.1 hw]
    exact hself
  cases ht with
  | first => exact halone
  | better => exact halone
  | @tied leader hleader heq =>
    intro w hw leader' hleader'
    rw [List.head?_append, hleader, Option.some_or, Option.mem_some_iff] at hleader'
    subst hleader'
    rcases List.mem_append.1 hw with hw | hw
    · exact h w hw leader hleader
    · rw [List.mem_singleton.1 hw]
      exact heq
  | worse => exact h

theorem level_addAll (hself : ∀ v, .ok v ∈ results → S.compareResolved E v v requested = .eq) :
    Level E S requested (Standing.addAll E S requested {} results).best := by
  induction results using List.reverseRecOn with
  | nil => exact List.forall_mem_nil _
  | append_singleton results result ih =>
    have hbefore := ih fun v hv => hself v (List.mem_append_left _ hv)
    rw [addAll_append_singleton]
    cases result with
    | error failure => exact hbefore
    | ok v =>
      exact hbefore.take (hself v (List.mem_append_right _ (List.mem_singleton_self _)))
        (taken_add _)

/-- If values compare consistently, the best ones are those that no value found is better than. -/
theorem mem_best_iff {P : Resolved → Prop}
    (hc : Consistent (fun v w => S.compareResolved E v w requested) P)
    (hP : ∀ v, .ok v ∈ results → P v) :
    v ∈ (Standing.addAll E S requested {} results).best ↔
      .ok v ∈ results ∧ ∀ w, .ok w ∈ results → S.compareResolved E w v requested ≠ .lt := by
  have hunbeaten := unbeaten_addAll hc hP
  have hlevel : Level E S requested (Standing.addAll E S requested {} results).best :=
    level_addAll fun v hv => hc.refl v (hP v hv)
  have hfound : ∀ v ∈ (Standing.addAll E S requested {} results).best, .ok v ∈ results :=
    (unbeaten_addAll (hc.imp hP) fun _ hv => hv).known
  constructor
  · intro hv
    refine ⟨hfound v hv, fun w hw hlt => ?_⟩
    obtain ⟨leader, hleader, hnot, _⟩ := hunbeaten.leads w hw
    have hpl : P leader := hunbeaten.known _ (List.mem_of_head? hleader)
    -- a value that is better than `v` is better than the leader, which nothing is
    have htie : S.compareResolved E v leader requested ≠ .gt := by
      rw [hlevel v hv leader hleader]
      decide
    have hbetter := hc.trans w v leader (hP w hw) (hunbeaten.known v hv) hpl hlt htie
    have hswap := hc.swap w leader (hP w hw) hpl
    rw [hbetter] at hswap
    exact hnot hswap.symm
  · rintro ⟨hv, hbest⟩
    obtain ⟨leader, hleader, _, hmem | hlt⟩ := hunbeaten.leads v hv
    · exact hmem
    · exact absurd hlt (hbest leader (hfound leader (List.mem_of_head? hleader)))

/-- Then they are the same in whatever order the candidates are tried. -/
theorem mem_best_of_perm {P : Resolved → Prop} {results' : List (Except Failure Resolved)}
    (hc : Consistent (fun v w => S.compareResolved E v w requested) P)
    (hP : ∀ v, .ok v ∈ results → P v) (hperm : results.Perm results') :
    v ∈ (Standing.addAll E S requested {} results).best ↔
      v ∈ (Standing.addAll E S requested {} results').best := by
  have hP' : ∀ v, .ok v ∈ results' → P v := fun v hv => hP v (hperm.mem_iff.2 hv)
  rw [mem_best_iff hc hP, mem_best_iff hc hP']
  simp only [hperm.mem_iff]

/-! ### Runs -/

/-- Candidates are resolved one after the other. -/
inductive Trial (E : Environment) (solve : Solve) (chain : List InjectableId) (scope : ScopeId)
    (request : Request) :
    Search → List InjectableId → List (Except Failure Resolved) → Search → Prop
  | nil {s : Search} : Trial E solve chain scope request s [] [] s
  | cons {s s' s'' : Search} {c : InjectableId} {candidates : List InjectableId}
      {result : Except Failure Resolved} {results : List (Except Failure Resolved)}
      (here : resolveCandidate E solve chain scope request c s = .ok (result, s'))
      (rest : Trial E solve chain scope request s' candidates results s'') :
      Trial E solve chain scope request s (c :: candidates) (result :: results) s''

structure Contest (E : Environment) (solve : Solve) (chain : List InjectableId) (scope : ScopeId)
    (request : Request) (s : Search) (candidates : List InjectableId)
    (results : List (Except Failure Resolved)) (s' : Search) : Prop where
  -- The results of the first ones of some candidates, all of the scope that asks.
  grows : s.session.Extends s'.session
  tried : ∃ tried rest, candidates = tried ++ rest ∧
    Trial E solve chain scope request s tried results s'
  legal : ∀ result ∈ results, Remembers E s'.session scope result

inductive Round (E : Environment) (S : Session) (scope : ScopeId) (requested : Ty) :
    Standing → List (InjectableId × Except Failure Resolved) → List InjectableId → Prop
  -- Candidates are tried from a standing on. Each one that is tried comes with its result, and is
  -- no worse than a value found before it; those that are left begin with one that is.
  | ended {standing : Standing} : Round E S scope requested standing [] []
  | stopped {standing : Standing} {c : InjectableId} {rest : List InjectableId}
      (worse : standing.beats E S scope requested c = true) :
      Round E S scope requested standing [] (c :: rest)
  | tried {standing : Standing} {c : InjectableId} {result : Except Failure Resolved}
      {outcomes : List (InjectableId × Except Failure Resolved)} {rest : List InjectableId}
      (fair : standing.beats E S scope requested c = false)
      (later : Round E S scope requested (standing.add E S requested result) outcomes rest) :
      Round E S scope requested standing ((c, result) :: outcomes) rest

structure Played (E : Environment) (solve : Solve) (chain : List InjectableId) (scope : ScopeId)
    (request : Request) (s : Search) (standing : Standing)
    (outcomes : List (InjectableId × Except Failure Resolved)) (rest : List InjectableId)
    (s' : Search) : Prop where
  -- A run that tries candidates from a standing on, seen from the end.
  grows : s.session.Extends s'.session
  trial : Trial E solve chain scope request s (outcomes.map (·.1)) (outcomes.map (·.2)) s'
  round : Round E s'.session scope request.ty standing outcomes rest
  legal : ∀ o ∈ outcomes, Remembers E s'.session scope o.2

/-- Trying candidates resolves the first of them, and the standing is that after their results. -/
theorem exists_played (hsolve : Resolves everything E solve) {candidates : List InjectableId}
    {standing standing' : Standing} (hs : Sound everything E s.session)
    (hscope : scope < s.session.scopes.size) (hc : ∀ c ∈ candidates, Usable s.session scope c)
    (hst : Stands E s.session scope standing)
    (hrun : tryAllWith E (resolveCandidate E solve chain scope request) scope request standing
      candidates s = .ok (standing', s')) :
    ∃ outcomes rest, candidates = outcomes.map (·.1) ++ rest ∧
      Played E solve chain scope request s standing outcomes rest s' ∧
      standing' = standing.addAll E s'.session request.ty (outcomes.map (·.2)) := by
  induction candidates generalizing s standing with
  | nil =>
    cases hrun
    exact ⟨[], [], rfl, ⟨Extends.refl _, .nil, .ended, List.forall_mem_nil _⟩, rfl⟩
  | cons c rest ih =>
    obtain ⟨hfirst, hrest⟩ := List.forall_mem_cons.1 hc
    rw [run_tryAllWith] at hrun
    split at hrun
    · next hbeats =>
      cases hrun
      exact ⟨[], c :: rest, rfl, ⟨Extends.refl _, .nil, .stopped hbeats, List.forall_mem_nil _⟩, rfl⟩
    · next hbeats =>
      obtain ⟨⟨result, t⟩, hresult, hrun⟩ := bind_eq_ok_iff.1 hrun
      obtain ⟨hgrows, ht, hlegal⟩ :=
        leads_resolveCandidate (speaks_everything E) hsolve hs hscope hfirst result t hresult
      have hst' : Stands E t.session scope standing := hst.mono hgrows
      obtain ⟨outcomes, rest, rfl, hplayed, rfl⟩ := ih ht (hgrows.lt_scopes hscope)
        (fun c hc => (hrest c hc).mono hgrows) (hst'.add hlegal) hrun
      -- the candidate was weighed and its result taken in before the rest was tried, but what is
      -- known compares as before
      have hadd : standing.add E s'.session request.ty result =
          standing.add E t.session request.ty result :=
        add_eq hplayed.grows (fun v hv => knownTree_of_legal ht (hst' v hv).1)
          (fun v hv => knownTree_of_legal ht (hlegal v hv).1) BEq.rfl
      have hfair : standing.beats E s'.session scope request.ty c = false := by
        rw [beats_eq (hgrows.trans hplayed.grows) hscope (known_of_usable hs hscope hfirst)
          (fun v hv => knownTree_of_legal hs (hst v hv).1) (BEq.rfl (a := request.ty))]
        exact Bool.eq_false_iff.2 hbeats
      refine ⟨(c, result) :: outcomes, rest, rfl, ⟨hgrows.trans hplayed.grows,
        .cons hresult hplayed.trial, .tried hfair (hadd ▸ hplayed.round),
        List.forall_mem_cons.2 ⟨hlegal.mono hplayed.grows, hplayed.legal⟩⟩, ?_⟩
      change _ = (standing.add E s'.session request.ty result).addAll E s'.session request.ty
        (outcomes.map (·.2))
      rw [hadd]

/-- What a run comes to is what the results of the first candidates come to. -/
theorem exists_contest (hsolve : Resolves everything E solve) {candidates : List InjectableId}
    {standing standing' : Standing} (hs : Sound everything E s.session)
    (hscope : scope < s.session.scopes.size) (hc : ∀ c ∈ candidates, Usable s.session scope c)
    (hst : Stands E s.session scope standing)
    (hrun : tryAllWith E (resolveCandidate E solve chain scope request) scope request standing
      candidates s = .ok (standing', s')) :
    ∃ results, Contest E solve chain scope request s candidates results s' ∧
      standing' = standing.addAll E s'.session request.ty results := by
  obtain ⟨outcomes, rest, rfl, hplayed, rfl⟩ := exists_played hsolve hs hscope hc hst hrun
  refine ⟨outcomes.map (·.2), ⟨hplayed.grows, ⟨_, rest, rfl, hplayed.trial⟩, ?_⟩, rfl⟩
  exact List.forall_mem_map.2 hplayed.legal

section Chosen

variable {candidates : List InjectableId} (hsolve : Resolves everything E solve)
  (hs : Sound everything E s.session) (hscope : scope < s.session.scopes.size)
  (hc : ∀ c ∈ candidates, Usable s.session scope c) (hseveral : candidates.length ≠ 1)
include hsolve hs hscope hc hseveral

/-- A choice among several candidates resolves the best of them one after the other, and what it
comes to is what their results come to. -/
theorem exists_contest_of_choice {result : Except Failure Resolved}
    (hrun : resolveCandidates E solve chain scope request candidates s = .ok (result, s')) :
    ∃ sorted results, ranked E s.session scope request.ty candidates = some sorted ∧
      Contest E solve chain scope request s sorted results s' ∧
      result = (Standing.addAll E s'.session request.ty {} results).outcome scope request := by
  rw [resolveCandidates_eq] at hrun
  unfold resolveCandidatesWith at hrun
  split at hrun
  · next only => exact absurd rfl hseveral
  · obtain ⟨sorted, standing, hranked, htry, rfl⟩ := exists_sorted_of_choose hrun
    have hnone : Stands E s.session scope {} := List.forall_mem_nil _
    obtain ⟨results, hcontest, rfl⟩ :=
      exists_contest hsolve hs hscope (fun c h => hc c (mem_of_mem_ranked hranked h)) hnone htry
    exact ⟨sorted, results, hranked, hcontest, rfl⟩

/-- A value that is taken is better than the first of the best ones before it, and all values that
have been found after it are worse. -/
theorem chosen_leads
    (hrun : resolveCandidates E solve chain scope request candidates s = .ok (.ok v, s')) :
    ∃ sorted before after, ranked E s.session scope request.ty candidates = some sorted ∧
      Contest E solve chain scope request s sorted (before ++ .ok v :: after) s' ∧
      (∀ w, .ok w ∈ after → s'.session.compareResolved E w v request.ty = .gt) ∧
      ∀ leader ∈ (Standing.addAll E s'.session request.ty {} before).best.head?,
        s'.session.compareResolved E v leader request.ty = .lt := by
  obtain ⟨sorted, results, hranked, hcontest, hresult⟩ :=
    exists_contest_of_choice hsolve hs hscope hc hseveral hrun
  obtain ⟨before, after, rfl, hafter, hleader⟩ := exists_of_best (best_of_outcome hresult.symm)
  exact ⟨sorted, before, after, hranked, hcontest, hafter, hleader⟩

/-- If legal values compare consistently, a value that is taken is better than all others that have
been found. -/
theorem chosen_beats
    (hrun : resolveCandidates E solve chain scope request candidates s = .ok (.ok v, s'))
    (hcompare : Consistent (fun v w => s'.session.compareResolved E v w request.ty)
      (Legal E s'.session)) :
    ∃ sorted results, ranked E s.session scope request.ty candidates = some sorted ∧
      Contest E solve chain scope request s sorted results s' ∧
      ∀ w, .ok w ∈ results → w = v ∨ s'.session.compareResolved E v w request.ty = .lt := by
  obtain ⟨sorted, results, hranked, hcontest, hresult⟩ :=
    exists_contest_of_choice hsolve hs hscope hc hseveral hrun
  have hbest := best_of_outcome hresult.symm
  refine ⟨sorted, results, hranked, hcontest, fun w hw => ?_⟩
  have hunbeaten := unbeaten_addAll hcompare fun u hu => (hcontest.legal (.ok u) hu u rfl).1
  obtain ⟨leader, hleader, _, hplace⟩ := hunbeaten.leads w hw
  rw [hbest] at hleader hplace
  cases hleader
  exact hplace.imp_left List.mem_singleton.1

end Chosen

/-! ### Three candidates -/

def plain (key : String) : Ty := .of ⟨key, 0⟩

def needing (id key : String) (needed : List String) : Declaration where
  id := id
  ty := plain key
  parameters := needed.zipIdx.map fun (key, i) => { name := key, slot := .value i, ty := plain key }

def rivals : List Declaration := [
  needing "first" "Foo" ["B", "B"], needing "second" "Foo" ["A", "C"],
  needing "third" "Foo" ["B", "A"],
  needing "a" "A" [], needing "b" "B" ["A"], needing "c" "C" ["A", "A"]]

def arena : Environment where
  host := HostTables.host {}

def rivalry : Session :=
  ((addScope arena { name := "arena", declarations := rivals }).run {}).2

def prize : Request where
  ty := plain "Foo"
  callable := "main"
  name := "prize"
  slot := .value 0

def found (S : Session) (c : InjectableId) : Option Resolved :=
  (S.memo.byCandidate.lookup (0, c)).bind (·.toOption)

/-- The first candidate ties with the second one and is worse than the third one, which ties with the
second one too: the third one is taken, though it is no better than the second one. -/
theorem third_hides_second : ∃ first second third S',
    rivalry.resolve arena 4 0 prize = .ok (.ok third, S') ∧
      found S' 0 = some first ∧ found S' 1 = some second ∧ third.candidate = 2 ∧
      S'.compareResolved arena second first prize.ty = .eq ∧
      S'.compareResolved arena third first prize.ty = .lt ∧
      S'.compareResolved arena third second prize.ty = .eq := by
  have hrun : (rivalry.resolve arena 4 0 prize).toOption.any (fun r => r.1.toOption.any fun third =>
      (found r.2 0).any fun first => (found r.2 1).any fun second =>
        decide (third.candidate = 2 ∧ r.2.compareResolved arena second first prize.ty = .eq ∧
          r.2.compareResolved arena third first prize.ty = .lt ∧
          r.2.compareResolved arena third second prize.ty = .eq)) = true := by decide +kernel
  obtain ⟨⟨result, S'⟩, hresult, hrun⟩ := exists_ok_of_any hrun
  simp only [Option.any_eq_true, decide_eq_true_eq] at hrun
  obtain ⟨third, hthird, first, hfirst, second, hsecond, hcompare⟩ := hrun
  cases result with
  | error failure => cases hthird
  | ok v =>
    cases hthird
    exact ⟨first, second, third, S', hresult, hfirst, hsecond, hcompare⟩

end Search
end Wiring
