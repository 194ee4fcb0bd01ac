import Wiring.Proofs.Search.Causes
import Wiring.Proofs.Search.Choice

namespace Wiring

namespace Session

variable {E : Environment} {S : Session}

abbrev OneToASlot (v : Resolved) : Prop :=
  v.Everywhere fun w => (w.dependencies.map (·.1.slot)).Nodup

theorem verdict_of_eq {orders : List Ordering} (h : ∀ o ∈ orders, o = .eq) :
    verdict orders = .eq := by
  have hnone : ∀ o : Ordering, o ≠ .eq → orders.contains o = false := fun o ho =>
    List.contains_eq_mem o orders ▸ decide_eq_false fun hmem => ho (h o hmem)
  rw [verdict, hnone .lt (by decide), hnone .gt (by decide)]
  rfl

theorem dependency_of_mem {v : Resolved} (h : (v.dependencies.map (·.1.slot)).Nodup) {r : Request}
    {value : Option Resolved} (hr : (r, value) ∈ v.dependencies) :
    v.dependency? r.slot = some value := by
  unfold Resolved.dependency?
  generalize v.dependencies = ds at h hr
  induction ds with
  | nil => cases hr
  | cons d ds ih =>
    obtain ⟨hd, hds⟩ := List.nodup_cons.1 h
    rcases List.mem_cons.1 hr with rfl | hr
    · simp
    · have hother : (d.1.slot == r.slot) = false := by
        refine beq_eq_false_iff_ne.2 fun he => hd ?_
        exact List.mem_map.2 ⟨_, hr, he.symm⟩
      simp only [List.find?_cons, hother]
      exact ih hds hr

theorem compareDependencies_self {v : Resolved} (h : (v.dependencies.map (·.1.slot)).Nodup)
    (ih : ∀ r w, (r, some w) ∈ v.dependencies → ∀ requested,
      S.compareResolved E w w requested = .eq)
    {ds : List (Request × Option Resolved)} (hds : ∀ d ∈ ds, d ∈ v.dependencies) :
    ∀ o ∈ S.compareDependencies E ds v, o = .eq := by
  induction ds with
  | nil => exact List.forall_mem_nil _
  | cons d ds ihds =>
    obtain ⟨hd, hrest⟩ := List.forall_mem_cons.1 hds
    obtain ⟨r, value⟩ := d
    cases value with
    | some w =>
      rw [compareDependencies, dependency_of_mem h hd]
      exact List.forall_mem_cons.2 ⟨ih r w hd r.ty, ihds hrest⟩
    | none =>
      rw [compareDependencies, dependency_of_mem h hd]
      exact ihds hrest

theorem compareResolved_then (v w : Resolved) (requested : Ty) : S.compareResolved E v w requested =
    (S.compareCandidates E v.scope requested v.candidate w.candidate).then
      (verdict (S.compareDependencies E v.dependencies w)) := by
  cases v
  rw [compareResolved]

/-- A value compares equal with itself, if each of its dependencies is alone in its slot. -/
theorem compareResolved_self {v : Resolved} (h : OneToASlot v) (requested : Ty) :
    S.compareResolved E v v requested = .eq := by
  induction h generalizing requested with
  | @node v here _ ih =>
    have hcandidates : S.compareCandidates E v.scope requested v.candidate v.candidate = .eq :=
      if_pos rfl
    rw [compareResolved_then, hcandidates,
      verdict_of_eq (compareDependencies_self here ih fun _ h => h)]
    rfl

end Session

namespace Search

open Session

variable {E : Environment} {S : Session} {s s' : Search} {n depth : Nat} {scope : ScopeId}
  {requested : Ty} {request : Request} {solve : Solve} {chain : List InjectableId}
  {c : InjectableId} {result : Except Failure Resolved} {standing : Standing}
  {candidates rest sorted : List InjectableId} {P : InjectableId → Prop}
  {prior outcomes more : List (InjectableId × Except Failure Resolved)}

/-! ### What candidates come to -/

def Own (scope : ScopeId) (o : InjectableId × Except Failure Resolved) : Prop :=
  ∀ v, o.2 = .ok v → v.candidate = o.1 ∧ v.scope = scope

/-- The failure of a candidate is no ambiguity of the request that it is tried for. -/
theorem not_ambiguity_of_thwarted {f : Failure} (h : Thwarted E S chain scope request c f)
    (r : Request) (values : List Resolved) : f ≠ .ambiguity r values := by
  rintro rfl
  cases h with
  | obstacle h => rcases obstacle_cases h with ⟨_, _, h⟩ | ⟨_, _, h⟩ <;> cases h

/-- What is tried in a run comes to a value of its own or to a failure of its own. -/
theorem own_of_trial (hsolve : Accountable E solve) (h : Ready E n chain scope s)
    (hc : ∀ o ∈ outcomes, Usable s.session scope o.1)
    (htrial : Trial E solve chain scope request s (outcomes.map (·.1)) (outcomes.map (·.2)) s') :
    ∀ o ∈ outcomes, Own scope o ∧ ∀ r values, o.2 ≠ .error (.ambiguity r values) := by
  induction outcomes generalizing s with
  | nil => exact List.forall_mem_nil _
  | cons o outcomes ih =>
    obtain ⟨c, result⟩ := o
    obtain ⟨hc, hrest⟩ := List.forall_mem_cons.1 hc
    cases htrial with
    | @cons _ t _ _ _ _ _ here later =>
      obtain ⟨_, ht, hlegal⟩ :=
        leads_resolveCandidate (speaks_everything E) hsolve.leads h.sound h.scope hc result t here
      obtain ⟨h₁, haccounts⟩ := explores_resolveCandidate hsolve h hc result t here
      have hlater := ih (h.onward h₁ ht) (fun o ho => (hrest o ho).mono h₁.keeps.grows) later
      refine List.forall_mem_cons.2 ⟨⟨fun v hv => ?_, fun r values hr => ?_⟩, hlater⟩
      · exact ⟨haccounts.value v hv, (hlegal v hv).2⟩
      · exact not_ambiguity_of_thwarted (haccounts.failure _ hr).1 r values rfl

/-! ### Rounds -/

theorem Round.stops (h : Round E S scope requested standing outcomes rest) :
    ∀ c ∈ rest.head?,
      (standing.addAll E S requested (outcomes.map (·.2))).beats E S scope requested c = true := by
  induction h with
  | ended => exact fun _ h => by cases h
  | stopped worse =>
    rintro _ ⟨⟩
    exact worse
  | tried _ _ ih => exact ih

structure Tie (E : Environment) (S : Session) (scope : ScopeId) (requested : Ty)
    (values : List Resolved) : Prop where
  -- Several values of which none is better than the others, of different usages. The first compares
  -- equal with itself as well, unless two of its dependencies are in one slot.
  several : 2 ≤ values.length
  level : ∀ v ∈ values, ∀ w ∈ values,
    S.compareCandidates E scope requested v.candidate w.candidate = .eq
  usages : values.Pairwise fun v w =>
    ((S.injectable v.candidate).usage == (S.injectable w.candidate).usage) = false
  equal : ∀ first ∈ values.head?, ∀ v ∈ values, v ≠ first ∨ OneToASlot first →
    S.compareResolved E v first requested = .eq

structure Leading (E : Environment) (S : Session) (scope : ScopeId) (requested : Ty)
    (best : List Resolved) (prior : List (InjectableId × Except Failure Resolved)) : Prop where
  -- The best values after some candidates have been tried: they are of these, in their order; all
  -- candidates that have a value tie with that of the first one, and the others compare equal with
  -- it.
  found : ∀ v ∈ best, (v.candidate, .ok v) ∈ prior
  order : (best.map (·.candidate)).Sublist (prior.map (·.1))
  level : ∀ c v, (c, .ok v) ∈ prior → ∃ leader ∈ best.head?,
    S.compareCandidates E scope requested c leader.candidate = .eq
  tied : ∀ leader ∈ best.head?, ∀ v ∈ best.tail, S.compareResolved E v leader requested = .eq

section Leading

variable {best best' : List Resolved} {v : Resolved}

theorem leading_nil : Leading E S scope requested [] [] where
  found := List.forall_mem_nil _
  order := List.Sublist.refl _
  level _ _ h := absurd h List.not_mem_nil
  tied _ h := by cases h

theorem Leading.skip (h : Leading E S scope requested best prior) (failure : Failure) :
    Leading E S scope requested best (prior ++ [(c, .error failure)]) where
  found v hv := List.mem_append_left _ (h.found v hv)
  order := by
    rw [List.map_append]
    exact h.order.trans (List.sublist_append_left _ _)
  level c' v hv := by
    rcases List.mem_append.1 hv with hv | hv
    · exact h.level c' v hv
    · cases List.mem_singleton.1 hv
  tied := h.tied

theorem Leading.level_leader (h : Leading E S scope requested best prior) {leader w : Resolved}
    (hleader : leader ∈ best.head?) (hw : (c, .ok w) ∈ prior) :
    S.compareCandidates E scope requested c leader.candidate = .eq := by
  obtain ⟨leader', hleader', heq⟩ := h.level c w hw
  cases Option.mem_unique hleader hleader'
  exact heq

/-- A value whose candidate ties with the first best one keeps that. -/
theorem Leading.take (h : Leading E S scope requested best prior)
    (hcompare : Consistent (S.compareCandidates E scope requested) P) (hprior : ∀ o ∈ prior, P o.1)
    (hv : P v.candidate) (hties : ∀ leader ∈ best.head?,
      S.compareCandidates E scope requested v.candidate leader.candidate = .eq)
    (ht : Taken E S requested best v best') :
    Leading E S scope requested best' (prior ++ [(v.candidate, .ok v)]) := by
  have hnew : (v.candidate, Except.ok v) ∈ prior ++ [(v.candidate, .ok v)] :=
    List.mem_append_right _ (List.mem_singleton_self _)
  have hfound : ∀ w ∈ best, (w.candidate, Except.ok w) ∈ prior ++ [(v.candidate, .ok v)] :=
    fun w hw => List.mem_append_left _ (h.found w hw)
  have hself : S.compareCandidates E scope requested v.candidate v.candidate = .eq :=
    hcompare.refl _ hv
  have hlevel : ∀ leader ∈ best'.head?,
      S.compareCandidates E scope requested v.candidate leader.candidate = .eq →
      (∀ c w, (c, Except.ok w) ∈ prior →
        S.compareCandidates E scope requested c leader.candidate = .eq) →
      ∀ c w, (c, Except.ok w) ∈ prior ++ [(v.candidate, .ok v)] → ∃ leader ∈ best'.head?,
        S.compareCandidates E scope requested c leader.candidate = .eq := by
    intro leader hleader hv hall c w hw
    refine ⟨leader, hleader, ?_⟩
    rcases List.mem_append.1 hw with hw | hw
    · exact hall c w hw
    · cases List.mem_singleton.1 hw
      exact hv
  have halone : ∀ leader : Resolved, leader ∈ [v].head? → ∀ w ∈ [v].tail,
      S.compareResolved E w leader requested = .eq := fun _ _ => List.forall_mem_nil _
  have horder : (best.map (·.candidate) ++ [v.candidate]).Sublist
      (List.map (·.1) (prior ++ [(v.candidate, .ok v)])) := by
    rw [List.map_append]
    exact h.order.append (List.Sublist.refl _)
  cases ht with
  | first hnone =>
    refine ⟨List.forall_mem_singleton.2 hnew, (List.sublist_append_right _ _).trans horder,
      hlevel v rfl hself fun c w hw => ?_, halone⟩
    obtain ⟨_, hleader, _⟩ := h.level c w hw
    rw [hnone] at hleader
    cases hleader
  | @better leader hleader _ =>
    have hleaderP := hprior _ (h.found leader (List.mem_of_head? hleader))
    refine ⟨List.forall_mem_singleton.2 hnew, (List.sublist_append_right _ _).trans horder,
      hlevel v rfl hself fun c w hw => ?_, halone⟩
    have hback : S.compareCandidates E scope requested leader.candidate v.candidate = .eq := by
      rw [← hcompare.swap _ _ hv hleaderP, hties leader hleader]
      rfl
    exact hcompare.eq_trans (hprior _ hw) hleaderP hv (h.level_leader hleader hw) hback
  | @tied leader hleader heq =>
    have hhead : leader ∈ (best ++ [v]).head? := by
      rw [List.head?_append, hleader]
      rfl
    refine ⟨List.forall_mem_append.2 ⟨hfound, List.forall_mem_singleton.2 hnew⟩, ?_,
      hlevel leader hhead (hties leader hleader) fun _ _ => h.level_leader hleader,
      fun leader' hleader' => ?_⟩
    · rw [List.map_append]
      exact horder
    · cases Option.mem_unique hhead hleader'
      rw [List.tail_append_of_ne_nil (List.ne_nil_of_mem (List.mem_of_head? hleader))]
      exact List.forall_mem_append.2
        ⟨h.tied leader hleader, List.forall_mem_singleton.2 heq⟩
  | @worse leader hleader _ =>
    exact ⟨hfound, (List.sublist_append_left _ _).trans horder,
      hlevel leader hleader (hties leader hleader) fun _ _ => h.level_leader hleader, h.tied⟩

/-- All candidates that have a value tie with each of the best ones. -/
theorem Leading.level_all (h : Leading E S scope requested best prior)
    (hcompare : Consistent (S.compareCandidates E scope requested) P) (hprior : ∀ o ∈ prior, P o.1)
    {w : Resolved} (hw : (c, .ok w) ∈ prior) (hv : v ∈ best) :
    S.compareCandidates E scope requested c v.candidate = .eq := by
  obtain ⟨leader, hleader, hc⟩ := h.level c w hw
  have hback := h.level_leader hleader (h.found v hv)
  have hPv : P v.candidate := hprior _ (h.found v hv)
  have hPl : P leader.candidate := hprior _ (h.found leader (List.mem_of_head? hleader))
  refine hcompare.eq_trans (hprior _ hw) hPl hPv hc ?_
  rw [← hcompare.swap _ _ hPv hPl, hback]
  rfl

/-- Several best values are a tie. -/
theorem Leading.tie (h : Leading E S scope requested best prior)
    (hcompare : Consistent (S.compareCandidates E scope requested) P) (hprior : ∀ o ∈ prior, P o.1)
    (husages : (prior.map (·.1)).Pairwise fun a b =>
      ((S.injectable a).usage == (S.injectable b).usage) = false) (hseveral : 2 ≤ best.length) :
    Tie E S scope requested best where
  several := hseveral
  level v hv _ hw := h.level_all hcompare hprior (h.found v hv) hw
  usages := List.pairwise_map.1 (husages.sublist h.order)
  equal first hfirst v hv hother := by
    by_cases he : v = first
    · subst he
      exact compareResolved_self (hother.resolve_left fun hne => hne rfl) requested
    · obtain ⟨others, rfl⟩ := List.head?_eq_some_iff.1 hfirst
      exact h.tied first rfl v ((List.mem_cons.1 hv).resolve_left he)

end Leading

/-- Trying candidates in order of preference keeps that. -/
theorem Round.leading (h : Round E S scope requested standing outcomes rest)
    (prior : List (InjectableId × Except Failure Resolved))
    (hcompare : Consistent (S.compareCandidates E scope requested) P)
    (hP : ∀ o ∈ prior ++ outcomes, P o.1) (hown : ∀ o ∈ outcomes, Own scope o)
    (hordered : (List.map (·.1) (prior ++ outcomes)).Pairwise fun a b =>
      S.compareCandidates E scope requested a b ≠ .gt)
    (hl : Leading E S scope requested standing.best prior) :
    Leading E S scope requested (standing.addAll E S requested (outcomes.map (·.2))).best
      (prior ++ outcomes) := by
  induction h generalizing prior with
  | ended =>
    rw [List.append_nil]
    exact hl
  | stopped =>
    rw [List.append_nil]
    exact hl
  | @tried standing c result outcomes rest fair _ ih =>
    obtain ⟨hc, hrest⟩ := List.forall_mem_cons.1 hown
    have hprior : ∀ o ∈ prior, P o.1 := fun o ho => hP o (List.mem_append_left _ ho)
    have hPc : P c := hP (c, result) (List.mem_append_right _ (List.mem_cons_self ..))
    -- the candidate is no better than the leader, which was sorted before it, and no worse
    have hties : ∀ leader ∈ standing.best.head?,
        S.compareCandidates E scope requested c leader.candidate = .eq := by
      intro leader hleader
      have hmem := hl.found leader (List.mem_of_head? hleader)
      rw [List.map_append] at hordered
      refine hcompare.eq_of_not hPc (hprior _ hmem) (fun hgt => ?_)
        ((List.pairwise_append.1 hordered).2.2 _ (List.mem_map_of_mem hmem) c
          (List.mem_map_of_mem (List.mem_cons_self ..)))
      rw [Standing.beats, Option.mem_def.1 hleader] at fair
      simp [hgt] at fair
    rw [List.append_cons] at hP hordered ⊢
    refine ih _ hP hrest hordered ?_
    cases result with
    | error failure => exact hl.skip failure
    | ok v =>
      obtain ⟨rfl, -⟩ := hc v rfl
      exact hl.take hcompare hprior hPc hties (taken_add standing)

theorem addAll_append {results results' : List (Except Failure Resolved)} :
    standing.addAll E S requested (results ++ results') =
      (standing.addAll E S requested results).addAll E S requested results' :=
  List.foldl_append

/-- Values of candidates that are worse than that of the first best value change nothing. -/
theorem best_addAll_of_worse {leader : Resolved} (hleader : standing.best.head? = some leader)
    (hworse : ∀ o ∈ more, S.compareCandidates E scope requested o.1 leader.candidate = .gt)
    (hown : ∀ o ∈ more, Own scope o) :
    (standing.addAll E S requested (more.map (·.2))).best = standing.best := by
  induction more generalizing standing with
  | nil => rfl
  | cons o more ih =>
    obtain ⟨c, result⟩ := o
    obtain ⟨hc, hmore⟩ := List.forall_mem_cons.1 hworse
    obtain ⟨howner, howns⟩ := List.forall_mem_cons.1 hown
    have hsame : (standing.add E S requested result).best = standing.best := by
      cases result with
      | error failure => rfl
      | ok v =>
        obtain ⟨rfl, rfl⟩ := howner v rfl
        have hgt : S.compareResolved E v leader requested = .gt := by
          rw [compareResolved_then, hc]
          rfl
        unfold Standing.add
        simp only [hleader, hgt]
    exact (ih (hsame ▸ hleader) hmore howns).trans hsame

/-- Of failures the first one of the lowest rank is kept. -/
theorem exists_reported (E : Environment) (S : Session) (requested : Ty) (hne : outcomes ≠ [])
    (hfailed : ∀ o ∈ outcomes, ∃ f, o.2 = .error f) :
    ∃ before c f after, outcomes = before ++ (c, .error f) :: after ∧
      (Standing.addAll E S requested {} (outcomes.map (·.2))).failure = some f ∧
      (∀ o ∈ before, ∃ g, o.2 = .error g ∧ f.rank < g.rank) ∧
      ∀ o ∈ after, ∃ g, o.2 = .error g ∧ f.rank ≤ g.rank := by
  -- from the last outcome: it is reported just if it is of a lower rank than what is kept
  induction outcomes using List.reverseRecOn with
  | nil => exact absurd rfl hne
  | append_singleton outcomes o ih =>
    obtain ⟨hbefore, hlast⟩ := List.forall_mem_append.1 hfailed
    obtain ⟨c, result⟩ := o
    obtain ⟨g, rfl⟩ := hlast _ (List.mem_singleton_self _)
    rw [List.map_append, List.map_singleton, addAll_append_singleton]
    rcases List.eq_nil_or_concat outcomes with rfl | ⟨_, _, hconcat⟩
    · exact ⟨[], c, g, [], rfl, rfl, List.forall_mem_nil _, List.forall_mem_nil _⟩
    · obtain ⟨before, c', f, after, rfl, hf, hworse, hafter⟩ := ih (by simp [hconcat]) hbefore
      simp only [Standing.add, hf, Failure.report, Failure.outranks]
      by_cases hlt : g.rank < f.rank
      · refine ⟨_, c, g, [], rfl, by simp [hlt], ?_, List.forall_mem_nil _⟩
        refine List.forall_mem_append.2 ⟨fun o ho => ?_, List.forall_mem_cons.2 ⟨?_, fun o ho => ?_⟩⟩
        · exact (hworse o ho).imp fun _ h => h.imp_right (Nat.lt_trans hlt)
        · exact ⟨f, rfl, hlt⟩
        · exact (hafter o ho).imp fun _ h => h.imp_right (Nat.lt_of_lt_of_le hlt)
      · refine ⟨before, c', f, after ++ [(c, .error g)], by simp, by simp [hlt], hworse, ?_⟩
        exact List.forall_mem_append.2
          ⟨hafter, List.forall_mem_singleton.2 ⟨g, rfl, Nat.le_of_not_lt hlt⟩⟩

/-! ### Answers -/

def contenders : Except Failure Resolved → List Resolved
  | .ok v => [v]
  | .error (.ambiguity _ values) => values
  | .error _ => []

/-- An answer from the best candidates: of candidates in order of preference the first ones came to
`outcomes`, and the rest was not tried. -/
structure Preferred (E : Environment) (S : Session) (scope : ScopeId) (request : Request)
    (outcomes : List (InjectableId × Except Failure Resolved)) (rest : List InjectableId)
    (answer : Except Failure Resolved) : Prop where
  -- The values that the answer rests on have been found.
  found : ∀ v ∈ contenders answer, (v.candidate, .ok v) ∈ outcomes
  -- Whatever is better than one of them has been tried and has failed.
  better : ∀ v ∈ contenders answer, ∀ c ∈ outcomes.map (·.1) ++ rest,
    S.compareCandidates E scope request.ty c v.candidate = .lt → ∃ f, (c, .error f) ∈ outcomes
  -- An ambiguity is one of the request, among values that tie.
  tie : ∀ r values, answer = .error (.ambiguity r values) →
    r = request ∧ Tie E S scope request.ty values
  -- Whatever the rest would come to, the answer would be the same.
  settled : ∀ more, more.map (·.1) = rest → (∀ o ∈ more, Own scope o) →
    (Standing.addAll E S request.ty {} ((outcomes ++ more).map (·.2))).outcome scope request = answer
  -- Without a value and without an ambiguity, all have been tried and have failed; of the failures
  -- the first one of the lowest rank is the answer.
  failed : (∀ v, answer ≠ .ok v) → (∀ r values, answer ≠ .error (.ambiguity r values)) →
    rest = [] ∧ ∃ before c f after, outcomes = before ++ (c, .error f) :: after ∧ answer = .error f ∧
      (∀ o ∈ before, ∃ g, o.2 = .error g ∧ f.rank < g.rank) ∧
      ∀ o ∈ after, ∃ g, o.2 = .error g ∧ f.rank ≤ g.rank

/-- A standing without values among candidates that have all been tried and have failed. -/
theorem preferred_of_failed (hne : outcomes ≠ [])
    (hfailed : ∀ o ∈ outcomes, ∃ f, o.2 = .error f)
    (hplain : ∀ o ∈ outcomes, ∀ r values, o.2 ≠ .error (.ambiguity r values))
    (hbest : (Standing.addAll E S request.ty {} (outcomes.map (·.2))).best = []) :
    Preferred E S scope request outcomes []
      ((Standing.addAll E S request.ty {} (outcomes.map (·.2))).outcome scope request) := by
  obtain ⟨before, c, f, after, hsplit, hf, hbefore, hafter⟩ :=
    exists_reported E S request.ty hne hfailed
  have hmem : (c, .error f) ∈ outcomes := by
    rw [hsplit]
    exact List.mem_append_right _ (List.mem_cons_self ..)
  have hanswer : (Standing.addAll E S request.ty {} (outcomes.map (·.2))).outcome scope request =
      .error f := by
    simp only [Standing.outcome, hbest, hf, Option.getD_some]
  -- the failure that is kept is no ambiguity, so no values stand behind it
  have hnone : contenders (.error f) = [] := by
    unfold contenders
    split
    · next h => cases h
    · next r values h =>
      cases h
      exact absurd rfl (hplain _ hmem r values)
    · rfl
  rw [hanswer]
  refine ⟨?_, ?_, fun r values h => ?_, fun more hmore _ => ?_, fun _ _ => ?_⟩
  · rw [hnone]
    exact List.forall_mem_nil _
  · rw [hnone]
    exact List.forall_mem_nil _
  · cases h
    exact absurd rfl (hplain _ hmem r values)
  · rw [List.map_eq_nil_iff.1 hmore, List.append_nil]
    exact hanswer
  · exact ⟨rfl, before, c, f, after, hsplit, rfl, hbefore, hafter⟩

/-- A standing with values answers with the one value, or with all of several. -/
theorem outcome_of_leader {leader : Resolved} (hleader : leader ∈ standing.best.head?) :
    standing.best = [leader] ∧ standing.outcome scope request = .ok leader ∨
      2 ≤ standing.best.length ∧
        standing.outcome scope request = .error (.ambiguity request standing.best) := by
  obtain ⟨others, hbest⟩ := List.head?_eq_some_iff.1 hleader
  rw [Standing.outcome, hbest]
  cases others with
  | nil => exact Or.inl ⟨rfl, rfl⟩
  | cons second others => exact Or.inr ⟨Nat.le_add_left 2 _, rfl⟩

theorem contenders_of_best {leader : Resolved} (hleader : leader ∈ standing.best.head?) :
    contenders (standing.outcome scope request) = standing.best := by
  rcases outcome_of_leader hleader with ⟨hbest, houtcome⟩ | ⟨_, houtcome⟩
  · rw [houtcome, hbest]
    rfl
  · rw [houtcome]
    rfl

section Order

variable (hcompare : Consistent (S.compareCandidates E scope request.ty) P)
  (hP : ∀ c ∈ outcomes.map (·.1) ++ rest, P c)
  (hordered : (outcomes.map (·.1) ++ rest).Pairwise fun a b =>
    S.compareCandidates E scope request.ty a b ≠ .gt)
include hcompare hP hordered

/-- The rest of a round is worse than the value that has ended it. -/
theorem worse_of_stopped {leader : Resolved} (hleader : standing.best.head? = some leader)
    (hPl : P leader.candidate)
    (hstops : ∀ c ∈ rest.head?, standing.beats E S scope request.ty c = true) :
    ∀ c ∈ rest, S.compareCandidates E scope request.ty c leader.candidate = .gt := by
  cases rest with
  | nil => exact List.forall_mem_nil _
  | cons first rest =>
    have hfirst : S.compareCandidates E scope request.ty first leader.candidate = .gt := by
      have hbeats := hstops first rfl
      rw [Standing.beats, hleader] at hbeats
      exact eq_of_beq hbeats
    have hPc : ∀ c ∈ first :: rest, P c := fun c hc => hP c (List.mem_append_right _ hc)
    obtain ⟨hPfirst, hPrest⟩ := List.forall_mem_cons.1 hPc
    obtain ⟨hlater, _⟩ := List.pairwise_cons.1 (List.pairwise_append.1 hordered).2.1
    refine List.forall_mem_cons.2 ⟨hfirst, fun c hc => ?_⟩
    exact (hcompare.gt_iff (hPrest c hc) hPl).2 (hcompare.trans _ _ _ hPl hPfirst (hPrest c hc)
      ((hcompare.gt_iff hPfirst hPl).1 hfirst) (hlater c hc))

/-- A standing with values. -/
theorem preferred_of_leading
    (husages : (outcomes.map (·.1) ++ rest).Pairwise fun a b =>
      ((S.injectable a).usage == (S.injectable b).usage) = false)
    (hstanding : Standing.addAll E S request.ty {} (outcomes.map (·.2)) = standing)
    (hl : Leading E S scope request.ty standing.best outcomes)
    (hstops : ∀ c ∈ rest.head?, standing.beats E S scope request.ty c = true)
    {leader : Resolved} (hleader : standing.best.head? = some leader) :
    Preferred E S scope request outcomes rest (standing.outcome scope request) := by
  have hcontenders : contenders (standing.outcome scope request) = standing.best :=
    contenders_of_best hleader
  have hPo : ∀ o ∈ outcomes, P o.1 := fun o ho =>
    hP _ (List.mem_append_left _ (List.mem_map_of_mem ho))
  have hPv : ∀ v ∈ standing.best, P v.candidate := fun v hv => hPo _ (hl.found v hv)
  obtain ⟨_, _, hcross⟩ := List.pairwise_append.1 hordered
  refine ⟨fun v hv => ?_, fun v hv c hc hlt => ?_, fun r values hanswer => ?_,
    fun more hmore hown => ?_, fun hvalue hambiguity => ?_⟩
  · exact hl.found v (hcontenders ▸ hv)
  · rw [hcontenders] at hv
    rcases List.mem_append.1 hc with hc | hc
    · obtain ⟨⟨c, result⟩, ho, rfl⟩ := List.mem_map.1 hc
      cases result with
      | error f => exact ⟨f, ho⟩
      | ok w =>
        rw [hl.level_all hcompare hPo ho hv] at hlt
        cases hlt
    · -- the rest was sorted after all that have been tried
      have hafter := hcross _ (List.mem_map_of_mem (hl.found v hv)) c hc
      exact absurd ((hcompare.gt_iff (hPv v hv) (hP c (List.mem_append_right _ hc))).2 hlt) hafter
  · rcases outcome_of_leader hleader with ⟨_, houtcome⟩ | ⟨hseveral, houtcome⟩
    · rw [houtcome] at hanswer
      cases hanswer
    · rw [houtcome] at hanswer
      cases hanswer
      exact ⟨rfl, hl.tie hcompare hPo (List.pairwise_append.1 husages).1 hseveral⟩
  · have hworse : ∀ o ∈ more,
        S.compareCandidates E scope request.ty o.1 leader.candidate = .gt := fun o ho =>
      worse_of_stopped hcompare hP hordered hleader (hPv leader (List.mem_of_head? hleader)) hstops
        o.1 (hmore ▸ List.mem_map_of_mem ho)
    have hbest : (standing.addAll E S request.ty (more.map (·.2))).best = standing.best :=
      best_addAll_of_worse hleader hworse hown
    obtain ⟨others, hothers⟩ := List.head?_eq_some_iff.1 hleader
    rw [List.map_append, addAll_append, hstanding, Standing.outcome, Standing.outcome, hbest,
      hothers]
    cases others <;> rfl
  · rcases outcome_of_leader hleader with ⟨_, houtcome⟩ | ⟨_, houtcome⟩
    · exact absurd houtcome (hvalue leader)
    · exact absurd houtcome (hambiguity request standing.best)

/-- The answer of a round of candidates in order of preference. -/
theorem preferred_of_round (hround : Round E S scope request.ty {} outcomes rest)
    (husages : (outcomes.map (·.1) ++ rest).Pairwise fun a b =>
      ((S.injectable a).usage == (S.injectable b).usage) = false)
    (hne : outcomes.map (·.1) ++ rest ≠ [])
    (hown : ∀ o ∈ outcomes, Own scope o ∧ ∀ r values, o.2 ≠ .error (.ambiguity r values)) :
    Preferred E S scope request outcomes rest
      ((Standing.addAll E S request.ty {} (outcomes.map (·.2))).outcome scope request) := by
  have hPo : ∀ o ∈ outcomes, P o.1 := fun o ho =>
    hP _ (List.mem_append_left _ (List.mem_map_of_mem ho))
  have hl : Leading E S scope request.ty
      (Standing.addAll E S request.ty {} (outcomes.map (·.2))).best outcomes :=
    hround.leading [] hcompare hPo (fun o ho => (hown o ho).1)
      (List.pairwise_append.1 hordered).1 leading_nil
  have hstops := hround.stops
  cases hleader : (Standing.addAll E S request.ty {} (outcomes.map (·.2))).best.head? with
  | some leader => exact preferred_of_leading hcompare hP hordered husages rfl hl hstops hleader
  | none =>
    -- without a leader nothing stops the round, so all have been tried
    have hrest : rest = [] := by
      cases rest with
      | nil => rfl
      | cons c rest =>
        have hbeats := hstops c rfl
        rw [Standing.beats, hleader] at hbeats
        cases hbeats
    subst hrest
    rw [List.append_nil, Ne, List.map_eq_nil_iff] at hne
    refine preferred_of_failed hne (fun o ho => ?_) (fun o ho => (hown o ho).2)
      (List.head?_eq_none_iff.1 hleader)
    obtain ⟨c, result⟩ := o
    cases result with
    | error f => exact ⟨f, rfl⟩
    | ok v =>
      obtain ⟨_, hmem, _⟩ := hl.level c v ho
      rw [hleader] at hmem
      cases hmem

end Order

/-! ### Choices -/

theorem ranked_singleton (E : Environment) (S : Session) (scope : ScopeId) (requested : Ty)
    (only : InjectableId) : ranked E S scope requested [only] = some [only] := by
  have hself : S.compareCandidates E scope requested only only = .eq := if_pos rfl
  rw [ranked, E.sorting.sort_singleton hself]
  rfl

/-- What is the only candidate is chosen as it would be among several. -/
theorem chooseWith_singleton (resolve : InjectableId → SearchM (Except Failure Resolved))
    (only : InjectableId) : chooseWith E resolve scope request [only] = resolve only := by
  funext s
  have houtcome : ∀ (result : Except Failure Resolved) (S : Session),
      (Standing.add E S request.ty {} result).outcome scope request = result := by
    intro result S
    cases result <;> rfl
  rw [run_chooseWith (ranked_singleton E s.session scope request.ty only)]
  change ((tryAllWith E resolve scope request {} [only] s).bind
    fun r => .ok (r.1.outcome scope request, r.2)) = resolve only s
  rw [run_tryAllWith]
  change ((resolve only s).bind fun r => .ok (Standing.add E r.2.session request.ty {} r.1, r.2)).bind
    _ = resolve only s
  cases hrun : resolve only s with
  | error stop => rfl
  | ok r => exact congrArg (fun result => Except.ok (result, r.2)) (houtcome r.1 r.2.session)

theorem resolveCandidates_eq_chooseWith (candidates : List InjectableId) :
    resolveCandidates E solve chain scope request candidates =
      chooseWith E (resolveCandidate E solve chain scope request) scope request candidates := by
  rw [resolveCandidates_eq]
  unfold resolveCandidatesWith
  split
  · exact (chooseWith_singleton _ _).symm
  · rfl

/-- By a consistent comparison candidates are tried in order of preference, and no two of them are of one
usage. -/
theorem pairwise_ranked
    (hcompare : Consistent (S.compareCandidates E scope requested) (· ∈ candidates))
    (hranked : ranked E S scope requested candidates = some sorted) :
    (sorted.Pairwise fun a b => S.compareCandidates E scope requested a b ≠ .gt) ∧
      sorted.Pairwise fun a b => ((S.injectable a).usage == (S.injectable b).usage) = false := by
  obtain ⟨ordered, hsort, rfl⟩ := Option.map_eq_some_iff.1 hranked
  obtain ⟨ordered', hsort', hpairwise⟩ := E.sorting.exists_sort hcompare
  cases hsort.symm.trans hsort'
  refine ⟨hpairwise.sublist (eraseDupsBy_sublist _ _), (pairwise_eraseDupsBy _ _).imp fun h => ?_⟩
  rw [usage_comm]
  exact h

/-- A choice among candidates that compare consistently goes through them in order of preference, of
those with one usage the best, until one is worse than a value found before; and the answer is one from
the best candidates. A single candidate is no special case. -/
theorem choice_preferred (h : Ready E n chain scope s) (hne : candidates ≠ [])
    (hc : ∀ c ∈ candidates, Usable s.session scope c)
    (hcompare : Consistent (s.session.compareCandidates E scope request.ty) (· ∈ candidates))
    {answer : Except Failure Resolved}
    (hrun : resolveCandidates E (Search.solve E depth) chain scope request candidates s =
      .ok (answer, s')) :
    chooseWith E (resolveCandidate E (Search.solve E depth) chain scope request) scope request
        candidates s = .ok (answer, s') ∧
      ∃ outcomes rest,
        ranked E s.session scope request.ty candidates = some (outcomes.map (·.1) ++ rest) ∧
        Trial E (Search.solve E depth) chain scope request s (outcomes.map (·.1))
          (outcomes.map (·.2)) s' ∧
        Preferred E s'.session scope request outcomes rest answer := by
  have hsolve := accountable_solve E depth
  rw [resolveCandidates_eq_chooseWith] at hrun
  refine ⟨hrun, ?_⟩
  obtain ⟨sorted, standing, hranked, htry, rfl⟩ := exists_sorted_of_choose hrun
  have hin : ∀ c ∈ sorted, c ∈ candidates := fun c h => mem_of_mem_ranked hranked h
  have hnone : Stands E s.session scope {} := List.forall_mem_nil _
  obtain ⟨outcomes, rest, rfl, hplayed, rfl⟩ := exists_played hsolve.leads h.sound h.scope
    (fun c hmem => hc c (hin c hmem)) hnone htry
  refine ⟨outcomes, rest, hranked, hplayed.trial, ?_⟩
  -- in the end the candidates compare as they did when they were sorted
  have hknown : ∀ c ∈ candidates, Known s.session c :=
    fun c hmem => known_of_usable h.sound h.scope (hc c hmem)
  have hsame : ∀ a b, a ∈ candidates → b ∈ candidates →
      s'.session.compareCandidates E scope request.ty a b =
        s.session.compareCandidates E scope request.ty a b := fun a b ha hb =>
    compareCandidates_eq hplayed.grows h.scope (hknown a ha) (hknown b hb) BEq.rfl
  obtain ⟨hpairwise, husages⟩ := pairwise_ranked hcompare hranked
  have hordered : (outcomes.map (·.1) ++ rest).Pairwise fun a b =>
      s'.session.compareCandidates E scope request.ty a b ≠ .gt := by
    refine hpairwise.imp_of_mem fun {a b} ha hb hab => ?_
    rw [hsame a b (hin a ha) (hin b hb)]
    exact hab
  have husages' : (outcomes.map (·.1) ++ rest).Pairwise fun a b =>
      ((s'.session.injectable a).usage == (s'.session.injectable b).usage) = false := by
    refine husages.imp_of_mem fun {a b} ha hb hab => ?_
    rw [hplayed.grows.injectable a (hknown a (hin a ha)).candidate,
      hplayed.grows.injectable b (hknown b (hin b hb)).candidate]
    exact hab
  have hmem : outcomes.map (·.1) ++ rest ≠ [] := by
    obtain ⟨c, hmem⟩ := List.exists_mem_of_ne_nil candidates hne
    obtain ⟨t, ht, _⟩ := exists_mem_ranked hranked hmem
    exact List.ne_nil_of_mem ht
  refine preferred_of_round (hcompare.congr hsame) hin hordered hplayed.round husages' hmem ?_
  exact own_of_trial hsolve h (fun o ho =>
    hc o.1 (hin o.1 (List.mem_append_left _ (List.mem_map_of_mem ho)))) hplayed.trial

/-- A search may start from every session that has come about, and may go on inside of any of its
candidates. -/
theorem ready_of_reachable (h : Reachable E S) (hscope : scope < S.scopes.size)
    (hchain : ∀ c ∈ chain, c < S.injectables.size) (divergences : Nat) :
    Ready E divergences chain scope { session := S, divergences } where
  sound := h.sound_everything
  explained := h.explained
  scope := hscope
  chain := hchain
  seen := Nat.le_refl _

/-! ### A ladder -/

def upper : Position where
  name := "upper"
  declarations := [needing "one" "Foo" ["A"], needing "two" "Foo" ["A"],
    needing "last" "Foo" ["A", "A"], needing "a" "A" []]

def lower : Position where
  name := "lower"
  parent := some 0
  declarations := [needing "broken" "Foo" ["Missing"]]

def rungs : Session :=
  ((addScope arena lower).run ((addScope arena upper).run {}).2).2

def ladder : Session :=
  ((Session.candidates arena 1 prize.ty []).run rungs).2

/-- The declaration of the lower scope is the best one and fails, the first two of the upper one tie,
and the last one is not tried. -/
theorem ladder_tie : Reachable arena ladder ∧ ∃ answer s',
    resolveCandidates arena (Search.solve arena 4) [] 1 prize [0, 1, 2, 3] { session := ladder } =
        .ok (answer, s') ∧
      (contenders answer).map (·.candidate) = [0, 1] ∧
      ∃ outcomes rest,
        ranked arena ladder 1 prize.ty [0, 1, 2, 3] = some (outcomes.map (·.1) ++ rest) ∧
        Preferred arena s'.session 1 prize outcomes rest answer := by
  have hrungs : Reachable arena rungs := .addScope (.addScope (.start arena) upper rfl) lower rfl
  have hplace : 1 < rungs.scopes.size := by decide +kernel
  have hladder : Reachable arena ladder := hrungs.candidates hplace prize.ty []
  have hfound : ((Session.candidates arena 1 prize.ty []).run rungs).1 = [0, 1, 2, 3] := by
    decide +kernel
  have hoffers := (leads_candidates (speaks_everything arena) (covers_everything prize.ty) []
    hrungs.sound_everything hplace).result
  rw [hfound] at hoffers
  have husable : ∀ c ∈ [0, 1, 2, 3], Usable ladder 1 c := fun c hc =>
    usable_of_offers hladder.sound_everything (hoffers c hc)
  have hcompare : Consistent (ladder.compareCandidates arena 1 prize.ty) (· ∈ [0, 1, 2, 3]) := by
    refine ⟨fun a _ => if_pos rfl, ?_, ?_⟩
    · have h : ∀ a ∈ [0, 1, 2, 3], ∀ b ∈ [0, 1, 2, 3],
          (ladder.compareCandidates arena 1 prize.ty a b).swap =
            ladder.compareCandidates arena 1 prize.ty b a := by decide +kernel
      exact fun a b ha hb => h a ha b hb
    · have h : ∀ a ∈ [0, 1, 2, 3], ∀ b ∈ [0, 1, 2, 3], ∀ c ∈ [0, 1, 2, 3],
          ladder.compareCandidates arena 1 prize.ty a b = .lt →
            ladder.compareCandidates arena 1 prize.ty b c ≠ .gt →
              ladder.compareCandidates arena 1 prize.ty a c = .lt := by decide +kernel
      exact fun a b c ha hb hc => h a ha b hb c hc
  have hties : (resolveCandidates arena (Search.solve arena 4) [] 1 prize [0, 1, 2, 3]
      { session := ladder }).toOption.any (fun r =>
        decide ((contenders r.1).map (·.candidate) = [0, 1])) = true := by decide +kernel
  obtain ⟨⟨answer, s'⟩, hrun, hvalues⟩ := exists_ok_of_any hties
  obtain ⟨_, outcomes, rest, hsplit, _, hpreferred⟩ := choice_preferred
    (ready_of_reachable hladder (by decide +kernel) (List.forall_mem_nil _) 0) (by decide) husable
    hcompare hrun
  exact ⟨hladder, answer, s', hrun, of_decide_eq_true hvalues, outcomes, rest, hsplit, hpreferred⟩

end Search
end Wiring
