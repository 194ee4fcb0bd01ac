import Wiring.Proofs.Search.Counting
import Wiring.Proofs.Search.Termination

namespace Wiring

/-- What a request of a call site came to. -/
abbrev Outcome := Request × Except Failure Resolved

/-- Resolve requests one after the other, and give what each came to and the session that the last
one has left behind. -/
def Session.resolveInTurn (E : Environment) (depth : Nat) (scope : ScopeId) :
    List Request → Session → Except Stop (List Outcome × Session)
  | [], S => .ok ([], S)
  | request :: rest, S => do
    let (result, S) ← S.resolve E depth scope request
    (resolveInTurn E depth scope rest S).map fun (outcomes, S) => ((request, result) :: outcomes, S)

namespace CallSite

variable {scope : ScopeId} {outcomes done : List Outcome} {request r x : Request} {f g : Failure}
  {v : Resolved} {results : List (Request × Option Resolved)} {worst : Option (Request × Failure)}

def Foremost (outcomes : List Outcome) (r : Request) (f : Failure) : Prop :=
  r.required = true ∧ ∃ before after, outcomes = before ++ (r, .error f) :: after ∧
    (∀ x g, (x, .error g) ∈ before → x.required = true → f.rank < g.rank) ∧
    ∀ x g, (x, .error g) ∈ after → x.required = true → f.rank ≤ g.rank

/-- What a call site says of the outcomes of its requests. -/
structure Reports (scope : ScopeId) (outcomes : List Outcome) (site : CallSite) : Prop where
  fails : site.isFilled = false ↔ ∃ r f, (r, .error f) ∈ outcomes ∧ r.required = true
  failed : ∀ place r f, site = .failed place r f → place = scope ∧ Foremost outcomes r f
  filled : ∀ place results, site = .filled place results →
    place = scope ∧ results = outcomes.map fun o => (o.1, o.2.toOption)

/-! ### The foremost failure -/

theorem Foremost.mem (h : Foremost outcomes r f) : (r, .error f) ∈ outcomes := by
  obtain ⟨-, before, after, rfl, -, -⟩ := h
  simp

/-- No required request fails with a lower rank. -/
theorem Foremost.rank_le (h : Foremost outcomes r f) (hx : (x, .error g) ∈ outcomes)
    (hr : x.required = true) : f.rank ≤ g.rank := by
  obtain ⟨-, before, after, rfl, hbefore, hafter⟩ := h
  rcases List.mem_append.1 hx with hx | hx
  · exact Nat.le_of_lt (hbefore x g hx hr)
  · rcases List.mem_cons.1 hx with he | hx
    · cases he
      exact Nat.le_refl _
    · exact hafter x g hx hr

/-- A later outcome does not come before it unless it is of lower rank. -/
theorem Foremost.keep {o : Outcome} (h : Foremost done r f)
    (ho : ∀ g, o.2 = .error g → o.1.required = true → f.rank ≤ g.rank) :
    Foremost (done ++ [o]) r f := by
  obtain ⟨hr, before, after, rfl, hbefore, hafter⟩ := h
  refine ⟨hr, before, after ++ [o], by simp, hbefore, fun x g hx hxr => ?_⟩
  rcases List.mem_append.1 hx with hx | hx
  · exact hafter x g hx hxr
  · obtain rfl := List.mem_singleton.1 hx
    exact ho g rfl hxr

/-- A failure that is of lower rank than all before it takes their place. -/
theorem foremost_last (hr : r.required = true)
    (h : ∀ x g, (x, .error g) ∈ done → x.required = true → f.rank < g.rank) :
    Foremost (done ++ [(r, .error f)]) r f :=
  ⟨hr, done, [], rfl, h, fun _ _ hx => absurd hx List.not_mem_nil⟩

/-! ### One request after the other -/

def filled? (o : Outcome) : Option (Request × Option Resolved) :=
  match o.2 with
  | .ok v => some (o.1, some v)
  | .error _ => if o.1.required then none else some (o.1, none)

structure Collected (done : List Outcome) (results : List (Request × Option Resolved))
    (worst : Option (Request × Failure)) : Prop where
  -- What has been collected of the outcomes so far: the results, and the failure to report.
  results : results = done.filterMap filled?
  clean : worst = none → ∀ x g, (x, .error g) ∈ done → x.required = false
  foremost : ∀ r f, worst = some (r, f) → Foremost done r f

theorem collected_nil : Collected [] [] none :=
  ⟨rfl, fun _ _ _ h => absurd h List.not_mem_nil, nofun⟩

/-- A value, or the failure of a request that is not required, adds an entry. -/
theorem Collected.fill {o : Outcome} {e : Request × Option Resolved}
    (h : Collected done results worst) (he : filled? o = some e) :
    Collected (done ++ [o]) (results ++ [e]) worst := by
  have hoptional : ∀ g, o.2 = .error g → o.1.required = false := by
    intro g hg
    by_contra hr
    simp [filled?, hg, hr] at he
  refine ⟨?_, fun hn x g hx => ?_, fun r f hw => (h.foremost r f hw).keep fun g hg hr => ?_⟩
  · rw [List.filterMap_append, ← h.results, List.filterMap_cons, he, List.filterMap_nil]
  · rcases List.mem_append.1 hx with hx | hx
    · exact h.clean hn x g hx
    · obtain rfl := List.mem_singleton.1 hx
      exact hoptional g rfl
  · rw [hoptional g hg] at hr
    cases hr

/-- The failure of a required request adds none. -/
theorem Collected.results_fail (h : Collected done results worst) (hr : request.required = true)
    (f : Failure) : results = (done ++ [(request, Except.error f)]).filterMap filled? := by
  rw [List.filterMap_append, ← h.results]
  simp [filled?, hr]

/-- It is reported if no required request has failed before. -/
theorem Collected.fail_first (h : Collected done results none) (hr : request.required = true)
    (f : Failure) : Collected (done ++ [(request, .error f)]) results (some (request, f)) := by
  refine ⟨h.results_fail hr f, nofun, fun r w hw => ?_⟩
  obtain ⟨rfl, rfl⟩ := Prod.mk.inj (Option.some.inj hw)
  refine foremost_last hr fun x g hx hxr => ?_
  rw [h.clean rfl x g hx] at hxr
  cases hxr

/-- Otherwise it is reported if it outranks what was to be reported before. -/
theorem Collected.fail_again (h : Collected done results (some (r, g)))
    (hr : request.required = true) (f : Failure) :
    Collected (done ++ [(request, .error f)]) results
      (some (if f.outranks g then (request, f) else (r, g))) := by
  refine ⟨h.results_fail hr f, nofun, fun r' w hw => ?_⟩
  have hbest := h.foremost r g rfl
  split at hw
  · next houtranks =>
    obtain ⟨rfl, rfl⟩ := Prod.mk.inj (Option.some.inj hw)
    have hlt : f.rank < g.rank := by simpa [Failure.outranks] using houtranks
    exact foremost_last hr fun x w hx hxr => Nat.lt_of_lt_of_le hlt (hbest.rank_le hx hxr)
  · next houtranks =>
    obtain ⟨rfl, rfl⟩ := Prod.mk.inj (Option.some.inj hw)
    refine hbest.keep fun w hw _ => ?_
    obtain rfl := Except.error.inj hw
    simpa [Failure.outranks] using houtranks

/-- What is made of all that has been collected in the end. -/
theorem Collected.reports_filled (h : Collected outcomes results none) :
    Reports scope outcomes (.filled scope results) where
  fails := by
    refine ⟨nofun, fun ⟨x, g, hx, hr⟩ => ?_⟩
    rw [h.clean rfl x g hx] at hr
    cases hr
  failed := nofun
  filled place results' he := by
    cases he
    refine ⟨rfl, ?_⟩
    rw [h.results, ← List.filterMap_eq_map]
    apply List.filterMap_congr
    rintro ⟨r, result⟩ hmem
    cases result with
    | ok v => rfl
    | error g => simp [filled?, h.clean rfl r g hmem, Except.toOption]

theorem Collected.reports_failed (h : Collected outcomes results (some (r, f))) :
    Reports scope outcomes (.failed scope r f) where
  fails := ⟨fun _ => ⟨r, f, (h.foremost r f rfl).mem, (h.foremost r f rfl).1⟩, fun _ => rfl⟩
  failed place r' f' he := by
    cases he
    exact ⟨rfl, h.foremost r f rfl⟩
  filled := nofun

end CallSite

/-! ### The search -/

namespace Search

open CallSite Session

variable {E : Environment} {s : Search} {scope : ScopeId}

inductive AgreeOn (scope : ScopeId) (done : List Outcome) :
    Except Stop (CallSite × Search) → Except Stop (List Outcome × Session) → Prop
  -- Both runs stop for the same reason, or the search makes of the outcomes what a call site should
  -- say of them, and the sessions are the same.
  | stop (stop : Stop) : AgreeOn scope done (.error stop) (.error stop)
  | site {site : CallSite × Search} {turn : List Outcome × Session}
      (session : site.2.session = turn.2) (reports : Reports scope (done ++ turn.1) site.1) :
      AgreeOn scope done (.ok site) (.ok turn)

theorem AgreeOn.cons {done : List Outcome} {o : Outcome} {sites : Except Stop (CallSite × Search)}
    {turns : Except Stop (List Outcome × Session)} (h : AgreeOn scope (done ++ [o]) sites turns) :
    AgreeOn scope done sites (turns.map fun t => (o :: t.1, t.2)) := by
  cases h with
  | stop stop => exact .stop stop
  | site hsession hreports => exact .site hsession (by simpa using hreports)

/-- Filling the requests of a call site goes through them in turn. -/
theorem solveAll_agrees (E : Environment) (depth : Nat) (scope : ScopeId) (requests : List Request)
    {done : List Outcome} {results : List (Request × Option Resolved)}
    {worst : Option (Request × Failure)} (h : Collected done results worst) (s : Search) :
    AgreeOn scope done (solveAll E depth scope requests results worst s)
      (resolveInTurn E depth scope requests s.session) := by
  induction requests generalizing done results worst s with
  | nil =>
    rcases worst with _ | ⟨r, f⟩
    · exact .site rfl (by simpa using h.reports_filled)
    · exact .site rfl (by simpa using h.reports_failed)
  | cons request rest ih =>
    rw [solveAll, resolveInTurn, resolve]
    -- the divergences seen by the requests before do not bear on this one
    change AgreeOn scope done ((solve E depth [] scope request s).bind _) _
    rw [run_solve_eq depth s]
    simp only [StateT.run]
    cases hstart : solve E depth [] scope request { session := s.session } with
    | error stop => exact .stop stop
    | ok r =>
      obtain ⟨result, s'⟩ := r
      let later := s'.diverged s.divergences
      have hgoOn : ∀ (results : List (Request × Option Resolved))
          (worst : Option (Request × Failure)),
          Collected (done ++ [(request, result)]) results worst →
            AgreeOn scope done (solveAll E depth scope rest results worst later)
              ((resolveInTurn E depth scope rest s'.session).map fun t =>
                ((request, result) :: t.1, t.2)) :=
        fun results worst h => (ih h later).cons
      cases result with
      | ok v => exact hgoOn _ _ (h.fill rfl)
      | error failure =>
        change AgreeOn scope done
          ((if request.required then _ else _ : SearchM CallSite) later) _
        split
        · next hr =>
          rcases worst with _ | ⟨r, g⟩
          · exact hgoOn _ _ (h.fail_first hr failure)
          · exact hgoOn _ _ (h.fail_again hr failure)
        · next hr => exact hgoOn _ _ (h.fill (e := (request, none)) (by simp [filled?, hr]))

end Search

/-! ### Call sites -/

namespace Session

open CallSite Search

variable {E : Environment} {S S' : Session} {scope : ScopeId} {outcomes : List Outcome}

theorem map_fst_resolveInTurn {depth : Nat} {requests : List Request}
    (h : S.resolveInTurn E depth scope requests = .ok (outcomes, S')) :
    outcomes.map (·.1) = requests := by
  induction requests generalizing S outcomes with
  | nil =>
    cases h
    rfl
  | cons request rest ih =>
    obtain ⟨first, -, hrest⟩ := bind_eq_ok_iff.1 h
    obtain ⟨turn, hturn, he⟩ := map_eq_ok_iff.1 hrest
    obtain ⟨rfl, rfl⟩ := Prod.mk.inj he
    rw [List.map_cons, ih hturn]

/-- Both ways to go through requests stop for the same reason, or they come to the same session and the
call site reports what the requests have come to. -/
theorem resolveAll_agrees (E : Environment) (depth : Nat) (S : Session) (scope : ScopeId)
    (requests : List Request) :
    (∃ stop, S.resolveAll E depth scope requests = .error stop ∧
      S.resolveInTurn E depth scope requests = .error stop) ∨
    ∃ site outcomes S', S.resolveAll E depth scope requests = .ok (site, S') ∧
      S.resolveInTurn E depth scope requests = .ok (outcomes, S') ∧ site.Reports scope outcomes := by
  have hagree := solveAll_agrees E depth scope requests collected_nil { session := S }
  rw [resolveAll, StateT.run]
  generalize solveAll E depth scope requests [] none { session := S } = sites at hagree ⊢
  generalize S.resolveInTurn E depth scope requests = turns at hagree ⊢
  cases hagree with
  | stop stop => exact Or.inl ⟨stop, rfl, rfl⟩
  | @site site turn hsession hreports =>
    refine Or.inr ⟨site.1, turn.1, turn.2, ?_, rfl, hreports⟩
    rw [← hsession]
    rfl

/-- The requests of a call site come to what they come to when they are resolved one after the
other, each in the session that the one before has left behind. The site fails just if a required
request does, and reports the earliest of these whose failure has the lowest rank; otherwise it has
one entry for each request in their order, its value or, for an optional one that fails, none. -/
theorem resolveAll_reports (E : Environment) (S : Session) (scope : ScopeId)
    (requests : List Request) :
    (∀ d site S', S.resolveAll E d scope requests = .ok (site, S') →
      ∃ outcomes, S.resolveInTurn E d scope requests = .ok (outcomes, S') ∧
        outcomes.map (·.1) = requests ∧ site.Reports scope outcomes) ∧
    (∀ d outcomes S', S.resolveInTurn E d scope requests = .ok (outcomes, S') →
      ∃ site, S.resolveAll E d scope requests = .ok (site, S')) ∧
    (∀ d stop, S.resolveAll E d scope requests = .error stop ↔
      S.resolveInTurn E d scope requests = .error stop) ∧
    (Reachable E S → E.host.MentionsFinitely → scope < S.scopes.size →
      S.Settles E fun d => S.resolveAll E d scope requests) := by
  refine ⟨fun d site S' hsite => ?_, fun d outcomes S' hturn => ?_, fun d stop => ?_,
    fun hR hf hs => (resolve_halts hR hf hs).2 requests⟩
  · rcases resolveAll_agrees E d S scope requests with
      ⟨stop, hstop, -⟩ | ⟨_, outcomes, _, hrun, hturn, h⟩
    · cases hstop.symm.trans hsite
    · cases hrun.symm.trans hsite
      exact ⟨outcomes, hturn, map_fst_resolveInTurn hturn, h⟩
  · rcases resolveAll_agrees E d S scope requests with
      ⟨stop, -, hstop⟩ | ⟨site, _, _, hrun, hturn', -⟩
    · cases hstop.symm.trans hturn
    · cases hturn'.symm.trans hturn
      exact ⟨site, hrun⟩
  · rcases resolveAll_agrees E d S scope requests with
      ⟨stop, hsite, hturn⟩ | ⟨_, _, _, hsite, hturn, -⟩
    · rw [hsite, hturn, Except.error.injEq, Except.error.injEq]
    · rw [hsite, hturn]
      exact ⟨fun h => (nomatch h), fun h => (nomatch h)⟩

def kiosk : Session :=
  ((addScope {} {
    name := "kiosk"
    declarations := [{ id := "one", ty := .of ⟨"Foo", 0⟩ }, { id := "two", ty := .of ⟨"Foo", 0⟩ },
      { id := "bar", ty := .of ⟨"Bar", 0⟩ }]
    }).run {}).2

def parameterOf (name key : String) (index : Nat) : Request where
  ty := .of ⟨key, 0⟩
  callable := "main"
  name
  slot := .value index

def errands : List Request :=
  -- The parameters of a call site: there is nothing for the first, one candidate for the second,
  -- two for the third, and the last one may stay as it is.
  [parameterOf "missing" "Baz" 0, parameterOf "bar" "Bar" 1, parameterOf "foo" "Foo" 2,
    (parameterOf "spare" "Baz" 3).optional]

/-- The ambiguity is reported, although nothing was found for an earlier request. -/
theorem errands_reports : Reachable {} kiosk ∧ 0 < kiosk.scopes.size ∧
    kiosk.Settles {} (fun d => kiosk.resolveAll {} d 0 errands) ∧
    ∃ outcomes site S', kiosk.resolveInTurn {} 2 0 errands = .ok (outcomes, S') ∧
      outcomes.map (·.1) = errands ∧
      kiosk.resolveAll {} 2 0 errands = .ok (site, S') ∧ site.Reports 0 outcomes ∧
      site.failure?.map Failure.rank = some 0 := by
  have hR : Reachable {} kiosk := .addScope (.start {}) _ rfl
  have hf : Host.MentionsFinitely {} := HostTables.host_mentionsFinitely {}
  have hs : 0 < kiosk.scopes.size := by decide +kernel
  have hrank : (kiosk.resolveAll {} 2 0 errands).toOption.any
      (fun r => r.1.failure?.map Failure.rank == some 0) = true := by decide +kernel
  obtain ⟨⟨site, S'⟩, hsite, hrank⟩ := exists_ok_of_any hrank
  obtain ⟨hreports, -, -, hsettles⟩ := resolveAll_reports {} kiosk 0 errands
  obtain ⟨outcomes, hturn, hnames, hsite'⟩ := hreports 2 site S' hsite
  exact ⟨hR, hs, hsettles hR hf hs, outcomes, site, S', hturn, hnames, hsite, hsite',
    beq_iff_eq.1 hrank⟩

end Session

end Wiring
