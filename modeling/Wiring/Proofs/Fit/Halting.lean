import Mathlib.Logic.Function.Iterate
import Mathlib.Tactic.Ring
import Wiring.Proofs.Fit.Levels
import Wiring.Proofs.Fit.Solution
import Wiring.Proofs.Types.Views

/-!
Between two of its bindings each level of a walk goes down into one of the types or into a value,
from which less is reached, and there are no more bindings than variables (`potential_lt`).
-/
namespace Wiring.Fit

open Ty Catalog UnionFind

variable {K : Catalog} {statics vars : List Classifier} {M : Nat} {U : UnionFind} {b b' : U.Table}
  {v w : Classifier} {c r t x y value : Ty} {variance : Variance}

/-! ### The measure -/

noncomputable def extent (K : Catalog) (vars : List Classifier) (M : Nat) (b : U.Table) (t : Ty) :
    Nat :=
  (reached K vars b t).length * (M + 1) + t.size

theorem extent_lt (K : Catalog) (vars : List Classifier) (b : U.Table) (ht : t.size ≤ M) :
    extent K vars M b t < (vars.length + 1) * (M + 1) := by
  have hle := Nat.mul_le_mul_right (M + 1) (length_reached_le K vars b t)
  rw [Nat.add_mul, Nat.one_mul, extent]
  omega

/-- A type without other variables is of no larger extent than its size allows. -/
theorem extent_add_le (K : Catalog) (vars : List Classifier) (M : Nat) (b : U.Table)
    (h : ∀ w ∈ variablesIn K vars x, w ∈ variablesIn K vars t) :
    extent K vars M b x + t.size ≤ extent K vars M b t + x.size := by
  have hlen := (reached_sublist (b := b) fun v => Reaches.mono h (v := v)).length_le
  have hle := Nat.mul_le_mul_right (M + 1) hlen
  rw [extent, extent]
  omega

theorem extent_argument (hs : t.isStar = false) (hx : x ∈ t.arguments) :
    extent K vars M b x < extent K vars M b t := by
  have hle := extent_add_le K vars M b (x := x) (t := t) fun w hw => by
    obtain ⟨d, hd, hfind⟩ := mem_variablesIn.1 hw
    exact mem_variablesIn.2 ⟨d, mem_classifiers_of_argument hs hx hd, hfind⟩
  have hlt := size_lt_of_mem_arguments hx
  omega

theorem extent_tag (hs : t.isStar = false) (hx : x ∈ t.tags) :
    extent K vars M b x < extent K vars M b t := by
  have hle := extent_add_le K vars M b (x := x) (t := t) fun w hw => by
    obtain ⟨d, hd, hfind⟩ := mem_variablesIn.1 hw
    exact mem_variablesIn.2 ⟨d, mem_classifiers_of_tag hs hx hd, hfind⟩
  have hlt := size_lt_of_mem_tags hx
  omega

theorem Pared.extent_le (h : Pared value t) : extent K vars M b value ≤ extent K vars M b t := by
  have hle := extent_add_le K vars M b fun _ => h.mem_variablesIn
  have := h.size_le
  omega

/-- From a value less is reached, which outweighs its size. -/
theorem Fine.extent_value (hb : Fine K vars M b) (hv : asVariable? K vars t = some v)
    (hx : U.value? b v = some x) : extent K vars M b x < extent K vars M b t := by
  have hlt := hb.triangular.length_reached_lt (mem_variablesIn_of_asVariable hv) hx
  have hsmall := hb.small v x hx
  have hle := Nat.mul_le_mul_right (M + 1) (Nat.succ_le_of_lt hlt)
  rw [Nat.succ_mul] at hle
  rw [extent, extent]
  omega

/-- What a level compares is of smaller extent than its sides. -/
theorem extent_compares (hb : Fine K vars M b) (hcs : c.isStar = false) (hrs : r.isStar = false)
    (h : Compares K vars .invariant c r b x y) :
    extent K vars M b x + extent K vars M b y < extent K vars M b c + extent K vars M b r := by
  cases h with
  | tags left right => exact Nat.add_lt_add (extent_tag hcs left) (extent_tag hrs right)
  | arguments viewed left right =>
    obtain ⟨-, rfl⟩ := of_viewFor_invariant viewed
    exact Nat.add_lt_add (extent_argument hcs left) (extent_argument hrs right)
  | values left right valueLeft valueRight =>
    exact Nat.add_lt_add (hb.extent_value left valueLeft) (hb.extent_value right valueRight)
  | valuesSwapped left right valueLeft valueRight =>
    have hx := hb.extent_value left valueLeft
    have hy := hb.extent_value right valueRight
    omega
  | requested right valueRight pared =>
    have hx := hb.extent_value right valueRight
    have hy : extent K vars M b y ≤ extent K vars M b c := pared.extent_le
    omega
  | candidate left valueLeft pared =>
    exact Nat.add_lt_add_of_lt_of_le (hb.extent_value left valueLeft) pared.extent_le

theorem size_of_compares (hb : Fine K vars M b) (hc : c.size ≤ M) (hr : r.size ≤ M)
    (hview : ∀ view, viewFor? K variance c r = some view → view.size ≤ M)
    (h : Compares K vars variance c r b x y) : x.size ≤ M ∧ y.size ≤ M := by
  cases h with
  | tags left right =>
    exact ⟨Nat.le_trans (Nat.le_of_lt (size_lt_of_mem_tags left)) hc,
      Nat.le_trans (Nat.le_of_lt (size_lt_of_mem_tags right)) hr⟩
  | arguments viewed left right =>
    exact ⟨Nat.le_trans (Nat.le_of_lt (size_lt_of_mem_arguments left)) (hview _ viewed),
      Nat.le_trans (Nat.le_of_lt (size_lt_of_mem_arguments right)) hr⟩
  | values left right valueLeft valueRight =>
    exact ⟨hb.small _ _ valueLeft, hb.small _ _ valueRight⟩
  | valuesSwapped left right valueLeft valueRight =>
    exact ⟨hb.small _ _ valueRight, hb.small _ _ valueLeft⟩
  | requested right valueRight pared =>
    exact ⟨hb.small _ _ valueRight, Nat.le_trans pared.size_le hc⟩
  | candidate left valueLeft pared =>
    exact ⟨hb.small _ _ valueLeft, Nat.le_trans pared.size_le hr⟩

theorem size_of_viewFor_invariant (hc : c.size ≤ M) (view : Ty)
    (h : viewFor? K .invariant c r = some view) : view.size ≤ M := by
  rwa [(of_viewFor_invariant h).2]

def span (vars : List Classifier) (M : Nat) : Nat :=
  2 * ((vars.length + 1) * (M + 1))

noncomputable def potential (K : Catalog) (vars : List Classifier) (M : Nat) (b : U.Table)
    (c r : Ty) : Nat :=
  (vacant vars b).length * span vars M + (extent K vars M b c + extent K vars M b r)

theorem potential_lt_span (K : Catalog) (vars : List Classifier) (b : U.Table) (hc : c.size ≤ M)
    (hr : r.size ≤ M) :
    potential K vars M b c r < ((vacant vars b).length + 1) * span vars M := by
  have hcl := extent_lt K vars b hc
  have hrl := extent_lt K vars b hr
  rw [potential, Nat.add_mul, Nat.one_mul]
  unfold span
  omega

/-- A comparison further on has less left of the walk, if it is of smaller extent in the bindings that
have been come to by then. -/
theorem potential_lt (hb : Evolves K vars M b b') (hx : x.size ≤ M) (hy : y.size ≤ M)
    (h : extent K vars M b' x + extent K vars M b' y <
      extent K vars M b' c + extent K vars M b' r) :
    potential K vars M b' x y < potential K vars M b c r := by
  rcases hb.advances with rfl | hlt
  · exact Nat.add_lt_add_left h _
  · have hspan := potential_lt_span K vars b' hx hy
    have hle := Nat.mul_le_mul_right (span vars M) (Nat.succ_le_of_lt hlt)
    rw [potential]
    exact Nat.lt_of_lt_of_le hspan (Nat.le_trans hle (Nat.le_add_right _ _))

/-! ### Walks -/

/-- A walk that may go deep enough never goes too deep, and does the same however deep it may go. -/
theorem tracks_walk_invariant {d d' : Nat} (hb : Fine K vars M b) (hc : c.size ≤ M)
    (hr : r.size ≤ M) (hd : potential K vars M b c r < d) (hd' : potential K vars M b c r < d') :
    Tracks K vars M False b (walk K vars d .invariant c r b) (walk K vars d' .invariant c r b) := by
  induction d generalizing d' b c r with
  | zero => exact absurd hd (Nat.not_lt_zero _)
  | succ d ih =>
    obtain ⟨d', rfl⟩ := Nat.exists_eq_add_one_of_ne_zero (Nat.ne_zero_of_lt hd')
    refine tracks_step hb hc hr fun hcs hrs b' x y hb' hxy => ?_
    obtain ⟨hx, hy⟩ :=
      size_of_compares hb'.fine hc hr (size_of_viewFor_invariant hc) hxy
    have hlt := potential_lt hb' hx hy (extent_compares hb'.fine hcs hrs hxy)
    exact ih hb'.fine hx hy (by omega) (by omega)

theorem tracks_walk {d d' : Nat} (hb : Fine K vars M b) (hc : c.size ≤ M) (hr : r.size ≤ M)
    (hview : ∀ view, viewFor? K variance c r = some view → view.size ≤ M)
    (hd : ((vacant vars b).length + 1) * span vars M < d)
    (hd' : ((vacant vars b).length + 1) * span vars M < d') :
    Tracks K vars M False b (walk K vars d variance c r b) (walk K vars d' variance c r b) := by
  obtain ⟨d, rfl⟩ := Nat.exists_eq_add_one_of_ne_zero (Nat.ne_zero_of_lt hd)
  obtain ⟨d', rfl⟩ := Nat.exists_eq_add_one_of_ne_zero (Nat.ne_zero_of_lt hd')
  refine tracks_step hb hc hr fun _ _ b' x y hb' hxy => ?_
  obtain ⟨hx, hy⟩ := size_of_compares hb'.fine hc hr hview hxy
  -- the parts of a view need not be of small extent, but all are of no more than the span
  have hspan := potential_lt_span K vars b' hx hy
  have hlen : (vacant vars b').length ≤ (vacant vars b).length := by
    rcases hb'.advances with rfl | hlt
    · exact Nat.le_refl _
    · exact Nat.le_of_lt hlt
  have hle := Nat.mul_le_mul_right (span vars M) (Nat.succ_le_succ hlen)
  simp only [Nat.succ_eq_add_one] at hle
  exact tracks_walk_invariant hb'.fine hx hy (by omega) (by omega)

/-- Of bindings in triangular form there are as many values as variables at most. -/
theorem Triangular.exists_fine (hb : Triangular K vars b) (variance : Variance) (c r : Ty) :
    ∃ M, Fine K vars M b ∧ c.size ≤ M ∧ r.size ≤ M ∧
      ∀ view, viewFor? K variance c r = some view → view.size ≤ M := by
  let values := vars.filterMap (U.value? b)
  let view := (viewFor? K variance c r).getD c
  have hvalue : ∀ v t, U.value? b v = some t → t.size ≤ totalSize values := by
    intro v t hv
    obtain ⟨u, hu, hk⟩ := List.contains_iff_exists_mem_beq.1 (hb.bound v t hv)
    have huv := U.value_eq (U.key_representative b (Classifier.beq_iff_key_eq.1 hk))
    exact size_le_total (List.mem_filterMap.2 ⟨u, hu, huv.symm.trans hv⟩)
  refine ⟨totalSize values + c.size + r.size + view.size, ⟨hb, fun v t hv => ?_⟩, by omega, by omega,
    fun view' hview => ?_⟩
  · have := hvalue v t hv
    omega
  · have hsame : view = view' := congrArg (Option.getD · c) hview
    rw [hsame]
    omega

/-- From triangular bindings a walk ends, and does the same if it may go deeper. -/
theorem Triangular.walk_ends (hb : Triangular K vars b) (variance : Variance) (c r : Ty) :
    ∃ d₀, walk K vars d₀ variance c r b ≠ .error .tooDeep ∧
      ∀ d, d₀ ≤ d → walk K vars d variance c r b = walk K vars d₀ variance c r b := by
  obtain ⟨M, hfine, hc, hr, hview⟩ := hb.exists_fine variance c r
  let d₀ := ((vacant vars b).length + 1) * span vars M + 1
  have htracks : ∀ d, d₀ ≤ d → Tracks K vars M False b (walk K vars d₀ variance c r b)
      (walk K vars d variance c r b) := fun d hd =>
    tracks_walk hfine hc hr hview (Nat.lt_succ_self _) hd
  have hends := (htracks d₀ (Nat.le_refl _)).bounded
  exact ⟨d₀, hends, fun d hd => ((htracks d hd).eq hends).symm⟩

/-- A walk that does not go too deep does the same if it may go deeper. -/
theorem tracks_walk_add (d n : Nat) (hb : Fine K vars M b) (hc : c.size ≤ M) (hr : r.size ≤ M)
    (hview : ∀ view, viewFor? K variance c r = some view → view.size ≤ M) :
    Tracks K vars M True b (walk K vars d variance c r b) (walk K vars (d + n) variance c r b) := by
  induction d generalizing variance b c r with
  | zero => exact tracks_tooDeep
  | succ d ih =>
    rw [Nat.succ_add]
    refine tracks_step hb hc hr fun _ _ b' x y hb' hxy => ?_
    obtain ⟨hx, hy⟩ := size_of_compares hb'.fine hc hr hview hxy
    exact ih hb'.fine hx hy (size_of_viewFor_invariant hx)

theorem Triangular.walk_mono (hb : Triangular K vars b) {d d' : Nat} (hd : d ≤ d')
    (h : walk K vars d variance c r b ≠ .error .tooDeep) :
    walk K vars d' variance c r b = walk K vars d variance c r b := by
  obtain ⟨M, hfine, hc, hr, hview⟩ := hb.exists_fine variance c r
  obtain ⟨n, rfl⟩ := Nat.exists_eq_add_of_le hd
  exact ((tracks_walk_add d n hfine hc hr hview).eq h).symm

/-- A walk keeps bindings in triangular form. -/
theorem Triangular.walk (hb : Triangular K vars b) {d : Nat}
    (h : walk K vars d variance c r b = .ok b') : Triangular K vars b' := by
  obtain ⟨M, hfine, hc, hr, hview⟩ := hb.exists_fine variance c r
  exact ((tracks_walk_add d 0 hfine hc hr hview).evolves b' h).fine.triangular

/-! ### A watched walk -/

def watch (accept : U.Table → Bool) (compare : Compare U) : Compare U := fun variance c r b => do
  if accept b then
    let b' ← compare variance c r b
    if accept b' then .ok b' else .error .tooDeep
  else .error .tooDeep

/-- The walk, with all bindings watched that it comes to. -/
def watchedWalk (K : Catalog) (vars : List Classifier) (accept : U.Table → Bool) :
    (depth : Nat) → Compare U
  | 0 => fun _ _ _ _ => .error .tooDeep
  | depth + 1 => watch accept (step K vars (watchedWalk K vars accept depth))

theorem tracks_watchedWalk {accept : U.Table → Bool}
    (haccept : ∀ b, Triangular K vars b → accept b = true) (d : Nat) (hb : Fine K vars M b)
    (hc : c.size ≤ M) (hr : r.size ≤ M)
    (hview : ∀ view, viewFor? K variance c r = some view → view.size ≤ M) :
    Tracks K vars M True b (walk K vars d variance c r b)
      (watchedWalk K vars accept d variance c r b) := by
  induction d generalizing variance b c r with
  | zero => exact tracks_tooDeep
  | succ d ih =>
    have hstep : Tracks K vars M True b (step K vars (walk K vars d) variance c r b)
        (step K vars (watchedWalk K vars accept d) variance c r b) :=
      tracks_step hb hc hr fun _ _ b' x y hb' hxy => by
        obtain ⟨hx, hy⟩ := size_of_compares hb'.fine hc hr hview hxy
        exact ih hb'.fine hx hy (size_of_viewFor_invariant hx)
    refine ⟨?_, hstep.evolves, hstep.bounded⟩
    refine hstep.same.imp_left fun hsame => ?_
    rw [watchedWalk, watch, if_pos (haccept b hb.triangular), ← hsame]
    cases hwalk : step K vars (walk K vars d) variance c r b with
    | error stop => exact hwalk
    | ok b' =>
      have hb' := (hstep.evolves b' hwalk).fine.triangular
      change walk K vars (d + 1) variance c r b = if accept b' then _ else _
      rw [if_pos (haccept b' hb')]
      exact hwalk

/-! ### Fits -/

theorem fine_start : Fine K vars M U.start where
  triangular := triangular_start
  small _ _ h := absurd h value_start_ne

/-- The depth that a fit asks for is enough. -/
theorem walk_depth_ne (U : UnionFind) (K : Catalog) (vars : List Classifier) (c r : Ty) {d : Nat}
    (hd : depth K vars c r ≤ d) : walk K vars d .covariant c r U.start ≠ .error .tooDeep := by
  let view := (K.view? c r.classifier).getD c
  let M := c.size + view.size + r.size
  have hview : ∀ view', viewFor? K .covariant c r = some view' → view'.size ≤ M := by
    intro view' h
    have hsame : view = view' := congrArg (Option.getD · c) h
    rw [← hsame]
    omega
  have hdepth : ((vacant vars U.start).length + 1) * span vars M < depth K vars c r := by
    have hle : (vacant vars U.start).length + 1 ≤ vars.length + 1 :=
      Nat.succ_le_succ (List.length_filter_le _ _)
    refine Nat.lt_of_le_of_lt (Nat.mul_le_mul_right _ hle) ?_
    change (vars.length + 1) * (2 * ((vars.length + 1) * (M + 1))) <
      4 * (vars.length + 1) * (vars.length + 1) * (M + 1)
    have hpos : 0 < (vars.length + 1) * ((vars.length + 1) * (M + 1)) :=
      Nat.mul_pos (Nat.succ_pos _) (Nat.mul_pos (Nat.succ_pos _) (Nat.succ_pos _))
    calc (vars.length + 1) * (2 * ((vars.length + 1) * (M + 1)))
        = 2 * ((vars.length + 1) * ((vars.length + 1) * (M + 1))) := by ring
      _ < 4 * ((vars.length + 1) * ((vars.length + 1) * (M + 1))) := by omega
      _ = 4 * (vars.length + 1) * (vars.length + 1) * (M + 1) := by ring
  have hd := Nat.lt_of_lt_of_le hdepth hd
  exact (tracks_walk fine_start (by omega) (by omega) hview hd hd).bounded

theorem within_eq_some {d : Nat}
    (h : walk K (variablesOf K statics c r) d .covariant c r U.start ≠ .error .tooDeep) :
    (within U K d statics c r).isSome = true := by
  unfold within
  dsimp only
  split
  · rfl
  · rfl
  · next hdeep => exact absurd hdeep h

/-- A fit is what the walk comes to that may go as deep as it needs to. -/
theorem fit_eq_within (K : Catalog) (statics : List Classifier) (c r : Ty) :
    within Bindings.byRank K (depth K (variablesOf K statics c r) c r) statics c r =
      some (K.fit statics c r) := by
  have hends := walk_depth_ne Bindings.byRank K (variablesOf K statics c r) c r (Nat.le_refl _)
  obtain ⟨result, hresult⟩ := Option.isSome_iff_exists.1 (within_eq_some hends)
  rw [hresult]
  unfold Catalog.fit
  split
  · next first hfirst =>
    -- the first try has not gone too deep, so the second one does the same
    have hne : walk K (variablesOf K statics c r) (1 <<< 16) .covariant c r
        Bindings.byRank.start ≠ .error .tooDeep := by
      intro hdeep
      rw [within, hdeep] at hfirst
      cases hfirst
    obtain ⟨d, hd⟩ : ∃ d, 1 <<< 16 ≤ d ∧ depth K (variablesOf K statics c r) c r ≤ d :=
      ⟨_, Nat.le_max_left _ _, Nat.le_max_right _ _⟩
    have hsame := (triangular_start.walk_mono hd.1 hne).symm.trans
      (triangular_start.walk_mono hd.2 hends)
    have hwithin : within Bindings.byRank K (1 <<< 16) statics c r =
        within Bindings.byRank K (depth K (variablesOf K statics c r) c r) statics c r := by
      simp only [within, hsame]
    rw [hwithin, hresult] at hfirst
    exact hfirst
  · dsimp only
    rw [hresult]
    rfl

/-- If that walk gives bindings, the fit is what they come to. -/
theorem fit_of_walk {b : Bindings.byRank.Table} (h : walk K (variablesOf K statics c r)
    (depth K (variablesOf K statics c r) c r) .covariant c r Bindings.byRank.start = .ok b) :
    K.fit statics c r = solution K (variablesOf K statics c r) b := by
  have hwithin := fit_eq_within K statics c r
  rw [within, h] at hwithin
  exact (Option.some.inj hwithin).symm

/-- Closing a substitution puts it into itself a number of times that is bounded in advance. -/
theorem exists_close_eq (rounds : Nat) (m : Substitution) : ∃ n ≤ rounds,
    close rounds m = (fun m : Substitution => m.map (·.substitute m))^[n] m := by
  induction rounds generalizing m with
  | zero => exact ⟨0, Nat.le_refl 0, rfl⟩
  | succ rounds ih =>
    rw [close]
    split
    · exact ⟨0, Nat.zero_le _, rfl⟩
    · obtain ⟨n, hn, he⟩ := ih (m.map (·.substitute m))
      exact ⟨n + 1, Nat.succ_le_succ hn, he⟩

/-- From all bindings in triangular form a walk ends, and is the same if it may go deeper and if all
bindings are watched that it comes to: none of them runs in a circle. In such bindings the occurs check
ends before its depth does. A fit starts from such bindings and asks for enough depth; its search for a
supertype ends before its fuel does, and its closing puts a substitution into itself a bounded number of
times. -/
theorem walk_halts (U : UnionFind) (K : Catalog) (statics : List Classifier) (c r : Ty) :
    let vars := variablesOf K statics c r
    (∀ b : U.Table, Triangular K vars b →
      (∀ variance x y, ∃ d₀, walk K vars d₀ variance x y b ≠ .error .tooDeep ∧
        (∀ b', walk K vars d₀ variance x y b = .ok b' → Triangular K vars b') ∧
        ∀ d, d₀ ≤ d → walk K vars d variance x y b = walk K vars d₀ variance x y b ∧
          ∀ accept : U.Table → Bool, (∀ b, Triangular K vars b → accept b = true) →
            watchedWalk K vars accept d variance x y b = walk K vars d₀ variance x y b) ∧
      ∀ v t d, vars.length < d → (occursWithin K vars b v d t = true ↔ Reaches K vars b t v)) ∧
    Triangular K vars U.start ∧
    (∀ d, depth K vars c r ≤ d → walk K vars d .covariant c r U.start ≠ .error .tooDeep) ∧
    within Bindings.byRank K (depth K vars c r) statics c r = some (K.fit statics c r) ∧
    (∀ goal t fuel, K.entries.length < fuel → K.searchAbove goal fuel [t.classifier] [t] =
      K.searchAbove goal (K.entries.length + 2) [t.classifier] [t]) ∧
    ∀ m, ∃ n ≤ vars.length + 1, close (vars.length + 1) m =
      (fun m : Substitution => m.map (·.substitute m))^[n] m := by
  intro vars
  refine ⟨fun b hb => ⟨fun variance x y => ?_, fun v t d hd => hb.occursWithin_iff hd⟩,
    triangular_start, fun d hd => walk_depth_ne U K vars c r hd, fit_eq_within K statics c r,
    fun goal t fuel hf => ?_, fun m => exists_close_eq _ m⟩
  · obtain ⟨M, hfine, hx, hy, hview⟩ := hb.exists_fine variance x y
    obtain ⟨d₀, hends, hsame⟩ := hb.walk_ends variance x y
    refine ⟨d₀, hends, fun b' => hb.walk, fun d hd => ⟨hsame d hd, fun accept haccept => ?_⟩⟩
    -- the watched walk is tracked by the plain one as long as that has depth left
    have hne : walk K vars d variance x y b ≠ .error .tooDeep := by
      rw [hsame d hd]
      exact hends
    rw [← hsame d hd]
    exact ((tracks_watchedWalk haccept d hfine hx hy hview).eq hne).symm
  · have hle : (K.unseen [t.classifier]).length ≤ K.entries.length := List.length_filter_le _ _
    exact K.searchAbove_eq goal (by omega) (by omega)

/-- A box of `T` is compared with one of integers to the end where `T` stands for an integer already. -/
theorem box_halts : ∃ d₀, walk shelf [⟨"T", 0⟩] d₀ .invariant (box "T") (box "Int")
    (Bindings.byRank.assign Bindings.byRank.start ⟨"T", 0⟩ (.of ⟨"Int", 0⟩)) ≠
      .error .tooDeep := by
  have hvars : variablesOf shelf [] (box "T") (box "Int") = [⟨"T", 0⟩] := Eq.refl _
  have hb : Triangular shelf [⟨"T", 0⟩]
      (Bindings.byRank.assign Bindings.byRank.start ⟨"T", 0⟩ (.of ⟨"Int", 0⟩)) :=
    triangular_start.assign rfl (not_reaches_of_occurs rfl)
  have hwalk := (walk_halts Bindings.byRank shelf [] (box "T") (box "Int")).1
  rw [hvars] at hwalk
  obtain ⟨d₀, hends, -⟩ := (hwalk _ hb).1 .invariant (box "T") (box "Int")
  exact ⟨d₀, hends⟩

end Wiring.Fit
