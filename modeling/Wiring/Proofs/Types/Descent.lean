import Wiring.Proofs.Types.Mutual
import Wiring.Proofs.Types.Views

/-!
The type that is expected gets smaller from a comparison to the ones it leads to, except where
arguments are compared the other way round; then the answer in the one direction bounds the work in
the other one.
-/
namespace Wiring.Catalog

open Ty

variable {K : Catalog} {a b : Ty} {n : Nat}

/-! ### What a comparison leads to -/

/-- What comparing a type with one that is expected may have to compare next: a tag with the one that
is needed, an argument of the view with the one that is expected, and, once that has held, these two
the other way round. -/
inductive Asks (K : Catalog) : Ty × Ty → Ty × Ty → Prop
  | tag {a b needed present : Ty} (left : a.isStar = false) (right : b.isStar = false)
      (mem : needed ∈ b.tags) (found : a.tag? needed.classifier = some present) :
      Asks K (a, b) (present, needed)
  | forth {a b view x y : Ty} (left : a.isStar = false) (right : b.isStar = false)
      (top : (K.flagsOf b).top = false) (found : K.view? a b.classifier = some view)
      (mem : (x, y) ∈ view.arguments.zip b.arguments) : Asks K (a, b) (x, y)
  | back {a b view x y : Ty} (left : a.isStar = false) (right : b.isStar = false)
      (top : (K.flagsOf b).top = false) (found : K.view? a b.classifier = some view)
      (mem : (x, y) ∈ view.arguments.zip b.arguments) (holds : K.Below x y) : Asks K (a, b) (y, x)

def EndsWithin (K : Catalog) : (n : Nat) → Ty × Ty → Prop
  | 0, _ => False
  | n + 1, p => ∀ q, K.Asks p q → K.EndsWithin n q

theorem EndsWithin.acc {p : Ty × Ty} (h : K.EndsWithin n p) : Acc (fun q p => K.Asks p q) p := by
  induction n generalizing p with
  | zero => exact False.elim h
  | succ n ih => exact Acc.intro p fun q hq => ih (h q hq)

/-! ### Answers -/

section Answers

variable {f g : Ty × Ty → Option Bool} {ps qs : List (Ty × Ty)} {as bs : List Ty}

theorem isSome_allM_cons {p : Ty × Ty} (hp : (f p).isSome = true)
    (hps : f p = some true → (ps.allM f).isSome = true) : ((p :: ps).allM f).isSome = true := by
  rw [List.allM]
  cases hf : f p with
  | none => simp [hf] at hp
  | some found =>
    cases found with
    | false => rfl
    | true => exact hps hf

theorem isSome_allM_append (hps : ∀ p ∈ ps, (f p).isSome = true)
    (hqs : (qs.allM f).isSome = true) : ((ps ++ qs).allM f).isSome = true := by
  induction ps with
  | nil => exact hqs
  | cons p ps ih =>
    obtain ⟨hp, hps⟩ := List.forall_mem_cons.1 hps
    exact isSome_allM_cons hp fun _ => ih hps

/-- Each pair is compared the other way round only once it holds. -/
theorem isSome_allM_bothWays (h : ∀ x y, (x, y) ∈ as.zip bs →
      (f (x, y)).isSome = true ∧ (f (x, y) = some true → (f (y, x)).isSome = true)) :
    ((bothWays as bs).allM f).isSome = true := by
  unfold bothWays
  generalize as.zip bs = ps at h
  induction ps with
  | nil => rfl
  | cons p ps ih =>
    obtain ⟨hforth, hback⟩ := h p.1 p.2 (List.mem_cons_self ..)
    rw [List.flatMap_cons]
    refine isSome_allM_cons hforth fun hp => isSome_allM_cons (hback hp) fun _ => ?_
    exact ih fun x y hxy => h x y (List.mem_cons_of_mem p hxy)

theorem allM_mono (hfg : ∀ p r, f p = some r → g p = some r) {r : Bool}
    (h : ps.allM f = some r) : ps.allM g = some r := by
  induction ps with
  | nil => exact h
  | cons p ps ih =>
    rw [List.allM] at h ⊢
    obtain ⟨found, hp, h⟩ := Option.bind_eq_some_iff.1 h
    rw [hfg p found hp]
    cases found with
    | false => exact h
    | true => exact ih h

end Answers

/-- An answer stays the same at every greater depth. -/
theorem subtypeWithin_mono {m : Nat} {r : Bool} (hnm : n ≤ m)
    (h : K.subtypeWithin n a b = some r) : K.subtypeWithin m a b = some r := by
  induction n generalizing m a b r with
  | zero => cases h
  | succ n ih =>
    obtain ⟨m, rfl⟩ : ∃ k, m = k + 1 := ⟨m - 1, by omega⟩
    rw [subtypeWithin] at h ⊢
    cases hps : K.premises? a b with
    | none =>
      rw [hps] at h
      exact h
    | some ps =>
      rw [hps] at h
      exact allM_mono (fun p r hp => ih (by omega) hp) h

/-- What holds at some depth for each of finitely many pairs holds at one depth for all of them. -/
theorem exists_depth {ps : List (Ty × Ty)} (h : ∀ p ∈ ps, K.Below p.1 p.2) :
    ∃ depth, ∀ p ∈ ps, K.subtypeWithin depth p.1 p.2 = some true := by
  induction ps with
  | nil => exact ⟨0, List.forall_mem_nil _⟩
  | cons p ps ih =>
    obtain ⟨⟨d, hd⟩, hps⟩ := List.forall_mem_cons.1 h
    obtain ⟨e, he⟩ := ih hps
    refine ⟨max d e, List.forall_mem_cons.2 ⟨?_, fun q hq => ?_⟩⟩
    · exact subtypeWithin_mono (Nat.le_max_left ..) hd
    · exact subtypeWithin_mono (Nat.le_max_right ..) (he q hq)

/-- What it takes for a type to be below another one is enough. -/
theorem Assigned.below (h : K.Assigned a b) : K.Below a b := by
  obtain ⟨ps, hps, hall⟩ := exists_premises h.nullable h.tags h.view
  obtain ⟨depth, hdepth⟩ := exists_depth fun p hp => (hall p hp).1
  exact ⟨depth + 1, subtypeWithin_succ ps hps hdepth⟩

/-- A comparison that leads to `n` nested ones has an answer at depth `n`. -/
theorem EndsWithin.isSome (h : K.EndsWithin n (a, b)) : (K.subtypeWithin n a b).isSome = true := by
  induction n generalizing a b with
  | zero => exact False.elim h
  | succ n ih =>
    rw [subtypeWithin]
    cases hps : K.premises? a b with
    | none => rfl
    | some ps =>
      by_cases hs : (a.isStar || b.isStar) = true
      · obtain rfl : [] = ps := by simpa [premises?, hs] using hps
        rfl
      · obtain ⟨ha, hb⟩ : a.isStar = false ∧ b.isStar = false := by simpa using hs
        obtain ⟨-, ts, hts, hparts⟩ := of_premises hps ha hb
        have htags : ∀ p ∈ ts, (K.subtypeWithin n p.1 p.2).isSome = true := by
          intro p hp
          obtain ⟨hmem, hfound⟩ := of_mem_tagPremises hts p hp
          exact ih (h _ (Asks.tag ha hb hmem hfound))
        rcases hparts with ⟨-, rfl⟩ | ⟨htop, view, hview, -, rfl⟩
        · rw [← List.append_nil ps]
          exact isSome_allM_append htags rfl
        · refine isSome_allM_append htags (isSome_allM_bothWays fun x y hxy => ?_)
          refine ⟨ih (h _ (Asks.forth ha hb htop hview hxy)), fun hholds => ?_⟩
          exact ih (h _ (Asks.back ha hb htop hview hxy ⟨n, hholds⟩))

/-! ### The bound -/

/-- Where a supertype that is not the top type can be viewed by a subtype of it, the two have the same
classifier, and their arguments have been compared both ways. -/
theorem Assigned.arguments_of_view (h : K.Assigned a b) (hK : K.Ascending) (hT : K.BareTops)
    (ha : a.isStar = false) (hb : b.isStar = false) (htop : (K.flagsOf a).top = false) {view : Ty}
    (hview : K.view? b a.classifier = some view) : view = b ∧
      List.Forall₂ (fun y x => K.Below x y ∧ K.Below y x) b.arguments a.arguments := by
  have hk := h.key_eq_of_view hK.proper hT hK.acyclic hb hview
  refine ⟨Option.some.inj (hview.symm.trans (view_self hk.symm)), ?_⟩
  rcases h.view with hbt | ⟨v, hv, hargs⟩
  · rw [← flagsOf_congr hK.coherent ha hb hk, htop] at hbt
    cases hbt
  · obtain rfl : v = a := Option.some.inj (hv.symm.trans (view_self hk))
    exact hargs.flip

/-- A comparison leads to no more nested ones than the expected type has nodes, and if it holds, so
does the opposite one. -/
theorem endsWithin (hK : K.Ascending) (hT : K.BareTops) (ha : Canonical a) (hb : Canonical b)
    (hn : b.size ≤ n) : K.EndsWithin n (a, b) ∧ (K.Below a b → K.EndsWithin n (b, a)) := by
  induction n generalizing a b with
  | zero =>
    have hpos := size_pos b
    omega
  | succ n ih =>
    constructor
    · intro q hq
      cases hq with
      | tag _ _ hmem hfound =>
        have hlt := size_lt_of_mem_tags hmem
        exact (ih (ha.tags _ (mem_of_lookupTag hfound)) (hb.tags _ hmem) (by omega)).1
      | forth _ _ _ hview hmem =>
        obtain ⟨hx, hy⟩ := List.of_mem_zip hmem
        have hlt := size_lt_of_mem_arguments hy
        have hv := hK.canonical_view ha hview
        exact (ih (hv.arguments _ hx) (hb.arguments _ hy) (by omega)).1
      | back _ _ _ hview hmem hholds =>
        obtain ⟨hx, hy⟩ := List.of_mem_zip hmem
        have hlt := size_lt_of_mem_arguments hy
        have hv := hK.canonical_view ha hview
        exact (ih (hv.arguments _ hx) (hb.arguments _ hy) (by omega)).2 hholds
    · intro hbelow q hq
      cases hq with
      | tag hbs has hmem hfound =>
        -- what is needed of `b` now has been compared with what `b` has for it
        have hw := mem_of_lookupTag hfound
        obtain ⟨present, hp, hholds⟩ := (hbelow.assigned has hbs).tags _ hw
        have hself := lookupTag_of_mem ha.distinct.here hmem
        rw [tag_eq_lookupTag, lookupTag_congr _ (key_of_lookupTag hfound)] at hp
        obtain rfl := Option.some.inj (hself.symm.trans hp)
        have hlt := size_lt_of_mem_tags hw
        exact (ih (ha.tags _ hmem) (hb.tags _ hw) (by omega)).2 hholds
      | forth hbs has htop hview hmem =>
        obtain ⟨rfl, hargs⟩ := (hbelow.assigned has hbs).arguments_of_view hK hT has hbs htop hview
        obtain ⟨hx, hy⟩ := List.of_mem_zip hmem
        have hlt := size_lt_of_mem_arguments hx
        have hholds := ((List.forall₂_iff_zip.1 hargs).2 hmem).1
        exact (ih (ha.arguments _ hy) (hb.arguments _ hx) (by omega)).2 hholds
      | back hbs has htop hview hmem =>
        obtain ⟨rfl, -⟩ := (hbelow.assigned has hbs).arguments_of_view hK hT has hbs htop hview
        obtain ⟨hx, hy⟩ := List.of_mem_zip hmem
        have hlt := size_lt_of_mem_arguments hx
        exact (ih (ha.arguments _ hy) (hb.arguments _ hx) (by omega)).1

/-- With a depth of as many levels as the expected type has nodes there is an answer. -/
theorem exists_subtypeWithin (hK : K.Ascending) (hT : K.BareTops) (ha : Canonical a)
    (hb : Canonical b) (hn : b.size ≤ n) : ∃ r, K.subtypeWithin n a b = some r :=
  Option.isSome_iff_exists.1 (endsWithin hK hT ha hb hn).1.isSome

/-- The answer is the one at every depth that is as great as the expected type is large. -/
theorem subtypeWithin_eq_isSubtype (hK : K.Ascending) (hT : K.BareTops) (ha : Canonical a)
    (hb : Canonical b) (hn : b.size ≤ n) : K.subtypeWithin n a b = some (K.isSubtype a b) := by
  obtain ⟨r, hr⟩ := exists_subtypeWithin hK hT ha hb (Nat.le_refl _)
  have hroom := sizes_lt_subtypeDepth K a b
  have hfull : K.subtypeWithin (K.subtypeDepth a b) a b = some r :=
    subtypeWithin_mono (by omega) hr
  rw [isSubtype, hfull, Option.getD_some]
  exact subtypeWithin_mono hn hr

/-- Subtyping is what holds at some depth. -/
theorem isSubtype_iff_below (hK : K.Ascending) (hT : K.BareTops) (ha : Canonical a)
    (hb : Canonical b) : K.isSubtype a b = true ↔ K.Below a b := by
  refine ⟨below_of_isSubtype, fun ⟨depth, hdepth⟩ => ?_⟩
  have hlarge := subtypeWithin_mono (Nat.le_max_left depth b.size) hdepth
  rw [subtypeWithin_eq_isSubtype hK hT ha hb (Nat.le_max_right ..)] at hlarge
  exact Option.some.inj hlarge

/-- Subtyping terminates, below expansive declarations too: there is an answer at every depth that is
as great as the expected type is large, no sequence of nested comparisons is endless, and neither is
the search for a view. -/
theorem isSubtype_halts (hK : K.Ascending) (hT : K.BareTops) (ha : Canonical a) (hb : Canonical b) :
    (∀ depth, b.size ≤ depth → K.subtypeWithin depth a b = some (K.isSubtype a b)) ∧
      Acc (fun q p => K.Asks p q) (a, b) ∧
      ∀ (t : Ty) (goal : Classifier) (levels : Nat), K.entries.length < levels →
        K.searchAbove goal levels [t.classifier] [t] =
          K.searchAbove goal (K.entries.length + 2) [t.classifier] [t] := by
  refine ⟨fun _ hdepth => subtypeWithin_eq_isSubtype hK hT ha hb hdepth,
    (endsWithin hK hT ha hb (Nat.le_refl _)).1.acc, fun t goal levels hlevels => ?_⟩
  have hle : (K.unseen [t.classifier]).length ≤ K.entries.length := List.length_filter_le _ _
  exact searchAbove_eq goal (by omega) (by omega)

def unary (key : String) (argument : Ty) : Ty :=
  { head := .named ⟨key, 0⟩, arguments := [argument] }

def expansive : Catalog where
  entries :=
    -- A catalog with an expansive class, `Chain<X> : Node<Chain<Chain<X>>>`, and with a class and a
    -- type parameter that are bounded by themselves.
    [("Any", [{ flags := { top := true } }]),
      ("N", [{ flags := { typeParameter := true } }]),
      ("Node", [{ typeParameters := [⟨"N", 0⟩] }]),
      ("X", [{ flags := { typeParameter := true } }]),
      ("Chain", [{
        typeParameters := [⟨"X", 0⟩]
        supertypes := some [unary "Node" (unary "Chain" (unary "Chain" (.of ⟨"X", 0⟩)))] }]),
      ("C", [{ flags := { typeParameter := true } }]),
      ("Comparable", [{ typeParameters := [⟨"C", 0⟩] }]),
      ("Word", [{ supertypes := some [unary "Comparable" (.of ⟨"Word", 0⟩)] }]),
      ("T", [{
        supertypes := some [unary "Comparable" (.of ⟨"T", 0⟩)]
        flags := { typeParameter := true } }])]

theorem single_expansive : expansive.Single := by decide

theorem supertypes_expansive {d : Classifier} {s : Ty} (h : s ∈ expansive.declaredSupertypes d) :
    (d.key = "Chain" ∧ s = unary "Node" (unary "Chain" (unary "Chain" (.of ⟨"X", 0⟩)))) ∨
      ∃ key ∈ ["Word", "T"], d.key = key ∧ s = unary "Comparable" (.of ⟨key, 0⟩) :=
  single_expansive.entry_induction
    (P := fun e => ∀ s ∈ e.supertypes.getD [],
      (d.key = "Chain" ∧ s = unary "Node" (unary "Chain" (unary "Chain" (.of ⟨"X", 0⟩)))) ∨
        ∃ key ∈ ["Word", "T"], d.key = key ∧ s = unary "Comparable" (.of ⟨key, 0⟩)) d (by simp)
    (by simp +contextual [expansive]) s h

theorem canonical_of (c : Classifier) : Canonical (.of c) :=
  Everywhere.node List.Pairwise.nil (List.forall_mem_nil _) (List.forall_mem_nil _)

theorem canonical_unary (key : String) {t : Ty} (h : Canonical t) : Canonical (unary key t) :=
  Everywhere.node List.Pairwise.nil (List.forall_mem_singleton.2 h) (List.forall_mem_nil _)

theorem ascending_expansive : expansive.Ascending where
  coherent := single_expansive.coherent
  canonical c s hs := by
    rcases supertypes_expansive hs with ⟨-, rfl⟩ | ⟨key, -, -, rfl⟩
    · exact canonical_unary _ (canonical_unary _ (canonical_unary _ (canonical_of _)))
    · exact canonical_unary _ (canonical_of _)
  proper c s hs _ := by
    rcases supertypes_expansive hs with ⟨hk, rfl⟩ | ⟨key, hkey, hk, rfl⟩
    · rw [single_expansive.coherent.typeParameters_eq (d := ⟨"Chain", 0⟩) hk]
      rfl
    · rw [single_expansive.coherent.typeParameters_eq (d := ⟨key, 0⟩) hk]
      obtain rfl | rfl : key = "Word" ∨ key = "T" := by simpa using hkey
      all_goals rfl
  acyclic := by
    refine acyclic_of_rank (fun k => if k ∈ ["Chain", "Word", "T"] then 1 else 0) ?_
    rintro _ _ ⟨c, rfl, s, hs, rfl⟩
    rcases supertypes_expansive hs with ⟨hk, rfl⟩ | ⟨key, hkey, hk, rfl⟩
    · rw [hk]
      decide
    · rw [hk]
      obtain rfl | rfl : key = "Word" ∨ key = "T" := by simpa using hkey
      all_goals decide

theorem bareTops_expansive : expansive.BareTops := by
  intro c
  exact single_expansive.entry_induction
    (P := fun e => e.flags.top = true → e.supertypes.getD [] = []) c (by simp)
    (by simp [expansive])

/-- A chain of words is a node of what it is expanded to, and a bounded parameter is comparable with
itself. -/
theorem expansive_halts :
    (∀ depth, 4 ≤ depth → expansive.subtypeWithin depth (unary "Chain" (.of ⟨"Word", 0⟩))
      (unary "Node" (unary "Chain" (unary "Chain" (.of ⟨"Word", 0⟩)))) = some true) ∧
    (∀ depth, 2 ≤ depth → expansive.subtypeWithin depth (.of ⟨"T", 0⟩)
      (unary "Comparable" (.of ⟨"T", 0⟩)) = some true) ∧
    Acc (fun q p => expansive.Asks p q) (unary "Chain" (.of ⟨"Word", 0⟩),
      unary "Node" (unary "Chain" (.of ⟨"Word", 0⟩))) := by
  have hword : Canonical (unary "Chain" (.of ⟨"Word", 0⟩)) := canonical_unary _ (canonical_of _)
  have hnode := isSubtype_halts ascending_expansive bareTops_expansive hword
    (canonical_unary "Node" (canonical_unary "Chain" hword))
  have hbound := isSubtype_halts ascending_expansive bareTops_expansive (canonical_of ⟨"T", 0⟩)
    (canonical_unary "Comparable" (canonical_of ⟨"T", 0⟩))
  have hback := isSubtype_halts ascending_expansive bareTops_expansive hword
    (canonical_unary "Node" hword)
  refine ⟨fun depth hd => ?_, fun depth hd => ?_, hback.2.1⟩
  · exact (hnode.1 depth hd).trans (congrArg some (by decide +kernel))
  · exact (hbound.1 depth hd).trans (congrArg some (by decide +kernel))

end Wiring.Catalog
