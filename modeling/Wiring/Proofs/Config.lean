import Mathlib.Data.List.Nodup
import Wiring.Config

namespace Wiring.Config

variable {config config' initial : Config} {entry : String × Value}
  {table table' : List (String × Value)}

def value? (config : Config) : String → Option Value
  | "max_expansion_depth" => some (.integer config.maxExpansionDepth)
  | "type_scopes" => some (.boolean config.typeScopes)
  | "framework_injectables" => some (.boolean config.frameworkInjectables)
  | _ => none

theorem ext_value (h : ∀ name, config.value? name = config'.value? name) : config = config' := by
  have hdepth := h "max_expansion_depth"
  have hscopes := h "type_scopes"
  have hframework := h "framework_injectables"
  obtain ⟨depth, scopes, framework⟩ := config
  obtain ⟨depth', scopes', framework'⟩ := config'
  simp only [value?, Option.some.injEq, Value.integer.injEq, Value.boolean.injEq,
    Int.natCast_inj] at hdepth hscopes hframework
  rw [hdepth, hscopes, hframework]

theorem value_set (h : config.set? entry = some config') : config'.value? entry.1 = some entry.2 ∧
    ∀ name, name ≠ entry.1 → config'.value? name = config.value? name := by
  unfold set? at h
  split at h <;> cases h
  all_goals
    refine ⟨rfl, fun name hname => ?_⟩
    unfold value?
    split <;> first | rfl | exact absurd rfl hname

/-- An entry is taken in just if some settings have it. -/
theorem exists_set (initial : Config) (h : config.value? entry.1 = some entry.2) :
    ∃ config', initial.set? entry = some config' := by
  obtain ⟨name, value⟩ := entry
  dsimp only at h
  unfold value? at h
  split at h <;> cases h
  all_goals exact ⟨_, rfl⟩

theorem foldlM_set_eq_some (hnames : (table.map (·.1)).Nodup) :
    table.foldlM set? initial = some config ↔
      (∀ e ∈ table, config.value? e.1 = some e.2) ∧
        ∀ name, name ∉ table.map (·.1) → config.value? name = initial.value? name := by
  induction table generalizing initial with
  | nil =>
    constructor
    · intro h
      cases h
      exact ⟨List.forall_mem_nil _, fun _ _ => rfl⟩
    · rintro ⟨-, h⟩
      rw [ext_value fun name => h name List.not_mem_nil]
      rfl
  | cons entry rest ih =>
    rw [List.map_cons, List.nodup_cons] at hnames
    obtain ⟨hfresh, hnames⟩ := hnames
    rw [List.foldlM_cons]
    constructor
    · intro h
      obtain ⟨next, hnext, hrest⟩ := Option.bind_eq_some_iff.1 h
      obtain ⟨hset, hkept⟩ := value_set hnext
      obtain ⟨hentries, hothers⟩ := (ih hnames).1 hrest
      refine ⟨List.forall_mem_cons.2 ⟨(hothers _ hfresh).trans hset, hentries⟩, fun name hname => ?_⟩
      rw [List.map_cons, List.mem_cons, not_or] at hname
      exact (hothers name hname.2).trans (hkept name hname.1)
    · rintro ⟨hentries, hothers⟩
      obtain ⟨hentry, hentries⟩ := List.forall_mem_cons.1 hentries
      obtain ⟨next, hnext⟩ := exists_set initial hentry
      obtain ⟨hset, hkept⟩ := value_set hnext
      refine Option.bind_eq_some_iff.2 ⟨next, hnext, (ih hnames).2 ⟨hentries, fun name hname => ?_⟩⟩
      by_cases he : name = entry.1
      · rw [he, hentry, hset]
      · rw [hkept name he]
        exact hothers name fun hmem => (List.mem_cons.1 hmem).elim he hname

/-- A document gives the settings that have all its entries and otherwise the defaults. If there are none
such, as with a name that is no setting or a value that it does not take, it gives nothing. -/
theorem ofTable_eq_some_iff (hnames : (table.map (·.1)).Nodup) :
    ofTable? table = some config ↔
      (∀ e ∈ table, config.value? e.1 = some e.2) ∧
        ∀ name, name ∉ table.map (·.1) → config.value? name = ({} : Config).value? name :=
  foldlM_set_eq_some hnames

/-- So the order of the entries does not matter. -/
theorem ofTable_perm (hnames : (table.map (·.1)).Nodup) (h : table.Perm table') :
    ofTable? table = ofTable? table' := by
  have hnames' := hnames.perm (h.map (·.1))
  refine Option.ext fun config => ?_
  rw [ofTable_eq_some_iff hnames, ofTable_eq_some_iff hnames']
  simp only [h.mem_iff, (h.map (·.1)).mem_iff]

end Wiring.Config
