import Federation.Proofs.Planner.Verdict

/-!
# What a Choice Comes To

The planner never chooses among different lists. A fragment offers the same
connectors for each of its tables, and a branch is a fragment of one table; so a
choice comes down to the least name in one list, and with a definition of its own
for every name it never fails.

## Theorems

* `choose_fragment`: The choice for the tables of a fragment.
* `choose_fragment_error`: It fails only on an ambiguous name.
* `choose_fragment_exists`: It succeeds where names are not ambiguous.
-/

namespace Federation

-- A fragment offers its connectors for each of its tables.
theorem Fragment.get?_candidates (f : Fragment) (table : TableName) (l : List Connector) :
    f.candidates.get? table = some l ↔ table ∈ f.tables ∧ l = f.connectors := by
  unfold Fragment.candidates
  rw [SortedMap.get?_ofList_map (fun _ => f.connectors)]
  by_cases hmem : table ∈ f.tables
  · rw [if_pos hmem, Option.some.injEq]
    exact ⟨fun h => ⟨hmem, h.symm⟩, fun h => h.2.symm⟩
  · rw [if_neg hmem]
    exact ⟨fun h => (nomatch h), fun h => absurd h.1 hmem⟩

theorem mem_values_candidates (f : Fragment) (l : List Connector) :
    l ∈ f.candidates.values ↔ f.tables ≠ [] ∧ l = f.connectors := by
  rw [SortedMap.mem_values]
  simp only [Fragment.get?_candidates]
  constructor
  · rintro ⟨table, hmem, hl⟩
    exact ⟨List.ne_nil_of_mem hmem, hl⟩
  · rintro ⟨hne, hl⟩
    rcases List.exists_mem_of_ne_nil _ hne with ⟨table, hmem⟩
    exact ⟨table, hmem, hl⟩

theorem offers_candidates (f : Fragment) (c : Connector) :
    Offers f.candidates c ↔ f.tables ≠ [] ∧ c ∈ f.connectors := by
  rw [offers_iff, List.mem_flatten]
  simp only [mem_values_candidates]
  constructor
  · rintro ⟨_, ⟨htables, rfl⟩, hc⟩
    exact ⟨htables, hc⟩
  · rintro ⟨htables, hc⟩
    exact ⟨_, ⟨htables, rfl⟩, hc⟩

theorem mem_commonNames_candidates (f : Fragment) (name : ConnectorName) :
    name ∈ commonNames f.candidates.values ↔
      f.tables ≠ [] ∧ ∃ c ∈ f.connectors, c.name = name := by
  rw [mem_commonNames]
  constructor
  · rintro ⟨hne, hall⟩
    rcases List.exists_mem_of_ne_nil _ hne with ⟨l, hl⟩
    rcases (mem_values_candidates f l).mp hl with ⟨htables, rfl⟩
    exact ⟨htables, hall _ hl⟩
  · rintro ⟨htables, hc⟩
    refine ⟨List.ne_nil_of_mem ((mem_values_candidates f _).mpr ⟨htables, rfl⟩), fun l hl => ?_⟩
    rw [((mem_values_candidates f l).mp hl).2]
    exact hc

-- The names that a fragment's tables have in common are those of its connectors.
theorem common_candidates (f : Fragment) (htables : f.candidates.keys ≠ [])
    (name : ConnectorName) :
    Common f.candidates name ↔ f.tables ≠ [] ∧ ∃ c ∈ f.connectors, c.name = name := by
  rw [← mem_commonNames_candidates, mem_commonNames_iff]
  exact (and_iff_right htables).symm

/-- The choice for the tables of a fragment: the connector of the least name, if
    no other connector bears it. -/
theorem choose_fragment (f : Fragment) (c : Connector) :
    choose f.candidates = .ok c ↔
      f.tables ≠ [] ∧ c ∈ f.connectors ∧ (∀ d ∈ f.connectors, compare c.name d.name ≠ .gt) ∧
        ∀ d ∈ f.connectors, d.name = c.name → d = c := by
  rw [choose_eq_ok]
  constructor
  · rintro ⟨hwins, hsole⟩
    have hcommon := common_candidates f hwins.tables
    rcases (hcommon _).mp hwins.common with ⟨htables, d, hd, hname⟩
    have hmem : ∀ d ∈ f.connectors, d.name = c.name → d = c := fun d hd =>
      hsole d ((offers_candidates f d).mpr ⟨htables, hd⟩)
    refine ⟨htables, hmem d hd hname ▸ hd, fun e he => ?_, hmem⟩
    exact hwins.least _ ((hcommon _).mpr ⟨htables, e, he, rfl⟩)
  · rintro ⟨htables, hc, hleast, hsole⟩
    have hname := (mem_commonNames_candidates f c.name).mpr ⟨htables, c, hc, rfl⟩
    rcases (mem_commonNames_iff _ _).mp hname with ⟨hkeys, hcommon⟩
    refine ⟨⟨hkeys, hcommon, fun name hother => ?_⟩, fun d hd => ?_⟩
    · rcases (common_candidates f hkeys name).mp hother with ⟨_, d, hd, rfl⟩
      exact hleast d hd
    · exact hsole d ((offers_candidates f d).mp hd).2

-- All other connectors of the fragment come behind it.
theorem choose_fragment_least (f : Fragment) (c : Connector) (h : choose f.candidates = .ok c) :
    ∀ d ∈ f.connectors, d ≠ c → compare c.name d.name = .lt := by
  rcases (choose_fragment f c).mp h with ⟨_, _, hleast, hunique⟩
  intro d hd hne
  cases hcompare : compare c.name d.name with
  | lt => rfl
  | eq => exact absurd (hunique d hd (Std.LawfulEqOrd.eq_of_compare hcompare).symm) hne
  | gt => exact absurd hcompare (hleast d hd)

-- Among connectors some name comes first.
theorem exists_least_name (connectors : List Connector) (hne : connectors ≠ []) :
    ∃ c ∈ connectors, ∀ d ∈ connectors, compare c.name d.name ≠ .gt := by
  have hmem : ∀ name, name ∈ ascending (connectors.map Connector.name) ↔
      ∃ c ∈ connectors, c.name = name := fun name => by
    rw [mem_ascending, List.mem_map]
  have hasc := ascending_pairwise (connectors.map Connector.name)
  cases hnames : ascending (connectors.map Connector.name) with
  | nil =>
      rcases List.exists_mem_of_ne_nil _ hne with ⟨c, hc⟩
      have := (hmem c.name).mpr ⟨c, hc, rfl⟩
      rw [hnames] at this
      exact absurd this List.not_mem_nil
  | cons least rest =>
      rw [hnames] at hmem hasc
      rcases (hmem least).mp List.mem_cons_self with ⟨c, hc, rfl⟩
      exact ⟨c, hc, fun d hd => hasc.head_least _ ((hmem d.name).mpr ⟨d, hd, rfl⟩)⟩

/-- Where no two connectors share a name there is always a choice. -/
theorem choose_fragment_exists (f : Fragment) (htables : f.tables ≠ [])
    (hne : f.connectors ≠ [])
    (hone : ∀ c ∈ f.connectors, ∀ d ∈ f.connectors, c.name = d.name → c = d) :
    ∃ c, choose f.candidates = .ok c := by
  rcases exists_least_name f.connectors hne with ⟨c, hc, hleast⟩
  exact ⟨c, (choose_fragment f c).mpr ⟨htables, hc, hleast, fun d hd hname =>
    hone d hd c hc hname⟩⟩

/-- Where there is something to choose from, nothing but an ambiguous name is refused. -/
theorem choose_fragment_error (f : Fragment) (htables : f.tables ≠ []) (hne : f.connectors ≠ [])
    (cause : PlanningCause) (h : choose f.candidates = .error cause) :
    ∃ name handles, cause = .ambiguousChoice name handles := by
  rcases List.exists_mem_of_ne_nil _ hne with ⟨c, hc⟩
  have hname := (mem_commonNames_candidates f c.name).mpr ⟨htables, c, hc, rfl⟩
  rcases (mem_commonNames_iff _ _).mp hname with ⟨hkeys, hcommon⟩
  cases (choose_eq_iff _ _).mp h with
  | nobody hnobody =>
      rcases hnobody with hnil | hnone
      · exact absurd hnil hkeys
      · exact absurd hcommon (hnone _)
  | several name handles _ _ _ _ _ _ _ _ _ _ => exact ⟨name, handles, rfl⟩

-- A table alone is chosen for as a fragment of one table.
theorem chooseFor_eq (table : TableName) (connectors : List Connector)
    (downstream : Option Nat) :
    chooseFor table connectors
      = choose (Fragment.candidates ⟨connectors, [table], downstream⟩) :=
  rfl

end Federation
