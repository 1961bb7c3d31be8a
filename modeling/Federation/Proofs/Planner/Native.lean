import Federation.Proofs.Planner.Branches
import Federation.Proofs.Planner.Choice

/-!
# Native Joins by Recursion

The native joins of a workflow are found in one pass over the joins, in ascending
order, each from the fragments found before it. Here the pass is read as a
recursion over the tree of joins: a scan has a fragment, its branch, and a join
has one exactly if both of the stretches that lead to it have one and connectors
are left when those the two share are narrowed to the join and what follows it.

`NativeSoFar` is what the pass keeps. A fragment found at a join leads to a
greater number, so it is nothing that an earlier join, or the join itself, could
be fed by; adding it leaves what has been said of the joins before it true.

The fragment of the start whose stretch ends at the terminal is the whole
workflow. If it exists every other fragment does, since a join without one leaves
none for the join it leads to.

## Main definitions

* `joined`: The fragment of a join, from those that lead to it.
* `NativeSoFar`: What the pass over the joins keeps.
* `natives`: The native joins where branches are planned in full.
* `partOf?`: The fragment of a scan or a join.

## Theorems

* `fragmentAt?_eq_some`: When a join is native.
* `nativeSoFar_step`, `nativeFragments_spec`: One join more, and all of them.
* `partOf?_join`: The recursion.
* `wholeFragment?_eq`: The fragment that is the whole workflow.
-/

namespace Federation

/-- The fragment of a join: of the connectors on the left those that the right
    shares and that can run the join with what follows it. -/
def joined (w : Workflow) (join : Nat) (left right : Fragment) : Fragment :=
  ⟨(sharedWith right.connectors left.connectors).filter (w.canRunAll (w.stretch join)),
    ascending (left.tables ++ right.tables), w.downstream join⟩

/-- A join is native if it is fed by two fragments and connectors are left. -/
theorem fragmentAt?_eq_some (w : Workflow) (branches : List Branch)
    (found : List (Nat × Fragment)) (join : Nat) (hlt : join < w.size) (f : Fragment) :
    fragmentAt? w branches found join = some f ↔
      ∃ left right, feeding join branches found = [left, right] ∧
        (joined w join left right).connectors ≠ [] ∧ f = joined w join left right := by
  unfold fragmentAt?
  split
  · rename_i left right hfeeding
    rw [hfeeding]
    -- Narrowing to the join and then to what follows is narrowing to the stretch.
    have hfilter : (w.ableAt join (sharedWith right.connectors left.connectors)).filter
        (w.canRunAll (w.segment (w.next? join)).steps)
        = (joined w join left right).connectors := by
      rw [Workflow.ableAt_eq, Workflow.filter_canRunAll_cons]
      rfl
    have hpair : ∀ a b, [left, right] = [a, b] ↔ a = left ∧ b = right := fun a b => by
      simp only [List.cons.injEq, and_true, eq_comm]
    cases hrun : w.ableAt join (sharedWith right.connectors left.connectors) with
    | nil =>
        rw [hrun, List.filter_nil] at hfilter
        constructor
        · intro h
          cases h
        · rintro ⟨a, b, hab, hne, _⟩
          rcases (hpair a b).mp hab with ⟨rfl, rfl⟩
          exact absurd hfilter.symm hne
    | cons c running =>
        rw [hrun] at hfilter
        have hstop := Workflow.reach_all_isJoinAt w join hlt (c :: running) (List.cons_ne_nil _ _)
        rw [hfilter] at hstop
        simp only
        constructor
        · intro h
          by_cases hall : (w.reach (w.next? join) (c :: running)).stoppedAt.all w.isJoinAt = true
          · rw [if_pos hall, Option.some.injEq] at h
            have hne := hstop.mp hall
            rw [Workflow.reach_whole w join _ (by rw [hfilter]; exact hne), hfilter] at h
            exact ⟨left, right, rfl, hne, h.symm⟩
          · rw [if_neg hall] at h
            cases h
        · rintro ⟨a, b, hab, hne, rfl⟩
          rcases (hpair a b).mp hab with ⟨rfl, rfl⟩
          rw [if_pos (hstop.mpr hne),
            Workflow.reach_whole w join _ (by rw [hfilter]; exact hne), hfilter]
          rfl
  · rename_i hother
    constructor
    · intro h
      cases h
    · rintro ⟨a, b, hab, _, _⟩
      exact absurd hab (hother a b)

/-- What the pass over the joins keeps: fragments are recorded in the order of the
    joins, lead where their joins lead, and are those of their joins given all the
    fragments found. -/
structure NativeSoFar (w : Workflow) (branches : List Branch) (done : List Nat)
    (found : List (Nat × Fragment)) : Prop where
  keys : (found.map Prod.fst).Sublist done
  downstream : ∀ e ∈ found, e.2.downstream = w.downstream e.1
  lookup : ∀ join ∈ done, found.lookup join = fragmentAt? w branches found join

-- A fragment that leads elsewhere does not feed a join.
theorem fragmentAt?_append (w : Workflow) (branches : List Branch)
    (found : List (Nat × Fragment)) (join other : Nat) (f : Fragment)
    (h : f.downstream ≠ some join) :
    fragmentAt? w branches (found ++ [(other, f)]) join = fragmentAt? w branches found join := by
  have hfeeding : feeding join branches (found ++ [(other, f)]) = feeding join branches found := by
    unfold feeding
    have hf : (f.downstream == some join) = false := beq_eq_false_iff_ne.mpr h
    rw [List.map_append, List.filter_append, List.filter_append, List.filter_append]
    simp only [List.map_cons, List.map_nil, List.filter_cons, hf, Bool.false_eq_true, if_false,
      List.filter_nil, List.append_nil]
  unfold fragmentAt?
  rw [hfeeding]

theorem lookup_append_singleton (found : List (Nat × Fragment)) (join other : Nat)
    (f : Fragment) : (found ++ [(other, f)]).lookup join
      = (found.lookup join).or (if join = other then some f else none) := by
  rw [List.lookup_append, List.lookup_cons]
  by_cases h : join = other
  · have hbeq : (join == other) = true := beq_iff_eq.mpr h
    rw [if_pos h, hbeq]
  · have hbeq : (join == other) = false := beq_eq_false_iff_ne.mpr h
    rw [if_neg h, hbeq, List.lookup_nil]

theorem lookup_eq_none_of_keys (found : List (Nat × Fragment)) (join : Nat)
    (h : join ∉ found.map Prod.fst) : found.lookup join = none := by
  rw [List.lookup_eq_none_iff]
  intro e he
  refine bne_iff_ne.mpr fun heq => h ?_
  rw [heq]
  exact List.mem_map_of_mem he

theorem mem_of_lookup {α : Type} (found : List (Nat × α)) (join : Nat) (a : α)
    (h : found.lookup join = some a) : (join, a) ∈ found := by
  rcases List.lookup_eq_some_iff.mp h with ⟨before, after, rfl, _⟩
  exact List.mem_append_right _ List.mem_cons_self

/-- One join more: its fragment, if it has one, is recorded behind the others. -/
theorem nativeSoFar_step (w : Workflow) (branches : List Branch) (done : List Nat)
    (found : List (Nat × Fragment)) (join : Nat) (h : NativeSoFar w branches done found)
    (hjoin : join ∈ w.joins) (hlater : ∀ d ∈ done, d < join) :
    NativeSoFar w branches (done ++ [join])
      (match fragmentAt? w branches found join with
        | some fragment => found ++ [(join, fragment)]
        | none => found) := by
  have hlt := Graph.lt_of_mem_joins _ join hjoin
  -- The join has not been looked at before.
  have hnew : found.lookup join = none := lookup_eq_none_of_keys found join fun hmem => by
    have := hlater join (h.keys.subset hmem)
    omega
  cases hf : fragmentAt? w branches found join with
  | none =>
      refine ⟨h.keys.trans (List.sublist_append_left _ _), h.downstream, fun k hk => ?_⟩
      rcases List.mem_append.mp hk with hk | hk
      · exact h.lookup k hk
      · rw [List.mem_singleton.mp hk, hnew, hf]
  | some f =>
      rcases (fragmentAt?_eq_some w branches found join hlt f).mp hf with ⟨_, _, _, _, rfl⟩
      -- What is found at the join leads beyond it and beyond all joins before.
      have hbeyond : ∀ k ≤ join, w.downstream join ≠ some k := fun k hk hd => by
        have := (Workflow.downstream_spec w join k hlt hd).2
        omega
      refine ⟨?_, fun e he => ?_, fun k hk => ?_⟩
      · rw [List.map_append]
        exact h.keys.append (List.Sublist.refl [join])
      · rcases List.mem_append.mp he with he | he
        · exact h.downstream e he
        · rw [List.mem_singleton.mp he]
          rfl
      · rw [lookup_append_singleton]
        rcases List.mem_append.mp hk with hk | hk
        · have hkj := hlater k hk
          rw [fragmentAt?_append w branches found k join _ (hbeyond k (by omega)),
            if_neg (by omega), Option.or_none]
          exact h.lookup k hk
        · rw [List.mem_singleton.mp hk, fragmentAt?_append w branches found join join _
            (hbeyond join (by omega)), hnew, if_pos rfl, hf]
          rfl

theorem joins_pairwise_lt (w : Workflow) : w.joins.Pairwise (· < ·) :=
  (Graph.ids_pairwise_lt _).filter _

/-- After the pass every join has been looked at. -/
theorem nativeFragments_spec (w : Workflow) (branches : List Branch) :
    NativeSoFar w branches w.joins (nativeFragments w branches) := by
  suffices h : ∀ (l done : List Nat) (found : List (Nat × Fragment)),
      NativeSoFar w branches done found → (done ++ l).Pairwise (· < ·) →
        (∀ join ∈ l, join ∈ w.joins) →
          NativeSoFar w branches (done ++ l)
            (l.foldl
              (fun found join =>
                match fragmentAt? w branches found join with
                | some fragment => found ++ [(join, fragment)]
                | none => found)
              found) from
    h w.joins [] [] ⟨List.Sublist.refl _, fun e he => absurd he List.not_mem_nil,
      fun k hk => absurd hk List.not_mem_nil⟩ (joins_pairwise_lt w) (fun _ hk => hk)
  intro l
  induction l with
  | nil =>
      intro done found h _ _
      rw [List.append_nil]
      exact h
  | cons join rest ih =>
      intro done found h hlt hjoins
      have hbefore := (List.pairwise_append.mp hlt).2.2
      have hstep := nativeSoFar_step w branches done found join h
        (hjoins join List.mem_cons_self) fun d hd => hbefore d hd join List.mem_cons_self
      have hsplit : done ++ join :: rest = (done ++ [join]) ++ rest := by
        rw [List.append_assoc, List.singleton_append]
      rw [hsplit] at hlt ⊢
      rw [List.foldl_cons]
      exact ih (done ++ [join]) _ hstep hlt fun k hk => hjoins k (List.mem_cons_of_mem _ hk)

-- Looking up keys in order finds the entries that were recorded in their order.
theorem filterMap_lookup (found : List (Nat × Fragment)) (l : List Nat)
    (hsub : (found.map Prod.fst).Sublist l) (hnodup : l.Nodup) :
    l.filterMap (List.lookup · found) = found.map Prod.snd := by
  induction l generalizing found with
  | nil =>
      rw [List.sublist_nil, List.map_eq_nil_iff] at hsub
      rw [hsub]
      rfl
  | cons k rest ih =>
      rcases List.nodup_cons.mp hnodup with ⟨hk, hrest⟩
      by_cases hkey : k ∈ found.map Prod.fst
      · -- The first entry is that of the first key.
        cases found with
        | nil => exact absurd hkey List.not_mem_nil
        | cons e more =>
            have hcons := hsub
            rw [List.map_cons, List.cons_sublist_cons'] at hcons
            rcases hcons with hlate | ⟨heq, hmore⟩
            · exact absurd (hlate.subset hkey) hk
            · have hself : (k == e.1) = true := beq_iff_eq.mpr heq.symm
              have hlookup : (e :: more).lookup k = some e.2 := by
                rw [List.lookup_cons, hself]
              have hother : ∀ j ∈ rest, (e :: more).lookup j = more.lookup j := fun j hj => by
                have hne : (j == e.1) = false := beq_eq_false_iff_ne.mpr fun h => by
                  rw [h, heq] at hj
                  exact hk hj
                rw [List.lookup_cons, hne]
              rw [List.filterMap_cons_some (f := (List.lookup · (e :: more))) hlookup,
                List.filterMap_congr hother, ih more hmore hrest]
              rfl
      · have hsub' : (found.map Prod.fst).Sublist rest := by
          rcases List.sublist_cons_iff.mp hsub with h | ⟨keys, heq, _⟩
          · exact h
          · rw [heq] at hkey
            exact absurd List.mem_cons_self hkey
        rw [List.filterMap_cons_none (f := (List.lookup · found))
          (lookup_eq_none_of_keys found k hkey), ih found hsub' hrest]

/-- The native joins of a workflow whose branches are planned in full. -/
def natives (s : Snapshot) (w : Workflow) : List (Nat × Fragment) :=
  nativeFragments w (w.scans.map (wholeBranch s w))

theorem natives_spec (s : Snapshot) (w : Workflow) :
    NativeSoFar w (w.scans.map (wholeBranch s w)) w.joins (natives s w) :=
  nativeFragments_spec w _

/-- The fragment of a scan or a join, where there is one. -/
def partOf? (s : Snapshot) (w : Workflow) (t : Nat) : Option Fragment :=
  if w.isJoinAt t then (natives s w).lookup t
  else some (Fragment.ofBranch (wholeBranch s w t))

-- The fragment of a scan is its branch.
theorem partOf?_scan (s : Snapshot) (w : Workflow) (t : Nat) (ht : t ∈ w.scans) :
    partOf? s w t = some (Fragment.ofBranch (wholeBranch s w t)) := by
  have hjoin := Graph.not_mem_joins_of_mem_scans _ t ht
  rw [Graph.mem_joins] at hjoin
  exact if_neg hjoin

theorem partOf?_lookup (s : Snapshot) (w : Workflow) (t : Nat) (ht : t ∈ w.joins) :
    partOf? s w t = (natives s w).lookup t :=
  if_pos ((Graph.mem_joins _ t).mp ht)

-- Keys that are listed once find their entries.
theorem lookup_of_mem (found : List (Nat × Fragment)) (hnodup : (found.map Prod.fst).Nodup)
    (e : Nat × Fragment) (he : e ∈ found) : found.lookup e.1 = some e.2 := by
  induction found with
  | nil => exact absurd he List.not_mem_nil
  | cons d rest ih =>
      rw [List.map_cons, List.nodup_cons] at hnodup
      rw [List.lookup_cons]
      rcases List.mem_cons.mp he with rfl | he
      · rw [beq_self_eq_true]
      · have hne : (e.1 == d.1) = false := beq_eq_false_iff_ne.mpr fun heq =>
          hnodup.1 (heq ▸ List.mem_map_of_mem he)
        rw [hne]
        exact ih hnodup.2 he

-- A native join is a join, and what is recorded of it is its part.
theorem mem_natives (s : Snapshot) (w : Workflow) (e : Nat × Fragment) (he : e ∈ natives s w) :
    e.1 ∈ w.joins ∧ partOf? s w e.1 = some e.2 := by
  have hkeys := (natives_spec s w).keys
  have hjoin := hkeys.subset (List.mem_map_of_mem he)
  refine ⟨hjoin, ?_⟩
  rw [partOf?_lookup s w e.1 hjoin]
  exact lookup_of_mem _ (hkeys.nodup ((Graph.ids_nodup _).filter _)) e he

-- What feeds a join are the fragments of the stretches that lead to it.
theorem feeding_eq (s : Snapshot) (w : Workflow) (join : Nat) :
    feeding join (w.scans.map (wholeBranch s w)) (natives s w)
      = (w.feeders join).filterMap (partOf? s w) := by
  have hspec := natives_spec s w
  unfold feeding Workflow.feeders Workflow.starts
  rw [List.filter_append, List.filter_append, List.filterMap_append]
  congr 1
  · -- Branches lead where their scans do.
    rw [List.map_map, List.filter_map, ← List.filterMap_eq_map]
    refine (List.filterMap_congr fun t ht => ?_).trans (congrArg _ (List.filter_congr fun t _ => ?_))
    · rw [partOf?_scan s w t (List.mem_filter.mp ht).1]
      rfl
    · show (w.downstream t == some join) = _
      rw [Bool.eq_iff_iff, beq_iff_eq, decide_eq_true_eq]
  · -- Fragments lead where their joins do.
    have hall : (natives s w).map (·.2) = w.joins.filterMap (List.lookup · (natives s w)) :=
      (filterMap_lookup _ _ hspec.keys ((Graph.ids_nodup _).filter _)).symm
    rw [hall, List.filter_filterMap, List.filterMap_filter]
    refine List.filterMap_congr fun t ht => ?_
    rw [partOf?_lookup s w t ht]
    cases hf : (natives s w).lookup t with
    | none =>
        rw [ite_self]
        rfl
    | some f =>
        have hdown := hspec.downstream (t, f) (mem_of_lookup _ t f hf)
        simp only [Option.filter_some, beq_iff_eq, decide_eq_true_eq]
        rw [hdown]

theorem filterMap_pair (p : Nat → Option Fragment) (a b : Nat) (left right : Fragment) :
    [a, b].filterMap p = [left, right] ↔ p a = some left ∧ p b = some right := by
  cases ha : p a with
  | none =>
      cases hb : p b <;> simp [ha, hb]
  | some l =>
      cases hb : p b <;> simp [ha, hb]

/-- A join has a fragment exactly if the two stretches that lead to it have one and
    connectors are left. -/
theorem partOf?_join (s : Snapshot) (w : Workflow) (join a b : Nat) (hjoin : join ∈ w.joins)
    (hpair : w.feeders join = [a, b]) (f : Fragment) :
    partOf? s w join = some f ↔
      ∃ left right, (partOf? s w a = some left ∧ partOf? s w b = some right) ∧
        (joined w join left right).connectors ≠ [] ∧ f = joined w join left right := by
  rw [partOf?_lookup s w join hjoin, (natives_spec s w).lookup join hjoin,
    fragmentAt?_eq_some w _ _ join (Graph.lt_of_mem_joins _ join hjoin), feeding_eq, hpair]
  simp only [filterMap_pair]

-- A part has a fragment only if everything that feeds it has one.
theorem partOf?_feeds (s : Snapshot) (w : Workflow) (t u : Nat) (ht : t ∈ w.starts)
    (hfeeds : w.Feeds t u) (h : (partOf? s w u).isSome = true) :
    (partOf? s w t).isSome = true := by
  induction hfeeds with
  | refl => exact h
  | @tail v u hv hd ih =>
      refine ih ?_
      have hvs := Workflow.feeds_starts w t v ht hv
      have hjoin := (Workflow.downstream_spec w v u (Workflow.starts_lt w v hvs) hd).1
      rcases Workflow.feeders_pair w u hjoin with ⟨a, b, hpair⟩
      rcases Option.isSome_iff_exists.mp h with ⟨f, hf⟩
      rcases (partOf?_join s w u a b hjoin hpair f).mp hf with ⟨left, right, ⟨ha, hb⟩, _⟩
      have hmem : v ∈ w.feeders u := (Workflow.mem_feeders w u v).mpr ⟨hvs, hd⟩
      rw [hpair, List.mem_pair] at hmem
      rcases hmem with rfl | rfl
      · rw [ha]
        rfl
      · rw [hb]
        rfl

-- Where one key alone leads nowhere, the first entry that does is that of the key.
theorem find?_downstream (found : List (Nat × Fragment)) (root : Nat)
    (h : ∀ e ∈ found, e.2.downstream = none ↔ e.1 = root) :
    (found.find? fun f => f.2.downstream.isNone).map (·.2) = found.lookup root := by
  induction found with
  | nil => rfl
  | cons e rest ih =>
      rw [List.find?_cons, List.lookup_cons]
      have hrest := ih fun d hd => h d (List.mem_cons_of_mem _ hd)
      by_cases he : e.1 = root
      · have hself : (root == e.1) = true := beq_iff_eq.mpr he.symm
        rw [(h e List.mem_cons_self).mpr he, hself]
        rfl
      · have hother : (root == e.1) = false := beq_eq_false_iff_ne.mpr fun heq => he heq.symm
        have hsome : e.2.downstream.isNone = false := by
          rw [Option.isNone_eq_false_iff, Option.isSome_iff_ne_none]
          exact fun hnone => he ((h e List.mem_cons_self).mp hnone)
        rw [hsome, hother]
        exact hrest

-- A workflow without joins has one scan, the one whose stretch ends it.
theorem scans_of_no_joins (w : Workflow) (root : Nat) (hroot : w.IsRoot root)
    (hnone : w.joins = []) : w.scans = [root] := by
  have hstarts : w.starts = w.scans := by
    unfold Workflow.starts
    rw [hnone, List.append_nil]
  have hall : ∀ t ∈ w.scans, t = root := fun t ht => by
    have hs : t ∈ w.starts := Workflow.mem_starts_of_scan w t ht
    refine (hroot.downstream_eq_none t hs).mp ?_
    cases hd : w.downstream t with
    | none => rfl
    | some join =>
        have hjoin := (Workflow.downstream_spec w t join (Workflow.starts_lt w t hs) hd).1
        rw [hnone] at hjoin
        exact absurd hjoin List.not_mem_nil
  have hmem := hroot.mem
  have hnodup := Workflow.starts_nodup w
  rw [hstarts] at hmem hnodup
  exact List.perm_singleton.mp ((List.perm_ext_iff_of_nodup hnodup (List.nodup_singleton root)).mpr
    fun t => ⟨fun ht => List.mem_singleton.mpr (hall t ht),
      fun ht => by rw [List.mem_singleton.mp ht]; exact hmem⟩)

-- A workflow with joins ends with the stretch of a join, since a scan is fed by
-- nothing.
theorem root_mem_joins (w : Workflow) (root : Nat) (hroot : w.IsRoot root)
    (hsome : w.joins ≠ []) : root ∈ w.joins := by
  rcases List.exists_mem_of_ne_nil _ hsome with ⟨join, hjoin⟩
  have hstart : join ∈ w.starts := Workflow.mem_starts_of_join w join hjoin
  rcases (Workflow.mem_starts w root).mp hroot.mem with hscan | h
  · have hfeeds := Workflow.feeds_root w root hroot join hstart
    rw [Workflow.feeds_scan w join root hstart hscan hfeeds] at hjoin
    exact hjoin
  · exact h

-- The last join is the one whose stretch ends at the terminal, since every other
-- leads to a later one.
theorem joins_getLast? (w : Workflow) (root : Nat) (hroot : w.IsRoot root)
    (hjoin : root ∈ w.joins) : w.joins.getLast? = some root := by
  have hne := List.ne_nil_of_mem hjoin
  have hsplit := List.dropLast_append_getLast hne
  have hlast := List.getLast_mem hne
  rw [List.getLast?_eq_some_getLast hne]
  refine congrArg some ((hroot.downstream_eq_none _
    (Workflow.mem_starts_of_join w _ hlast)).mp ?_)
  cases hd : w.downstream (w.joins.getLast hne) with
  | none => rfl
  | some j =>
      rcases Workflow.downstream_spec w _ j (Graph.lt_of_mem_joins _ _ hlast) hd with ⟨hj, hlt⟩
      have hpair := joins_pairwise_lt w
      rw [← hsplit] at hpair hj
      rcases List.mem_append.mp hj with hj | hj
      · have := (List.pairwise_append.mp hpair).2.2 j hj _ (List.mem_singleton_self _)
        omega
      · rw [List.mem_singleton.mp hj] at hlt
        omega

/-- The fragment that is the whole workflow is the part that ends it. -/
theorem wholeFragment?_eq (s : Snapshot) (w : Workflow) (root : Nat)
    (hroot : w.IsRoot root) :
    wholeFragment? w (w.scans.map (wholeBranch s w)) (natives s w) = partOf? s w root := by
  have hspec := natives_spec s w
  unfold wholeFragment?
  cases hjoins : w.joins with
  | nil =>
      have hscans := scans_of_no_joins w root hroot hjoins
      have hscan : root ∈ w.scans := by
        rw [hscans]
        exact List.mem_singleton_self root
      rw [partOf?_scan s w root hscan, hscans]
      have hend : (wholeBranch s w root).next.isNone = true := by
        show (w.downstream root).isNone = true
        rw [(hroot.downstream_eq_none root hroot.mem).mpr rfl]
        rfl
      simp only [List.map_cons, List.map_nil]
      rw [if_pos hend]
  | cons join others =>
      have hjoin := root_mem_joins w root hroot (by rw [hjoins]; exact List.cons_ne_nil _ _)
      simp only
      rw [← hjoins, partOf?_lookup s w root hjoin]
      by_cases hall : (w.joins.all fun join =>
          ((natives s w).lookup join).isSome) = true
      · rw [if_pos hall]
        refine find?_downstream _ root fun e he => ?_
        have hkey := hspec.keys.subset (List.mem_map_of_mem he)
        rw [hspec.downstream e he]
        exact hroot.downstream_eq_none e.1 (Workflow.mem_starts_of_join w e.1 hkey)
      · -- Everything feeds the end, so the end is native only if all joins are.
        rw [if_neg hall]
        refine (Option.not_isSome_iff_eq_none.mp fun hsome => hall ?_).symm
        rw [List.all_eq_true]
        intro t ht
        have hstart : t ∈ w.starts := Workflow.mem_starts_of_join w t ht
        rw [← partOf?_lookup s w t ht]
        rw [← partOf?_lookup s w root hjoin] at hsome
        exact partOf?_feeds s w t root hstart (Workflow.feeds_root w root hroot t hstart) hsome

end Federation
