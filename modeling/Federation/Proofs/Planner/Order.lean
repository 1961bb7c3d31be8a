import Federation.Proofs.Planner.Rearranged
import Federation.Proofs.Planner.Outcome

/-!
# Plans Do Not Depend on the Order

Planned on two registries that list the same connectors in different orders, a read
comes to the same plan. Branches differ in nothing but the order of the candidates
they keep, and so do the native joins found from them. From then on the order is
gone: the same connectors are settled, assigned and asked to merge, and where planning
fails it fails in one way.

An ambiguous name would not be safe, because the connector that a join takes over from
the join it feeds is the first one of its name. A choice is never in danger: it fails on
an ambiguous name, and lists the addresses in ascending order.

## Main definitions

* `Fragment.Alike`, `AssignedBranch.Alike`, `Plan.Alike`: The same but for the order of
  the candidates.

## Theorems

* `nativeFragments_alike`, `wholeFragment?_alike`: What can be native.
* `settle_alike`, `assign_alike`: Who is settled and assigned.
* `mergeStages_alike`: The stages.
* `Plan.Alike.text_eq`, `Plan.Alike.units_eq`: What is seen of a plan.
* `planSelect_alike`, `planSelect_reordered`: Plans for rearranged snapshots.
* `reordered_divided`: Two clusters with two connectors each.
-/

namespace Federation

/-! ### Native joins -/

/-- Whether two fragments are the same but for the order of the connectors. -/
structure Fragment.Alike (f f' : Fragment) : Prop where
  tables_eq : f.tables = f'.tables
  downstream_eq : f.downstream = f'.downstream
  connectors : Rearranged f.connectors f'.connectors

-- Branches that are alike are alike as fragments.
theorem ofBranch_alike {b b' : Branch} (h : b.Alike b') :
    (Fragment.ofBranch b).Alike (Fragment.ofBranch b') :=
  ⟨congrArg (fun table => [table]) h.table_eq, h.next_eq, h.connectors⟩

/-- Whether two fragments of joins are alike, and of one join. -/
def AlikeAt (e e' : Nat × Fragment) : Prop := e.1 = e'.1 ∧ e.2.Alike e'.2

theorem feeding_alike (join : Nat) {branches branches' : List Branch}
    {found found' : List (Nat × Fragment)} (hb : List.Forall₂ Branch.Alike branches branches')
    (hf : List.Forall₂ AlikeAt found found') :
    List.Forall₂ Fragment.Alike (feeding join branches found)
      (feeding join branches' found') := by
  unfold feeding
  refine List.rel_filter (fun f f' h => ?_) (List.rel_append ?_ ?_)
  · show (f.downstream == some join) = true ↔ (f'.downstream == some join) = true
    rw [h.downstream_eq]
  · exact List.rel_map (fun b b' h => ofBranch_alike h) hb
  · exact List.rel_map (fun e e' h => h.2) hf

-- Narrowed to a join, the connectors that two inputs share are rearranged like the
-- inputs.
theorem ableAt_sharedWith_alike (w : Workflow) (join : Nat) {left left' right right' : Fragment}
    (hleft : left.Alike left') (hright : right.Alike right') :
    Rearranged (w.ableAt join (sharedWith right.connectors left.connectors))
      (w.ableAt join (sharedWith right'.connectors left'.connectors)) := by
  rw [Workflow.ableAt_eq, Workflow.ableAt_eq]
  exact (hleft.connectors.sharedWith hright.connectors).filter _

/-- Whether a join is native, and with which connectors, does not depend on the order. -/
theorem fragmentAt?_alike (w : Workflow) (join : Nat) {branches branches' : List Branch}
    {found found' : List (Nat × Fragment)} (hb : List.Forall₂ Branch.Alike branches branches')
    (hf : List.Forall₂ AlikeAt found found') :
    Option.Rel Fragment.Alike (fragmentAt? w branches found join)
      (fragmentAt? w branches' found' join) := by
  have hfeeding := feeding_alike join hb hf
  unfold fragmentAt?
  generalize feeding join branches found = inputs at hfeeding ⊢
  generalize feeding join branches' found' = inputs' at hfeeding ⊢
  -- A join has two inputs, or is not looked at.
  rcases hfeeding with _ | ⟨hleft, _ | ⟨hright, _ | ⟨_, _⟩⟩⟩
  · exact Option.Rel.none
  · exact Option.Rel.none
  · have hable := ableAt_sharedWith_alike w join hleft hright
    simp only
    rcases perm_cases hable.perm with ⟨hnil, hnil'⟩ | ⟨c, running, c', running', hrun, hrun'⟩
    · rw [hnil, hnil']
      exact Option.Rel.none
    · rw [hrun, hrun'] at hable ⊢
      have hreach := reach_alike w (w.next? join) _ _ hable
      simp only
      rw [hreach.stoppedAt_eq]
      split
      · refine Option.Rel.some ⟨?_, rfl, hreach.connectors⟩
        rw [hleft.tables_eq, hright.tables_eq]
      · exact Option.Rel.none
  · exact Option.Rel.none

/-- The native joins are the same whatever the order. -/
theorem nativeFragments_alike (w : Workflow) {branches branches' : List Branch}
    (hb : List.Forall₂ Branch.Alike branches branches') :
    List.Forall₂ AlikeAt (nativeFragments w branches) (nativeFragments w branches') := by
  unfold nativeFragments
  -- What is found so far stays alike with each join.
  refine List.rel_foldl (P := List.Forall₂ AlikeAt) (R := fun join join' => join = join')
    (fun found found' hf join join' hjoin => ?_) List.Forall₂.nil
    (List.forall₂_same.mpr fun _ _ => rfl)
  cases hjoin
  have hfragment := fragmentAt?_alike w join hb hf
  generalize fragmentAt? w branches found join = fragment at hfragment ⊢
  generalize fragmentAt? w branches' found' join = fragment' at hfragment ⊢
  cases hfragment with
  | none => exact hf
  | some h => exact List.rel_append hf (List.Forall₂.cons ⟨rfl, h⟩ List.Forall₂.nil)

-- The same joins have fragments.
theorem lookup_alike {found found' : List (Nat × Fragment)}
    (hf : List.Forall₂ AlikeAt found found') (join : Nat) :
    (found.lookup join).isSome = (found'.lookup join).isSome := by
  induction hf with
  | nil => rfl
  | @cons e e' _ _ h _ ih =>
      obtain ⟨k, f⟩ := e
      obtain ⟨k', f'⟩ := e'
      cases h.1
      rw [List.lookup_cons, List.lookup_cons]
      cases join == k with
      | true => rfl
      | false => exact ih

theorem find?_downstream_alike {found found' : List (Nat × Fragment)}
    (hf : List.Forall₂ AlikeAt found found') :
    Option.Rel Fragment.Alike ((found.find? fun f => f.2.downstream.isNone).map (·.2))
      ((found'.find? fun f => f.2.downstream.isNone).map (·.2)) := by
  induction hf with
  | nil => exact Option.Rel.none
  | @cons e e' _ _ h _ ih =>
      rw [List.find?_cons, List.find?_cons, h.2.downstream_eq]
      cases e'.2.downstream.isNone with
      | true => exact Option.Rel.some h.2
      | false => exact ih

/-- The fragment that is the whole workflow is the same whatever the order. -/
theorem wholeFragment?_alike (w : Workflow) {branches branches' : List Branch}
    {found found' : List (Nat × Fragment)} (hb : List.Forall₂ Branch.Alike branches branches')
    (hf : List.Forall₂ AlikeAt found found') :
    Option.Rel Fragment.Alike (wholeFragment? w branches found)
      (wholeFragment? w branches' found') := by
  unfold wholeFragment?
  simp only [lookup_alike hf]
  split
  · rcases hb with _ | ⟨h, _ | ⟨_, _⟩⟩
    · exact Option.Rel.none
    · simp only [h.next_eq]
      split
      · exact Option.Rel.some (ofBranch_alike h)
      · exact Option.Rel.none
    · exact Option.Rel.none
  · split
    · exact find?_downstream_alike hf
    · exact Option.Rel.none

/-! ### Settled and assigned connectors -/

-- For each of its tables a fragment offers one and the same list.
theorem values_candidates (f : Fragment) :
    f.candidates.values = List.replicate f.candidates.keys.length f.connectors := by
  refine List.eq_replicate_iff.mpr ⟨?_, fun l hl => ((mem_values_candidates f l).mp hl).2⟩
  rw [SortedMap.values, SortedMap.keys, List.length_map, List.length_map]

/-- The choice for a fragment does not depend on the order. -/
theorem choose_alike (f f' : Fragment) (h : f.Alike f') :
    choose f.candidates = choose f'.candidates := by
  have hkeys : f.candidates.keys = f'.candidates.keys := by
    unfold Fragment.candidates
    rw [SortedMap.keys_ofList_map (fun _ => f.connectors),
      SortedMap.keys_ofList_map (fun _ => f'.connectors), h.tables_eq]
  refine choose_of_sameOffers _ _ ⟨hkeys, fun table l l' hl hl' c => ?_⟩
  rw [((Fragment.get?_candidates f table l).mp hl).2,
    ((Fragment.get?_candidates f' table l').mp hl').2]
  exact h.connectors.perm.mem_iff

-- What is taken over is found by its name.
theorem inherited?_alike (settled : List (Nat × Connector)) (f f' : Fragment) (h : f.Alike f') :
    inherited? settled f.downstream f.connectors
      = inherited? settled f'.downstream f'.connectors := by
  unfold inherited?
  simp only [h.downstream_eq, h.connectors.find?_name]

/-- The same connectors are settled whatever the order. -/
theorem settle_alike {native native' : List (Nat × Fragment)}
    (h : List.Forall₂ AlikeAt native native') : settle native = settle native' := by
  induction h with
  | nil => rfl
  | @cons e e' _ _ h _ ih =>
      obtain ⟨join, f⟩ := e
      obtain ⟨join', f'⟩ := e'
      obtain ⟨hjoin, hf⟩ := h
      cases hjoin
      unfold settle
      simp only [ih, fun settled => inherited?_alike settled f f' hf, choose_alike f f' hf]

/-- Whether two branches are alike and assigned to one connector. -/
structure AssignedBranch.Alike (a a' : AssignedBranch) : Prop where
  branch : a.branch.Alike a'.branch
  connector_eq : a.connector = a'.connector

/-- A branch is assigned to the same connector whatever the order. -/
theorem assign_alike (settled : List (Nat × Connector)) (b b' : Branch) (h : b.Alike b') :
    Agree AssignedBranch.Alike (assign settled b) (assign settled b') := by
  have hf := ofBranch_alike h
  have hinherited : inherited? settled b.next b.connectors
      = inherited? settled b'.next b'.connectors := inherited?_alike settled _ _ hf
  have hchoice : chooseFor b.table b.connectors = chooseFor b'.table b'.connectors :=
    choose_alike _ _ hf
  unfold assign
  rw [hinherited, hchoice]
  split
  · exact Agree.ok _ _ ⟨h, rfl⟩
  · cases chooseFor b'.table b'.connectors with
    | ok c => exact Agree.ok _ _ ⟨h, rfl⟩
    | error e => exact Agree.error e

/-! ### Stages -/

-- What arrives at a join is told by the steps and the connectors of the branches.
theorem feedsOf_alike (w : Workflow) {branches branches' : List AssignedBranch}
    (h : List.Forall₂ AssignedBranch.Alike branches branches') (stages : List Stage) (join : Nat) :
    feedsOf w branches stages join = feedsOf w branches' stages join := by
  unfold feedsOf
  congr 1
  have hfilter : ∀ (l : List (AssignedBranch × Nat)) (f : AssignedBranch × Nat → Option Feed),
      l.filterMap f = (l.map f).filterMap id := fun l f => by
    rw [List.filterMap_map]
    rfl
  rw [hfilter, hfilter]
  congr 1
  refine zipIdx_map_congr h fun a a' i ha => ?_
  simp only [ha.branch.next_eq, ha.branch.table_eq, ha.branch.steps_eq, ha.connector_eq]

/-- The stages are the same whatever the order. -/
theorem mergeStages_alike (fallback : MergeFallback) (w : Workflow)
    {branches branches' : List AssignedBranch}
    (h : List.Forall₂ AssignedBranch.Alike branches branches') (settled : List (Nat × Connector)) :
    mergeStages fallback w branches settled = mergeStages fallback w branches' settled := by
  unfold mergeStages
  congr 1
  funext stages join
  unfold stageAt
  rw [feedsOf_alike w h stages join]

/-! ### Plans -/

/-- Whether two plans in branches are the same but for the order of the candidates. -/
structure MultiPlan.Alike (m m' : MultiPlan) : Prop where
  query_eq : m.query = m'.query
  branches : List.Forall₂ AssignedBranch.Alike m.branches m'.branches
  stages_eq : m.stages = m'.stages
  workflow_eq : m.workflow = m'.workflow

/-- Whether two plans are the same but for the order of the candidates of branches. -/
inductive Plan.Alike : Plan → Plan → Prop
  | refl (p : Plan) : Alike p p
  | multi (m m' : MultiPlan) (h : m.Alike m') : Alike (.multi m) (.multi m')

/-- Plans that are alike are explained in one way. -/
theorem Plan.Alike.text_eq {p p' : Plan} (h : p.Alike p') : p.text = p'.text := by
  cases h with
  | refl => rfl
  | multi m m' h =>
      unfold Plan.text
      simp only [h.query_eq, h.stages_eq, h.workflow_eq]
      congr 3
      refine zipIdx_map_congr h.branches fun a a' i ha => ?_
      simp only [ha.branch.table_eq, ha.branch.steps_eq, ha.connector_eq]

/-- Plans that are alike send the same to the same connectors. -/
theorem Plan.Alike.units_eq {p p' : Plan} (h : p.Alike p') : p.units = p'.units := by
  cases h with
  | refl => rfl
  | multi m m' h =>
      unfold Plan.units
      simp only [h.stages_eq]
      congr 1
      rcases h with ⟨_, hbranches, _, _⟩
      generalize m.branches = branches at hbranches ⊢
      generalize m'.branches = branches' at hbranches ⊢
      induction hbranches with
      | nil => rfl
      | cons ha _ ih =>
          rw [List.map_cons, List.map_cons, ih, ha.connector_eq, ha.branch.steps_eq]

-- Failures of a run agree if their causes do.
theorem during_agree {α β : Type} {R : α → β → Prop} (query : QueryId) (phase : Phase)
    {x : Except PlanningCause α} {y : Except PlanningCause β} (h : Agree R x y) :
    Agree R (during query phase x) (during query phase y) := by
  cases h with
  | ok a b hab => exact Agree.ok a b hab
  | error e => exact Agree.error _

-- The plan of a whole workflow keeps no candidates.
theorem wholePlan_alike (query : QueryId) (w : Workflow) (f f' : Fragment) (h : f.Alike f') :
    wholePlan query w f = wholePlan query w f' := by
  unfold wholePlan
  rw [choose_alike f f' h]

theorem splitPlan_alike (fallback : MergeFallback) (query : QueryId) (w : Workflow)
    {branches branches' : List Branch} {native native' : List (Nat × Fragment)}
    (hb : List.Forall₂ Branch.Alike branches branches')
    (hn : List.Forall₂ AlikeAt native native') :
    Agree MultiPlan.Alike (splitPlan fallback query w branches native)
      (splitPlan fallback query w branches' native') := by
  unfold splitPlan
  rw [settle_alike hn]
  refine (Agree.of_eq rfl).bind fun settled _ hsettled => ?_
  cases hsettled
  refine (Agree.mapM hb fun b _ b' h => assign_alike settled b b' h).bind
    fun assigned assigned' hassigned => ?_
  rw [mergeStages_alike fallback w hassigned settled]
  refine (Agree.of_eq rfl).bind fun stages _ hstages => ?_
  cases hstages
  exact Agree.ok _ _ ⟨rfl, hassigned, rfl, rfl⟩

-- As many stages are too many or not.
theorem limitStages_alike (config : PlannerConfig) (m m' : MultiPlan) (h : m.Alike m') :
    Agree Plan.Alike (limitStages config m) (limitStages config m') := by
  unfold limitStages
  rw [h.stages_eq]
  split
  · exact Agree.error _
  · exact Agree.ok _ _ (Plan.Alike.multi m m' h)

/-- Reads are planned alike on rearranged snapshots, or fail in one way. -/
theorem planSelect_alike (config : PlannerConfig) (query : QueryId) (w : Workflow)
    (s s' : Snapshot) (h : s.Rearranged s') :
    Agree Plan.Alike (planSelect config query w s) (planSelect config query w s') := by
  unfold planSelect
  refine (during_agree query _ (branchesOf_alike s s' w h)).bind
    fun branches branches' hbranches => ?_
  have hnative := nativeFragments_alike w hbranches
  have hwhole := wholeFragment?_alike w hbranches hnative
  simp only
  generalize wholeFragment? w branches (nativeFragments w branches) = whole at hwhole ⊢
  generalize wholeFragment? w branches' (nativeFragments w branches') = whole' at hwhole ⊢
  cases hwhole with
  | some hf =>
      simp only
      rw [wholePlan_alike query w _ _ hf]
      exact (Agree.of_eq rfl).imp fun p _ hp => hp ▸ Plan.Alike.refl p
  | none =>
      refine (during_agree query _ (splitPlan_alike _ query w hbranches hnative)).bind
        fun m m' hm => ?_
      exact during_agree query _ (limitStages_alike config m m' hm)

/-- On snapshots that list the same connectors for each cluster in different orders, one
    for each name, a read fails in one way, or is planned in one shape, with the same
    stages and the same branches but for the order of their candidates, so that it is
    explained in one way and the same is sent to the same connectors. -/
theorem planSelect_reordered (config : PlannerConfig) (query : QueryId) (w : Workflow)
    (s s' : Snapshot) (hperm : ∀ cluster, (s.connectorsOf cluster).Perm (s'.connectorsOf cluster))
    (hone : s.OneDefinition) :
    (∃ e, planSelect config query w s = .error e ∧ planSelect config query w s' = .error e) ∨
      ∃ p p', planSelect config query w s = .ok p ∧ planSelect config query w s' = .ok p' ∧
        p.Alike p' ∧ p.text = p'.text ∧ p.units = p'.units := by
  have hagree := planSelect_alike config query w s s' ⟨hperm, hone⟩
  rcases (agree_iff _ _ _).mp hagree with herror | ⟨p, p', hp, hp', halike⟩
  · exact Or.inl herror
  · exact Or.inr ⟨p, p', hp, hp', halike, halike.text_eq, halike.units_eq⟩

/-- Where both clusters have two connectors, which is discovered first does not matter. -/
theorem reordered_divided :
    (eastAndWest [⟨"a"⟩, ⟨"c"⟩] [⟨"b"⟩, ⟨"d"⟩]).OneDefinition ∧
      ∃ p p', planSelect .default ⟨"q"⟩ joinedRead
          (eastAndWest [⟨"a"⟩, ⟨"c"⟩] [⟨"b"⟩, ⟨"d"⟩]) = .ok p ∧
        planSelect .default ⟨"q"⟩ joinedRead
          (eastAndWest [⟨"c"⟩, ⟨"a"⟩] [⟨"d"⟩, ⟨"b"⟩]) = .ok p' ∧
        p.Alike p' ∧ p.text = p'.text ∧ p.units = p'.units := by
  have hone : (eastAndWest [⟨"a"⟩, ⟨"c"⟩] [⟨"b"⟩, ⟨"d"⟩]).OneDefinition := by decide
  have hperm : ∀ cluster,
      ((eastAndWest [⟨"a"⟩, ⟨"c"⟩] [⟨"b"⟩, ⟨"d"⟩]).connectorsOf cluster).Perm
        ((eastAndWest [⟨"c"⟩, ⟨"a"⟩] [⟨"d"⟩, ⟨"b"⟩]).connectorsOf cluster) := fun cluster => by
    rw [connectorsOf_eastAndWest, connectorsOf_eastAndWest]
    split
    · exact List.Perm.swap _ _ _
    · split
      · exact List.Perm.swap _ _ _
      · exact List.Perm.nil
  have hok : ∃ p, planSelect .default ⟨"q"⟩ joinedRead
      (eastAndWest [⟨"a"⟩, ⟨"c"⟩] [⟨"b"⟩, ⟨"d"⟩]) = .ok p := ⟨_, rfl⟩
  rcases planSelect_reordered .default ⟨"q"⟩ joinedRead _ _ hperm hone with ⟨e, he, _⟩ | hplans
  · rcases hok with ⟨p, hp⟩
    rw [hp] at he
    cases he
  · exact ⟨hone, hplans⟩

end Federation
