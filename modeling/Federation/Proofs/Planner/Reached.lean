import Federation.Proofs.Planner.Failure

/-!
# How Far a Branch Gets

From its scan a branch follows the links of the workflow up to the next join, and the
planner goes along it with the connectors that are left, stopping before the step that
would leave none. It never turns back, and yet no connector gets farther than the walk
does: whoever can run the first steps up to some place has not dropped out before it. So
the length of the walk is the greatest number of steps that one candidate can run, and
those that are left in the end are all who can run as many.

Nothing is asked of the candidates here. They may come in any order and more than once,
and may share names; they keep their order, and as many copies as there were.

## Main definitions

* `Chain`: The steps from one on, link by link, up to the next join.
* `LongestCovered`: The greatest number of first steps that one connector can run.
* `Branch.Covers`: A branch of that many steps, with all the connectors that can run them.

## Theorems

* `chain_iff`: The chain from a scan is its stretch.
* `cover_split`: Where a walk along steps divides them.
* `next?_split`: The first part of a stretch leads to the second.
* `longestCovered_append`: The walk stops where no connector gets farther.
* `branchOf_longest`: What becomes of a scan and its candidates.
* `filtered_longest`: A filter and a projection that no candidate can run both.
-/

namespace Federation

namespace Workflow

/-- The steps from one on, link by link, up to the next join, which is none of them. -/
inductive Chain (w : Workflow) : Option Nat → List Nat → Prop
  | nothing : Chain w none []
  | join (j : Nat) (hjoin : j ∈ w.joins) : Chain w (some j) []
  | step (id : Nat) (rest : List Nat) (hjoin : id ∉ w.joins)
      (hrest : Chain w (w.next? id) rest) : Chain w (some id) (id :: rest)

/-- The greatest number of first steps that one of several connectors can run, which is
    zero if there is no connector. -/
structure LongestCovered (w : Workflow) (found : List Connector) (chain : List Nat) (k : Nat) :
    Prop where
  within : k ≤ chain.length
  covered : k ≠ 0 → ∃ c ∈ found, ∀ id ∈ chain.take k, w.canRunAt c id = true
  greatest : ∀ m ≤ chain.length, ∀ c ∈ found,
    (∀ id ∈ chain.take m, w.canRunAt c id = true) → m ≤ k

theorem Chain.unique {w : Workflow} {start : Option Nat} {l m : List Nat} (hl : w.Chain start l)
    (hm : w.Chain start m) : l = m := by
  induction hl generalizing m with
  | nothing =>
      cases hm with
      | nothing => rfl
  | join j hjoin =>
      cases hm with
      | join _ _ => rfl
      | step _ _ hnot _ => exact absurd hjoin hnot
  | step id rest hjoin _ ih =>
      cases hm with
      | join _ hj => exact absurd hj hjoin
      | step _ rest' _ hrest' => rw [ih hrest']

theorem LongestCovered.unique {w : Workflow} {found : List Connector} {chain : List Nat}
    {k m : Nat} (hk : w.LongestCovered found chain k) (hm : w.LongestCovered found chain m) :
    k = m := by
  have hle : ∀ {k m : Nat}, w.LongestCovered found chain k → w.LongestCovered found chain m →
      k ≤ m := by
    intro k m hk hm
    by_cases hzero : k = 0
    · omega
    · rcases hk.covered hzero with ⟨c, hc, hrun⟩
      exact hm.greatest k hk.within c hc hrun
  exact Nat.le_antisymm (hle hk hm) (hle hm hk)

-- What a step drags along is the chain from the step it leads to.
theorem chain_segment (w : Workflow) (id : Nat) (hid : id < w.size) :
    w.Chain (w.next? id) (w.segment (w.next? id)).steps := by
  refine stretch_induction w (P := fun id => w.Chain (w.next? id) (w.segment (w.next? id)).steps)
    (fun id _ hstop => ?_) (fun id v hn hv ih => ?_) id hid
  · rw [segment_stop w id hstop]
    cases hn : w.next? id with
    | none => exact Chain.nothing
    | some j => exact Chain.join j (hstop j hn)
  · rw [segment_go w id v hn hv, hn]
    exact Chain.step v _ hv ih

/-- The chain from a step that is no join is its stretch. -/
theorem chain_iff (w : Workflow) (id : Nat) (hid : id < w.size) (hjoin : id ∉ w.joins)
    (chain : List Nat) : w.Chain (some id) chain ↔ chain = w.stretch id := by
  have hstretch : w.Chain (some id) (w.stretch id) := Chain.step id _ hjoin (chain_segment w id hid)
  exact ⟨fun h => h.unique hstretch, fun h => h ▸ hstretch⟩

/-- A walk divides the steps in two. Some connector can run the first part, and none can run
    the step after it besides. -/
theorem cover_split (w : Workflow) (stop : Option Nat) (ids : List Nat)
    (running : List Connector) (hrun : running ≠ []) :
    ∃ before after, ids = before ++ after ∧
      w.cover stop running ids
        = ⟨before, running.filter (w.canRunAll before), after.head?.or stop⟩ ∧
      running.filter (w.canRunAll before) ≠ [] ∧
        ∀ v, after.head? = some v → running.filter (w.canRunAll (before ++ [v])) = [] := by
  by_cases h : running.filter (w.canRunAll ids) = []
  · rcases cover_short w stop ids running hrun h with
      ⟨before, v, after, hsplit, hcover, hsome, hnone⟩
    refine ⟨before, v :: after, hsplit, hcover, hsome, fun u hu => ?_⟩
    cases hu
    exact hnone
  · refine ⟨ids, [], (List.append_nil ids).symm, cover_whole w stop ids running h, h, ?_⟩
    exact fun u hu => nomatch hu

/-- The first part of what a step drags along leads to the second, and all of it where the
    step leads in the end. -/
theorem next?_split (w : Workflow) (id : Nat) (hid : id < w.size) (before after : List Nat)
    (h : (w.segment (w.next? id)).steps = before ++ after) :
    w.next? (before.getLastD id) = after.head?.or (w.downstream id) := by
  cases after with
  | nil =>
      have hend : w.stretchEnd id = before.getLastD id := by
        rw [stretchEnd, h, List.append_nil]
      rw [← hend]
      exact next?_stretchEnd w id hid
  | cons v rest =>
      have hlinked := stretch_linked w id hid
      rw [stretch, h, ← List.cons_append, List.isChain_append] at hlinked
      refine hlinked.2.2 _ ?_ v rfl
      rw [List.getLast?_cons, List.getLastD_eq_getLast?]
      rfl

/-- Connectors of whom one can run the first part of a chain, and none the step after it
    besides, get as far as that and no farther. -/
theorem longestCovered_append (w : Workflow) (found : List Connector) (before after : List Nat)
    (hsome : before ≠ [] → found.filter (w.canRunAll before) ≠ [])
    (hnone : ∀ v, after.head? = some v → found.filter (w.canRunAll (before ++ [v])) = []) :
    w.LongestCovered found (before ++ after) before.length := by
  constructor
  case within =>
    rw [List.length_append]
    exact Nat.le_add_right _ _
  case covered =>
    intro hlen
    have hne : before ≠ [] := fun h => hlen (by rw [h]; rfl)
    rcases List.exists_mem_of_ne_nil _ (hsome hne) with ⟨c, hc⟩
    rcases List.mem_filter.mp hc with ⟨hmem, hall⟩
    rw [List.take_left]
    exact ⟨c, hmem, (canRunAll_iff w before c).mp hall⟩
  case greatest =>
    intro m hm c hc hrun
    by_contra hlt
    cases after with
    | nil =>
        rw [List.append_nil] at hm
        exact hlt hm
    | cons v rest =>
        -- Farther than the first part means the step after it at least.
        have hsteps : ((before ++ v :: rest).take m) = (before ++ [v]) ++
            rest.take (m - (before ++ [v]).length) := by
          rw [List.append_cons, List.take_append, List.take_of_length_le]
          rw [List.length_append, List.length_singleton]
          omega
        rw [hsteps] at hrun
        refine List.filter_eq_nil_iff.mp (hnone v rfl) c hc ((canRunAll_iff w _ c).mpr ?_)
        exact fun id hid => hrun id (List.mem_append_left _ hid)

end Workflow

/-- Whether a branch has the first steps of a chain, as many as given, with all of some
    connectors that can run them. -/
structure Branch.Covers (w : Workflow) (table : TableName) (chain : List Nat) (k : Nat)
    (found : List Connector) (b : Branch) : Prop where
  table_eq : b.table = table
  initial_eq : chain.head? = some b.initial
  steps_eq : b.steps = chain.take k
  last_eq : chain[k - 1]? = some b.last
  /-- In their order, and as often as they are given. -/
  connectors_eq : b.connectors = found.filter (w.canRunAll (chain.take k))
  connectors_ne_nil : b.connectors ≠ []
  next_eq : b.next = w.next? b.last
  next_eq_none : b.next = none ↔ b.last = w.terminal

-- The branch of a scan that candidates can run goes as far as the walk.
theorem branchOf_walk (w : Workflow) (id : Nat) (table : TableName) (cluster : ClusterName)
    (columns : List ColumnName) (h : w.step? id = some (.scan table cluster columns))
    (found : List Connector) (hrun : (found.filter fun c => w.canRunAt c id) ≠ []) :
    ∃ before after, w.stretch id = (id :: before) ++ after ∧
      Branch.of w id found = .ok ⟨table, id, before.getLastD id, id :: before,
        found.filter (w.canRunAll (id :: before)), after.head?.or (w.downstream id)⟩ ∧
      found.filter (w.canRunAll (id :: before)) ≠ [] ∧
        ∀ v, after.head? = some v → found.filter (w.canRunAll (id :: before ++ [v])) = [] := by
  rcases w.cover_split (w.downstream id) (w.segment (w.next? id)).steps _ hrun with
    ⟨before, after, hsplit, hcover, hsome, hnone⟩
  rw [Workflow.filter_canRunAll_cons] at hcover hsome
  have hreach : w.reach (w.next? id) (found.filter fun c => w.canRunAt c id)
      = ⟨before, found.filter (w.canRunAll (id :: before)), after.head?.or (w.downstream id)⟩ :=
    hcover
  refine ⟨before, after, congrArg (id :: ·) hsplit, ?_, hsome, fun v hv => ?_⟩
  · unfold Branch.of
    rw [h]
    simp only
    rw [Workflow.ableTo_eq_filter w id _ h]
    cases hrunning : found.filter fun c => w.canRunAt c id with
    | nil => exact absurd hrunning hrun
    | cons c running =>
        simp only
        rw [← hrunning, hreach]
  · have hnext := hnone v hv
    rw [Workflow.filter_canRunAll_cons] at hnext
    exact hnext

-- Without a candidate that can run the scan there is no branch.
theorem branchOf_unscannable (w : Workflow) (id : Nat) (table : TableName)
    (cluster : ClusterName) (columns : List ColumnName)
    (h : w.step? id = some (.scan table cluster columns)) (found : List Connector)
    (hrun : (found.filter fun c => w.canRunAt c id) = []) :
    Branch.of w id found = .error (.noCapableConnector table id [.scan]) := by
  unfold Branch.of
  rw [h]
  simp only
  rw [Workflow.ableTo_eq_filter w id _ h, hrun]
  rfl

/-- The branch of a scan, taken from any candidates, has as many steps of the chain from the
    scan as one candidate can run, keeps all the candidates that can run them, and leads
    where its last step does; where no candidate can run the scan there is no branch, and
    neither is there for a step that is no scan. -/
theorem branchOf_longest (w : Workflow) (id : Nat) (found : List Connector) :
    (id ∉ w.scans → Branch.of w id found = .error (notAScan id)) ∧
    ∀ table cluster columns, w.step? id = some (.scan table cluster columns) →
      ∃ chain k, w.Chain (some id) chain ∧ w.LongestCovered found chain k ∧
        (Branch.of w id found = .error (.noCapableConnector table id [.scan]) ↔ k = 0) ∧
        (k ≠ 0 → ∃ b, Branch.of w id found = .ok b ∧ b.Covers w table chain k found) := by
  refine ⟨fun h => branchOf_not_scan w id h found, fun table cluster columns h => ?_⟩
  have hid := Graph.step?_eq_some_lt h
  have hscan : id ∈ w.scans := (Graph.mem_scans _ id).mpr ⟨table, cluster, columns, h⟩
  have hchain := (w.chain_iff id hid (Graph.not_mem_joins_of_mem_scans _ id hscan) _).mpr rfl
  by_cases hrun : (found.filter fun c => w.canRunAt c id) = []
  · -- Nobody can run the first step, so nobody gets anywhere.
    have hzero := w.longestCovered_append found [] (w.stretch id) (fun hne => absurd rfl hne)
      fun v hv => by
        cases hv
        rw [List.nil_append, ← Workflow.filter_canRunAll_cons, hrun]
        rfl
    refine ⟨_, 0, hchain, hzero, iff_of_true ?_ rfl, fun hne => absurd rfl hne⟩
    exact branchOf_unscannable w id table cluster columns h found hrun
  · rcases branchOf_walk w id table cluster columns h found hrun with
      ⟨before, after, hsplit, hbranch, hsome, hnone⟩
    have hlongest := w.longestCovered_append found (id :: before) after (fun _ => hsome) hnone
    have hnext := w.next?_split id hid before after (List.tail_eq_of_cons_eq hsplit)
    -- The last step is the one before the rest of the stretch.
    have hlast : (w.stretch id)[before.length]? = some (before.getLastD id) := by
      rw [hsplit, List.getElem?_append_left (Nat.lt_succ_self _), List.getLastD_eq_getLast?,
        ← List.getLast?_cons, List.getLast?_eq_getElem?]
      rfl
    have hlt := (w.le_of_mem_stretch id hid _ (List.mem_of_getElem? hlast)).2
    rw [← hsplit] at hlongest
    refine ⟨_, _, hchain, hlongest, ?_, fun _ => ⟨_, hbranch, ?_⟩⟩
    · rw [hbranch]
      exact iff_of_false (fun heq => nomatch heq) (Nat.succ_ne_zero _)
    · have htake : (w.stretch id).take (id :: before).length = id :: before := by
        rw [hsplit, List.take_left]
      constructor
      case table_eq => rfl
      case initial_eq => rfl
      case steps_eq => exact htake.symm
      case last_eq => exact hlast
      case connectors_eq => rw [htake]
      case connectors_ne_nil => exact hsome
      case next_eq => exact hnext.symm
      case next_eq_none =>
        rw [← hnext]
        exact w.next?_eq_none _ hlt

/-- Users are read, filtered and projected. -/
def filteredUsers : Workflow where
  steps := [.scan ⟨⟨"shop"⟩, "users"⟩ ⟨"east"⟩ [],
    .filter ⟨.boolean true, .eq, .boolean true⟩ .filterPkEq, .projection [] none]
  links := [⟨0, 1⟩, ⟨1, 2⟩]
  terminal := 2
  sound := (Graph.sound_iff_fault? _).mpr (by decide)
  sinks_eq := by decide

/-- Two connectors that are found twice each: one cannot project and the other cannot
    filter. -/
def halfAble : List Connector :=
  let filtering : Connector := ⟨⟨"a"⟩, .ofList [.scan, .filterPkEq], [⟨"east"⟩], ⟨"a"⟩⟩
  let projecting : Connector := ⟨⟨"b"⟩, .ofList [.scan, .project], [⟨"east"⟩], ⟨"b"⟩⟩
  [projecting, filtering, projecting, filtering]

/-- Two steps are as many as one of them can run, though each step has one that can; and a
    filter does not start a branch. -/
theorem filtered_longest :
    Branch.of filteredUsers 1 halfAble = .error (notAScan 1) ∧
      filteredUsers.step? 0 = some (.scan ⟨⟨"shop"⟩, "users"⟩ ⟨"east"⟩ []) ∧
        ∃ b, Branch.of filteredUsers 0 halfAble = .ok b ∧
          b.Covers filteredUsers ⟨⟨"shop"⟩, "users"⟩ [0, 1, 2] 2 halfAble ∧
            b.connectors.length = 2 ∧ b.next = some 2 := by
  refine ⟨(branchOf_longest filteredUsers 1 halfAble).1 (by decide), rfl, ?_⟩
  rcases (branchOf_longest filteredUsers 0 halfAble).2 _ _ _ rfl with
    ⟨chain, k, hchain, hlongest, _, hbranch⟩
  have hstretch := (filteredUsers.chain_iff 0 (by decide) (by decide) chain).mp hchain
  have htwo := filteredUsers.longestCovered_append halfAble [0, 1] [2] (fun _ => by decide)
    fun v hv => by
      cases hv
      decide
  rw [hstretch] at hlongest hbranch
  cases hlongest.unique htwo
  rcases hbranch (by decide) with ⟨b, hb, hcovers⟩
  refine ⟨b, hb, hcovers, ?_, ?_⟩
  · rw [hcovers.connectors_eq]
    decide
  · have hlast : 1 = b.last := Option.some.inj hcovers.last_eq
    rw [hcovers.next_eq, ← hlast]
    rfl

end Federation
