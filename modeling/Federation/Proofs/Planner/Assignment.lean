import Federation.Proofs.Planner.Parts

/-!
# Settled and Assigned Connectors

A native join that leads to another takes over the connector settled there, and a
branch that leads to a native join does the same, but what is taken over is a
name: the connector is looked up again among those of the join or the branch. So
whatever way a connector has come, it is always one of those that can execute the
part it is assigned to.

Taking over never fails, since a name that is not found is chosen anew; and a
choice fails only for want of connectors or where a name is ambiguous.

## Main definitions

* `Takes`: How a part comes to its connector.

## Theorems

* `Takes.name_eq`: A part that shares the name settled downstream takes it over.
* `settle_cons`: Settling one join more.
* `settle_holds`: What holds of choices holds of all that is settled.
* `settle_takes`: Every native join has taken its connector.
* `assign_spec`: So has every branch.
* `settle_error`, `assign_error`: Both fail only with a choice.
* `settle_ok`, `assign_ok`: Neither fails where every choice can be made.
-/

namespace Federation

/-- How a part comes to its connector: it takes over what was settled downstream, or
    chooses where nothing is found there. -/
def Takes (settled : List (Nat × Connector)) (f : Fragment) (c : Connector) : Prop :=
  inherited? settled f.downstream f.connectors = some c ∨
    inherited? settled f.downstream f.connectors = none ∧ choose f.candidates = .ok c

-- A connector that is taken over is one of the part, and has the name that was
-- settled downstream.
theorem inherited?_spec (settled : List (Nat × Connector)) (downstream : Option Nat)
    (connectors : List Connector) (c : Connector)
    (h : inherited? settled downstream connectors = some c) :
    c ∈ connectors ∧ ∃ join chosen, downstream = some join ∧
      settled.lookup join = some chosen ∧ c.name = chosen.name := by
  unfold inherited? at h
  rcases Option.bind_eq_some_iff.mp h with ⟨join, hjoin, h⟩
  rcases Option.bind_eq_some_iff.mp h with ⟨chosen, hchosen, h⟩
  exact ⟨List.mem_of_find?_eq_some h, join, chosen, hjoin, hchosen,
    beq_iff_eq.mp (List.find?_some (p := fun d : Connector => d.name == chosen.name) h)⟩

-- Nothing is taken over only where the name is not found.
theorem inherited?_isSome (settled : List (Nat × Connector)) (join : Nat) (chosen : Connector)
    (hchosen : settled.lookup join = some chosen) (connectors : List Connector)
    (hname : ∃ o ∈ connectors, o.name = chosen.name) :
    (inherited? settled (some join) connectors).isSome = true := by
  have hfind : inherited? settled (some join) connectors
      = connectors.find? fun o => o.name == chosen.name := by
    unfold inherited?
    simp only [Option.bind_eq_bind, Option.bind_some, hchosen]
  rcases hname with ⟨o, ho, hname⟩
  rw [hfind, List.find?_isSome]
  exact ⟨o, ho, beq_iff_eq.mpr hname⟩

-- What a part takes is one of its connectors.
theorem Takes.mem {settled : List (Nat × Connector)} {f : Fragment} {c : Connector}
    (h : Takes settled f c) : c ∈ f.connectors := by
  rcases h with h | ⟨_, h⟩
  · exact (inherited?_spec _ _ _ c h).1
  · exact ((choose_fragment f c).mp h).2.1

/-- A part takes over the name that was settled downstream if it has a connector of
    that name. -/
theorem Takes.name_eq {settled : List (Nat × Connector)} {f : Fragment} {c : Connector}
    (h : Takes settled f c) (join : Nat) (hdown : f.downstream = some join)
    (chosen : Connector) (hchosen : settled.lookup join = some chosen)
    (hname : ∃ o ∈ f.connectors, o.name = chosen.name) : c.name = chosen.name := by
  unfold Takes at h
  rw [hdown] at h
  rcases h with h | ⟨hnone, _⟩
  · rcases (inherited?_spec _ _ _ c h).2 with ⟨other, d, hother, hd, heq⟩
    cases hother
    rw [hchosen] at hd
    cases hd
    exact heq
  · have hsome := inherited?_isSome settled join chosen hchosen f.connectors hname
    rw [hnone] at hsome
    cases hsome

/-- What holds of all that was settled, of any choice the part could make, and with a
    connector of all others of its name, holds of what the part takes. -/
theorem Takes.holds {settled : List (Nat × Connector)} {f : Fragment} {c : Connector}
    (h : Takes settled f c) (P : Connector → Prop)
    (hsettled : ∀ join d, settled.lookup join = some d → P d)
    (hchoice : choose f.candidates = .ok c → P c)
    (hname : ∀ d, P d → c.name = d.name → P c) : P c := by
  rcases h with h | ⟨_, h⟩
  · rcases (inherited?_spec _ _ _ c h).2 with ⟨join, d, _, hd, heq⟩
    exact hname d (hsettled join d hd) heq
  · exact hchoice h

-- Settling a join changes nothing for parts that lead elsewhere.
theorem takes_cons (settled : List (Nat × Connector)) (join : Nat) (d : Connector)
    (f : Fragment) (hne : f.downstream ≠ some join) (c : Connector) :
    Takes ((join, d) :: settled) f c ↔ Takes settled f c := by
  have hsame : inherited? ((join, d) :: settled) f.downstream f.connectors
      = inherited? settled f.downstream f.connectors := by
    unfold inherited?
    cases hdown : f.downstream with
    | none => rfl
    | some other =>
        have hother : (other == join) = false := beq_eq_false_iff_ne.mpr fun heq => hne (by
          rw [hdown, heq])
        simp only [Option.bind_eq_bind, Option.bind_some, List.lookup_cons, hother]
  unfold Takes
  rw [hsame]

/-- Settling one join more adds the connector that its fragment takes. -/
theorem settle_cons (join : Nat) (fragment : Fragment) (later : List (Nat × Fragment))
    (settled : List (Nat × Connector)) (h : settle ((join, fragment) :: later) = .ok settled) :
    ∃ before c, settle later = .ok before ∧ Takes before fragment c ∧
      settled = (join, c) :: before := by
  unfold settle at h
  rcases (bind_eq_ok _ _ _).mp h with ⟨before, hbefore, h⟩
  refine ⟨before, ?_⟩
  cases hin : inherited? before fragment.downstream fragment.connectors with
  | some c =>
      rw [hin] at h
      cases h
      exact ⟨c, hbefore, Or.inl hin, rfl⟩
  | none =>
      rw [hin] at h
      rcases (bind_eq_ok _ _ _).mp h with ⟨c, hc, h⟩
      cases h
      exact ⟨c, hbefore, Or.inr ⟨hin, hc⟩, rfl⟩

/-- Once all are settled, every native join has taken its connector, if joins come in
    order and lead to later ones. -/
theorem settle_takes (native : List (Nat × Fragment)) (settled : List (Nat × Connector))
    (h : settle native = .ok settled) (hlt : (native.map Prod.fst).Pairwise (· < ·))
    (hlater : ∀ e ∈ native, ∀ join, e.2.downstream = some join → e.1 < join) :
    ∀ e ∈ native, ∃ c, settled.lookup e.1 = some c ∧ Takes settled e.2 c := by
  induction native generalizing settled with
  | nil => exact fun e he => absurd he List.not_mem_nil
  | cons first rest ih =>
      rcases settle_cons first.1 first.2 rest settled h with ⟨before, d, hbefore, hd, rfl⟩
      rw [List.map_cons, List.pairwise_cons] at hlt
      -- No part leads to the first join, since all are at it or behind it.
      have hbeyond : ∀ e ∈ first :: rest, e.2.downstream ≠ some first.1 := fun e he heq => by
        have hdown := hlater e he first.1 heq
        rcases List.mem_cons.mp he with rfl | he
        · omega
        · have := hlt.1 e.1 (List.mem_map_of_mem he)
          omega
      intro e he
      rcases List.mem_cons.mp he with rfl | hrest
      · exact ⟨d, by rw [List.lookup_cons, beq_self_eq_true],
          (takes_cons before _ d _ (hbeyond _ he) d).mpr hd⟩
      · rcases ih before hbefore hlt.2 (fun e he => hlater e (List.mem_cons_of_mem _ he)) e
          hrest with ⟨c, hc, htakes⟩
        have hother : (e.1 == first.1) = false := beq_eq_false_iff_ne.mpr fun heq => by
          have := hlt.1 e.1 (List.mem_map_of_mem hrest)
          omega
        refine ⟨c, ?_, (takes_cons before _ d _ (hbeyond e he) c).mpr htakes⟩
        rw [List.lookup_cons, hother]
        exact hc

/-- What holds of every choice, and with a connector of all others of its name, holds
    of whatever is settled. -/
theorem settle_holds (P : Connector → Prop) (native : List (Nat × Fragment))
    (settled : List (Nat × Connector)) (h : settle native = .ok settled)
    (hchoice : ∀ e ∈ native, ∀ c, choose e.2.candidates = .ok c → P c)
    (hname : ∀ e ∈ native, ∀ c ∈ e.2.connectors, ∀ d, P d → c.name = d.name → P c) :
    ∀ join c, settled.lookup join = some c → P c := by
  induction native generalizing settled with
  | nil =>
      cases h
      exact fun join c hc => nomatch hc
  | cons first rest ih =>
      rcases settle_cons first.1 first.2 rest settled h with ⟨before, d, hbefore, hd, rfl⟩
      have hrest := ih before hbefore (fun e he => hchoice e (List.mem_cons_of_mem _ he))
        fun e he => hname e (List.mem_cons_of_mem _ he)
      intro join c hc
      rw [List.lookup_cons] at hc
      cases heq : join == first.1 with
      | true =>
          rw [heq] at hc
          cases hc
          exact hd.holds P hrest (hchoice first List.mem_cons_self d)
            (hname first List.mem_cons_self d hd.mem)
      | false =>
          rw [heq] at hc
          exact hrest join c hc

/-- A connector settled at a join is one of the fragment of the join. -/
theorem settle_lookup (native : List (Nat × Fragment)) (settled : List (Nat × Connector))
    (h : settle native = .ok settled) (join : Nat) (c : Connector)
    (hc : settled.lookup join = some c) :
    ∃ f, native.lookup join = some f ∧ c ∈ f.connectors := by
  induction native generalizing settled with
  | nil =>
      cases h
      cases hc
  | cons e later ih =>
      rcases settle_cons e.1 e.2 later settled h with ⟨before, d, hbefore, hd, rfl⟩
      rw [List.lookup_cons] at hc ⊢
      cases heq : join == e.1 with
      | true =>
          rw [heq] at hc
          cases hc
          exact ⟨e.2, rfl, hd.mem⟩
      | false =>
          rw [heq] at hc
          exact ih before hbefore hc

/-- A branch is assigned to the connector it takes. -/
theorem assign_spec (settled : List (Nat × Connector)) (b : Branch) (a : AssignedBranch)
    (h : assign settled b = .ok a) :
    a.branch = b ∧ Takes settled (Fragment.ofBranch b) a.connector := by
  unfold assign at h
  cases hin : inherited? settled b.next b.connectors with
  | some c =>
      rw [hin] at h
      cases h
      exact ⟨rfl, Or.inl hin⟩
  | none =>
      rw [hin] at h
      cases hc : chooseFor b.table b.connectors with
      | error cause =>
          rw [hc] at h
          cases h
      | ok c =>
          rw [hc] at h
          cases h
          rw [chooseFor_eq b.table b.connectors b.next] at hc
          exact ⟨rfl, Or.inr ⟨hin, hc⟩⟩

-- The assigned branches are the branches, in their order, with what these take.
theorem assigned_takes (settled : List (Nat × Connector)) (branches : List Branch)
    (assigned : List AssignedBranch) (h : branches.mapM (assign settled) = .ok assigned) :
    assigned.map AssignedBranch.branch = branches ∧
      ∀ a ∈ assigned, Takes settled (Fragment.ofBranch a.branch) a.connector := by
  rw [mapM_eq_ok] at h
  induction h with
  | nil => exact ⟨rfl, fun a ha => absurd ha List.not_mem_nil⟩
  | @cons b a _ _ hab _ ih =>
      rcases assign_spec settled b a hab with ⟨rfl, hc⟩
      exact ⟨by rw [List.map_cons, ih.1], List.forall_mem_cons.mpr ⟨hc, ih.2⟩⟩

-- An assigned connector is one of its branch.
theorem assigned_branches (settled : List (Nat × Connector)) (branches : List Branch)
    (assigned : List AssignedBranch) (h : branches.mapM (assign settled) = .ok assigned) :
    assigned.map AssignedBranch.branch = branches ∧
      ∀ a ∈ assigned, a.connector ∈ a.branch.connectors := by
  rcases assigned_takes settled branches assigned h with ⟨hbranches, htakes⟩
  exact ⟨hbranches, fun a ha => (htakes a ha).mem⟩

-- An assigned branch is the stretch of a scan.
theorem mem_assigned (s : Snapshot) (w : Workflow) (assigned : List AssignedBranch)
    (h : assigned.map AssignedBranch.branch = w.scans.map (wholeBranch s w))
    (a : AssignedBranch) (ha : a ∈ assigned) :
    ∃ t ∈ w.scans, a.branch = wholeBranch s w t := by
  have hmem : a.branch ∈ w.scans.map (wholeBranch s w) := by
    rw [← h]
    exact List.mem_map_of_mem ha
  rcases List.mem_map.mp hmem with ⟨t, ht, heq⟩
  exact ⟨t, ht, heq.symm⟩

-- The assigned branches start at the scans, in their order.
theorem assigned_initials (s : Snapshot) (w : Workflow) (assigned : List AssignedBranch)
    (h : assigned.map AssignedBranch.branch = w.scans.map (wholeBranch s w)) :
    assigned.map (fun a => a.branch.initial) = w.scans := by
  have hinitials := congrArg (List.map Branch.initial) h
  rw [List.map_map, List.map_map] at hinitials
  exact hinitials.trans (List.map_id _)

/-- Settling fails only with a choice. -/
theorem settle_error (native : List (Nat × Fragment)) (cause : PlanningCause)
    (h : settle native = .error cause) : ∃ e ∈ native, choose e.2.candidates = .error cause := by
  induction native with
  | nil => cases h
  | cons e later ih =>
      unfold settle at h
      rcases (bind_eq_error _ _ _).mp h with hlater | ⟨before, _, h⟩
      · rcases ih hlater with ⟨d, hd, hchoice⟩
        exact ⟨d, List.mem_cons_of_mem _ hd, hchoice⟩
      · cases hin : inherited? before e.2.downstream e.2.connectors with
        | some d =>
            rw [hin] at h
            cases h
        | none =>
            rw [hin] at h
            rcases (bind_eq_error _ _ _).mp h with hchoice | ⟨c, _, h⟩
            · exact ⟨e, List.mem_cons_self, hchoice⟩
            · cases h

/-- So does assigning a branch. -/
theorem assign_error (settled : List (Nat × Connector)) (b : Branch) (cause : PlanningCause)
    (h : assign settled b = .error cause) :
    choose (Fragment.ofBranch b).candidates = .error cause := by
  unfold assign at h
  cases hin : inherited? settled b.next b.connectors with
  | some d =>
      rw [hin] at h
      cases h
  | none =>
      rw [hin] at h
      cases hchoice : chooseFor b.table b.connectors with
      | ok c =>
          rw [hchoice] at h
          cases h
      | error other =>
          rw [hchoice] at h
          cases h
          exact hchoice

/-- Connectors can be settled wherever each fragment has a choice. -/
theorem settle_ok (native : List (Nat × Fragment))
    (h : ∀ e ∈ native, ∃ c, choose e.2.candidates = .ok c) :
    ∃ settled, settle native = .ok settled := by
  cases hsettled : settle native with
  | ok settled => exact ⟨settled, rfl⟩
  | error cause =>
      rcases settle_error native cause hsettled with ⟨e, he, hchoice⟩
      rcases h e he with ⟨c, hc⟩
      rw [hc] at hchoice
      cases hchoice

/-- A branch can be assigned wherever it has a choice. -/
theorem assign_ok (settled : List (Nat × Connector)) (b : Branch)
    (h : ∃ c, choose (Fragment.ofBranch b).candidates = .ok c) :
    ∃ a, assign settled b = .ok a := by
  cases hassigned : assign settled b with
  | ok a => exact ⟨a, rfl⟩
  | error cause =>
      rcases h with ⟨c, hc⟩
      rw [assign_error settled b cause hassigned] at hc
      cases hc

end Federation
