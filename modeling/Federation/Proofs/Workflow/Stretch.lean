import Federation.Planner.Stages
import Federation.Proofs.Workflow.Links
import Mathlib.Data.List.Nodup
import Mathlib.Logic.Relation

/-!
# Stretches and Feeders

A workflow is a tree of joins, but what a plan dispatches is cut differently: each
scan and each join drags the steps along that follow it, up to the next join. Such
a stretch is a chain, and the stretches of the scans and joins cover every step
exactly once.

Two facts carry the rest. Walking back from any step along single inputs ends at a
scan or a join, so no step is left out; and a step that is neither can be entered
from one side only, so two stretches that share a step are the same stretch. What
feeds a join is then read off the stretches: the inputs of a join are the ends of
the stretches that lead to it, no more and no less, and there are two of them.
`feeders` lists where these stretches start, scans before joins, which is the
order in which a plan lists what arrives at a join.

## Main definitions

* `stretch`: A step with those that follow it up to the next join.
* `stretchEnd`: The last step of a stretch.
* `starts`: The steps at which the stretches of a plan start.
* `feeders`: The starts of the stretches that lead to a join.
* `IsRoot`: The start whose stretch ends at the terminal.
* `Feeds`: One start leads to another, stretch by stretch.

## Theorems

* `stretch_induction`: Induction from the end of a stretch towards its start.
* `exists_start`: Every step is in the stretch of a scan or a join.
* `start_unique`: It is in one only.
* `feeders_perm`: The stretches that lead to a join end at its inputs.
* `feeders_pair`: There are two of them.
* `exists_root`: One stretch ends at the terminal.
* `start_induction`: Induction over the tree of joins.
* `feeds_root`: Every start leads to the one whose stretch ends at the terminal.
-/

namespace Federation

namespace Workflow

/-- A step with those that follow it, up to the next join. -/
def stretch (w : Workflow) (id : Nat) : List Nat := id :: (w.segment (w.next? id)).steps

/-- The last step of a stretch. -/
def stretchEnd (w : Workflow) (id : Nat) : Nat := (w.segment (w.next? id)).steps.getLastD id

/-- The steps at which stretches start: scans first, then joins. -/
def starts (w : Workflow) : List Nat := w.scans ++ w.joins

/-- The starts of the stretches that lead to a join. -/
def feeders (w : Workflow) (join : Nat) : List Nat :=
  w.starts.filter fun id => w.downstream id = some join

theorem mem_starts (w : Workflow) (id : Nat) : id ∈ w.starts ↔ id ∈ w.scans ∨ id ∈ w.joins :=
  List.mem_append

theorem mem_starts_of_scan (w : Workflow) (id : Nat) (h : id ∈ w.scans) : id ∈ w.starts :=
  (mem_starts w id).mpr (Or.inl h)

theorem mem_starts_of_join (w : Workflow) (id : Nat) (h : id ∈ w.joins) : id ∈ w.starts :=
  (mem_starts w id).mpr (Or.inr h)

theorem mem_feeders (w : Workflow) (join id : Nat) :
    id ∈ w.feeders join ↔ id ∈ w.starts ∧ w.downstream id = some join := by
  unfold feeders
  rw [List.mem_filter, decide_eq_true_eq]

theorem starts_lt (w : Workflow) (id : Nat) (h : id ∈ w.starts) : id < w.size := by
  rcases (mem_starts w id).mp h with hs | hj
  · exact Graph.lt_of_mem_scans _ id hs
  · exact Graph.lt_of_mem_joins _ id hj

theorem starts_nodup (w : Workflow) : w.starts.Nodup := by
  unfold starts
  rw [List.nodup_append]
  refine ⟨(Graph.ids_nodup _).filter _, (Graph.ids_nodup _).filter _, fun a ha b hb hab => ?_⟩
  rw [hab] at ha
  exact Graph.not_mem_joins_of_mem_scans _ b ha hb

-- A step that leads to a join, or nowhere, has nothing to drag along.
theorem segment_stop (w : Workflow) (id : Nat) (h : ∀ v, w.next? id = some v → v ∈ w.joins) :
    w.segment (w.next? id) = ⟨[], w.next? id⟩ := by
  cases hn : w.next? id with
  | none => exact segment_none w
  | some v =>
      exact segment_of_isJoinAt (next?_lt hn).2 ((Graph.mem_joins _ v).mp (h v hn))

-- A step that leads to another drags along what the other does.
theorem segment_go (w : Workflow) (id v : Nat) (hn : w.next? id = some v) (hv : v ∉ w.joins) :
    w.segment (w.next? id)
      = ⟨v :: (w.segment (w.next? v)).steps, (w.segment (w.next? v)).join?⟩ := by
  rw [hn]
  refine segment_some (next?_lt hn).2 ?_
  rw [← Bool.not_eq_true, ← Graph.mem_joins]
  exact hv

theorem stretch_stop (w : Workflow) (id : Nat) (h : ∀ v, w.next? id = some v → v ∈ w.joins) :
    w.stretch id = [id] ∧ w.stretchEnd id = id ∧ w.downstream id = w.next? id := by
  unfold stretch stretchEnd downstream
  rw [segment_stop w id h]
  exact ⟨rfl, rfl, rfl⟩

theorem stretch_go (w : Workflow) (id v : Nat) (hn : w.next? id = some v) (hv : v ∉ w.joins) :
    w.stretch id = id :: w.stretch v ∧ w.stretchEnd id = w.stretchEnd v
      ∧ w.downstream id = w.downstream v := by
  unfold stretch stretchEnd downstream
  rw [segment_go w id v hn hv]
  exact ⟨rfl, List.getLastD_cons, rfl⟩

/-- Induction along a stretch, from its end towards its start: a step stops where
    it leads to a join or nowhere, and goes on to the step it leads to otherwise. -/
theorem stretch_induction (w : Workflow) {P : Nat → Prop}
    (stop : ∀ id, id < w.size → (∀ v, w.next? id = some v → v ∈ w.joins) → P id)
    (go : ∀ id v, w.next? id = some v → v ∉ w.joins → P v → P id) :
    ∀ id, id < w.size → P id := by
  refine next?_induction w ?_ fun id v hnext ih => ?_
  · rcases terminal_spec w with ⟨hlt, hnone⟩
    refine stop w.terminal hlt fun v hv => ?_
    rw [hnone] at hv
    cases hv
  · have hlt := next?_lt hnext
    by_cases hjoin : v ∈ w.joins
    · refine stop id (Nat.lt_trans hlt.1 hlt.2) fun a ha => ?_
      rw [hnext, Option.some.injEq] at ha
      rw [← ha]
      exact hjoin
    · exact go id v hnext hjoin ih

-- What a step drags along holds no join.
theorem segment_steps (w : Workflow) (id : Nat) (hid : id < w.size) :
    ∀ v ∈ (w.segment (w.next? id)).steps, v ∉ w.joins := by
  refine stretch_induction w (P := fun id => ∀ v ∈ (w.segment (w.next? id)).steps, v ∉ w.joins)
    (fun id _ hstop v hv => ?_) (fun id u hn hu ih v hv => ?_) id hid
  · rw [segment_stop w id hstop] at hv
    exact absurd hv List.not_mem_nil
  · rw [segment_go w id u hn hu, List.mem_cons] at hv
    rcases hv with rfl | hv
    · exact hu
    · exact ih v hv

theorem mem_stretch_self (w : Workflow) (id : Nat) : id ∈ w.stretch id := List.mem_cons_self

-- A stretch leads from its start to greater numbers.
theorem le_of_mem_stretch (w : Workflow) (id : Nat) (hid : id < w.size) :
    ∀ v ∈ w.stretch id, id ≤ v ∧ v < w.size := by
  refine stretch_induction w (P := fun id => ∀ v ∈ w.stretch id, id ≤ v ∧ v < w.size)
    (fun id hid hstop v hv => ?_) (fun id u hn hu ih v hv => ?_) id hid
  · rw [(stretch_stop w id hstop).1, List.mem_singleton] at hv
    omega
  · have hlt := next?_lt hn
    rw [(stretch_go w id u hn hu).1, List.mem_cons] at hv
    rcases hv with rfl | hv
    · omega
    · have := ih v hv
      omega

-- The end of a stretch is one of its steps.
theorem stretchEnd_mem (w : Workflow) (id : Nat) (hid : id < w.size) :
    w.stretchEnd id ∈ w.stretch id := by
  refine stretch_induction w (P := fun id => w.stretchEnd id ∈ w.stretch id)
    (fun id _ hstop => ?_) (fun id v hn hv ih => ?_) id hid
  · rcases stretch_stop w id hstop with ⟨hs, he, _⟩
    rw [hs, he]
    exact List.mem_singleton_self id
  · rcases stretch_go w id v hn hv with ⟨hs, he, _⟩
    rw [hs, he]
    exact List.mem_cons_of_mem _ ih

-- A stretch leads where its end does.
theorem next?_stretchEnd (w : Workflow) (id : Nat) (hid : id < w.size) :
    w.next? (w.stretchEnd id) = w.downstream id := by
  refine stretch_induction w (P := fun id => w.next? (w.stretchEnd id) = w.downstream id)
    (fun id _ hstop => ?_) (fun id v hn hv ih => ?_) id hid
  · rcases stretch_stop w id hstop with ⟨_, he, hd⟩
    rw [he, hd]
  · rcases stretch_go w id v hn hv with ⟨_, he, hd⟩
    rw [he, hd]
    exact ih

-- A stretch ends before a join, if it leads anywhere.
theorem downstream_spec (w : Workflow) (id join : Nat) (hid : id < w.size)
    (h : w.downstream id = some join) : join ∈ w.joins ∧ id < join := by
  refine stretch_induction w
    (P := fun id => w.downstream id = some join → join ∈ w.joins ∧ id < join)
    (fun id _ hstop h => ?_) (fun id v hn hv ih h => ?_) id hid h
  · rw [(stretch_stop w id hstop).2.2] at h
    exact ⟨hstop join h, (next?_lt h).1⟩
  · rw [(stretch_go w id v hn hv).2.2] at h
    have := (next?_lt hn).1
    exact ⟨(ih h).1, by have := (ih h).2; omega⟩

-- The stretch of a step on a stretch is the rest of it.
theorem downstream_of_mem (w : Workflow) (id : Nat) (hid : id < w.size) :
    ∀ v ∈ w.stretch id, w.downstream v = w.downstream id ∧ w.stretchEnd v = w.stretchEnd id := by
  refine stretch_induction w (P := fun id => ∀ v ∈ w.stretch id,
      w.downstream v = w.downstream id ∧ w.stretchEnd v = w.stretchEnd id)
    (fun id _ hstop v hv => ?_) (fun id u hn hu ih v hv => ?_) id hid
  · rw [(stretch_stop w id hstop).1, List.mem_singleton] at hv
    rw [hv]
    exact ⟨rfl, rfl⟩
  · rcases stretch_go w id u hn hu with ⟨hs, he, hd⟩
    rw [hs, List.mem_cons] at hv
    rcases hv with rfl | hv
    · exact ⟨rfl, rfl⟩
    · rw [hd, he]
      exact ih v hv

-- Every step of a stretch but the first is entered from the stretch, and is no
-- join.
theorem start_or_entered (w : Workflow) (id : Nat) (hid : id < w.size) :
    ∀ v ∈ w.stretch id, v = id ∨ v ∉ w.joins ∧ ∃ u ∈ w.stretch id, w.next? u = some v := by
  refine stretch_induction w (P := fun id => ∀ v ∈ w.stretch id,
      v = id ∨ v ∉ w.joins ∧ ∃ u ∈ w.stretch id, w.next? u = some v)
    (fun id _ hstop v hv => ?_) (fun id a hn ha ih v hv => ?_) id hid
  · rw [(stretch_stop w id hstop).1, List.mem_singleton] at hv
    exact Or.inl hv
  · rw [(stretch_go w id a hn ha).1] at hv ⊢
    rcases List.mem_cons.mp hv with hv | hv
    · exact Or.inl hv
    · rcases ih v hv with rfl | ⟨hjoin, u, hu, hnext⟩
      · exact Or.inr ⟨ha, id, List.mem_cons_self, hn⟩
      · exact Or.inr ⟨hjoin, u, List.mem_cons_of_mem _ hu, hnext⟩

-- A stretch holds whatever one of its steps leads to, up to the next join.
theorem next?_mem_stretch (w : Workflow) (id : Nat) (hid : id < w.size) :
    ∀ u ∈ w.stretch id, ∀ v, w.next? u = some v → v ∉ w.joins → v ∈ w.stretch id := by
  refine stretch_induction w (P := fun id => ∀ u ∈ w.stretch id,
      ∀ v, w.next? u = some v → v ∉ w.joins → v ∈ w.stretch id)
    (fun id _ hstop u hu v hn hv => ?_) (fun id a hn ha ih u hu v hnext hv => ?_) id hid
  · rw [(stretch_stop w id hstop).1, List.mem_singleton] at hu
    rw [hu] at hn
    exact absurd (hstop v hn) hv
  · rw [(stretch_go w id a hn ha).1] at hu ⊢
    rcases List.mem_cons.mp hu with rfl | hu
    · rw [hn, Option.some.injEq] at hnext
      rw [← hnext]
      exact List.mem_cons_of_mem _ (mem_stretch_self w a)
    · exact List.mem_cons_of_mem _ (ih u hu v hnext hv)

/-- Every step is in the stretch of a scan or a join: walking back along single
    inputs ends there. -/
theorem exists_start (w : Workflow) (id : Nat) (hid : id < w.size) :
    ∃ t ∈ w.starts, id ∈ w.stretch t := by
  induction id using Nat.strongRecOn with
  | _ id ih =>
    by_cases hstart : id ∈ w.starts
    · exact ⟨id, hstart, mem_stretch_self w id⟩
    · rw [mem_starts, not_or] at hstart
      rcases inputs_inner w id hid hstart.1 hstart.2 with ⟨u, hu⟩
      have hnext : w.next? u = some id := by
        rw [← mem_inputs, hu]
        exact List.mem_singleton_self u
      have hlt := next?_lt hnext
      rcases ih u hlt.1 (by omega) with ⟨t, ht, hmem⟩
      exact ⟨t, ht, next?_mem_stretch w t (starts_lt w t ht) u hmem id hnext hstart.2⟩

-- Nothing drags a scan or a join along.
theorem start_eq_of_mem (w : Workflow) (t u : Nat) (ht : t ∈ w.starts) (hu : u ∈ w.starts)
    (h : u ∈ w.stretch t) : u = t := by
  rcases start_or_entered w t (starts_lt w t ht) u h with heq | ⟨hjoin, a, _, hnext⟩
  · exact heq
  · -- A scan has no input, and a join would have ended the stretch.
    have hscan := (mem_starts w u).mp hu |>.resolve_right hjoin
    have hmem := (mem_inputs w a u).mpr hnext
    rw [inputs_scan w u hscan] at hmem
    exact absurd hmem List.not_mem_nil

/-- Stretches that share a step are the same stretch. -/
theorem start_unique (w : Workflow) (v : Nat) :
    ∀ t ∈ w.starts, ∀ u ∈ w.starts, v ∈ w.stretch t → v ∈ w.stretch u → t = u := by
  induction v using Nat.strongRecOn with
  | _ v ih =>
    intro t ht u hu hvt hvu
    rcases start_or_entered w t (starts_lt w t ht) v hvt with rfl | ⟨hjoin, a, ha, hna⟩
    · exact start_eq_of_mem w u v hu ht hvu
    · rcases start_or_entered w u (starts_lt w u hu) v hvu with rfl | ⟨_, b, hb, hnb⟩
      · exact (start_eq_of_mem w t v ht hu hvt).symm
      · -- Both are entered at the one input of the step.
        have hscan : v ∉ w.scans := fun hscan => by
          have hmem := (mem_inputs w a v).mpr hna
          rw [inputs_scan w v hscan] at hmem
          exact absurd hmem List.not_mem_nil
        rcases inputs_inner w v (next?_lt hna).2 hscan hjoin with ⟨c, hc⟩
        have hac : a ∈ w.inputs v := (mem_inputs w a v).mpr hna
        have hbc : b ∈ w.inputs v := (mem_inputs w b v).mpr hnb
        rw [hc, List.mem_singleton] at hac hbc
        rw [hbc, ← hac] at hb
        exact ih a (next?_lt hna).1 t ht u hu ha hb

-- Stretches with one end are the same stretch.
theorem stretchEnd_injective (w : Workflow) (t u : Nat) (ht : t ∈ w.starts) (hu : u ∈ w.starts)
    (h : w.stretchEnd t = w.stretchEnd u) : t = u := by
  have hmt := stretchEnd_mem w t (starts_lt w t ht)
  have hmu := stretchEnd_mem w u (starts_lt w u hu)
  rw [h] at hmt
  exact start_unique w _ t ht u hu hmt hmu

-- The start whose stretch a step ends, if the step leads to a join or nowhere.
theorem exists_start_of_end (w : Workflow) (id : Nat) (hid : id < w.size)
    (hstop : ∀ v, w.next? id = some v → v ∈ w.joins) :
    ∃ t ∈ w.starts, w.stretchEnd t = id ∧ w.downstream t = w.next? id := by
  rcases exists_start w id hid with ⟨t, ht, hmem⟩
  rcases downstream_of_mem w t (starts_lt w t ht) id hmem with ⟨hd, he⟩
  rcases stretch_stop w id hstop with ⟨_, hend, hdown⟩
  exact ⟨t, ht, by rw [← he, hend], by rw [← hd, hdown]⟩

theorem lt_of_mem_feeders (w : Workflow) (join id : Nat) (h : id ∈ w.feeders join) :
    id < join := by
  rcases (mem_feeders w join id).mp h with ⟨hs, hd⟩
  exact (downstream_spec w id join (starts_lt w id hs) hd).2

theorem feeders_nodup (w : Workflow) (join : Nat) : (w.feeders join).Nodup :=
  (starts_nodup w).filter _

/-- The stretches that lead to a join end at its inputs. -/
theorem feeders_perm (w : Workflow) (join : Nat) (hjoin : join ∈ w.joins) :
    ((w.feeders join).map w.stretchEnd).Perm (w.inputs join) := by
  have hnodup : ((w.feeders join).map w.stretchEnd).Nodup := by
    refine List.Nodup.map_on (fun t ht u hu h => ?_) (feeders_nodup w join)
    exact stretchEnd_injective w t u ((mem_feeders w join t).mp ht).1
      ((mem_feeders w join u).mp hu).1 h
  refine (List.perm_ext_iff_of_nodup hnodup (inputs_nodup w join)).mpr fun id => ?_
  rw [mem_inputs]
  constructor
  · intro h
    rcases List.mem_map.mp h with ⟨t, ht, rfl⟩
    rcases (mem_feeders w join t).mp ht with ⟨hs, hd⟩
    rw [next?_stretchEnd w t (starts_lt w t hs), hd]
  · intro h
    have hlt := next?_lt h
    -- The input leads to a join, so it is where a stretch ends.
    rcases exists_start_of_end w id (by omega) (fun v hv => by
      rw [h, Option.some.injEq] at hv
      rw [← hv]
      exact hjoin) with ⟨t, ht, hend, hdown⟩
    rw [h] at hdown
    exact List.mem_map.mpr ⟨t, (mem_feeders w join t).mpr ⟨ht, hdown⟩, hend⟩

/-- Two stretches lead to a join. -/
theorem feeders_pair (w : Workflow) (join : Nat) (hjoin : join ∈ w.joins) :
    ∃ left right, w.feeders join = [left, right] := by
  rcases inputs_join w join hjoin with ⟨a, b, hab⟩
  have hlen := (feeders_perm w join hjoin).length_eq
  rw [List.length_map, hab] at hlen
  exact List.length_eq_two.mp hlen

/-- The start whose stretch ends at the terminal, which is the only one that leads
    nowhere. -/
structure IsRoot (w : Workflow) (root : Nat) : Prop where
  mem : root ∈ w.starts
  stretchEnd_eq : w.stretchEnd root = w.terminal
  downstream_eq_none : ∀ t ∈ w.starts, w.downstream t = none ↔ t = root

/-- One stretch ends at the terminal, and no other leads nowhere. -/
theorem exists_root (w : Workflow) : ∃ root, w.IsRoot root := by
  rcases terminal_spec w with ⟨hlt, hnone⟩
  rcases exists_start_of_end w w.terminal hlt (fun v hv => by
    rw [hnone] at hv
    cases hv) with ⟨root, hroot, hend, hdown⟩
  refine ⟨root, ⟨hroot, hend, fun t ht => ⟨fun h => ?_, fun h => ?_⟩⟩⟩
  · have htlt := starts_lt w t ht
    rw [← next?_stretchEnd w t htlt] at h
    have hmem := stretchEnd_mem w t htlt
    have hterm := (next?_eq_none w _ (le_of_mem_stretch w t htlt _ hmem).2).mp h
    exact stretchEnd_injective w t root ht hroot (by rw [hterm, hend])
  · rw [h, hdown, hnone]

/-- Induction over the tree of joins: from the scans to the joins, and to each join
    from the two stretches that lead to it. -/
theorem start_induction (w : Workflow) {P : Nat → Prop} (scan : ∀ t ∈ w.scans, P t)
    (join : ∀ j ∈ w.joins, ∀ left right, w.feeders j = [left, right] → P left → P right → P j) :
    ∀ t ∈ w.starts, P t := by
  intro t
  induction t using Nat.strongRecOn with
  | _ t ih =>
    intro ht
    rcases (mem_starts w t).mp ht with hscan | hjoin
    · exact scan t hscan
    · rcases feeders_pair w t hjoin with ⟨left, right, hpair⟩
      have hfeeds : ∀ u ∈ [left, right], P u := fun u hu => by
        rw [← hpair] at hu
        exact ih u (lt_of_mem_feeders w t u hu) ((mem_feeders w t u).mp hu).1
      exact join t hjoin left right hpair (hfeeds left List.mem_cons_self)
        (hfeeds right (List.mem_cons_of_mem _ List.mem_cons_self))

/-- A start feeds another if following stretches from it leads there. -/
def Feeds (w : Workflow) (t u : Nat) : Prop :=
  Relation.ReflTransGen (fun a b => w.downstream a = some b) t u

theorem feeds_starts (w : Workflow) (t u : Nat) (ht : t ∈ w.starts) (h : w.Feeds t u) :
    u ∈ w.starts := by
  induction h with
  | refl => exact ht
  | tail _ hd ih => exact (mem_starts w _).mpr (Or.inr (downstream_spec w _ _ (starts_lt w _ ih) hd).1)

-- What feeds a start is the start itself or feeds a stretch that leads there.
theorem feeds_cases (w : Workflow) (t u : Nat) (ht : t ∈ w.starts) (h : w.Feeds t u) :
    t = u ∨ ∃ v ∈ w.feeders u, w.Feeds t v := by
  rcases Relation.ReflTransGen.cases_tail h with heq | ⟨v, hv, hd⟩
  · exact Or.inl heq.symm
  · exact Or.inr ⟨v, (mem_feeders w u v).mpr ⟨feeds_starts w t v ht hv, hd⟩, hv⟩

-- A scan is fed by nothing but itself.
theorem feeds_scan (w : Workflow) (t u : Nat) (ht : t ∈ w.starts) (hu : u ∈ w.scans)
    (h : w.Feeds t u) : t = u := by
  rcases feeds_cases w t u ht h with heq | ⟨v, hv, _⟩
  · exact heq
  · rcases (mem_feeders w u v).mp hv with ⟨hs, hd⟩
    exact absurd (downstream_spec w v u (starts_lt w v hs) hd).1
      (Graph.not_mem_joins_of_mem_scans _ u hu)

/-- Everything feeds the start whose stretch ends at the terminal. -/
theorem feeds_root (w : Workflow) (root : Nat) (hroot : w.IsRoot root) :
    ∀ t ∈ w.starts, w.Feeds t root := by
  -- Downstream there are only greater numbers.
  have h : ∀ n t, t ∈ w.starts → w.size ≤ t + n → w.Feeds t root := by
    intro n
    induction n with
    | zero =>
        intro t ht hn
        have := starts_lt w t ht
        omega
    | succ n ih =>
        intro t ht hn
        cases hd : w.downstream t with
        | none =>
            rw [(hroot.downstream_eq_none t ht).mp hd]
            exact Relation.ReflTransGen.refl
        | some j =>
            rcases downstream_spec w t j (starts_lt w t ht) hd with ⟨hjoin, hlt⟩
            exact Relation.ReflTransGen.head hd
              (ih j (mem_starts_of_join w j hjoin) (by omega))
  intro t ht
  exact h w.size t ht (by omega)

end Workflow

end Federation
