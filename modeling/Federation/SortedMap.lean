import Federation.Ascending

/-!
# Sorted Maps

Finite maps kept as the list of their entries in ascending order of keys. The
order belongs to the type, so two maps with the same entries are equal, and
walking a map visits its keys in one order whatever the order of the writes. A
frozen registry needs both: it is compared with the registry read back from its
written form, and the clusters and tables in it are listed in key order.

## Main definitions

* `SortedMap`: Entries in strictly ascending order of keys.
* `SortedMap.get?`, `SortedMap.insert`, `SortedMap.erase`: Reading and writing.
* `SortedMap.ofList`: The map of a list of entries; of two with one key the
  later counts.
* `SortedMap.IsLast`: The last entry of a key in a list.

## Theorems

* `SortedMap.get?_insert`, `SortedMap.get?_insertIfNew`, `SortedMap.get?_erase`:
  What a read sees after a write.
* `SortedMap.get?_eq_some`, `SortedMap.mem_values`: Reads, entries and values agree.
* `SortedMap.ext_get?`: A map is what its keys have.
* `SortedMap.get?_ofList`, `SortedMap.ofList_eq_iff`: Reading what has been collected.
* `SortedMap.get?_ofList_map`, `SortedMap.keys_ofList_map`: Reading what has been
  collected key by key.
* `SortedMap.ofList_toList`: Listing the entries and collecting them again is
  the identity.
-/

namespace Federation

/-- A finite map, as its entries in ascending order of keys. -/
structure SortedMap (κ α : Type) [Ord κ] where
  toList : List (κ × α)
  ascending : toList.Pairwise fun a b => compare a.1 b.1 = .lt
deriving DecidableEq

namespace SortedMap

variable {κ α : Type}

/-- Whether a value is that of the last entry of a key in a list. -/
def IsLast (l : List (κ × α)) (k : κ) (v : α) : Prop :=
  ∃ before later, l = before ++ (k, v) :: later ∧ ∀ e ∈ later, e.1 ≠ k

-- Of the entries of a list, those after the first decide on a key unless none has it.
theorem isLast_cons (e : κ × α) (l : List (κ × α)) (k : κ) (v : α) :
    IsLast (e :: l) k v ↔ IsLast l k v ∨ (e = (k, v) ∧ ∀ d ∈ l, d.1 ≠ k) := by
  constructor
  · rintro ⟨before, later, hl, hlater⟩
    cases before with
    | nil =>
      obtain ⟨rfl, rfl⟩ := List.cons.inj hl
      exact Or.inr ⟨rfl, hlater⟩
    | cons d before =>
      obtain ⟨rfl, rfl⟩ := List.cons.inj hl
      exact Or.inl ⟨before, later, rfl, hlater⟩
  · rintro (⟨before, later, rfl, hlater⟩ | ⟨rfl, hlater⟩)
    · exact ⟨e :: before, later, rfl, hlater⟩
    · exact ⟨[], l, rfl, hlater⟩

variable [Ord κ]

/-- The map without entries. -/
def empty : SortedMap κ α := ⟨[], List.Pairwise.nil⟩

instance : EmptyCollection (SortedMap κ α) := ⟨empty⟩

instance : Inhabited (SortedMap κ α) := ⟨empty⟩

/-- The keys, smallest first. -/
def keys (m : SortedMap κ α) : List κ := m.toList.map (·.1)

/-- The values, in the order of their keys. -/
def values (m : SortedMap κ α) : List α := m.toList.map (·.2)

/-- The value of a key. -/
def get? (m : SortedMap κ α) (k : κ) : Option α :=
  (m.toList.find? fun e => compare k e.1 == .eq).map (·.2)

/-- Writes one entry into ascending entries, in place of the one with its key. -/
def insertEntry (k : κ) (v : α) : List (κ × α) → List (κ × α)
  | [] => [(k, v)]
  | e :: rest =>
    match compare k e.1 with
    | .lt => (k, v) :: e :: rest
    | .eq => (k, v) :: rest
    | .gt => e :: insertEntry k v rest

/-- Writing adds nothing but the entry written. -/
theorem mem_insertEntry {k : κ} {v : α} {e : κ × α} {l : List (κ × α)}
    (h : e ∈ insertEntry k v l) : e = (k, v) ∨ e ∈ l := by
  induction l with
  | nil => simpa [insertEntry] using h
  | cons d rest ih =>
    unfold insertEntry at h
    split at h
    · simpa using h
    · rcases List.mem_cons.1 h with h | h
      · exact Or.inl h
      · exact Or.inr (List.mem_cons_of_mem _ h)
    · rcases List.mem_cons.1 h with h | h
      · exact Or.inr (h ▸ List.mem_cons_self)
      · exact (ih h).imp_right (List.mem_cons_of_mem _)

section Write

variable [Std.TransOrd κ]

/-- Writing keeps the keys in strictly ascending order. -/
theorem pairwise_insertEntry (k : κ) (v : α) {l : List (κ × α)}
    (h : l.Pairwise fun a b => compare a.1 b.1 = .lt) :
    (insertEntry k v l).Pairwise fun a b => compare a.1 b.1 = .lt := by
  induction l with
  | nil => exact List.pairwise_singleton _ _
  | cons d rest ih =>
    obtain ⟨hd, hrest⟩ := List.pairwise_cons.1 h
    unfold insertEntry
    split
    · rename_i hk
      refine List.pairwise_cons.2 ⟨fun e he => ?_, h⟩
      rcases List.mem_cons.1 he with rfl | he
      · exact hk
      · exact Std.TransCmp.lt_trans hk (hd e he)
    · rename_i hk
      exact List.pairwise_cons.2
        ⟨fun e he => Std.TransCmp.lt_of_eq_of_lt hk (hd e he), hrest⟩
    · rename_i hk
      refine List.pairwise_cons.2 ⟨fun e he => ?_, ih hrest⟩
      rcases mem_insertEntry he with rfl | he
      · exact Std.OrientedCmp.lt_of_gt hk
      · exact hd e he

/-- The map with one entry written, in place of the one with its key. -/
def insert (m : SortedMap κ α) (k : κ) (v : α) : SortedMap κ α :=
  ⟨insertEntry k v m.toList, pairwise_insertEntry k v m.ascending⟩

/-- The map with one entry written, unless its key has one already. -/
def insertIfNew (m : SortedMap κ α) (k : κ) (v : α) : SortedMap κ α :=
  if (m.get? k).isSome then m else m.insert k v

/-- The map of a list of entries. Of two entries with one key the later counts. -/
def ofList (l : List (κ × α)) : SortedMap κ α :=
  l.foldl (fun m e => m.insert e.1 e.2) empty

end Write

/-- The map without the entry of a key. -/
def erase (m : SortedMap κ α) (k : κ) : SortedMap κ α :=
  ⟨m.toList.filter fun e => compare k e.1 != .eq, m.ascending.filter _⟩

/-- The map with a function applied to every value. -/
def mapValues {β : Type} (f : α → β) (m : SortedMap κ α) : SortedMap κ β :=
  ⟨m.toList.map fun e => (e.1, f e.2), List.pairwise_map.2 m.ascending⟩

section Lemmas

@[simp] theorem get?_empty (k : κ) : (empty : SortedMap κ α).get? k = none := rfl

/-- What a key has is the value of its one entry. -/
theorem get?_eq_some [Std.LawfulEqOrd κ] (m : SortedMap κ α) (k : κ) (v : α) :
    m.get? k = some v ↔ (k, v) ∈ m.toList := by
  obtain ⟨l, hl⟩ := m
  show (l.find? _).map _ = some v ↔ (k, v) ∈ l
  have hself : compare k k = .eq := Std.ReflCmp.compare_self
  induction l with
  | nil => simp
  | cons d rest ih =>
    obtain ⟨hd, hrest⟩ := List.pairwise_cons.1 hl
    by_cases hk : compare k d.1 = .eq
    · -- No later entry has the key of this one.
      have hkd : k = d.1 := Std.LawfulEqOrd.eq_of_compare hk
      have hlater : (k, v) ∉ rest := fun hmem => by
        have hlt := hd _ hmem
        rw [← hkd, hself] at hlt
        cases hlt
      obtain ⟨dk, dv⟩ := d
      simp only [List.find?_cons, hk, BEq.rfl, Option.map_some, Option.some.injEq, List.mem_cons,
        Prod.mk.injEq, hlater, or_false]
      exact ⟨fun h => ⟨hkd, h.symm⟩, fun h => h.2.symm⟩
    · have hne : (k, v) ≠ d := fun h => hk (h ▸ hself)
      simp only [List.find?_cons, beq_eq_false_iff_ne.2 hk, List.mem_cons, hne, false_or]
      exact ih hrest

/-- A map is what its keys have. -/
theorem ext_get? [Std.LawfulEqOrd κ] [Std.TransOrd κ] {m n : SortedMap κ α}
    (h : ∀ k, m.get? k = n.get? k) : m = n := by
  have hmem : ∀ e, e ∈ m.toList ↔ e ∈ n.toList := fun ⟨k, v⟩ => by
    rw [← get?_eq_some, ← get?_eq_some, h]
  have hself : ∀ e : κ × α, compare e.1 e.1 ≠ .lt := fun e he => by
    simp [Std.ReflCmp.compare_self] at he
  have hnodup : ∀ l : List (κ × α), (l.Pairwise fun a b => compare a.1 b.1 = .lt) → l.Nodup := by
    intro l hl
    refine List.Pairwise.imp (fun {a b} hab heq => ?_) hl
    exact hself b (heq ▸ hab)
  have hperm := (List.perm_ext_iff_of_nodup (hnodup _ m.ascending) (hnodup _ n.ascending)).2 hmem
  have hlist : m.toList = n.toList := by
    refine hperm.eq_of_pairwise (fun a b _ _ hab hba => ?_) m.ascending n.ascending
    exact absurd (Std.TransCmp.lt_trans hab hba) (hself a)
  cases m
  cases n
  simp_all

/-- The values are those that keys have. -/
theorem mem_values [Std.LawfulEqOrd κ] (m : SortedMap κ α) (v : α) :
    v ∈ m.values ↔ ∃ k, m.get? k = some v := by
  simp [values, get?_eq_some]

/-- An erased key has no value, and nothing else has changed. -/
theorem get?_erase [Std.LawfulEqOrd κ] [DecidableEq κ] (m : SortedMap κ α) (k j : κ) :
    (m.erase k).get? j = if j = k then none else m.get? j := by
  have hkey : compare k j = .eq ↔ j = k :=
    ⟨fun h => (Std.LawfulEqOrd.eq_of_compare h).symm, fun h => h ▸ Std.ReflCmp.compare_self⟩
  have hkept : ∀ v, (j, v) ∈ (m.erase k).toList ↔ (j, v) ∈ m.toList ∧ j ≠ k := fun v => by
    simp [erase, hkey]
  ext v
  rw [get?_eq_some, hkept]
  by_cases hj : j = k
  · simp [hj]
  · simp [hj, get?_eq_some]

variable [Std.TransOrd κ]

/-- A read after a write sees the value written, and nothing else has changed. -/
theorem get?_insert [Std.LawfulEqOrd κ] [DecidableEq κ] (m : SortedMap κ α) (k j : κ) (v : α) :
    (m.insert k v).get? j = if j = k then some v else m.get? j := by
  obtain ⟨l, hl⟩ := m
  show ((insertEntry k v l).find? _).map _ = if j = k then _ else (l.find? _).map _
  have hself : ∀ a : κ, compare a a = .eq := fun a => Std.ReflCmp.compare_self
  have hne : ∀ {a b : κ}, a ≠ b → (compare a b == Ordering.eq) = false := fun {a b} h => by
    simpa using fun hc => h (Std.LawfulEqOrd.eq_of_compare hc)
  induction l with
  | nil =>
    by_cases hj : j = k
    · simp [insertEntry, hj]
    · simp [insertEntry, hj, hne hj]
  | cons d rest ih =>
    have ih := ih (List.pairwise_cons.1 hl).2
    unfold insertEntry
    split
    · by_cases hj : j = k
      · simp [hj]
      · simp [hj, hne hj]
    · have hkd : k = d.1 := Std.LawfulEqOrd.eq_of_compare ‹_›
      by_cases hj : j = k
      · simp [hj]
      · simp [hj, hne hj, hne (hkd ▸ hj)]
    · -- The entry goes further back, so the first entry is found as before.
      rename_i hkd
      by_cases hjd : j = d.1
      · have hj : j ≠ k := fun h => by
          rw [← hjd, ← h, hself] at hkd; cases hkd
        simp [← hjd, hj]
      · simpa [List.find?_cons, hne hjd] using ih

/-- A write that comes second changes nothing. -/
theorem get?_insertIfNew [Std.LawfulEqOrd κ] [DecidableEq κ] (m : SortedMap κ α) (k j : κ)
    (v : α) : (m.insertIfNew k v).get? j = (m.get? j).or (if j = k then some v else none) := by
  unfold insertIfNew
  cases hk : m.get? k with
  | some u =>
    by_cases hj : j = k
    · simp [hj, hk]
    · simp [hj]
  | none =>
    by_cases hj : j = k
    · simp [get?_insert, hj, hk]
    · simp [get?_insert, hj]

/-- Collecting a value for each of several keys gives each key its value. -/
theorem get?_ofList_map [Std.LawfulEqOrd κ] [DecidableEq κ] (f : κ → α) (l : List κ) (j : κ) :
    (ofList (l.map fun k => (k, f k))).get? j = if j ∈ l then some (f j) else none := by
  -- Keys that are yet to come have no value but the one they will get.
  suffices h : ∀ m : SortedMap κ α,
      ((l.map fun k => (k, f k)).foldl (fun m e => m.insert e.1 e.2) m).get? j
        = if j ∈ l then some (f j) else m.get? j from h empty
  induction l with
  | nil => intro m; simp
  | cons a rest ih =>
    intro m
    rw [List.map_cons, List.foldl_cons, ih, get?_insert]
    by_cases hrest : j ∈ rest
    · simp [hrest]
    · by_cases hj : j = a
      · simp [hj]
      · simp [hrest, hj]

/-- Collecting a value for each of several keys leaves these keys, whatever the values. -/
theorem keys_ofList_map [Std.LawfulEqOrd κ] [DecidableEq κ] (f : κ → α) (l : List κ) :
    (ofList (l.map fun k => (k, f k))).keys = Federation.ascending l := by
  refine Ascending.ext (List.pairwise_map.2 (SortedMap.ascending _)) (ascending_pairwise l) ?_
  intro k
  have hget := get?_ofList_map f l k
  rw [mem_ascending]
  by_cases hl : k ∈ l
  · rw [if_pos hl] at hget
    exact iff_of_true (List.mem_map_of_mem ((get?_eq_some _ _ _).1 hget)) hl
  · rw [if_neg hl] at hget
    refine iff_of_false (fun hk => ?_) hl
    obtain ⟨⟨_, v⟩, he, rfl⟩ := List.mem_map.1 hk
    rw [(get?_eq_some _ _ _).2 he] at hget
    cases hget

/-- Of the entries of a list with one key the last one counts. -/
theorem get?_ofList [Std.LawfulEqOrd κ] [DecidableEq κ] (l : List (κ × α)) (k : κ) (v : α) :
    (ofList l).get? k = some v ↔ IsLast l k v := by
  -- What was collected before counts for keys that are not to come.
  suffices h : ∀ m : SortedMap κ α,
      (l.foldl (fun m e => m.insert e.1 e.2) m).get? k = some v ↔
        IsLast l k v ∨ (m.get? k = some v ∧ ∀ e ∈ l, e.1 ≠ k) by
    simpa [ofList] using h empty
  induction l with
  | nil => intro m; simp [IsLast]
  | cons e rest ih =>
    intro m
    obtain ⟨key, value⟩ := e
    rw [List.foldl_cons, ih, get?_insert, isLast_cons]
    by_cases hk : k = key
    · simp [hk]
    · simp [hk, Ne.symm hk]

/-- A map was collected from a list if the last entries of the list are those of the map. -/
theorem ofList_eq_iff [Std.LawfulEqOrd κ] [DecidableEq κ] (l : List (κ × α))
    (m : SortedMap κ α) : ofList l = m ↔ ∀ k v, m.get? k = some v ↔ IsLast l k v := by
  constructor
  · rintro rfl k v
    exact get?_ofList l k v
  · intro h
    refine ext_get? fun k => Option.ext fun v => ?_
    rw [get?_ofList, h]

/-- An entry whose key is greater than all others goes to the end. -/
theorem insertEntry_append {k : κ} {v : α} {l : List (κ × α)}
    (h : ∀ e ∈ l, compare e.1 k = .lt) : insertEntry k v l = l ++ [(k, v)] := by
  induction l with
  | nil => rfl
  | cons d rest ih =>
    have hd : compare k d.1 = .gt := Std.OrientedCmp.gt_of_lt (h d List.mem_cons_self)
    simp [insertEntry, hd, ih fun e he => h e (List.mem_cons_of_mem _ he)]

/-- Collecting the entries of a map gives the map back. -/
theorem ofList_toList (m : SortedMap κ α) : ofList m.toList = m := by
  -- What is collected so far is the part of the entries before the rest.
  suffices h : ∀ (l done : List (κ × α))
      (hd : done.Pairwise fun a b => compare a.1 b.1 = .lt)
      (hl : (done ++ l).Pairwise fun a b => compare a.1 b.1 = .lt),
      l.foldl (fun m e => m.insert e.1 e.2) ⟨done, hd⟩ = (⟨done ++ l, hl⟩ : SortedMap κ α) from
    h m.toList [] List.Pairwise.nil m.ascending
  intro l
  induction l with
  | nil => intro done hd hl; simp
  | cons e rest ih =>
    intro done hd hl
    have hlast : insertEntry e.1 e.2 done = done ++ [e] :=
      insertEntry_append fun d hd => (List.pairwise_append.1 hl).2.2 d hd e List.mem_cons_self
    have hmap : (⟨done, hd⟩ : SortedMap κ α).insert e.1 e.2
        = ⟨done ++ [e], hlast ▸ pairwise_insertEntry e.1 e.2 hd⟩ := by
      simp [insert, hlast]
    rw [List.foldl_cons, hmap, ih _ _ (by simpa using hl)]
    simp

end Lemmas

end SortedMap

end Federation
