/-!
# Ascending Lists

A list whose members strictly increase is the one canonical list of its set of
members. Everything the library reports as "sorted and deduplicated" (the tables
of a workflow, the steps that feed a step, the connectors of a plan) is such a
list, so that what is reported depends on the members alone and never on the
order in which they were met.

## Main definitions

* `Ascending`: Each member is smaller than all that follow it.
* `ascending`: The ascending list of the members of any list.

## Theorems

* `mem_ascending`: Nothing is lost and nothing is added.
* `ascending_pairwise`: The result is ascending.
* `ascending_perm`: Without repetitions, sorting only rearranges.
* `Ascending.ext`: Two ascending lists with the same members are equal.
-/

namespace Federation

variable {α : Type} [Ord α]

/-- Each member is smaller than all that follow it. -/
def Ascending (l : List α) : Prop :=
  l.Pairwise fun a b => compare a b = .lt

/-- Puts a member at its place in an ascending list, unless the list holds it
    already. -/
def insertAscending (a : α) : List α → List α
  | [] => [a]
  | b :: rest =>
    match compare a b with
    | .lt => a :: b :: rest
    | .eq => b :: rest
    | .gt => b :: insertAscending a rest

/-- The distinct members of a list, smallest first. -/
def ascending (l : List α) : List α :=
  l.foldr insertAscending []

section Lemmas

variable [Std.LawfulEqOrd α]

/-- Putting a member at its place adds that member alone. -/
theorem mem_insertAscending {a x : α} {l : List α} :
    x ∈ insertAscending a l ↔ x = a ∨ x ∈ l := by
  induction l with
  | nil => simp [insertAscending]
  | cons b rest ih =>
    unfold insertAscending
    split
    · simp
    · have hab : a = b := Std.LawfulEqOrd.eq_of_compare ‹_›
      simp [hab]
    · simp [ih, or_left_comm]

/-- Nothing is lost and nothing is added. -/
theorem mem_ascending {x : α} {l : List α} : x ∈ ascending l ↔ x ∈ l := by
  induction l with
  | nil => simp [ascending]
  | cons a rest ih =>
    have h : ascending (a :: rest) = insertAscending a (ascending rest) := rfl
    rw [h, mem_insertAscending, ih, List.mem_cons]

/-- An ascending list repeats nothing. -/
theorem Ascending.nodup {l : List α} (h : Ascending l) : l.Nodup := by
  refine List.Pairwise.imp (fun {a b} hab heq => ?_) h
  have hself : compare a a = .eq := Std.ReflCmp.compare_self
  rw [← heq, hself] at hab
  exact absurd hab (by decide)

/-- No member comes before the first. -/
theorem Ascending.head_least {a : α} {l : List α} (h : Ascending (a :: l)) :
    ∀ b ∈ a :: l, compare a b ≠ .gt := by
  intro b hb hgt
  rcases List.mem_cons.1 hb with rfl | hb
  · have hself : compare b b = .eq := Std.ReflCmp.compare_self
    rw [hself] at hgt
    cases hgt
  · rw [(List.pairwise_cons.1 h).1 b hb] at hgt
    cases hgt

variable [Std.TransOrd α]

/-- An ascending list stays ascending when a member is put at its place. -/
theorem Ascending.insertAscending (a : α) {l : List α} (h : Ascending l) :
    Ascending (insertAscending a l) := by
  induction l with
  | nil => exact List.pairwise_singleton _ a
  | cons b rest ih =>
    obtain ⟨hb, hrest⟩ := List.pairwise_cons.1 h
    unfold Federation.insertAscending
    split
    · rename_i hab
      refine List.pairwise_cons.2 ⟨fun c hc => ?_, h⟩
      rcases List.mem_cons.1 hc with rfl | hc
      · exact hab
      · exact Std.TransCmp.lt_trans hab (hb c hc)
    · exact h
    · rename_i hab
      refine List.pairwise_cons.2 ⟨fun c hc => ?_, ih hrest⟩
      rcases mem_insertAscending.1 hc with rfl | hc
      · exact Std.OrientedCmp.lt_of_gt hab
      · exact hb c hc

/-- Sorting and dropping repetitions leaves an ascending list. -/
theorem ascending_pairwise (l : List α) : Ascending (ascending l) := by
  induction l with
  | nil => exact List.Pairwise.nil
  | cons a rest ih => exact ih.insertAscending a

/-- Where nothing is repeated there is nothing to drop, and sorting rearranges. -/
theorem ascending_perm {l : List α} (h : l.Nodup) : (ascending l).Perm l :=
  (List.perm_ext_iff_of_nodup (ascending_pairwise l).nodup h).2 fun _ => mem_ascending

/-- An ascending list is determined by its members. -/
theorem Ascending.ext {l m : List α} (hl : Ascending l) (hm : Ascending m)
    (h : ∀ x, x ∈ l ↔ x ∈ m) : l = m := by
  induction l generalizing m with
  | nil =>
    cases m with
    | nil => rfl
    | cons b _ => exact absurd ((h b).2 (by simp)) (by simp)
  | cons a rest ih =>
    cases m with
    | nil => exact absurd ((h a).1 (by simp)) (by simp)
    | cons b others =>
      obtain ⟨ha, hrest⟩ := List.pairwise_cons.1 hl
      obtain ⟨hb, hothers⟩ := List.pairwise_cons.1 hm
      have irrefl : ∀ c : α, compare c c ≠ .lt := fun c hc => by
        simp [Std.ReflCmp.compare_self] at hc
      -- The heads are both the least member.
      have hab : a = b := by
        rcases List.mem_cons.1 ((h a).1 (by simp)) with hab | hab
        · exact hab
        · rcases List.mem_cons.1 ((h b).2 (by simp)) with hba | hba
          · exact hba.symm
          · exact absurd (Std.TransCmp.lt_trans (ha b hba) (hb a hab)) (irrefl a)
      subst hab
      congr 1
      refine ih hrest hothers fun x => ⟨fun hx => ?_, fun hx => ?_⟩
      · rcases List.mem_cons.1 ((h x).1 (List.mem_cons_of_mem _ hx)) with rfl | hx'
        · exact absurd (ha x hx) (irrefl x)
        · exact hx'
      · rcases List.mem_cons.1 ((h x).2 (List.mem_cons_of_mem _ hx)) with rfl | hx'
        · exact absurd (hb x hx) (irrefl x)
        · exact hx'

end Lemmas

end Federation
