import Mathlib.Data.List.Forall2

/-!
# Lists Collected Step by Step

A plan is collected: every scan gives a branch or a failure, and every join a
stage that may look at the stages collected before it. The two ways of collecting
are `mapM` and a fold that puts each new result behind those it was computed from,
and both are read here as statements about the members of the result. Where an
item is collected from the ones before it, these are the first `i` of the final
list, so a statement about a fold becomes one about places in its result.

## Theorems

* `bind_eq_ok`: A computation in two parts succeeds if both parts do.
* `bind_eq_error`, `mapM_eq_error`, `foldlM_eq_error`: What fails is the first item
  that fails, and those before it have results.
* `mapM_eq_ok`: Results stand at the places of the items they are computed from.
* `mapM_eq_ok_map`, `exists_of_mem_mapM`: Where results come from.
* `mapM_ok`: There are results where each item has one.
* `mapM_eq_ok_known`: The list of results, where the result of each item is known.
* `foldlM_snoc_eq_ok`: Each result is computed from the results before it.
* `foldlM_snoc_eq_some`: The same for results that may be missing.
* `mapM_eq_some`, `mapM_isSome`: Collecting values that are not missing.
-/

namespace Federation

variable {α β ε : Type}

-- What is known already is handed on.
theorem ok_bind (a : α) (f : α → Except ε β) : (Except.ok a >>= f) = f a := rfl

theorem pure_eq_ok (a b : α) : (pure a : Except ε α) = .ok b ↔ b = a :=
  ⟨fun h => (Except.ok.inj h).symm, fun h => congrArg Except.ok h.symm⟩

/-- A computation in two parts succeeds if both parts do. -/
theorem bind_eq_ok (x : Except ε α) (f : α → Except ε β) (b : β) :
    (x >>= f) = .ok b ↔ ∃ a, x = .ok a ∧ f a = .ok b := by
  cases x with
  | error e =>
      constructor
      · intro h
        cases h
      · rintro ⟨a, ha, _⟩
        cases ha
  | ok a =>
      constructor
      · intro h
        exact ⟨a, rfl, h⟩
      · rintro ⟨a', ha, h⟩
        cases ha
        exact h

theorem map_eq_ok (x : Except ε α) (f : α → β) (b : β) :
    x.map f = .ok b ↔ ∃ a, x = .ok a ∧ f a = b := by
  cases x with
  | error e => exact ⟨nofun, nofun⟩
  | ok a =>
      constructor
      · intro h
        exact ⟨a, rfl, Except.ok.inj h⟩
      · rintro ⟨_, ⟨⟩, h⟩
        exact congrArg Except.ok h

/-- A computation in two parts fails as the first part that fails. -/
theorem bind_eq_error (x : Except ε α) (f : α → Except ε β) (e : ε) :
    (x >>= f) = .error e ↔ x = .error e ∨ ∃ a, x = .ok a ∧ f a = .error e := by
  cases x with
  | error d =>
      constructor
      · intro h
        cases h
        exact Or.inl rfl
      · rintro (h | ⟨a, ha, _⟩)
        · cases h
          rfl
        · cases ha
  | ok a =>
      constructor
      · intro h
        exact Or.inr ⟨a, rfl, h⟩
      · rintro (h | ⟨a', ha, h⟩)
        · cases h
        · cases ha
          exact h

/-- Results stand at the places of the items they are computed from. -/
theorem mapM_eq_ok (f : α → Except ε β) (l : List α) (out : List β) :
    l.mapM f = .ok out ↔ List.Forall₂ (fun a b => f a = .ok b) l out := by
  induction l generalizing out with
  | nil =>
      rw [List.mapM_nil, List.forall₂_nil_left_iff]
      constructor
      · intro h
        cases h
        rfl
      · intro h
        rw [h]
        rfl
  | cons a rest ih =>
      rw [List.mapM_cons, bind_eq_ok, List.forall₂_cons_left_iff]
      constructor
      · rintro ⟨b, hb, h⟩
        rcases (bind_eq_ok _ _ _).mp h with ⟨more, hmore, hout⟩
        cases hout
        exact ⟨b, more, hb, (ih more).mp hmore, rfl⟩
      · rintro ⟨b, more, hb, hmore, rfl⟩
        exact ⟨b, hb, (bind_eq_ok _ _ _).mpr ⟨more, (ih more).mpr hmore, rfl⟩⟩

-- Where the result of each item is known so are the results.
theorem mapM_eq_ok_map (f : α → Except ε β) (g : α → β) (l : List α)
    (h : ∀ a ∈ l, f a = .ok (g a)) : l.mapM f = .ok (l.map g) :=
  (mapM_eq_ok f l _).mpr (List.forall₂_map_right_iff.mpr (List.forall₂_same.mpr h))

-- Each of the results is that of an item.
theorem exists_of_mem_mapM (f : α → Except ε β) (l : List α) (out : List β)
    (h : l.mapM f = .ok out) (b : β) (hb : b ∈ out) : ∃ a ∈ l, f a = .ok b := by
  have hall := (mapM_eq_ok f l out).mp h
  clear h
  induction hall with
  | nil => exact absurd hb List.not_mem_nil
  | cons hab _ ih =>
      rcases List.mem_cons.mp hb with heq | hb
      · exact ⟨_, List.mem_cons_self, heq ▸ hab⟩
      · rcases ih hb with ⟨a, ha, hfa⟩
        exact ⟨a, List.mem_cons_of_mem _ ha, hfa⟩

/-- Collecting fails as the first item that has no result. -/
theorem mapM_eq_error (f : α → Except ε β) (l : List α) (e : ε) :
    l.mapM f = .error e ↔ ∃ before a after out,
      l = before ++ a :: after ∧ before.mapM f = .ok out ∧ f a = .error e := by
  induction l with
  | nil =>
      constructor
      · intro h
        cases h
      · rintro ⟨before, a, after, _, hl, _, _⟩
        exact absurd hl.symm (List.append_ne_nil_of_right_ne_nil before (List.cons_ne_nil a after))
  | cons x rest ih =>
      rw [List.mapM_cons, bind_eq_error]
      constructor
      · rintro (hx | ⟨y, hy, h⟩)
        · exact ⟨[], x, rest, [], rfl, rfl, hx⟩
        · rcases (bind_eq_error _ _ _).mp h with hrest | ⟨more, _, hout⟩
          · rcases ih.mp hrest with ⟨before, a, after, out, rfl, hbefore, ha⟩
            refine ⟨x :: before, a, after, y :: out, rfl, ?_, ha⟩
            rw [List.mapM_cons, hy, hbefore]
            rfl
          · cases hout
      · rintro ⟨before, a, after, out, hl, hbefore, ha⟩
        cases before with
        | nil =>
            cases hl
            exact Or.inl ha
        | cons z before =>
            cases hl
            rw [List.mapM_cons] at hbefore
            rcases (bind_eq_ok _ _ _).mp hbefore with ⟨y, hy, h⟩
            rcases (bind_eq_ok _ _ _).mp h with ⟨more, hmore, _⟩
            refine Or.inr ⟨y, hy, (bind_eq_error _ _ _).mpr (Or.inl ?_)⟩
            exact ih.mpr ⟨before, a, after, more, rfl, hmore, ha⟩

/-- Folding fails as the first item that cannot be added to those before it. -/
theorem foldlM_eq_error (f : β → α → Except ε β) (l : List α) (b : β) (e : ε) :
    l.foldlM f b = .error e ↔ ∃ before a after c,
      l = before ++ a :: after ∧ before.foldlM f b = .ok c ∧ f c a = .error e := by
  induction l generalizing b with
  | nil =>
      constructor
      · intro h
        cases h
      · rintro ⟨before, a, after, _, hl, _, _⟩
        exact absurd hl.symm (List.append_ne_nil_of_right_ne_nil before (List.cons_ne_nil a after))
  | cons x rest ih =>
      rw [List.foldlM_cons, bind_eq_error]
      constructor
      · rintro (hx | ⟨y, hy, h⟩)
        · exact ⟨[], x, rest, b, rfl, rfl, hx⟩
        · rcases (ih y).mp h with ⟨before, a, after, c, rfl, hbefore, ha⟩
          refine ⟨x :: before, a, after, c, rfl, ?_, ha⟩
          rw [List.foldlM_cons, hy]
          exact hbefore
      · rintro ⟨before, a, after, c, hl, hbefore, ha⟩
        cases before with
        | nil =>
            cases hl
            cases hbefore
            exact Or.inl ha
        | cons z before =>
            cases hl
            rw [List.foldlM_cons] at hbefore
            rcases (bind_eq_ok _ _ _).mp hbefore with ⟨y, hy, h⟩
            exact Or.inr ⟨y, hy, (ih y).mpr ⟨before, a, after, c, rfl, h, ha⟩⟩

/-- Results can be collected wherever each item has one. -/
theorem mapM_ok (f : α → Except ε β) (l : List α) (h : ∀ a ∈ l, ∃ b, f a = .ok b) :
    ∃ out, l.mapM f = .ok out := by
  induction l with
  | nil => exact ⟨[], rfl⟩
  | cons a rest ih =>
      rcases h a List.mem_cons_self with ⟨b, hb⟩
      rcases ih fun c hc => h c (List.mem_cons_of_mem _ hc) with ⟨more, hmore⟩
      refine ⟨b :: more, ?_⟩
      rw [List.mapM_cons, hb, hmore]
      rfl

/-- Where it is known which result an item has if it has a good one, it is known
    which list of good results the items have. -/
theorem mapM_eq_ok_known (f : α → Except ε β) (good : β → Prop) (fit : α → Prop) (g : α → β)
    (l : List α) (out : List β) (h : ∀ a ∈ l, ∀ b, (f a = .ok b ∧ good b) ↔ fit a ∧ b = g a) :
    (l.mapM f = .ok out ∧ ∀ b ∈ out, good b) ↔ (∀ a ∈ l, fit a) ∧ out = l.map g := by
  rw [mapM_eq_ok]
  constructor
  · rintro ⟨hall, hgood⟩
    induction hall with
    | nil => exact ⟨fun a ha => absurd ha List.not_mem_nil, rfl⟩
    | cons hab _ ih =>
        rcases (h _ List.mem_cons_self _).mp ⟨hab, hgood _ List.mem_cons_self⟩ with ⟨hfit, hb⟩
        rcases ih (fun a ha => h a (List.mem_cons_of_mem _ ha))
          (fun b hb => hgood b (List.mem_cons_of_mem _ hb)) with ⟨hrest, hout⟩
        rw [hb, hout]
        exact ⟨List.forall_mem_cons.mpr ⟨hfit, hrest⟩, rfl⟩
  · rintro ⟨hfit, rfl⟩
    refine ⟨List.forall₂_map_right_iff.mpr (List.forall₂_same.mpr fun a ha => ?_), fun b hb => ?_⟩
    · exact ((h a ha _).mpr ⟨hfit a ha, rfl⟩).1
    · rcases List.mem_map.mp hb with ⟨a, ha, rfl⟩
      exact ((h a ha _).mpr ⟨hfit a ha, rfl⟩).2

/-- Each result is computed from the results before it. -/
theorem foldlM_snoc_eq_ok (f : List β → α → Except ε β) (l : List α) (done out : List β) :
    l.foldlM (fun acc a => do return acc ++ [← f acc a]) done = .ok out ↔
      ∃ new, out = done ++ new ∧ new.length = l.length ∧
        ∀ i a b, l[i]? = some a → new[i]? = some b → f (done ++ new.take i) a = .ok b := by
  induction l generalizing done with
  | nil =>
      rw [List.foldlM_nil]
      constructor
      · intro h
        cases h
        exact ⟨[], (List.append_nil _).symm, rfl, fun i a b ha => by cases ha⟩
      · rintro ⟨new, rfl, hlen, _⟩
        rw [List.eq_nil_of_length_eq_zero hlen, List.append_nil]
        rfl
  | cons x rest ih =>
      rw [List.foldlM_cons, bind_eq_ok]
      constructor
      · rintro ⟨acc, hacc, h⟩
        rcases (bind_eq_ok _ _ _).mp hacc with ⟨y, hy, hdone⟩
        cases hdone
        rcases (ih _).mp h with ⟨new, rfl, hlen, hnew⟩
        refine ⟨y :: new, by rw [List.append_assoc]; rfl, by rw [List.length_cons, hlen]; rfl,
          fun i a b ha hb => ?_⟩
        cases i with
        | zero =>
            cases ha
            cases hb
            rw [List.take_zero, List.append_nil]
            exact hy
        | succ i =>
            have hstep := hnew i a b ha hb
            rw [List.append_assoc] at hstep
            exact hstep
      · rintro ⟨new, rfl, hlen, hnew⟩
        -- The first new result is that of the first item.
        cases new with
        | nil => cases hlen
        | cons y new =>
            have hy : f done x = .ok y := by
              have hfirst := hnew 0 x y rfl rfl
              rw [List.take_zero, List.append_nil] at hfirst
              exact hfirst
            refine ⟨done ++ [y], (bind_eq_ok _ _ _).mpr ⟨y, hy, rfl⟩, (ih _).mpr ?_⟩
            refine ⟨new, by rw [List.append_assoc]; rfl, Nat.succ.inj hlen,
              fun i a b ha hb => ?_⟩
            have hstep := hnew (i + 1) a b ha hb
            rw [List.append_assoc]
            exact hstep

/-- Results that are each computed from those before are collected in order. -/
theorem foldlM_snoc_eq_some {γ : Type*} (f : List γ → α → Option γ) (l : List α)
    (done new : List γ) (hlen : new.length = l.length)
    (h : ∀ i a b, l[i]? = some a → new[i]? = some b → f (done ++ new.take i) a = some b) :
    l.foldlM (fun acc a => do return acc ++ [← f acc a]) done = some (done ++ new) := by
  induction l generalizing done new with
  | nil =>
      rw [List.eq_nil_of_length_eq_zero hlen, List.append_nil]
      rfl
  | cons x rest ih =>
      cases new with
      | nil => cases hlen
      | cons y new =>
          have hy : f done x = some y := by
            have hfirst := h 0 x y rfl rfl
            rw [List.take_zero, List.append_nil] at hfirst
            exact hfirst
          rw [List.foldlM_cons, hy]
          have hrest := ih (done ++ [y]) new (Nat.succ.inj hlen) fun i a b ha hb => by
            have hstep := h (i + 1) a b ha hb
            rw [List.append_assoc]
            exact hstep
          rw [List.append_assoc] at hrest
          exact hrest

/-- Values that are known are collected as they are known. -/
theorem mapM_eq_some {γ : Type*} (f : α → Option γ) (value : α → γ) (l : List α)
    (h : ∀ a ∈ l, f a = some (value a)) : l.mapM f = some (l.map value) := by
  induction l with
  | nil => rfl
  | cons a rest ih =>
      rw [List.mapM_cons, h a List.mem_cons_self, ih fun b hb => h b (List.mem_cons_of_mem _ hb)]
      rfl

/-- Where none is missing as many values are collected as were asked for. -/
theorem mapM_isSome {γ : Type*} (f : α → Option γ) (l : List α)
    (h : ∀ a ∈ l, ∃ c, f a = some c) :
    ∃ values, l.mapM f = some values ∧ values.length = l.length := by
  induction l with
  | nil => exact ⟨[], rfl, rfl⟩
  | cons a rest ih =>
      rcases h a List.mem_cons_self with ⟨c, hc⟩
      rcases ih fun b hb => h b (List.mem_cons_of_mem _ hb) with ⟨values, hvalues, hlen⟩
      refine ⟨c :: values, ?_, by rw [List.length_cons, hlen, List.length_cons]⟩
      rw [List.mapM_cons, hc, hvalues]
      rfl

theorem mapM_some_length {γ : Type*} (f : α → Option γ) (l : List α) (out : List γ)
    (h : l.mapM f = some out) : out.length = l.length := by
  induction l generalizing out with
  | nil =>
      cases h
      rfl
  | cons a rest ih =>
      rw [List.mapM_cons] at h
      rcases Option.bind_eq_some_iff.mp h with ⟨c, _, h⟩
      rcases Option.bind_eq_some_iff.mp h with ⟨more, hmore, h⟩
      cases h
      rw [List.length_cons, ih more hmore, List.length_cons]

end Federation
