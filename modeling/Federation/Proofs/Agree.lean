import Mathlib.Data.List.Forall2

/-!
# Two Runs Side by Side

Statements about two planning runs, on registries that differ in something that
should not matter, say that both come to related results or both fail in one way.
`Agree` is that relation between computations that may fail, and the lemmas carry it
through the ways in which a plan is put together, so that a statement about two runs
of the planner becomes one lemma for each of its functions.

## Main definitions

* `Agree`: Related results, or one failure.

## Theorems

* `Agree.bind`: Going on from related results.
* `Agree.mapM`, `Agree.mapM_self`: Collecting results for related items.
* `Agree.of_eq`: Equal computations agree.
* `agree_iff`: What it comes to.
* `agree_of_map_eq`: Computations whose results are labelled alike.
* `zipIdx_map_congr`: Numbered items that tell the same.
* `bind_relabelled`, `mapM_relabelled`, `foldlM_relabelled`: One run with labels put on
  what it starts from, the other with labels put on its result.
-/

namespace Federation

variable {α β γ δ ε : Type}

/-- Whether two computations come to related results or fail in one way. -/
inductive Agree (R : α → β → Prop) : Except ε α → Except ε β → Prop
  | ok (a : α) (b : β) (h : R a b) : Agree R (.ok a) (.ok b)
  | error (e : ε) : Agree R (.error e) (.error e)

/-- What follows agrees if it does for all related results. -/
theorem Agree.bind {R : α → β → Prop} {S : γ → δ → Prop} {x : Except ε α} {y : Except ε β}
    {f : α → Except ε γ} {g : β → Except ε δ} (h : Agree R x y)
    (hfg : ∀ a b, R a b → Agree S (f a) (g b)) : Agree S (x >>= f) (y >>= g) := by
  cases h with
  | ok a b hab => exact hfg a b hab
  | error e => exact Agree.error e

theorem Agree.of_eq {x y : Except ε α} (h : x = y) : Agree (· = ·) x y := by
  cases h
  cases x with
  | ok a => exact Agree.ok a a rfl
  | error e => exact Agree.error e

theorem Agree.imp {R S : α → β → Prop} {x : Except ε α} {y : Except ε β} (h : Agree R x y)
    (hRS : ∀ a b, R a b → S a b) : Agree S x y := by
  cases h with
  | ok a b hab => exact Agree.ok a b (hRS a b hab)
  | error e => exact Agree.error e

/-- Results are collected for related items, or the first failure is the same. -/
theorem Agree.mapM {R : α → β → Prop} {S : γ → δ → Prop} {f : α → Except ε γ}
    {g : β → Except ε δ} {l : List α} {l' : List β} (hl : List.Forall₂ R l l')
    (hfg : ∀ a ∈ l, ∀ b, R a b → Agree S (f a) (g b)) :
    Agree (List.Forall₂ S) (l.mapM f) (l'.mapM g) := by
  induction hl with
  | nil => exact Agree.ok [] [] List.Forall₂.nil
  | cons hab _ ih =>
      rw [List.mapM_cons, List.mapM_cons]
      refine (hfg _ List.mem_cons_self _ hab).bind fun c d hcd => ?_
      refine (ih fun a ha => hfg a (List.mem_cons_of_mem _ ha)).bind fun cs ds hrest => ?_
      exact Agree.ok _ _ (List.Forall₂.cons hcd hrest)

theorem Agree.mapM_self {S : γ → δ → Prop} {f : α → Except ε γ} {g : α → Except ε δ}
    (l : List α) (hfg : ∀ a ∈ l, Agree S (f a) (g a)) :
    Agree (List.Forall₂ S) (l.mapM f) (l.mapM g) :=
  Agree.mapM (List.forall₂_same.mpr fun _ _ => rfl) fun a ha b (hab : a = b) => hab ▸ hfg a ha

/-- Two computations agree if both fail in one way or both have results, and these are
    related. -/
theorem agree_iff (R : α → β → Prop) (x : Except ε α) (y : Except ε β) :
    Agree R x y ↔ (∃ e, x = .error e ∧ y = .error e) ∨ ∃ a b, x = .ok a ∧ y = .ok b ∧ R a b := by
  constructor
  · intro h
    cases h with
    | ok a b hab => exact Or.inr ⟨a, b, rfl, rfl, hab⟩
    | error e => exact Or.inl ⟨e, rfl, rfl⟩
  · rintro (⟨e, rfl, rfl⟩ | ⟨a, b, rfl, rfl, hab⟩)
    · exact Agree.error e
    · exact Agree.ok a b hab

theorem agree_of_map_eq (r : α → γ) (r' : β → γ) (x : Except ε α) (y : Except ε β)
    (h : x.map r = y.map r') : Agree (fun a b => r a = r' b) x y := by
  cases x with
  | error e =>
      cases y with
      | error e' =>
          cases h
          exact Agree.error e
      | ok b => cases h
  | ok a =>
      cases y with
      | error e' => cases h
      | ok b => exact Agree.ok a b (Except.ok.inj h)

/-- Items that tell the same at every number tell the same when numbered. -/
theorem zipIdx_map_congr {R : α → β → Prop} {f : α × Nat → γ} {g : β × Nat → γ} {l : List α}
    {l' : List β} (hl : List.Forall₂ R l l') (hfg : ∀ a b i, R a b → f (a, i) = g (b, i)) :
    l.zipIdx.map f = l'.zipIdx.map g := by
  suffices h : ∀ n, (l.zipIdx n).map f = (l'.zipIdx n).map g from h 0
  induction hl with
  | nil => exact fun _ => rfl
  | cons hab _ ih =>
      intro n
      rw [List.zipIdx_cons, List.zipIdx_cons, List.map_cons, List.map_cons, hfg _ _ n hab,
        ih (n + 1)]

/-- Labels may be put on at the end if they may be put on between. -/
theorem bind_relabelled {x : Except ε α} {y : Except ε β} {f : α → Except ε γ}
    {g : β → Except ε δ} (r : α → β) (r' : γ → δ) (h : y = x.map r)
    (hfg : ∀ a, x = .ok a → g (r a) = (f a).map r') : (y >>= g) = (x >>= f).map r' := by
  subst h
  cases x with
  | ok a => exact hfg a rfl
  | error e => rfl

theorem mapM_relabelled {f : α → Except ε γ} {g : β → Except ε δ} (r : α → β) (r' : γ → δ)
    (l : List α) (hfg : ∀ a ∈ l, g (r a) = (f a).map r') :
    (l.map r).mapM g = (l.mapM f).map (List.map r') := by
  induction l with
  | nil => rfl
  | cons a rest ih =>
      rw [List.map_cons, List.mapM_cons, List.mapM_cons]
      refine bind_relabelled r' _ (hfg a List.mem_cons_self) fun c _ => ?_
      refine bind_relabelled (List.map r') _ (ih fun b hb => ?_) fun cs _ => rfl
      exact hfg b (List.mem_cons_of_mem _ hb)

theorem foldlM_relabelled {f : γ → α → Except ε γ} {g : δ → α → Except ε δ} (r : γ → δ)
    (l : List α) (c : γ) (hfg : ∀ c a, g (r c) a = (f c a).map r) :
    l.foldlM g (r c) = (l.foldlM f c).map r := by
  induction l generalizing c with
  | nil => rfl
  | cons a rest ih =>
      rw [List.foldlM_cons, List.foldlM_cons]
      exact bind_relabelled r r (hfg c a) fun d _ => ih d

end Federation
