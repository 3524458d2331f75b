import Cascade.Error
import Mathlib.Data.List.Forall2

/-!
# Computations that succeed

Every stage of the compiler either fails with an error or gives a result, and most facts about it
are about the results it gives.  This file has the two forms in which they are stated: what the
parts of a computation gave if the whole of it succeeded, and, for computations with a state, what
every result satisfies if the state satisfied an invariant before.
-/

set_option autoImplicit false

namespace Cascade

open List

/-! ## Taking a success apart -/

section Except

variable {ε α β : Type} {x : Except ε α} {step : β → α → Except ε β} {f : α → Except ε β}

theorem bind_eq_ok {b : β} : (x >>= f) = .ok b ↔ ∃ a, x = .ok a ∧ f a = .ok b := by
  cases x <;> simp [bind, Except.bind]

theorem map_eq_ok {f : α → β} {b : β} : x.map f = .ok b ↔ ∃ a, x = .ok a ∧ f a = b := by
  cases x <;> simp [Except.map]

/-- A success, with what was read off it and what holds of every success. -/
theorem exists_of_map {f : α → β} {b : β} {P : α → Prop} (h : x.map f = .ok b)
    (hP : ∀ a, x = .ok a → P a) : ∃ a, x = .ok a ∧ f a = b ∧ P a := by
  obtain ⟨a, ha, hb⟩ := map_eq_ok.1 h
  exact ⟨a, ha, hb, hP a ha⟩

theorem bind_eq_error {e : ε} :
    (x >>= f) = .error e ↔ x = .error e ∨ ∃ a, x = .ok a ∧ f a = .error e := by
  cases x <;> simp [bind, Except.bind]

theorem map_eq_error {f : α → β} {e : ε} : x.map f = .error e ↔ x = .error e := by
  cases x <;> simp [Except.map]

theorem pure_eq_ok {a b : α} : (pure a : Except ε α) = .ok b ↔ a = b := by
  simp [pure, Except.pure]

/-- A list of computations succeeds if each of them does. -/
theorem mapM_eq_ok {xs : List α} {ys : List β} (h : xs.mapM f = .ok ys) :
    List.Forall₂ (fun x y => f x = .ok y) xs ys := by
  induction xs generalizing ys with
  | nil =>
    rw [mapM_nil, pure_eq_ok] at h
    subst h
    exact .nil
  | cons x xs ih =>
    rw [mapM_cons] at h
    obtain ⟨y, hy, h⟩ := bind_eq_ok.1 h
    obtain ⟨zs, hzs, h⟩ := bind_eq_ok.1 h
    rw [pure_eq_ok] at h
    subst h
    exact .cons hy (ih hzs)

/-- What holds of every element on the left of two matching lists holds on the right, if matching
elements share it. -/
theorem forall_mem_of_forall₂ {R : α → β → Prop} {P : α → Prop} {Q : β → Prop}
    {as : List α} {bs : List β} (h : List.Forall₂ R as bs) (hP : ∀ a ∈ as, P a)
    (hPQ : ∀ a ∈ as, ∀ b, R a b → P a → Q b) : ∀ b ∈ bs, Q b := by
  induction h with
  | nil => simp
  | cons hab _ ih =>
    rw [forall_mem_cons] at hP hPQ ⊢
    exact ⟨hPQ.1 _ hab hP.1, ih hP.2 hPQ.2⟩

/-- Matching elements may be compared in another way, if that follows for those that are there. -/
theorem forall₂_imp_of_mem {R S : α → β → Prop} {as : List α} {bs : List β}
    (h : List.Forall₂ R as bs) (hRS : ∀ a ∈ as, ∀ b, R a b → S a b) : List.Forall₂ S as bs := by
  induction h with
  | nil => exact .nil
  | cons hab _ ih =>
    rw [forall_mem_cons] at hRS
    exact .cons (hRS.1 _ hab) (ih hRS.2)

/-- What every step of a loop keeps, the loop keeps.  The invariant may speak of the part of the
list that is still to come. -/
theorem foldlM_invariant (inv : List α → β → Prop)
    (hstep : ∀ x rest b c, inv (x :: rest) b → step b x = .ok c → inv rest c) :
    ∀ (xs : List α) (b c : β), inv xs b → xs.foldlM step b = .ok c → inv [] c
  | [], b, c, hb, h => by
    rw [foldlM_nil, pure_eq_ok] at h
    exact h ▸ hb
  | x :: xs, b, c, hb, h => by
    rw [foldlM_cons] at h
    obtain ⟨d, hd, h⟩ := bind_eq_ok.1 h
    exact foldlM_invariant inv hstep xs d c (hstep x xs b d hb hd) h

/-- A loop whose steps cannot fail does not fail. -/
theorem exists_foldlM_eq_ok {as : List α} (h : ∀ a ∈ as, ∀ b, ∃ c, step b a = .ok c) (b : β) :
    ∃ c, as.foldlM step b = .ok c := by
  induction as generalizing b with
  | nil => exact ⟨b, rfl⟩
  | cons a as ih =>
    obtain ⟨ha, has⟩ := forall_mem_cons.1 h
    obtain ⟨c, hc⟩ := ha b
    rw [foldlM_cons, hc]
    exact ih has c

/-- A loop whose steps fail or change nothing. -/
theorem foldlM_eq_ok_of_constant {b c : β} {as : List α} (h : ∀ a c, step b a = .ok c → c = b)
    (hc : as.foldlM step b = .ok c) : c = b ∧ ∀ a ∈ as, step b a = .ok b := by
  induction as with
  | nil =>
    cases hc
    exact ⟨rfl, by simp⟩
  | cons a as ih =>
    rw [foldlM_cons] at hc
    obtain ⟨d, hd, hrest⟩ := bind_eq_ok.1 hc
    obtain rfl := h a d hd
    obtain ⟨heq, has⟩ := ih hrest
    exact ⟨heq, forall_mem_cons.2 ⟨hd, has⟩⟩

end Except

/-! ## Computations with a state -/

section State

variable {ε σ α β : Type} {inv : σ → Prop} {f : α → StateT σ (Except ε) β}

/-- Run in a state that satisfies `inv`, the computation fails with an error that satisfies `fails`,
or it leaves a state that satisfies `inv` and gives a result that satisfies `post`. -/
structure Ensures (inv : σ → Prop) (fails : ε → Prop) (m : StateT σ (Except ε) α)
    (post : α → Prop) : Prop where
  ok : ∀ s a t, inv s → m s = .ok (a, t) → inv t ∧ post a
  error : ∀ s e, inv s → m s = .error e → fails e

theorem run_bind_eq_ok {m : StateT σ (Except ε) α} {s t : σ} {b : β} :
    (m >>= f) s = .ok (b, t) ↔ ∃ a u, m s = .ok (a, u) ∧ f a u = .ok (b, t) := by
  change (m s >>= fun p => f p.1 p.2) = .ok (b, t) ↔ _
  rw [bind_eq_ok, Prod.exists]

namespace Ensures

variable {fails : ε → Prop} {m m' : StateT σ (Except ε) α} {post : α → Prop}

theorem pure {a : α} (h : post a) : Ensures inv fails (Pure.pure a) post where
  ok s b t hs hb := by
    cases hb
    exact ⟨hs, h⟩
  error s e _ he := by cases he

section

variable (hm : Ensures inv fails m post)

include hm

theorem bind {post' : β → Prop} (hf : ∀ a, post a → Ensures inv fails (f a) post') :
    Ensures inv fails (m >>= f) post' where
  ok s b t hs h := by
    obtain ⟨a, u, ha, h⟩ := run_bind_eq_ok.1 h
    obtain ⟨hu, hmid⟩ := hm.ok s a u hs ha
    exact (hf a hmid).ok u b t hu h
  error s e hs h := by
    obtain h | ⟨⟨a, u⟩, ha, h⟩ := bind_eq_error.1 h
    · exact hm.error s e hs h
    · obtain ⟨hu, hmid⟩ := hm.ok s a u hs ha
      exact (hf a hmid).error u e hu h

theorem map {f : α → β} {post' : β → Prop} (hf : ∀ a, post a → post' (f a)) :
    Ensures inv fails (f <$> m) post' := by
  rw [← bind_pure_comp]
  exact hm.bind fun a ha => .pure (hf a ha)

theorem weaken {post' : α → Prop} (h : ∀ a, post a → post' a) : Ensures inv fails m post' :=
  ⟨fun s a t hs hm' => (hm.ok s a t hs hm').imp_right (h a), hm.error⟩

end

theorem ite {c : Prop} [Decidable c] (hm : c → Ensures inv fails m post)
    (hm' : ¬ c → Ensures inv fails m' post) : Ensures inv fails (if c then m else m') post := by
  split
  · exact hm ‹_›
  · exact hm' ‹_›

/-- What follows may use that the state satisfies the invariant. -/
theorem bind_get {f : σ → StateT σ (Except ε) α} (h : ∀ s, inv s → Ensures inv fails (f s) post) :
    Ensures inv fails (get >>= f) post :=
  ⟨fun s a t hs => (h s hs).ok s a t hs, fun s e hs => (h s hs).error s e hs⟩

theorem modify {f : σ → σ} (h : ∀ s, inv s → inv (f s)) :
    Ensures inv fails (modify f) fun _ => True where
  ok s a t hs hm := by
    cases hm
    exact ⟨h s hs, trivial⟩
  error s e _ he := by cases he

theorem of_error (h : ∀ s, ∃ e, m s = .error e ∧ fails e) : Ensures inv fails m post where
  ok s a t _ hm := by
    obtain ⟨e, he, -⟩ := h s
    rw [he] at hm
    cases hm
  error s e _ hm := by
    obtain ⟨e', he, hfails⟩ := h s
    rw [he] at hm
    cases hm
    exact hfails

end Ensures

end State

/-! ## Errors without their places -/

section Unplaced

variable {α α' β β' γ : Type} {x : Except Error α} {m' : α' → Except Error β'} {f : α → α'}
  {g : β → β'}

/-- An outcome seen through `f`, of which only the cause of an error counts. -/
def unplaced (f : α → β) : Except Error α → Except Error β
  | .ok a => .ok (f a)
  | .error e => .error ⟨e.cause, ⟨none, 0⟩⟩

@[simp] theorem unplaced_error (f : α → β) (e : Error) :
    unplaced f (.error e) = .error ⟨e.cause, ⟨none, 0⟩⟩ := rfl

/-- Two computations one after the other, and the same seen through functions. -/
theorem unplaced_bind {m : α → Except Error β} (h : ∀ a, m' (f a) = unplaced g (m a)) :
    (unplaced f x >>= m') = unplaced g (x >>= m) := by
  cases x with
  | ok a => exact h a
  | error e => rfl

theorem unplaced_map {m : α → β} {m' : α' → β'} (h : ∀ a, m' (f a) = g (m a)) :
    (unplaced f x).map m' = unplaced g (x.map m) := by
  cases x with
  | ok a => exact congrArg Except.ok (h a)
  | error e => rfl

/-- Outcomes of which the same counts. -/
theorem of_unplaced_eq {y : Except Error α} (h : unplaced id x = unplaced id y) :
    (∃ a, x = .ok a ∧ y = .ok a) ∨ ∃ e e', x = .error e ∧ y = .error e' ∧ e.cause = e'.cause := by
  cases x with
  | ok a =>
    cases y with
    | ok b => exact .inl ⟨a, rfl, congrArg Except.ok (Except.ok.inj h).symm⟩
    | error e' => cases h
  | error e =>
    cases y with
    | ok b => cases h
    | error e' =>
      have hcause := Except.error.inj ((unplaced_error id e).symm.trans h)
      exact .inr ⟨e, e', rfl, rfl, (Error.mk.inj hcause).1⟩

theorem unplaced_foldlM {f : β → β'} {step : β → α → Except Error β}
    {step' : β' → α' → Except Error β'} {g : α → α'}
    (h : ∀ b a, step' (f b) (g a) = unplaced f (step b a)) (as : List α) (b : β) :
    (as.map g).foldlM step' (f b) = unplaced f (as.foldlM step b) := by
  induction as generalizing b with
  | nil => rfl
  | cons a as ih =>
    rw [map_cons, foldlM_cons, foldlM_cons, h]
    exact unplaced_bind ih

theorem unplaced_mapM {m : α → Except Error β} {as : List α}
    (h : ∀ a ∈ as, m' (f a) = unplaced g (m a)) :
    (as.map f).mapM m' = unplaced (List.map g) (as.mapM m) := by
  induction as with
  | nil => rfl
  | cons a as ih =>
    obtain ⟨ha, has⟩ := forall_mem_cons.1 h
    rw [map_cons, mapM_cons, mapM_cons, ha]
    refine unplaced_bind fun b => ?_
    rw [ih has]
    exact unplaced_bind fun _ => rfl

end Unplaced

end Cascade
