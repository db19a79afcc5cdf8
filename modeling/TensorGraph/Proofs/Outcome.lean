import Mathlib.Data.List.Forall2
import TensorGraph.Error

/-!
# Computations that may fail

What it says that computations in turn, or one for each member of a list, succeed.
-/

namespace TensorGraph

/-- A computation gives `Except.ok` if it never gives `Except.error`. -/
theorem exists_eq_ok_iff {α : Type} {x : Except Error α} :
    (∃ a, x = .ok a) ↔ ∀ cause, x ≠ .error cause := by
  cases x <;> simp

/-- If a `bind` succeeds, then so does its first computation, and the second on the result. -/
theorem exists_of_bind_eq_ok {α β : Type} {x : Except Error α} {f : α → Except Error β} {b : β}
    (h : (x >>= f) = .ok b) : ∃ a, x = .ok a ∧ f a = .ok b := by
  cases x with
  | error _ => cases h
  | ok a => exact ⟨a, rfl, h⟩

/-- A `bind` fails if its first computation fails, or the second on the result. -/
theorem bind_eq_error_iff {α β : Type} {x : Except Error α} {f : α → Except Error β}
    {cause : Error} :
    (x >>= f) = .error cause ↔ x = .error cause ∨ ∃ a, x = .ok a ∧ f a = .error cause := by
  cases x <;> simp [bind, Except.bind]

/-- An `Option.elim` that is fine with `none` fails only on something that is there. -/
theorem elim_eq_error_iff {α β : Type} {x : Option α} {b : β} {f : α → Except Error β}
    {cause : Error} :
    x.elim (.ok b) f = .error cause ↔ ∃ a, x = some a ∧ f a = .error cause := by
  cases x <;> simp

/-- If `Except.map` of a computation succeeds, then so does the computation. -/
theorem exists_of_map_eq_ok {α β : Type} {x : Except Error α} {f : α → β} {b : β}
    (h : x.map f = .ok b) : ∃ a, x = .ok a ∧ f a = b := by
  cases x with
  | error _ => cases h
  | ok a => exact ⟨a, rfl, Except.ok.inj h⟩

/-- If `Except.map` of a computation fails, then the computation fails in the same way. -/
theorem eq_error_of_map_eq_error {α β : Type} {x : Except Error α} {f : α → β} {cause : Error}
    (h : x.map f = .error cause) : x = .error cause := by
  cases x with
  | error _ => exact congrArg Except.error (Except.error.inj h)
  | ok _ => cases h

/-- If all computations of a `List.mapM` succeed, it gives the list of exactly their results. -/
theorem mapM_eq_ok {α β : Type} {f : α → Except Error β} {xs : List α}
    (h : ∀ x ∈ xs, ∃ y, f x = .ok y) :
    ∃ ys, xs.mapM f = .ok ys ∧ ∀ y, y ∈ ys ↔ ∃ x ∈ xs, f x = .ok y := by
  induction xs with
  | nil => exact ⟨[], rfl, by simp⟩
  | cons x rest ih =>
    -- the first member and the rest both succeed
    obtain ⟨y, hy⟩ := h x List.mem_cons_self
    obtain ⟨ys, hys, hmem⟩ := ih fun z hz => h z (List.mem_cons_of_mem _ hz)
    refine ⟨y :: ys, ?_, fun z => ?_⟩
    · rw [List.mapM_cons, hy, hys]
      rfl
    · simp only [List.mem_cons, exists_eq_or_imp, hy, Except.ok.injEq, hmem, eq_comm (a := z)]

/-- The results of a `List.mapM` stand side by side with what they are computed from. -/
theorem forall₂_of_mapM_eq_ok {α β : Type} {f : α → Except Error β} {xs : List α} {ys : List β}
    (h : xs.mapM f = .ok ys) : List.Forall₂ (fun x y => f x = .ok y) xs ys := by
  induction xs generalizing ys with
  | nil =>
    cases h
    exact List.Forall₂.nil
  | cons x rest ih =>
    rw [List.mapM_cons] at h
    -- all of them have succeeded, the first one among them
    obtain ⟨y, hy, h⟩ := exists_of_bind_eq_ok h
    obtain ⟨more, hmore, h⟩ := exists_of_bind_eq_ok h
    cases h
    exact List.Forall₂.cons hy (ih hmore)

/-- A `List.mapM` fails as the first of its computations that fails. -/
theorem mapM_eq_error_iff {α β : Type} {f : α → Except Error β} {xs : List α} {cause : Error} :
    xs.mapM f = .error cause ↔
      ∃ before x after, xs = before ++ x :: after ∧ (∀ b ∈ before, ∃ y, f b = .ok y) ∧
        f x = .error cause := by
  induction xs with
  | nil => simp [pure, Except.pure]
  | cons head rest ih =>
    rw [List.mapM_cons]
    cases hhead : f head with
    | error first =>
      -- the head fails, so nothing stands before the failure
      show Except.error first = Except.error cause ↔ _
      constructor
      · rintro ⟨⟩
        exact ⟨[], head, rest, rfl, List.forall_mem_nil _, hhead⟩
      · rintro ⟨before, x, after, hsplit, hbefore, hx⟩
        cases before with
        | nil =>
          cases hsplit
          rw [hhead] at hx
          cases hx
          rfl
        | cons b before =>
          -- what stands before the failure succeeds, and the head does not
          cases hsplit
          obtain ⟨y, hy⟩ := hbefore head List.mem_cons_self
          rw [hhead] at hy
          cases hy
    | ok y =>
      -- the head succeeds, so the failure is that of the rest
      have htail : (rest.mapM f >>= fun ys => pure (y :: ys)) = .error cause ↔
          rest.mapM f = .error cause := by
        cases rest.mapM f <;> simp [bind, Except.bind, pure, Except.pure]
      show (rest.mapM f >>= fun ys => pure (y :: ys)) = .error cause ↔ _
      rw [htail, ih]
      constructor
      · rintro ⟨before, x, after, rfl, hbefore, hx⟩
        exact ⟨head :: before, x, after, rfl, List.forall_mem_cons.mpr ⟨⟨y, hhead⟩, hbefore⟩, hx⟩
      · rintro ⟨before, x, after, hsplit, hbefore, hx⟩
        cases before with
        | nil =>
          cases hsplit
          rw [hhead] at hx
          cases hx
        | cons b before =>
          cases hsplit
          exact ⟨before, x, after, rfl, fun c hc => hbefore c (List.mem_cons_of_mem _ hc), hx⟩

/-- A `List.forM` succeeds if all its checks do. -/
theorem forM_eq_ok {α : Type} {f : α → Except Error Unit} {xs : List α}
    (h : ∀ x ∈ xs, f x = .ok ()) : xs.forM f = .ok () := by
  induction xs with
  | nil => rfl
  | cons x rest ih =>
    have hrest := ih fun z hz => h z (List.mem_cons_of_mem _ hz)
    show (f x >>= fun _ => rest.forM f) = .ok ()
    rw [h x List.mem_cons_self]
    exact hrest

end TensorGraph
