import Mathlib.Tactic.Common

/-!
# Traversing a List with State and Exceptions

`forM l f` in `EStateM` stops at the first throw.

- `run_forM_ok` — a traversal that ends has run every element to its end;
- `forM_congr_mem` and `forM_flatMap` — the body may be replaced on the elements of the
  list, and a traversal of lists is the traversal of their concatenation.
-/

namespace Foundations

variable {ε σ α β : Type}

/-- A traversal that does not throw runs every element without a throw. -/
theorem run_forM_ok {f : α → EStateM ε σ Unit} {l : List α} {s s' : σ}
    (h : (forM l f).run s = .ok () s') : ∀ x ∈ l, ∃ t t', (f x).run t = .ok () t' := by
  induction l generalizing s with
  | nil => simp
  | cons x l ih =>
    simp only [List.forM_cons, EStateM.run_bind] at h
    cases hx : (f x).run s with
    | ok u t =>
      rw [hx] at h
      intro y hy
      rcases List.mem_cons.mp hy with rfl | hy
      · exact ⟨s, t, hx⟩
      · exact ih h y hy
    | error e t =>
      rw [hx] at h
      cases h

/-- Bodies that agree on the list traverse it alike. -/
theorem forM_congr_mem {m : Type → Type} [Monad m] {f g : α → m PUnit} {l : List α}
    (h : ∀ x ∈ l, f x = g x) : forM l f = forM l g := by
  induction l with
  | nil => rfl
  | cons x l ih =>
    have htail : forM l f = forM l g := ih fun y hy => h y (List.mem_cons_of_mem x hy)
    rw [List.forM_cons, List.forM_cons, h x List.mem_cons_self]
    exact congrArg (g x >>= fun _ => ·) htail

/-- A traversal of lists is the traversal of their concatenation. -/
theorem forM_flatMap {m : Type → Type} [Monad m] [LawfulMonad m] {f : β → m PUnit}
    {g : α → List β} (l : List α) :
    (forM l fun x => forM (g x) f) = forM (l.flatMap g) f := by
  induction l with
  | nil => rfl
  | cons x l ih => simp [ih]

end Foundations
