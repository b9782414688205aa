import Mathlib.Logic.Equiv.Basic
import Mathlib.Order.Lattice
import Mathlib.Order.Nat
import Mathlib.Tactic.Common

/-!
# Order of an Implicit Binary Max-Heap

The first `n` values of `f : ℕ → α` are the nodes of a binary tree in level
order.  `HeapOrdered n f` says that no node exceeds its parent.  The two sifting
loops of a heap keep this order broken at one node only:

- `UpOrdered n f i` — only the edge from `i` to its parent may be wrong;
- `DownOrdered n f i` — only the edges from `i` to its children may be wrong.

Each comes with a step lemma (`swap`), one for the end of the loop (`finish`) and
one for its start, and the root of an ordered heap is its maximum
(`HeapOrdered.le_root`).
-/

namespace Foundations

variable {α : Type*} [LinearOrder α]

/-- Parent index in level order.  Index `0` has no parent, although this gives `0`. -/
def heapParent (i : ℕ) : ℕ := (i - 1) / 2

theorem heapParent_lt {i : ℕ} (hi : 0 < i) : heapParent i < i := by
  unfold heapParent; omega

/-- The children of `i` are `2 * i + 1` and `2 * i + 2`. -/
theorem heapParent_eq_iff {i j : ℕ} (hj : 0 < j) :
    heapParent j = i ↔ j = 2 * i + 1 ∨ j = 2 * i + 2 := by
  unfold heapParent; omega

theorem lt_of_heapParent_eq {i j : ℕ} (hj : 0 < j) (h : heapParent j = i) : i < j :=
  h ▸ heapParent_lt hj

/-- No node among the first `n` exceeds its parent. -/
def HeapOrdered (n : ℕ) (f : ℕ → α) : Prop :=
  ∀ j, 0 < j → j < n → f j ≤ f (heapParent j)

/-- Only the edge from `i` up may be out of order; `i`'s children are safe below its parent. -/
structure UpOrdered (n : ℕ) (f : ℕ → α) (i : ℕ) : Prop where
  except : ∀ j, 0 < j → j < n → j ≠ i → f j ≤ f (heapParent j)
  grand : ∀ j, 0 < j → j < n → heapParent j = i → 0 < i → f j ≤ f (heapParent i)

/-- Only the edges from `i` down may be out of order; `i`'s children are safe below its parent. -/
structure DownOrdered (n : ℕ) (f : ℕ → α) (i : ℕ) : Prop where
  except : ∀ j, 0 < j → j < n → heapParent j ≠ i → f j ≤ f (heapParent j)
  grand : ∀ j, 0 < j → j < n → heapParent j = i → 0 < i → f j ≤ f (heapParent i)

variable {n i : ℕ} {f g : ℕ → α}

/-- The root of an ordered heap is its maximum. -/
theorem HeapOrdered.le_root (h : HeapOrdered n f) {j : ℕ} (hj : j < n) : f j ≤ f 0 := by
  induction j using Nat.strongRecOn with
  | ind j ih =>
    rcases Nat.eq_zero_or_pos j with rfl | hpos
    · exact le_rfl
    · have hp := heapParent_lt hpos
      exact (h j hpos hj).trans (ih _ hp (hp.trans hj))

/-- Only the first `n` values matter for an edge. -/
theorem le_heapParent_congr (hfg : ∀ j < n, f j = g j) {j : ℕ} (hpos : 0 < j) (hj : j < n)
    (h : f j ≤ f (heapParent j)) : g j ≤ g (heapParent j) := by
  rwa [← hfg j hj, ← hfg _ ((heapParent_lt hpos).trans hj)]

theorem le_grandparent_congr (hfg : ∀ j < n, f j = g j) {j : ℕ} (hpos : 0 < j) (hj : j < n)
    (hp : heapParent j = i) (hi : 0 < i) (h : f j ≤ f (heapParent i)) :
    g j ≤ g (heapParent i) := by
  have hij := lt_of_heapParent_eq hpos hp
  rwa [← hfg j hj, ← hfg _ ((heapParent_lt hi).trans (hij.trans hj))]

theorem HeapOrdered.congr (h : HeapOrdered n f) (hfg : ∀ j < n, f j = g j) : HeapOrdered n g :=
  fun j hpos hj => le_heapParent_congr hfg hpos hj (h j hpos hj)

/-- A shorter prefix of an ordered heap is ordered. -/
theorem HeapOrdered.mono (h : HeapOrdered n f) {m : ℕ} (hm : m ≤ n) : HeapOrdered m f :=
  fun j hpos hj => h j hpos (hj.trans_le hm)

theorem UpOrdered.congr (h : UpOrdered n f i) (hfg : ∀ j < n, f j = g j) : UpOrdered n g i where
  except j hpos hj hne := le_heapParent_congr hfg hpos hj (h.except j hpos hj hne)
  grand j hpos hj hp hi := le_grandparent_congr hfg hpos hj hp hi (h.grand j hpos hj hp hi)

theorem DownOrdered.congr (h : DownOrdered n f i) (hfg : ∀ j < n, f j = g j) :
    DownOrdered n g i where
  except j hpos hj hne := le_heapParent_congr hfg hpos hj (h.except j hpos hj hne)
  grand j hpos hj hp hi := le_grandparent_congr hfg hpos hj hp hi (h.grand j hpos hj hp hi)

/-! ## Sifting up -/

/-- One more value at the end leaves only its own edge to check. -/
theorem HeapOrdered.upOrdered_last (h : HeapOrdered n f) : UpOrdered (n + 1) f n where
  except j hpos hj hne := h j hpos (by omega)
  grand j hpos hj hp _ := absurd (lt_of_heapParent_eq hpos hp) (by omega)

/-- Swapping a node with its smaller parent moves the open edge one level up. -/
theorem UpOrdered.swap (h : UpOrdered n f i) (hpos : 0 < i) (hi : i < n)
    (hlt : f (heapParent i) < f i) :
    UpOrdered n (fun k => f (Equiv.swap (heapParent i) i k)) (heapParent i) := by
  have hpi := heapParent_lt hpos
  constructor
  · intro j hj hjn hne
    by_cases hji : j = i
    · -- the old parent now sits at `i`, below the moved node
      subst hji
      rw [Equiv.swap_apply_right, Equiv.swap_apply_left]
      exact hlt.le
    · rw [Equiv.swap_apply_of_ne_of_ne hne hji]
      by_cases hpj : heapParent j = i
      · rw [hpj, Equiv.swap_apply_right]
        exact h.grand j hj hjn hpj hpos
      · by_cases hpp : heapParent j = heapParent i
        · rw [hpp, Equiv.swap_apply_left]
          exact (hpp ▸ h.except j hj hjn hji).trans hlt.le
        · rw [Equiv.swap_apply_of_ne_of_ne hpp hpj]
          exact h.except j hj hjn hji
  · intro j hj hjn hp hpp
    have hgp := heapParent_lt hpp
    have hgrand : f (heapParent i) ≤ f (heapParent (heapParent i)) :=
      h.except _ hpp (hpi.trans hi) hpi.ne
    rw [Equiv.swap_apply_of_ne_of_ne hgp.ne (hgp.trans hpi).ne]
    by_cases hji : j = i
    · subst hji
      rw [Equiv.swap_apply_right]
      exact hgrand
    · have hjp : j ≠ heapParent i := (lt_of_heapParent_eq hj hp).ne'
      rw [Equiv.swap_apply_of_ne_of_ne hjp hji]
      exact (hp ▸ h.except j hj hjn hji).trans hgrand

/-- The loop ends at the root or below a parent that is large enough. -/
theorem UpOrdered.finish (h : UpOrdered n f i) (hstop : 0 < i → f i ≤ f (heapParent i)) :
    HeapOrdered n f := by
  intro j hj hjn
  by_cases hji : j = i
  · subst hji
    exact hstop hj
  · exact h.except j hj hjn hji

/-! ## Sifting down -/

/-- A new root leaves only the edges below it to check. -/
theorem HeapOrdered.downOrdered_root (h : HeapOrdered n f) (hfg : ∀ j, 0 < j → j < n → f j = g j) :
    DownOrdered n g 0 where
  except j hpos hj hne := by
    have hp := heapParent_lt hpos
    rw [← hfg j hpos hj, ← hfg _ (Nat.pos_of_ne_zero hne) (hp.trans hj)]
    exact h j hpos hj
  grand _ _ _ _ h0 := absurd h0 (lt_irrefl 0)

/-- Swapping a node with its largest child moves the open edges one level down. -/
theorem DownOrdered.swap (h : DownOrdered n f i) {c : ℕ} (hc : 0 < c) (hcn : c < n)
    (hpc : heapParent c = i)
    (hmax : ∀ j, 0 < j → j < n → heapParent j = i → f j ≤ f c) (hlt : f i < f c) :
    DownOrdered n (fun k => f (Equiv.swap i c k)) c := by
  have hic := lt_of_heapParent_eq hc hpc
  constructor
  · intro j hj hjn hne
    by_cases hji : j = i
    · -- the child that moved up still lies below the parent of `i`
      subst hji
      have hpj := heapParent_lt hj
      rw [Equiv.swap_apply_left, Equiv.swap_apply_of_ne_of_ne hpj.ne hne]
      exact h.grand c hc hcn hpc hj
    · by_cases hpj : heapParent j = i
      · rw [hpj, Equiv.swap_apply_left]
        by_cases hjc : j = c
        · subst hjc
          rw [Equiv.swap_apply_right]
          exact hlt.le
        · rw [Equiv.swap_apply_of_ne_of_ne hji hjc]
          exact hmax j hj hjn hpj
      · have hjc : j ≠ c := fun he => hpj (he ▸ hpc)
        rw [Equiv.swap_apply_of_ne_of_ne hji hjc, Equiv.swap_apply_of_ne_of_ne hpj hne]
        exact h.except j hj hjn hpj
  · intro j hj hjn hp _
    have hcj := lt_of_heapParent_eq hj hp
    rw [hpc, Equiv.swap_apply_left, Equiv.swap_apply_of_ne_of_ne (hic.trans hcj).ne' hcj.ne']
    exact hp ▸ h.except j hj hjn (by omega)

/-- The loop ends where no child exceeds the node. -/
theorem DownOrdered.finish (h : DownOrdered n f i)
    (hstop : ∀ j, 0 < j → j < n → heapParent j = i → f j ≤ f i) : HeapOrdered n f := by
  intro j hj hjn
  by_cases hpj : heapParent j = i
  · rw [hpj]
    exact hstop j hj hjn hpj
  · exact h.except j hj hjn hpj

end Foundations
