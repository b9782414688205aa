import Mathlib.Algebra.BigOperators.Ring.List
import Mathlib.Algebra.Ring.Nat
import Mathlib.Data.List.Induction
import Mathlib.Tactic.Common

/-!
# Folding a List along a Left-Complete Tree

`treeFold node xs` combines the leaves `xs` along the binary tree whose left subtrees are complete:
the left subtree of `n` leaves has the largest power of two below `n`.  Two ways to compute it
without the tree at hand:

- **by levels** — `pairUp` replaces neighbours by their parent and lets an odd leaf through
  (`treeFold_pairUp`);
- **by a stack** — the roots of complete subtrees wait on a stack, the largest at the bottom, and
  are combined when the next one arrives (`Peaks`, `Lazy.exists_merge`).

The stack of `n` leaves is as high as `n` has 1-bits (`Peaks.length_eq`), so the number of leaves
alone says when to stop merging.
-/

namespace Foundations

variable {α : Type*}

/-! ## The tree -/

/-- The leaves of the left subtree: the largest power of two below `n`. -/
def leftLeaves (n : ℕ) : ℕ := 2 ^ Nat.log2 (n - 1)

theorem leftLeaves_lt {n : ℕ} (h : 2 ≤ n) : leftLeaves n < n := by
  have hle := Nat.log2_self_le (n := n - 1) (by omega)
  unfold leftLeaves
  omega

theorem leftLeaves_pos (n : ℕ) : 0 < leftLeaves n := Nat.two_pow_pos _

/-- A power of two and at most as much again: the power is the left subtree. -/
theorem leftLeaves_add {k n : ℕ} (hpos : 0 < n) (hle : n ≤ 2 ^ k) :
    leftLeaves (2 ^ k + n) = 2 ^ k := by
  have hk := Nat.two_pow_pos k
  have hlog : (2 ^ k + n - 1).log2 = k := by
    rw [Nat.log2_eq_iff (by omega), Nat.pow_succ]
    omega
  rw [leftLeaves, hlog]

/-- At least two leaves split into a complete subtree and at most as many leaves again. -/
theorem exists_split {xs : List α} (h : 2 ≤ xs.length) :
    ∃ k ys zs, xs = ys ++ zs ∧ ys.length = 2 ^ k ∧ 0 < zs.length ∧ zs.length ≤ 2 ^ k := by
  have hlt := leftLeaves_lt h
  refine ⟨Nat.log2 (xs.length - 1), xs.take (leftLeaves xs.length), xs.drop (leftLeaves xs.length),
    (List.take_append_drop _ _).symm, ?_, ?_, ?_⟩
  · rw [List.length_take, Nat.min_eq_left (Nat.le_of_lt hlt), leftLeaves]
  · rw [List.length_drop]
    omega
  · have hlog := Nat.lt_log2_self (n := xs.length - 1)
    rw [Nat.pow_succ] at hlog
    rw [List.length_drop, leftLeaves]
    omega

section Fold

variable (node : α → α → α)

section Root

variable [Inhabited α]

/-- The root over a list of leaves.  No leaves have no root, and the default stands for it. -/
def treeFold : List α → α
  | [] => default
  | [x] => x
  | x :: y :: rest =>
    let xs := x :: y :: rest
    node (treeFold (xs.take (leftLeaves xs.length))) (treeFold (xs.drop (leftLeaves xs.length)))
termination_by xs => xs.length
decreasing_by
  · have hlt := leftLeaves_lt (n := (x :: y :: rest).length) (by simp)
    rw [List.length_take]
    exact Nat.lt_of_le_of_lt (Nat.min_le_left _ _) hlt
  · have hpos := leftLeaves_pos (x :: y :: rest).length
    rw [List.length_drop]
    exact Nat.sub_lt (by simp) hpos

@[simp] theorem treeFold_singleton (x : α) : treeFold node [x] = x := by rw [treeFold]

/-- The roots of the two subtrees below the root. -/
def treeHalves (xs : List α) : α × α :=
  (treeFold node (xs.take (leftLeaves xs.length)), treeFold node (xs.drop (leftLeaves xs.length)))

/-- The root of at least two leaves is the parent of the two halves. -/
theorem treeFold_eq_node {xs : List α} (h : 2 ≤ xs.length) :
    treeFold node xs = node (treeHalves node xs).1 (treeHalves node xs).2 := by
  match xs, h with
  | x :: y :: rest, _ => rw [treeFold, treeHalves]

/-- A complete subtree and at most as many leaves again are the two halves. -/
theorem treeHalves_append {k : ℕ} {xs ys : List α} (hxs : xs.length = 2 ^ k)
    (hpos : 0 < ys.length) (hle : ys.length ≤ 2 ^ k) :
    treeHalves node (xs ++ ys) = (treeFold node xs, treeFold node ys) := by
  have hleft : leftLeaves (xs ++ ys).length = xs.length := by
    rw [List.length_append, hxs, leftLeaves_add hpos hle]
  rw [treeHalves, hleft, List.take_left, List.drop_left]

/-- **Splitting the root** at a complete subtree. -/
theorem treeFold_append {k : ℕ} {xs ys : List α} (hxs : xs.length = 2 ^ k) (hpos : 0 < ys.length)
    (hle : ys.length ≤ 2 ^ k) :
    treeFold node (xs ++ ys) = node (treeFold node xs) (treeFold node ys) := by
  have hk := Nat.two_pow_pos k
  rw [treeFold_eq_node node (by rw [List.length_append]; omega),
    treeHalves_append node hxs hpos hle]

end Root

/-! ## By levels -/

/-- One level up: neighbours become their parent, and an odd leaf is let through. -/
def pairUp : List α → List α
  | x :: y :: rest => node x y :: pairUp rest
  | rest => rest

theorem length_pairUp (xs : List α) : (pairUp node xs).length = (xs.length + 1) / 2 := by
  fun_induction pairUp node xs with
  | case1 x y rest ih =>
    simp only [List.length_cons, ih]
    omega
  | case2 rest h =>
    match rest, h with
    | [], _ => simp
    | [x], _ => simp
    | x :: y :: rest, h => exact absurd rfl (h x y rest)

/-- An even number of leaves is paired on its own. -/
theorem pairUp_append {n : ℕ} {xs : List α} (h : xs.length = 2 * n) (ys : List α) :
    pairUp node (xs ++ ys) = pairUp node xs ++ pairUp node ys := by
  induction n generalizing xs with
  | zero =>
    rw [List.eq_nil_of_length_eq_zero h]
    rfl
  | succ n ih =>
    match xs, h with
    | x :: y :: rest, h =>
      have hrest : rest.length = 2 * n := by
        simp only [List.length_cons] at h
        omega
      rw [List.cons_append, List.cons_append, pairUp, pairUp, ih hrest, List.cons_append]

/-- **A level does not change the root.** -/
theorem treeFold_pairUp [Inhabited α] (xs : List α) : treeFold node (pairUp node xs) = treeFold node xs := by
  induction hn : xs.length using Nat.strongRecOn generalizing xs with
  | ind n ih =>
    subst hn
    by_cases htwo : 2 ≤ xs.length
    · obtain ⟨k, ys, zs, rfl, hys, hpos, hle⟩ := exists_split htwo
      rw [List.length_append] at ih
      cases k with
      | zero =>
        -- two leaves
        obtain ⟨y, rfl⟩ := List.length_eq_one_iff.mp hys
        obtain ⟨z, rfl⟩ := List.length_eq_one_iff.mp (Nat.le_antisymm hle hpos)
        rw [treeFold_append node hys hpos hle]
        simp [pairUp]
      | succ k =>
        rw [Nat.pow_succ] at hys hle
        have hk := Nat.two_pow_pos k
        rw [pairUp_append node (n := 2 ^ k) (by omega), treeFold_append node (k := k)
          (by rw [length_pairUp]; omega) (by rw [length_pairUp]; omega)
          (by rw [length_pairUp]; omega), ih ys.length (by omega) ys rfl,
          ih zs.length (by omega) zs rfl, ← treeFold_append node (k := k + 1)
          (by rw [Nat.pow_succ]; omega) hpos (by rw [Nat.pow_succ]; omega)]
    · match xs, htwo with
      | [], _ => rfl
      | [x], _ => rfl
      | x :: y :: rest, h => exact absurd (by simp) h

/-- With more than two leaves, a level does not change the halves either. -/
theorem treeHalves_pairUp [Inhabited α] {xs : List α} (h : 2 < xs.length) :
    treeHalves node (pairUp node xs) = treeHalves node xs := by
  obtain ⟨k, ys, zs, rfl, hys, hpos, hle⟩ := exists_split (Nat.le_of_lt h)
  rw [List.length_append] at h
  cases k with
  | zero => omega
  | succ k =>
    rw [treeHalves_append node hys hpos hle]
    rw [Nat.pow_succ] at hys hle
    have hk := Nat.two_pow_pos k
    rw [pairUp_append node (n := 2 ^ k) (by omega), treeHalves_append node (k := k)
      (by rw [length_pairUp]; omega) (by rw [length_pairUp]; omega)
      (by rw [length_pairUp]; omega), treeFold_pairUp, treeFold_pairUp]

/-! ## By a stack -/

/-- Combines the two topmost roots as long as more than `height` are left.  The head of the list is
the top of the stack. -/
def mergeStack (height : ℕ) : List α → List α
  | y :: x :: below =>
    if height < below.length + 2 then mergeStack height (node x y :: below) else y :: x :: below
  | stack => stack
termination_by stack => stack.length

theorem mergeStack_of_length_le {height : ℕ} {stack : List α} (h : stack.length ≤ height) :
    mergeStack node height stack = stack := by
  match stack, h with
  | [], _ => simp [mergeStack]
  | [x], _ => simp [mergeStack]
  | y :: x :: below, h =>
    rw [List.length_cons, List.length_cons] at h
    rw [mergeStack, if_neg (Nat.not_lt.mpr h)]

end Fold

/-- A stack, bottom first, with its top split off. -/
theorem reverse_map_concat {β : Type*} (f : α → β) (xs : List α) (x : α) :
    ((xs ++ [x]).map f).reverse = f x :: (xs.map f).reverse := by simp

/-- The complete subtrees on a stack, the largest at the bottom, each by its leaves. -/
structure Peaks (segs : List (List α)) : Prop where
  complete : ∀ s ∈ segs, ∃ k, s.length = 2 ^ k
  decreasing : segs.Pairwise fun s t => t.length < s.length

/-- The last subtree is still unmerged: it may be as large as the one below it. -/
structure Pending (segs : List (List α)) (t : List α) : Prop where
  peaks : Peaks segs
  complete : ∃ k, t.length = 2 ^ k
  le : ∀ s ∈ segs, t.length ≤ s.length

/-- The number of 1-bits. -/
def bitCount (n : ℕ) : ℕ := if n = 0 then 0 else bitCount (n / 2) + n % 2

@[simp] theorem bitCount_zero : bitCount 0 = 0 := by rw [bitCount, if_pos rfl]

theorem bitCount_eq (n : ℕ) : bitCount n = bitCount (n / 2) + n % 2 := by
  rw [bitCount]
  split
  case isTrue hzero => rw [hzero, Nat.zero_div, Nat.zero_mod, bitCount_zero]
  case isFalse _ => rfl

theorem bitCount_two_mul_add_one (n : ℕ) : bitCount (2 * n + 1) = bitCount n + 1 := by
  have hdiv : (2 * n + 1) / 2 = n := by omega
  have hmod : (2 * n + 1) % 2 = 1 := by omega
  rw [bitCount_eq, hdiv, hmod]

/-- A new highest bit. -/
theorem bitCount_two_pow_add {k m : ℕ} (h : m < 2 ^ k) : bitCount (2 ^ k + m) = bitCount m + 1 := by
  induction k generalizing m with
  | zero =>
    obtain rfl : m = 0 := by omega
    exact bitCount_two_mul_add_one 0
  | succ k ih =>
    rw [Nat.pow_succ] at h
    have hdiv : (2 ^ (k + 1) + m) / 2 = 2 ^ k + m / 2 := by
      rw [Nat.pow_succ]
      omega
    have hmod : (2 ^ (k + 1) + m) % 2 = m % 2 := by
      rw [Nat.pow_succ]
      omega
    rw [bitCount_eq, hdiv, hmod, ih (by omega), bitCount_eq m]
    omega

theorem bitCount_le {k n : ℕ} (h : n < 2 ^ k) : bitCount n ≤ k := by
  induction k generalizing n with
  | zero =>
    obtain rfl : n = 0 := by omega
    rw [bitCount_zero]
  | succ k ih =>
    rw [Nat.pow_succ] at h
    have hdiv := ih (n := n / 2) (by omega)
    rw [bitCount_eq]
    omega

/-- `n &&& (n - 1)` is `n` without its lowest 1-bit. -/
theorem bitCount_and_pred {n : ℕ} (h : n ≠ 0) : bitCount (n &&& (n - 1)) + 1 = bitCount n := by
  induction n using Nat.strongRecOn with
  | ind n ih =>
    have hmod : (n &&& (n - 1)) % 2 = 0 := by
      have hone := Nat.and_mod_two_eq_one (a := n) (b := n - 1)
      omega
    rw [bitCount_eq (n &&& (n - 1)), bitCount_eq n, hmod, Nat.and_div_two, Nat.add_zero]
    rcases Nat.mod_two_eq_zero_or_one n with heven | hodd
    · have hpred : (n - 1) / 2 = n / 2 - 1 := by omega
      rw [hpred, heven, Nat.add_zero]
      exact ih (n / 2) (by omega) (by omega)
    · have hpred : (n - 1) / 2 = n / 2 := by omega
      rw [hpred, hodd, Nat.and_self]

namespace Peaks

variable {segs : List (List α)} {s t : List α}

theorem nil : Peaks ([] : List (List α)) := ⟨by simp, List.Pairwise.nil⟩

theorem of_cons (h : Peaks (s :: segs)) : Peaks segs :=
  ⟨fun t ht => h.complete t (List.mem_cons_of_mem _ ht), (List.pairwise_cons.mp h.decreasing).2⟩

theorem lt_of_cons (h : Peaks (s :: segs)) (ht : t ∈ segs) : t.length < s.length :=
  (List.pairwise_cons.mp h.decreasing).1 t ht

theorem of_concat (h : Peaks (segs ++ [s])) : Peaks segs :=
  ⟨fun t ht => h.complete t (List.mem_append_left _ ht), (List.pairwise_append.mp h.decreasing).1⟩

theorem lt_of_concat (h : Peaks (segs ++ [s])) (ht : t ∈ segs) : s.length < t.length :=
  (List.pairwise_append.mp h.decreasing).2.2 t ht s (List.mem_singleton_self s)

/-- Subtrees below the topmost are at least twice as large. -/
theorem two_mul_le_of_concat (h : Peaks (segs ++ [s])) (ht : t ∈ segs) :
    2 * s.length ≤ t.length := by
  obtain ⟨k, hk⟩ := h.complete s (by simp)
  obtain ⟨i, hi⟩ := h.of_concat.complete t ht
  have hlt := h.lt_of_concat ht
  rw [hi, hk] at hlt
  rw [hi, hk, ← Nat.pow_succ']
  exact Nat.pow_le_pow_right (by omega) ((Nat.pow_lt_pow_iff_right (by omega)).mp hlt)

theorem concat (h : Peaks segs) (hs : ∃ k, s.length = 2 ^ k)
    (hlt : ∀ t ∈ segs, s.length < t.length) : Peaks (segs ++ [s]) where
  complete t ht := by
    rcases List.mem_append.mp ht with ht | ht
    · exact h.complete t ht
    · rwa [List.mem_singleton.mp ht]
  decreasing := by
    refine List.pairwise_append.mpr ⟨h.decreasing, List.pairwise_singleton _ _, ?_⟩
    intro t ht u hu
    rw [List.mem_singleton.mp hu]
    exact hlt t ht

/-- Below a power of two, subtrees of different sizes leave room for one more of the smallest. -/
theorem length_flatten_add_le (h : Peaks segs) {k n : ℕ} (hlt : ∀ s ∈ segs, s.length < 2 ^ k)
    (hn : n ≤ 2 ^ k) (hle : ∀ s ∈ segs, n ≤ s.length) : segs.flatten.length + n ≤ 2 ^ k := by
  induction segs generalizing k with
  | nil => simpa using hn
  | cons s segs ih =>
    obtain ⟨i, hi⟩ := h.complete s List.mem_cons_self
    have hrest : segs.flatten.length + n ≤ 2 ^ i := by
      apply ih h.of_cons
      · intro t ht
        rw [← hi]
        exact h.lt_of_cons ht
      · rw [← hi]
        exact hle s List.mem_cons_self
      · exact fun t ht => hle t (List.mem_cons_of_mem _ ht)
    have hik : i + 1 ≤ k := by
      have hs := hlt s List.mem_cons_self
      rw [hi] at hs
      exact (Nat.pow_lt_pow_iff_right (by omega)).mp hs
    have hdouble : 2 ^ (i + 1) ≤ 2 ^ k := Nat.pow_le_pow_right (by omega) hik
    rw [Nat.pow_succ] at hdouble
    rw [List.flatten_cons, List.length_append, hi]
    omega

/-- What stands above the lowest subtree, with no more leaves than the topmost, is no larger. -/
theorem length_flatten_append_le (h : Peaks (s :: segs)) {ys : List α}
    (hle : ∀ t ∈ s :: segs, ys.length ≤ t.length) : (segs.flatten ++ ys).length ≤ s.length := by
  obtain ⟨k, hk⟩ := h.complete s List.mem_cons_self
  rw [List.length_append, hk]
  apply h.of_cons.length_flatten_add_le
  · intro t ht
    rw [← hk]
    exact h.lt_of_cons ht
  · rw [← hk]
    exact hle s List.mem_cons_self
  · exact fun t ht => hle t (List.mem_cons_of_mem _ ht)

/-- **The height of the stack** is the number of 1-bits of the number of leaves. -/
theorem length_eq (h : Peaks segs) : segs.length = bitCount segs.flatten.length := by
  induction segs with
  | nil => simp
  | cons s segs ih =>
    obtain ⟨k, hk⟩ := h.complete s List.mem_cons_self
    have hlt : segs.flatten.length + 1 ≤ 2 ^ k := by
      apply h.of_cons.length_flatten_add_le
      · intro t ht
        rw [← hk]
        exact h.lt_of_cons ht
      · exact Nat.one_le_two_pow
      · intro t ht
        obtain ⟨i, hi⟩ := h.of_cons.complete t ht
        rw [hi]
        exact Nat.one_le_two_pow
    rw [List.flatten_cons, List.length_append, hk, bitCount_two_pow_add hlt, List.length_cons,
      ih h.of_cons]

/-- A power of two that divides the number of leaves is at most as large as every subtree. -/
theorem two_pow_le_of_dvd (h : Peaks segs) {k : ℕ} (hdvd : 2 ^ k ∣ segs.flatten.length)
    (hs : s ∈ segs) : 2 ^ k ≤ s.length := by
  induction segs using List.reverseRecOn with
  | nil => simp at hs
  | append_singleton segs t _ =>
    obtain ⟨j, hj⟩ := h.complete t (by simp)
    -- the topmost subtree is the only one whose size is no multiple of `2 ^ (j + 1)`
    have hrest : 2 ^ (j + 1) ∣ segs.flatten.length := by
      rw [List.length_flatten]
      apply List.dvd_sum
      intro n hn
      obtain ⟨u, hu, rfl⟩ := List.mem_map.mp hn
      obtain ⟨i, hi⟩ := h.of_concat.complete u hu
      have hlt := h.lt_of_concat hu
      rw [hi, hj] at hlt
      rw [hi]
      exact Nat.pow_dvd_pow 2 ((Nat.pow_lt_pow_iff_right (by omega)).mp hlt)
    have hkj : k ≤ j := by
      by_contra hlt
      have hdvd' : 2 ^ (j + 1) ∣ segs.flatten.length + 2 ^ j := by
        rw [← hj]
        apply Nat.dvd_trans (Nat.pow_dvd_pow 2 (Nat.lt_of_not_le hlt))
        simpa using hdvd
      have hself := (Nat.dvd_add_right hrest).mp hdvd'
      have hle := Nat.le_of_dvd (Nat.two_pow_pos j) hself
      rw [Nat.pow_succ] at hle
      have hpos := Nat.two_pow_pos j
      omega
    have hkt : 2 ^ k ≤ t.length := by
      rw [hj]
      exact Nat.pow_le_pow_right (by omega) hkj
    rcases List.mem_append.mp hs with hs | hs
    · exact Nat.le_trans hkt (Nat.le_of_lt (h.lt_of_concat hs))
    · rwa [List.mem_singleton.mp hs]

/-- A subtree whose size divides the number of leaves before it may be pushed. -/
theorem pending (h : Peaks segs) {k : ℕ} (ht : t.length = 2 ^ k)
    (hdvd : 2 ^ k ∣ segs.flatten.length) : Pending segs t where
  peaks := h
  complete := ⟨k, ht⟩
  le s hs := by
    rw [ht]
    exact h.two_pow_le_of_dvd hdvd hs

end Peaks

/-- A stack whose last subtree may be unmerged. -/
def Lazy (segs : List (List α)) : Prop := segs = [] ∨ ∃ below t, segs = below ++ [t] ∧ Pending below t

theorem Peaks.lazy {segs : List (List α)} (h : Peaks segs) : Lazy segs := by
  rcases List.eq_nil_or_concat' segs with rfl | ⟨below, t, rfl⟩
  · exact Or.inl rfl
  · exact Or.inr ⟨below, t, rfl, h.of_concat, h.complete t (by simp),
      fun s hs => Nat.le_of_lt (h.lt_of_concat hs)⟩

theorem Lazy.complete {segs : List (List α)} (h : Lazy segs) : ∀ s ∈ segs, ∃ k, s.length = 2 ^ k := by
  obtain rfl | ⟨below, t, rfl, hpending⟩ := h
  · simp
  · intro s hs
    rcases List.mem_append.mp hs with hs | hs
    · exact hpending.peaks.complete s hs
    · rw [List.mem_singleton.mp hs]
      exact hpending.complete

/-- **Merging up to the number of 1-bits** combines exactly the subtrees of the same size. -/
theorem Pending.exists_merge [Inhabited α] (node : α → α → α) {segs : List (List α)} {t : List α}
    (h : Pending segs t) :
    ∃ segs', Peaks segs' ∧ segs'.flatten = segs.flatten ++ t ∧ segs'.length ≤ segs.length + 1 ∧
      mergeStack node (bitCount (segs.flatten ++ t).length)
          ((segs ++ [t]).map (treeFold node)).reverse = (segs'.map (treeFold node)).reverse := by
  induction segs using List.reverseRecOn generalizing t with
  | nil =>
    refine ⟨[t], Peaks.nil.concat h.complete (by simp), by simp, by simp, ?_⟩
    simp [mergeStack]
  | append_singleton segs s ih =>
    rcases Nat.lt_or_eq_of_le (h.le s (by simp)) with hlt | heq
    · -- all sizes differ: the stack is as high as it should be
      have hpeaks : Peaks (segs ++ [s] ++ [t]) := by
        apply h.peaks.concat h.complete
        intro u hu
        rcases List.mem_append.mp hu with hu | hu
        · exact Nat.lt_trans hlt (h.peaks.lt_of_concat hu)
        · rwa [List.mem_singleton.mp hu]
      refine ⟨segs ++ [s] ++ [t], hpeaks, by simp, by simp, ?_⟩
      apply mergeStack_of_length_le
      have hheight := hpeaks.length_eq
      rw [List.flatten_append, List.flatten_singleton] at hheight
      rw [List.length_reverse, List.length_map, hheight]
    · -- the two topmost subtrees become one of twice the size
      obtain ⟨k, hk⟩ := h.complete
      have hsk : s.length = 2 ^ k := heq ▸ hk
      have hmerged : Pending segs (s ++ t) := by
        refine ⟨h.peaks.of_concat, ⟨k + 1, ?_⟩, ?_⟩
        · rw [List.length_append, hsk, hk, Nat.pow_succ]
          omega
        · intro u hu
          have htwo := h.peaks.two_mul_le_of_concat hu
          rw [List.length_append, hk, ← hsk]
          omega
      obtain ⟨segs', hpeaks, hflatten, hlength, hstack⟩ := ih hmerged
      have hheight := hpeaks.length_eq
      rw [hflatten] at hheight
      have hfold : treeFold node (s ++ t) = node (treeFold node s) (treeFold node t) :=
        treeFold_append node hsk (by rw [hk]; exact Nat.two_pow_pos k) (Nat.le_of_eq hk)
      have hmore : bitCount (segs.flatten ++ (s ++ t)).length <
          (segs.map (treeFold node)).reverse.length + 2 := by
        rw [← hheight, List.length_reverse, List.length_map]
        omega
      refine ⟨segs', hpeaks, by simp [hflatten], by simp; omega, ?_⟩
      rw [← hstack, List.flatten_concat, List.append_assoc, reverse_map_concat,
        reverse_map_concat, reverse_map_concat, mergeStack, if_pos hmore, hfold]

/-- Merging up to the number of 1-bits leaves subtrees of different sizes. -/
theorem Lazy.exists_merge [Inhabited α] (node : α → α → α) {segs : List (List α)} (h : Lazy segs) :
    ∃ segs', Peaks segs' ∧ segs'.flatten = segs.flatten ∧
      mergeStack node (bitCount segs.flatten.length) (segs.map (treeFold node)).reverse =
        (segs'.map (treeFold node)).reverse := by
  obtain rfl | ⟨below, t, rfl, hpending⟩ := h
  · exact ⟨[], Peaks.nil, rfl, mergeStack_of_length_le node (by simp)⟩
  · obtain ⟨segs', hpeaks, hflatten, -, hstack⟩ := hpending.exists_merge node
    rw [List.flatten_concat]
    exact ⟨segs', hpeaks, hflatten, hstack⟩

end Foundations
