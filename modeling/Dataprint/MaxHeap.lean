import Dataprint.Errors
import Dataprint.Utils
import Dataprint.Foundations.HeapOrder
import Mathlib.Data.Multiset.AddSub

/-!
# The Max-Heap of the Sketch

`MaxHeap` (`src/maxheap.cpp`): a binary heap in a vector of 128-bit integers, with
the capacity reserved at construction.  A method that may throw runs in
`EStateM Exn MaxHeap`, so that the heap it leaves behind is part of its result
when it throws, too.

The order part instantiates `Foundations.HeapOrder` at the vector's entries:

- `siftUp_heapOrdered`, `siftDown_heapOrdered` — each loop repairs the order that is
  broken at the moving index, and both only permute the vector;
- `push_isHeap`, `contents_push`, `replaceTop_of_isHeap`, `peek_of_nonempty` — what the
  methods do to the order and to the contents.
-/

namespace Dataprint

open Foundations

/-- `data_` and `capacity_`. -/
structure MaxHeap where
  data : Array U128
  capacity : ℕ
  deriving DecidableEq, Repr

namespace MaxHeap

/-! ## Index arithmetic -/

def parent (i : ℕ) : ℕ := (i - 1) / 2

def leftChild (i : ℕ) : ℕ := 2 * i + 1

def rightChild (i : ℕ) : ℕ := 2 * i + 2

/-! ## Sifting -/

/-- Moves the element at index `i` upward until heap order is restored. -/
def siftUp (data : Array U128) (i : ℕ) : Array U128 :=
  if 0 < i then
    let p := parent i
    if data[p]! < data[i]! then siftUp (data.swapIfInBounds p i) p else data
  else data
termination_by i
decreasing_by unfold parent; omega

/-- The index `largest` that one round of `sift_down` settles on: the node itself or
one of its children inside the vector. -/
def largest (data : Array U128) (i : ℕ) : ℕ :=
  let n := data.size
  let l := leftChild i
  let r := rightChild i
  let m := if l < n ∧ data[l]! > data[i]! then l else i
  if r < n ∧ data[r]! > data[m]! then r else m

theorem largest_cases (data : Array U128) (i : ℕ) :
    largest data i = i ∨ i < largest data i ∧ largest data i < data.size ∧
      parent (largest data i) = i := by
  unfold largest leftChild rightChild parent
  dsimp only
  split <;> split <;> omega

/-- Moves the element at index `i` downward until heap order is restored. -/
def siftDown (data : Array U128) (i : ℕ) : Array U128 :=
  if largest data i = i then data
  else siftDown (data.swapIfInBounds i (largest data i)) (largest data i)
termination_by data.size - i
decreasing_by
  rcases largest_cases data i with h | h
  · contradiction
  · rw [Array.size_swapIfInBounds]
    omega

/-! ## The methods -/

/-- The constructor: an empty vector with room for `capacity` elements. -/
def new (capacity : ℕ) : MaxHeap := ⟨#[], capacity⟩

def size (h : MaxHeap) : ℕ := h.data.size

def empty (h : MaxHeap) : Bool := h.data.isEmpty

def full (h : MaxHeap) : Bool := h.data.size = h.capacity

def push (h : MaxHeap) (value : U128) : MaxHeap :=
  let data := h.data.push value
  { h with data := siftUp data (data.size - 1) }

/-- Removes all elements; the capacity is preserved. -/
def clear (h : MaxHeap) : MaxHeap := { h with data := #[] }

def pop : EStateM Exn MaxHeap U128 := do
  if (← get).empty then
    throw (.outOfRange "MaxHeap::pop() called on empty heap")
  let top := (← get).data[0]!
  -- the last element takes the place of the root
  modify fun h => { h with data := h.data.set! 0 h.data.back! }
  modify fun h => { h with data := h.data.pop }
  if !(← get).empty then
    modify fun h => { h with data := siftDown h.data 0 }
  return top

def peek : EStateM Exn MaxHeap U128 := do
  if (← get).empty then
    throw (.outOfRange "MaxHeap::peek() called on empty heap")
  return (← get).data[0]!

def replaceTop (value : U128) : EStateM Exn MaxHeap Unit := do
  if (← get).empty then
    throw (.outOfRange "MaxHeap::replace_top() called on empty heap")
  modify fun h => { h with data := h.data.set! 0 value }
  modify fun h => { h with data := siftDown h.data 0 }

/-! ## Heap order of a vector -/

/-- The entries of a vector as a function of the index. -/
def entry (data : Array U128) (i : ℕ) : U128 := data[i]!

/-- No element of the vector exceeds its parent. -/
def IsHeap (data : Array U128) : Prop := HeapOrdered data.size (entry data)

theorem entry_eq_getElem {data : Array U128} {i : ℕ} (hi : i < data.size) :
    entry data i = data[i] :=
  getElem!_pos data i hi

theorem entry_mem {data : Array U128} {i : ℕ} (hi : i < data.size) : entry data i ∈ data := by
  rw [entry_eq_getElem hi]
  exact Array.getElem_mem hi

theorem exists_entry {data : Array U128} {x : U128} (hx : x ∈ data) :
    ∃ i < data.size, entry data i = x := by
  obtain ⟨i, hi, hxi⟩ := Array.getElem_of_mem hx
  exact ⟨i, hi, (entry_eq_getElem hi).trans hxi⟩

/-- The first entry of a heap is a maximum of it. -/
theorem IsHeap.le_first {data : Array U128} (h : IsHeap data) {x : U128} (hx : x ∈ data) :
    x ≤ entry data 0 := by
  obtain ⟨i, hi, rfl⟩ := exists_entry hx
  exact h.le_root hi

theorem entry_swap {data : Array U128} {i j : ℕ} (hi : i < data.size) (hj : j < data.size)
    {k : ℕ} (hk : k < data.size) :
    entry (data.swapIfInBounds i j) k = entry data (Equiv.swap i j k) := by
  have hs : Equiv.swap i j k < data.size := by
    rw [Equiv.swap_apply_def]
    split_ifs <;> assumption
  rw [entry_eq_getElem (by rwa [Array.size_swapIfInBounds]), entry_eq_getElem hs,
    Array.getElem_swapIfInBounds]
  by_cases hki : k = i
  · subst hki
    simp [hj]
  · by_cases hkj : k = j
    · subst hkj
      simp [hki, hi]
    · simp [hki, hkj, Equiv.swap_apply_of_ne_of_ne hki hkj]

theorem swap_perm (data : Array U128) (i j : ℕ) : (data.swapIfInBounds i j).Perm data := by
  rw [Array.swapIfInBounds_def]
  split
  · split
    · exact Array.swap_perm _ _
    · exact .refl _
  · exact .refl _

/-! ## The loops restore the order -/

theorem siftUp_perm (data : Array U128) (i : ℕ) : (siftUp data i).Perm data := by
  induction data, i using siftUp.induct with
  | case1 data i hpos p hlt ih =>
    rw [siftUp, if_pos hpos, if_pos hlt]
    exact ih.trans (swap_perm _ _ _)
  | case2 data i hpos p hlt =>
    rw [siftUp, if_pos hpos, if_neg hlt]
  | case3 data i hpos =>
    rw [siftUp, if_neg hpos]

/-- `sift_up` repairs a heap whose only open edge leads up from `i`. -/
theorem siftUp_heapOrdered (data : Array U128) (i : ℕ) (hi : i < data.size)
    (h : UpOrdered data.size (entry data) i) : IsHeap (siftUp data i) := by
  induction data, i using siftUp.induct with
  | case1 data i hpos p hlt ih =>
    rw [siftUp, if_pos hpos, if_pos hlt]
    have hp : p < data.size := (heapParent_lt hpos).trans hi
    -- the open edge moves one level up
    apply ih (by rwa [Array.size_swapIfInBounds])
    have hswap := h.swap hpos hi hlt
    rw [Array.size_swapIfInBounds]
    exact hswap.congr fun k hk => (entry_swap hp hi hk).symm
  | case2 data i hpos p hlt =>
    rw [siftUp, if_pos hpos, if_neg hlt]
    exact h.finish fun _ => not_lt.mp hlt
  | case3 data i hpos =>
    rw [siftUp, if_neg hpos]
    exact h.finish fun hpos' => absurd hpos' hpos

theorem siftDown_perm (data : Array U128) (i : ℕ) : (siftDown data i).Perm data := by
  induction data, i using siftDown.induct with
  | case1 data i heq =>
    rw [siftDown, if_pos heq]
  | case2 data i hne ih =>
    rw [siftDown, if_neg hne]
    exact ih.trans (swap_perm _ _ _)

/-- `largest` is a maximum among the node and its children. -/
theorem le_largest {data : Array U128} {i j : ℕ} (hj : 0 < j) (hjn : j < data.size)
    (hp : heapParent j = i) :
    entry data i ≤ entry data (largest data i) ∧ entry data j ≤ entry data (largest data i) := by
  have hchild := (heapParent_eq_iff hj).mp hp
  unfold largest leftChild rightChild entry
  dsimp only
  rcases hchild with rfl | rfl <;> split_ifs <;> grind

theorem lt_largest {data : Array U128} {i : ℕ} (h : largest data i ≠ i) :
    entry data i < entry data (largest data i) := by
  revert h
  unfold largest leftChild rightChild entry
  dsimp only
  split_ifs <;> grind

/-- `sift_down` repairs a heap whose only open edges lead down from `i`. -/
theorem siftDown_heapOrdered (data : Array U128) (i : ℕ) (hi : i < data.size)
    (h : DownOrdered data.size (entry data) i) : IsHeap (siftDown data i) := by
  induction data, i using siftDown.induct with
  | case1 data i heq =>
    rw [siftDown, if_pos heq]
    exact h.finish fun j hj hjn hp => heq ▸ (le_largest hj hjn hp).2
  | case2 data i hne ih =>
    rw [siftDown, if_neg hne]
    obtain ⟨hlt, hn, hp⟩ := (largest_cases data i).resolve_left hne
    have hpos : 0 < largest data i := by omega
    -- the open edges move one level down
    apply ih (by rwa [Array.size_swapIfInBounds])
    have hswap := h.swap hpos hn hp (fun j hj hjn hpj => (le_largest hj hjn hpj).2)
      (lt_largest hne)
    rw [Array.size_swapIfInBounds]
    exact hswap.congr fun k hk => (entry_swap hi hn hk).symm

/-! ## Specifications of the methods -/

/-- The elements of the heap, with repetitions. -/
def contents (h : MaxHeap) : Multiset U128 := h.data.toList

theorem mem_contents {h : MaxHeap} {x : U128} : x ∈ h.contents ↔ x ∈ h.data := by
  simp [contents]

@[simp] theorem card_contents (h : MaxHeap) : h.contents.card = h.size := by
  simp [contents, size]

theorem isHeap_new (capacity : ℕ) : IsHeap (new capacity).data :=
  fun _ _ hj => absurd hj (Nat.not_lt_zero _)

@[simp] theorem contents_new (capacity : ℕ) : (new capacity).contents = 0 := by
  simp [contents, new]

/-- `push` adds its value. -/
theorem contents_push (h : MaxHeap) (v : U128) : (h.push v).contents = v ::ₘ h.contents := by
  have hperm : (h.push v).data.Perm (h.data.push v) := siftUp_perm _ _
  calc (h.push v).contents = ((h.data.push v).toList : Multiset U128) :=
        Multiset.coe_eq_coe.mpr hperm.toList
    _ = v ::ₘ h.contents := by
        rw [Array.toList_push, contents, Multiset.cons_coe, Multiset.coe_eq_coe]
        exact List.perm_append_singleton _ _

theorem push_isHeap {h : MaxHeap} (hh : IsHeap h.data) (v : U128) : IsHeap (h.push v).data := by
  unfold push
  apply siftUp_heapOrdered
  · simp
  · -- the old entries keep their places, only the last edge is new
    have hsame : HeapOrdered h.data.size (entry (h.data.push v)) :=
      HeapOrdered.congr hh fun j hj => by
        rw [entry_eq_getElem hj, entry_eq_getElem (by rw [Array.size_push]; omega),
          Array.getElem_push_lt hj]
    simpa using hsame.upOrdered_last

theorem peek_of_nonempty {h : MaxHeap} (hne : 0 < h.data.size) :
    peek.run h = .ok (entry h.data 0) h := by
  have hempty : h.empty = false := by simpa [empty, Array.isEmpty] using hne.ne'
  simp [peek, hempty, entry, -bind_pure_comp]

/-- The top of a heap is a maximum of its contents. -/
theorem IsHeap.le_top {h : MaxHeap} (hh : IsHeap h.data) {x : U128} (hx : x ∈ h.contents) :
    x ≤ entry h.data 0 :=
  hh.le_first (mem_contents.mp hx)

theorem top_mem_contents {h : MaxHeap} (hne : 0 < h.data.size) : entry h.data 0 ∈ h.contents :=
  mem_contents.mpr (entry_mem hne)

/-- Overwriting the first entry exchanges it for the new value. -/
theorem coe_set_first {data : Array U128} (hne : 0 < data.size) (v : U128) :
    ((data.set! 0 v).toList : Multiset U128) =
      v ::ₘ (data.toList : Multiset U128).erase (entry data 0) := by
  obtain ⟨x, xs, hl⟩ : ∃ x xs, data = (x :: xs).toArray := by
    obtain ⟨l⟩ := data
    cases l with
    | nil => simp at hne
    | cons x xs => exact ⟨x, xs, rfl⟩
  subst hl
  simp [entry, ← Multiset.cons_coe]

/-- A new first entry leaves only the edges below the root to check. -/
theorem downOrdered_set_first {data : Array U128} (h : IsHeap data) (v : U128) :
    DownOrdered (data.set! 0 v).size (entry (data.set! 0 v)) 0 := by
  rw [Array.size_set!]
  apply h.downOrdered_root
  intro j hpos hj
  rw [entry_eq_getElem hj, entry_eq_getElem (by rwa [Array.size_set!])]
  exact (Array.getElem_setIfInBounds_ne hj hpos.ne).symm

/-- `replace_top` on a heap with elements swaps its maximum for the new value. -/
theorem replaceTop_of_isHeap {h : MaxHeap} (hh : IsHeap h.data) (hne : 0 < h.data.size) (v : U128) :
    ∃ h', (replaceTop v).run h = .ok () h' ∧ IsHeap h'.data ∧ h'.capacity = h.capacity ∧
      h'.contents = v ::ₘ h.contents.erase (entry h.data 0) := by
  have hempty : h.empty = false := by simpa [empty, Array.isEmpty] using hne.ne'
  refine ⟨{ h with data := siftDown (h.data.set! 0 v) 0 }, ?_, ?_, rfl, ?_⟩
  · simp [replaceTop, hempty]
  · exact siftDown_heapOrdered _ _ (by simpa using hne) (downOrdered_set_first hh v)
  · rw [contents, contents, ← coe_set_first hne]
    exact Multiset.coe_eq_coe.mpr (siftDown_perm _ _).toList

end MaxHeap

end Dataprint
