import Dataprint.Pipeline.Summary
import Dataprint.Resources
import Mathlib.Algebra.Order.BigOperators.Group.List

/-!
# Bounds of the Pipeline

How long a call of `run_pipeline` takes, and how much of the file it holds in memory meanwhile
(`include/processor.h`).  A chunk is a copy of a piece of the mapping, which lives in the hands of
the main thread, in the queue, and in the hands of a worker.

- `run_ends` — with at least one worker every run is finite, with a bound linear in the number of
  chunks, and it can only end where the call is left;
- `copies_bounded` — the copies that exist at one time are bounded by the number of workers, the
  chunk size and the longest line, and not by the size of the file.
-/

namespace Dataprint.Pipeline

open Foundations

variable {J : Pipeline}

/-! ## Time -/

theorem measure_start (J : Pipeline) :
    measure J.start = 4 * J.effects.length + 4 * J.numWorkers + 4 := by
  have hweight : ∑ i, (J.start.workers i).pc.weight = 2 * J.numWorkers := by
    simp [start, WorkerPc.weight, Nat.mul_comm]
  rw [measure, hweight]
  simp only [start, MainPc.weight, BoundedQueue.new, List.length_nil]
  omega

/-- Nothing moves after the call has been left. -/
theorem stuck_of_left {s : State J} (h : s.main.isLeft = true) : (system J).Stuck s := by
  rintro l s' ⟨thread, hst⟩
  cases thread with
  | none =>
    cases hmain : s.main with
    | left r => simp [threadStep, mainStep, hmain] at hst
    | _ => simp [hmain, MainPc.isLeft] at h
  | some i => simp [threadStep, h] at hst

/-- The effects of a call of `chunk` are at most six more than its pushes. -/
theorem length_effects_le (file : File) (chunkSize : ℕ) :
    (chunkCall file chunkSize).1.length ≤ (chunks chunkSize file.content).length + 6 := by
  have hexit := chunkCall_exit file chunkSize
  generalize (chunkCall file chunkSize).1 = effects at hexit
  cases hexit with
  | _ => simp

/-- **A call comes to its end.**  With at least two hardware threads every run is finite, whatever
the workers do: its length is bounded by the number of chunks and of workers, it can go on exactly
until the call is left, and there is always a way to go on until then. -/
theorem run_ends (policy : Policy) (hardwareConcurrency : ℕ+)
    (htwo : 2 ≤ (hardwareConcurrency : ℕ)) (file : File) (chunkSize : ℕ)
    (body : WorkItem → EStateM Exn policy.Accumulator Unit) :
    let J := runPipeline policy (Dataprint.numWorkers hardwareConcurrency) file chunkSize body
    ∀ tr s, (system J).Run tr s →
      tr.length ≤ 4 * ((chunks chunkSize file.content).length + hardwareConcurrency) + 24 ∧
        ((system J).Stuck s ↔ ∃ r, s.main = .left r) ∧
        ∃ tr' s' r, (system J).Run (tr ++ tr') s' ∧ s'.main = .left r := by
  intro J tr s hrun
  have hworkers : J.numWorkers = (hardwareConcurrency : ℕ) - 1 := rfl
  have hpool : 0 < J.numWorkers := by omega
  refine ⟨?_, ⟨fun hstuck => ?_, ?_⟩, exists_outcome hpool hrun⟩
  · have hlength : tr.length ≤ measure J.start := hrun.length_le fun _ _ _ => step_decreases
    have heffects : J.effects.length ≤ (chunks chunkSize file.content).length + 6 :=
      length_effects_le file chunkSize
    rw [measure_start] at hlength
    omega
  · cases hmain : s.main with
    | left r => exact ⟨r, rfl⟩
    | _ => exact absurd hstuck (not_stuck ⟨tr, hrun⟩ (by simp [hmain, MainPc.isLeft]) (.inl hpool))
  · rintro ⟨r, hr⟩
    exact stuck_of_left (by rw [hr]; rfl)

/-- One file of one line, two hardware threads. -/
theorem run_ends_one_line :
    (system (runPipeline fingerprintPolicy 1 ⟨"a.json", [0x5b, 0x5d], some 3, true, true, none⟩
      4194304 fun _ => pure ())).start.main = .spawning ∧
    ∃ tr' s' r, (system (runPipeline fingerprintPolicy 1
      ⟨"a.json", [0x5b, 0x5d], some 3, true, true, none⟩ 4194304 fun _ => pure ())).Run
        ([] ++ tr') s' ∧ s'.main = .left r :=
  ⟨rfl, (run_ends fingerprintPolicy 2 (by decide)
    ⟨"a.json", [0x5b, 0x5d], some 3, true, true, none⟩ 4194304 (fun _ => pure ()) [] _
      .start).2.2⟩

/-! ## Memory -/

/-- The copy that a worker has in hand. -/
def Worker.held {A : Type} (w : Worker A) : List WorkItem :=
  match w.pc with
  | .holding item => [item]
  | _ => []

theorem Worker.length_held_le {A : Type} (w : Worker A) : w.held.length ≤ 1 := by
  unfold Worker.held
  split
  · exact le_rfl
  · exact Nat.zero_le _

/-- What a worker has in hand it has taken. -/
theorem Worker.Consistent.mem_of_held {A : Type} {body : WorkItem → EStateM Exn A Unit} {init : A}
    {items : List WorkItem} {w : Worker A} (h : w.Consistent body init items) {item : WorkItem}
    (hitem : item ∈ w.held) : item ∈ items := by
  obtain ⟨pc, result, exception⟩ := w
  cases pc with
  | holding held =>
    obtain rfl : item = held := List.mem_singleton.mp hitem
    cases exception with
    | none =>
      obtain ⟨before, rfl, -⟩ := h
      simp
    | some e => exact h.elim
  | _ => simp [Worker.held] at hitem

/-- The copy that the main thread has made and not pushed yet. -/
def MainPc.made {A : Type} : MainPc A → List WorkItem
  | .chunking (effect :: _) => effect.item?.toList
  | _ => []

/-- The copies of pieces of the file that exist in a state. -/
def copies (s : State J) : List WorkItem :=
  s.main.made ++ s.queue.queue ++ (List.ofFn fun i => (s.workers i).held).flatten

/-- **How many copies there are** depends on the number of workers only. -/
theorem length_copies_le {s : State J} (hs : (system J).Reachable s) :
    (copies s).length ≤ 5 * J.numWorkers + 1 := by
  obtain ⟨tr, hrun⟩ := hs
  have hmade : s.main.made.length ≤ 1 := by
    cases hmain : s.main with
    | chunking rest =>
      cases rest with
      | nil => exact Nat.zero_le _
      | cons effect rest => exact Option.length_toList_le
    | _ => exact Nat.zero_le _
  have hqueue : s.queue.queue.length ≤ J.numWorkers * 4 :=
    (BoundedQueue.Run.history (Run.queue_run hrun)).maxSize_eq ▸ s.queue.bounded
  have hheld : (List.ofFn fun i => (s.workers i).held).flatten.length ≤ J.numWorkers := by
    rw [List.length_flatten, List.map_ofFn]
    have hone : ∀ n ∈ List.ofFn (List.length ∘ fun i => (s.workers i).held), n ≤ 1 := by
      intro n hn
      obtain ⟨i, rfl⟩ := List.mem_ofFn.mp hn
      exact (s.workers i).length_held_le
    simpa using List.sum_le_card_nsmul _ 1 hone
  rw [copies, List.length_append, List.length_append]
  omega

/-- What has been popped or queued has been pushed. -/
theorem mem_pushes_of_accepted {tr : List (Event J.numWorkers)} {s : State J}
    (h : (system J).Run tr s) {item : WorkItem} (hitem : item ∈ BoundedQueue.accepted (calls tr)) :
    item ∈ pushes J.effects := by
  rw [accepted_calls] at hitem
  obtain ⟨⟨pushedItem, answer⟩, hpushed, hsome⟩ := List.mem_filterMap.mp hitem
  have heq : pushedItem = item := by
    cases answer with
    | true => simpa using hsome
    | false => simp at hsome
  rw [← (Run.traceInv h).pushed_eq]
  exact List.mem_append_left _ (List.mem_map.mpr ⟨_, hpushed, heq⟩)

/-- **The copies are pieces that `chunk` pushes.** -/
theorem mem_pushes_of_mem_copies {s : State J} (hs : (system J).Reachable s) {item : WorkItem}
    (hitem : item ∈ copies s) : item ∈ pushes J.effects := by
  obtain ⟨tr, hrun⟩ := hs
  have htrace := Run.traceInv hrun
  have hfifo := (BoundedQueue.Run.history (Run.queue_run hrun)).fifo
  rcases List.mem_append.mp hitem with hitem | hitem
  · rcases List.mem_append.mp hitem with hitem | hitem
    · -- it is the next to be pushed
      cases hmain : s.main with
      | chunking rest =>
        rw [hmain] at hitem
        rw [← htrace.pushed_eq, hmain]
        apply List.mem_append_right
        cases rest with
        | nil => simp [MainPc.made] at hitem
        | cons effect rest =>
          apply List.mem_filterMap.mpr
          exact ⟨effect, List.mem_cons_self, by simpa [MainPc.made] using hitem⟩
      | _ => simp [hmain, MainPc.made] at hitem
    · -- it is waiting
      apply mem_pushes_of_accepted hrun
      rw [← hfifo]
      exact List.mem_append_right _ hitem
  · -- a worker has popped it last
    obtain ⟨held, hheld, hmem⟩ := List.mem_flatten.mp hitem
    obtain ⟨i, rfl⟩ := List.mem_ofFn.mp hheld
    have htaken : item ∈ taken i tr := (htrace.worker i).mem_of_held hmem
    apply mem_pushes_of_accepted hrun
    rw [← hfifo, popped_calls]
    apply List.mem_append_left
    obtain ⟨entry, hentry, rfl⟩ := List.mem_map.mp htaken
    exact List.mem_map.mpr ⟨entry, List.mem_of_mem_filter hentry, rfl⟩

/-- No line of a file, and no part of one, has more bytes than this. -/
def LinesWithin (longest : ℕ) (content : Bytes) : Prop :=
  ∀ line, line <:+: content → newline ∉ line → line.length ≤ longest

theorem LinesWithin.drop {longest : ℕ} {content : Bytes} (h : LinesWithin longest content) (n : ℕ) :
    LinesWithin longest (content.drop n) :=
  fun line hline hnone => h line (hline.trans (List.drop_suffix n content).isInfix) hnone

/-- A piece ends at the latest where the line ends that its last whole byte is in. -/
theorem chunkEnd_le {chunkSize longest : ℕ} {rest : Bytes} (h : LinesWithin longest rest) :
    Dataprint.chunkEnd chunkSize rest ≤ chunkSize + longest + 1 := by
  have hdrop := h.drop chunkSize
  unfold Dataprint.chunkEnd
  split
  case isTrue hle => omega
  case isFalse hlong =>
    split
    case h_1 i hi =>
      -- the bytes before the newline that was found
      obtain ⟨hlt, -, hfirst⟩ := List.idxOf?_eq_some_iff.mp hi
      have hline : newline ∉ (rest.drop chunkSize).take i := by
        intro hmem
        obtain ⟨j, hj, hnewline⟩ := List.mem_take_iff_getElem.mp hmem
        exact hfirst j (by omega) hnewline
      have hlength := hdrop _ (List.take_prefix i _).isInfix hline
      rw [List.length_take] at hlength
      omega
    case h_2 hnone =>
      -- the last line has no newline
      have hlength := hdrop _ List.infix_rfl (List.idxOf?_eq_none_iff.mp hnone)
      rw [List.length_drop] at hlength
      omega

theorem length_le_of_mem_chunks {chunkSize longest : ℕ} {rest : Bytes}
    (h : LinesWithin longest rest) :
    ∀ item ∈ chunks chunkSize rest, item.chunk.length ≤ chunkSize + longest + 1 := by
  induction rest using chunks.induct chunkSize with
  | case1 => simp
  | case2 rest hrest ih =>
    rw [chunks_of_ne_nil chunkSize hrest]
    intro item hitem
    rcases List.mem_cons.mp hitem with rfl | hitem
    · exact (List.length_take_le _ _).trans (chunkEnd_le h)
    · exact ih (h.drop _) item hitem

/-- **The pipeline works in bounded memory.**  In every reachable state of a call for a file, however
large, there are at most five copies for each worker and one more, each a piece that `chunk` cuts off,
and together they have at most that many times the bytes of a chunk and of a line. -/
theorem copies_bounded (policy : Policy) (workers : ℕ) (file : File) (chunkSize longest : ℕ)
    (body : WorkItem → EStateM Exn policy.Accumulator Unit)
    (hlines : LinesWithin longest file.content) :
    ∀ s, (system (runPipeline policy workers file chunkSize body)).Reachable s →
      (copies s).length ≤ 5 * workers + 1 ∧
      (∀ item ∈ copies s, item ∈ chunks chunkSize file.content) ∧
      ((copies s).map fun item => item.chunk.length).sum ≤
        (5 * workers + 1) * (chunkSize + longest + 1) := by
  intro s hs
  have hcount : (copies s).length ≤ 5 * workers + 1 := length_copies_le hs
  have hpieces : ∀ item ∈ copies s, item ∈ chunks chunkSize file.content := by
    intro item hitem
    have hpushed : item ∈ pushes (chunkCall file chunkSize).1 := mem_pushes_of_mem_copies hs hitem
    rw [(chunkCall_spec file chunkSize).1] at hpushed
    split at hpushed
    · exact hpushed
    · simp at hpushed
  refine ⟨hcount, hpieces, ?_⟩
  have hsum := List.sum_le_card_nsmul ((copies s).map fun item => item.chunk.length)
    (chunkSize + longest + 1) (by
      intro n hn
      obtain ⟨item, hitem, rfl⟩ := List.mem_map.mp hn
      exact length_le_of_mem_chunks hlines item (hpieces item hitem))
  rw [List.length_map, smul_eq_mul] at hsum
  exact hsum.trans (Nat.mul_le_mul_right _ hcount)

/-- Two lines of two bytes, and chunks of one byte and more. -/
theorem copies_bounded_two_lines :
    let file : File := ⟨"a.json", [0x5b, 0x5d, 0x0a, 0x7b, 0x7d], some 3, true, true, none⟩
    LinesWithin 5 file.content ∧
    ∀ s, (system (runPipeline fingerprintPolicy 1 file 1 fun _ => pure ())).Reachable s →
      ((copies s).map fun item => item.chunk.length).sum ≤ (5 * 1 + 1) * (1 + 5 + 1) := by
  intro file
  have hlines : LinesWithin 5 file.content := fun _ hline _ => hline.length_le
  exact ⟨hlines, fun s hs =>
    (copies_bounded fingerprintPolicy 1 file 1 5 (fun _ => pure ()) hlines s hs).2.2⟩

end Dataprint.Pipeline
