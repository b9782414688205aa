import Dataprint.Pipeline.Machine
import Mathlib.Data.Finset.Insert
import Mathlib.Data.Multiset.AddSub

/-!
# Descriptors and Mappings

What `Processor::chunk` holds of the operating system (`src/processor.cpp`), after each call and at
every moment of a run of the pipeline.  The exits on failures and the one on an empty file close the
descriptor; the normal one removes the mapping only, although a mapping outlives its descriptor.

- `Exit` lists the five exits of `chunk` with their effects;
- `Exit.after_of_not_mapped`, `Exit.after_of_mapped` — what a call leaves behind;
- `Run.performed` — at every moment of a run of the pipeline, the main thread has performed
  a first part of the effects of `chunk`, and all of them when the call is left;
- `chunk_releases_iff` — over any files, when everything is released.
-/

namespace Dataprint

open Foundations Pipeline

/-! ## What the effects do -/

/-- What the process holds. -/
structure Resources where
  /-- the open file descriptors -/
  descriptors : Finset ℕ
  /-- the lengths of the mapped regions -/
  mappings : Multiset ℕ

namespace Resources

/-- A call that succeeds takes or gives something back.  `close(-1)` fails. -/
def apply (r : Resources) : Effect → Resources
  | .open (some fd) => { r with descriptors := insert fd r.descriptors }
  | .close (some fd) => { r with descriptors := r.descriptors.erase fd }
  | .mmap _ length true => { r with mappings := length ::ₘ r.mappings }
  | .munmap length => { r with mappings := r.mappings.erase length }
  | _ => r

/-- What is held after some effects. -/
def after (r : Resources) (effects : List Effect) : Resources := effects.foldl apply r

/-- The descriptor that `open` returns. -/
def opened? : Effect → Option ℕ
  | .open fd => fd
  | _ => none

/-- What the operating system promises of `open`: the descriptor it returns is not in use. -/
def OpensFresh : Resources → List Effect → Prop
  | _, [] => True
  | r, effect :: effects =>
    (∀ fd ∈ opened? effect, fd ∉ r.descriptors) ∧ OpensFresh (r.apply effect) effects

instance decidableOpensFresh : (r : Resources) → (effects : List Effect) →
    Decidable (r.OpensFresh effects)
  | _, [] => isTrue trivial
  | r, effect :: effects =>
    haveI := decidableOpensFresh (r.apply effect) effects
    inferInstanceAs (Decidable (_ ∧ _))

variable {r : Resources} {effects effects' : List Effect}

@[simp] theorem after_nil (r : Resources) : r.after [] = r := rfl

@[simp] theorem after_cons (r : Resources) (effect : Effect) (effects : List Effect) :
    r.after (effect :: effects) = (r.apply effect).after effects := rfl

theorem after_append (r : Resources) (effects effects' : List Effect) :
    r.after (effects ++ effects') = (r.after effects).after effects' :=
  List.foldl_append

theorem opensFresh_append :
    r.OpensFresh (effects ++ effects') ↔
      r.OpensFresh effects ∧ (r.after effects).OpensFresh effects' := by
  induction effects generalizing r with
  | nil => simp [OpensFresh]
  | cons effect effects ih =>
    rw [List.cons_append, OpensFresh, OpensFresh, ih, after_cons, and_assoc]

/-- Pushing takes nothing. -/
theorem after_pushes (r : Resources) (items : List WorkItem) :
    r.after (items.map .push) = r := by
  induction items with
  | nil => rfl
  | cons item items ih => exact ih

/-- A descriptor that is closed again leaves no trace. -/
theorem close_open {fd : ℕ} (hnew : fd ∉ r.descriptors) :
    (r.apply (.open (some fd))).apply (.close (some fd)) = r := by
  simp only [apply, Finset.erase_insert hnew]

/-- Nothing is open but what was open or has been opened. -/
theorem descriptors_after_subset {s : Finset ℕ} (hr : r.descriptors ⊆ s)
    (hopen : ∀ fd, Effect.open (some fd) ∈ effects → fd ∈ s) :
    (r.after effects).descriptors ⊆ s := by
  induction effects generalizing r with
  | nil => exact hr
  | cons effect effects ih =>
    refine ih ?_ fun fd hfd => hopen fd (List.mem_cons_of_mem _ hfd)
    unfold apply
    split
    · exact Finset.insert_subset (hopen _ List.mem_cons_self) hr
    · exact (Finset.erase_subset _ _).trans hr
    · exact hr
    · exact hr
    · exact hr

end Resources

/-! ## The exits of `chunk` -/

/-- The calls of `chunk` that come to the loop over the mapping. -/
def File.Mapped (file : File) : Prop :=
  file.fd ≠ none ∧ file.statOk = true ∧ file.content ≠ [] ∧ file.mapOk = true

instance (file : File) : Decidable file.Mapped := inferInstanceAs (Decidable (_ ∧ _ ∧ _ ∧ _))

/-- The five exits, with what has been done there. -/
inductive Exit (file : File) (chunkSize : ℕ) : List Effect → Prop where
  | openFails : file.fd = none → Exit file chunkSize [.open none, .close none]
  | statFails {fd : ℕ} : file.fd = some fd → file.statOk = false →
      Exit file chunkSize [.open (some fd), .fstat fd, .close (some fd)]
  | emptyFile {fd : ℕ} : file.fd = some fd → file.content = [] →
      Exit file chunkSize [.open (some fd), .fstat fd, .close (some fd),
        .warn ("Warning: skipping empty file: " ++ file.name)]
  | mapFails {fd : ℕ} : file.fd = some fd → file.mapOk = false →
      Exit file chunkSize [.open (some fd), .fstat fd, .mmap fd file.content.length false,
        .close (some fd)]
  /-- the mapping is removed, and the descriptor is not closed -/
  | normalEnd {fd : ℕ} : file.fd = some fd → file.Mapped →
      Exit file chunkSize (([.open (some fd), .fstat fd, .mmap fd file.content.length true,
        .madvise file.content.length .sequential,
        .madvise file.content.length .willneed] : List Effect) ++
        (chunks chunkSize file.content).map .push ++ [.munmap file.content.length])

/-- **There are no other exits.** -/
theorem chunkCall_exit (file : File) (chunkSize : ℕ) :
    Exit file chunkSize (chunkCall file chunkSize).1 := by
  cases hfd : file.fd with
  | none =>
    have heffects : (chunkCall file chunkSize).1 = [.open none, .close none] := by
      simp [chunkCall, chunk, hfd]
    exact heffects ▸ .openFails hfd
  | some fd =>
    cases hstat : file.statOk with
    | false =>
      have heffects : (chunkCall file chunkSize).1 =
          [.open (some fd), .fstat fd, .close (some fd)] := by
        simp [chunkCall, chunk, hfd, hstat]
      exact heffects ▸ .statFails hfd hstat
    | true =>
      by_cases hempty : file.content = []
      · have heffects : (chunkCall file chunkSize).1 = [.open (some fd), .fstat fd,
            .close (some fd), .warn ("Warning: skipping empty file: " ++ file.name)] := by
          simp [chunkCall, chunk, hfd, hstat, hempty]
        exact heffects ▸ .emptyFile hfd hempty
      · cases hmap : file.mapOk with
        | false =>
          have heffects : (chunkCall file chunkSize).1 = [.open (some fd), .fstat fd,
              .mmap fd file.content.length false, .close (some fd)] := by
            simp [chunkCall, chunk, hfd, hstat, hempty, hmap]
          exact heffects ▸ .mapFails hfd hmap
        | true =>
          have hmapped : file.Mapped := ⟨by simp [hfd], hstat, hempty, hmap⟩
          let opening : List Effect := [.open (some fd), .fstat fd,
            .mmap fd file.content.length true, .madvise file.content.length .sequential,
            .madvise file.content.length .willneed]
          have heffects : (chunkCall file chunkSize).1 = opening ++
              (chunks chunkSize file.content).map .push ++ [.munmap file.content.length] := by
            simp [chunkCall, chunk, hfd, hstat, hempty, hmap, run_forM_push, opening]
          exact heffects ▸ .normalEnd hfd hmapped

namespace Exit

variable {file : File} {chunkSize : ℕ} {effects : List Effect} {r : Resources}

/-- A call opens its file only. -/
theorem fd_eq_of_open {fd : ℕ} (h : Exit file chunkSize effects)
    (hmem : Effect.open (some fd) ∈ effects) : file.fd = some fd := by
  cases h with
  | openFails hfd => simp at hmem
  | statFails hfd hstat => simpa [hfd, eq_comm] using hmem
  | emptyFile hfd hempty => simpa [hfd, eq_comm] using hmem
  | mapFails hfd hmap => simpa [hfd, eq_comm] using hmem
  | normalEnd hfd hmapped => simpa [hfd, eq_comm] using hmem

/-- **Four exits give everything back.** -/
theorem after_of_not_mapped (h : Exit file chunkSize effects) (hfresh : r.OpensFresh effects)
    (hnot : ¬ file.Mapped) : r.after effects = r := by
  -- between the two calls nothing is taken
  cases h with
  | openFails hfd => rfl
  | statFails hfd hstat => exact Resources.close_open (hfresh.1 _ rfl)
  | emptyFile hfd hempty => exact Resources.close_open (hfresh.1 _ rfl)
  | mapFails hfd hmap => exact Resources.close_open (hfresh.1 _ rfl)
  | normalEnd hfd hmapped => exact absurd hmapped hnot

/-- **The normal end keeps the descriptor.** -/
theorem after_of_mapped (h : Exit file chunkSize effects) (hfresh : r.OpensFresh effects)
    (hmapped : file.Mapped) :
    ∃ fd, fd ∉ r.descriptors ∧
      r.after effects = { r with descriptors := insert fd r.descriptors } := by
  obtain ⟨hopen, hstat, hcontent, hmap⟩ := hmapped
  cases h with
  | openFails hfd => exact absurd hfd hopen
  | statFails hfd hfails => simp [hstat] at hfails
  | emptyFile hfd hempty => exact absurd hempty hcontent
  | mapFails hfd hfails => simp [hmap] at hfails
  | @normalEnd fd hfd _ =>
    refine ⟨fd, hfresh.1 _ rfl, ?_⟩
    rw [Resources.after_append, Resources.after_append, Resources.after_pushes]
    -- the mapping comes and goes
    simp [Resources.apply]

/-- A call gives everything back exactly if it does not come to its normal end with a mapping. -/
theorem after_eq_iff (h : Exit file chunkSize effects) (hfresh : r.OpensFresh effects) :
    r.after effects = r ↔ ¬ file.Mapped := by
  constructor
  · intro hsame hmapped
    obtain ⟨fd, hnew, hafter⟩ := h.after_of_mapped hfresh hmapped
    apply hnew
    rw [← hsame, hafter]
    exact Finset.mem_insert_self _ _
  · exact h.after_of_not_mapped hfresh

/-- In a call at most one more descriptor is open than before it. -/
theorem card_descriptors_le {pre : List Effect} (h : Exit file chunkSize effects)
    (hpre : pre <+: effects) :
    (r.after pre).descriptors.card ≤ r.descriptors.card + 1 := by
  cases hfd : file.fd with
  | none =>
    have hsub : (r.after pre).descriptors ⊆ r.descriptors := by
      refine Resources.descriptors_after_subset (Finset.Subset.refl _) fun fd hmem => ?_
      have heq := h.fd_eq_of_open (hpre.subset hmem)
      simp [hfd] at heq
    exact (Finset.card_le_card hsub).trans (Nat.le_succ _)
  | some fd =>
    have hsub : (r.after pre).descriptors ⊆ insert fd r.descriptors := by
      refine Resources.descriptors_after_subset (Finset.subset_insert _ _) fun fd' hmem => ?_
      have heq := h.fd_eq_of_open (hpre.subset hmem)
      rw [hfd, Option.some.injEq] at heq
      exact heq ▸ Finset.mem_insert_self _ _
    exact (Finset.card_le_card hsub).trans (Finset.card_insert_le _ _)

end Exit

/-! ## The moments of a run -/

namespace Pipeline

/-- The effect of `chunk` that a step performs, if it performs one. -/
def Event.effect? {n : ℕ} : Event n → Option Effect
  | .main (.effect effect) => some effect
  | .main (.push item _) => some (.push item)
  | _ => none

/-- The effects that have been performed in a trace. -/
def performed {n : ℕ} (tr : List (Event n)) : List Effect := tr.filterMap Event.effect?

variable {J : Pipeline}

/-- What has been performed, seen from where the main thread stands. -/
def PerformedUntil (J : Pipeline) (effects : List Effect) : MainPc J.policy.Accumulator → Prop
  | .spawning => effects = []
  | .chunking rest => effects ++ rest = J.effects
  | _ => effects = J.effects

theorem Rule.performedUntil {s s' : State J} {l : Event J.numWorkers} {effects : List Effect}
    (h : Rule s l s') (hs : PerformedUntil J effects s.main) :
    PerformedUntil J (effects ++ l.effect?.toList) s'.main := by
  cases h with
  | spawn hmain hlt => simpa [Event.effect?] using hs
  | callChunk hmain hge =>
    rw [hmain] at hs
    simp [PerformedUntil, Event.effect?, show effects = [] from hs]
  | @push effect rest item accepted q hmain hitem hpush =>
    -- what the queue answers does not matter
    have heffect : effect = .push item := by
      cases effect <;> simp_all [Effect.item?]
    rw [hmain] at hs
    simpa [PerformedUntil, Event.effect?, heffect] using hs
  | effect hmain hitem =>
    rw [hmain] at hs
    simpa [PerformedUntil, Event.effect?] using hs
  | chunkReturns hmain hend =>
    rw [hmain] at hs
    simpa [PerformedUntil, Event.effect?] using hs
  | chunkThrows hmain hend =>
    rw [hmain] at hs
    simpa [PerformedUntil, Event.effect?] using hs
  | shutdown hmain =>
    rw [hmain] at hs
    simpa [PerformedUntil, Event.effect?] using hs
  | join hlt hmain hexit => simpa [Event.effect?] using hs
  | finish hmain hge =>
    rw [hmain] at hs
    simpa [PerformedUntil, Event.effect?] using hs
  | worker hstarted hleft hrule => simpa [Event.effect?, State.setWorker] using hs

/-- **The main thread performs the effects of `chunk` in order**, whatever the workers do. -/
theorem Run.performedUntil {tr : List (Event J.numWorkers)} {s : State J}
    (h : (system J).Run tr s) : PerformedUntil J (performed tr) s.main := by
  induction h with
  | start => exact rfl
  | @snoc tr s l s' hrun hst ih =>
    have hlast : performed (tr ++ [l]) = performed tr ++ l.effect?.toList := by
      rw [performed, List.filterMap_append]
      cases heffect : l.effect? <;> simp [performed, heffect]
    rw [hlast]
    exact (step_rule hst).performedUntil ih

theorem PerformedUntil.isPrefix {effects : List Effect} {main : MainPc J.policy.Accumulator}
    (h : PerformedUntil J effects main) : effects <+: J.effects := by
  cases main with
  | spawning =>
    rw [show effects = [] from h]
    exact List.nil_prefix
  | chunking rest => exact ⟨rest, h⟩
  | stopping => exact ⟨[], (List.append_nil _).trans h⟩
  | joining => exact ⟨[], (List.append_nil _).trans h⟩
  | left r => exact ⟨[], (List.append_nil _).trans h⟩

/-- At every moment a first part of the effects has been performed. -/
theorem Run.performed_prefix {tr : List (Event J.numWorkers)} {s : State J}
    (h : (system J).Run tr s) : performed tr <+: J.effects :=
  (Run.performedUntil h).isPrefix

/-- A call that is left has performed all of them. -/
theorem Run.performed_of_left {tr : List (Event J.numWorkers)} {s : State J}
    {r : Except Exn J.policy.Accumulator} (h : (system J).Run tr s) (hleft : s.main = .left r) :
    performed tr = J.effects := by
  have hs := Run.performedUntil h
  rwa [hleft] at hs

end Pipeline

/-! ## Any number of files -/

/-- The effects of the calls of `chunk` for some files, in order. -/
def callEffects (chunkSize : ℕ) (files : List File) : List Effect :=
  files.flatMap fun file => (chunkCall file chunkSize).1

theorem callEffects_cons (chunkSize : ℕ) (file : File) (files : List File) :
    callEffects chunkSize (file :: files) =
      (chunkCall file chunkSize).1 ++ callEffects chunkSize files :=
  List.flatMap_cons

theorem callEffects_snoc (chunkSize : ℕ) (files : List File) (file : File) :
    callEffects chunkSize (files ++ [file]) =
      callEffects chunkSize files ++ (chunkCall file chunkSize).1 := by
  simp [callEffects]

/-- One of the calls opens a descriptor that is not in use then. -/
theorem opensFresh_call {r : Resources} {chunkSize : ℕ} {pre post : List File} {file : File}
    (hfresh : r.OpensFresh (callEffects chunkSize (pre ++ file :: post))) :
    (r.after (callEffects chunkSize pre)).OpensFresh (chunkCall file chunkSize).1 := by
  rw [callEffects, List.flatMap_append, List.flatMap_cons, Resources.opensFresh_append,
    Resources.opensFresh_append] at hfresh
  exact hfresh.2.1

/-- The moments of a command that runs the pipeline for one file after another, each with what the
calls of `chunk` have done so far. -/
inductive Moment (policy : Policy) (workers chunkSize : ℕ)
    (body : WorkItem → EStateM Exn policy.Accumulator Unit) : List File → List Effect → Prop where
  | start (files : List File) : Moment policy workers chunkSize body files []
  | during {file : File} {files : List File} {tr : List (Event workers)}
      {s : State (runPipeline policy workers file chunkSize body)} :
      (system (runPipeline policy workers file chunkSize body)).Run tr s →
      Moment policy workers chunkSize body (file :: files) (performed tr)
  | next {file : File} {files : List File} {tr : List (Event workers)}
      {s : State (runPipeline policy workers file chunkSize body)} {result : policy.Accumulator}
      {effects : List Effect} :
      (system (runPipeline policy workers file chunkSize body)).Run tr s →
      s.main = .left (.ok result) → Moment policy workers chunkSize body files effects →
      Moment policy workers chunkSize body (file :: files) (performed tr ++ effects)

section Files

variable {policy : Policy} {workers chunkSize : ℕ}
variable {body : WorkItem → EStateM Exn policy.Accumulator Unit}
variable {r : Resources} {files : List File}

/-- **The leak adds up**: each mapped file costs a descriptor, and no mapping stays. -/
theorem after_callEffects (hfresh : r.OpensFresh (callEffects chunkSize files)) :
    (r.after (callEffects chunkSize files)).mappings = r.mappings ∧
      (r.after (callEffects chunkSize files)).descriptors.card =
        r.descriptors.card + files.countP fun file => file.Mapped := by
  induction files generalizing r with
  | nil => exact ⟨rfl, rfl⟩
  | cons file files ih =>
    rw [callEffects_cons, Resources.opensFresh_append] at hfresh
    rw [callEffects_cons, Resources.after_append]
    obtain ⟨hmappings, hcard⟩ := ih hfresh.2
    rw [hmappings, hcard]
    by_cases hmapped : file.Mapped
    · obtain ⟨fd, hnew, hafter⟩ := (chunkCall_exit file chunkSize).after_of_mapped hfresh.1 hmapped
      rw [hafter, Finset.card_insert_of_notMem hnew,
        List.countP_cons_of_pos (by simpa using hmapped)]
      exact ⟨rfl, by omega⟩
    · rw [(chunkCall_exit file chunkSize).after_of_not_mapped hfresh.1 hmapped,
        List.countP_cons_of_neg (by simpa using hmapped)]
      exact ⟨rfl, rfl⟩

/-- Over files that are not mapped, at most one more descriptor is open at every moment. -/
theorem Moment.card_descriptors_le {effects : List Effect}
    (h : Moment policy workers chunkSize body files effects)
    (hfresh : r.OpensFresh (callEffects chunkSize files)) (hnot : ∀ file ∈ files, ¬ file.Mapped) :
    (r.after effects).descriptors.card ≤ r.descriptors.card + 1 := by
  induction h with
  | start files => exact Nat.le_succ _
  | @during file files tr s hrun =>
    exact (chunkCall_exit file chunkSize).card_descriptors_le (Run.performed_prefix hrun)
  | @next file files tr s result effects hrun hleft _ ih =>
    rw [callEffects_cons, Resources.opensFresh_append] at hfresh
    have hfirst := (chunkCall_exit file chunkSize).after_of_not_mapped hfresh.1
      (hnot file List.mem_cons_self)
    rw [hfirst] at hfresh
    have hperformed : performed tr = (chunkCall file chunkSize).1 :=
      Run.performed_of_left hrun hleft
    rw [Resources.after_append, hperformed, hfirst]
    exact ih hfresh.2 fun file' hmem => hnot file' (List.mem_cons_of_mem _ hmem)

/-- **When `chunk` releases what it acquires.**  Over any files, every call of `chunk` leaves the
open descriptors and the mapped regions as they were, and at every moment of a command that runs the
pipeline for the files at most one more descriptor is open than at its start, if and only if no call
comes to its normal end with a mapping: each file cannot be opened, measured or mapped, or is
empty. -/
theorem chunk_releases_iff (policy : Policy) (workers chunkSize : ℕ)
    (body : WorkItem → EStateM Exn policy.Accumulator Unit) (r : Resources) (files : List File)
    (hfresh : r.OpensFresh (callEffects chunkSize files)) :
    ((∀ pre file post, files = pre ++ file :: post →
        r.after (callEffects chunkSize (pre ++ [file])) = r.after (callEffects chunkSize pre)) ∧
      ∀ effects, Moment policy workers chunkSize body files effects →
        (r.after effects).descriptors.card ≤ r.descriptors.card + 1) ↔
      ∀ file ∈ files, ¬ file.Mapped := by
  constructor
  · rintro ⟨hcalls, -⟩ file hmem
    obtain ⟨pre, post, rfl⟩ := List.append_of_mem hmem
    have hcall := hcalls pre file post rfl
    rw [callEffects_snoc, Resources.after_append] at hcall
    exact ((chunkCall_exit file chunkSize).after_eq_iff (opensFresh_call hfresh)).mp hcall
  · intro hnot
    refine ⟨?_, fun effects h => h.card_descriptors_le hfresh hnot⟩
    rintro pre file post rfl
    rw [callEffects_snoc, Resources.after_append]
    exact (chunkCall_exit file chunkSize).after_of_not_mapped (opensFresh_call hfresh)
      (hnot file (List.mem_append_right _ List.mem_cons_self))

end Files

/-- A process with the three standard streams. -/
def Resources.standard : Resources := ⟨{0, 1, 2}, 0⟩

/-- An empty file and one that cannot be mapped get the same descriptor one after the other. -/
theorem chunk_releases_two_files :
    let files : List File :=
      [⟨"empty.json", [], some 3, true, true, none⟩,
        ⟨"unmappable.json", [0x5b, 0x5d], some 3, true, false, none⟩]
    Resources.standard.OpensFresh (callEffects 1 files) ∧
      ∀ effects, Moment fingerprintPolicy 1 1 (fun _ => pure ()) files effects →
        (Resources.standard.after effects).descriptors.card ≤ 4 := by
  intro files
  have hfresh : Resources.standard.OpensFresh (callEffects 1 files) := by decide
  have hnot : ∀ file ∈ files, ¬ file.Mapped := by decide
  refine ⟨hfresh, ?_⟩
  exact ((chunk_releases_iff fingerprintPolicy 1 1 (fun _ => pure ()) Resources.standard files
    hfresh).mpr hnot).2

/-- **The descriptors pile up.**  A file of one line leaves its descriptor open, and after another
one there are two of them. -/
theorem chunk_releases_fails_on_readable_files :
    let file1 : File := ⟨"a.json", [0x5b, 0x5d, 0x0a], some 3, true, true, none⟩
    let file2 : File := ⟨"b.json", [0x7b, 0x7d, 0x0a], some 4, true, true, none⟩
    Resources.standard.OpensFresh (callEffects 1 [file1, file2]) ∧
      (chunkCall file1 1).2 = .ok () ∧ (chunkCall file2 1).2 = .ok () ∧
      (Resources.standard.after (callEffects 1 [file1])).descriptors = {0, 1, 2, 3} ∧
      (Resources.standard.after (callEffects 1 [file1, file2])).descriptors = {0, 1, 2, 3, 4} := by
  decide +kernel

end Dataprint
