import Dataprint.Hashing
import Dataprint.Lines

/-!
# Order of Members and Records

Two documents that differ in the order of object members only, at any depth, emit the
same hashes up to order; so do two sequences of documents that differ in the order of
the documents as well.  Both policies are insensitive to that order.

- `Reorder` is the relation on documents: array elements keep their place, object
  members do not;
- `Emission.Equiv` is what it becomes on emissions, a congruence for which `++` commutes;
- `accumulated_reordered` carries it to the accumulators.
-/

namespace Dataprint

open Foundations

/-! ## The relation on documents -/

/-- `Reorder e e'`: the members of some objects inside `e` are permuted in `e'`. -/
inductive Reorder : Element → Element → Prop where
  | refl (e : Element) : Reorder e e
  | trans {e e' e'' : Element} : Reorder e e' → Reorder e' e'' → Reorder e e''
  /-- the members of an object in another order, equal keys included -/
  | members {fields fields' : List (Except ErrorCode Bytes × Element)} (err : Option ErrorCode) :
      fields.Perm fields' → Reorder (.object fields err) (.object fields' err)
  /-- inside the value of a member -/
  | member {value value' : Element} (pre post : List (Except ErrorCode Bytes × Element))
      (key : Except ErrorCode Bytes) (err : Option ErrorCode) :
      Reorder value value' →
        Reorder (.object (pre ++ (key, value) :: post) err)
          (.object (pre ++ (key, value') :: post) err)
  /-- inside an array element, which keeps its place -/
  | element {child child' : Element} (pre post : List Element) (err : Option ErrorCode) :
      Reorder child child' →
        Reorder (.array (pre ++ child :: post) err) (.array (pre ++ child' :: post) err)

/-- The documents reordered inside, and permuted. -/
def ReorderedDocuments (docs docs' : List Element) : Prop :=
  ∃ mid, List.Forall₂ Reorder docs mid ∧ mid.Perm docs'

/-! ## Emissions up to order -/

namespace Emission

/-- Both walks throw, or neither does and they emit the same hashes up to order. -/
structure Equiv (a b : Emission) : Prop where
  error : a.error.isSome = b.error.isSome
  hashes : a.error = none → a.hashes.Perm b.hashes

theorem Equiv.refl (a : Emission) : Equiv a a := ⟨rfl, fun _ => List.Perm.refl _⟩

theorem Equiv.error_eq_none {a b : Emission} (h : Equiv a b) (ha : a.error = none) :
    b.error = none := by
  have := h.error
  rw [ha] at this
  exact Option.isSome_eq_false_iff.mp this.symm |> Option.isNone_iff_eq_none.mp

theorem Equiv.trans {a b c : Emission} (h : Equiv a b) (h' : Equiv b c) : Equiv a c where
  error := h.error.trans h'.error
  hashes ha := (h.hashes ha).trans (h'.hashes (h.error_eq_none ha))

/-- Walks may be replaced inside a sequence of walks. -/
theorem Equiv.append {a a' b b' : Emission} (ha : Equiv a a') (hb : Equiv b b') :
    Equiv (a ++ b) (a' ++ b') := by
  obtain ⟨hs, e⟩ := a
  obtain ⟨hs', e'⟩ := a'
  have herr := ha.error
  cases e with
  | none =>
    cases e' with
    | none =>
      exact ⟨hb.error, fun hnone => (ha.hashes rfl).append (hb.hashes hnone)⟩
    | some e' => simp at herr
  | some e =>
    cases e' with
    | none => simp at herr
    | some e' => exact ⟨rfl, fun hnone => by simp [append_some] at hnone⟩

/-- Two walks in either order. -/
theorem Equiv.append_comm (a b : Emission) : Equiv (a ++ b) (b ++ a) := by
  obtain ⟨hs, e⟩ := a
  obtain ⟨hs', e'⟩ := b
  cases e with
  | none =>
    cases e' with
    | none => exact ⟨rfl, fun _ => List.perm_append_comm⟩
    | some e' => exact ⟨rfl, fun hnone => by simp [append_none] at hnone⟩
  | some e =>
    refine ⟨?_, fun hnone => by simp [append_some] at hnone⟩
    -- either way one of the two throws
    cases e' <;> simp [append_some, append_none]

theorem Equiv.append_left_comm (a b c : Emission) : Equiv (a ++ (b ++ c)) (b ++ (a ++ c)) := by
  rw [← append_assoc, ← append_assoc]
  exact (append_comm a b).append (.refl c)

/-- The walks over a list, up to order. -/
theorem Equiv.concat_perm {l l' : List Emission} (h : l.Perm l') (last : Emission) :
    Equiv (concat l last) (concat l' last) := by
  induction h with
  | nil => exact .refl _
  | cons a _ ih => exact (Equiv.refl a).append ih
  | swap a b l => exact append_left_comm b a _
  | trans _ _ ih ih' => exact ih.trans ih'

/-- The walks over a list, one by one. -/
theorem Equiv.concat_forall₂ {l l' : List Emission} (h : List.Forall₂ Equiv l l')
    (last : Emission) : Equiv (concat l last) (concat l' last) := by
  induction h with
  | nil => exact .refl _
  | cons hhead _ ih => exact hhead.append ih

end Emission

/-! ## Reordered documents emit the same hashes -/

variable (env : Env)

/-- What one field of an object emits. -/
def fieldEmission (path : U64) (field : Except ErrorCode Bytes × Element) : Emission :=
  match field.1 with
  | .ok key => emissions env field.2 (mix path (env.xxh3Bits64 key))
  | .error e => .fail (.simdjsonError e)

/-- The emission of the fields is that of one field after the other. -/
theorem fieldsEmission_eq_concat (fields : List (Except ErrorCode Bytes × Element))
    (err : Option ErrorCode) (path : U64) :
    fieldsEmission env fields err path =
      Emission.concat (fields.map (fieldEmission env path)) (ofEnd err) := by
  induction fields with
  | nil => rw [fieldsEmission]; rfl
  | cons field rest ih =>
    obtain ⟨key, value⟩ := field
    cases key with
    | ok key => rw [fieldsEmission, ih]; rfl
    | error e => rw [fieldsEmission]; rfl

/-- A field may be replaced by one that emits the same. -/
theorem fieldsEmission_congr {field field' : Except ErrorCode Bytes × Element} {path : U64}
    (h : (fieldEmission env path field).Equiv (fieldEmission env path field'))
    (pre post : List (Except ErrorCode Bytes × Element)) (err : Option ErrorCode) :
    (fieldsEmission env (pre ++ field :: post) err path).Equiv
      (fieldsEmission env (pre ++ field' :: post) err path) := by
  simp only [fieldsEmission_eq_concat]
  induction pre with
  | nil => exact h.append (.refl _)
  | cons f pre ih => exact (Emission.Equiv.refl _).append ih

/-- A child may be replaced where it stands: the index of every child stays. -/
theorem childrenEmission_congr {child child' : Element}
    (h : ∀ path, (emissions env child path).Equiv (emissions env child' path))
    (pre post : List Element) (err : Option ErrorCode) (path index : U64) :
    (childrenEmission env (pre ++ child :: post) err path index).Equiv
      (childrenEmission env (pre ++ child' :: post) err path index) := by
  induction pre generalizing index with
  | nil =>
    simp only [List.nil_append, childrenEmission]
    exact (h _).append (.refl _)
  | cons c pre ih =>
    simp only [List.cons_append, childrenEmission]
    exact (Emission.Equiv.refl _).append (ih _)

/-- **Reordered documents emit the same hashes** below every path. -/
theorem Reorder.emissions_equiv {e e' : Element} (h : Reorder e e') :
    ∀ path, (emissions env e path).Equiv (emissions env e' path) := by
  induction h with
  | refl e => exact fun path => .refl _
  | trans _ _ ih ih' => exact fun path => (ih path).trans (ih' path)
  | members err hperm =>
    intro path
    have hempty : isEmptyContainer _ err = isEmptyContainer _ err :=
      congrArg (· && err.isNone) hperm.isEmpty_eq
    simp only [emissions, fieldsEmission_eq_concat, hempty]
    exact (Emission.Equiv.refl _).append (.concat_perm (hperm.map _) _)
  | @member value value' pre post key err _ ih =>
    intro path
    have hfield : (fieldEmission env path (key, value)).Equiv
        (fieldEmission env path (key, value')) := by
      cases key with
      | ok key => exact ih _
      | error e => exact .refl _
    simp only [emissions]
    -- the object is nonempty before and after
    refine Emission.Equiv.append ?_ (fieldsEmission_congr env hfield pre post err)
    cases pre <;> exact .refl _
  | element pre post err _ ih =>
    intro path
    simp only [emissions]
    refine Emission.Equiv.append ?_ (childrenEmission_congr env ih pre post err path 0)
    cases pre <;> exact .refl _

theorem ReorderedDocuments.emission_equiv {docs docs' : List Element}
    (h : ReorderedDocuments docs docs') :
    (documentsEmission env docs).Equiv (documentsEmission env docs') := by
  obtain ⟨mid, hinside, hperm⟩ := h
  have hmap : List.Forall₂ Emission.Equiv (docs.map fun doc => emissions env doc 0)
      (mid.map fun doc => emissions env doc 0) := by
    rw [List.forall₂_map_left_iff, List.forall₂_map_right_iff]
    exact hinside.imp fun _ _ hr => hr.emissions_equiv env 0
  exact (Emission.Equiv.concat_forall₂ hmap _).trans (.concat_perm (hperm.map _) _)

/-! ## Accumulators -/

/-- Two computations both throw, or both succeed in related states. -/
inductive SameOutcome {ε σ : Type} (R : σ → σ → Prop) :
    EStateM.Result ε σ Unit → EStateM.Result ε σ Unit → Prop where
  | ok {s s' : σ} : R s s' → SameOutcome R (.ok () s) (.ok () s')
  | error (e e' : ε) (s s' : σ) : SameOutcome R (.error e s) (.error e' s')

/-- A mergeable policy cannot tell equivalent emissions apart. -/
theorem sameOutcome_emit {P : Policy} {R : Multiset U128 → P.Accumulator → Prop}
    (hP : Mergeable P.init P.accumulate P.reduce R) {a b : Emission} (h : a.Equiv b) :
    SameOutcome (fun s s' => ∃ m, R m s ∧ R m s') ((emit P a).run P.init)
      ((emit P b).run P.init) := by
  obtain ⟨s, hs, hrun⟩ := run_emit hP a hP.init
  obtain ⟨s', hs', hrun'⟩ := run_emit hP b hP.init
  rw [hrun, hrun']
  have herr := h.error
  cases ha : a.error with
  | none =>
    rw [h.error_eq_none ha]
    refine .ok ⟨_, hs, ?_⟩
    rwa [Multiset.coe_eq_coe.mpr (h.hashes ha)]
  | some e =>
    cases hb : b.error with
    | none => simp [ha, hb] at herr
    | some e' => exact .error e e' s s'

theorem SameOutcome.imp {ε σ : Type} {R R' : σ → σ → Prop} (himp : ∀ s s', R s s' → R' s s')
    {r r' : EStateM.Result ε σ Unit} (h : SameOutcome R r r') : SameOutcome R' r r' := by
  cases h with
  | ok h => exact .ok (himp _ _ h)
  | error e e' s s' => exact .error e e' s s'

/-- **Neither policy sees the order of members or records.**  If one sequence of documents
is the other with documents permuted, and members of objects permuted at any depth, then either
both throw, or the fingerprints are equal and the sketches hold the same hashes. -/
theorem accumulated_reordered (docs docs' : List Element) (h : ReorderedDocuments docs docs') :
    SameOutcome (fun m m' => m = m')
      ((hashDocuments env fingerprintPolicy docs).run FingerprintPolicy.init)
      ((hashDocuments env fingerprintPolicy docs').run FingerprintPolicy.init) ∧
    SameOutcome (fun acc acc' => acc.hashes = acc'.hashes ∧ ∀ x, x ∈ acc.seen ↔ x ∈ acc'.seen)
      ((hashDocuments env minKPolicy docs).run MinKPolicy.init)
      ((hashDocuments env minKPolicy docs').run MinKPolicy.init) := by
  have hequiv := h.emission_equiv env
  simp only [hashDocuments_eq_emit]
  constructor
  · refine (sameOutcome_emit (P := fingerprintPolicy) fingerprintPolicy_mergeable hequiv).imp ?_
    rintro s s' ⟨m, hs, hs'⟩
    exact hs.unique hs'
  · refine (sameOutcome_emit (P := minKPolicy) minKPolicy_mergeable hequiv).imp ?_
    rintro s s' ⟨m, hs, hs'⟩
    refine ⟨hs.hashes_eq.trans hs'.hashes_eq.symm, fun x => ?_⟩
    rw [hs.mem_seen, hs'.mem_seen]

/-- An object with two members in either order, before and after an empty array. -/
theorem accumulated_reordered_members :
    SameOutcome (fun m m' => m = m')
      ((hashDocuments (Env.plain (Simdjson.ofLines parseEmpty)) fingerprintPolicy
        [.object [(.ok [0x61], .array [] none), (.ok [0x62], .object [] none)] none,
          .array [] none]).run FingerprintPolicy.init)
      ((hashDocuments (Env.plain (Simdjson.ofLines parseEmpty)) fingerprintPolicy
        [.array [] none,
          .object [(.ok [0x62], .object [] none), (.ok [0x61], .array [] none)] none]).run
            FingerprintPolicy.init) := by
  have hinside := Reorder.members none
    (List.Perm.swap (.ok [0x62], .object [] none) (.ok [0x61], .array [] none) [])
  exact (accumulated_reordered _ _ _
    ⟨_, .cons hinside (.cons (.refl _) .nil), List.Perm.swap _ _ []⟩).1

end Dataprint
