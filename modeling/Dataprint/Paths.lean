import Dataprint.Hashing

/-!
# Path Hashes of Siblings

A value below another one is reached by one step, an object key or an array index, and its
path hash is the parent's with the hash of the step mixed in (`src/processor.cpp`).  A key is
hashed as its own bytes and an index as those of an `ArrayIndexPrefix`, whose brackets are to
keep the two apart.

- `mix_injective` — no two hashes are mixed alike into one parent;
- `PathStep.bytes_inj` — no two steps have the same bytes, except that a key may be the 24
  bytes of an index;
- `sibling_paths_differ` puts them together.
-/

namespace Dataprint

/-- **Mixing loses nothing** of the key: it is added to a constant of the parent. -/
theorem mix_injective (h : U64) : Function.Injective (mix h) := by
  intro k k' heq
  have hsum := (BitVec.xor_right_inj h).mp heq
  rw [BitVec.add_assoc, BitVec.add_assoc, BitVec.add_assoc, BitVec.add_assoc] at hsum
  exact (BitVec.add_left_inj _).mp hsum

theorem arrayIndexPrefix_injective : Function.Injective arrayIndexPrefix := by
  intro i i' h
  unfold arrayIndexPrefix at h
  -- the brackets have a fixed length, so the index stands in one place
  have hindex := List.append_inj_right (List.append_inj_left h (by simp)) rfl
  exact leBytes_toNat_injective (Nat.le_refl 64) hindex

/-- A step from a value to one inside it. -/
inductive PathStep where
  | key (bytes : Bytes)
  | index (i : U64)
  deriving DecidableEq

/-- What is hashed for a step. -/
def PathStep.bytes : PathStep → Bytes
  | .key bytes => bytes
  | .index i => arrayIndexPrefix i

/-- The path hash below a step. -/
def PathStep.child (env : Env) (path : U64) (step : PathStep) : U64 :=
  mix path (env.xxh3Bits64 step.bytes)

/-- A key is the bytes of an index. -/
def PathStep.Imitates (step step' : PathStep) : Prop :=
  ∃ i, step = .key (arrayIndexPrefix i) ∧ step' = .index i

/-- **Different steps have different bytes**, unless a key imitates an index. -/
theorem PathStep.bytes_inj {step step' : PathStep} (hne : step ≠ step') :
    step.bytes = step'.bytes ↔ step.Imitates step' ∨ step'.Imitates step := by
  constructor
  · intro h
    cases step with
    | key bytes =>
      cases step' with
      | key bytes' => exact absurd (congrArg key h) hne
      | index i => exact .inl ⟨i, congrArg key h, rfl⟩
    | index i =>
      cases step' with
      | key bytes' => exact .inr ⟨i, congrArg key h.symm, rfl⟩
      | index i' => exact absurd (congrArg index (arrayIndexPrefix_injective h)) hne
  · rintro (⟨i, rfl, rfl⟩ | ⟨i, rfl, rfl⟩)
    · rfl
    · rfl

/-- **When siblings have different path hashes**: below any parent, two different steps lead to
different hashes, if XXH3 keeps their bytes apart, unless one is a key of the very bytes that the
other, an index, is hashed as. -/
theorem sibling_paths_differ (env : Env) (path : U64) (step step' : PathStep)
    (hne : step ≠ step')
    (hxxh : step.bytes ≠ step'.bytes → env.xxh3Bits64 step.bytes ≠ env.xxh3Bits64 step'.bytes) :
    step.child env path ≠ step'.child env path ↔
      ¬ step.Imitates step' ∧ ¬ step'.Imitates step := by
  rw [← not_or, ← PathStep.bytes_inj hne, not_iff_not]
  constructor
  · intro hchild
    by_contra hbytes
    exact hxxh hbytes (mix_injective path hchild)
  · intro hbytes
    rw [PathStep.child, PathStep.child, hbytes]

/-- The keys `a` and `b`. -/
theorem sibling_paths_differ_keys :
    let env := Env.plain .refusing
    (PathStep.key [0x61]).child env 0 ≠ (PathStep.key [0x62]).child env 0 := by
  intro env
  refine (sibling_paths_differ env 0 _ _ (by decide) (fun _ => by decide)).mpr ⟨?_, ?_⟩
  · rintro ⟨i, -, hindex⟩
    cases hindex
  · rintro ⟨i, -, hindex⟩
    cases hindex

/-- The key of the 24 bytes of index zero: an object with this one member and an array with this
one element emit the same hashes, whatever the value. -/
theorem key_imitates_index :
    PathStep.key (arrayIndexPrefix 0) ≠ .index 0 ∧
    ∀ (env : Env) (path : U64) (value : Element),
      (PathStep.key (arrayIndexPrefix 0)).child env path = (PathStep.index 0).child env path ∧
      emissions env (.object [(.ok (arrayIndexPrefix 0), value)] none) path =
        emissions env (.array [value] none) path := by
  refine ⟨by decide, fun env path value => ⟨rfl, ?_⟩⟩
  simp only [emissions, fieldsEmission, childrenEmission, isEmptyContainer, List.isEmpty_cons,
    Bool.false_and, Bool.false_eq_true, if_false]

end Dataprint
