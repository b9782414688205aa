import Dataprint.Paths

/-!
# Positions in a Document

A position is a context: a document with a hole, at any depth of objects and arrays.  The walk
of the whole document is the walk up to the hole, the walk of the value in it at the path
hash of the position, and the walk behind it.

- `Context.plug` puts a value into the hole, and `emissions_plug` splits the emissions there;
- `recordPolicy` keeps every hash in order, so that `run_record` reads off what a walk emits;
- `empty_container_position_lost` says that the hash of an empty container is not bound to its
  position, and that the hash of a scalar is.
-/

namespace Dataprint

open Foundations

/-- A document with a hole.  The member around the hole may have an unreadable key. -/
inductive Context where
  | hole
  | member (pre : List (Except ErrorCode Bytes × Element)) (key : Except ErrorCode Bytes)
      (inside : Context) (post : List (Except ErrorCode Bytes × Element))
      (err : Option ErrorCode)
  | element (pre : List Element) (inside : Context) (post : List Element)
      (err : Option ErrorCode)

/-- The document with a value in its hole. -/
def Context.plug : Context → Element → Element
  | .hole, e => e
  | .member pre key inside post err, e => .object (pre ++ (key, inside.plug e) :: post) err
  | .element pre inside post err, e => .array (pre ++ inside.plug e :: post) err

variable (env : Env)

/-- The path hash in the hole, below the path `path`. -/
def Context.path : Context → U64 → U64
  | .hole, path => path
  | .member _ (.ok key) inside _ _, path => inside.path ((PathStep.key key).child env path)
  -- not reached by the walk
  | .member _ (.error _) inside _ _, path => inside.path path
  | .element pre inside _ _, path =>
    inside.path ((PathStep.index (.ofNat 64 pre.length)).child env path)

/-- What is emitted before the hole. -/
def Context.before : Context → U64 → Emission
  | .hole, _ => .nil
  | .member pre (.ok key) inside _ _, path =>
    fieldsEmission env pre none path ++ inside.before ((PathStep.key key).child env path)
  | .member pre (.error e) _ _ _, path =>
    fieldsEmission env pre none path ++ .fail (.simdjsonError e)
  | .element pre inside _ _, path =>
    childrenEmission env pre none path 0 ++
      inside.before ((PathStep.index (.ofNat 64 pre.length)).child env path)

/-- What is emitted behind the hole. -/
def Context.after : Context → U64 → Emission
  | .hole, _ => .nil
  | .member _ (.ok key) inside post err, path =>
    inside.after ((PathStep.key key).child env path) ++ fieldsEmission env post err path
  | .member _ (.error _) _ _ _, _ => .nil
  | .element pre inside post err, path =>
    inside.after ((PathStep.index (.ofNat 64 pre.length)).child env path) ++
      childrenEmission env post err path (.ofNat 64 pre.length + 1)

/-! ## The walk around a position -/

theorem fieldsEmission_append (pre post : List (Except ErrorCode Bytes × Element))
    (err : Option ErrorCode) (path : U64) :
    fieldsEmission env (pre ++ post) err path =
      fieldsEmission env pre none path ++ fieldsEmission env post err path := by
  induction pre with
  | nil => rfl
  | cons field pre ih =>
    obtain ⟨key, value⟩ := field
    cases key with
    | ok key =>
      rw [List.cons_append, fieldsEmission, fieldsEmission, ih, Emission.append_assoc]
    | error e => rfl

/-- The index goes on where it stopped. -/
theorem childrenEmission_append (pre post : List Element) (err : Option ErrorCode)
    (path index : U64) :
    childrenEmission env (pre ++ post) err path index =
      childrenEmission env pre none path index ++
        childrenEmission env post err path (index + .ofNat 64 pre.length) := by
  induction pre generalizing index with
  | nil =>
    have hindex : index + .ofNat 64 0 = index := BitVec.add_zero index
    rw [List.length_nil, hindex]
    rfl
  | cons child pre ih =>
    have hindex : index + 1 + .ofNat 64 pre.length = index + .ofNat 64 (pre.length + 1) := by
      rw [BitVec.ofNat_add, BitVec.add_assoc, BitVec.add_comm 1]
      rfl
    rw [List.cons_append, childrenEmission, childrenEmission, ih, hindex, Emission.append_assoc,
      List.length_cons]

theorem isEmptyContainer_append_cons {α : Type} (pre : List α) (item : α) (post : List α)
    (err : Option ErrorCode) : isEmptyContainer (pre ++ item :: post) err = false := by
  cases pre <;> rfl

/-- **The walk passes through the position**: what stands before it, the value in the hole at
the path hash of the position, and what stands behind it. -/
theorem emissions_plug (ctx : Context) (e : Element) (path : U64) :
    emissions env (ctx.plug e) path =
      ctx.before env path ++ (emissions env e (ctx.path env path) ++ ctx.after env path) := by
  induction ctx generalizing path with
  | hole => rw [Context.before, Context.after, Emission.append_nil]; rfl
  | member pre key inside post err ih =>
    rw [Context.plug, emissions, isEmptyContainer_append_cons, if_neg Bool.false_ne_true,
      Emission.nil_append, fieldsEmission_append]
    cases key with
    | ok key =>
      rw [fieldsEmission, ih]
      simp only [Context.before, Context.path, Context.after, PathStep.child, PathStep.bytes,
        Emission.append_assoc]
    | error e =>
      -- the walk stops at the key, and nothing of the hole is emitted on either side
      rw [fieldsEmission, Context.before, Emission.append_assoc]
      rfl
  | element pre inside post err ih =>
    have hindex : (0 : U64) + .ofNat 64 pre.length = .ofNat 64 pre.length := BitVec.zero_add _
    rw [Context.plug, emissions, isEmptyContainer_append_cons, if_neg Bool.false_ne_true,
      Emission.nil_append, childrenEmission_append, childrenEmission, ih, hindex]
    simp only [Context.before, Context.path, Context.after, PathStep.child, PathStep.bytes,
      Emission.append_assoc]

/-! ## Recording -/

/-- The policy that keeps every hash in order. -/
abbrev recordPolicy : Policy where
  Accumulator := List U128
  init := []
  accumulate h := modify fun hashes => hashes ++ [h]
  reduce hashes' := modify fun hashes => hashes ++ hashes'

theorem run_forM_record (hashes acc : List U128) :
    (forM hashes recordPolicy.accumulate).run acc = .ok () (acc ++ hashes) := by
  induction hashes generalizing acc with
  | nil => rw [List.append_nil]; rfl
  | cons h hashes ih =>
    have hfirst : (recordPolicy.accumulate h).run acc = .ok () (acc ++ [h]) := rfl
    rw [List.forM_cons, EStateM.run_bind, hfirst]
    simpa using ih (acc ++ [h])

/-- The hashes emitted, and how the walk ends. -/
def Emission.result (x : Emission) : EStateM.Result Exn (List U128) Unit :=
  match x.error with
  | none => .ok () x.hashes
  | some e => .error e x.hashes

theorem Emission.result_eq_ok {x : Emission} {hashes : List U128} :
    x.result = .ok () hashes ↔ x = ⟨hashes, none⟩ := by
  obtain ⟨hs, err⟩ := x
  cases err <;> simp [result]

theorem Emission.result_eq_error {x : Emission} {e : Exn} {hashes : List U128} :
    x.result = .error e hashes ↔ x = ⟨hashes, some e⟩ := by
  obtain ⟨hs, err⟩ := x
  cases err <;> simp [result, and_comm]

/-- **A recorded walk** is the list of what is emitted, with the exception that ends it. -/
theorem run_record (e : Element) (path : U64) :
    (hashBasicValues env recordPolicy e path).run [] = (emissions env e path).result := by
  rw [hashBasicValues_eq_emit, emit, EStateM.run_bind, run_forM_record, List.nil_append,
    Emission.result]
  cases (emissions env e path).error <;> rfl

/-! ## Renaming a member -/

/-- A document with an object at some position, and a place among its members. -/
structure MemberSite where
  ctx : Context
  pre : List (Except ErrorCode Bytes × Element)
  post : List (Except ErrorCode Bytes × Element)
  err : Option ErrorCode

namespace MemberSite

/-- The document with a member in that place. -/
def document (m : MemberSite) (key : Bytes) (value : Element) : Element :=
  m.ctx.plug (.object (m.pre ++ (.ok key, value) :: m.post) m.err)

/-- The path hash of the member. -/
def path (m : MemberSite) (key : Bytes) : U64 := (PathStep.key key).child env (m.ctx.path env 0)

def before (m : MemberSite) : Emission :=
  m.ctx.before env 0 ++ fieldsEmission env m.pre none (m.ctx.path env 0)

def after (m : MemberSite) : Emission :=
  fieldsEmission env m.post m.err (m.ctx.path env 0) ++ m.ctx.after env 0

/-- Only the member itself depends on its key and its value. -/
theorem emissions_document (m : MemberSite) (key : Bytes) (value : Element) :
    emissions env (m.document key value) 0 =
      m.before env ++ (emissions env value (m.path env key) ++ m.after env) := by
  have hmember := emissions_plug env (.member m.pre (.ok key) .hole m.post m.err) value
    (m.ctx.path env 0)
  rw [document, emissions_plug]
  simp only [Context.plug] at hmember
  rw [hmember]
  simp only [Context.before, Context.path, Context.after, Emission.append_nil,
    Emission.nil_append, Emission.append_assoc, before, after, path]

/-- The hash of an empty container is a constant. -/
theorem emissions_empty {value : Element} (h : value = .object [] none ∨ value = .array [] none)
    (path path' : U64) : emissions env value path = emissions env value path' := by
  rcases h with rfl | rfl
  · rfl
  · rfl

/-- A walk that does not throw has reached the member. -/
theorem hashes_scalar {m : MemberSite} {key : Bytes} {t : Token} {h : XXH128Hash}
    (hhash : XXHash env (m.path env key) t = .ok h) {hashes : List U128}
    (hrun : (hashBasicValues env recordPolicy (m.document key (.scalar t)) 0).run [] =
      .ok () hashes) :
    hashes = (m.before env).hashes ++ combineU128 h :: (m.after env).hashes := by
  rw [run_record] at hrun
  have heq := Emission.result_eq_ok.mp hrun
  rw [emissions_document, emissions, hhash] at heq
  -- no exception before the member, so its emissions follow
  have hnone := Emission.append_error_eq_none.mp (congrArg Emission.error heq)
  generalize m.before env = b at heq hnone ⊢
  obtain ⟨hs, err⟩ := b
  cases hnone.1
  exact (congrArg Emission.hashes heq).symm

end MemberSite

/-- **The position of an empty container is lost.**  Renaming a member whose value is `{}` or
`[]`, anywhere in a document, changes nothing about what the walk emits, whatever the path hashes
are.  Renaming a member whose value is a scalar does change it, as long as the two hashes differ
that `XXHash` gives to the scalar at the two paths. -/
theorem empty_container_position_lost (m : MemberSite) (key key' : Bytes) :
    (∀ value : Element, value = .object [] none ∨ value = .array [] none →
      (hashBasicValues env recordPolicy (m.document key value) 0).run [] =
        (hashBasicValues env recordPolicy (m.document key' value) 0).run []) ∧
    ∀ (t : Token) (h h' : XXH128Hash) (hashes hashes' : List U128),
      XXHash env (m.path env key) t = .ok h → XXHash env (m.path env key') t = .ok h' →
      combineU128 h ≠ combineU128 h' →
      (hashBasicValues env recordPolicy (m.document key (.scalar t)) 0).run [] = .ok () hashes →
      (hashBasicValues env recordPolicy (m.document key' (.scalar t)) 0).run [] =
        .ok () hashes' →
      ¬ hashes.Perm hashes' := by
  constructor
  · intro value hvalue
    rw [run_record, run_record, m.emissions_document, m.emissions_document,
      MemberSite.emissions_empty env hvalue]
  · intro t h h' hashes hashes' hhash hhash' hne hrun hrun' hperm
    -- the two lists differ in one hash only, and no order makes up for it
    rw [MemberSite.hashes_scalar env hhash hrun, MemberSite.hashes_scalar env hhash' hrun',
      List.perm_append_left_iff] at hperm
    have hcons := Multiset.coe_eq_coe.mpr hperm
    rw [← Multiset.cons_coe, ← Multiset.cons_coe, Multiset.cons_inj_left] at hcons
    exact hne hcons

/-- A single member `a` or `b`, empty or null. -/
theorem empty_container_position_lost_single :
    let env := Env.plain .refusing
    let m : MemberSite := ⟨.hole, [], [], none⟩
    let null : Token := .ofText nullText
    (hashBasicValues env recordPolicy (m.document [0x61] (.array [] none)) 0).run [] =
      (hashBasicValues env recordPolicy (m.document [0x62] (.array [] none)) 0).run [] ∧
    ∃ hashes hashes', ¬ List.Perm hashes hashes' ∧
      (hashBasicValues env recordPolicy (m.document [0x61] (.scalar null)) 0).run [] =
        .ok () hashes ∧
      (hashBasicValues env recordPolicy (m.document [0x62] (.scalar null)) 0).run [] =
        .ok () hashes' := by
  intro env m null
  have hlost := empty_container_position_lost env m [0x61] [0x62]
  refine ⟨hlost.1 _ (.inr rfl), _, _, ?_, rfl, rfl⟩
  exact hlost.2 null _ _ _ _ rfl rfl (by decide) rfl rfl

/-- The documents `{"a":{}}` and `{"b":{}}`: the path hashes of the members differ,
so do the hashes that the constants of the empty object would give with the paths mixed in, and
still the same is emitted. -/
theorem equal_hashes_of_renamed_empty :
    let env := Env.plain .refusing
    let m : MemberSite := ⟨.hole, [], [], none⟩
    m.path env [0x61] ≠ m.path env [0x62] ∧
    combineU128 (mixHash 1 1 (m.path env [0x61])) ≠ combineU128 (mixHash 1 1 (m.path env [0x62])) ∧
    (hashBasicValues env recordPolicy (m.document [0x61] (.object [] none)) 0).run [] =
      .ok () [emptyObjectHash] ∧
    (hashBasicValues env recordPolicy (m.document [0x62] (.object [] none)) 0).run [] =
      .ok () [emptyObjectHash] := by
  refine ⟨by decide, by decide, rfl, rfl⟩

end Dataprint
