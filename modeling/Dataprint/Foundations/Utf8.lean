import Mathlib.Tactic.Common

/-!
# UTF-8, One Byte at a Time

A text is UTF-8 if it is the encoding of some characters.  `decode` reads it byte by byte and keeps
only how many bytes of a character are missing, and between which bounds the next one lies.

- `isUtf8_iff` — a text is UTF-8 exactly if it is read to the end of a character.
-/

namespace Foundations

/-- The encoding of some characters. -/
def IsUtf8 (bytes : List UInt8) : Prop :=
  ∃ chars : List Char, bytes = chars.flatMap String.utf8EncodeChar

/-- Where in a character a reader is: the number of missing bytes, and the bounds of the next. -/
structure Position where
  missing : ℕ
  low : ℕ
  high : ℕ
  deriving DecidableEq, Repr

namespace Position

/-- Before any continuation byte, and between characters. -/
def before (missing : ℕ) : Position := ⟨missing, 0x80, 0xbf⟩

def betweenChars : Position := before 0

/-- Nothing can follow. -/
def stuck : Position := ⟨1, 1, 0⟩

/-- After the first byte of a character.  The bounds exclude overlong encodings, surrogates and what
is too large; a byte that is in no encoding at all is refused together with the one after it. -/
def lead (b : ℕ) : Option Position :=
  if b < 0x80 then some betweenChars
  else if b < 0xc0 then none
  else if b < 0xc2 then some stuck
  else if b < 0xe0 then some (before 1)
  else if b < 0xf0 then
    some ⟨2, if b = 0xe0 then 0xa0 else 0x80, if b = 0xed then 0x9f else 0xbf⟩
  else if b < 0xf5 then
    some ⟨3, if b = 0xf0 then 0x90 else 0x80, if b = 0xf4 then 0x8f else 0xbf⟩
  else some stuck

section Lead

variable {b : ℕ}

theorem lead_one (h : b < 0x80) : lead b = some betweenChars := by
  simp [lead, h]

theorem lead_continuation (h : 0x80 ≤ b ∧ b < 0xc0) : lead b = none := by
  simp [lead, show ¬ b < 0x80 by omega, h.2]

theorem lead_two (h : 0xc2 ≤ b ∧ b < 0xe0) : lead b = some (before 1) := by
  simp [lead, show ¬ b < 0x80 by omega, show ¬ b < 0xc0 by omega, show ¬ b < 0xc2 by omega, h.2]

theorem lead_three (h : 0xe0 ≤ b ∧ b < 0xf0) :
    lead b = some ⟨2, if b = 0xe0 then 0xa0 else 0x80, if b = 0xed then 0x9f else 0xbf⟩ := by
  simp [lead, show ¬ b < 0x80 by omega, show ¬ b < 0xc0 by omega, show ¬ b < 0xc2 by omega,
    show ¬ b < 0xe0 by omega, h.2]

theorem lead_four (h : 0xf0 ≤ b ∧ b < 0xf5) :
    lead b = some ⟨3, if b = 0xf0 then 0x90 else 0x80, if b = 0xf4 then 0x8f else 0xbf⟩ := by
  simp [lead, show ¬ b < 0x80 by omega, show ¬ b < 0xc0 by omega, show ¬ b < 0xc2 by omega,
    show ¬ b < 0xe0 by omega, show ¬ b < 0xf0 by omega, h.2]

theorem lead_stuck (h : 0xc0 ≤ b ∧ b < 0xc2 ∨ 0xf5 ≤ b) : lead b = some stuck := by
  rcases h with ⟨hlow, hhigh⟩ | h
  · simp [lead, show ¬ b < 0x80 by omega, show ¬ b < 0xc0 by omega, hhigh]
  · simp [lead, show ¬ b < 0x80 by omega, show ¬ b < 0xc0 by omega, show ¬ b < 0xc2 by omega,
      show ¬ b < 0xe0 by omega, show ¬ b < 0xf0 by omega, show ¬ b < 0xf5 by omega]

/-- What the first byte of a longer character may lead to. -/
theorem lead_cases {p : Position} (h : 0xc0 ≤ b) (hp : lead b = some p) :
    p = stuck ∨
    (0xc2 ≤ b ∧ b < 0xe0 ∧ p = before 1) ∨
    (0xe0 ≤ b ∧ b < 0xf0 ∧
      p = ⟨2, if b = 0xe0 then 0xa0 else 0x80, if b = 0xed then 0x9f else 0xbf⟩) ∨
    (0xf0 ≤ b ∧ b < 0xf5 ∧
      p = ⟨3, if b = 0xf0 then 0x90 else 0x80, if b = 0xf4 then 0x8f else 0xbf⟩) := by
  rcases Nat.lt_or_ge b 0xc2 with hstuck | hc2
  · rw [lead_stuck (.inl ⟨h, hstuck⟩)] at hp
    exact .inl (Option.some.inj hp).symm
  rcases Nat.lt_or_ge b 0xe0 with h2 | he0
  · rw [lead_two ⟨hc2, h2⟩] at hp
    exact .inr (.inl ⟨hc2, h2, (Option.some.inj hp).symm⟩)
  rcases Nat.lt_or_ge b 0xf0 with h3 | hf0
  · rw [lead_three ⟨he0, h3⟩] at hp
    exact .inr (.inr (.inl ⟨he0, h3, (Option.some.inj hp).symm⟩))
  rcases Nat.lt_or_ge b 0xf5 with h4 | hf5
  · rw [lead_four ⟨hf0, h4⟩] at hp
    exact .inr (.inr (.inr ⟨hf0, h4, (Option.some.inj hp).symm⟩))
  · rw [lead_stuck (.inr hf5)] at hp
    exact .inl (Option.some.inj hp).symm

/-- The next byte of a character is a continuation byte. -/
theorem bounds_of_lead {p : Position} (hp : lead b = some p) :
    p.high ≤ 0xbf ∧ (0x80 ≤ p.low ∨ p.high < p.low) := by
  rcases Nat.lt_or_ge b 0xc0 with hlt | hge
  · unfold lead at hp
    split_ifs at hp
    cases hp
    exact ⟨Nat.le_refl _, .inl (Nat.le_refl _)⟩
  · rcases lead_cases hge hp with rfl | ⟨-, -, rfl⟩ | ⟨-, -, rfl⟩ | ⟨-, -, rfl⟩
    · exact ⟨Nat.zero_le _, .inr Nat.zero_lt_one⟩
    · exact ⟨Nat.le_refl _, .inl (Nat.le_refl _)⟩
    all_goals
      dsimp only
      constructor
      · split <;> decide
      · left
        split <;> decide

theorem exists_lead (h : 0xc0 ≤ b) : ∃ p, lead b = some p := by
  unfold lead
  split_ifs
  case pos h' => omega
  case pos _ h' => omega
  all_goals exact ⟨_, rfl⟩

end Lead

/-- One byte further. -/
def step (p : Position) (b : UInt8) : Option Position :=
  match p.missing with
  | 0 => lead b.toNat
  | n + 1 => if p.low ≤ b.toNat ∧ b.toNat ≤ p.high then some (before n) else none

/-- A number of bytes further. -/
def decode (p : Position) : List UInt8 → Option Position
  | [] => some p
  | b :: bytes => (p.step b).bind fun q => q.decode bytes

@[simp] theorem decode_nil (p : Position) : p.decode [] = some p := rfl

theorem decode_cons (p : Position) (b : UInt8) (bytes : List UInt8) :
    p.decode (b :: bytes) = (p.step b).bind fun q => q.decode bytes := rfl

theorem decode_append (p : Position) (bytes bytes' : List UInt8) :
    p.decode (bytes ++ bytes') = (p.decode bytes).bind fun q => q.decode bytes' := by
  induction bytes generalizing p with
  | nil => rfl
  | cons b bytes ih =>
    rw [List.cons_append, decode_cons, decode_cons]
    cases p.step b with
    | none => rfl
    | some q => exact ih q

theorem step_betweenChars (b : UInt8) : betweenChars.step b = lead b.toNat := rfl

/-- A continuation byte. -/
theorem step_missing {n low high : ℕ} {b : UInt8} (hlow : low ≤ b.toNat) (hhigh : b.toNat ≤ high) :
    (⟨n + 1, low, high⟩ : Position).step b = some (before n) :=
  if_pos ⟨hlow, hhigh⟩

/-- ASCII between characters. -/
theorem decode_ascii {bytes : List UInt8} (h : ∀ b ∈ bytes, b.toNat < 0x80) :
    betweenChars.decode bytes = some betweenChars := by
  induction bytes with
  | nil => rfl
  | cons b bytes ih =>
    rw [decode_cons, step_betweenChars, lead_one (h b List.mem_cons_self)]
    exact ih fun c hc => h c (List.mem_cons_of_mem _ hc)

/-- What was read inside of a character begins with a continuation byte. -/
theorem exists_cons_of_decode {n low high : ℕ} {bytes : List UInt8}
    (h : (⟨n + 1, low, high⟩ : Position).decode bytes = some betweenChars) :
    ∃ b rest, bytes = b :: rest ∧ (low ≤ b.toNat ∧ b.toNat ≤ high) ∧
      (before n).decode rest = some betweenChars := by
  cases bytes with
  | nil => cases h
  | cons b rest =>
    rw [decode_cons] at h
    by_cases hb : low ≤ b.toNat ∧ b.toNat ≤ high
    · rw [step_missing hb.1 hb.2] at h
      exact ⟨b, rest, rfl, hb, h⟩
    · have hstep : (⟨n + 1, low, high⟩ : Position).step b = none := if_neg hb
      rw [hstep] at h
      cases h

theorem decode_stuck (bytes : List UInt8) : stuck.decode bytes ≠ some betweenChars := by
  intro h
  obtain ⟨b, -, -, hb, -⟩ := exists_cons_of_decode h
  omega

end Position

open Position

/-! ## One character -/

section Encode

variable {c : Char}

theorem utf8EncodeChar_one (h : c.toNat < 0x80) :
    String.utf8EncodeChar c = [UInt8.ofNat c.toNat] := by
  rw [Char.toNat] at h ⊢
  rw [String.utf8EncodeChar, if_pos (by omega)]

theorem utf8EncodeChar_two (h : 0x80 ≤ c.toNat) (h' : c.toNat < 0x800) :
    String.utf8EncodeChar c =
      [UInt8.ofNat (c.toNat / 64 % 32 + 0xc0), UInt8.ofNat (c.toNat % 64 + 0x80)] := by
  rw [Char.toNat] at h h' ⊢
  rw [String.utf8EncodeChar, if_neg (by omega), if_pos (by omega)]

theorem utf8EncodeChar_three (h : 0x800 ≤ c.toNat) (h' : c.toNat < 0x10000) :
    String.utf8EncodeChar c =
      [UInt8.ofNat (c.toNat / 4096 % 16 + 0xe0), UInt8.ofNat (c.toNat / 64 % 64 + 0x80),
        UInt8.ofNat (c.toNat % 64 + 0x80)] := by
  rw [Char.toNat] at h h' ⊢
  rw [String.utf8EncodeChar, if_neg (by omega), if_neg (by omega), if_pos (by omega)]

theorem utf8EncodeChar_four (h : 0x10000 ≤ c.toNat) :
    String.utf8EncodeChar c =
      [UInt8.ofNat (c.toNat / 262144 % 8 + 0xf0), UInt8.ofNat (c.toNat / 4096 % 64 + 0x80),
        UInt8.ofNat (c.toNat / 64 % 64 + 0x80), UInt8.ofNat (c.toNat % 64 + 0x80)] := by
  rw [Char.toNat] at h ⊢
  rw [String.utf8EncodeChar, if_neg (by omega), if_neg (by omega), if_neg (by omega)]

end Encode

theorem toNat_valid (c : Char) : c.toNat < 0xd800 ∨ 0xdfff < c.toNat ∧ c.toNat < 0x110000 := c.valid

theorem toNat_ofNat_add {n k : ℕ} (h : n + k < 256) : (UInt8.ofNat (n + k)).toNat = n + k := by
  rw [UInt8.toNat_ofNat', Nat.mod_eq_of_lt h]

/-- One more continuation byte of a character. -/
theorem decode_cons_missing {n low high k : ℕ} {bytes : List UInt8} (hk : k < 64)
    (hlow : low ≤ k + 0x80) (hhigh : k + 0x80 ≤ high) :
    (⟨n + 1, low, high⟩ : Position).decode (UInt8.ofNat (k + 0x80) :: bytes) =
      (before n).decode bytes := by
  rw [decode_cons, step_missing]
  · rfl
  · rwa [toNat_ofNat_add (by omega)]
  · rwa [toNat_ofNat_add (by omega)]

/-- **An encoded character is read to its end.** -/
theorem decode_utf8EncodeChar (c : Char) :
    betweenChars.decode (String.utf8EncodeChar c) = some betweenChars := by
  have hvalid := toNat_valid c
  rcases Nat.lt_or_ge c.toNat 0x80 with h1 | h80
  · have hlead : lead (UInt8.ofNat (c.toNat + 0)).toNat = some betweenChars := by
      rw [toNat_ofNat_add (by omega)]
      exact lead_one h1
    rw [utf8EncodeChar_one h1, decode_cons, step_betweenChars, ← Nat.add_zero c.toNat, hlead]
    rfl
  rcases Nat.lt_or_ge c.toNat 0x800 with h2 | h800
  · rw [utf8EncodeChar_two h80 h2, decode_cons, step_betweenChars, toNat_ofNat_add (by omega),
      lead_two (by omega)]
    show (before 1).decode _ = _
    rw [before, decode_cons_missing (by omega) (by omega) (by omega)]
    rfl
  rcases Nat.lt_or_ge c.toNat 0x10000 with h3 | h10000
  · rw [utf8EncodeChar_three h800 h3, decode_cons, step_betweenChars, toNat_ofNat_add (by omega),
      lead_three (by omega)]
    show Position.decode ⟨2, _, _⟩ _ = _
    rw [decode_cons_missing, before, decode_cons_missing (by omega) (by omega) (by omega)]
    · rfl
    · omega
    · split <;> omega
    · split <;> omega
  · rw [utf8EncodeChar_four h10000, decode_cons, step_betweenChars, toNat_ofNat_add (by omega),
      lead_four (by omega)]
    show Position.decode ⟨3, _, _⟩ _ = _
    rw [decode_cons_missing, before, decode_cons_missing (by omega) (by omega) (by omega), before,
      decode_cons_missing (by omega) (by omega) (by omega)]
    · rfl
    · omega
    · split <;> omega
    · split <;> omega

/-- A valid code point has a character. -/
theorem exists_char {v : ℕ} (h : v < 0xd800 ∨ 0xdfff < v ∧ v < 0x110000) :
    ∃ c : Char, c.toNat = v := by
  have hsize : v < UInt32.size := by
    simp only [UInt32.size]
    omega
  exact ⟨⟨.ofNatLT v hsize, h⟩, UInt32.toNat_ofNatLT⟩

theorem eq_ofNat_of_toNat {b : UInt8} {n : ℕ} (h : b.toNat = n) : b = UInt8.ofNat n := by
  rw [← h, UInt8.ofNat_toNat]

/-- **What is read to the end begins with a character.** -/
theorem exists_char_of_decode {b : UInt8} {bytes : List UInt8}
    (h : betweenChars.decode (b :: bytes) = some betweenChars) :
    ∃ c rest, b :: bytes = String.utf8EncodeChar c ++ rest ∧
      betweenChars.decode rest = some betweenChars := by
  rw [decode_cons, step_betweenChars] at h
  have hb := b.toNat_lt
  rcases Nat.lt_or_ge b.toNat 0x80 with h1 | h80
  · rw [lead_one h1] at h
    obtain ⟨c, hcv⟩ := exists_char (v := b.toNat) (by omega)
    refine ⟨c, bytes, ?_, h⟩
    rw [utf8EncodeChar_one (by omega), hcv, UInt8.ofNat_toNat]
    rfl
  rcases Nat.lt_or_ge b.toNat 0xc0 with hcontinuation | hc0
  · rw [lead_continuation ⟨h80, hcontinuation⟩] at h
    cases h
  obtain ⟨p, hp⟩ := exists_lead hc0
  rw [hp] at h
  -- the first byte says how many follow, and the code point is put together from their bits
  obtain rfl | ⟨hc2, h2, rfl⟩ | ⟨he0, h3, rfl⟩ | ⟨hf0, h4, rfl⟩ := lead_cases hc0 hp
  · exact absurd h (decode_stuck bytes)
  · obtain ⟨x, rest, rfl, hx, hrest⟩ := exists_cons_of_decode h
    obtain ⟨c, hcv⟩ := exists_char (v := b.toNat % 32 * 64 + x.toNat % 64) (by omega)
    refine ⟨c, rest, ?_, hrest⟩
    rw [utf8EncodeChar_two (by omega) (by omega),
      @eq_ofNat_of_toNat b (c.toNat / 64 % 32 + 0xc0) (by omega),
      @eq_ofNat_of_toNat x (c.toNat % 64 + 0x80) (by omega)]
    rfl
  · obtain ⟨x, _, rfl, hx, h⟩ := exists_cons_of_decode h
    obtain ⟨y, rest, rfl, hy, hrest⟩ := exists_cons_of_decode h
    have hx80 : 0x80 ≤ x.toNat ∧ x.toNat ≤ 0xbf := by
      split at hx <;> split at hx <;> omega
    obtain ⟨c, hcv⟩ := exists_char
      (v := b.toNat % 16 * 4096 + x.toNat % 64 * 64 + y.toNat % 64) (by
        split at hx <;> split at hx <;> omega)
    have hlow : 0x800 ≤ c.toNat := by
      split at hx <;> omega
    refine ⟨c, rest, ?_, hrest⟩
    rw [utf8EncodeChar_three hlow (by omega),
      @eq_ofNat_of_toNat b (c.toNat / 4096 % 16 + 0xe0) (by omega),
      @eq_ofNat_of_toNat x (c.toNat / 64 % 64 + 0x80) (by omega),
      @eq_ofNat_of_toNat y (c.toNat % 64 + 0x80) (by omega)]
    rfl
  · obtain ⟨x, _, rfl, hx, h⟩ := exists_cons_of_decode h
    obtain ⟨y, _, rfl, hy, h⟩ := exists_cons_of_decode h
    obtain ⟨z, rest, rfl, hz, hrest⟩ := exists_cons_of_decode h
    have hx80 : 0x80 ≤ x.toNat ∧ x.toNat ≤ 0xbf := by
      split at hx <;> split at hx <;> omega
    obtain ⟨c, hcv⟩ := exists_char
      (v := b.toNat % 8 * 262144 + x.toNat % 64 * 4096 + y.toNat % 64 * 64 + z.toNat % 64) (by
        split at hx <;> split at hx <;> omega)
    have hlow : 0x10000 ≤ c.toNat := by
      split at hx <;> omega
    refine ⟨c, rest, ?_, hrest⟩
    rw [utf8EncodeChar_four hlow,
      @eq_ofNat_of_toNat b (c.toNat / 262144 % 8 + 0xf0) (by omega),
      @eq_ofNat_of_toNat x (c.toNat / 4096 % 64 + 0x80) (by omega),
      @eq_ofNat_of_toNat y (c.toNat / 64 % 64 + 0x80) (by omega),
      @eq_ofNat_of_toNat z (c.toNat % 64 + 0x80) (by omega)]
    rfl

/-! ## All of them -/

theorem isUtf8_nil : IsUtf8 [] := ⟨[], rfl⟩

/-- **A text is UTF-8 exactly if it is read to the end of a character.** -/
theorem isUtf8_iff (bytes : List UInt8) :
    IsUtf8 bytes ↔ betweenChars.decode bytes = some betweenChars := by
  constructor
  · rintro ⟨chars, rfl⟩
    induction chars with
    | nil => rfl
    | cons c chars ih =>
      rw [List.flatMap_cons, decode_append, decode_utf8EncodeChar]
      exact ih
  · -- each character has at least one byte
    induction hlen : bytes.length using Nat.strongRecOn generalizing bytes with
    | _ len ih =>
      intro h
      cases bytes with
      | nil => exact isUtf8_nil
      | cons b bytes =>
        obtain ⟨c, rest, hsplit, hrest⟩ := exists_char_of_decode h
        have hshorter : rest.length < len := by
          have hsum := congrArg List.length hsplit
          rw [List.length_append, String.length_utf8EncodeChar] at hsum
          have hpos := c.utf8Size_pos
          omega
        obtain ⟨chars, rfl⟩ := ih rest.length hshorter rest rfl hrest
        exact ⟨c :: chars, hsplit⟩

/-! ## Parts of a text -/

namespace Position

/-- A byte is at most one of those that are missing. -/
theorem missing_le_of_decode {p q : Position} {bytes : List UInt8} (h : p.decode bytes = some q) :
    p.missing ≤ q.missing + bytes.length := by
  induction bytes generalizing p with
  | nil =>
    cases h
    exact Nat.le_refl _
  | cons b bytes ih =>
    rw [decode_cons, Option.bind_eq_some_iff] at h
    obtain ⟨r, hstep, hrest⟩ := h
    have hr : p.missing ≤ r.missing + 1 := by
      unfold step at hstep
      split at hstep
      case h_1 hzero => omega
      case h_2 n hmissing =>
        split at hstep
        · cases hstep
          rw [hmissing]
          exact Nat.le_refl _
        · cases hstep
    have hbytes := ih hrest
    rw [List.length_cons]
    omega

/-- Inside of a character only continuation bytes are read. -/
theorem bounds_of_decode {q : Position} {bytes : List UInt8}
    (h : betweenChars.decode bytes = some q) :
    q.high ≤ 0xbf ∧ (0x80 ≤ q.low ∨ q.high < q.low) := by
  have hdecode : ∀ p : Position, p.high ≤ 0xbf ∧ (0x80 ≤ p.low ∨ p.high < p.low) →
      p.decode bytes = some q → q.high ≤ 0xbf ∧ (0x80 ≤ q.low ∨ q.high < q.low) := by
    clear h
    induction bytes with
    | nil =>
      intro p hp h
      cases h
      exact hp
    | cons b bytes ih =>
      intro p hp h
      rw [decode_cons, Option.bind_eq_some_iff] at h
      obtain ⟨r, hstep, hrest⟩ := h
      refine ih r ?_ hrest
      unfold step at hstep
      split at hstep
      · exact bounds_of_lead hstep
      · split at hstep
        · cases hstep
          exact ⟨Nat.le_refl _, .inl (Nat.le_refl _)⟩
        · cases hstep
  exact hdecode betweenChars ⟨Nat.le_refl _, .inl (Nat.le_refl _)⟩ h

/-- ASCII comes between characters only. -/
theorem step_ascii_of_decode {p : Position} {bytes : List UInt8} {b : UInt8}
    (h : betweenChars.decode bytes = some p) (hb : b.toNat < 0x80) :
    p.step b = if p.missing = 0 then some betweenChars else none := by
  have hbounds := (bounds_of_decode h).2
  unfold step
  split
  case h_1 hzero => rw [if_pos hzero, lead_one hb]
  case h_2 n hmissing => rw [if_neg (by omega), if_neg (by omega)]

end Position

/-- **The first byte of a character says how many follow.** -/
theorem IsUtf8.le_length_of_lead {pre rest : List UInt8} {b : UInt8}
    (h : IsUtf8 (pre ++ b :: rest)) :
    (0xc0 ≤ b.toNat → 1 ≤ rest.length) ∧ (0xe0 ≤ b.toNat → 2 ≤ rest.length) ∧
      (0xf0 ≤ b.toNat → 3 ≤ rest.length) := by
  rw [isUtf8_iff, decode_append, Option.bind_eq_some_iff] at h
  obtain ⟨p, hp, h⟩ := h
  rw [decode_cons, Option.bind_eq_some_iff] at h
  obtain ⟨q, hstep, hq⟩ := h
  by_cases hb : 0xc0 ≤ b.toNat
  · have hhigh := (bounds_of_decode hp).1
    have hlead : lead b.toNat = some q := by
      unfold step at hstep
      split at hstep
      · exact hstep
      · rw [if_neg (by omega)] at hstep
        cases hstep
    have hmissing : q.missing ≤ rest.length := by
      have hle := missing_le_of_decode hq
      rwa [show betweenChars.missing = 0 from rfl, Nat.zero_add] at hle
    obtain rfl | ⟨hlow, hhigh, rfl⟩ | ⟨hlow, hhigh, rfl⟩ | ⟨hlow, hhigh, rfl⟩ :=
      lead_cases hb hlead
    · exact absurd hq (decode_stuck rest)
    all_goals
      simp only [before] at hmissing
      refine ⟨?_, ?_, ?_⟩ <;> intro hge <;> omega
  · refine ⟨?_, ?_, ?_⟩ <;> intro hge <;> omega

/-- **A text that was cut off** ends with a part of a character, or with none. -/
theorem exists_part_of_isPrefix {text whole : List UInt8} (hcut : text <+: whole)
    (h : IsUtf8 whole) :
    ∃ full part c, text = full ++ part ∧ IsUtf8 full ∧ part <+: String.utf8EncodeChar c ∧
      part ≠ String.utf8EncodeChar c := by
  have hnone : ∀ c, [] ≠ String.utf8EncodeChar c := by
    intro c hnil
    have hlength := congrArg List.length hnil
    rw [String.length_utf8EncodeChar] at hlength
    exact absurd hlength (Nat.ne_of_lt c.utf8Size_pos)
  obtain ⟨chars, rfl⟩ := h
  induction chars generalizing text with
  | nil =>
    rw [List.flatMap_nil, List.prefix_nil] at hcut
    exact ⟨[], [], 'a', hcut, isUtf8_nil, List.nil_prefix, hnone 'a'⟩
  | cons c chars ih =>
    rw [List.flatMap_cons] at hcut
    rcases List.prefix_or_prefix_of_prefix hcut (List.prefix_append _ _) with hpart | ⟨rest, rfl⟩
    · by_cases hall : text = String.utf8EncodeChar c
      · exact ⟨text, [], 'a', (List.append_nil text).symm, ⟨[c], by simp [hall]⟩, List.nil_prefix,
          hnone 'a'⟩
      · exact ⟨[], text, c, rfl, isUtf8_nil, hpart, hall⟩
    · obtain ⟨full, part, d, rfl, ⟨chars', rfl⟩, hpart⟩ :=
        ih ((List.prefix_append_right_inj _).mp hcut)
      exact ⟨_, part, d, (List.append_assoc ..).symm, ⟨c :: chars', rfl⟩, hpart⟩

/-- **A text is cut between characters** behind a byte of ASCII. -/
theorem isUtf8_append_of_ascii {pre rest : List UInt8} {b : UInt8} (hb : b.toNat < 0x80) :
    IsUtf8 (pre ++ b :: rest) ↔ IsUtf8 (pre ++ [b]) ∧ IsUtf8 rest := by
  rw [isUtf8_iff, isUtf8_iff, isUtf8_iff, decode_append, decode_append]
  cases hp : betweenChars.decode pre with
  | none => simp
  | some p =>
    rw [Option.bind_some, Option.bind_some, decode_cons, decode_cons, step_ascii_of_decode hp hb]
    split
    · simp
    · simp

instance (bytes : List UInt8) : Decidable (IsUtf8 bytes) :=
  decidable_of_iff _ (isUtf8_iff bytes).symm

end Foundations
