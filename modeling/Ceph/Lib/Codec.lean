import Mathlib

/-!
# Reading what was written

Decoders that consume a list of bytes, and when one reads a value back from the bytes that were
written for it, whatever follows them.

* `Reads.bind`, `Reads.times` — decoders run one after the other.
* `reads_leNat` — words of a fixed size, the lowest byte first.
* `reads_varint` — numbers of seven bits a byte; the high bit says that another byte follows.
-/

namespace Ceph

open List Nat

/-- A decoder fails if it runs over the end. -/
abbrev Decoder (α : Type) := StateT (List UInt8) Option α

variable {α β : Type}

/-- The decoder reads `x` from the bytes, whatever follows. -/
def Reads (d : Decoder α) (bytes : List UInt8) (x : α) : Prop :=
  ∀ rest, d.run (bytes ++ rest) = some (x, rest)

variable {d : Decoder α} {bytes : List UInt8}

namespace Reads

theorem pure (x : α) : Reads (Pure.pure x) [] x := fun _ => rfl

theorem bind {f : α → Decoder β} {bytes' : List UInt8} {x : α} {y : β} (h : Reads d bytes x)
    (h' : Reads (f x) bytes' y) : Reads (d >>= f) (bytes ++ bytes') y := by
  intro rest
  rw [StateT.run_bind, append_assoc, h]
  exact h' rest

/-- A decoder that is followed by a pure function. -/
theorem map {x : α} (h : Reads d bytes x) (f : α → β) :
    Reads (d >>= fun x => Pure.pure (f x)) bytes (f x) := by
  have hread : Reads (d >>= fun x => Pure.pure (f x)) (bytes ++ []) (f x) :=
    h.bind (Reads.pure (f x))
  rwa [append_nil] at hread

end Reads

/-- A decoder that did not fail: both parts of it did not. -/
theorem run_bind_eq_some {f : α → Decoder β} {rest : List UInt8} {y : β}
    (h : (d >>= f).run bytes = some (y, rest)) :
    ∃ x mid, d.run bytes = some (x, mid) ∧ (f x).run mid = some (y, rest) := by
  obtain ⟨⟨x, mid⟩, hd, hf⟩ := Option.bind_eq_some_iff.1 h
  exact ⟨x, mid, hd, hf⟩

theorem run_pure_eq_some {rest : List UInt8} {x y : α}
    (h : (pure x : Decoder α).run bytes = some (y, rest)) : y = x :=
  (Prod.mk.inj (Option.some.inj h)).1.symm

/-- The same decoder `n` times. -/
def times (d : Decoder α) : ℕ → Decoder (List α)
  | 0 => pure []
  | n + 1 => do
    let x ← d
    let xs ← times d n
    pure (x :: xs)

theorem Reads.times (write : α → List UInt8) (xs : List α) (h : ∀ x ∈ xs, Reads d (write x) x) :
    Reads (times d xs.length) (xs.flatMap write) xs := by
  induction xs with
  | nil => exact Reads.pure []
  | cons x xs ih =>
    exact (h x mem_cons_self).bind ((ih fun y hy => h y (mem_cons_of_mem _ hy)).map _)

/-! ## Bytes and words -/

/-- The next byte. -/
def nextByte : Decoder UInt8
  | [] => none
  | b :: rest => some (b, rest)

theorem reads_nextByte (b : UInt8) : Reads nextByte [b] b := fun _ => rfl

/-- The next `n` bytes. -/
def nextBytes (n : ℕ) : Decoder (List UInt8) := times nextByte n

theorem reads_nextBytes (bytes : List UInt8) : Reads (nextBytes bytes.length) bytes bytes := by
  have h := Reads.times (fun b => [b]) bytes fun b _ => reads_nextByte b
  rwa [flatMap_singleton'] at h

theorem toNat_ofNat_of_lt {n : ℕ} (h : n < 256) : (UInt8.ofNat n).toNat = n := by
  rw [UInt8.toNat_ofNat', Nat.mod_eq_of_lt h]

/-- A number in `n` bytes, the lowest first. -/
def leBytes : ℕ → ℕ → List UInt8
  | 0, _ => []
  | n + 1, v => UInt8.ofNat (v % 256) :: leBytes n (v / 256)

/-- Reads a number in `n` bytes. -/
def leNat : ℕ → Decoder ℕ
  | 0 => pure 0
  | n + 1 => do
    let b ← nextByte
    let v ← leNat n
    pure (b.toNat + 256 * v)

theorem reads_leNat (n : ℕ) : ∀ {v : ℕ}, v < 256 ^ n → Reads (leNat n) (leBytes n v) v := by
  induction n with
  | zero =>
    intro v hv
    obtain rfl : v = 0 := by simpa using hv
    exact Reads.pure 0
  | succ n ih =>
    intro v hv
    have hdiv : v / 256 < 256 ^ n := Nat.div_lt_of_lt_mul (by rwa [← Nat.pow_succ'])
    have h : Reads (leNat (n + 1)) (leBytes (n + 1) v)
        ((UInt8.ofNat (v % 256)).toNat + 256 * (v / 256)) :=
      (reads_nextByte (UInt8.ofNat (v % 256))).bind ((ih hdiv).map _)
    rwa [toNat_ofNat_of_lt (mod_lt _ (by decide)), mod_add_div] at h

/-! ## Numbers of seven bits a byte -/

/-- The bytes of a number, seven bits each, the lowest first. -/
def varint (v : ℕ) : List UInt8 :=
  if v < 128 then [UInt8.ofNat v] else UInt8.ofNat (v % 128 + 128) :: varint (v / 128)
termination_by v
decreasing_by omega

theorem varint_ne_nil (v : ℕ) : varint v ≠ [] := by
  rw [varint]
  split_ifs <;> simp

/-- Reads the bits from `shift` on into a word of `w` bits. -/
def readVarintFrom (w shift acc : ℕ) : Decoder ℕ
  | [] => none
  | b :: rest =>
    let acc := acc ||| (b.toNat % 128) <<< shift % 2 ^ w
    if 128 ≤ b.toNat then readVarintFrom w (shift + 7) acc rest else some (acc, rest)

/-- Reads a number into a word of `w` bits. -/
def readVarint (w : ℕ) : Decoder ℕ := readVarintFrom w 0 0

theorem or_shiftLeft_eq {w shift acc d : ℕ} (hacc : acc < 2 ^ shift)
    (hfit : acc + d * 2 ^ shift < 2 ^ w) :
    acc ||| d <<< shift % 2 ^ w = acc + d * 2 ^ shift := by
  have hmod : d <<< shift % 2 ^ w = 2 ^ shift * d := by
    rw [Nat.shiftLeft_eq, Nat.mod_eq_of_lt (by omega), Nat.mul_comm]
  rw [hmod, Nat.or_comm, ← Nat.two_pow_add_eq_or_of_lt hacc]
  ring

/-- The bits above `shift` are read back, if the whole number fits. -/
theorem reads_varintFrom {w : ℕ} (v : ℕ) : ∀ (shift acc : ℕ), acc < 2 ^ shift →
    acc + v * 2 ^ shift < 2 ^ w →
      Reads (readVarintFrom w shift acc) (varint v) (acc + v * 2 ^ shift) := by
  induction v using Nat.strong_induction_on with
  | _ v ih =>
    intro shift acc hacc hfit rest
    rw [varint]
    split_ifs with hsmall
    · have hbyte := toNat_ofNat_of_lt (show v < 256 by omega)
      simp only [singleton_append, StateT.run, readVarintFrom, hbyte,
        Nat.mod_eq_of_lt hsmall, or_shiftLeft_eq hacc hfit]
      rw [if_neg (by omega)]
    -- the low seven bits first, then the rest of the number above them
    have hbyte := toNat_ofNat_of_lt (show v % 128 + 128 < 256 by omega)
    have hlow : (v % 128 + 128) % 128 = v % 128 := by omega
    have hsplit : acc + v % 128 * 2 ^ shift + v / 128 * 2 ^ (shift + 7) = acc + v * 2 ^ shift := by
      conv_rhs => rw [← mod_add_div v 128]
      ring
    have hfit' : acc + v % 128 * 2 ^ shift < 2 ^ w := by omega
    have hacc' : acc + v % 128 * 2 ^ shift < 2 ^ (shift + 7) := by
      have hle : v % 128 * 2 ^ shift ≤ 127 * 2 ^ shift :=
        mul_le_mul_right _ (by omega)
      rw [pow_add]
      omega
    have hnext := ih (v / 128) (by omega) _ _ hacc' (by rwa [hsplit]) rest
    simp only [cons_append, StateT.run, readVarintFrom, hbyte, hlow, or_shiftLeft_eq hacc hfit']
    rwa [← hsplit]

theorem reads_varint {w v : ℕ} (h : v < 2 ^ w) : Reads (readVarint w) (varint v) v := by
  have hread := reads_varintFrom v 0 0 (by decide) (show 0 + v * 2 ^ 0 < 2 ^ w by simpa using h)
  rwa [pow_zero, mul_one, zero_add] at hread

end Ceph
