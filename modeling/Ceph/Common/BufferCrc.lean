import Mathlib.Logic.Function.Iterate

/-!
# Cached checksums of buffers

`buffer::list::crc32c` of `common/buffer.cc`.  A raw buffer keeps, for ranges of its bytes, the
checksum from one seed.  A list that begins with another seed adjusts it by the checksum of zero
bytes, which is right because the register of the CRC is linear.

* `cephCrc32c_xor` — linearity.
* `crc32cCalls_eq` — every call returns the checksum of the bytes of its list.
-/

namespace Ceph.Buffer

open List Function

/-! ## CRC-32C -/

/-- The register is shifted by one bit. -/
def crcBit (crc : BitVec 32) : BitVec 32 :=
  if crc.getLsbD 0 then crc >>> 1 ^^^ 0x82f63b78#32 else crc >>> 1

def crcByte (crc : BitVec 32) (byte : UInt8) : BitVec 32 :=
  crcBit^[8] (crc ^^^ byte.toBitVec.setWidth 32)

/-- `ceph_crc32c` -/
def cephCrc32c (crc : BitVec 32) (data : List UInt8) : BitVec 32 := data.foldl crcByte crc

theorem crcBit_xor (a b : BitVec 32) : crcBit (a ^^^ b) = crcBit a ^^^ crcBit b := by
  have hcancel : ∀ x y p : BitVec 32, x ^^^ y = x ^^^ p ^^^ (y ^^^ p) := by
    intro x y p
    rw [show x ^^^ p ^^^ (y ^^^ p) = x ^^^ y ^^^ (p ^^^ p) by ac_rfl, BitVec.xor_self,
      BitVec.xor_zero]
  rw [crcBit, crcBit, crcBit, BitVec.getLsbD_xor, BitVec.ushiftRight_xor_distrib]
  cases a.getLsbD 0 <;> cases b.getLsbD 0
  · rfl
  · exact BitVec.xor_assoc ..
  · show a >>> 1 ^^^ b >>> 1 ^^^ _ = a >>> 1 ^^^ _ ^^^ b >>> 1
    ac_rfl
  · exact hcancel ..

theorem iterate_crcBit_xor (n : ℕ) (a b : BitVec 32) :
    crcBit^[n] (a ^^^ b) = crcBit^[n] a ^^^ crcBit^[n] b := by
  induction n generalizing a b with
  | zero => rfl
  | succ n ih => rw [iterate_succ_apply, crcBit_xor, ih, iterate_succ_apply, iterate_succ_apply]

/-- A difference of the seeds passes through the register as through zero bytes. -/
theorem cephCrc32c_xor (a d : BitVec 32) (data : List UInt8) :
    cephCrc32c (a ^^^ d) data = cephCrc32c a data ^^^ cephCrc32c d (replicate data.length 0) := by
  induction data generalizing a d with
  | nil => rfl
  | cons byte data ih =>
    have hbyte : crcByte (a ^^^ d) byte = crcByte a byte ^^^ crcByte d 0 := by
      have hswap : ∀ x, a ^^^ d ^^^ x = a ^^^ x ^^^ (d ^^^ 0#32) := by
        intro x
        ac_rfl
      rw [crcByte, hswap, iterate_crcBit_xor]
      rfl
    rw [cephCrc32c, foldl_cons, hbyte]
    exact ih _ _

/-! ## Buffers -/

variable {R : Type} [DecidableEq R] {data : R → List UInt8}

variable (data) in
/-- `buffer::ptr`: a range of a raw buffer. -/
structure Ptr where
  raw : R
  offset : ℕ
  length : ℕ
  le : offset + length ≤ (data raw).length

/-- The bytes of a buffer from one position to another. -/
def slice (bytes : List UInt8) (ofs : ℕ × ℕ) : List UInt8 := (bytes.take ofs.2).drop ofs.1

def Ptr.ofs (p : Ptr data) : ℕ × ℕ := (p.offset, p.offset + p.length)

def Ptr.bytes (p : Ptr data) : List UInt8 := slice (data p.raw) p.ofs

omit [DecidableEq R] in
theorem Ptr.length_bytes (p : Ptr data) : p.bytes.length = p.length := by
  have := p.le
  simp only [bytes, slice, ofs, length_drop, length_take]
  omega

/-- The maps `crc_map` of all raw buffers: for a range a seed and the checksum from it. -/
abbrev CrcMaps (R : Type) : Type := R × ℕ × ℕ → Option (BitVec 32 × BitVec 32)

/-- One round of the loop of `buffer::list::crc32c`. -/
def crcStep (s : BitVec 32 × CrcMaps R) (it : Ptr data) : BitVec 32 × CrcMaps R :=
  let (crc, maps) := s
  if it.length = 0 then (crc, maps)
  else
    match maps (it.raw, it.ofs) with
    | some (first, second) =>
      (if first = crc then second
        else second ^^^ cephCrc32c (first ^^^ crc) (replicate it.length 0), maps)
    | none =>
      let base := crc
      let crc := cephCrc32c crc it.bytes
      (crc, update maps (it.raw, it.ofs) (some (base, crc)))

/-- `buffer::list::crc32c` -/
def crc32c (maps : CrcMaps R) (buffers : List (Ptr data)) (crc : BitVec 32) :
    BitVec 32 × CrcMaps R := buffers.foldl crcStep (crc, maps)

/-- What a sequence of calls returns. -/
def crc32cCalls (maps : CrcMaps R) : List (List (Ptr data) × BitVec 32) → List (BitVec 32)
  | [] => []
  | (buffers, crc) :: calls =>
    let (crc, maps) := crc32c maps buffers crc
    crc :: crc32cCalls maps calls

variable (data) in
/-- The cached values are the checksums from their seeds. -/
def CrcMaps.Valid (maps : CrcMaps R) : Prop :=
  ∀ raw ofs first second, maps (raw, ofs) = some (first, second) →
    second = cephCrc32c first (slice (data raw) ofs)

variable {maps : CrcMaps R}

theorem crcStep_spec (hmaps : maps.Valid data) (crc : BitVec 32) (it : Ptr data) :
    (crcStep (crc, maps) it).1 = cephCrc32c crc it.bytes ∧
      (crcStep (crc, maps) it).2.Valid data := by
  rw [crcStep]
  split
  next hzero =>
    rw [length_eq_zero_iff.1 (it.length_bytes.trans hzero)]
    exact ⟨rfl, hmaps⟩
  split
  next first second hget =>
    refine ⟨?_, hmaps⟩
    rw [hmaps _ _ _ _ hget]
    split
    next heq => rw [heq, Ptr.bytes]
    next =>
      have hseed : first ^^^ (first ^^^ crc) = crc := by
        rw [← BitVec.xor_assoc, BitVec.xor_self, BitVec.zero_xor]
      rw [← it.length_bytes, ← Ptr.bytes, ← cephCrc32c_xor, hseed]
  next =>
    refine ⟨rfl, fun raw ofs first second hget => ?_⟩
    dsimp only at hget
    rw [update_apply] at hget
    split at hget
    next heq =>
      cases heq
      cases hget
      rfl
    next => exact hmaps _ _ _ _ hget

theorem crc32c_spec (hmaps : maps.Valid data) (buffers : List (Ptr data)) (crc : BitVec 32) :
    (crc32c maps buffers crc).1 = cephCrc32c crc (buffers.flatMap Ptr.bytes) ∧
      (crc32c maps buffers crc).2.Valid data := by
  induction buffers generalizing maps crc with
  | nil => exact ⟨rfl, hmaps⟩
  | cons it buffers ih =>
    obtain ⟨hcrc, hmaps'⟩ := crcStep_spec hmaps crc it
    obtain ⟨hrest, hvalid⟩ := ih hmaps' (crcStep (crc, maps) it).1
    refine ⟨hrest.trans ?_, hvalid⟩
    rw [hcrc, flatMap_cons, cephCrc32c, cephCrc32c, cephCrc32c, foldl_append]

/-- **Cached checksums are true checksums.**  The raw buffers begin without cached values and are
shared by the lists in any way. -/
theorem crc32cCalls_eq (calls : List (List (Ptr data) × BitVec 32)) :
    crc32cCalls (fun _ => none) calls =
      calls.map fun call => cephCrc32c call.2 (call.1.flatMap Ptr.bytes) := by
  have hrun : ∀ maps : CrcMaps R, maps.Valid data → crc32cCalls maps calls =
      calls.map fun call => cephCrc32c call.2 (call.1.flatMap Ptr.bytes) := by
    induction calls with
    | nil => exact fun _ _ => rfl
    | cons call calls ih =>
      intro maps hmaps
      obtain ⟨hcrc, hmaps'⟩ := crc32c_spec hmaps call.1 call.2
      rw [map_cons, ← ih _ hmaps', ← hcrc]
      rfl
  exact hrun _ fun _ _ _ _ h => nomatch h

end Ceph.Buffer
