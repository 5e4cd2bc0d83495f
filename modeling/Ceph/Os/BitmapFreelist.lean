import Mathlib
import Ceph.Lib.Loop
import Ceph.Lib.OrderedMap
import Ceph.Lib.Word

/-!
# The free list of BlueStore

`os/bluestore/BitmapFreelistManager.cc`.  The store has for some multiples of `bytes_per_key` a
bitmap with one bit for each block; a block whose key is missing is free.  Allocating and
releasing flip bits, the store merges them with an exclusive or.

* `HasBits.xor` — what `_xor` does to the bits of the store.
* `represents_run` — after any calls the store has the blocks that are in use.
-/

namespace Ceph.Os

open Nat Set OrderedMap

/-! ## The functions -/

/-- The options, both powers of two, and the size that `create` is given. -/
structure FreelistConf where
  blockBits : ℕ
  keyBits : ℕ
  newSize : ℕ
  block_lt : blockBits < 31
  key_lt : keyBits < 31
  key_ge : 3 ≤ keyBits
  newSize_lt : newSize < 2 ^ 64

namespace FreelistConf

variable (c : FreelistConf)

/-- `bytes_per_block` -/
def bytesPerBlock : ℕ := 2 ^ c.blockBits

/-- `blocks_per_key` -/
def blocksPerKey : ℕ := 2 ^ c.keyBits

/-- `bytes_per_key` -/
def bytesPerKey : ℕ := c.bytesPerBlock * c.blocksPerKey

/-- `size`: `P2ALIGN(new_size, bytes_per_block)` -/
def size : ℕ := c.newSize / c.bytesPerBlock * c.bytesPerBlock

/-- `blocks`: the blocks of the device, rounded up to whole keys. -/
def blocks : ℕ :=
  let blocks := c.size / c.bytesPerBlock
  if blocks / c.blocksPerKey * c.blocksPerKey ≠ blocks then
    (blocks / c.blocksPerKey + 1) * c.blocksPerKey
  else blocks

/-- `offset & key_mask` -/
def keyOf (offset : ℕ) : ℕ := offset / c.bytesPerKey * c.bytesPerKey

/-- `(offset & ~key_mask) / bytes_per_block` -/
def bitOf (offset : ℕ) : ℕ := offset % c.bytesPerKey / c.bytesPerBlock

end FreelistConf

/-- The value of a key. -/
abbrev Bitmap (c : FreelistConf) : Type := BitVec c.blocksPerKey

/-- The keys with the bitmap prefix; their encoding ascends with the offsets. -/
abbrev BitmapDb (c : FreelistConf) : Type := OrderedMap ℕ (Bitmap c)

variable {c : FreelistConf}

/-- `XorMergeOperator` on one key. -/
def mergeKey (key : ℕ) (bl : Bitmap c) (db : BitmapDb c) : BitmapDb c :=
  update key (fun old => old.elim bl fun old => old ^^^ bl) db

/-- A bitmap in which the `n` bits from `s` on are flipped one by one. -/
def flipBits (c : FreelistConf) (s n : ℕ) : Bitmap c :=
  (List.range' s n).foldl (fun p i => p ^^^ BitVec.twoPow c.blocksPerKey i) (0#c.blocksPerKey)

/-- The loop of `_xor` over the middle keys: where it ends, and the store. -/
def xorMiddle (lastKey : ℕ) : ℕ → ℕ → BitmapDb c → ℕ × BitmapDb c
  | 0, key, db => (key, db)
  | fuel + 1, key, db =>
    if key < lastKey then
      xorMiddle lastKey fuel ((key + c.bytesPerKey) % 2 ^ 64)
        (mergeKey key (BitVec.allOnes c.blocksPerKey) db)
    else (key, db)

/-- `_xor` from bit `s` of the first key to bit `e` of the last one. -/
def xorKeys (firstKey lastKey s e : ℕ) (db : BitmapDb c) : Option (BitmapDb c) :=
  if firstKey = lastKey then some (mergeKey firstKey (flipBits c s (e + 1 - s)) db)
  else
    let db := mergeKey firstKey (flipBits c s (c.blocksPerKey - s)) db
    let middle := xorMiddle lastKey (lastKey / c.bytesPerKey)
      ((firstKey + c.bytesPerKey) % 2 ^ 64) db
    (assert (middle.1 = lastKey)).map fun _ => mergeKey lastKey (flipBits c 0 (e + 1)) middle.2

/-- `_xor` -/
def xor (offset length : ℕ) (db : BitmapDb c) : Option (BitmapDb c) := do
  assert (offset / c.bytesPerBlock * c.bytesPerBlock = offset)
  assert (length / c.bytesPerBlock * c.bytesPerBlock = length)
  let last := sub64 (offset + length) 1
  xorKeys (c.keyOf offset) (c.keyOf last) (c.bitOf offset) (c.bitOf last) db

/-- `create`: the blocks past the end are set as allocated. -/
def create (c : FreelistConf) : Option (BitmapDb c) :=
  let blocks := c.size / c.bytesPerBlock
  if blocks / c.blocksPerKey * c.blocksPerKey ≠ blocks then
    xor c.size (sub64 (c.blocks * c.bytesPerBlock) c.size) []
  else some []

/-- A call of `allocate` or `release`. -/
inductive FreelistCall where
  | allocate (offset length : ℕ)
  | release (offset length : ℕ)

/-- `allocate` and `release` -/
def FreelistCall.apply (db : BitmapDb c) : FreelistCall → Option (BitmapDb c)
  | .allocate offset length => xor offset length db
  | .release offset length => xor offset length db

/-- The store after `create` and some calls. -/
def freelistRun (c : FreelistConf) (calls : List FreelistCall) : Option (BitmapDb c) := do
  let db ← create c
  calls.foldlM FreelistCall.apply db

/-! ## Sizes -/

namespace FreelistConf

/-- The blocks of the device. -/
def deviceBlocks (c : FreelistConf) : ℕ := c.size / c.bytesPerBlock

variable (c : FreelistConf)

theorem bytesPerBlock_pos : 0 < c.bytesPerBlock := Nat.two_pow_pos _

theorem blocksPerKey_pos : 0 < c.blocksPerKey := Nat.two_pow_pos _

theorem bytesPerKey_pos : 0 < c.bytesPerKey :=
  mul_pos c.bytesPerBlock_pos c.blocksPerKey_pos

theorem size_eq : c.size = c.deviceBlocks * c.bytesPerBlock := by
  rw [deviceBlocks, size, Nat.mul_div_cancel _ c.bytesPerBlock_pos]

theorem size_lt : c.size < 2 ^ 64 := (div_mul_le_self ..).trans_lt c.newSize_lt

theorem bytesPerKey_dvd : c.bytesPerKey ∣ 2 ^ 64 := by
  rw [bytesPerKey, bytesPerBlock, blocksPerKey, ← pow_add]
  exact pow_dvd_pow 2 (by have := c.block_lt; have := c.key_lt; omega)

/-- The blocks are whole keys, the last one of which has a block of the device. -/
theorem blocks_spec : ∃ keys, c.blocks = keys * c.blocksPerKey ∧ c.deviceBlocks ≤ c.blocks ∧
    c.blocks < c.deviceBlocks + c.blocksPerKey := by
  have hpos := c.blocksPerKey_pos
  have hdiv := div_add_mod' c.deviceBlocks c.blocksPerKey
  have hmod := mod_lt c.deviceBlocks hpos
  have hblocks : c.blocks = if c.deviceBlocks / c.blocksPerKey * c.blocksPerKey ≠ c.deviceBlocks
      then (c.deviceBlocks / c.blocksPerKey + 1) * c.blocksPerKey else c.deviceBlocks := rfl
  rw [hblocks]
  split_ifs with hround
  · refine ⟨_, rfl, ?_, ?_⟩ <;> rw [add_one_mul] <;> omega
  · exact ⟨_, (not_not.1 hround).symm, le_rfl, by omega⟩

/-- The address of a byte behind all blocks is at most the first one that is not in a word. -/
theorem blocks_le : c.blocks * c.bytesPerBlock ≤ 2 ^ 64 := by
  obtain ⟨keys, hkeys, -, hlt⟩ := c.blocks_spec
  obtain ⟨most, hmost⟩ := c.bytesPerKey_dvd
  have hsize := c.size_lt
  have hbytes : c.blocks * c.bytesPerBlock = keys * c.bytesPerKey := by
    rw [hkeys, bytesPerKey]; ring
  have hless : keys * c.bytesPerKey < (most + 1) * c.bytesPerKey := by
    calc keys * c.bytesPerKey = c.blocks * c.bytesPerBlock := hbytes.symm
      _ ≤ (c.deviceBlocks + c.blocksPerKey) * c.bytesPerBlock := mul_le_mul_right _ hlt.le
      _ = c.size + c.bytesPerKey := by rw [size_eq, bytesPerKey]; ring
      _ < 2 ^ 64 + c.bytesPerKey := by omega
      _ = (most + 1) * c.bytesPerKey := by rw [hmost]; ring
  rw [hbytes, hmost, mul_comm c.bytesPerKey]
  exact Nat.mul_le_mul_right _ (Nat.lt_succ_iff.1 (Nat.lt_of_mul_lt_mul_right hless))

/-- The blocks reach the end of the address space only on a device that is nearly as large. -/
theorem blocks_lt_iff : c.blocks * c.bytesPerBlock < 2 ^ 64 ↔ c.size + c.bytesPerKey ≤ 2 ^ 64 := by
  obtain ⟨keys, hkeys, hge, hlt⟩ := c.blocks_spec
  obtain ⟨most, hmost⟩ := c.bytesPerKey_dvd
  have hbytes : c.blocks * c.bytesPerBlock = keys * c.bytesPerKey := by
    rw [hkeys, bytesPerKey]; ring
  have hsize : c.size ≤ c.blocks * c.bytesPerBlock := by
    rw [size_eq]; exact mul_le_mul_right _ hge
  have hend : c.blocks * c.bytesPerBlock < c.size + c.bytesPerKey := by
    calc c.blocks * c.bytesPerBlock
        < (c.deviceBlocks + c.blocksPerKey) * c.bytesPerBlock :=
          mul_lt_mul_of_pos_right hlt c.bytesPerBlock_pos
      _ = c.size + c.bytesPerKey := by rw [size_eq, bytesPerKey]; ring
  constructor
  · intro h
    -- both are multiples of the bytes of a key
    have hle : (keys + 1) * c.bytesPerKey ≤ most * c.bytesPerKey := by
      refine Nat.mul_le_mul_right _ (Nat.lt_of_mul_lt_mul_right (a := c.bytesPerKey) ?_)
      rwa [← hbytes, mul_comm most, ← hmost]
    rw [Nat.add_one_mul, Nat.mul_comm most] at hle
    omega
  · intro h
    omega

end FreelistConf

/-! ## The bits of a store -/

/-- The store has the bit of block `b`. -/
def SetBit (db : BitmapDb c) (b : ℕ) : Prop :=
  ∃ bl, (b / c.blocksPerKey * c.bytesPerKey, bl) ∈ db ∧ bl.getLsbD (b % c.blocksPerKey) = true

variable {s : ℕ}

theorem flipBits_getLsbD {n i : ℕ} (hi : i < c.blocksPerKey) :
    (flipBits c s n).getLsbD i = true ↔ s ≤ i ∧ i < s + n := by
  induction n with
  | zero => simp [flipBits]
  | succ n ih =>
    have hstep : flipBits c s (n + 1) =
        flipBits c s n ^^^ BitVec.twoPow c.blocksPerKey (s + n) := by
      rw [flipBits, List.range'_concat, List.foldl_append, ← flipBits, one_mul]
      rfl
    rw [hstep, BitVec.getLsbD_xor, BitVec.getLsbD_twoPow]
    grind

theorem key_inj {k k' : ℕ} : k * c.bytesPerKey = k' * c.bytesPerKey ↔ k = k' :=
  Nat.mul_left_inj c.bytesPerKey_pos.ne'

variable {db : BitmapDb c}

/-- A merge flips the bits of one key. -/
theorem setBit_mergeKey (hs : Sorted db) (key : ℕ) (bl : Bitmap c) (b : ℕ) :
    SetBit (mergeKey (key * c.bytesPerKey) bl db) b ↔
      Xor (SetBit db b) (b / c.blocksPerKey = key ∧ bl.getLsbD (b % c.blocksPerKey) = true) := by
  simp only [SetBit, mergeKey]
  rcases mem_update hs (key * c.bytesPerKey)
    (fun old => old.elim bl fun old => old ^^^ bl) with ⟨old, hold, hmem⟩ | ⟨hnone, hmem⟩
  · by_cases hb : b / c.blocksPerKey = key
    · subst hb
      have hleft : (∃ bl', (b / c.blocksPerKey * c.bytesPerKey, bl') ∈ db ∧
          bl'.getLsbD (b % c.blocksPerKey) = true) ↔ old.getLsbD (b % c.blocksPerKey) = true :=
        ⟨fun ⟨bl', hin, hset⟩ => hs.unique hold hin ▸ hset, fun h => ⟨old, hold, h⟩⟩
      simp only [hmem, Prod.mk.injEq, true_and, ne_eq, not_true_eq_false, and_false, or_false,
        exists_eq_left, Option.elim_some, BitVec.getLsbD_xor, Xor]
      grind
    · have hne : ¬ b / c.blocksPerKey * c.bytesPerKey = key * c.bytesPerKey := mt key_inj.1 hb
      simp [hmem, hne, hb, Xor]
  · by_cases hb : b / c.blocksPerKey = key
    · subst hb
      simp [hmem, hnone, Xor]
    · have hne : ¬ b / c.blocksPerKey * c.bytesPerKey = key * c.bytesPerKey := mt key_inj.1 hb
      simp [hmem, hne, hb, Xor]

theorem sorted_mergeKey (hs : Sorted db) (key : ℕ) (bl : Bitmap c) :
    Sorted (mergeKey key bl db) := hs.update _ _

/-- The keys of the store are multiples of `bytes_per_key`, below the given one. -/
def KeysBelow (keys : ℕ) (db : BitmapDb c) : Prop :=
  ∀ p ∈ db, ∃ key, p.1 = key * c.bytesPerKey ∧ key < keys

variable {keys : ℕ}

theorem KeysBelow.mergeKey {key : ℕ} (hdb : KeysBelow keys db) (hkey : key < keys) (bl : Bitmap c) :
    KeysBelow keys (mergeKey (key * c.bytesPerKey) bl db) := by
  intro p hp
  rcases key_mem_update hp with heq | hp
  · exact ⟨key, heq, hkey⟩
  · exact hdb p hp

/-- A store with keys below a bound in which the bits of `blocks` are set. -/
structure HasBits (keys : ℕ) (db : BitmapDb c) (blocks : Set ℕ) : Prop where
  sorted : Sorted db
  below : KeysBelow keys db
  bits : ∀ b, SetBit db b ↔ b ∈ blocks

variable {blocks : Set ℕ}

/-- A merge of the bits from `s` up to `e` of a key. -/
theorem HasBits.mergeKey {key e : ℕ} (hdb : HasBits keys db blocks)
    (hkey : key < keys) (bl : Bitmap c) (he : e ≤ c.blocksPerKey)
    (hbl : ∀ i < c.blocksPerKey, bl.getLsbD i = true ↔ s ≤ i ∧ i < e) :
    HasBits keys (mergeKey (key * c.bytesPerKey) bl db)
      (symmDiff blocks (Ico (key * c.blocksPerKey + s) (key * c.blocksPerKey + e))) where
  sorted := sorted_mergeKey hdb.sorted _ _
  below := hdb.below.mergeKey hkey bl
  bits b := by
    rw [setBit_mergeKey hdb.sorted, hdb.bits, hbl _ (mod_lt _ c.blocksPerKey_pos), mem_symmDiff]
    have hrange : (b / c.blocksPerKey = key ∧ s ≤ b % c.blocksPerKey ∧ b % c.blocksPerKey < e) ↔
        b ∈ Ico (key * c.blocksPerKey + s) (key * c.blocksPerKey + e) := by
      have hdiv := div_add_mod' b c.blocksPerKey
      rw [mem_Ico]
      constructor
      · rintro ⟨rfl, hs, he⟩
        omega
      · rintro ⟨hs', he'⟩
        have hkey : b / c.blocksPerKey = key := by
          refine Nat.div_eq_of_lt_le (by omega) ?_
          rw [Nat.add_one_mul]
          omega
        subst hkey
        omega
    rw [← hrange, Xor]

theorem symmDiff_Ico (blocks : Set ℕ) {x y z : ℕ} (hxy : x ≤ y) (hyz : y ≤ z) :
    symmDiff (symmDiff blocks (Ico x y)) (Ico y z) = symmDiff blocks (Ico x z) := by
  ext b
  simp only [mem_symmDiff, mem_Ico]
  grind

theorem symmDiff_Ico_self (blocks : Set ℕ) (x : ℕ) : symmDiff blocks (Ico x x) = blocks := by
  rw [Ico_self, ← bot_eq_empty, symmDiff_bot]

theorem next_key {key : ℕ} (hkey : key + 1 < keys) (hword : keys * c.bytesPerKey ≤ 2 ^ 64) :
    (key * c.bytesPerKey + c.bytesPerKey) % 2 ^ 64 = (key + 1) * c.bytesPerKey := by
  rw [← add_one_mul]
  exact mod_eq_of_lt (lt_of_lt_of_le (mul_lt_mul_of_pos_right hkey c.bytesPerKey_pos) hword)

/-- The loop flips the keys up to the last one. -/
theorem xorMiddle_spec {last : ℕ} (hlast : last < keys) (hword : keys * c.bytesPerKey ≤ 2 ^ 64)
    (fuel : ℕ) :
    ∀ (key : ℕ) (db : BitmapDb c) (blocks : Set ℕ), HasBits keys db blocks → key ≤ last →
      last - key ≤ fuel → ∃ db',
        xorMiddle (last * c.bytesPerKey) fuel (key * c.bytesPerKey) db =
        (last * c.bytesPerKey, db') ∧ HasBits keys db'
          (symmDiff blocks (Ico (key * c.blocksPerKey) (last * c.blocksPerKey))) := by
  induction fuel with
  | zero =>
    intro key db blocks hdb hkey hfuel
    obtain rfl : key = last := by omega
    exact ⟨db, rfl, by rwa [symmDiff_Ico_self]⟩
  | succ fuel ih =>
    intro key db blocks hdb hkey hfuel
    rcases eq_or_lt_of_le hkey with rfl | hlt
    · exact ⟨db, by simp [xorMiddle], by rwa [symmDiff_Ico_self]⟩
    have hmerged := hdb.mergeKey (s := 0) (by omega : key < keys)
      (BitVec.allOnes c.blocksPerKey) le_rfl (fun i hi => by simp [hi])
    obtain ⟨db', hrun, hbits⟩ := ih (key + 1) _ _ hmerged hlt (by omega)
    refine ⟨db', ?_, ?_⟩
    · rw [xorMiddle, if_pos (mul_lt_mul_of_pos_right hlt c.bytesPerKey_pos),
        next_key (by omega) hword, hrun]
    · rwa [Nat.add_zero, ← Nat.add_one_mul, symmDiff_Ico _ (Nat.mul_le_mul_right _ (by omega))
        (Nat.mul_le_mul_right _ hlt)] at hbits

theorem keyOf_eq {x b : ℕ} (hx : x / c.bytesPerBlock = b) :
    c.keyOf x = b / c.blocksPerKey * c.bytesPerKey := by
  rw [FreelistConf.keyOf, ← hx, Nat.div_div_eq_div_mul, FreelistConf.bytesPerKey]

theorem bitOf_eq {x b : ℕ} (hx : x / c.bytesPerBlock = b) : c.bitOf x = b % c.blocksPerKey := by
  rw [FreelistConf.bitOf, FreelistConf.bytesPerKey, mod_mul_right_div_self, hx]

/-- The last byte is in the last block. -/
theorem last_block {t : ℕ} (hbytes : (s + t + 1) * c.bytesPerBlock ≤ 2 ^ 64) :
    sub64 (s * c.bytesPerBlock + (t + 1) * c.bytesPerBlock) 1 / c.bytesPerBlock = s + t := by
  have hpos := c.bytesPerBlock_pos
  have hsum : s * c.bytesPerBlock + (t + 1) * c.bytesPerBlock = (s + t + 1) * c.bytesPerBlock := by
    ring
  have hone : 1 ≤ (s + t + 1) * c.bytesPerBlock := mul_pos (succ_pos _) hpos
  rw [hsum, sub64_eq hone (by omega), Nat.add_one_mul, Nat.add_sub_assoc hpos, Nat.add_comm,
    add_mul_div_right _ _ hpos, div_eq_of_lt (sub_one_lt hpos.ne'), zero_add]

/-- `_xor` flips the bits from the first to the last one. -/
theorem HasBits.xorKeys {first last e : ℕ} (hdb : HasBits keys db blocks)
    (hfirst : first ≤ last) (hlast : last < keys) (hs : s < c.blocksPerKey)
    (he : e < c.blocksPerKey) (hse : first = last → s ≤ e) (hword : keys * c.bytesPerKey ≤ 2 ^ 64) :
    ∃ db', Os.xorKeys (first * c.bytesPerKey) (last * c.bytesPerKey) s e db = some db' ∧
      HasBits keys db' (symmDiff blocks
        (Ico (first * c.blocksPerKey + s) (last * c.blocksPerKey + (e + 1)))) := by
  rw [Os.xorKeys]
  rcases eq_or_lt_of_le hfirst with rfl | hlt
  · rw [if_pos rfl]
    exact ⟨_, rfl, hdb.mergeKey hlast _ he fun i hi =>
      (flipBits_getLsbD hi).trans (by omega)⟩
  rw [if_neg (mt key_inj.1 hlt.ne), next_key (lt_of_le_of_lt hlt hlast) hword,
    Nat.mul_div_cancel _ c.bytesPerKey_pos]
  have hmid := mul_le_mul_right c.blocksPerKey hlt
  rw [add_one_mul] at hmid
  have hmerged := hdb.mergeKey (s := s) (hfirst.trans_lt hlast)
    (flipBits c s (c.blocksPerKey - s)) le_rfl fun i hi => (flipBits_getLsbD hi).trans (by omega)
  obtain ⟨db', hrun, hmiddle⟩ := xorMiddle_spec hlast hword last (first + 1) _ _ hmerged hlt
    (sub_le ..)
  have hend := hmiddle.mergeKey hlast (flipBits c 0 (e + 1)) he
    fun i hi => (flipBits_getLsbD hi).trans (by rw [zero_add])
  refine ⟨Os.mergeKey (last * c.bytesPerKey) (flipBits c 0 (e + 1)) db', ?_, ?_⟩
  · simp [hrun, assert]
  · rwa [add_zero (last * c.blocksPerKey), ← add_one_mul,
      symmDiff_Ico _ (by rw [add_one_mul]; omega) (mul_le_mul_right _ hlt),
      symmDiff_Ico _ (by omega) (by omega)] at hend

/-- `_xor` flips the bits of its blocks. -/
theorem HasBits.xor {m : ℕ} (hdb : HasBits keys db blocks) (hm : 0 < m)
    (hle : s + m ≤ keys * c.blocksPerKey) (hword : keys * c.bytesPerKey ≤ 2 ^ 64) :
    ∃ db', Os.xor (s * c.bytesPerBlock) (m * c.bytesPerBlock) db = some db' ∧
      HasBits keys db' (symmDiff blocks (Ico s (s + m))) := by
  have hpos := c.bytesPerBlock_pos
  have hkeypos := c.blocksPerKey_pos
  obtain ⟨t, rfl⟩ : ∃ t, m = t + 1 := ⟨m - 1, by omega⟩
  have hblock : sub64 (s * c.bytesPerBlock + (t + 1) * c.bytesPerBlock) 1 / c.bytesPerBlock
      = s + t := by
    refine last_block (le_trans ?_ hword)
    rw [FreelistConf.bytesPerKey, mul_comm c.bytesPerBlock, ← mul_assoc]
    exact mul_le_mul_right _ hle
  have hlast : (s + t) / c.blocksPerKey < keys :=
    Nat.div_lt_of_lt_mul (by rw [Nat.mul_comm]; omega)
  have hsame : s / c.blocksPerKey = (s + t) / c.blocksPerKey →
      s % c.blocksPerKey ≤ (s + t) % c.blocksPerKey := by
    intro hsame
    have hs := div_add_mod' s c.blocksPerKey
    have hst := div_add_mod' (s + t) c.blocksPerKey
    rw [← hsame] at hst
    omega
  obtain ⟨db', hrun, hbits⟩ := hdb.xorKeys (Nat.div_le_div_right (Nat.le_add_right s t)) hlast
    (mod_lt s hkeypos) (mod_lt (s + t) hkeypos) hsame hword
  refine ⟨db', ?_, ?_⟩
  · simp only [Os.xor]
    rw [assert_bind (by rw [Nat.mul_div_cancel _ hpos]),
      assert_bind (by rw [Nat.mul_div_cancel _ hpos]), keyOf_eq (Nat.mul_div_cancel _ hpos),
      keyOf_eq hblock, bitOf_eq (Nat.mul_div_cancel _ hpos), bitOf_eq hblock, hrun]
  · rwa [div_add_mod', ← add_assoc, div_add_mod'] at hbits

/-! ## Calls -/

/-- The calls allocate free blocks of the device and release used ones; the blocks in use
after them. -/
inductive Alternating (c : FreelistConf) : List FreelistCall → Set ℕ → Prop
  | create : Alternating c [] ∅
  | allocate {calls : List FreelistCall} {used : Set ℕ} {s m : ℕ} : Alternating c calls used →
      0 < m → s + m ≤ c.deviceBlocks → Disjoint (Ico s (s + m)) used →
      Alternating c (calls ++ [.allocate (s * c.bytesPerBlock) (m * c.bytesPerBlock)])
        (used ∪ Ico s (s + m))
  | release {calls : List FreelistCall} {used : Set ℕ} {s m : ℕ} : Alternating c calls used →
      0 < m → s + m ≤ c.deviceBlocks → Ico s (s + m) ⊆ used →
      Alternating c (calls ++ [.release (s * c.bytesPerBlock) (m * c.bytesPerBlock)])
        (used \ Ico s (s + m))

/-- The store has the blocks in use and those past the end; which other keys it has is open. -/
def Represents (c : FreelistConf) (used : Set ℕ) (db : BitmapDb c) : Prop :=
  HasBits (c.blocks / c.blocksPerKey) db (used ∪ Ico c.deviceBlocks c.blocks)

variable {calls : List FreelistCall} {used : Set ℕ}

theorem Alternating.subset (h : Alternating c calls used) : used ⊆ Iio c.deviceBlocks := by
  induction h with
  | create => exact empty_subset _
  | allocate _ _ hle _ ih => exact union_subset ih fun b hb => hb.2.trans_le hle
  | release _ _ _ _ ih => exact sdiff_subset.trans ih

namespace FreelistConf

variable (c : FreelistConf)

/-- The keys of the device fill the blocks. -/
theorem keys_mul : c.blocks / c.blocksPerKey * c.blocksPerKey = c.blocks := by
  obtain ⟨keys, hkeys, -⟩ := c.blocks_spec
  rw [hkeys, Nat.mul_div_cancel _ c.blocksPerKey_pos]

theorem keys_mul_bytes :
    c.blocks / c.blocksPerKey * c.bytesPerKey = c.blocks * c.bytesPerBlock := by
  nth_rewrite 2 [← c.keys_mul]
  rw [bytesPerKey]
  ring

end FreelistConf

theorem Represents.xor (hdb : Represents c used db) {m : ℕ} (hm : 0 < m)
    (hsm : s + m ≤ c.deviceBlocks) : ∃ db',
      Os.xor (s * c.bytesPerBlock) (m * c.bytesPerBlock) db = some db' ∧
      Represents c (symmDiff used (Ico s (s + m))) db' := by
  obtain ⟨-, -, hle, -⟩ := c.blocks_spec
  obtain ⟨db', hxor, hbits⟩ := HasBits.xor hdb (s := s) hm (by rw [c.keys_mul]; omega)
    (by rw [c.keys_mul_bytes]; exact c.blocks_le)
  refine ⟨db', hxor, ?_⟩
  have hset : symmDiff used (Ico s (s + m)) ∪ Ico c.deviceBlocks c.blocks
      = symmDiff (used ∪ Ico c.deviceBlocks c.blocks) (Ico s (s + m)) := by
    ext b
    simp only [mem_symmDiff, mem_union, mem_Ico]
    grind
  rwa [Represents, hset]

theorem create_represents (c : FreelistConf) : ∃ db, create c = some db ∧ Represents c ∅ db := by
  have hnew : HasBits (c.blocks / c.blocksPerKey) ([] : BitmapDb c) ∅ :=
    ⟨List.Pairwise.nil, fun p hp => absurd hp List.not_mem_nil, fun b => by simp [SetBit]⟩
  obtain ⟨-, -, hle, -⟩ := c.blocks_spec
  have hcreate : create c = if c.deviceBlocks / c.blocksPerKey * c.blocksPerKey ≠ c.deviceBlocks
      then xor c.size (sub64 (c.blocks * c.bytesPerBlock) c.size) [] else some [] := rfl
  rw [hcreate]
  split_ifs with hround
  · -- the blocks past the end are in the last key
    have hlt : c.deviceBlocks < c.blocks := by
      refine lt_of_le_of_ne hle fun heq => hround ?_
      rw [heq, c.keys_mul]
    have hlen : sub64 (c.blocks * c.bytesPerBlock) c.size
        = (c.blocks - c.deviceBlocks) * c.bytesPerBlock := by
      have hpos : 0 < c.deviceBlocks := by
        refine Nat.pos_of_ne_zero fun hzero => hround ?_
        rw [hzero, Nat.zero_div, Nat.zero_mul]
      rw [Nat.sub_mul, ← c.size_eq]
      have hsize : c.size ≤ c.blocks * c.bytesPerBlock := by
        rw [c.size_eq]
        exact Nat.mul_le_mul_right _ hle
      have hsize' : 0 < c.size := by
        rw [c.size_eq]
        exact Nat.mul_pos hpos c.bytesPerBlock_pos
      exact sub64_eq hsize ((sub_lt (hsize'.trans_le hsize) hsize').trans_le c.blocks_le)
    obtain ⟨db, hxor, hbits⟩ := hnew.xor (s := c.deviceBlocks) (Nat.sub_pos_of_lt hlt)
      (by rw [c.keys_mul]; omega) (by rw [c.keys_mul_bytes]; exact c.blocks_le)
    refine ⟨db, by rw [hlen, c.size_eq]; exact hxor, ?_⟩
    rw [Nat.add_sub_cancel' hle] at hbits
    have hset : ∅ ∪ Ico c.deviceBlocks c.blocks = symmDiff ∅ (Ico c.deviceBlocks c.blocks) := by
      rw [empty_union, ← bot_eq_empty, bot_symmDiff]
    rwa [Represents, hset]
  · have hblocks : c.blocks = c.deviceBlocks := if_neg hround
    refine ⟨[], rfl, ?_⟩
    rwa [Represents, hblocks, Ico_self, empty_union, ← hblocks]

theorem freelistRun_concat (hrun : freelistRun c calls = some db) (call : FreelistCall) :
    freelistRun c (calls ++ [call]) = call.apply db := by
  simp only [freelistRun, List.foldlM_append, List.foldlM_cons, List.foldlM_nil,
    bind_pure] at hrun ⊢
  rw [← bind_assoc, hrun]
  rfl

/-- **The store after calls.**  It has the blocks that are in use. -/
theorem represents_run (h : Alternating c calls used) :
    ∃ db, freelistRun c calls = some db ∧ Represents c used db := by
  induction h with
  | create =>
    obtain ⟨db, hdb, hrep⟩ := create_represents c
    exact ⟨db, by rw [freelistRun, hdb]; rfl, hrep⟩
  | @allocate calls used s m hcalls hm hsm hfree ih =>
    obtain ⟨db, hrun, hrep⟩ := ih
    obtain ⟨db', hxor, hrep'⟩ := hrep.xor hm hsm
    rw [hfree.symm.symmDiff_eq_sup] at hrep'
    exact ⟨db', (freelistRun_concat hrun _).trans hxor, hrep'⟩
  | @release calls used s m hcalls hm hsm hused ih =>
    obtain ⟨db, hrun, hrep⟩ := ih
    obtain ⟨db', hxor, hrep'⟩ := hrep.xor hm hsm
    rw [symmDiff_of_ge hused] at hrep'
    exact ⟨db', (freelistRun_concat hrun _).trans hxor, hrep'⟩

end Ceph.Os
