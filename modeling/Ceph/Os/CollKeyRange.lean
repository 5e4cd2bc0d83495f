import Ceph.Os.BlueStoreKeyOrder
import Ceph.Osd.PgSplit

/-!
# The keys of a collection

`get_coll_key_range` of `os/bluestore/BlueStore.cc`.  The objects of a placement group
are those whose reversed hash lies in one interval, and their keys begin with it.  The end
of the interval is cut off at `0xffffffff`, so the last placement group misses the objects
with the largest hash.

* `inKeyRange_iff` — the keys between two beginnings.
* `collKeyRange_exact_iff` — for which objects, and for which placement groups, the range
  is exact.
-/

namespace Ceph.Os

open Common Osd

/-! ## The functions -/

/-- `spg_t` -/
structure Spg where
  pgid : Pg
  shard : BitVec 8

/-- `coll_t` -/
inductive Coll where
  | metadata
  | legacyTemp
  | pg (pgid : Spg)
  | pgTemp (pgid : Spg)

/-- `coll_t::is_pg` -/
def Coll.isPg : Coll → Option Spg
  | .pg pgid => some pgid
  | _ => none

/-- What `get_coll_key_range` sets. -/
structure KeyRange where
  tempStart : List Char
  tempEnd : List Char
  start : List Char
  stop : List Char

/-- The pool of the temporary objects of a pool. -/
def tempPool (pool : BitVec 64) : BitVec 64 := -2#64 - pool

/-- `end_hash` -/
def endHash (reverseHash : BitVec 32) (bits : ℕ) : BitVec 32 :=
  let endHash := reverseHash.toNat + 2 ^ (32 - bits)
  BitVec.ofNat 32 (if 0xffffffff < endHash then 0xffffffff else endHash)

variable (shard : BitVec 8)

/-- The beginning of the keys of a shard, a pool and a hash. -/
def keyStart (pool : BitVec 64) (hash : BitVec 32) : List Char :=
  keyEncodeShard shard ++ keyEncodeU64 (pool + 0x8000000000000000#64) ++ keyEncodeU32 hash

/-- `get_coll_key_range` -/
def getCollKeyRange (cid : Coll) (bits : ℕ) : KeyRange :=
  match cid.isPg with
  | some pgid =>
    let reverseHash := reverseBits pgid.pgid.seed
    { tempStart := keyStart pgid.shard (tempPool pgid.pgid.pool) reverseHash
      tempEnd := keyStart pgid.shard (tempPool pgid.pgid.pool) (endHash reverseHash bits)
      start := keyStart pgid.shard pgid.pgid.pool reverseHash
      stop := keyStart pgid.shard pgid.pgid.pool (endHash reverseHash bits) }
  | none =>
    let stop := keyStart (-1#8) (-1#64) 0xffffffff#32
    { tempStart := stop, tempEnd := stop, start := keyStart (-1#8) (-1#64) 0#32, stop }

/-- `key` lies in `[start, stop)`. -/
def InKeyRange (start stop key : List Char) : Prop :=
  lexCmp start key ≠ .gt ∧ lexCmp key stop = .lt

/-! ## Keys between two beginnings -/

/-- What follows the hash in a key is not empty. -/
theorem exists_objectKey_eq (o : GHObject) :
    ∃ c s, objectKey o = keyStart o.shardId o.hobj.pool o.hobj.bitwiseKey ++ c :: s := by
  rw [objectKey_eq, keyStart]
  cases h : appendEscaped o.hobj.nspace ++ (appendEscaped o.hobj.effectiveKey ++ keyTail o) with
  | nil => simp [appendEscaped] at h
  | cons c s => exact ⟨c, s, by simp⟩

theorem length_keyStart (pool : BitVec 64) (hash : BitVec 32) :
    (keyStart shard pool hash).length = 13 := by
  simp [keyStart]

theorem lexCmp_keyStart (p q : BitVec 64) (u v : BitVec 32) :
    lexCmp (keyStart shard p u) (keyStart shard q v) =
      (cmp p.toInt q.toInt).then (cmp u.toNat v.toNat) := by
  rw [keyStart, keyStart, lexCmp_append (by simp), lexCmp_append rfl, lexCmp_self, Ordering.eq_then,
    lexCmp_keyEncodeU64, cmp_add_pool, lexCmp_keyEncodeU32]

/-- The keys from one hash of a pool up to another. -/
theorem inKeyRange_iff (o : GHObject) (pool : BitVec 64) (first last : BitVec 32) :
    InKeyRange (keyStart o.shardId pool first) (keyStart o.shardId pool last) (objectKey o) ↔
      o.hobj.pool = pool ∧ first.toNat ≤ o.hobj.bitwiseKey.toNat ∧
        o.hobj.bitwiseKey.toNat < last.toNat := by
  obtain ⟨c, s, hkey⟩ := exists_objectKey_eq o
  have hstart : lexCmp (keyStart o.shardId pool first) (objectKey o) =
      ((cmp pool.toInt o.hobj.pool.toInt).then
        (cmp first.toNat o.hobj.bitwiseKey.toNat)).then .lt := by
    rw [hkey, ← List.append_nil (keyStart o.shardId pool first),
      lexCmp_append (by rw [length_keyStart, length_keyStart]), lexCmp_keyStart]
    rfl
  have hstop : lexCmp (objectKey o) (keyStart o.shardId pool last) =
      ((cmp o.hobj.pool.toInt pool.toInt).then
        (cmp o.hobj.bitwiseKey.toNat last.toNat)).then .gt := by
    rw [hkey, ← List.append_nil (keyStart o.shardId pool last),
      lexCmp_append (by rw [length_keyStart, length_keyStart]), lexCmp_keyStart]
    rfl
  have hle : ∀ u v : ℕ, (cmp u v).then .lt ≠ .gt ↔ u ≤ v := fun u v => by
    rcases lt_trichotomy u v with h | rfl | h
    · simp [(cmp_eq_lt_iff _ _).2 h, h.le]
    · simp
    · simp [(cmp_eq_gt_iff _ _).2 h, h]
  have hlt : ∀ u v : ℕ, (cmp u v).then .gt = .lt ↔ u < v := fun u v => by
    rcases lt_trichotomy u v with h | rfl | h
    · simp [(cmp_eq_lt_iff _ _).2 h, h]
    · simp
    · simp [(cmp_eq_gt_iff _ _).2 h, h.le]
  rw [InKeyRange, hstart, hstop, ← BitVec.toInt_inj]
  rcases lt_trichotomy o.hobj.pool.toInt pool.toInt with h | h | h
  · rw [(cmp_eq_gt_iff _ _).2 h]
    exact iff_of_false (fun hr => hr.1 rfl) (fun hr => h.ne hr.1)
  · rw [h, cmp_self_eq_eq, Ordering.eq_then, Ordering.eq_then, hle, hlt, and_iff_right rfl]
  · rw [(cmp_eq_gt_iff _ _).2 h]
    exact iff_of_false (fun hr => Ordering.noConfusion hr.2) (fun hr => h.ne' hr.1)

/-! ## Exactness -/

/-- The low bits of the hash are those of the seed. -/
def Agrees (pgid : Spg) (bits : ℕ) (o : GHObject) : Prop :=
  o.hobj.hash.toNat % 2 ^ bits = pgid.pgid.seed.toNat % 2 ^ bits

/-- The two ranges of the placement group hold the object if and only if it belongs to it. -/
def RangeExact (pgid : Spg) (bits : ℕ) (o : GHObject) : Prop :=
  ∃ key, getObjectKey o = some key ∧
    (InKeyRange (getCollKeyRange (.pg pgid) bits).start (getCollKeyRange (.pg pgid) bits).stop key ↔
      o.hobj.pool = pgid.pgid.pool ∧ Agrees pgid bits o) ∧
    (InKeyRange (getCollKeyRange (.pg pgid) bits).tempStart
        (getCollKeyRange (.pg pgid) bits).tempEnd key ↔
      o.hobj.pool = tempPool pgid.pgid.pool ∧ Agrees pgid bits o)

section

variable {pgid : Spg} {bits : ℕ} {o : GHObject}

theorem rangeExact_iff (ho : WellNamed o) (hshard : o.shardId = pgid.shard) :
    RangeExact pgid bits o ↔ (o.hobj.pool = pgid.pgid.pool ∨ o.hobj.pool = tempPool pgid.pgid.pool →
        ((reverseBits pgid.pgid.seed).toNat ≤ o.hobj.bitwiseKey.toNat ∧
            o.hobj.bitwiseKey.toNat < (endHash (reverseBits pgid.pgid.seed) bits).toNat ↔
          Agrees pgid bits o)) := by
  have hrange : RangeExact pgid bits o ↔
      (InKeyRange (keyStart o.shardId pgid.pgid.pool (reverseBits pgid.pgid.seed))
          (keyStart o.shardId pgid.pgid.pool (endHash (reverseBits pgid.pgid.seed) bits))
          (objectKey o) ↔ o.hobj.pool = pgid.pgid.pool ∧ Agrees pgid bits o) ∧
        (InKeyRange (keyStart o.shardId (tempPool pgid.pgid.pool) (reverseBits pgid.pgid.seed))
          (keyStart o.shardId (tempPool pgid.pgid.pool)
            (endHash (reverseBits pgid.pgid.seed) bits)) (objectKey o) ↔
          o.hobj.pool = tempPool pgid.pgid.pool ∧ Agrees pgid bits o) := by
    rw [RangeExact, getObjectKey_eq ho, hshard]
    exact ⟨fun ⟨key, hkey, h⟩ => Option.some.inj hkey ▸ h, fun h => ⟨_, rfl, h⟩⟩
  rw [hrange, inKeyRange_iff, inKeyRange_iff, and_congr_right_iff, and_congr_right_iff, or_imp]

theorem toNat_endHash (reverseHash : BitVec 32) (bits : ℕ) :
    (endHash reverseHash bits).toNat = min (reverseHash.toNat + 2 ^ (32 - bits)) (2 ^ 32 - 1) := by
  rw [endHash, BitVec.toNat_ofNat]
  generalize reverseHash.toNat + 2 ^ (32 - bits) = n
  split_ifs <;> omega

/-- Only the last placement group reaches the largest hash. -/
theorem two_pow_le_iff (hbits : bits ≤ 32) (hseed : pgid.pgid.seed.toNat < 2 ^ bits) :
    2 ^ 32 ≤ (reverseBits pgid.pgid.seed).toNat + 2 ^ (32 - bits) ↔
      pgid.pgid.seed.toNat = 2 ^ bits - 1 := by
  have hones : (0xffffffff#32).toNat % 2 ^ bits = 2 ^ bits - 1 := by
    have hall : ∀ n < 33, 0xffffffff % 2 ^ n = 2 ^ n - 1 := by decide
    exact hall bits (by omega)
  have hrev : (0xffffffff#32).reverse.toNat = 2 ^ 32 - 1 := by
    rw [← reverseBits_eq]
    decide
  have hmem := mod_two_pow_eq_iff_reverse_mem hbits hseed (x := 0xffffffff#32)
  rw [reverseBits_eq]
  omega

/-- The object that the range misses. -/
def IsLargest (pgid : Spg) (bits : ℕ) (o : GHObject) : Prop :=
  pgid.pgid.seed.toNat = 2 ^ bits - 1 ∧ o.hobj.hash = 0xffffffff#32 ∧
    (o.hobj.pool = pgid.pgid.pool ∨ o.hobj.pool = tempPool pgid.pgid.pool)

theorem bitwiseKey_eq_max_iff (o : HObject) :
    o.bitwiseKey.toNat = 2 ^ 32 - 1 ↔ o.hash = 0xffffffff#32 := by
  have hmax : (reverseBits 0xffffffff#32).toNat = 2 ^ 32 - 1 := by decide
  rw [HObject.bitwiseKey, ← hmax, BitVec.toNat_inj]
  refine ⟨fun h => ?_, fun h => by rw [h]⟩
  have hrev := congrArg reverseBits h
  rwa [reverseBits_reverseBits] at hrev

/-- What is lost when the end of an interval is cut off at the largest number. -/
theorem cut_iff {first key : ℕ} (width : ℕ) (hfirst : first < 2 ^ 32) (hkey : key < 2 ^ 32) :
    (first ≤ key ∧ key < min (first + width) (2 ^ 32 - 1) ↔ first ≤ key ∧ key < first + width) ↔
      ¬ (2 ^ 32 ≤ first + width ∧ key = 2 ^ 32 - 1) := by
  omega

/-- The range is exact for every object but the largest. -/
theorem rangeExact_iff_not_isLargest (hbits : bits ≤ 32) (hseed : pgid.pgid.seed.toNat < 2 ^ bits)
    (ho : WellNamed o) (hshard : o.shardId = pgid.shard) :
    RangeExact pgid bits o ↔ ¬ IsLargest pgid bits o := by
  have hmem := mod_two_pow_eq_iff_reverse_mem hbits hseed (x := o.hobj.hash)
  rw [rangeExact_iff ho hshard, toNat_endHash, Agrees, Nat.mod_eq_of_lt hseed, hmem,
    ← reverseBits_eq, ← reverseBits_eq, IsLargest, ← two_pow_le_iff hbits hseed,
    ← bitwiseKey_eq_max_iff]
  have hcut := cut_iff (2 ^ (32 - bits)) (reverseBits pgid.pgid.seed).isLt o.hobj.bitwiseKey.isLt
  rw [show reverseBits o.hobj.hash = o.hobj.bitwiseKey from rfl, hcut]
  exact ⟨fun h hl => h hl.2.2 ⟨hl.1, hl.2.1⟩, fun h hp hl => h ⟨hl.1, hl.2, hp⟩⟩

end

/-- An object of this pool and hash. -/
def placed (pool : BitVec 64) (hash : BitVec 32) : GHObject :=
  ⟨⟨[], 0, hash, pool, [], []⟩, 0, shard⟩

theorem wellNamed_placed (pool : BitVec 64) (hash : BitVec 32) :
    WellNamed (placed shard pool hash) := by
  refine ⟨?_, ?_, ?_, fun h => h⟩ <;> exact fun _ hch => absurd hch List.not_mem_nil

/-- A seed with bits beyond the significant ones begins the range too late. -/
theorem seed_lt_of_rangeExact {bits : ℕ} (hbits : bits ≤ 32) {pgid : Spg}
    (h : ∀ o, WellNamed o → o.shardId = pgid.shard → RangeExact pgid bits o) :
    pgid.pgid.seed.toNat < 2 ^ bits := by
  have hpos := Nat.two_pow_pos bits
  have hmodlt := Nat.mod_lt pgid.pgid.seed.toNat hpos
  -- the object whose hash has only the significant bits
  obtain ⟨low, hlow⟩ : ∃ low : BitVec 32, low.toNat = pgid.pgid.seed.toNat % 2 ^ bits := by
    refine ⟨BitVec.ofNat 32 (pgid.pgid.seed.toNat % 2 ^ bits), ?_⟩
    exact Nat.mod_eq_of_lt ((Nat.mod_le _ _).trans_lt pgid.pgid.seed.isLt)
  have hexact := h (placed pgid.shard pgid.pgid.pool low) (wellNamed_placed ..) rfl
  rw [rangeExact_iff (wellNamed_placed ..) rfl] at hexact
  have hagree : Agrees pgid bits (placed pgid.shard pgid.pgid.pool low) := by
    change low.toNat % 2 ^ bits = _
    rw [hlow, Nat.mod_mod]
  have hstart : (reverseBits pgid.pgid.seed).toNat ≤ (reverseBits low).toNat :=
    ((hexact (.inl rfl)).2 hagree).1
  -- but that hash, reversed, comes before the reversed seed
  have hbefore := (mod_two_pow_eq_iff_reverse_mem hbits (hlow ▸ hmodlt)).1 hlow.symm
  rw [reverseBits_eq, reverseBits_eq] at hstart
  have heq : pgid.pgid.seed = low := by
    have hrev := BitVec.eq_of_toNat_eq (le_antisymm hstart hbefore.1)
    rw [← BitVec.reverse_reverse_eq (x := pgid.pgid.seed), hrev, BitVec.reverse_reverse_eq]
  rw [← heq] at hlow
  omega

/-- **The key range of a collection is exact** for every object but the one with the largest hash
in the last placement group, if the seed has no bits beyond the significant ones. -/
theorem collKeyRange_exact_iff {bits : ℕ} (hbits : bits ≤ 32) (pgid : Spg) :
    (pgid.pgid.seed.toNat < 2 ^ bits → ∀ o, WellNamed o → o.shardId = pgid.shard →
      (RangeExact pgid bits o ↔ ¬ IsLargest pgid bits o)) ∧
    ((∀ o, WellNamed o → o.shardId = pgid.shard → RangeExact pgid bits o) ↔
      pgid.pgid.seed.toNat < 2 ^ bits ∧ pgid.pgid.seed.toNat ≠ 2 ^ bits - 1) := by
  refine ⟨fun hseed o ho hshard => rangeExact_iff_not_isLargest hbits hseed ho hshard, ?_, ?_⟩
  · intro h
    have hseed := seed_lt_of_rangeExact hbits h
    refine ⟨hseed, fun hlast => ?_⟩
    have hexact := h (placed pgid.shard pgid.pgid.pool 0xffffffff#32) (wellNamed_placed ..) rfl
    rw [rangeExact_iff_not_isLargest hbits hseed (wellNamed_placed ..) rfl] at hexact
    exact hexact ⟨hlast, rfl, .inl rfl⟩
  · rintro ⟨hseed, hlast⟩ o ho hshard
    rw [rangeExact_iff_not_isLargest hbits hseed ho hshard]
    exact fun hlargest => hlast hlargest.1

/-- Placement group 1 of 4. -/
theorem collKeyRange_exact_iff_second :
    (2 ≤ 32) ∧ ((1#32).toNat < 2 ^ 2 → ∀ o, WellNamed o → o.shardId = 0#8 →
      (RangeExact ⟨⟨5#64, 1#32⟩, 0#8⟩ 2 o ↔ ¬ IsLargest ⟨⟨5#64, 1#32⟩, 0#8⟩ 2 o)) ∧
    ((∀ o, WellNamed o → o.shardId = 0#8 → RangeExact ⟨⟨5#64, 1#32⟩, 0#8⟩ 2 o) ↔
      (1#32).toNat < 2 ^ 2 ∧ (1#32).toNat ≠ 2 ^ 2 - 1) :=
  ⟨by decide, collKeyRange_exact_iff (by decide) ⟨⟨5#64, 1#32⟩, 0#8⟩⟩

/-- The only placement group of a pool misses the object with the largest hash. -/
theorem collKeyRange_misses : ∃ key, getObjectKey (placed 0 5 0xffffffff#32) = some key ∧
      Agrees ⟨⟨5, 0⟩, 0⟩ 0 (placed 0 5 0xffffffff#32) ∧
      ¬ InKeyRange (getCollKeyRange (.pg ⟨⟨5, 0⟩, 0⟩) 0).start
        (getCollKeyRange (.pg ⟨⟨5, 0⟩, 0⟩) 0).stop key := by
  refine ⟨_, getObjectKey_eq (wellNamed_placed ..), ?_, fun h => absurd h.2 (by decide)⟩
  rw [Agrees, Nat.pow_zero, Nat.mod_one, Nat.mod_one]

end Ceph.Os
