import Ceph.Common.HObject

/-!
# The order of objects

`cmp` of `common/hobject.cc`.  Objects are ordered by pool, then by the hash with its
bits reversed, then by namespace, key, name and snap.
-/

namespace Ceph.Common

open HObject BitVec

/-- `hobject_t::_reverse_bits` -/
def reverseBits (v : BitVec 32) : BitVec 32 :=
  if v = 0#32 then v
  else
    -- swap odd and even bits
    let v := ((v >>> 1) &&& 0x55555555#32) ||| ((v &&& 0x55555555#32) <<< 1)
    -- swap consecutive pairs
    let v := ((v >>> 2) &&& 0x33333333#32) ||| ((v &&& 0x33333333#32) <<< 2)
    -- swap nibbles
    let v := ((v >>> 4) &&& 0x0F0F0F0F#32) ||| ((v &&& 0x0F0F0F0F#32) <<< 4)
    -- swap bytes
    let v := ((v >>> 8) &&& 0x00FF00FF#32) ||| ((v &&& 0x00FF00FF#32) <<< 8)
    -- swap 2-byte long pairs
    (v >>> 16) ||| (v <<< 16)

/-- Five swaps reverse the word. -/
theorem reverseBits_eq (v : BitVec 32) : reverseBits v = v.reverse := by
  unfold reverseBits
  split_ifs with hv
  · rw [hv]
    refine eq_of_getLsbD_eq fun i hi => ?_
    rw [getLsbD_reverse, getMsbD_zero, getLsbD_zero]
  · refine eq_of_getLsbD_eq fun i hi => ?_
    rw [getLsbD_reverse, getMsbD_eq_getLsbD]
    interval_cases i <;> simp

@[simp] theorem reverseBits_reverseBits (v : BitVec 32) : reverseBits (reverseBits v) = v := by
  rw [reverseBits_eq, reverseBits_eq, reverse_reverse_eq]

/-- `get_bitwise_key_u32()` -/
def HObject.bitwiseKey (o : HObject) : BitVec 32 := reverseBits o.hash

/-- `get_effective_key()` -/
def HObject.effectiveKey (o : HObject) : List Char := if o.key.length ≠ 0 then o.key else o.name

/-- `cmp(const hobject_t&, const hobject_t&)`, for objects other than `get_max()`. -/
def cmpHObject (l r : HObject) : Ordering :=
  (cmp l.pool.toInt r.pool.toInt).then <|
  (cmp l.bitwiseKey.toNat r.bitwiseKey.toNat).then <|
  (lexCmp l.nspace r.nspace).then <|
  (lexCmp l.effectiveKey r.effectiveKey).then <|
  (lexCmp l.name r.name).then <|
  cmp l.snap.toNat r.snap.toNat

/-- `ghobject_t`, apart from `max`. -/
structure GHObject where
  hobj : HObject
  generation : BitVec 64
  shardId : BitVec 8
  deriving DecidableEq

/-- `cmp(const ghobject_t&, const ghobject_t&)`, for objects other than `get_max()`. -/
def cmpGHObject (l r : GHObject) : Ordering :=
  (cmp l.shardId.toInt r.shardId.toInt).then <|
  (cmpHObject l.hobj r.hobj).then <|
  cmp l.generation.toNat r.generation.toNat

/-- `cmp(const hobject_t&, const hobject_t&)`; `⊤` is `hobject_t::get_max()`. -/
def cmpBound : WithTop HObject → WithTop HObject → Ordering
  | some l, some r => cmpHObject l r
  | some _, none => .lt
  | none, some _ => .gt
  | none, none => .eq

/-- The object `hobject_t(object_t(), string(), CEPH_NOSNAP, hash, pool, string())`, with which
ranges of objects begin and end. -/
def boundary (pool : BitVec 64) (hash : BitVec 32) : HObject := ⟨[], noSnap, hash, pool, [], []⟩

/-- An object that sorts before the boundary with its own hash: it has neither a name nor a key nor
a namespace, and its snap is below `CEPH_NOSNAP`. -/
def HObject.Nameless (o : HObject) : Prop :=
  o.nspace = [] ∧ o.key = [] ∧ o.name = [] ∧ o.snap.toNat < noSnap.toNat

instance (o : HObject) : Decidable o.Nameless :=
  inferInstanceAs (Decidable (_ ∧ _ ∧ _ ∧ _))

/-- Every other object sorts at or after the boundary with its hash. -/
theorem cmpHObject_boundary {o : HObject} (ho : ¬ o.Nameless) :
    cmpHObject (boundary o.pool o.hash) o ≠ .gt ∧ cmpHObject o (boundary o.pool o.hash) ≠ .lt := by
  obtain ⟨name, snap, hash, pool, nspace, key⟩ := o
  cases nspace with
  | cons a s => simp [cmpHObject, boundary, bitwiseKey]
  | nil =>
    cases key with
    | cons a s => simp [cmpHObject, boundary, bitwiseKey, effectiveKey]
    | nil =>
      cases name with
      | cons a s => simp [cmpHObject, boundary, bitwiseKey, effectiveKey]
      | nil =>
        -- only the snaps are left to compare
        have hsnap : noSnap.toNat ≤ snap.toNat := by simpa [Nameless] using ho
        simpa [cmpHObject, boundary, bitwiseKey, effectiveKey] using hsnap

theorem bitwiseKey_injective {l r : HObject} (h : l.bitwiseKey = r.bitwiseKey) :
    l.hash = r.hash := by
  have hrev := congrArg reverseBits h
  simpa [bitwiseKey] using hrev

/-- Objects of one pool with different hashes sort by their reversed hashes. -/
theorem cmpHObject_of_hash_ne {l r : HObject} (hpool : l.pool = r.pool) (hhash : l.hash ≠ r.hash) :
    cmpHObject l r = cmp l.bitwiseKey.toNat r.bitwiseKey.toNat := by
  have hne : cmp l.bitwiseKey.toNat r.bitwiseKey.toNat ≠ .eq := by
    rw [Ne, cmp_eq_eq_iff]
    exact fun h => hhash (bitwiseKey_injective (eq_of_toNat_eq h))
  rw [cmpHObject, hpool, cmp_self_eq_eq]
  cases hcmp : cmp l.bitwiseKey.toNat r.bitwiseKey.toNat with
  | lt => rfl
  | gt => rfl
  | eq => exact absurd hcmp hne

section

variable {o : HObject} {pool : BitVec 64} (hash : BitVec 32)

/-- What comes before a boundary is decided by the hash. -/
theorem lt_boundary_iff (hpool : o.pool = pool) (ho : ¬ o.Nameless) :
    cmpHObject o (boundary pool hash) = .lt ↔
      (reverseBits o.hash).toNat < (reverseBits hash).toNat := by
  subst hpool
  by_cases hhash : o.hash = hash
  · subst hhash
    exact iff_of_false (cmpHObject_boundary ho).2 (lt_irrefl _)
  · have hcmp : cmpHObject o (boundary o.pool hash) = _ := cmpHObject_of_hash_ne rfl hhash
    rw [hcmp, cmp_eq_lt_iff]
    rfl

theorem boundary_le_iff (hpool : o.pool = pool) (ho : ¬ o.Nameless) :
    cmpHObject (boundary pool hash) o ≠ .gt ↔
      (reverseBits hash).toNat ≤ (reverseBits o.hash).toNat := by
  subst hpool
  by_cases hhash : o.hash = hash
  · subst hhash
    exact iff_of_true (cmpHObject_boundary ho).1 le_rfl
  · have hcmp : cmpHObject (boundary o.pool hash) o = _ :=
      cmpHObject_of_hash_ne rfl (Ne.symm hhash)
    rw [hcmp, Ne, cmp_eq_gt_iff, not_lt]
    rfl

end

end Ceph.Common
