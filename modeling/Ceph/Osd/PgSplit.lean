import Ceph.Common.HObjectOrder
import Ceph.Lib.BitReverse
import Ceph.Lib.Loop

/-!
# Which objects belong to a placement group

A pool with `pg_num` placement groups assigns an object to a group in three ways: by
`ceph_stable_mod` of its hash (`include/rados.h`), by the low bits of the hash
(`pg_t::get_split_bits`) and by a range of objects (`pg_t::get_hobj_start` and
`get_hobj_end`).  The three are one (`pg_membership`).

`int` and `unsigned` are words of 32 bits with the arithmetic of the machine: for a
`pg_num` above `2 ^ 30` the mask `(1 << 31) - 1` is computed with a wrap-around.
-/

namespace Ceph.Osd

open Common BitVec Nat

/-! ## The functions -/

/-- `cbits`: the number of bits of `v`. -/
def cbits (v : BitVec 32) : ℕ := if v = 0#32 then 0 else log2 v.toNat + 1

/-- `(1 << bits) - 1` -/
def lowMask (bits : ℕ) : BitVec 32 := (1#32 <<< bits) - 1#32

/-- `ceph_stable_mod`, on `int`. -/
def cephStableMod (x b bmask : BitVec 32) : BitVec 32 :=
  if (x &&& bmask).slt b then x &&& bmask else x &&& bmask.sshiftRight 1

/-- `pg_num_mask`, as `pg_pool_t::calc_pg_masks` sets it. -/
def pgNumMask (pgNum : BitVec 32) : BitVec 32 := lowMask (cbits (pgNum - 1#32))

/-- `pg_t` -/
structure Pg where
  pool : BitVec 64
  seed : BitVec 32

/-- `pg_t::get_ancestor` -/
def Pg.getAncestor (pg : Pg) (oldPgNum : BitVec 32) : Pg :=
  { pg with seed := cephStableMod pg.seed oldPgNum (lowMask (cbits oldPgNum)) }

/-- `pg_t::get_split_bits` -/
def Pg.getSplitBits (pg : Pg) (pgNum : BitVec 32) : Option ℕ :=
  if pgNum = 1#32 then some 0
  else do
    assert (1 < pgNum.toNat)
    let p := cbits pgNum
    assert (p ≠ 0)
    if pg.seed % (1#32 <<< (p - 1)) < pgNum % (1#32 <<< (p - 1)) then some p else some (p - 1)

/-- `pg_t::get_hobj_start` -/
def Pg.getHobjStart (pg : Pg) : HObject := boundary pg.pool pg.seed

/-- `pg_t::get_hobj_end`; `⊤` is `hobject_t::get_max()`. -/
def Pg.getHobjEnd (pg : Pg) (pgNum : BitVec 32) : Option (WithTop HObject) := do
  let bits ← pg.getSplitBits pgNum
  let revStart : BitVec 64 := (reverseBits pg.seed).setWidth 64
  let revEnd := (revStart ||| (0xffffffff#32 >>> bits).setWidth 64) + 1#64
  if 0x100000000#64 ≤ revEnd then do
    assert (revEnd = 0x100000000#64)
    some ⊤
  else some (boundary pg.pool (reverseBits (revEnd.setWidth 32)))

/-- `o` lies in `[start, bound)`. -/
def InRange (start : HObject) (bound : WithTop HObject) (o : HObject) : Prop :=
  cmpBound start o ≠ .gt ∧ cmpBound o bound = .lt

/-! ## Masks -/

variable {n : ℕ}

theorem toNat_lowMask (hn : n < 32) : (lowMask n).toNat = 2 ^ n - 1 := by
  have hpos : 0 < 2 ^ n := Nat.two_pow_pos n
  have hlt : 2 ^ n < 2 ^ 32 := Nat.pow_lt_pow_right (by decide) hn
  have hshift : (1#32 <<< n).toNat = 2 ^ n := by
    rw [toNat_shiftLeft, Nat.shiftLeft_eq]
    simpa using hlt
  rw [lowMask, toNat_sub_of_le, hshift]
  · rfl
  · rwa [le_def, hshift]

theorem toNat_and_lowMask (x : BitVec 32) (hn : n < 32) :
    (x &&& lowMask n).toNat = x.toNat % 2 ^ n := by
  rw [toNat_and, toNat_lowMask hn, and_two_pow_sub_one_eq_mod]

/-- `2 ^ (cbits v - 1) ≤ v < 2 ^ cbits v`. -/
theorem cbits_spec {v : BitVec 32} (hv : v ≠ 0#32) :
    0 < cbits v ∧ 2 ^ (cbits v - 1) ≤ v.toNat ∧ v.toNat < 2 ^ cbits v := by
  have hne : v.toNat ≠ 0 := fun h => hv (eq_of_toNat_eq h)
  rw [cbits, if_neg hv]
  exact ⟨succ_pos _, log2_self_le hne, lt_log2_self⟩

theorem sshiftRight_lowMask (hn : n < 32) : (lowMask n).sshiftRight 1 = lowMask (n - 1) := by
  have hlt : (lowMask n).toNat < 2 ^ 31 := by
    have hle : 2 ^ n ≤ 2 ^ 31 := Nat.pow_le_pow_right (by decide) (by omega)
    rw [toNat_lowMask hn]
    omega
  have hmsb : (lowMask n).msb = false := msb_eq_false_iff_two_mul_lt.2 (by omega)
  apply eq_of_toNat_eq
  rw [sshiftRight_eq_of_msb_false hmsb, toNat_ushiftRight, toNat_lowMask hn,
    toNat_lowMask (by omega)]
  cases n with
  | zero => rfl
  | succ n =>
    rw [Nat.add_sub_cancel]
    omega

/-- `ceph_stable_mod` as a number. -/
theorem toNat_cephStableMod (x : BitVec 32) {b : BitVec 32} (hn : n < 32) (hb : b.toNat < 2 ^ 31) :
    (cephStableMod x b (lowMask n)).toNat =
      if x.toNat % 2 ^ n < b.toNat then x.toNat % 2 ^ n else x.toNat % 2 ^ (n - 1) := by
  have hlow := toNat_and_lowMask x hn
  have hsmall : (x &&& lowMask n).toNat < 2 ^ 31 := by
    rw [hlow]
    exact (Nat.mod_lt _ (Nat.two_pow_pos n)).trans_le (Nat.pow_le_pow_right (by decide) (by omega))
  have hslt : (x &&& lowMask n).slt b = true ↔ x.toNat % 2 ^ n < b.toNat := by
    rw [slt_iff_toInt_lt, toInt_eq_toNat_of_lt (by omega),
      toInt_eq_toNat_of_lt (by omega), hlow, Int.ofNat_lt]
  rw [cephStableMod, sshiftRight_lowMask hn]
  by_cases h : x.toNat % 2 ^ n < b.toNat
  · rw [if_pos (hslt.2 h), if_pos h, hlow]
  · rw [if_neg (mt hslt.1 h), if_neg h, toNat_and_lowMask x (by omega)]

/-! ## Stable modulo and split bits -/

/-- Of the numbers below `2 * H`, those below `H + q` are kept and the others folded; a number
below `q` thus stands for itself only, one from `q` to `H` also for the one above it. -/
theorem fold_eq_iff {x H q s : ℕ} (hq : q < H) (hs : s < H + q) :
    (if x % (H * 2) < H + q then x % (H * 2) else x % H) = s ↔
      x % (if s % H < q then H * 2 else H) = s := by
  have hmod : x % (H * 2) = x % H + H * (x / H % 2) := mod_mul
  have hlt : x % H < H := mod_lt _ (by omega)
  have hsmod : s % H = if s < H then s else s - H := by
    split_ifs with h
    · exact mod_eq_of_lt h
    · rw [mod_eq_sub_mod (by omega), mod_eq_of_lt (by omega)]
  rcases mod_two_eq_zero_or_one (x / H) with hbit | hbit
  · rw [hbit] at hmod
    split_ifs at hsmod ⊢ <;> omega
  · rw [hbit] at hmod
    split_ifs at hsmod ⊢ <;> omega

theorem cbits_eq {v : BitVec 32} (hle : 2 ^ n ≤ v.toNat) (hlt : v.toNat < 2 ^ (n + 1)) :
    cbits v = n + 1 := by
  have hne : v.toNat ≠ 0 := by
    omega
  have hv : v ≠ 0#32 := fun h => hne (by rw [h]; rfl)
  rw [cbits, if_neg hv, (log2_eq_iff hne).2 ⟨hle, hlt⟩]

section

variable {pgNum : BitVec 32}

section

variable (hpos : 1 ≤ pgNum.toNat) (hlt : pgNum.toNat < 2 ^ 31)

include hpos hlt

/-- `pg_num` between two powers of two. -/
theorem exists_split :
    ∃ p q, cbits pgNum = p + 1 ∧ p + 1 < 32 ∧ q < 2 ^ p ∧ pgNum.toNat = 2 ^ p + q := by
  have hne : pgNum ≠ 0#32 := fun h => by
    rw [h] at hpos
    exact absurd hpos (by decide)
  obtain ⟨hbits, hle, hup⟩ := cbits_spec hne
  obtain ⟨p, hp⟩ : ∃ p, cbits pgNum = p + 1 := ⟨cbits pgNum - 1, by omega⟩
  rw [hp, Nat.add_sub_cancel] at hle
  rw [hp] at hup
  have hp31 : p < 31 := (Nat.pow_lt_pow_iff_right (by decide)).1 (hle.trans_lt hlt)
  exact ⟨p, pgNum.toNat - 2 ^ p, hp, by omega, by omega, by omega⟩

/-- The two masks give the same result: they differ only for powers of two, where nothing is
folded. -/
theorem cephStableMod_pgNumMask (x : BitVec 32) :
    cephStableMod x pgNum (pgNumMask pgNum) = cephStableMod x pgNum (lowMask (cbits pgNum)) := by
  obtain ⟨p, q, hp, hp32, hq, hsum⟩ := exists_split hpos hlt
  have hpred : (pgNum - 1#32).toNat = pgNum.toNat - 1 := by
    rw [toNat_sub_of_le (show 1#32 ≤ pgNum from hpos)]
    rfl
  rcases Nat.eq_zero_or_pos q with rfl | hqpos
  · have hmask : cbits (pgNum - 1#32) = p := by
      cases p with
      | zero =>
        have hzero : pgNum - 1#32 = 0#32 := eq_of_toNat_eq (by rw [hpred, hsum]; rfl)
        rw [hzero]
        rfl
      | succ p =>
        exact cbits_eq (by omega) (by omega)
    apply eq_of_toNat_eq
    rw [pgNumMask, hmask, hp, toNat_cephStableMod x (by omega) hlt, toNat_cephStableMod x hp32 hlt,
      hsum, Nat.add_zero, if_pos (Nat.mod_lt _ (Nat.two_pow_pos p))]
    split_ifs with h
    · rw [pow_succ, mod_mul] at h ⊢
      rcases mod_two_eq_zero_or_one (x.toNat / 2 ^ p) with hbit | hbit
      · rw [hbit, Nat.mul_zero, Nat.add_zero]
      · rw [hbit] at h
        omega
    · rfl
  · have hmask : cbits (pgNum - 1#32) = p + 1 :=
      cbits_eq (by omega) (by omega)
    rw [pgNumMask, hmask, hp]

/-- **The split bits tell what `ceph_stable_mod` tells.** -/
theorem getSplitBits_spec {pg : Pg} (hseed : pg.seed.toNat < pgNum.toNat) :
    ∃ bits, pg.getSplitBits pgNum = some bits ∧ bits < 32 ∧ pg.seed.toNat < 2 ^ bits ∧
      ∀ x : BitVec 32, cephStableMod x pgNum (lowMask (cbits pgNum)) = pg.seed ↔
        x.toNat % 2 ^ bits = pg.seed.toNat := by
  obtain ⟨p, q, hp, hp32, hq, hsum⟩ := exists_split hpos hlt
  have hpow : (1#32 <<< p).toNat = 2 ^ p := by
    rw [toNat_shiftLeft, Nat.shiftLeft_eq]
    simpa using Nat.pow_lt_pow_right (by decide) (show p < 32 by omega)
  have hstable : ∀ x : BitVec 32, cephStableMod x pgNum (lowMask (cbits pgNum)) = pg.seed ↔
      x.toNat % (if pg.seed.toNat % 2 ^ p < q then 2 ^ p * 2 else 2 ^ p) = pg.seed.toNat := by
    intro x
    rw [← fold_eq_iff hq (hsum ▸ hseed), ← hsum, ← pow_succ, ← toNat_inj, hp,
      toNat_cephStableMod x hp32 hlt, Nat.add_sub_cancel]
  have hbits : pg.getSplitBits pgNum = some (if pg.seed.toNat % 2 ^ p < q then p + 1 else p) := by
    rw [Pg.getSplitBits]
    by_cases hone : pgNum = 1#32
    · have hsplit : 2 ^ p + q = 1 := by rw [← hsum, hone]; rfl
      have hp0 : p = 0 := by
        by_contra hne
        have : 2 ≤ 2 ^ p := le_self_pow hne 2
        omega
      rw [if_pos hone, hp0, if_neg (by omega)]
    · have hgt : 1 < pgNum.toNat := by
        have : pgNum.toNat ≠ 1 := fun h => hone (eq_of_toNat_eq h)
        omega
      have hcond : pg.seed % (1#32 <<< p) < pgNum % (1#32 <<< p) ↔ pg.seed.toNat % 2 ^ p < q := by
        rw [lt_def, toNat_umod, toNat_umod, hpow, hsum, add_mod_left, mod_eq_of_lt hq]
      rw [if_neg hone, assert_bind hgt]
      simp only [hp, Nat.add_sub_cancel]
      rw [assert_bind (Nat.succ_ne_zero p), ← apply_ite some]
      simp only [hcond]
  refine ⟨_, hbits, ?_, ?_, fun x => ?_⟩
  · split_ifs <;> omega
  · split_ifs with h
    · omega
    · by_contra hge
      rw [mod_eq_sub_mod (by omega), mod_eq_of_lt (by omega)] at h
      omega
  · rw [hstable x, apply_ite (2 ^ ·), pow_succ]

end

/-! ## The range of objects -/

variable {bits : ℕ}

/-- `rev_end` as a number. -/
theorem toNat_revEnd {seed : BitVec 32} (hb : bits < 32) (hseed : seed.toNat < 2 ^ bits) :
    (((reverseBits seed).setWidth 64 ||| (0xffffffff#32 >>> bits).setWidth 64) + 1#64).toNat =
      seed.reverse.toNat + 2 ^ (32 - bits) := by
  have hmask : (0xffffffff#32 >>> bits).toNat = 2 ^ (32 - bits) - 1 := by
    have hpow : 2 ^ 32 = 2 ^ bits * 2 ^ (32 - bits) := by rw [← pow_add]; congr 1; omega
    have hdiv := mul_sub_div 0 (2 ^ bits) (2 ^ (32 - bits)) (by rw [← hpow]; decide)
    rw [Nat.zero_div, ← hpow] at hdiv
    rwa [toNat_ushiftRight, shiftRight_eq_div_pow]
  have hpos : 0 < 2 ^ (32 - bits) := Nat.two_pow_pos _
  have hor : seed.reverse.toNat ||| (2 ^ (32 - bits) - 1) =
      seed.reverse.toNat + (2 ^ (32 - bits) - 1) := by
    have hmul := div_add_mod seed.reverse.toNat (2 ^ (32 - bits))
    rw [reverse_mod_two_pow (by omega) hseed, add_zero] at hmul
    rw [← hmul, two_pow_add_eq_or_of_lt (by omega)]
  have hstart : seed.reverse.toNat % 2 ^ 64 = seed.reverse.toNat := mod_eq_of_lt (by omega)
  have hlow : (2 ^ (32 - bits) - 1) % 2 ^ 64 = 2 ^ (32 - bits) - 1 := mod_eq_of_lt (by omega)
  have hone : (1#64).toNat = 1 := rfl
  rw [reverseBits_eq, toNat_add, toNat_or, toNat_setWidth, toNat_setWidth, hmask, hstart, hlow]
  omega

/-- `rev_end` does not exceed `2 ^ 32`, which the source asserts. -/
theorem reverse_add_le {seed : BitVec 32} (hb : bits ≤ 32) (hseed : seed.toNat < 2 ^ bits) :
    seed.reverse.toNat + 2 ^ (32 - bits) ≤ 2 ^ 32 := by
  have hpow : 2 ^ 32 = 2 ^ (32 - bits) * 2 ^ bits := by rw [← pow_add]; congr 1; omega
  have hmul := div_add_mod seed.reverse.toNat (2 ^ (32 - bits))
  rw [reverse_mod_two_pow (by omega) hseed] at hmul
  have hlt : seed.reverse.toNat / 2 ^ (32 - bits) < 2 ^ bits := by
    refine Nat.div_lt_of_lt_mul ?_
    rw [← hpow]
    exact seed.reverse.isLt
  rw [hpow, ← hmul]
  exact Nat.mul_le_mul_left _ hlt

/-- **The objects of the range are those whose reversed hashes lie between the two ends.** -/
theorem inRange_iff {pg : Pg} (hbits : pg.getSplitBits pgNum = some bits) (hb : bits < 32)
    (hseed : pg.seed.toNat < 2 ^ bits) :
    ∃ bound, pg.getHobjEnd pgNum = some bound ∧ ∀ o : HObject, o.pool = pg.pool → ¬ o.Nameless →
        (InRange pg.getHobjStart bound o ↔ pg.seed.reverse.toNat ≤ o.hash.reverse.toNat ∧
          o.hash.reverse.toNat < pg.seed.reverse.toNat + 2 ^ (32 - bits)) := by
  have hend := toNat_revEnd hb hseed
  rw [Pg.getHobjEnd, hbits]
  simp only [Option.bind_eq_bind, Option.bind_some]
  generalize ((reverseBits pg.seed).setWidth 64 ||| (0xffffffff#32 >>> bits).setWidth 64) + 1#64 =
    revEnd at hend
  have hstart : ∀ o : HObject, o.pool = pg.pool → ¬ o.Nameless →
      (cmpBound pg.getHobjStart o ≠ .gt ↔ pg.seed.reverse.toNat ≤ o.hash.reverse.toNat) := by
    intro o hpool ho
    have hle := boundary_le_iff pg.seed hpool ho
    rwa [reverseBits_eq, reverseBits_eq] at hle
  have hle := reverse_add_le hb.le hseed
  by_cases hmax : 0x100000000#64 ≤ revEnd
  · have hmaxNat : 2 ^ 32 ≤ revEnd.toNat := le_def.1 hmax
    have heq : revEnd = 0x100000000#64 := eq_of_toNat_eq (by
      rw [show (0x100000000#64).toNat = 2 ^ 32 by rfl]
      omega)
    refine ⟨⊤, (if_pos hmax).trans (assert_bind heq _), fun o hpool ho => ?_⟩
    rw [InRange, hstart o hpool ho]
    exact and_congr_right fun _ => iff_of_true rfl (by omega)
  · have hmaxNat : revEnd.toNat < 2 ^ 32 := not_le.1 fun h => hmax (le_def.2 h)
    refine ⟨_, if_neg hmax, fun o hpool ho => ?_⟩
    have hlt := lt_boundary_iff (reverseBits (revEnd.setWidth 32)) hpool ho
    rw [reverseBits_reverseBits, reverseBits_eq o.hash, toNat_setWidth, mod_eq_of_lt hmaxNat,
      hend] at hlt
    rw [InRange, hstart o hpool ho]
    exact and_congr_right fun _ => hlt

theorem cephStableMod_lt (hpos : 1 ≤ pgNum.toNat) (hlt : pgNum.toNat < 2 ^ 31) (x : BitVec 32) :
    (cephStableMod x pgNum (lowMask (cbits pgNum))).toNat < pgNum.toNat := by
  obtain ⟨p, q, hp, hp32, -, hsum⟩ := exists_split hpos hlt
  rw [hp, toNat_cephStableMod x hp32 hlt]
  split_ifs with h
  · exact h
  · rw [Nat.add_sub_cancel]
    omega

end

/-! ## Membership -/

/-- The placement groups of a pool with `pg_num` of them. -/
structure PgsPartition (pgNum : BitVec 32) : Prop where
  /-- The ways to tell whether an object belongs to a group agree. -/
  membership : ∀ pg : Pg, pg.seed.toNat < pgNum.toNat →
    ∃ bits bound, pg.getSplitBits pgNum = some bits ∧ pg.getHobjEnd pgNum = some bound ∧
      ∀ o : HObject, o.pool = pg.pool → ¬ o.Nameless →
        [cephStableMod o.hash pgNum (pgNumMask pgNum) = pg.seed,
          (Pg.getAncestor ⟨pg.pool, o.hash⟩ pgNum).seed = pg.seed,
          o.hash.toNat % 2 ^ bits = pg.seed.toNat, InRange pg.getHobjStart bound o].TFAE
  /-- Every hash belongs to one group. -/
  unique : ∀ hash : BitVec 32, ∃! seed : BitVec 32, seed.toNat < pgNum.toNat ∧
    cephStableMod hash pgNum (pgNumMask pgNum) = seed
  /-- The reversed hashes of a group have no gap. -/
  contiguous : ∀ seed : BitVec 32, seed.toNat < pgNum.toNat → ∀ first hash last : BitVec 32,
    cephStableMod first pgNum (pgNumMask pgNum) = seed →
    cephStableMod last pgNum (pgNumMask pgNum) = seed →
    (reverseBits first).toNat ≤ (reverseBits hash).toNat →
    (reverseBits hash).toNat ≤ (reverseBits last).toNat →
    cephStableMod hash pgNum (pgNumMask pgNum) = seed

/-- **Stable modulo, split bits and object range describe the same groups.** -/
theorem pg_membership {pgNum : BitVec 32} (hpos : 1 ≤ pgNum.toNat) (hlt : pgNum.toNat < 2 ^ 31) :
    PgsPartition pgNum where
  membership pg hseed := by
    obtain ⟨bits, hbits, hb, hlow, hstable⟩ := getSplitBits_spec hpos hlt hseed
    obtain ⟨bound, hbound, hrange⟩ := inRange_iff hbits hb hlow
    refine ⟨bits, bound, hbits, hbound, fun o hpool ho => ?_⟩
    rw [cephStableMod_pgNumMask hpos hlt]
    tfae_have 1 ↔ 2 := Iff.rfl
    tfae_have 1 ↔ 3 := hstable o.hash
    tfae_have 3 ↔ 4 := (mod_two_pow_eq_iff_reverse_mem hb.le hlow).trans (hrange o hpool ho).symm
    tfae_finish
  unique hash := by
    rw [cephStableMod_pgNumMask hpos hlt]
    exact ⟨_, ⟨cephStableMod_lt hpos hlt hash, rfl⟩, fun seed h => h.2.symm⟩
  contiguous seed hseed first hash last hfirst hlast hle hle' := by
    have hpg : (Pg.mk 0 seed).seed.toNat < pgNum.toNat := hseed
    obtain ⟨bits, -, hb, hlow, hstable⟩ := getSplitBits_spec hpos hlt hpg
    rw [cephStableMod_pgNumMask hpos hlt] at hfirst hlast ⊢
    rw [reverseBits_eq, reverseBits_eq] at hle hle'
    -- the group is an interval of the reversed hashes
    have hmem := fun x => (hstable x).trans (mod_two_pow_eq_iff_reverse_mem hb.le hlow)
    have hlower := ((hmem first).1 hfirst).1
    have hupper := ((hmem last).1 hlast).2
    exact (hmem hash).2 ⟨hlower.trans hle, hle'.trans_lt hupper⟩

/-- Twelve groups: some of them take three bits of the hash, the others four. -/
theorem pg_membership_twelve : 1 ≤ (12#32).toNat ∧ (12#32).toNat < 2 ^ 31 ∧ PgsPartition 12#32 :=
  ⟨by decide, by decide, pg_membership (by decide) (by decide)⟩

/-- An object without a name whose snap is below `CEPH_NOSNAP` lies before the first object of its
group. -/
theorem nameless_outside :
    cephStableMod 0#32 1#32 (pgNumMask 1#32) = 0#32 ∧ Pg.getHobjEnd ⟨0, 0⟩ 1#32 = some ⊤ ∧
      ¬ InRange (Pg.getHobjStart ⟨0, 0⟩) ⊤ ⟨[], 0, 0#32, 0, [], []⟩ := by
  refine ⟨by decide, by decide, fun h => h.1 (by decide)⟩

/-! ## Splitting -/

section

variable {old : BitVec 32} (hpos : 1 ≤ old.toNat)

include hpos

/-- One split: a group and the group it comes from have the same ancestors. -/
theorem getAncestor_getAncestor {new : BitVec 32} (hle : old.toNat ≤ new.toNat)
    (hlt : new.toNat < 2 ^ 31) (pg : Pg) :
    (pg.getAncestor new).getAncestor old = pg.getAncestor old := by
  obtain ⟨p, q, hp, hp32, hq, hsum⟩ := exists_split hpos (hle.trans_lt hlt)
  obtain ⟨r, q', hr, hr32, hq', hsum'⟩ := exists_split (hpos.trans hle) hlt
  have hpow : 2 ^ p < 2 ^ (r + 1) := by
    rw [pow_succ]
    omega
  have hpr : p < r + 1 := (Nat.pow_lt_pow_iff_right (by decide)).1 hpow
  refine congrArg (Pg.mk pg.pool) (eq_of_toNat_eq ?_)
  have hnew := toNat_cephStableMod pg.seed hr32 hlt
  simp only [Pg.getAncestor, hp, hr, Nat.add_sub_cancel,
    toNat_cephStableMod _ hp32 (hle.trans_lt hlt)] at hnew ⊢
  rw [hnew]
  generalize pg.seed.toNat = x
  obtain rfl | hlt' := (Nat.lt_succ_iff.1 hpr).eq_or_lt
  · -- what the larger number folds, the smaller one folds to the same
    have hmod : x % 2 ^ p < 2 ^ p := mod_lt _ (Nat.two_pow_pos p)
    by_cases h : x % 2 ^ (p + 1) < new.toNat
    · rw [if_pos h, mod_mod, mod_mod_of_dvd _ (pow_dvd_pow 2 p.le_succ)]
    · rw [if_neg h, mod_mod, mod_eq_of_lt (hmod.trans hpow), if_pos (by omega), if_neg (by omega)]
  · -- the larger number keeps all bits the smaller one looks at
    have hkept : ∀ n ≤ p + 1, (if x % 2 ^ (r + 1) < new.toNat then x % 2 ^ (r + 1)
        else x % 2 ^ r) % 2 ^ n = x % 2 ^ n := by
      intro n hn
      split_ifs <;> exact mod_mod_of_dvd _ (pow_dvd_pow 2 (by omega))
    rw [hkept _ le_rfl, hkept p (by omega)]

/-- **Splits are coherent.**  Whatever numbers of groups a pool has gone through, the group an
object was in when there were fewer is the ancestor of the group it has reached. -/
theorem getAncestor_foldl {nums : List (BitVec 32)}
    (hnums : ∀ n ∈ nums, old.toNat ≤ n.toNat ∧ n.toNat < 2 ^ 31) (pg : Pg) :
    (nums.foldl Pg.getAncestor pg).getAncestor old = pg.getAncestor old := by
  induction nums generalizing pg with
  | nil => rfl
  | cons n nums ih =>
    obtain ⟨⟨hle, hlt⟩, hnums⟩ := List.forall_mem_cons.1 hnums
    rw [List.foldl_cons, ih hnums, getAncestor_getAncestor hpos hle hlt]

end

theorem getAncestor_foldl_eight : ([24#32, 12#32].foldl Pg.getAncestor ⟨1, 29⟩).getAncestor 8#32 =
    Pg.getAncestor ⟨1, 29⟩ 8#32 :=
  getAncestor_foldl (by decide) (by simp) _

end Ceph.Osd
