import Ceph.Os.BitmapFreelistEnumerate

/-!
# Checking a range of the free list

`BitmapFreelistManager::_verify_range` counts what is wrong in the first key of the range, the
keys between and the last key, and aborts if it counted anything.  It does not look at the last
block of a range over several keys if the last key is present, and the count has 32 bits.

* `verifyErrors_eq` — what is counted.
* `verifyRange_exact_iff` — when the check is exact.
-/

namespace Ceph.Os

open List

variable {c : FreelistConf} (db : BitmapDb c) (val : Bool)

/-! ## The functions -/

/-- The errors in `n` bits of a key from `s` on. -/
def verifyKey (key s n : ℕ) : ℕ :=
  match db.lookup key with
  | some bl => (range' s n).countP fun i => bl.getLsbD i != val
  | none => if val then 1 else 0

/-- The loop over the middle keys: where it ends, and the errors. -/
def verifyMiddle (lastKey : ℕ) : ℕ → ℕ → ℕ → ℕ × ℕ
  | 0, key, errors => (key, errors)
  | fuel + 1, key, errors =>
    if key < lastKey then
      verifyMiddle lastKey fuel ((key + c.bytesPerKey) % 2 ^ 64)
        (errors + verifyKey db val key 0 c.blocksPerKey)
    else (key, errors)

/-- `_verify_range` up to the test of `errors`. -/
def verifyErrors (offset length : ℕ) : Option ℕ :=
  let firstKey := c.keyOf offset
  let last := sub64 (offset + length) 1
  let lastKey := c.keyOf last
  let s := c.bitOf offset
  let e := c.bitOf last
  if firstKey = lastKey then some (verifyKey db val firstKey s (e + 1 - s))
  else
    let middle := verifyMiddle db val lastKey (lastKey / c.bytesPerKey)
      ((firstKey + c.bytesPerKey) % 2 ^ 64) (verifyKey db val firstKey s (c.blocksPerKey - s))
    -- bit `e` itself is not looked at
    (assert (middle.1 = lastKey)).map fun _ => middle.2 + verifyKey db val lastKey 0 e

/-- `_verify_range`; `errors` is an `unsigned`. -/
def verifyRange (offset length : ℕ) : Option Unit := do
  let errors ← verifyErrors db val offset length
  assert (errors % 2 ^ 32 = 0)

/-! ## What is counted -/

/-- The value of a block; those of a missing key are 0. -/
def blockValue (b : ℕ) : Bool :=
  ((db.lookup (b / c.blocksPerKey * c.bytesPerKey)).map (·.getLsbD (b % c.blocksPerKey))).getD false

/-- Block `b` of the range of `m` blocks from `s` on counts: it is wrong and not the last one of
several keys, or it is the first one of a missing key. -/
def blockCounts (s m b : ℕ) : Bool :=
  match db.lookup (b / c.blocksPerKey * c.bytesPerKey) with
  | some bl => bl.getLsbD (b % c.blocksPerKey) != val &&
      (b + 1 ≠ s + m ∨ b / c.blocksPerKey = s / c.blocksPerKey)
  | none => val && (b = s ∨ b % c.blocksPerKey = 0)

variable {db val} {s m : ℕ}

theorem ne_of_blockCounts {b : ℕ} (h : blockCounts db val s m b) : blockValue db b ≠ val := by
  revert h
  cases hkey : db.lookup (b / c.blocksPerKey * c.bytesPerKey) <;>
    simp +contextual [blockCounts, blockValue, hkey]

variable (db val s m) in
/-- The errors of a key are its blocks of the range that count, of which the last one may not be
looked at. -/
theorem verifyKey_eq {k lo n n' : ℕ} (hn : n ≤ n') (hpos : 0 < n') (hle : lo + n' ≤ c.blocksPerKey)
    (hfirst : ∀ i, lo ≤ i → (k * c.blocksPerKey + i = s ∨ i = 0 ↔ i = lo))
    (hlast : ∀ i < lo + n',
      (k * c.blocksPerKey + i + 1 ≠ s + m ∨ k = s / c.blocksPerKey ↔ i < lo + n)) :
    verifyKey db val (k * c.bytesPerKey) lo n =
      (range' (k * c.blocksPerKey + lo) n').countP (blockCounts db val s m) := by
  have hcounts : ∀ i ∈ range' lo n', blockCounts db val s m (k * c.blocksPerKey + i) =
      match db.lookup (k * c.bytesPerKey) with
      | some bl => bl.getLsbD i != val && i < lo + n
      | none => val && i = lo := by
    intro i hi
    obtain ⟨hge, hlt⟩ := mem_range'_1.1 hi
    have hi : i < c.blocksPerKey := by omega
    simp only [blockCounts, block_key hi, Nat.mul_add_mod_of_lt hi, hfirst i hge, hlast i hlt]
  rw [← map_add_range', countP_map, countP_congr fun i hi => by rw [Function.comp, hcounts i hi]]
  cases hkey : db.lookup (k * c.bytesPerKey) with
  | some bl =>
    obtain ⟨d, rfl⟩ := Nat.exists_eq_add_of_le hn
    rw [← range'_append_1, countP_append, verifyKey, hkey]
    exact (congrArg₂ (· + ·) (countP_congr fun i hi => by simp [(mem_range'_1.1 hi).2])
      (countP_eq_zero.2 fun i hi => by simp [(mem_range'_1.1 hi).1])).symm
  | none =>
    obtain ⟨d, rfl⟩ := Nat.exists_eq_add_one_of_ne_zero hpos.ne'
    rw [range'_succ, countP_cons, verifyKey, hkey, countP_eq_zero.2 fun i hi => ?_]
    · simp
    · have hlt := (mem_range'_1.1 hi).1
      simp [show i ≠ lo by omega]

/-- The loop counts the blocks of the keys up to the last one. -/
theorem verifyMiddle_eq {last : ℕ} (hword : (last + 1) * c.bytesPerKey ≤ 2 ^ 64)
    (hend : last * c.blocksPerKey < s + m) (fuel : ℕ) :
    ∀ key errors, s / c.blocksPerKey < key → key ≤ last → last - key ≤ fuel →
      verifyMiddle db val (last * c.bytesPerKey) fuel (key * c.bytesPerKey) errors =
        (last * c.bytesPerKey, errors + (range' (key * c.blocksPerKey)
          ((last - key) * c.blocksPerKey)).countP (blockCounts db val s m)) := by
  induction fuel with
  | zero =>
    intro key errors _ hkey hfuel
    obtain rfl : key = last := by omega
    simp [verifyMiddle]
  | succ fuel ih =>
    intro key errors hfirst hkey hfuel
    rcases hkey.eq_or_lt with rfl | hlt
    · simp [verifyMiddle]
    have hbehind := (Nat.div_lt_iff_lt_mul c.blocksPerKey_pos).1 hfirst
    have hnext := Nat.mul_le_mul_right c.blocksPerKey hlt
    have hrest : (last - key) * c.blocksPerKey =
        c.blocksPerKey + (last - (key + 1)) * c.blocksPerKey := by
      rw [show last - key = 1 + (last - (key + 1)) by omega, add_mul, one_mul]
    rw [Nat.add_one_mul] at hnext
    rw [verifyMiddle, if_pos (Nat.mul_lt_mul_of_pos_right hlt c.bytesPerKey_pos),
      next_key (by omega) hword, ih _ _ (by omega) hlt (by omega),
      verifyKey_eq db val s m le_rfl c.blocksPerKey_pos (zero_add _).le (by omega) (by omega),
      hrest, ← range'_append_1, countP_append, add_assoc, add_zero, Nat.add_one_mul]

theorem keyOf_add_le {x : ℕ} (hx : x < 2 ^ 64) : c.keyOf x + c.bytesPerKey ≤ 2 ^ 64 := by
  have hlt : c.keyOf x < 2 ^ 64 := (Nat.div_mul_le_self ..).trans_lt hx
  have hle := Nat.le_of_dvd (Nat.sub_pos_of_lt hlt)
    (Nat.dvd_sub c.bytesPerKey_dvd (Nat.dvd_mul_left ..))
  omega

/-- **What is counted**: the blocks of the range that count. -/
theorem verifyErrors_eq (hm : 0 < m) (hword : (s + m) * c.bytesPerBlock ≤ 2 ^ 64) :
    verifyErrors db val (s * c.bytesPerBlock) (m * c.bytesPerBlock) =
      some ((range' s m).countP (blockCounts db val s m)) := by
  obtain ⟨t, rfl⟩ := Nat.exists_eq_add_one_of_ne_zero hm.ne'
  have hpos := c.blocksPerKey_pos
  have hfirst := Nat.mul_div_cancel s c.bytesPerBlock_pos
  have hlast := last_block hword
  simp only [verifyErrors, keyOf_eq hfirst, keyOf_eq hlast, bitOf_eq hfirst, bitOf_eq hlast,
    key_inj]
  have hs := Nat.div_add_mod' s c.blocksPerKey
  have hst := Nat.div_add_mod' (s + t) c.blocksPerKey
  have hslt := Nat.mod_lt s hpos
  have hstlt := Nat.mod_lt (s + t) hpos
  rcases (Nat.div_le_div_right (Nat.le_add_right s t) :
    s / c.blocksPerKey ≤ (s + t) / c.blocksPerKey).eq_or_lt with heq | hlt
  · rw [← heq] at hst ⊢
    rw [if_pos rfl, verifyKey_eq db val s (t + 1) le_rfl (by omega) (by omega) (by omega)
      (by simp), hs]
    congr 3
    omega
  have hkeys : ((s + t) / c.blocksPerKey + 1) * c.bytesPerKey ≤ 2 ^ 64 := by
    rw [Nat.add_one_mul, ← keyOf_eq hlast]
    exact keyOf_add_le (Nat.mod_lt _ (Nat.two_pow_pos 64))
  -- the range is what is left of the first key, the middle keys and a part of the last one
  have hleft : s + (c.blocksPerKey - s % c.blocksPerKey) =
      (s / c.blocksPerKey + 1) * c.blocksPerKey := by
    rw [Nat.add_one_mul]
    omega
  have hmiddle : (s / c.blocksPerKey + 1) * c.blocksPerKey +
      ((s + t) / c.blocksPerKey - (s / c.blocksPerKey + 1)) * c.blocksPerKey =
        (s + t) / c.blocksPerKey * c.blocksPerKey := by
    rw [← Nat.add_mul, Nat.add_sub_cancel' hlt]
  rw [if_neg hlt.ne, next_key (Nat.succ_lt_succ hlt) hkeys, Nat.mul_div_cancel _ c.bytesPerKey_pos,
    verifyMiddle_eq (m := t + 1) hkeys (by omega) _ _ _ (Nat.lt_succ_self _) hlt (Nat.sub_le ..),
    verifyKey_eq db val s (t + 1) le_rfl (by omega) (by omega) (by omega) (by simp),
    verifyKey_eq db val s (t + 1) (Nat.le_succ _) (Nat.succ_pos _) (by omega) (by omega)
      (by omega), hs, add_zero]
  rw [show t + 1 = c.blocksPerKey - s % c.blocksPerKey + (((s + t) / c.blocksPerKey -
      (s / c.blocksPerKey + 1)) * c.blocksPerKey + ((s + t) % c.blocksPerKey + 1)) by omega,
    ← range'_append_1, ← range'_append_1, hleft, hmiddle]
  simp [assert, add_assoc]

theorem verifyRange_eq_none_iff (hm : 0 < m) (hword : (s + m) * c.bytesPerBlock ≤ 2 ^ 64) :
    verifyRange db val (s * c.bytesPerBlock) (m * c.bytesPerBlock) = none ↔
      ¬ 2 ^ 32 ∣ (range' s m).countP (blockCounts db val s m) := by
  rw [verifyRange, verifyErrors_eq hm hword, Nat.dvd_iff_mod_eq_zero]
  simp [assert]

variable (db val s m) in
/-- The range is over several keys, the last of which is stored, and only its last block is
wrong. -/
def OnlyLastWrong : Prop :=
  (s + m - 1) / c.blocksPerKey ≠ s / c.blocksPerKey ∧
    (db.lookup ((s + m - 1) / c.blocksPerKey * c.bytesPerKey)).isSome ∧
    ∀ b ∈ Set.Ico s (s + m), blockValue db b ≠ val ↔ b = s + m - 1

/-- A wrong block counts, or it is the last one of several keys, or its key is missing and then
the first block of the key counts. -/
theorem exists_blockCounts {b : ℕ} (hb : b ∈ Set.Ico s (s + m)) (hwrong : blockValue db b ≠ val) :
    (∃ b' ∈ Set.Ico s (s + m), blockCounts db val s m b') ∨
      b = s + m - 1 ∧ b / c.blocksPerKey ≠ s / c.blocksPerKey ∧
        (db.lookup (b / c.blocksPerKey * c.bytesPerKey)).isSome := by
  obtain ⟨hsb, hbm⟩ := hb
  cases hkey : db.lookup (b / c.blocksPerKey * c.bytesPerKey) with
  | some bl =>
    by_cases hcounts : blockCounts db val s m b
    · exact .inl ⟨b, ⟨hsb, hbm⟩, hcounts⟩
    · simp [blockValue, hkey] at hwrong
      simp [blockCounts, hkey, hwrong] at hcounts
      exact .inr ⟨by omega, hcounts.2, rfl⟩
  | none =>
    simp [blockValue, hkey] at hwrong
    -- the first block of the key that is in the range
    rcases le_total s (b / c.blocksPerKey * c.blocksPerKey) with hle | hle
    · have hblock := Nat.div_mul_le_self b c.blocksPerKey
      refine .inl ⟨b / c.blocksPerKey * c.blocksPerKey, ⟨hle, by omega⟩, ?_⟩
      simp [blockCounts, Nat.mul_div_cancel _ c.blocksPerKey_pos, hkey, ← hwrong]
    · have hsame : s / c.blocksPerKey = b / c.blocksPerKey :=
        le_antisymm (Nat.div_le_div_right hsb) ((Nat.le_div_iff_mul_le c.blocksPerKey_pos).2 hle)
      refine .inl ⟨s, ⟨le_rfl, by omega⟩, ?_⟩
      simp [blockCounts, hsame, hkey, ← hwrong]

/-- This is the case in which blocks are wrong and none of them counts. -/
theorem onlyLastWrong_iff (hm : 0 < m) : OnlyLastWrong db val s m ↔
    (∃ b ∈ Set.Ico s (s + m), blockValue db b ≠ val) ∧
      ∀ b ∈ Set.Ico s (s + m), ¬ blockCounts db val s m b := by
  constructor
  · rintro ⟨hkeys, hstored, hwrong⟩
    have hmem : s + m - 1 ∈ Set.Ico s (s + m) := ⟨by omega, by omega⟩
    refine ⟨⟨_, hmem, (hwrong _ hmem).2 rfl⟩, fun b hb hcounts => ?_⟩
    obtain rfl := (hwrong b hb).1 (ne_of_blockCounts hcounts)
    obtain ⟨bl, hbl⟩ := Option.isSome_iff_exists.1 hstored
    simp [blockCounts, hbl, hkeys, Nat.sub_add_cancel (show 1 ≤ s + m by omega)] at hcounts
  · rintro ⟨⟨b, hb, hwrong⟩, hnone⟩
    have hlast : ∀ b ∈ Set.Ico s (s + m), blockValue db b ≠ val → b = s + m - 1 ∧
        b / c.blocksPerKey ≠ s / c.blocksPerKey ∧
          (db.lookup (b / c.blocksPerKey * c.bytesPerKey)).isSome := fun b hb hwrong =>
      (exists_blockCounts hb hwrong).resolve_left fun ⟨b', hb', hcounts⟩ => hnone b' hb' hcounts
    obtain ⟨rfl, hkeys, hstored⟩ := hlast b hb hwrong
    exact ⟨hkeys, hstored, fun b' hb' => ⟨fun h => (hlast b' hb' h).1, fun h => h ▸ hwrong⟩⟩

/-- **When the check is exact**: in a range of less than 2³² blocks, unless it is over several keys
of which the last one is stored and the last block, and no other, is wrong; in any range, unless
there are wrong blocks and what counts is a multiple of 2³². -/
theorem verifyRange_exact_iff (db : BitmapDb c) (val : Bool) (hm : 0 < m)
    (hword : (s + m) * c.bytesPerBlock ≤ 2 ^ 64) :
    (m < 2 ^ 32 → ((verifyRange db val (s * c.bytesPerBlock) (m * c.bytesPerBlock) = none ↔
        ∃ b ∈ Set.Ico s (s + m), blockValue db b ≠ val) ↔ ¬ OnlyLastWrong db val s m)) ∧
    ((verifyRange db val (s * c.bytesPerBlock) (m * c.bytesPerBlock) = none ↔
        ∃ b ∈ Set.Ico s (s + m), blockValue db b ≠ val) ↔
      ((∃ b ∈ Set.Ico s (s + m), blockValue db b ≠ val) →
        ¬ 2 ^ 32 ∣ (range' s m).countP (blockCounts db val s m))) := by
  rw [verifyRange_eq_none_iff hm hword]
  have hexact : (¬ 2 ^ 32 ∣ (range' s m).countP (blockCounts db val s m) ↔
      ∃ b ∈ Set.Ico s (s + m), blockValue db b ≠ val) ↔
      ((∃ b ∈ Set.Ico s (s + m), blockValue db b ≠ val) →
        ¬ 2 ^ 32 ∣ (range' s m).countP (blockCounts db val s m)) := by
    refine ⟨Iff.mpr, fun h => ⟨fun hcount => ?_, h⟩⟩
    -- what is counted is wrong
    obtain ⟨b, hb, hcounts⟩ :=
      countP_pos_iff.1 (Nat.pos_of_ne_zero fun h0 => hcount (h0 ▸ dvd_zero _))
    exact ⟨b, mem_range'_1.1 hb, ne_of_blockCounts hcounts⟩
  refine ⟨fun hsmall => hexact.trans ?_, hexact⟩
  have hlt := (countP_le_length (p := blockCounts db val s m) (l := range' s m)).trans_lt
    (length_range'.trans_lt hsmall)
  have hzero : 2 ^ 32 ∣ (range' s m).countP (blockCounts db val s m) ↔
      ∀ b ∈ Set.Ico s (s + m), ¬ blockCounts db val s m b := by
    refine Iff.trans ⟨fun h => Nat.eq_zero_of_dvd_of_lt h hlt, fun h => h ▸ dvd_zero _⟩
      (countP_eq_zero.trans ?_)
    simp only [mem_range'_1, Set.mem_Ico]
  rw [onlyLastWrong_iff hm, not_and, hzero]

/-- Blocks 128 and 129 of the second key are in use; the range of the blocks 126 to 129 over two
keys is refused as free, though its last block is not looked at. -/
theorem verifyRange_exact_smallDevice :
    verifyRange ([(2 ^ 19, 3#128)] : BitmapDb smallDevice) false (126 * 4096) (4 * 4096) =
      none := by
  have hexact := (verifyRange_exact_iff (s := 126) ([(2 ^ 19, 3#128)] : BitmapDb smallDevice) false
    (by decide : 0 < 4) (by decide)).1 (by decide)
  have hwrong : blockValue ([(2 ^ 19, 3#128)] : BitmapDb smallDevice) 128 ≠ false := by decide
  have hmem : 128 ∈ Set.Ico 126 (126 + 4) := by simp
  exact (hexact.2 fun h => absurd ((h.2.2 128 hmem).1 hwrong) (by decide)).2 ⟨128, hmem, hwrong⟩

/-- The second of two blocks, in another key, is in use and passes for free. -/
theorem lastBlock_not_verified :
    verifyRange ([(2 ^ 19, 1#128)] : BitmapDb smallDevice) false (127 * 4096) (2 * 4096) = some () ∧
      blockValue ([(2 ^ 19, 1#128)] : BitmapDb smallDevice) 128 = true := by
  decide

end Ceph.Os
