import Ceph.Lib.MaximalRuns
import Ceph.Os.BitmapFreelist

/-!
# Enumerating the free list

`BitmapFreelistManager::enumerate_next` walks over the keys of the store: it skips set bits to
find the next free block and then clear bits to find the end of the run, and it keeps its place
for the next call.

* `enumerateAll_eq` — what the calls after `enumerate_reset` yield on every store.
* `enumerates_iff` — they yield the maximal free runs unless the last key is at the end of the
  64-bit address space.
-/

namespace Ceph.Os

open List Nat

variable {c : FreelistConf}

/-! ## The functions -/

/-- `enumerate_offset`, `enumerate_bl_pos`, and the entries from `enumerate_p` on.  The bitmap
`enumerate_bl` is the value of the first of them. -/
structure Enumerator (c : FreelistConf) where
  offset : ℕ
  pos : ℕ
  p : List (ℕ × Bitmap c)

/-- `enumerate_reset` -/
def enumerateReset (c : FreelistConf) : Enumerator c := ⟨0, 0, []⟩

/-- `get_next_clear_bit` and `get_next_set_bit` -/
def nextBit (v : Bool) (bl : Bitmap c) (start : ℕ) : Option ℕ :=
  (range' start (c.blocksPerKey - start)).find? fun i => bl.getLsbD i == v

/-- The loop that skips set bits: the offset of the run, and where the second loop starts. -/
def skipSet (offset pos : ℕ) : List (ℕ × Bitmap c) → ℕ × Enumerator c
  | [] => ((offset + c.bytesPerKey) % 2 ^ 64, ⟨(offset + c.bytesPerKey) % 2 ^ 64, 0, []⟩)
  | (key, bl) :: rest =>
    match nextBit false bl pos with
    | some i => (offset + i * c.bytesPerBlock, ⟨offset, i, (key, bl) :: rest⟩)
    | none =>
      let next := (offset + c.bytesPerKey) % 2 ^ 64
      match rest.head? with
      | none => (next, ⟨next, 0, []⟩)
      | some (nextKey, _) =>
        if next < nextKey then (next, ⟨nextKey, 0, rest⟩) else skipSet nextKey 0 rest

/-- The loop that skips clear bits: the end of the run, if there is a set bit. -/
def skipClear (offset pos : ℕ) : List (ℕ × Bitmap c) → Option ℕ × Enumerator c
  | [] => (none, ⟨offset, pos, []⟩)
  | (key, bl) :: rest =>
    match nextBit true bl pos with
    | some i => (some (offset + i * c.bytesPerBlock), ⟨offset, i, (key, bl) :: rest⟩)
    | none =>
      match rest.head? with
      | none => (none, ⟨offset, 0, []⟩)
      | some (nextKey, _) => skipClear nextKey 0 rest

/-- The first call looks up the first key, which must have the first block. -/
def enumerateStart (db : BitmapDb c) (st : Enumerator c) : Option (Enumerator c) :=
  if st.offset = 0 ∧ st.pos = 0 then
    match db with
    | [] => none
    | (key, bl) :: rest => do
      assert (key = 0)
      assert (nextBit true bl 0 = some 0)
      some ⟨key, st.pos, (key, bl) :: rest⟩
  else some st

/-- The end of `enumerate_next`, after the two loops: the run, if it returns true. -/
def enumerateEnd (offset : ℕ) : Option ℕ × Enumerator c → Option (Option (ℕ × ℕ) × Enumerator c)
  | (some e, st) => do
    let length := sub64 e offset
    assert (offset + length ≤ c.size)
    some (some (offset, length), st)
  | (none, st) =>
    if st.offset < c.size then do
      let length := sub64 c.size offset
      assert (offset + length ≤ c.size)
      some (some (offset, length), ⟨c.size, c.blocksPerKey, st.p⟩)
    else some (none, st)

/-- `enumerate_next` once it has a key. -/
def enumerateFrom (st : Enumerator c) : Option (Option (ℕ × ℕ) × Enumerator c) :=
  if c.size ≤ st.offset then some (none, st)
  else
    let first := skipSet st.offset st.pos st.p
    enumerateEnd first.1 (skipClear first.2.offset first.2.pos first.2.p)

/-- `enumerate_next` -/
def enumerateNext (db : BitmapDb c) (st : Enumerator c) : Option (Option (ℕ × ℕ) × Enumerator c) :=
  (enumerateStart db st).bind enumerateFrom

/-- The runs that calls of `enumerate_next` yield until one returns false. -/
def enumerateAll (db : BitmapDb c) : ℕ → Enumerator c → Option (List (ℕ × ℕ))
  | 0, _ => none
  | fuel + 1, st => do
    let (run, st) ← enumerateNext db st
    match run with
    | none => some []
    | some run => (enumerateAll db fuel st).map (run :: ·)

/-! ## The bits of a bitmap -/

variable {bl : Bitmap c} {i : ℕ} {v : Bool}

theorem nextBit_eq_some {start : ℕ} (h : nextBit v bl start = some i) :
    start ≤ i ∧ i < c.blocksPerKey ∧ bl.getLsbD i = v ∧
      ∀ j, start ≤ j → j < i → bl.getLsbD j ≠ v := by
  obtain ⟨hbit, hmem, hbefore⟩ := find?_range'_eq_some.1 h
  have hrange := mem_range'_1.1 hmem
  exact ⟨hrange.1, by omega, by simpa using hbit,
    fun j hstart hj => by simpa using hbefore j hstart hj⟩

theorem nextBit_eq_none {start : ℕ} (h : nextBit v bl start = none) :
    ∀ j, start ≤ j → j < c.blocksPerKey → bl.getLsbD j ≠ v := by
  intro j hstart hj
  rw [nextBit, find?_eq_none] at h
  simpa using h j (mem_range'_1.2 ⟨hstart, by omega⟩)

/-! ## Places in the store -/

variable {b : ℕ}

section Place

variable {keys : ℕ} {db : BitmapDb c} {blocks : Set ℕ} {key : ℕ}

theorem block_key (hi : i < c.blocksPerKey) :
    (key * c.blocksPerKey + i) / c.blocksPerKey = key := by
  rw [add_comm, add_mul_div_right _ _ c.blocksPerKey_pos, div_eq_of_lt hi, zero_add]

variable {rest : List (ℕ × Bitmap c)} {pos : ℕ}

section

variable (hdb : HasBits keys db blocks) (h : (key * c.bytesPerKey, bl) :: rest <:+ db)

include hdb h

/-- The entry at hand has the bits of its key. -/
theorem setBit_of_suffix (hle : key * c.blocksPerKey ≤ b)
    (hlt : b < key * c.blocksPerKey + c.blocksPerKey) :
    SetBit db b ↔ bl.getLsbD (b - key * c.blocksPerKey) = true := by
  obtain ⟨i, rfl⟩ := Nat.exists_eq_add_of_le hle
  have hi : i < c.blocksPerKey := by omega
  rw [SetBit, block_key hi, mul_add_mod_of_lt hi, Nat.add_sub_cancel_left]
  have hmem := h.subset mem_cons_self
  constructor
  · rintro ⟨bl', hin, hset⟩
    exact hdb.sorted.unique hmem hin ▸ hset
  · exact fun hset => ⟨bl, hmem, hset⟩

theorem setBit_of_nextBit (hbit : nextBit v bl pos = some i) :
    pos ≤ i ∧ i < c.blocksPerKey ∧ (SetBit db (key * c.blocksPerKey + i) ↔ v = true) ∧
      ∀ b, key * c.blocksPerKey + pos ≤ b → b < key * c.blocksPerKey + i →
        (SetBit db b ↔ v = false) := by
  obtain ⟨hi, hlt, hv, hbefore⟩ := nextBit_eq_some hbit
  refine ⟨hi, hlt, ?_, fun b hle hb => ?_⟩
  · rw [setBit_of_suffix hdb h (by omega) (by omega), Nat.add_sub_cancel_left, hv]
  · have hne := hbefore (b - key * c.blocksPerKey) (by omega) (by omega)
    rw [setBit_of_suffix hdb h (by omega) (by omega)]
    cases v <;> simpa using hne

theorem setBit_of_nextBit_none (hbit : nextBit v bl pos = none) (b : ℕ)
    (hle : key * c.blocksPerKey + pos ≤ b) (hlt : b < (key + 1) * c.blocksPerKey) :
    SetBit db b ↔ v = false := by
  rw [add_one_mul] at hlt
  have hne := nextBit_eq_none hbit (b - key * c.blocksPerKey) (by omega) (by omega)
  rw [setBit_of_suffix hdb h (by omega) hlt]
  cases v <;> simpa using hne

/-- Behind the entry at hand there are bits only in the keys that follow. -/
theorem not_setBit_of_suffix (hb : (key + 1) * c.blocksPerKey ≤ b)
    (hrest : ∀ p ∈ rest, b / c.blocksPerKey * c.bytesPerKey < p.1) : ¬ SetBit db b := by
  rintro ⟨bl', hin, -⟩
  have hkey : key < b / c.blocksPerKey := (le_div_iff_mul_le c.blocksPerKey_pos).2 hb
  obtain ⟨before, rfl⟩ := h
  obtain ⟨-, -, hbefore⟩ := pairwise_append.1 hdb.sorted
  rcases mem_append.1 hin with hm | hm
  · have hlt := hbefore _ hm _ mem_cons_self
    exact absurd (lt_of_mul_lt_mul_right hlt) (by omega)
  · rcases mem_cons.1 hm with heq | hm
    · have := key_inj.1 (Prod.mk.inj heq).1
      omega
    · exact lt_irrefl _ (hrest _ hm)

theorem key_lt_of_suffix : key < keys := by
  obtain ⟨key', heq, hlt⟩ := hdb.below _ (h.subset mem_cons_self)
  rwa [key_inj.1 heq]

end

/-- The next entry has a later key, and no bit is set between the two. -/
theorem next_entry (hdb : HasBits keys db blocks) {nextKey : ℕ} {bl' : Bitmap c}
    (h : (key * c.bytesPerKey, bl) :: (nextKey, bl') :: rest <:+ db) :
    ∃ key', nextKey = key' * c.bytesPerKey ∧ key < key' ∧ key' < keys ∧
      ∀ b, (key + 1) * c.blocksPerKey ≤ b → b < key' * c.blocksPerKey → ¬ SetBit db b := by
  obtain ⟨key', rfl, hkeys⟩ :=
    hdb.below _ (h.subset (mem_cons_of_mem _ mem_cons_self))
  have hsorted := Pairwise.sublist h.sublist hdb.sorted
  obtain ⟨hhead, htail⟩ := pairwise_cons.1 hsorted
  have hlt : key < key' := Nat.lt_of_mul_lt_mul_right (hhead _ mem_cons_self)
  refine ⟨key', rfl, hlt, hkeys, fun b hb hb' => not_setBit_of_suffix hdb h hb ?_⟩
  have hbkey : b / c.blocksPerKey * c.bytesPerKey < key' * c.bytesPerKey :=
    Nat.mul_lt_mul_of_pos_right (Nat.div_lt_of_lt_mul (by rwa [Nat.mul_comm])) c.bytesPerKey_pos
  intro p hp
  rcases mem_cons.1 hp with rfl | hp
  · exact hbkey
  · exact hbkey.trans ((pairwise_cons.1 htail).1 p hp)

/-- Where the two loops are: at block `b`, which belongs to the entry of `key`. -/
structure Place (db : BitmapDb c) (st : Enumerator c) (key b : ℕ) : Prop where
  entry : ∃ bl rest, st.p = (key * c.bytesPerKey, bl) :: rest
  suffix : st.p <:+ db
  offset : st.offset = key * c.bytesPerKey
  block : b = key * c.blocksPerKey + st.pos

theorem key_bytes (key : ℕ) : key * c.bytesPerKey = key * c.blocksPerKey * c.bytesPerBlock := by
  rw [FreelistConf.bytesPerKey]
  ring

theorem block_offset (key i : ℕ) :
    key * c.bytesPerKey + i * c.bytesPerBlock = (key * c.blocksPerKey + i) * c.bytesPerBlock := by
  rw [key_bytes, add_mul]

theorem block_bytes_lt (hb : b < keys * c.blocksPerKey) (hword : keys * c.bytesPerKey ≤ 2 ^ 64) :
    b * c.bytesPerBlock < 2 ^ 64 := by
  refine lt_of_lt_of_le ?_ hword
  rw [key_bytes]
  exact mul_lt_mul_of_pos_right hb c.bytesPerBlock_pos

/-- What the first loop returns if the next block from `b₀` on that is not set is `s`: the
offset, which may not fit in a word, and where it is. -/
structure FoundFree (keys : ℕ) (db : BitmapDb c) (b₀ s : ℕ) (r : ℕ × Enumerator c) : Prop where
  le : b₀ ≤ s
  skipped : ∀ b, b₀ ≤ b → b < s → SetBit db b
  free : ¬ SetBit db s
  offset : r.1 = s * c.bytesPerBlock % 2 ^ 64
  place : (r.2 = ⟨s * c.bytesPerBlock % 2 ^ 64, 0, []⟩ ∧ ∀ b, s ≤ b → ¬ SetBit db b) ∨
    ∃ key b, Place db r.2 key b ∧ r.2.pos ≤ c.blocksPerKey ∧ s ≤ b ∧ s < keys * c.blocksPerKey ∧
      ∀ b', s ≤ b' → b' < b → ¬ SetBit db b'

theorem FoundFree.extend {b₀ b₁ s : ℕ} {r : ℕ × Enumerator c} (h : FoundFree keys db b₁ s r)
    (hle : b₀ ≤ b₁) (hset : ∀ b, b₀ ≤ b → b < b₁ → SetBit db b) : FoundFree keys db b₀ s r where
  le := hle.trans h.le
  skipped b hb hbs := (lt_or_ge b b₁).elim (hset b hb) fun hge => h.skipped b hge hbs
  free := h.free
  offset := h.offset
  place := h.place

theorem foundFree_of_nextBit (hdb : HasBits keys db blocks) (hword : keys * c.bytesPerKey ≤ 2 ^ 64)
    (h : (key * c.bytesPerKey, bl) :: rest <:+ db) (hbit : nextBit false bl pos = some i) :
    FoundFree keys db (key * c.blocksPerKey + pos) (key * c.blocksPerKey + i)
      (skipSet (key * c.bytesPerKey) pos ((key * c.bytesPerKey, bl) :: rest)) := by
  obtain ⟨hi, hlt, hclear, hbefore⟩ := setBit_of_nextBit hdb h hbit
  have hr : skipSet (key * c.bytesPerKey) pos ((key * c.bytesPerKey, bl) :: rest)
      = ((key * c.blocksPerKey + i) * c.bytesPerBlock,
        ⟨key * c.bytesPerKey, i, (key * c.bytesPerKey, bl) :: rest⟩) := by
    simp only [skipSet, hbit, block_offset]
  have hless : key * c.blocksPerKey + i < keys * c.blocksPerKey := by
    have := mul_le_mul_right c.blocksPerKey (key_lt_of_suffix hdb h)
    rw [succ_mul] at this
    omega
  rw [hr]
  refine ⟨by omega, fun b hle hb => (hbefore b hle hb).2 rfl, fun hset => ?_, ?_, .inr ⟨key,
    key * c.blocksPerKey + i, ⟨⟨bl, rest, rfl⟩, h, rfl, rfl⟩, hlt.le, le_rfl, hless,
    fun b hle hb => absurd hb (by omega)⟩⟩
  · exact Bool.false_ne_true (hclear.1 hset)
  · exact (mod_eq_of_lt (block_bytes_lt hless hword)).symm

/-- The first loop finds the next block that is not set. -/
theorem skipSet_spec (hdb : HasBits keys db blocks) (hword : keys * c.bytesPerKey ≤ 2 ^ 64)
    {key pos : ℕ} {bl : Bitmap c} {rest : List (ℕ × Bitmap c)}
    (h : (key * c.bytesPerKey, bl) :: rest <:+ db) (hpos : pos ≤ c.blocksPerKey) :
    ∃ s, FoundFree keys db (key * c.blocksPerKey + pos) s
      (skipSet (key * c.bytesPerKey) pos ((key * c.bytesPerKey, bl) :: rest)) := by
  cases hbit : nextBit false bl pos with
  | some i => exact ⟨_, foundFree_of_nextBit hdb hword h hbit⟩
  | none =>
    have hset : ∀ b, _ → _ → SetBit db b := fun b hle hlt =>
      (setBit_of_nextBit_none hdb h hbit b hle hlt).2 rfl
    have hend : key * c.blocksPerKey + pos ≤ (key + 1) * c.blocksPerKey := by
      rw [add_one_mul]
      omega
    cases rest with
    | nil =>
      have hclear : ∀ b, (key + 1) * c.blocksPerKey ≤ b → ¬ SetBit db b := fun b hb =>
        not_setBit_of_suffix hdb h hb fun p hp => absurd hp not_mem_nil
      have hoffset : (key * c.bytesPerKey + c.bytesPerKey) % 2 ^ 64
          = (key + 1) * c.blocksPerKey * c.bytesPerBlock % 2 ^ 64 := by
        rw [← add_one_mul, key_bytes]
      refine ⟨(key + 1) * c.blocksPerKey, hend, hset, hclear _ le_rfl, ?_, .inl ⟨?_, hclear⟩⟩ <;>
        simp only [skipSet, hbit, head?_nil, hoffset]
    | cons q rest =>
      obtain ⟨nextKey, bl'⟩ := q
      obtain ⟨key', rfl, hlt, hkeys, hgap⟩ := next_entry hdb h
      have hstep : skipSet (key * c.bytesPerKey) pos
          ((key * c.bytesPerKey, bl) :: (key' * c.bytesPerKey, bl') :: rest)
          = if (key + 1) * c.bytesPerKey < key' * c.bytesPerKey then
              ((key + 1) * c.bytesPerKey,
              ⟨key' * c.bytesPerKey, 0, (key' * c.bytesPerKey, bl') :: rest⟩)
            else skipSet (key' * c.bytesPerKey) 0 ((key' * c.bytesPerKey, bl') :: rest) := by
        rw [← next_key (lt_of_le_of_lt hlt hkeys) hword]
        simp only [skipSet, hbit, head?_cons]
      rw [hstep]
      split_ifs with hmissing
      · -- there is no key for the next blocks
        have hless := Nat.lt_of_mul_lt_mul_right hmissing
        have hfree : (key + 1) * c.blocksPerKey < key' * c.blocksPerKey :=
          Nat.mul_lt_mul_of_pos_right hless c.blocksPerKey_pos
        have hin : (key + 1) * c.blocksPerKey < keys * c.blocksPerKey :=
          Nat.mul_lt_mul_of_pos_right (hless.trans hkeys) c.blocksPerKey_pos
        refine ⟨(key + 1) * c.blocksPerKey, hend, hset, hgap _ le_rfl hfree, ?_,
          .inr ⟨key', key' * c.blocksPerKey, ⟨⟨bl', rest, rfl⟩, (suffix_cons ..).trans h, rfl, rfl⟩,
          zero_le _, hfree.le, hin, hgap⟩⟩
        rw [Nat.mod_eq_of_lt (block_bytes_lt hin hword), key_bytes]
      · obtain rfl : key' = key + 1 :=
          le_antisymm (le_of_mul_le_mul_right (not_lt.1 hmissing) c.bytesPerKey_pos) hlt
        obtain ⟨s, hs⟩ := skipSet_spec hdb hword ((suffix_cons ..).trans h) (zero_le _)
        exact ⟨s, hs.extend hend hset⟩

/-- What the second loop returns from `b₀` on: the next block that is set, or none. -/
inductive FoundSet (keys : ℕ) (db : BitmapDb c) (b₀ : ℕ) : Option ℕ × Enumerator c → Prop
  | found {e key : ℕ} {st : Enumerator c} : b₀ ≤ e → (∀ b, b₀ ≤ b → b < e → ¬ SetBit db b) →
      SetBit db e → Place db st key e → st.pos < c.blocksPerKey →
      FoundSet keys db b₀ (some (e * c.bytesPerBlock), st)
  | none {st : Enumerator c} : (∀ b, b₀ ≤ b → ¬ SetBit db b) →
      st.offset < keys * c.bytesPerKey → FoundSet keys db b₀ (none, st)

theorem FoundSet.extend {b₀ b₁ : ℕ} {r : Option ℕ × Enumerator c} (h : FoundSet keys db b₁ r)
    (hle : b₀ ≤ b₁) (hclear : ∀ b, b₀ ≤ b → b < b₁ → ¬ SetBit db b) : FoundSet keys db b₀ r := by
  cases h with
  | found he hskip hset hplace hpos =>
    exact .found (hle.trans he) (fun b hb hbe => (lt_or_ge b b₁).elim (hclear b hb)
      fun hge => hskip b hge hbe) hset hplace hpos
  | none hskip hoffset =>
    exact .none (fun b hb => (lt_or_ge b b₁).elim (hclear b hb) (hskip b)) hoffset

theorem foundSet_of_nextBit (hdb : HasBits keys db blocks)
    (h : (key * c.bytesPerKey, bl) :: rest <:+ db) (hbit : nextBit true bl pos = some i) :
    FoundSet keys db (key * c.blocksPerKey + pos)
      (skipClear (key * c.bytesPerKey) pos ((key * c.bytesPerKey, bl) :: rest)) := by
  obtain ⟨hi, hlt, hset, hbefore⟩ := setBit_of_nextBit hdb h hbit
  simp only [skipClear, hbit, block_offset]
  exact .found (by omega) (fun b hle hb hset => Bool.noConfusion ((hbefore b hle hb).1 hset))
    (hset.2 rfl) ⟨⟨bl, rest, rfl⟩, h, rfl, rfl⟩ hlt

/-- The second loop finds the next block that is set. -/
theorem skipClear_spec (hdb : HasBits keys db blocks) {key pos : ℕ} {bl : Bitmap c}
    {rest : List (ℕ × Bitmap c)} (h : (key * c.bytesPerKey, bl) :: rest <:+ db)
    (hpos : pos ≤ c.blocksPerKey) : FoundSet keys db (key * c.blocksPerKey + pos)
      (skipClear (key * c.bytesPerKey) pos ((key * c.bytesPerKey, bl) :: rest)) := by
  cases hbit : nextBit true bl pos with
  | some i => exact foundSet_of_nextBit hdb h hbit
  | none =>
    have hclear : ∀ b, _ → _ → ¬ SetBit db b := fun b hle hlt hset =>
      Bool.noConfusion ((setBit_of_nextBit_none hdb h hbit b hle hlt).1 hset)
    cases rest with
    | nil =>
      simp only [skipClear, hbit, head?_nil]
      refine .none (fun b hle => ?_)
        (mul_lt_mul_of_pos_right (key_lt_of_suffix hdb h) c.bytesPerKey_pos)
      rcases lt_or_ge b ((key + 1) * c.blocksPerKey) with hb | hb
      · exact hclear b hle hb
      · exact not_setBit_of_suffix hdb h hb fun p hp => absurd hp not_mem_nil
    | cons q rest =>
      obtain ⟨nextKey, bl'⟩ := q
      obtain ⟨key', rfl, hlt, -, hgap⟩ := next_entry hdb h
      have hnext := skipClear_spec hdb ((suffix_cons ..).trans h) (zero_le _)
      simp only [skipClear, hbit, head?_cons] at hnext ⊢
      have hend := mul_le_mul_right c.blocksPerKey hlt
      rw [succ_mul] at hend
      refine hnext.extend (by omega) fun b hle hb => ?_
      rcases lt_or_ge b ((key + 1) * c.blocksPerKey) with hin | hin
      · exact hclear b hle hin
      · exact hgap b hin hb

end Place

/-! ## One call -/

variable {st : Enumerator c}

section Call

variable {used : Set ℕ} {db : BitmapDb c}

theorem Represents.setBit_iff (hdb : Represents c used db) (b : ℕ) :
    SetBit db b ↔ b ∈ used ∨ c.deviceBlocks ≤ b ∧ b < c.blocks := by
  rw [hdb.bits, Set.mem_union, Set.mem_Ico]

theorem Represents.word (c : FreelistConf) :
    c.blocks / c.blocksPerKey * c.bytesPerKey ≤ 2 ^ 64 := by
  rw [c.keys_mul_bytes]
  exact c.blocks_le

/-- The scan is at block `b` of the device, or the first one past it, and the block is set. -/
structure At (db : BitmapDb c) (st : Enumerator c) (b : ℕ) : Prop where
  place : ∃ key, Place db st key b
  pos : st.pos < c.blocksPerKey
  set : SetBit db b
  le : b ≤ c.deviceBlocks

section

variable (hdb : Represents c used db)

include hdb

/-- The key of a place is on the device. -/
theorem At.offset_lt (hused : used ⊆ Set.Iio c.deviceBlocks) (h : At db st b) :
    st.offset < c.size := by
  obtain ⟨key, hplace⟩ := h.place
  rw [hplace.offset, key_bytes, c.size_eq]
  refine mul_lt_mul_of_pos_right ?_ c.bytesPerBlock_pos
  have hblock := hplace.block
  rcases (hdb.setBit_iff b).1 h.set with hb | ⟨-, hlt⟩
  · have : b < c.deviceBlocks := hused hb
    omega
  · -- the first block past the device is not the first one of its key
    obtain ⟨keys, hkeys, -, hround⟩ := c.blocks_spec
    have hmul : key * c.blocksPerKey < keys * c.blocksPerKey := by omega
    have := Nat.mul_le_mul_right c.blocksPerKey (Nat.lt_of_mul_lt_mul_right hmul)
    rw [succ_mul] at this
    omega

/-- The second loop starts at the free block that the first one has found. -/
theorem FoundFree.foundSet {s : ℕ} {r : ℕ × Enumerator c}
    (h : FoundFree (c.blocks / c.blocksPerKey) db b s r) (hs : s < c.blocks) :
    FoundSet (c.blocks / c.blocksPerKey) db s (skipClear r.2.offset r.2.pos r.2.p) := by
  rcases h.place with ⟨hend, hclear⟩ | ⟨key, b', hplace, hpos, hle, -, hclear⟩
  · rw [hend]
    refine .none hclear ?_
    rw [mod_eq_of_lt (block_bytes_lt (by rwa [c.keys_mul]) (Represents.word c)), c.keys_mul_bytes]
    exact mul_lt_mul_of_pos_right hs c.bytesPerBlock_pos
  · obtain ⟨bl, rest, hp⟩ := hplace.entry
    have hsuffix := hplace.suffix
    rw [hp] at hsuffix
    have hfound := skipClear_spec hdb hsuffix hpos
    rw [← hplace.block] at hfound
    rw [hplace.offset, hp]
    exact hfound.extend hle hclear

section

variable {s : ℕ} (hused : used ⊆ Set.Iio c.deviceBlocks) (hat : At db st b)
  (hfree : FoundFree (c.blocks / c.blocksPerKey) db b s (skipSet st.offset st.pos st.p))

include hused hat hfree

/-- A call that finds a free block of the device. -/
theorem enumerateFrom_found (hs : s < c.deviceBlocks) :
    ∃ e st', s < e ∧ e ≤ c.deviceBlocks ∧ (∀ x, s ≤ x → x < e → x ∉ used) ∧
      (e = c.deviceBlocks ∨ e ∈ used) ∧
      enumerateFrom st = some (some (s * c.bytesPerBlock, (e - s) * c.bytesPerBlock), st') ∧
      (At db st' e ∨ e = c.blocks ∧ c.blocks = c.deviceBlocks ∧ st'.offset = c.size) := by
  obtain ⟨-, -, hblocks, -⟩ := c.blocks_spec
  have hset := hfree.foundSet hdb (hs.trans_le hblocks)
  have hoffset : (skipSet st.offset st.pos st.p).1 = s * c.bytesPerBlock := by
    rw [hfree.offset, mod_eq_of_lt]
    exact block_bytes_lt (by rw [c.keys_mul]; omega) (Represents.word c)
  have hbs : b < s := lt_of_le_of_ne hfree.le fun heq => hfree.free (heq ▸ hat.set)
  have hpos : 0 < s * c.bytesPerBlock := mul_pos (by omega) c.bytesPerBlock_pos
  -- the length of a run of the device
  have hlen : ∀ {e}, s < e → e ≤ c.deviceBlocks →
      sub64 (e * c.bytesPerBlock) (s * c.bytesPerBlock) = (e - s) * c.bytesPerBlock := by
    intro e hse he
    rw [Nat.sub_mul]
    have hle := Nat.mul_le_mul_right c.bytesPerBlock hse.le
    refine sub64_eq hle ((sub_lt (hpos.trans_le hle) hpos).trans_le ?_)
    exact (mul_le_mul_right _ (he.trans hblocks)).trans c.blocks_le
  have hsum : ∀ {e}, s < e → e ≤ c.deviceBlocks →
      s * c.bytesPerBlock + (e - s) * c.bytesPerBlock ≤ c.size := by
    intro e hse he
    rw [← Nat.add_mul, Nat.add_sub_cancel' hse.le, c.size_eq]
    exact mul_le_mul_right _ he
  have hunset : ∀ {x}, ¬ SetBit db x → x ∉ used :=
    fun hx hin => hx ((hdb.setBit_iff _).2 (.inl hin))
  have hfrom : enumerateFrom st = enumerateEnd (s * c.bytesPerBlock)
      (skipClear (skipSet st.offset st.pos st.p).2.offset (skipSet st.offset st.pos st.p).2.pos
        (skipSet st.offset st.pos st.p).2.p) := by
    simp only [enumerateFrom]
    rw [if_neg (not_le.2 (hat.offset_lt hdb hused)), hoffset]
  rw [hfrom]
  revert hset
  generalize skipClear (skipSet st.offset st.pos st.p).2.offset
    (skipSet st.offset st.pos st.p).2.pos (skipSet st.offset st.pos st.p).2.p = r
  intro hset
  cases hset with
  | @found e key st' hle hclear hin hplace hpos' =>
    have hse : s < e := lt_of_le_of_ne hle fun heq => hfree.free (heq ▸ hin)
    have he : e ≤ c.deviceBlocks := by
      by_contra hgt
      exact hclear c.deviceBlocks hs.le (by omega) ((hdb.setBit_iff _).2 (.inr ⟨le_rfl, by
        rcases (hdb.setBit_iff e).1 hin with h | h
        · have : e < c.deviceBlocks := hused h
          omega
        · omega⟩))
    refine ⟨e, st', hse, he, fun x hx hxe => hunset (hclear x hx hxe), ?_, ?_, .inl
      ⟨⟨key, hplace⟩, hpos', hin, he⟩⟩
    · rcases (hdb.setBit_iff e).1 hin with h | h
      · exact .inr h
      · exact .inl (by omega)
    · simp only [enumerateEnd, hlen hse he]
      rw [assert_bind (hsum hse he)]
  | @none st' hclear hoff =>
    -- there are no blocks past the end of the device
    have hend : c.blocks = c.deviceBlocks := by
      by_contra hne
      exact hclear c.deviceBlocks hs.le ((hdb.setBit_iff _).2 (.inr ⟨le_rfl, by omega⟩))
    refine ⟨c.deviceBlocks, ⟨c.size, c.blocksPerKey, st'.p⟩, hs, le_rfl,
      fun x hx _ => hunset (hclear x hx), .inl rfl, ?_, .inr ⟨hend.symm, hend, rfl⟩⟩
    rw [c.keys_mul_bytes, hend, ← c.size_eq] at hoff
    simp only [enumerateEnd]
    rw [if_pos hoff, c.size_eq, hlen hs le_rfl, ← c.size_eq, assert_bind (hsum hs le_rfl)]

/-- A call that finds no free block of the device returns false, or a run of the whole device
if the end of the last key is not a word. -/
theorem enumerateFrom_none (hs : c.deviceBlocks ≤ s) : ∃ st', enumerateFrom st
        = some (if c.blocks * c.bytesPerBlock < 2 ^ 64 then none else some (0, c.size), st') ∧
      (¬ c.blocks * c.bytesPerBlock < 2 ^ 64 → st'.offset = c.size) := by
  obtain ⟨-, -, hblocks, -⟩ := c.blocks_spec
  -- all blocks up to the end of the last key are set
  have hse : s = c.blocks := by
    rcases lt_trichotomy s c.blocks with hlt | heq | hgt
    · exact absurd ((hdb.setBit_iff s).2 (.inr ⟨hs, hlt⟩)) hfree.free
    · exact heq
    · have hset := hfree.skipped c.blocks (hat.le.trans hblocks) hgt
      rcases (hdb.setBit_iff _).1 hset with hin | hin
      · exact absurd (hused hin) (not_lt.2 hblocks)
      · exact absurd hin.2 (lt_irrefl _)
  subst hse
  have hless := hat.offset_lt hdb hused
  rcases hfree.place with ⟨hend, -⟩ | ⟨key, -, -, -, -, hlt, -⟩
  · simp only [enumerateFrom]
    rw [if_neg (not_le.2 hless), hfree.offset, hend, skipClear, enumerateEnd]
    by_cases hword : c.blocks * c.bytesPerBlock < 2 ^ 64
    · have hover : ¬ c.blocks * c.bytesPerBlock < c.size := by
        rw [c.size_eq, not_lt]
        exact mul_le_mul_right _ hblocks
      simp only [mod_eq_of_lt hword, if_pos hword, if_neg hover]
      exact ⟨_, rfl, fun h => absurd hword h⟩
    · have hzero : c.blocks * c.bytesPerBlock % 2 ^ 64 = 0 := by
        rw [le_antisymm c.blocks_le (not_lt.1 hword), mod_self]
      have hlen : sub64 c.size 0 = c.size := sub64_eq (Nat.zero_le _) c.size_lt
      have hpos : 0 < c.size := zero_lt_of_lt hless
      simp only [hzero, if_pos hpos, if_neg hword, hlen]
      rw [assert_bind (zero_add c.size).le]
      exact ⟨_, rfl, fun _ => rfl⟩
  · rw [c.keys_mul] at hlt
    exact absurd hlt (lt_irrefl _)

end

end

end Call

/-! ## All calls -/

/-- The bytes of a run of blocks. -/
def runBytes (c : FreelistConf) (run : ℕ × ℕ) : ℕ × ℕ :=
  (run.1 * c.bytesPerBlock, (run.2 - run.1) * c.bytesPerBlock)

/-- What is yielded after the last run: nothing, or once more the whole device. -/
def afterLast (c : FreelistConf) : List (ℕ × ℕ) :=
  if c.blocks * c.bytesPerBlock < 2 ^ 64 then [] else [(0, c.size)]

section All

variable {used : Set ℕ} {db : BitmapDb c}

theorem enumerateStart_of_pos (h : 0 < st.offset ∨ 0 < st.pos) :
    enumerateStart db st = some st := by
  rw [enumerateStart.eq_def, if_neg (by omega)]

theorem enumerateAll_end {st' : Enumerator c} (h : enumerateNext db st = some (none, st'))
    (fuel : ℕ) : enumerateAll db (fuel + 1) st = some [] := by
  rw [enumerateAll, h]
  rfl

theorem enumerateAll_finished (h : st.offset = c.size) (hpos : 0 < c.size) (fuel : ℕ) :
    enumerateAll db (fuel + 1) st = some [] := by
  have hnext : enumerateNext db st = some (none, st) := by
    rw [enumerateNext, enumerateStart_of_pos (.inl (by omega)), Option.bind_some, enumerateFrom,
      if_pos h.ge]
  exact enumerateAll_end hnext fuel

theorem enumerateAll_run {st' : Enumerator c} {run : ℕ × ℕ}
    (h : enumerateNext db st = some (some run, st')) (fuel : ℕ) :
    enumerateAll db (fuel + 1) st = (enumerateAll db fuel st').map (run :: ·) := by
  rw [enumerateAll, h]
  rfl

theorem At.enumerateNext_eq (h : At db st b) (hb : 0 < b) :
    enumerateNext db st = enumerateFrom st := by
  obtain ⟨key, hplace⟩ := h.place
  have hpos : 0 < st.offset ∨ 0 < st.pos := by
    rw [hplace.offset]
    rcases Nat.eq_zero_or_pos key with rfl | hkey
    · exact .inr (by have := hplace.block; omega)
    · exact .inl (mul_pos hkey c.bytesPerKey_pos)
  rw [enumerateNext, enumerateStart_of_pos hpos, Option.bind_some]

/-- Given enough calls, these runs are yielded, and then what follows the last one. -/
def Yields (db : BitmapDb c) (st : Enumerator c) (runs : List (ℕ × ℕ)) : Prop :=
  ∀ fuel, (runs.map (runBytes c) ++ afterLast c).length < fuel →
    enumerateAll db fuel st = some (runs.map (runBytes c) ++ afterLast c)

/-- The calls from a place on scan the blocks of the device. -/
theorem enumerateAll_scan (hdb : Represents c used db) (hused : used ⊆ Set.Iio c.deviceBlocks)
    (left : ℕ) : ∀ (b : ℕ) (st₀ st : Enumerator c), c.deviceBlocks - b ≤ left →
      enumerateNext db st₀ = enumerateFrom st → At db st b →
      ∃ runs, Scan (· ∉ used) c.deviceBlocks b runs ∧ Yields db st₀ runs := by
  induction left using Nat.strong_induction_on with
  | _ left ih =>
    intro b st₀ st hleft hst hat
    have hless := hat.offset_lt hdb hused
    obtain ⟨s, hfree⟩ : ∃ s, FoundFree (c.blocks / c.blocksPerKey) db b s
        (skipSet st.offset st.pos st.p) := by
      obtain ⟨key, hplace⟩ := hat.place
      obtain ⟨bl, rest, hp⟩ := hplace.entry
      rw [hplace.offset, hp, hplace.block]
      exact skipSet_spec hdb (Represents.word c) (hp ▸ hplace.suffix) hat.pos.le
    have hinUse : ∀ x, b ≤ x → x < s → x < c.deviceBlocks → ¬ x ∉ used := by
      intro x hbx hxs hx
      rcases (hdb.setBit_iff x).1 (hfree.skipped x hbx hxs) with hin | hin
      · exact not_not.2 hin
      · omega
    rcases lt_or_ge s c.deviceBlocks with hs | hs
    · obtain ⟨e, st', hse, he, hall, hright, hrun, hnext⟩ :=
        enumerateFrom_found hdb hused hat hfree hs
      have hscan : ∀ {runs}, Scan (· ∉ used) c.deviceBlocks e runs →
          Scan (· ∉ used) c.deviceBlocks b ((s, e) :: runs) :=
        Scan.run hfree.le (fun x hx hxs => hinUse x hx hxs (hxs.trans hs)) hse he hall
          (hright.imp_right not_not.2)
      have hbs := hfree.le
      have hrest : ∃ runs, Scan (· ∉ used) c.deviceBlocks e runs ∧ Yields db st' runs := by
        rcases hnext with hat' | ⟨heq, hblocks, hend⟩
        · exact ih (c.deviceBlocks - e) (by omega) e st' st' le_rfl
            (hat'.enumerateNext_eq (by omega)) hat'
        · have hlast : afterLast c = [] := by
            rw [afterLast, if_pos (by rw [hblocks, ← c.size_eq]; exact c.size_lt)]
          refine ⟨[], .done fun x hx hxn => absurd hxn (by omega), fun fuel hfuel => ?_⟩
          obtain ⟨fuel, rfl⟩ : ∃ m, fuel = m + 1 := ⟨fuel - 1, by omega⟩
          rw [hlast]
          exact enumerateAll_finished hend (zero_lt_of_lt hless) fuel
      obtain ⟨runs, hruns, hall'⟩ := hrest
      refine ⟨(s, e) :: runs, hscan hruns, fun fuel hfuel => ?_⟩
      obtain ⟨fuel, rfl⟩ : ∃ m, fuel = m + 1 := ⟨fuel - 1, by omega⟩
      rw [enumerateAll_run (hst.trans hrun), hall' fuel (by simpa using hfuel)]
      rfl
    · obtain ⟨st', hrun, hend⟩ := enumerateFrom_none hdb hused hat hfree hs
      refine ⟨[], .done fun x hx hxn => hinUse x hx (by omega) hxn, fun fuel hfuel => ?_⟩
      obtain ⟨fuel, rfl⟩ : ∃ m, fuel = m + 1 := ⟨fuel - 1, by omega⟩
      by_cases hword : c.blocks * c.bytesPerBlock < 2 ^ 64
      · rw [if_pos hword] at hrun
        rw [enumerateAll_end (hst.trans hrun), afterLast, if_pos hword]
        rfl
      · rw [if_neg hword] at hrun
        rw [afterLast, if_neg hword] at hfuel ⊢
        obtain ⟨fuel, rfl⟩ : ∃ m, fuel = m + 1 := ⟨fuel - 1, by simp at hfuel; omega⟩
        rw [enumerateAll_run (hst.trans hrun),
          enumerateAll_finished (hend hword) (zero_lt_of_lt hless)]
        rfl

/-- **All calls.**  On a store in which block 0 is in use they yield the maximal free runs, and
then what is yielded after the last one. -/
theorem enumerateAll_eq (hdb : Represents c used db) (hused : used ⊆ Set.Iio c.deviceBlocks)
    (hzero : 0 ∈ used) : ∃ runs, RunsOf (· ∉ used) c.deviceBlocks runs ∧
      Yields db (enumerateReset c) runs := by
  obtain ⟨bl, hmem, hbit⟩ := (hdb.setBit_iff 0).2 (.inl hzero)
  rw [Nat.zero_div, Nat.zero_mod] at *
  -- the entry of block 0 is the first one
  obtain ⟨rest, rfl⟩ : ∃ rest, db = (0 * c.bytesPerKey, bl) :: rest := by
    cases db with
    | nil => exact absurd hmem not_mem_nil
    | cons q rest =>
      rcases mem_cons.1 hmem with heq | hin
      · exact ⟨rest, by rw [heq]⟩
      · have hlt := (pairwise_cons.1 hdb.sorted).1 _ hin
        rw [zero_mul] at hlt
        exact absurd hlt (not_lt_zero _)
  have hpos := c.blocksPerKey_pos
  have hfirst : nextBit true bl 0 = some 0 := by
    refine find?_range'_eq_some.2 ⟨by simpa using hbit, mem_range'_1.2 ?_, ?_⟩
    · omega
    · exact fun j _ hj => absurd hj (not_lt_zero j)
  have hat : At ((0 * c.bytesPerKey, bl) :: rest)
      ⟨0 * c.bytesPerKey, 0, (0 * c.bytesPerKey, bl) :: rest⟩ 0 :=
    ⟨⟨0, ⟨bl, rest, rfl⟩, suffix_rfl, rfl, by simp⟩, hpos,
      (hdb.setBit_iff 0).2 (.inl hzero), zero_le _⟩
  have hnext : enumerateNext ((0 * c.bytesPerKey, bl) :: rest) (enumerateReset c)
      = enumerateFrom ⟨0 * c.bytesPerKey, 0, (0 * c.bytesPerKey, bl) :: rest⟩ := by
    rw [enumerateNext, enumerateStart, assert_bind (zero_mul _), assert_bind hfirst]
    rfl
  obtain ⟨runs, hscan, hall⟩ := enumerateAll_scan hdb hused _ 0 _ _ le_rfl hnext hat
  exact ⟨runs, hscan.runsOf, hall⟩

/-- The calls after `enumerate_reset` yield exactly the maximal runs of free blocks. -/
def Enumerates (c : FreelistConf) (used : Set ℕ) (db : BitmapDb c) : Prop :=
  ∃ runs, RunsOf (· ∉ used) c.deviceBlocks runs ∧
    ∀ fuel, runs.length < fuel →
      enumerateAll db fuel (enumerateReset c) = some (runs.map (runBytes c))

/-- **The enumeration.**  The calls lead to a store with the blocks in use, and on every store
with them the maximal free runs are enumerated, exactly if the key behind the device is still a
64-bit offset. -/
theorem enumerates_iff {calls : List FreelistCall} (h : Alternating c calls used)
    (hzero : 0 ∈ used) :
    (∃ db, freelistRun c calls = some db ∧ Represents c used db) ∧
      ((∀ db, Represents c used db → Enumerates c used db) ↔ c.size + c.bytesPerKey ≤ 2 ^ 64) := by
  obtain ⟨db, hrun, hdb⟩ := represents_run h
  refine ⟨⟨db, hrun, hdb⟩, fun henum => ?_, fun hfits db hdb => ?_⟩
  · by_contra hover
    have hword : ¬ c.blocks * c.bytesPerBlock < 2 ^ 64 := mt c.blocks_lt_iff.1 hover
    obtain ⟨runs, hruns, hall⟩ := henum db hdb
    obtain ⟨runs', -, hall'⟩ := enumerateAll_eq hdb h.subset hzero
    have heq := (hall (runs.length + (runs'.map (runBytes c) ++ afterLast c).length + 1)
      (by omega)).symm.trans (hall' _ (by omega))
    have hmem : (0, c.size) ∈ runs.map (runBytes c) := by
      rw [Option.some.inj heq, afterLast, if_neg hword]
      simp
    obtain ⟨⟨s, e⟩, hin, hbytes⟩ := mem_map.1 hmem
    have hs : s = 0 := by
      have := (Prod.mk.inj hbytes).1
      exact (Nat.mul_eq_zero.1 this).resolve_right c.bytesPerBlock_pos.ne'
    subst hs
    have hrun := (hruns.mem 0 e).1 hin
    exact hrun.all 0 le_rfl hrun.lt hzero
  · obtain ⟨runs, hruns, hall⟩ := enumerateAll_eq hdb h.subset hzero
    rw [Yields, afterLast, if_pos (c.blocks_lt_iff.2 hfits), append_nil, length_map] at hall
    exact ⟨runs, hruns, hall⟩

end All

/-- A device of one megabyte with the default options. -/
def smallDevice : FreelistConf := ⟨12, 7, 2 ^ 20, by decide, by decide, by decide, by decide⟩

theorem enumerates_iff_smallDevice :
    (∃ db, freelistRun smallDevice [.allocate (0 * 4096) (1 * 4096)] = some db ∧
        Represents smallDevice (∅ ∪ Set.Ico 0 (0 + 1)) db) ∧
      ((∀ db, Represents smallDevice (∅ ∪ Set.Ico 0 (0 + 1)) db →
          Enumerates smallDevice (∅ ∪ Set.Ico 0 (0 + 1)) db) ↔ 2 ^ 20 + 2 ^ 19 ≤ 2 ^ 64) :=
  enumerates_iff (.allocate .create (by decide) (by decide) (by simp)) (by simp)

/-- A device that ends in the last key of the address space, with the default options. -/
def topDevice : FreelistConf := ⟨12, 7, 2 ^ 64 - 4096, by decide, by decide, by decide, by decide⟩

/-- With block 0 allocated, the free run behind it is followed by the whole device. -/
theorem device_after_last :
    Alternating topDevice [.allocate (0 * 4096) (1 * 4096)] (∅ ∪ Set.Ico 0 (0 + 1)) ∧
      (freelistRun topDevice [.allocate (0 * 4096) (1 * 4096)]).bind
          (fun db => enumerateAll db 4 (enumerateReset topDevice))
        = some [(4096, 2 ^ 64 - 8192), (0, 2 ^ 64 - 4096)] :=
  ⟨.allocate .create (by decide) (by decide) (by simp), by decide +kernel⟩

end Ceph.Os
