import Ceph.Common.HObject

/-!
# Beginnings of the names of the objects of a placement group

`hobject_t::match` and `hobject_t::get_prefixes`.  A placement group holds the objects
of a pool whose hash ends in certain bits.  As the hash is printed with its nibbles
reversed, the names of these objects begin with one of up to eight strings.
-/

namespace Ceph.Common

open List

/-- `match_hash`.  The shift is defined for `bits < 32`. -/
def matchHash (toCheck : BitVec 32) (bits : ℕ) (pattern : BitVec 32) : Bool :=
  (pattern &&& ~~~(~~~0#32 <<< bits)) == (toCheck &&& ~~~(~~~0#32 <<< bits))

/-- `bits`, rounded up to whole nibbles. -/
def nibbleBits (bits : ℕ) : ℕ := (bits + 3) / 4 * 4

/-- One round of the loop of `get_prefixes`: both values of a bit. -/
def hashesRound (hashes : Finset (BitVec 32)) (i : ℕ) : Finset (BitVec 32) :=
  hashes.image (· ||| (1#32 <<< i)) ∪ hashes

/-- The hashes with all values of the bits that fill the last nibble. -/
def hashesFrom (bits : ℕ) (start : BitVec 32) : Finset (BitVec 32) :=
  (range' bits (nibbleBits bits - bits)).foldl hashesRound {start}

/-- The hash the loop starts with.  `get_prefixes` aborts if there are more than 32 bits. -/
def startHash (bits : ℕ) (mask : BitVec 32) : Option (BitVec 32) :=
  if bits < 32 then some (mask &&& ~~~(~~~0#32 <<< bits))
  else if bits = 32 then some mask
  else none

/-- `get_prefixes` -/
def getPrefixes (bits : ℕ) (mask : BitVec 32) (pool : BitVec 64) : Option (Finset (List Char)) :=
  (startHash bits mask).map fun start =>
    let poolstr := upperHex 16 pool.toNat ++ ['.']
    (hashesFrom bits start).image fun i =>
      poolstr ++ (upperHex 8 (reverseNibbles i).toNat).take (nibbleBits bits / 4)

/-! ## The hashes -/

/-- The lowest `n` bits. -/
def lowBits (n : ℕ) (v : BitVec 32) : BitVec 32 := v &&& ~~~(~~~0#32 <<< n)

theorem getLsbD_lowBits (n : ℕ) (v : BitVec 32) (i : ℕ) :
    (lowBits n v).getLsbD i = (v.getLsbD i && decide (i < n)) := by
  unfold lowBits
  by_cases hi : i < 32
  · have hsub : i - n < 32 := by omega
    rw [BitVec.getLsbD_and, BitVec.getLsbD_not, BitVec.getLsbD_shiftLeft, BitVec.getLsbD_not,
      BitVec.getLsbD_zero]
    by_cases hn : i < n <;> simp [hi, hn, hsub]
  · simp [BitVec.getLsbD_of_ge v i (not_lt.1 hi)]

theorem lowBits_succ (n : ℕ) (v : BitVec 32) : lowBits (n + 1) v =
    if v.getLsbD n then lowBits n v ||| 1#32 <<< n else lowBits n v := by
  refine BitVec.eq_of_getLsbD_eq fun i hi => ?_
  rcases lt_trichotomy i n with hlt | rfl | hgt
  · cases v.getLsbD n <;> simp [getLsbD_lowBits, hlt, hlt.trans (Nat.lt_succ_self _)]
  · cases hbit : v.getLsbD i with
    | true => simp [getLsbD_lowBits, hbit, hi]
    | false => simp [getLsbD_lowBits, hbit]
  · have hne : i - n ≠ 0 := by omega
    cases v.getLsbD n <;> simp [getLsbD_lowBits, hgt.not_gt, hne, show ¬ i < n + 1 by omega]

/-- The hash, cut off after any number of bits, is found once these are tried. -/
theorem lowBits_mem_foldl {bits : ℕ} {start v : BitVec 32} (hstart : start = lowBits bits v)
    (n : ℕ) : lowBits (bits + n) v ∈ (range' bits n).foldl hashesRound {start} := by
  induction n with
  | zero => exact Finset.mem_singleton.2 hstart.symm
  | succ n ih =>
    rw [List.range'_concat, foldl_append, foldl_cons, foldl_nil, hashesRound,
      Finset.mem_union, Finset.mem_image, Nat.one_mul, ← Nat.add_assoc, lowBits_succ]
    split
    · exact .inl ⟨_, ih, rfl⟩
    · exact .inr ih

/-- The hashes that are tried end in the bits of the first one. -/
theorem lowBits_of_mem_foldl {bits : ℕ} {start : BitVec 32} (hstart : lowBits bits start = start)
    (n : ℕ) {v : BitVec 32} (hv : v ∈ (range' bits n).foldl hashesRound {start}) :
    lowBits bits v = start := by
  induction n generalizing v with
  | zero => rwa [Finset.mem_singleton.1 hv]
  | succ n ih =>
    rw [List.range'_concat, foldl_append, foldl_cons, foldl_nil, hashesRound, Finset.mem_union,
      Finset.mem_image, Nat.one_mul] at hv
    rcases hv with ⟨u, hu, rfl⟩ | hv
    · rw [← ih hu]
      refine BitVec.eq_of_getLsbD_eq fun i hi => ?_
      by_cases hlt : i < bits
      · simp [getLsbD_lowBits, hlt, show i < bits + n by omega]
      · simp [getLsbD_lowBits, hlt]
    · exact ih hv

/-! ## The names -/

/-- The first nibbles that are printed are the lowest of the hash. -/
theorem take_upperHex_eq_iff {k : ℕ} (hk : k ≤ 8) {v w : BitVec 32} :
    (upperHex 8 (reverseNibbles v).toNat).take k = (upperHex 8 (reverseNibbles w).toNat).take k ↔
      ∀ i < 4 * k, v.getLsbD i = w.getLsbD i := by
  have hpow : 16 ^ (8 - k) = 2 ^ (4 * (8 - k)) := by rw [Nat.pow_mul]
  have hdiv : ∀ u : BitVec 32, (upperHex 8 u.toNat).take k =
      numeral upperDigit 16 k (u >>> (4 * (8 - k))).toNat := by
    intro u
    have htake := take_numeral upperDigit 16 k (8 - k) u.toNat
    rw [Nat.add_sub_cancel' hk] at htake
    rw [upperHex, htake, BitVec.toNat_ushiftRight, Nat.shiftRight_eq_div_pow, hpow]
  have hlt : ∀ u : BitVec 32, (u >>> (4 * (8 - k))).toNat < 16 ^ k := by
    intro u
    rw [BitVec.toNat_ushiftRight, Nat.shiftRight_eq_div_pow, ← hpow]
    refine Nat.div_lt_of_lt_mul ?_
    rw [← Nat.pow_add, Nat.sub_add_cancel hk]
    exact u.isLt
  rw [hdiv, hdiv]
  constructor
  · intro h i hi
    have hshift := BitVec.eq_of_toNat_eq (numeral_inj cmp_upperDigit (hlt _) (hlt _) h)
    -- the nibble of the bit is printed at the mirrored place
    obtain ⟨j, hj, hji⟩ : ∃ j < 32, 28 - 4 * (j / 4) + j % 4 = i ∧ 4 * (8 - k) ≤ j :=
      ⟨28 - 4 * (i / 4) + i % 4, by omega, by omega, by omega⟩
    have hbit := congrArg (·.getLsbD (j - 4 * (8 - k))) hshift
    simp only [BitVec.getLsbD_ushiftRight, Nat.add_sub_cancel' hji.2] at hbit
    rwa [getLsbD_reverseNibbles _ hj, getLsbD_reverseNibbles _ hj, hji.1] at hbit
  · intro h
    have hshift : reverseNibbles v >>> (4 * (8 - k)) = reverseNibbles w >>> (4 * (8 - k)) := by
      refine BitVec.eq_of_getLsbD_eq fun i hi => ?_
      rw [BitVec.getLsbD_ushiftRight, BitVec.getLsbD_ushiftRight]
      by_cases hin : 4 * (8 - k) + i < 32
      · rw [getLsbD_reverseNibbles _ hin, getLsbD_reverseNibbles _ hin]
        exact h _ (by omega)
      · rw [BitVec.getLsbD_of_ge _ _ (not_lt.1 hin), BitVec.getLsbD_of_ge _ _ (not_lt.1 hin)]
    rw [hshift]

/-- **The name of an object of the placement group begins with one of the strings**, and
goes on after it. -/
theorem exists_prefix_of_matchHash {bits : ℕ} {mask : BitVec 32} {o : HObject} (hbits : bits < 32)
    (hmatch : matchHash o.hash bits mask) :
    ∃ prefixes, getPrefixes bits mask o.pool = some prefixes ∧
      ∃ p ∈ prefixes, p <+: o.toStr ∧ p ≠ o.toStr := by
  have hstart : mask &&& ~~~(~~~0#32 <<< bits) = lowBits bits o.hash := eq_of_beq hmatch
  have hle : bits ≤ nibbleBits bits := by unfold nibbleBits; omega
  have hmem := lowBits_mem_foldl hstart (nibbleBits bits - bits)
  rw [Nat.add_sub_cancel' hle] at hmem
  refine ⟨_, by rw [getPrefixes, startHash, if_pos hbits]; rfl, _,
    Finset.mem_image.2 ⟨_, hmem, rfl⟩, ?_⟩
  have hnibbles : nibbleBits bits = 4 * (nibbleBits bits / 4) := by unfold nibbleBits; omega
  have hk : nibbleBits bits / 4 ≤ 8 := by unfold nibbleBits; omega
  have hsame : ∀ i < 4 * (nibbleBits bits / 4),
      (lowBits (nibbleBits bits) o.hash).getLsbD i = o.hash.getLsbD i := by
    intro i hi
    rw [← hnibbles] at hi
    rw [getLsbD_lowBits, decide_eq_true hi, Bool.and_true]
  rw [(take_upperHex_eq_iff hk).2 hsame]
  constructor
  · rw [HObject.toStr, append_assoc, prefix_append_right_inj, singleton_append, cons_prefix_cons]
    refine ⟨rfl, ?_⟩
    have htake := take_prefix (nibbleBits bits / 4) (upperHex 8 (reverseNibbles o.hash).toNat)
    exact htake.trans (prefix_append _ _)
  · intro heq
    have hlen := congrArg length heq
    simp only [HObject.toStr, upperHex, length_append, length_cons, length_take,
      length_numeral, length_nil] at hlen
    omega

/-- The strings have one length. -/
theorem length_of_mem_getPrefixes {bits : ℕ} {mask : BitVec 32} {pool : BitVec 64}
    {prefixes : Finset (List Char)} (h : getPrefixes bits mask pool = some prefixes)
    {p : List Char} (hp : p ∈ prefixes) : p.length = 17 + min (nibbleBits bits / 4) 8 := by
  obtain ⟨start, -, rfl⟩ := Option.map_eq_some_iff.1 h
  obtain ⟨i, -, rfl⟩ := Finset.mem_image.1 hp
  simp only [upperHex, length_append, length_numeral, length_singleton, length_take]

/-- **The strings begin exactly the names of the objects that match**, and only one of them begins
such a name. -/
theorem getPrefixes_exact (bits : Fin 32) (mask : BitVec 32) (o : HObject) :
    ∃ prefixes, getPrefixes bits mask o.pool = some prefixes ∧
      (matchHash o.hash bits mask ↔ ∃ p ∈ prefixes, p <+: o.toStr) ∧
      ∀ p ∈ prefixes, ∀ q ∈ prefixes, p <+: o.toStr → q <+: o.toStr → p = q := by
  obtain ⟨prefixes, hsome⟩ : ∃ prefixes, getPrefixes bits mask o.pool = some prefixes :=
    ⟨_, by rw [getPrefixes, startHash, if_pos bits.isLt]; rfl⟩
  refine ⟨prefixes, hsome, ⟨fun hmatch => ?_, fun ⟨p, hp, hpre⟩ => ?_⟩,
    fun p hp q hq hpre hpre' => ?_⟩
  · obtain ⟨prefixes, heq, p, hp, hpre, -⟩ := exists_prefix_of_matchHash bits.isLt hmatch
    cases hsome.symm.trans heq
    exact ⟨p, hp, hpre⟩
  · rw [getPrefixes, startHash, if_pos bits.isLt] at hsome
    cases hsome
    obtain ⟨v, hv, rfl⟩ := Finset.mem_image.1 hp
    have hlow : lowBits bits (lowBits bits mask) = lowBits bits mask := by
      refine BitVec.eq_of_getLsbD_eq fun i hi => ?_
      simp [getLsbD_lowBits]
    have hstart := lowBits_of_mem_foldl hlow _ hv
    have hk : nibbleBits bits / 4 ≤ 8 := by unfold nibbleBits; omega
    have hle : (bits : ℕ) ≤ 4 * (nibbleBits bits / 4) := by unfold nibbleBits; omega
    rw [HObject.toStr, append_assoc, prefix_append_right_inj, singleton_append,
      cons_prefix_cons] at hpre
    have hnibbles := prefix_iff_eq_take.1 hpre.2
    rw [length_take, upperHex, length_numeral, min_eq_left hk, ← upperHex,
      take_append_of_le_length (by rwa [upperHex, length_numeral]), take_upperHex_eq_iff hk]
      at hnibbles
    refine beq_iff_eq.2 (hstart.symm.trans (BitVec.eq_of_getLsbD_eq fun i hi => ?_))
    rw [getLsbD_lowBits, ← lowBits, getLsbD_lowBits]
    by_cases hlt : i < bits
    · rw [hnibbles i (hlt.trans_le hle)]
    · simp [hlt]
  · have hlen :=
      (length_of_mem_getPrefixes hsome hp).trans (length_of_mem_getPrefixes hsome hq).symm
    exact (prefix_of_prefix_length_le hpre hpre' hlen.le).eq_of_length hlen

end Ceph.Common
