import Ceph.Os.Denc

/-!
# The range of the variable-length encodings

`denc_varint`, `denc_signed_varint` and their `lowz` variants of `include/denc.h` on all values of
their argument types.  The encoders shift the value to the left before they write seven bits at a
time, so that the loop sees a negative number, or not all bits, if the value is too large.

* `exists_dencVarint_iff` — the loop ends exactly on values that are not negative.
* `varint_length_le_iff` — how many bytes it writes.
* `denc_roundTrips_iff` — which values are read back from the space that was reserved for them.
* `lba_roundTrips` — all device addresses are.
-/

namespace Ceph.Os

open Nat

/-! ## The functions -/

/-- A value as `int64_t`. -/
def int64 (n : ℤ) : ℤ := Int.bmod n (2 ^ 64)

/-- The loop of `denc_varint`; the shift of a signed value keeps its sign. -/
def dencVarintLoop : ℕ → ℤ → ℕ → Option (List UInt8)
  | 0, _, _ => none
  | fuel + 1, v, byte =>
    if v = 0 then some [UInt8.ofNat byte]
    else (dencVarintLoop fuel (v / 128) (v % 128).toNat).map (UInt8.ofNat (byte + 128) :: ·)

/-- `denc_varint`, on a signed or unsigned value -/
def dencVarint (fuel : ℕ) (v : ℤ) : Option (List UInt8) :=
  dencVarintLoop fuel (v / 128) (v % 128).toNat

/-- What `denc_varint` reserves for a type of `size` bytes. -/
def varintBound (size : ℕ) : ℕ := size + 1

/-- What the other encoders reserve for their eight bytes. -/
def wideVarintBound : ℕ := 8 + 2

/-- What `denc_signed_varint` encodes: the low bit is the sign. -/
def signedWord (v : ℤ) : ℤ :=
  if v < 0 then int64 (int64 (-v) * 2) + 1 else int64 (v * 2)

/-- `denc_signed_varint`, into an `int64_t` -/
def readSignedVarint : Decoder ℤ := do
  let n ← readVarint 64
  let i := int64 n
  pure (if i % 2 = 1 then int64 (-(i / 2)) else i / 2)

/-- `lowznib`: the number of low zero nibbles, of which at most three are left out. -/
def lowznib (v : ℕ) : ℕ := min (if v ≠ 0 then ctz v / 4 else 0) 3

/-- What `denc_varint_lowz` encodes. -/
def lowzWord (v : ℕ) : ℕ := (v >>> (lowznib v * 4)) <<< 2 % 2 ^ 64 ||| lowznib v

/-- What `denc_signed_varint_lowz` encodes: the sign is below the number of nibbles. -/
def signedLowzWord (v : ℤ) : ℤ :=
  let magnitude := if v < 0 then int64 (-v) else v
  let nib := lowznib (magnitude % 2 ^ 64).toNat
  int64 (magnitude / 2 ^ (nib * 4) * 8) + nib * 2 + if v < 0 then 1 else 0

/-- `denc_signed_varint_lowz`, into an `int64_t` -/
def readSignedVarintLowz : Decoder ℤ := do
  let n ← readVarint 64
  let i := int64 n
  let magnitude := int64 (i / 8 * 2 ^ ((i / 2 % 4).toNat * 4))
  pure (if i % 2 = 1 then int64 (-magnitude) else magnitude)

/-- The encoder ends, writes no more than was reserved, and the decoder reads the value back from
what it wrote. -/
def RoundTrips {α : Type} (encode : ℕ → Option (List UInt8)) (reserved : ℕ) (decode : Decoder α)
    (v : α) : Prop :=
  ∃ fuel bytes, encode fuel = some bytes ∧ bytes.length ≤ reserved ∧ Reads decode bytes v

/-! ## The loop -/

theorem varint_eq (v : ℕ) : varint v = if v / 128 = 0 then [UInt8.ofNat (v % 128)]
    else UInt8.ofNat (v % 128 + 128) :: varint (v / 128) := by
  rw [varint]
  by_cases hsmall : v < 128
  · rw [if_pos hsmall, if_pos (div_eq_of_lt hsmall), mod_eq_of_lt hsmall]
  · rw [if_neg hsmall, if_neg (by omega)]

/-- A loop that ended has written the number. -/
theorem dencVarintLoop_eq_some {fuel byte : ℕ} (hbyte : byte < 128) :
    ∀ {v : ℤ} {bytes : List UInt8},
    dencVarintLoop fuel v byte = some bytes → 0 ≤ v ∧ bytes = varint (v.toNat * 128 + byte) := by
  induction fuel generalizing byte with
  | zero => intro v bytes h; exact absurd h (by simp [dencVarintLoop])
  | succ fuel ih =>
    intro v bytes h
    rw [dencVarintLoop] at h
    split_ifs at h with hzero
    · subst hzero
      rw [← Option.some.inj h, varint, if_pos (by simpa using hbyte)]
      simp
    obtain ⟨rest, hrest, rfl⟩ := Option.map_eq_some_iff.1 h
    obtain ⟨hpos, rfl⟩ := ih (by omega) hrest
    have hv : 0 ≤ v := by omega
    refine ⟨hv, ?_⟩
    have hmod : (v.toNat * 128 + byte) % 128 = byte := by omega
    rw [varint_eq (v.toNat * 128 + byte), hmod, if_neg (by omega)]
    congr 2
    omega

theorem exists_dencVarintLoop (n : ℕ) : ∀ byte, ∃ fuel bytes,
    dencVarintLoop fuel n byte = some bytes := by
  induction n using Nat.strong_induction_on with
  | _ n ih =>
    intro byte
    by_cases hzero : n = 0
    · exact ⟨1, _, by rw [dencVarintLoop, if_pos (by omega)]⟩
    · obtain ⟨fuel, bytes, hrun⟩ := ih (n / 128) (by omega) ((n : ℤ) % 128).toNat
      refine ⟨fuel + 1, UInt8.ofNat (byte + 128) :: bytes, ?_⟩
      rw [dencVarintLoop, if_neg (by omega),
        show (n : ℤ) / 128 = ((n / 128 : ℕ) : ℤ) by omega, hrun]
      rfl

/-- **The loop ends exactly on values that are not negative**, and then has written the number. -/
theorem exists_dencVarint_iff {v : ℤ} {bytes : List UInt8} :
    (∃ fuel, dencVarint fuel v = some bytes) ↔ 0 ≤ v ∧ bytes = varint v.toNat := by
  have hvalue : 0 ≤ v → (v / 128).toNat * 128 + (v % 128).toNat = v.toNat := by omega
  constructor
  · rintro ⟨fuel, hrun⟩
    obtain ⟨hpos, hbytes⟩ := dencVarintLoop_eq_some (by omega) hrun
    have hv : 0 ≤ v := by omega
    exact ⟨hv, by rw [hbytes, hvalue hv]⟩
  · rintro ⟨hv, rfl⟩
    obtain ⟨fuel, bytes, hrun⟩ := exists_dencVarintLoop (v / 128).toNat (v % 128).toNat
    rw [show (((v / 128).toNat : ℕ) : ℤ) = v / 128 by omega] at hrun
    obtain ⟨-, hbytes⟩ := dencVarintLoop_eq_some (by omega) hrun
    rw [hvalue hv] at hbytes
    exact ⟨fuel, by rw [dencVarint, hrun, hbytes]⟩

theorem varint_length_le_iff (n : ℕ) : ∀ v, (varint v).length ≤ n + 1 ↔ v < 128 ^ (n + 1) := by
  induction n with
  | zero =>
    intro v
    rw [varint]
    split_ifs with hsmall
    · simpa using hsmall
    · have hpos := List.length_pos_iff.2 (varint_ne_nil (v / 128))
      simp only [List.length_cons]
      omega
  | succ n ih =>
    intro v
    rw [varint]
    split_ifs with hsmall
    · refine iff_of_true (by simp) (hsmall.trans_le ?_)
      exact le_self_pow (by omega) 128
    · rw [List.length_cons, add_le_add_iff_right, ih, div_lt_iff_lt_mul (by decide), ← pow_succ]

/-! ## Reading back -/

theorem reads_unique {α : Type} {d : Decoder α} {bytes : List UInt8} {x y : α}
    (hx : Reads d bytes x) (hy : Reads d bytes y) : x = y :=
  (Prod.mk.inj (Option.some.inj ((hx []).symm.trans (hy [])))).1

/-- A value that is encoded as the number `x` and decoded as `f` of it. -/
theorem roundTrips_iff {α : Type} {k : ℕ} {x : ℤ} {f : ℕ → α} {v : α} (hx : x < 2 ^ 64) :
    RoundTrips (fun fuel => dencVarint fuel x) (k + 1)
        (readVarint 64 >>= fun n => pure (f n)) v ↔ 0 ≤ x ∧ x < 128 ^ (k + 1) ∧ f x.toNat = v := by
  have hread : 0 ≤ x → Reads (readVarint 64 >>= fun n => pure (f n)) (varint x.toNat) (f x.toNat) :=
    fun hpos => (reads_varint (by omega)).map f
  constructor
  · rintro ⟨fuel, bytes, hrun, hlen, hreads⟩
    obtain ⟨hpos, rfl⟩ := exists_dencVarint_iff.1 ⟨fuel, hrun⟩
    have hlt := (varint_length_le_iff k _).1 hlen
    refine ⟨hpos, ?_, reads_unique (hread hpos) hreads⟩
    zify at hlt
    rwa [Int.toNat_of_nonneg hpos] at hlt
  · rintro ⟨hpos, hlt, rfl⟩
    obtain ⟨fuel, hrun⟩ := exists_dencVarint_iff.2 ⟨hpos, rfl⟩
    refine ⟨fuel, _, hrun, (varint_length_le_iff k _).2 ?_, hread hpos⟩
    zify
    rwa [Int.toNat_of_nonneg hpos]

/-! ## Signed values -/

theorem int64_eq {n : ℤ} (h : -2 ^ 63 ≤ n) (h' : n < 2 ^ 63) : int64 n = n :=
  Int.bmod_eq_of_le (by omega) (by omega)

/-- A shift to the left loses the high bits. -/
theorem int64_mul_two_pow (q : ℤ) {k : ℕ} (hk : k < 64) : ∃ t c : ℤ,
    int64 (q * 2 ^ k) = t * 2 ^ k ∧ q = t + 2 ^ (64 - k) * c ∧ -2 ^ (63 - k) ≤ t ∧
      t < 2 ^ (63 - k) := by
  obtain ⟨j, hj, hj'⟩ : ∃ j, 64 - k = j + 1 ∧ 63 - k = j := ⟨63 - k, by omega, rfl⟩
  have hpow : (2 : ℤ) ^ j * 2 ^ k = 2 ^ 63 := by
    rw [← pow_add]
    congr 1
    omega
  have hlow := Int.le_bmod (x := q) (m := 2 ^ (j + 1)) (by positivity)
  have hhigh := Int.bmod_lt (x := q) (m := 2 ^ (j + 1)) (by positivity)
  have hq := Int.bmod_add_bdiv q (2 ^ (j + 1))
  rw [hj, hj']
  generalize Int.bmod q (2 ^ (j + 1)) = t at *
  generalize Int.bdiv q (2 ^ (j + 1)) = c at *
  push_cast at hlow hhigh hq
  have hlow' : -2 ^ j ≤ t := by omega
  have hhigh' : t < 2 ^ j := by omega
  refine ⟨t, c, ?_, hq.symm, hlow', hhigh'⟩
  have hshift : q * 2 ^ k = t * 2 ^ k + ((2 ^ 64 : ℕ) : ℤ) * c := by
    rw [← hq]
    linear_combination 2 * c * hpow
  rw [int64, hshift, Int.add_mul_bmod_self_left]
  refine int64_eq ?_ ?_
  · rw [← hpow, ← neg_mul]
    exact mul_le_mul_of_nonneg_right hlow' (by positivity)
  · rw [← hpow]
    exact mul_lt_mul_of_pos_right hhigh' (by positivity)

/-- The words of values that fit, and of others. -/
theorem signedWord_spec {v : ℤ} (hlow : -2 ^ 63 ≤ v) (hhigh : v < 2 ^ 63) :
    (-2 ^ 62 < v ∧ v < 2 ^ 62 ∧ signedWord v = if v < 0 then -v * 2 + 1 else v * 2) ∨
      ¬ (-2 ^ 62 < v ∧ v < 2 ^ 62) ∧ (signedWord v < 0 ∨ v = -2 ^ 63 ∧ signedWord v = 1) := by
  rw [signedWord]
  split_ifs with hneg
  · by_cases hmin : v = -2 ^ 63
    · subst hmin
      exact .inr ⟨by decide, .inr ⟨rfl, by decide⟩⟩
    · obtain ⟨t, c, hshift, hq, ht, ht'⟩ := int64_mul_two_pow (-v) (show 1 < 64 by decide)
      rw [pow_one] at hshift
      rw [int64_eq (n := -v) (by omega) (by omega)]
      obtain rfl | rfl : c = 0 ∨ c = 1 := by omega
      · exact .inl ⟨by omega, by omega, by omega⟩
      · exact .inr ⟨by omega, .inl (by omega)⟩
  · obtain ⟨t, c, hshift, hq, ht, ht'⟩ := int64_mul_two_pow v (show 1 < 64 by decide)
    rw [pow_one] at hshift
    obtain rfl | rfl : c = 0 ∨ c = 1 := by omega
    · exact .inl ⟨by omega, by omega, by omega⟩
    · exact .inr ⟨by omega, .inl (by omega)⟩

/-- `denc_signed_varint` -/
theorem signedVarint_roundTrips_iff {v : ℤ} (hlow : -2 ^ 63 ≤ v) (hhigh : v < 2 ^ 63) :
    RoundTrips (fun fuel => dencVarint fuel (signedWord v)) wideVarintBound readSignedVarint v ↔
      -2 ^ 62 < v ∧ v < 2 ^ 62 := by
  rcases signedWord_spec hlow hhigh with ⟨hv, hv', hword⟩ | ⟨hout, hword⟩
  · have hpos : 0 ≤ signedWord v := by
      rw [hword]
      split_ifs <;> omega
    have hlt : signedWord v < 2 ^ 63 := by
      rw [hword]
      split_ifs <;> omega
    rw [wideVarintBound, readSignedVarint, roundTrips_iff (by omega)]
    rw [Int.toNat_of_nonneg hpos, int64_eq (by omega) hlt, hword]
    split_ifs with hneg hodd
    · rw [int64_eq (by omega) (by omega)]
      omega
    · omega
    · omega
    · omega
  · refine iff_of_false (fun h => ?_) hout
    have hle : signedWord v < 2 ^ 64 := by
      rcases hword with hneg | ⟨-, hone⟩
      · exact hneg.trans (by norm_num)
      · rw [hone]
        norm_num
    rw [wideVarintBound, readSignedVarint, roundTrips_iff hle] at h
    obtain ⟨hpos, -, hvalue⟩ := h
    rcases hword with hneg | ⟨rfl, hone⟩
    · exact absurd hpos (not_le.2 hneg)
    · exact absurd hvalue (by decide)

/-! ## Low zero nibbles -/

variable {v : ℕ}

theorem le_ctz {k : ℕ} (hdvd : 2 ^ k ∣ v) (hv : v ≠ 0) (hlt : v < 2 ^ 64) : k ≤ ctz v := by
  rw [ctz]
  cases hfind : (List.range 64).find? v.testBit with
  | none =>
    have hpow : 2 ^ k < 2 ^ 64 := (Nat.le_of_dvd (Nat.pos_of_ne_zero hv) hdvd).trans_lt hlt
    exact ((Nat.pow_lt_pow_iff_right (by decide)).1 hpow).le
  | some i =>
    rw [Option.getD_some]
    obtain ⟨hbit, -⟩ := List.find?_range_eq_some.1 hfind
    by_contra hi
    obtain ⟨q, rfl⟩ := hdvd
    rw [testBit_two_pow_mul, decide_eq_false (by omega)] at hbit
    exact Bool.noConfusion hbit

/-- What is left out are zero bits, and some are if the low nibble is zero. -/
theorem lowznib_spec (hlt : v < 2 ^ 64) : lowznib v ≤ 3 ∧
    v = v / 2 ^ (lowznib v * 4) * 2 ^ (lowznib v * 4) ∧
    (16 ∣ v → v / 2 ^ (lowznib v * 4) < 2 ^ 60) ∧ (¬ 16 ∣ v → lowznib v = 0) := by
  have hdvd := @nibbles_dvd v
  have hnib : lowznib v ≤ if v ≠ 0 then ctz v / 4 else 0 := min_le_left _ _
  refine ⟨min_le_right _ _, (Nat.div_mul_cancel (hdvd hnib)).symm, fun h16 => ?_, fun hnot => ?_⟩
  · by_cases hzero : v = 0
    · rw [hzero]
      decide
    · have hctz : 4 ≤ ctz v := le_ctz h16 hzero hlt
      have hone : 1 ≤ lowznib v := by
        rw [lowznib, if_pos hzero]
        omega
      have hpow : 2 ^ 4 ≤ 2 ^ (lowznib v * 4) := Nat.pow_le_pow_right (by decide) (by omega)
      calc v / 2 ^ (lowznib v * 4) ≤ v / 2 ^ 4 := Nat.div_le_div_left hpow (by decide)
        _ < 2 ^ 60 := Nat.div_lt_of_lt_mul hlt
  · by_contra hne
    exact hnot ((pow_dvd_pow 2 (by omega : 4 ≤ lowznib v * 4)).trans (hdvd hnib))

theorem lowzWord_eq : lowzWord v = v / 2 ^ (lowznib v * 4) % 2 ^ 62 * 4 + lowznib v := by
  have hnib : lowznib v < 2 ^ 2 := lt_succ_of_le (min_le_right _ _)
  have hpow : (2 : ℕ) ^ 64 = 2 ^ 62 * 2 ^ 2 := by norm_num
  rw [lowzWord, shiftRight_eq_div_pow, shiftLeft_eq, hpow, mul_mod_mul_right,
    mul_comm _ (2 ^ 2), ← two_pow_add_eq_or_of_lt hnib]

/-- `denc_varint_lowz` -/
theorem varintLowz_roundTrips_iff (hlt : v < 2 ^ 64) :
    RoundTrips (fun fuel => dencVarint fuel (lowzWord v)) wideVarintBound (readVarintLowz 64) v ↔
      v < 2 ^ 62 ∨ 16 ∣ v := by
  obtain ⟨hnib, hv, hdvd, hnot⟩ := lowznib_spec hlt
  have hword := lowzWord_eq (v := v)
  generalize hq : v / 2 ^ (lowznib v * 4) = q at *
  have hless : (lowzWord v : ℤ) < 2 ^ 64 := by
    omega
  have hdecode : (lowzWord v >>> 2) <<< (lowzWord v % 4 * 4) % 2 ^ 64 % 2 ^ 64
      = q % 2 ^ 62 * 2 ^ (lowznib v * 4) % 2 ^ 64 := by
    rw [hword, shiftRight_eq_div_pow, shiftLeft_eq, mod_mod]
    have hdiv : (q % 2 ^ 62 * 4 + lowznib v) / 2 ^ 2 = q % 2 ^ 62 := by
      omega
    have hmod4 : (q % 2 ^ 62 * 4 + lowznib v) % 4 = lowznib v := by
      omega
    rw [hdiv, hmod4]
  rw [wideVarintBound, readVarintLowz, roundTrips_iff hless, Int.toNat_natCast, hdecode]
  constructor
  · rintro ⟨-, -, hvalue⟩
    by_contra hlarge
    obtain ⟨-, hnot16⟩ := not_or.1 hlarge
    rw [hnot hnot16] at hv hvalue
    omega
  · intro hfit
    have hsmall : q < 2 ^ 62 := by
      rcases hfit with hfit | hfit
      · rw [← hq]
        exact (div_le_self _ _).trans_lt hfit
      · exact (hdvd hfit).trans (by norm_num)
    refine ⟨Int.natCast_nonneg _, hless.trans (by norm_num), ?_⟩
    rw [mod_eq_of_lt hsmall, ← hv, mod_eq_of_lt hlt]

/-- What `denc_signed_varint_lowz` makes of a word. -/
def signedLowzValue (n : ℕ) : ℤ :=
  let i := int64 n
  let magnitude := int64 (i / 8 * 2 ^ ((i / 2 % 4).toNat * 4))
  if i % 2 = 1 then int64 (-magnitude) else magnitude

theorem signedLowzValue_eq {t nib s : ℕ} (ht : t < 2 ^ 60) (hnib : nib ≤ 3) (hs : s ≤ 1)
    (hlt : t * 2 ^ (nib * 4) < 2 ^ 63) : signedLowzValue (t * 8 + nib * 2 + s)
      = if s = 1 then -((t * 2 ^ (nib * 4) : ℕ) : ℤ) else ((t * 2 ^ (nib * 4) : ℕ) : ℤ) := by
  have hi : int64 ((t * 8 + nib * 2 + s : ℕ) : ℤ) = ((t * 8 + nib * 2 + s : ℕ) : ℤ) :=
    int64_eq (by omega) (by omega)
  have hdiv : ((t * 8 + nib * 2 + s : ℕ) : ℤ) / 8 = t := by omega
  have hbits : (((t * 8 + nib * 2 + s : ℕ) : ℤ) / 2 % 4).toNat = nib := by omega
  have hodd : ((t * 8 + nib * 2 + s : ℕ) : ℤ) % 2 = 1 ↔ s = 1 := by omega
  have hvalue : (t : ℤ) * 2 ^ (nib * 4) = ((t * 2 ^ (nib * 4) : ℕ) : ℤ) := by
    rfl
  simp only [signedLowzValue, hi, hdiv, hbits, hvalue]
  generalize t * 2 ^ (nib * 4) = x at hlt
  rw [int64_eq (n := x) (by omega) (by omega), int64_eq (by omega) (by omega)]
  exact if_congr hodd rfl rfl

/-- The words of values other than the least one. -/
theorem signedLowzWord_eq {v : ℤ} (hlow : -2 ^ 63 < v) (hhigh : v < 2 ^ 63) :
    signedLowzWord v = int64 ((v.natAbs / 2 ^ (lowznib v.natAbs * 4) : ℕ) * 2 ^ 3) +
      lowznib v.natAbs * 2 + (if v < 0 then 1 else 0 : ℕ) := by
  have hmagnitude : (if v < 0 then int64 (-v) else v) = v.natAbs := by
    split_ifs with hneg
    · rw [int64_eq (by omega) (by omega)]
      omega
    · omega
  have hnat : ((v.natAbs : ℤ) % 2 ^ 64).toNat = v.natAbs := by omega
  simp only [signedLowzWord, hmagnitude, hnat]
  push_cast
  rfl

/-- `denc_signed_varint_lowz` -/
theorem signedVarintLowz_roundTrips_iff {v : ℤ} (hlow : -2 ^ 63 ≤ v) (hhigh : v < 2 ^ 63) :
    RoundTrips (fun fuel => dencVarint fuel (signedLowzWord v)) wideVarintBound
        readSignedVarintLowz v ↔ v ≠ -2 ^ 63 ∧ (-2 ^ 60 < v ∧ v < 2 ^ 60 ∨ 16 ∣ v) := by
  have hread : readSignedVarintLowz = readVarint 64 >>= fun n => pure (signedLowzValue n) := rfl
  by_cases hmin : v = -2 ^ 63
  · subst hmin
    have hword : signedLowzWord (-2 ^ 63) < 0 := by decide +kernel
    refine iff_of_false (fun h => ?_) fun h => h.1 rfl
    rw [wideVarintBound, hread, roundTrips_iff (by omega)] at h
    omega
  · obtain ⟨hnib, hv, hdvd, hnot⟩ := lowznib_spec (v := v.natAbs) (by omega)
    have hword := signedLowzWord_eq (by omega) hhigh
    have h16 : 16 ∣ v.natAbs ↔ (16 : ℤ) ∣ v := by omega
    generalize hn : lowznib v.natAbs = nib at *
    generalize hq : v.natAbs / 2 ^ (nib * 4) = q at *
    generalize hs : (if v < 0 then 1 else 0 : ℕ) = s at *
    have hs1 : s ≤ 1 := by
      rw [← hs]
      split_ifs <;> omega
    obtain ⟨t, c, hshift, hqt, ht, ht'⟩ := int64_mul_two_pow (q : ℤ) (show 3 < 64 by decide)
    rw [hshift] at hword
    rw [wideVarintBound, hread, roundTrips_iff (by omega)]
    rcases lt_or_ge q (2 ^ 60) with hsmall | hlarge
    · -- all bits are in the word
      have hnat : (signedLowzWord v).toNat = q * 8 + nib * 2 + s := by omega
      refine iff_of_true ⟨by omega, by omega, ?_⟩ ⟨hmin, ?_⟩
      · rw [hnat, signedLowzValue_eq hsmall hnib hs1 (by omega), ← hs]
        by_cases hneg : v < 0
        · rw [if_pos hneg]
          omega
        · rw [if_neg hneg]
          omega
      · by_contra hout
        obtain ⟨-, hdiv⟩ := not_or.1 hout
        rw [hnot fun h => hdiv (h16.1 h)] at hv
        omega
    · have hodd : ¬ 16 ∣ v.natAbs := fun h => absurd (hdvd h) (by omega)
      have hzero := hnot hodd
      subst hzero
      refine iff_of_false (fun ⟨hpos, _, hvalue⟩ => ?_) fun ⟨_, h⟩ => ?_
      · obtain ⟨k, rfl⟩ : ∃ k : ℕ, t = k := ⟨t.toNat, by omega⟩
        have hnat : (signedLowzWord v).toNat = k * 8 + 0 * 2 + s := by omega
        rw [hnat, signedLowzValue_eq (by omega) hnib hs1 (by omega)] at hvalue
        split_ifs at hvalue <;> omega
      · rcases h with h | h
        · omega
        · exact hodd (h16.2 h)

/-! ## All encoders -/

/-- **Which values round-trip**: all of `uint32_t`; otherwise those that leave room for the bits
that are added, or for the tenth byte. -/
theorem denc_roundTrips_iff (w : BitVec 32) (v : BitVec 64) :
    RoundTrips (fun fuel => dencVarint fuel w.toNat) (varintBound 4) (readVarint 32) w.toNat ∧
    (RoundTrips (fun fuel => dencVarint fuel v.toNat) (varintBound 8) (readVarint 64) v.toNat ↔
      v.toNat < 2 ^ 63) ∧
    (RoundTrips (fun fuel => dencVarint fuel (signedWord v.toInt)) wideVarintBound
      readSignedVarint v.toInt ↔ -2 ^ 62 < v.toInt ∧ v.toInt < 2 ^ 62) ∧
    (RoundTrips (fun fuel => dencVarint fuel (lowzWord v.toNat)) wideVarintBound
      (readVarintLowz 64) v.toNat ↔ v.toNat < 2 ^ 62 ∨ 16 ∣ v.toNat) ∧
    (RoundTrips (fun fuel => dencVarint fuel (signedLowzWord v.toInt)) wideVarintBound
      readSignedVarintLowz v.toInt ↔
        v.toInt ≠ -2 ^ 63 ∧ (-2 ^ 60 < v.toInt ∧ v.toInt < 2 ^ 60 ∨ 16 ∣ v.toInt)) := by
  refine ⟨?_, ?_, signedVarint_roundTrips_iff v.le_toInt v.toInt_lt,
    varintLowz_roundTrips_iff v.isLt, signedVarintLowz_roundTrips_iff v.le_toInt v.toInt_lt⟩
  · obtain ⟨fuel, hrun⟩ := exists_dencVarint_iff.2 ⟨Int.natCast_nonneg w.toNat, rfl⟩
    exact ⟨fuel, _, hrun, (varint_length_le_iff 4 _).2 (w.isLt.trans (by norm_num)),
      reads_varint w.isLt⟩
  · rw [← bind_pure (readVarint 64)]
    have h := roundTrips_iff (k := 8) (x := v.toNat) (f := id) (v := v.toNat)
      (by exact_mod_cast v.isLt)
    refine h.trans ⟨fun ⟨_, hlt, _⟩ => by norm_num at hlt ⊢; omega, fun hlt => ⟨by omega, ?_, rfl⟩⟩
    omega

/-- `denc_varint` of `uint64_t` writes ten bytes where nine were reserved, `denc_signed_varint` and
`denc_signed_varint_lowz` do not end or lose the value, and `denc_varint_lowz` loses high bits. -/
theorem denc_out_of_range :
    ¬ RoundTrips (fun fuel => dencVarint fuel (2 ^ 63)) (varintBound 8) (readVarint 64) (2 ^ 63) ∧
    ¬ RoundTrips (fun fuel => dencVarint fuel (signedWord (2 ^ 62))) wideVarintBound
      readSignedVarint (2 ^ 62) ∧
    ¬ RoundTrips (fun fuel => dencVarint fuel (signedWord (-2 ^ 63))) wideVarintBound
      readSignedVarint (-2 ^ 63) ∧
    ¬ RoundTrips (fun fuel => dencVarint fuel (lowzWord (2 ^ 62 + 1))) wideVarintBound
      (readVarintLowz 64) (2 ^ 62 + 1) ∧
    ¬ RoundTrips (fun fuel => dencVarint fuel (signedLowzWord (-2 ^ 63))) wideVarintBound
      readSignedVarintLowz (-2 ^ 63) := by
  refine ⟨?_, ?_, ?_, ?_, ?_⟩
  · rintro ⟨fuel, bytes, hrun, hlen, -⟩
    obtain ⟨-, rfl⟩ := exists_dencVarint_iff.1 ⟨fuel, hrun⟩
    have hlt := (varint_length_le_iff 8 _).1 hlen
    exact absurd hlt (by decide)
  · rw [signedVarint_roundTrips_iff (by norm_num) (by norm_num)]
    norm_num
  · rw [signedVarint_roundTrips_iff (by norm_num) (by norm_num)]
    norm_num
  · rw [varintLowz_roundTrips_iff (by norm_num)]
    norm_num
  · rw [signedVarintLowz_roundTrips_iff (by norm_num) (by norm_num)]
    norm_num

/-! ## Device addresses -/

theorem varint_length_le {n : ℕ} (hv : v < 2 ^ (7 * (n + 1))) : (varint v).length ≤ n + 1 := by
  rw [varint_length_le_iff]
  rwa [show (128 : ℕ) = 2 ^ 7 from rfl, ← pow_mul]

theorem leBytes_length (n : ℕ) : ∀ v, (leBytes n v).length = n := by
  induction n with
  | zero => exact fun _ => rfl
  | succ n ih => exact fun v => congrArg (· + 1) (ih _)

/-- The first word leaves at most 36 bits. -/
theorem lbaStart_rest (hv : v < 2 ^ 64) : (lbaStart v).1 >>> (31 - (lbaStart v).2.1) < 2 ^ 36 := by
  have hstart : (lbaStart v).1 ≤ v ∧ (lbaStart v).2.1 ≤ 3 := by
    simp only [lbaStart]
    generalize (if v ≠ 0 then ctz v / 4 else 0) = nib
    split_ifs
    · exact ⟨le_rfl, le_rfl⟩
    · exact ⟨shiftRight_le _ _, by dsimp only; omega⟩
    · exact ⟨shiftRight_le _ _, le_rfl⟩
  generalize lbaStart v = start at hstart
  calc start.1 >>> (31 - start.2.1) = start.1 / 2 ^ (31 - start.2.1) := shiftRight_eq_div_pow ..
    _ ≤ start.1 / 2 ^ 28 :=
      Nat.div_le_div_left (Nat.pow_le_pow_right (by decide) (by omega)) (by decide)
    _ ≤ v / 2 ^ 28 := Nat.div_le_div_right hstart.1
    _ < 2 ^ 36 := Nat.div_lt_of_lt_mul hv

/-- **Device addresses round-trip** in at most ten bytes. -/
theorem lba_roundTrips (v : BitVec 64) :
    Reads readLba (dencLba v.toNat) v.toNat ∧ (dencLba v.toNat).length ≤ 10 := by
  refine ⟨reads_lba v.isLt, ?_⟩
  have hrest := lbaStart_rest v.isLt
  simp only [dencLba]
  split_ifs
  · rw [leBytes_length]
    decide
  · have hlen := varint_length_le (n := 5) (hrest.trans (by decide))
    rw [List.length_append]
    exact Nat.add_le_add_left hlen 4

end Ceph.Os
