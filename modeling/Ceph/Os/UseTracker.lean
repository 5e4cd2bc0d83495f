import Mathlib
import Ceph.Lib.Loop

/-!
# The use tracker of a blob

`bluestore_blob_use_tracker_t` of `os/bluestore/bluestore_types.cc` counts for each allocation unit
of a blob the bytes that extents refer to, or only their total if the blob is one unit.

* `Counts` — the counters are the bytes in use of each unit, or there is only their total, as also
  happens if the number of units does not fit into a word.
* `Counts.get` — `get` adds the bytes of a range to the units they are in.
-/

namespace Ceph.Os

open List Nat

/-! ## The functions -/

/-- `bluestore_blob_use_tracker_t`; the last two fields are a union, of which `numAu` selects
one. -/
structure UseTracker where
  auSize : ℕ := 0
  numAu : ℕ := 0
  totalBytes : ℕ := 0
  bytesPerAu : List ℕ := []
  deriving DecidableEq

/-- `ROUND_UP_TO`, of `uint32_t` -/
def roundUpTo (n d : ℕ) : ℕ := if n % d ≠ 0 then (n + d - n % d) % 2 ^ 32 else n

namespace UseTracker

/-- `is_not_empty` -/
def isNotEmpty (t : UseTracker) : Bool :=
  if t.numAu = 0 then t.totalBytes ≠ 0 else (t.bytesPerAu.take t.numAu).any (· ≠ 0)

/-- `init` -/
def init (t : UseTracker) (fullLength auSize : ℕ) : Option UseTracker := do
  assert (t.auSize = 0 ∨ t.isNotEmpty = false)
  assert (0 < auSize)
  assert (0 < fullLength)
  let numAu := roundUpTo fullLength auSize / auSize
  some (if 1 < numAu then { auSize, numAu, bytesPerAu := List.replicate numAu 0 } else { auSize })

/-- Where the loops of `get` and `put` go on: at the end of the unit of `offset`. -/
def nextUnit (au offset : ℕ) : ℕ :=
  let phase := offset % au
  (offset + (if phase ≠ 0 then au - phase else au)) % 2 ^ 32

/-- The loop of `get` over the units up to `e`. -/
def getLoop (au e : ℕ) : ℕ → ℕ → List ℕ → Option (List ℕ)
  | 0, _, _ => none
  | fuel + 1, offset, units =>
    if offset < e then do
      let old ← units[offset / au]?
      getLoop au e fuel (nextUnit au offset)
        (units.set (offset / au) ((old + min (au - offset % au) (e - offset)) % 2 ^ 32))
    else some units

/-- `get` -/
def get (t : UseTracker) (offset length : ℕ) : Option UseTracker := do
  assert (t.auSize ≠ 0)
  if t.numAu = 0 then some { t with totalBytes := (t.totalBytes + length) % 2 ^ 32 }
  else
    let units ← getLoop t.auSize ((offset + length) % 2 ^ 32) (t.numAu + 1) offset t.bytesPerAu
    some { t with bytesPerAu := units }

end UseTracker

/-! ## Bytes of a unit -/

/-- The bytes of `[s, e)` that are in unit `u`. -/
def inUnit (au u s e : ℕ) : ℕ := min e ((u + 1) * au) - max s (u * au)

/-- A range is cut at the end of its first unit. -/
theorem inUnit_step {au u s e : ℕ} (hau : 0 < au) (hse : s < e) :
    inUnit au u s e = (if u = s / au then min (au - s % au) (e - s) else 0) +
      inUnit au u ((s / au + 1) * au) e := by
  have hmod := mod_lt s hau
  have hdiv := div_add_mod' s au
  simp only [inUnit, add_one_mul]
  rcases lt_trichotomy u (s / au) with hlt | rfl | hgt
  · have hle := mul_le_mul_right au (succ_le_of_lt hlt)
    rw [succ_mul] at hle
    rw [if_neg hlt.ne]
    omega
  · rw [if_pos rfl]
    omega
  · have hle := mul_le_mul_right au (succ_le_of_lt hgt)
    rw [succ_mul] at hle
    rw [if_neg hgt.ne']
    omega

theorem inUnit_self (au u s : ℕ) {e : ℕ} (h : e ≤ s) : inUnit au u s e = 0 := by
  rw [inUnit]
  omega

/-- The pieces of a range in the units that cover it are the whole range. -/
theorem sum_inUnit {au s e : ℕ} (hse : s ≤ e) (n : ℕ) :
    ∑ u ∈ Finset.range n, inUnit au u s e = min e (n * au) - min s (n * au) := by
  induction n with
  | zero => simp
  | succ n ih =>
    rw [Finset.sum_range_succ, inUnit, add_one_mul]
    omega

namespace UseTracker

/-- The next unit starts at the next multiple, if that is a word. -/
theorem nextUnit_eq {au offset : ℕ} (hau : 0 < au) (hword : (offset / au + 1) * au < 2 ^ 32) :
    nextUnit au offset = (offset / au + 1) * au := by
  have hmod := mod_lt offset hau
  have hdiv := div_add_mod' offset au
  have hsum : offset + (if offset % au ≠ 0 then au - offset % au else au)
      = (offset / au + 1) * au := by
    rw [add_one_mul]
    split_ifs <;> omega
  simp only [nextUnit, hsum]
  exact mod_eq_of_lt hword

/-- The loop adds to each unit the bytes in it. -/
theorem getLoop_spec {au e : ℕ} (hau : 0 < au) (fuel : ℕ) : ∀ (offset : ℕ) (units : List ℕ),
    units.length * au < 2 ^ 32 → e ≤ units.length * au → offset ≤ units.length * au →
    units.length < fuel + offset / au → (∀ n ∈ units, n < 2 ^ 32) →
      ∃ units', getLoop au e fuel offset units = some units' ∧ units'.length = units.length ∧
        (∀ n ∈ units', n < 2 ^ 32) ∧
        ∀ u < units.length, units'.getD u 0 = (units.getD u 0 + inUnit au u offset e) % 2 ^ 32 := by
  induction fuel with
  | zero =>
    intro offset units _ _ hoffset hfuel
    have hdiv : offset / au ≤ units.length :=
      Nat.div_le_of_le_mul (by rwa [Nat.mul_comm])
    omega
  | succ fuel ih =>
    intro offset units hword he hoffset hfuel hsmall
    rw [getLoop]
    split_ifs with hlt
    · have hpos : offset / au < units.length :=
        Nat.div_lt_of_lt_mul (by rw [Nat.mul_comm]; omega)
      have hnext : (offset / au + 1) * au ≤ units.length * au := mul_le_mul_right au hpos
      rw [nextUnit_eq hau (by omega), List.getElem?_eq_getElem hpos]
      generalize hadd : min (au - offset % au) (e - offset) = add
      have hchanged : ∀ n ∈ units.set (offset / au) ((units[offset / au] + add) % 2 ^ 32),
          n < 2 ^ 32 := by
        intro n hn
        rcases mem_or_eq_of_mem_set hn with hin | rfl
        · exact hsmall n hin
        · exact mod_lt _ (by decide)
      obtain ⟨units', hrun, hlen', hsmall', hunits⟩ := ih ((offset / au + 1) * au) _
        (by rwa [length_set]) (by rwa [length_set]) (by rwa [length_set])
        (by rw [length_set, Nat.mul_div_cancel _ hau]; omega) hchanged
      refine ⟨units', hrun, by rw [hlen', length_set], hsmall', fun u hu => ?_⟩
      rw [hunits u (by rwa [length_set]), inUnit_step hau hlt, hadd]
      have hget : units.getD u 0 = units[u] := getD_eq_getElem _ _ hu
      rcases eq_or_ne u (offset / au) with rfl | hne
      · rw [if_pos rfl, getD_eq_getElem _ _ (by rwa [length_set]), getElem_set_self,
          hget, mod_add_mod, add_assoc]
      · rw [if_neg hne, getD_eq_getElem _ _ (by rwa [length_set]),
          getElem_set_ne hne.symm, hget, zero_add]
    · refine ⟨units, rfl, rfl, hsmall, fun u hu => ?_⟩
      rw [inUnit_self au u offset (by omega), add_zero, mod_eq_of_lt]
      rw [getD_eq_getElem _ _ hu]
      exact hsmall _ (getElem_mem hu)

/-! ## What is tracked -/

/-- The tracker has a counter for each unit of a blob of length `full`. -/
structure Units (t : UseTracker) (full au : ℕ) (count : ℕ → ℕ) : Prop where
  length : t.bytesPerAu.length = t.numAu
  covers : full ≤ t.numAu * au
  word : t.numAu * au < 2 ^ 32
  value : ∀ u < t.numAu, t.bytesPerAu.getD u 0 = count u

/-- The tracker of a blob of length `full` in which `count u` bytes are in use in unit `u`,
together `total`: either it counts the units, or only all bytes, where `init` took the blob for one
unit. -/
structure Counts (t : UseTracker) (full au total : ℕ) (count : ℕ → ℕ) : Prop where
  auSize : t.auSize = au
  auPos : 0 < au
  total_lt : total < 2 ^ 32
  alone : t.numAu = 0 ↔ roundUpTo full au / au ≤ 1
  counters : t.numAu = 0 ∧ t.totalBytes = total ∨
    t.numAu ≠ 0 ∧ t.Units full au count ∧ ∑ u ∈ Finset.range t.numAu, count u = total

section

variable {t : UseTracker} {full au total : ℕ} {count : ℕ → ℕ}

/-- The tracker is empty if no byte is in use. -/
theorem Counts.isNotEmpty_iff (h : t.Counts full au total count) :
    t.isNotEmpty = true ↔ total ≠ 0 := by
  rw [isNotEmpty]
  rcases h.counters with ⟨hnum, htotal⟩ | ⟨hnum, hunits, hsum⟩
  · rw [if_pos hnum, htotal, decide_eq_true_iff]
  rw [if_neg hnum, ← hunits.length, take_length, any_eq_true, ← hsum, ne_eq,
    Finset.sum_eq_zero_iff, not_forall]
  constructor
  · rintro ⟨n, hn, hne⟩
    obtain ⟨u, hu, rfl⟩ := mem_iff_getElem.1 hn
    have hvalue := hunits.value u (hunits.length ▸ hu)
    rw [getD_eq_getElem _ _ hu] at hvalue
    refine ⟨u, fun hzero => ?_⟩
    simp [hvalue, hzero (Finset.mem_range.2 (hunits.length ▸ hu))] at hne
  · rintro ⟨u, hne⟩
    obtain ⟨hu, hne⟩ := Classical.not_imp.1 hne
    have hlt := Finset.mem_range.1 hu
    have hvalue := hunits.value u hlt
    rw [← hunits.length] at hlt
    rw [getD_eq_getElem _ _ hlt] at hvalue
    exact ⟨t.bytesPerAu[u], getElem_mem hlt, by simpa [hvalue] using hne⟩

theorem Counts.get (h : t.Counts full au total count) {offset length : ℕ}
    (hle : offset + length ≤ full) (hfull : full < 2 ^ 32) (htotal : total + length < 2 ^ 32) :
    ∃ t', t.get offset length = some t' ∧ t'.Counts full au (total + length)
      fun u => count u + inUnit au u offset (offset + length) := by
  have hau := h.auPos
  rw [UseTracker.get, assert_bind (by rw [h.auSize]; omega)]
  rcases h.counters with ⟨hnum, hbytes⟩ | ⟨hnum, hunits, hsum⟩
  · rw [if_pos hnum]
    refine ⟨_, rfl, h.auSize, hau, htotal, h.alone, .inl ⟨hnum, ?_⟩⟩
    rw [hbytes, mod_eq_of_lt htotal]
  have hlen := hunits.length
  have hcovers := hunits.covers
  have hcount : ∀ u < t.numAu, count u ≤ total := fun u hu => by
    rw [← hsum]
    exact Finset.single_le_sum (fun _ _ => zero_le _) (Finset.mem_range.2 hu)
  have hsmall : ∀ n ∈ t.bytesPerAu, n < 2 ^ 32 := by
    intro n hn
    obtain ⟨u, hu, rfl⟩ := mem_iff_getElem.1 hn
    have hvalue := hunits.value u (hlen ▸ hu)
    rw [getD_eq_getElem _ _ hu] at hvalue
    have := hcount u (hlen ▸ hu)
    omega
  obtain ⟨units, hrun, hlen', -, hvalue⟩ := getLoop_spec hau (e := offset + length) (t.numAu + 1)
    offset t.bytesPerAu (hlen ▸ hunits.word) (by rw [hlen]; omega) (by rw [hlen]; omega)
    (by rw [hlen]; exact (Nat.lt_succ_self _).trans_le (Nat.le_add_right ..)) hsmall
  have hsum' : ∑ u ∈ Finset.range t.numAu, (count u + inUnit au u offset (offset + length))
      = total + length := by
    rw [Finset.sum_add_distrib, sum_inUnit (Nat.le_add_right ..)]
    omega
  rw [if_neg hnum, h.auSize, mod_eq_of_lt (by omega), hrun]
  refine ⟨_, rfl, rfl, hau, htotal, h.alone, .inr ⟨hnum, ⟨hlen'.trans hlen, hcovers, hunits.word,
    fun u hu => ?_⟩, hsum'⟩⟩
  have hu' : count u + inUnit au u offset (offset + length) ≤ total + length := by
    rw [← hsum']
    exact Finset.single_le_sum (f := fun u => count u + inUnit au u offset (offset + length))
      (fun _ _ => zero_le _) (Finset.mem_range.2 hu)
  rw [hvalue u (by rwa [hlen]), hunits.value u hu, mod_eq_of_lt (by omega)]

/-- A length is rounded up to units, or to 0 if the result is not a word. -/
theorem roundUpTo_spec {n d : ℕ} (hd : 0 < d) (hn : n < 2 ^ 32) (hdvd : d ∣ 2 ^ 32) :
    roundUpTo n d = 0 ∨ n ≤ roundUpTo n d ∧ roundUpTo n d < 2 ^ 32 ∧ d ∣ roundUpTo n d := by
  have hmod := mod_lt n hd
  have hdiv := div_add_mod' n d
  rw [roundUpTo]
  split_ifs with hround
  · have hup : n + d - n % d = (n / d + 1) * d := by
      rw [add_one_mul]
      omega
    obtain ⟨most, hmost⟩ := hdvd
    have hle : (n / d + 1) * d ≤ 2 ^ 32 := by
      have hlt : n / d * d < most * d := by
        rw [mul_comm most]
        omega
      rw [hmost, mul_comm d]
      exact Nat.mul_le_mul_right _ (Nat.lt_of_mul_lt_mul_right hlt)
    rw [hup]
    rcases eq_or_lt_of_le hle with heq | hlt
    · exact .inl (by rw [heq, mod_self])
    · rw [mod_eq_of_lt hlt]
      exact .inr ⟨by omega, hlt, dvd_mul_left ..⟩
  · exact .inr ⟨le_rfl, hn, dvd_of_mod_eq_zero (not_not.1 hround)⟩

/-- `init` starts with nothing in use, if the units divide the words or there is only one. -/
theorem counts_init (hempty : t.auSize = 0 ∨ t.isNotEmpty = false) (hau : 0 < au)
    (hunit : au ∣ 2 ^ 32 ∨ au = full) (hpos : 0 < full) (hfull : full < 2 ^ 32) :
    ∃ t', t.init full au = some t' ∧ t'.Counts full au 0 fun _ => 0 := by
  rw [init, assert_bind hempty, assert_bind hau, assert_bind hpos]
  refine ⟨_, rfl, ?_⟩
  split_ifs with hmany
  · have hround : full ≤ roundUpTo full au ∧ roundUpTo full au < 2 ^ 32 ∧
        au ∣ roundUpTo full au := by
      rcases hunit with hdvd | rfl
      · rcases roundUpTo_spec hau hfull hdvd with hzero | hround
        · rw [hzero, Nat.zero_div] at hmany
          exact absurd hmany (by decide)
        · exact hround
      · have : roundUpTo au au = au := by simp [roundUpTo]
        rw [this, Nat.div_self hau] at hmany
        exact absurd hmany (by decide)
    have hmul := Nat.div_mul_cancel hround.2.2
    have hnum := (zero_lt_of_lt hmany).ne'
    refine ⟨rfl, hau, by decide, iff_of_false hnum (not_le.2 hmany),
      .inr ⟨hnum, ⟨length_replicate, ?_, ?_, fun u hu => ?_⟩, by simp⟩⟩
    · rw [hmul]
      exact hround.1
    · rw [hmul]
      exact hround.2.1
    · rw [getD_replicate _ hu]
  · exact ⟨rfl, hau, by decide, iff_of_true rfl (not_lt.1 hmany), .inl ⟨rfl, rfl⟩⟩

/-- A blob is rightly taken for one unit if it is not longer, and wrongly if its length cannot be
rounded up in a word. -/
theorem le_unit_iff (hau : 0 < au) (hunit : au ∣ 2 ^ 32 ∨ au = full) (hfull : full < 2 ^ 32) :
    (roundUpTo full au / au ≤ 1 → full ≤ au) ↔ full ≤ au ∨ full + au ≤ 2 ^ 32 := by
  refine ⟨fun h => ?_, fun h hone => h.elim id fun hfit => ?_⟩
  · by_contra hlong
    obtain ⟨hlong, hover⟩ := not_or.1 hlong
    obtain ⟨most, hmost⟩ := hunit.resolve_right fun heq => hlong heq.ge
    rcases roundUpTo_spec hau hfull ⟨most, hmost⟩ with hzero | ⟨hle, hlt, hdvd⟩
    · exact hlong (h (by simp [hzero]))
    · -- the next multiple is the end of the words
      have hnext := Nat.le_of_dvd (Nat.sub_pos_of_lt hlt) (Nat.dvd_sub ⟨most, hmost⟩ hdvd)
      omega
  · have hmod := mod_lt full hau
    have hdiv := div_add_mod' full au
    rw [roundUpTo] at hone
    split_ifs at hone with hround
    · have hup : full + au - full % au = (full / au + 1) * au := by
        rw [add_one_mul]
        omega
      rw [mod_eq_of_lt (by omega), hup, Nat.mul_div_cancel _ hau] at hone
      exact (Nat.lt_of_div_eq_zero hau (Nat.le_zero.1 (Nat.le_of_succ_le_succ hone))).le
    · have := Nat.mul_le_mul_right au hone
      omega

end

end UseTracker

end Ceph.Os
