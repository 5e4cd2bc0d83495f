import Ceph.Lib.Numeral

/-!
# Names of objects

`hobject_t` of `common/hobject.h` and the string `to_str()` makes of it.  The strings
keep objects apart: the numbers at the front have a fixed width or end before the first
dot, and dots in names are escaped.

Strings are lists of characters, one for each byte.
-/

namespace Ceph.Common

open List Nat

/-- `hobject_t`, apart from `max`, which no object has, and the caches of the hash. -/
structure HObject where
  name : List Char
  snap : BitVec 64
  hash : BitVec 32
  pool : BitVec 64
  nspace : List Char
  key : List Char
  deriving DecidableEq

/-! ## Escaping -/

/-- What `append_escaped` appends for a character. -/
def escape (ch : Char) : List Char :=
  if ch = '%' then ['%', 'p']
  else if ch = '.' then ['%', 'e']
  else if ch = '_' then ['%', 'u']
  else [ch]

/-- `append_escaped`, on an empty string. -/
def escaped (s : List Char) : List Char := s.flatMap escape

theorem escaped_cons (ch : Char) (s : List Char) : escaped (ch :: s) = escape ch ++ escaped s := rfl

variable {s t : List Char}

/-- Reading an escaped character back, with what follows it. -/
theorem escape_append_inj {a b : Char} (h : escape a ++ s = escape b ++ t) : a = b ∧ s = t := by
  unfold escape at h
  split_ifs at h <;> grind

theorem escaped_injective : Function.Injective escaped := by
  intro s
  induction s with
  | nil =>
    intro t h
    cases t with
    | nil => rfl
    | cons b t =>
      rw [escaped_cons] at h
      unfold escape at h
      split_ifs at h <;> simp [escaped] at h
  | cons a s ih =>
    intro t h
    cases t with
    | nil =>
      rw [escaped_cons] at h
      unfold escape at h
      split_ifs at h <;> simp [escaped] at h
    | cons b t =>
      obtain ⟨rfl, hrest⟩ := escape_append_inj h
      rw [ih hrest]

theorem dot_notMem_escaped (s : List Char) : '.' ∉ escaped s := by
  unfold escaped
  rw [mem_flatMap]
  rintro ⟨ch, -, hmem⟩
  unfold escape at hmem
  split_ifs at hmem <;> grind

/-! ## Fields -/

/-- What ends before the first dot is read back. -/
theorem append_dot_inj {a b : List Char} (ha : '.' ∉ a) (hb : '.' ∉ b)
    (h : a ++ '.' :: s = b ++ '.' :: t) : a = b ∧ s = t := by
  induction a generalizing b with
  | nil =>
    cases b with
    | nil => exact ⟨rfl, (cons_eq_cons.1 h).2⟩
    | cons y b =>
      obtain ⟨rfl, -⟩ := cons_eq_cons.1 h
      exact absurd mem_cons_self hb
  | cons x a ih =>
    cases b with
    | nil =>
      obtain ⟨rfl, -⟩ := cons_eq_cons.1 h
      exact absurd mem_cons_self ha
    | cons y b =>
      obtain ⟨rfl, hrest⟩ := cons_eq_cons.1 h
      rw [mem_cons, not_or] at ha hb
      obtain ⟨rfl, rfl⟩ := ih ha.2 hb.2 hrest
      exact ⟨rfl, rfl⟩

/-- The digits of `%X`. -/
def upperDigit (d : ℕ) : Char := (digitChar d).toUpper

theorem cmp_upperDigit : ∀ i < 16, ∀ j < 16, cmp (upperDigit i) (upperDigit j) = cmp i j := by
  decide

/-- `%.*X` with `w` digits. -/
def upperHex (w n : ℕ) : List Char := numeral upperDigit 16 w n

/-- `_reverse_nibbles` -/
def reverseNibbles (retval : BitVec 32) : BitVec 32 :=
  let retval := ((retval &&& 0x0f0f0f0f#32) <<< 4) ||| ((retval &&& 0xf0f0f0f0#32) >>> 4)
  let retval := ((retval &&& 0x00ff00ff#32) <<< 8) ||| ((retval &&& 0xff00ff00#32) >>> 8)
  ((retval &&& 0x0000ffff#32) <<< 16) ||| ((retval &&& 0xffff0000#32) >>> 16)

/-- The nibbles of the result, in the other order. -/
theorem getLsbD_reverseNibbles (v : BitVec 32) {i : ℕ} (hi : i < 32) :
    (reverseNibbles v).getLsbD i = v.getLsbD (28 - 4 * (i / 4) + i % 4) := by
  unfold reverseNibbles
  interval_cases i <;> simp

theorem reverseNibbles_injective : Function.Injective reverseNibbles := by
  intro v w h
  refine BitVec.eq_of_getLsbD_eq fun i hi => ?_
  have hbit := congrArg (fun r => r.getLsbD (28 - 4 * (i / 4) + i % 4)) h
  have hidx : 28 - 4 * ((28 - 4 * (i / 4) + i % 4) / 4) + (28 - 4 * (i / 4) + i % 4) % 4 = i := by
    omega
  simpa only [getLsbD_reverseNibbles _ (show 28 - 4 * (i / 4) + i % 4 < 32 by omega), hidx]
    using hbit

/-- `CEPH_NOSNAP` -/
def noSnap : BitVec 64 := -2#64

/-- `CEPH_SNAPDIR` -/
def snapDir : BitVec 64 := -1#64

/-- The snap in `to_str()`. -/
def snapStr (snap : BitVec 64) : List Char :=
  if snap = noSnap then "head".toList
  else if snap = snapDir then "snapdir".toList
  else toDigits 16 snap.toNat

/-- The digits of `%llx`. -/
theorem mem_toDigits {n : ℕ} {ch : Char} (h : ch ∈ toDigits 16 n) : ∃ d < 16, ch = digitChar d := by
  induction n using Nat.strongRecOn with
  | ind n ih =>
    rcases lt_or_ge n 16 with hlt | hge
    · rw [toDigits_of_lt_base hlt] at h
      exact ⟨n, hlt, mem_singleton.1 h⟩
    · rw [toDigits_of_base_le (by decide) hge, mem_append, mem_singleton] at h
      rcases h with h | h
      · exact ih (n / 16) (by omega) h
      · exact ⟨n % 16, by omega, h⟩

theorem toDigits_ne_nil (n : ℕ) : toDigits 16 n ≠ [] := by
  rcases lt_or_ge n 16 with hlt | hge
  · simp
  · simp

theorem toDigits_injective : Function.Injective (toDigits 16) := by
  have hdigit : ∀ i < 16, ∀ j < 16, digitChar i = digitChar j → i = j := by decide
  have hlast : ∀ {a b : ℕ}, a < 16 → 16 ≤ b → toDigits 16 a ≠ toDigits 16 b := by
    intro a b ha hb h
    rw [toDigits_of_lt_base ha, toDigits_of_base_le (by decide) hb] at h
    have hlen := congrArg List.length h
    have := length_pos_iff.2 (toDigits_ne_nil (b / 16))
    simp only [length_append, length_singleton] at hlen
    omega
  intro a
  induction a using Nat.strongRecOn with
  | ind a ih =>
    intro b h
    rcases lt_or_ge a 16 with ha | ha <;> rcases lt_or_ge b 16 with hb | hb
    · rw [toDigits_of_lt_base ha, toDigits_of_lt_base hb] at h
      exact hdigit a ha b hb (singleton_inj.1 h)
    · exact absurd h (hlast ha hb)
    · exact absurd h.symm (hlast hb ha)
    · rw [toDigits_of_base_le (by decide) ha, toDigits_of_base_le (by decide) hb] at h
      obtain ⟨hq, hr⟩ := append_singleton_inj.1 h
      have := ih (a / 16) (by omega) hq
      have := hdigit _ (mod_lt a (by decide)) _ (mod_lt b (by decide)) hr
      omega

theorem notMem_toDigits (ch : Char) (hch : ∀ d < 16, ch ≠ digitChar d) (n : ℕ) :
    ch ∉ toDigits 16 n := fun h =>
  have ⟨d, hd, heq⟩ := mem_toDigits h
  hch d hd heq

theorem dot_notMem_snapStr (snap : BitVec 64) : '.' ∉ snapStr snap := by
  unfold snapStr
  split_ifs
  · decide
  · decide
  · exact notMem_toDigits '.' (by decide) _

theorem snapStr_injective : Function.Injective snapStr := by
  have hhead : ∀ n, "head".toList ≠ toDigits 16 n := fun n h =>
    notMem_toDigits 'h' (by decide) n (h ▸ by decide)
  have hdir : ∀ n, "snapdir".toList ≠ toDigits 16 n := fun n h =>
    notMem_toDigits 's' (by decide) n (h ▸ by decide)
  intro a b h
  unfold snapStr at h
  split_ifs at h with ha hb hb ha' hb hb' hb hb'
  · rw [ha, hb]
  · exact absurd h (by decide)
  · exact absurd h (hhead _)
  · exact absurd h (by decide)
  · rw [ha', hb']
  · exact absurd h (hdir _)
  · exact absurd h.symm (hhead _)
  · exact absurd h.symm (hdir _)
  · exact BitVec.eq_of_toNat_eq (toDigits_injective h)

/-- `to_str()` -/
def HObject.toStr (o : HObject) : List Char :=
  upperHex 16 o.pool.toNat ++ '.' :: (upperHex 8 (reverseNibbles o.hash).toNat ++
      '.' :: (snapStr o.snap ++
        '.' :: (escaped o.name ++ '.' :: (escaped o.key ++ '.' :: escaped o.nspace))))

theorem upperHex_append_inj {w n m : ℕ} (hn : n < 16 ^ w) (hm : m < 16 ^ w)
    (h : upperHex w n ++ s = upperHex w m ++ t) : n = m ∧ s = t := by
  obtain ⟨hnum, hrest⟩ := append_inj h (by simp [upperHex])
  exact ⟨numeral_inj cmp_upperDigit hn hm hnum, hrest⟩

/-- **The string determines the object.** -/
theorem HObject.toStr_injective : Function.Injective HObject.toStr := by
  intro a b h
  have hpool : ∀ o : HObject, o.pool.toNat < 16 ^ 16 := fun o => o.pool.isLt
  have hhash : ∀ o : HObject, (reverseNibbles o.hash).toNat < 16 ^ 8 := fun o =>
    (reverseNibbles o.hash).isLt
  obtain ⟨hp, h⟩ := upperHex_append_inj (hpool a) (hpool b) h
  obtain ⟨hh, h⟩ := upperHex_append_inj (hhash a) (hhash b) (cons_eq_cons.1 h).2
  obtain ⟨hs, h⟩ := append_dot_inj (dot_notMem_snapStr _) (dot_notMem_snapStr _)
    (cons_eq_cons.1 h).2
  obtain ⟨hn, h⟩ := append_dot_inj (dot_notMem_escaped _) (dot_notMem_escaped _) h
  obtain ⟨hk, h⟩ := append_dot_inj (dot_notMem_escaped _) (dot_notMem_escaped _) h
  rw [HObject.mk.injEq]
  exact ⟨escaped_injective hn, snapStr_injective hs,
    reverseNibbles_injective (BitVec.eq_of_toNat_eq hh), BitVec.eq_of_toNat_eq hp,
    escaped_injective h, escaped_injective hk⟩

end Ceph.Common
