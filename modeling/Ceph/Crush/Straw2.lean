import Mathlib
import Ceph.Lib.FirstMax
import Ceph.Lib.Loop

/-!
# Straw2 buckets

`bucket_straw2_choose` of `crush/mapper.c` lets every item of a bucket draw a straw whose
length depends on its own id and weight only, and returns the item with the longest.  The
hash function and the tables of the logarithm are parameters.

* `bucketStraw2Choose_eq` — the loop returns the item of the first maximum.
* `straw2Draw_mono` — a larger weight never draws a shorter straw, although the division
  truncates.
* `straw2_moves_only` — what a change of weight, or of the set of items, does to the result.
-/

namespace Ceph.Crush

open List hiding Vector
open Option Nat BitVec

/-! ## Buckets -/

/-- The functions of `crush/hash.c`; the first argument says which hash is used. -/
structure Hash where
  hash32_2 : BitVec 8 → BitVec 32 → BitVec 32 → BitVec 32
  hash32_3 : BitVec 8 → BitVec 32 → BitVec 32 → BitVec 32 → BitVec 32

/-- `crush_bucket`, without its algorithm, its type and its own weight. -/
structure Bucket where
  id : ℤ
  hash : BitVec 8
  items : List ℤ

/-- `crush_bucket_straw2` -/
structure Straw2Bucket extends Bucket where
  itemWeights : List (BitVec 32)
  length_itemWeights : itemWeights.length = items.length

/-- `crush_choose_arg`, for a bucket of this size: no `ids` is `NULL`, and so is an empty
`weight_set`. -/
structure ChooseArg (size : ℕ) where
  ids : Option (List ℤ)
  weightSet : List (List (BitVec 32))
  length_ids : ∀ l ∈ ids, l.length = size
  length_weights : ∀ l ∈ weightSet, l.length = size

/-! ## The logarithm -/

/-- `__RH_LH_tbl` and `__LL_tbl` -/
structure LnTables where
  rhLh : Vector (BitVec 64) 258
  ll : Vector (BitVec 64) 256

/-- `__builtin_clz`, of a word that is not zero. -/
def clz (v : BitVec 32) : ℕ := 31 - Nat.log2 v.toNat

/-- The number of bits by which `crush_ln` shifts its input to normalize it. -/
def lnBits (x : BitVec 32) : ℕ :=
  if x &&& 0x18000#32 = 0#32 then clz (x &&& 0x1FFFF#32) - 16 else 0

/-- `crush_ln`; it fails where the code reads outside its tables. -/
def crushLn (t : LnTables) (xin : BitVec 32) : Option (BitVec 64) := do
  let bits := lnBits (xin + 1#32)
  let x := (xin + 1#32) <<< bits
  let iexpon := 15 - bits
  let index1 := ((x >>> 8) <<< 1).toNat
  assert (256 ≤ index1)
  let rh ← t.rhLh[index1 - 256]?
  let lh ← t.rhLh[index1 + 1 - 256]?
  let xl64 := (x.setWidth 64 * rh) >>> 48
  let ll ← t.ll[(xl64 &&& 0xff#64).toNat]?
  some ((BitVec.ofNat 64 iexpon <<< (12 + 32)) + ((lh + ll) >>> (48 - 12 - 32)))

/-- The logarithm of every hash is below `2 ^ 48`. -/
def LnTables.Below (t : LnTables) : Prop :=
  ∀ u : BitVec 32, u.toNat < 2 ^ 16 → ∀ l, crushLn t u = some l → l.toNat < 2 ^ 48

/-! ## The choice -/

/-- `S64_MIN` -/
def s64Min : ℤ := -2 ^ 63

/-- `get_choose_arg_weights` -/
def Straw2Bucket.getChooseArgWeights (bucket : Straw2Bucket)
    (arg : Option (ChooseArg bucket.items.length)) (position : ℕ) : List (BitVec 32) :=
  match arg with
  | none => bucket.itemWeights
  | some arg =>
    -- a position beyond the set uses its last member
    (arg.weightSet[min position (arg.weightSet.length - 1)]?).getD bucket.itemWeights

/-- `get_choose_arg_ids` -/
def Straw2Bucket.getChooseArgIds (bucket : Straw2Bucket)
    (arg : Option (ChooseArg bucket.items.length)) : List ℤ :=
  (arg.bind ChooseArg.ids).getD bucket.items

section

variable (t : LnTables) (h : Hash)

/-- The straw of an item; an item of weight zero draws the shortest. -/
def straw2Draw (hash : BitVec 8) (x r : BitVec 32) (id : ℤ) (weight : BitVec 32) : Option ℤ :=
  if weight ≠ 0#32 then do
    let u := h.hash32_3 hash x (BitVec.ofInt 32 id) r &&& 0xffff#32
    let l ← crushLn t u
    let ln := (l - 0x1000000000000#64).toInt
    some (ln.tdiv weight.toNat)
  else some s64Min

/-- `bucket_straw2_choose` -/
def bucketStraw2Choose (bucket : Straw2Bucket) (x r : BitVec 32)
    (arg : Option (ChooseArg bucket.items.length)) (position : ℕ) : Option ℤ := do
  let weights := bucket.getChooseArgWeights arg position
  let ids := bucket.getChooseArgIds arg
  let draws ← (ids.zip weights).mapM fun p => straw2Draw t h bucket.hash x r p.1 p.2
  bucket.items[(highest 0 draws).1]?

end

/-! ## What a choice reads -/

/-- What `bucket_straw2_choose` knows of one item. -/
structure Straw where
  item : ℤ
  id : ℤ
  weight : BitVec 32

open Straw

/-- The arguments of one call that belong to the bucket. -/
structure Straw2Call where
  bucket : Straw2Bucket
  arg : Option (ChooseArg bucket.items.length)
  position : ℕ

namespace Straw2Call

variable (c : Straw2Call)

/-- The items with the ids and weights that stand for them. -/
def straws : List Straw :=
  (c.bucket.items.zip ((c.bucket.getChooseArgIds c.arg).zip
    (c.bucket.getChooseArgWeights c.arg c.position))).map fun p => ⟨p.1, p.2.1, p.2.2⟩

/-- The item that the call returns. -/
def choose (t : LnTables) (h : Hash) (x r : BitVec 32) : Option ℤ :=
  bucketStraw2Choose t h c.bucket x r c.arg c.position

theorem length_ids : (c.bucket.getChooseArgIds c.arg).length = c.bucket.items.length := by
  rw [Straw2Bucket.getChooseArgIds]
  cases hids : c.arg.bind ChooseArg.ids with
  | none => rfl
  | some ids =>
    obtain ⟨arg, -, harg⟩ := of_bind hids
    exact arg.length_ids ids harg

theorem length_weights :
    (c.bucket.getChooseArgWeights c.arg c.position).length = c.bucket.items.length := by
  obtain ⟨bucket, arg, position⟩ := c
  cases arg with
  | none => exact bucket.length_itemWeights
  | some arg =>
    simp only [Straw2Bucket.getChooseArgWeights]
    cases hget : arg.weightSet[min position (arg.weightSet.length - 1)]? with
    | none => exact bucket.length_itemWeights
    | some weights => exact arg.length_weights weights (mem_of_getElem? hget)

theorem length_zip : ((c.bucket.getChooseArgIds c.arg).zip
      (c.bucket.getChooseArgWeights c.arg c.position)).length = c.bucket.items.length := by
  rw [List.length_zip, c.length_ids, c.length_weights, min_self]

theorem map_item_straws : c.straws.map item = c.bucket.items := by
  rw [straws, List.map_map]
  exact List.map_fst_zip c.length_zip.ge

theorem map_straws : c.straws.map (fun e => (e.id, e.weight)) =
      (c.bucket.getChooseArgIds c.arg).zip (c.bucket.getChooseArgWeights c.arg c.position) := by
  rw [straws, List.map_map]
  exact List.map_snd_zip c.length_zip.le

end Straw2Call

/-! ## The logarithm stays inside its tables -/

theorem and_bits_eq_zero_iff {x : BitVec 32} (hle : x.toNat ≤ 2 ^ 16) :
    x &&& 0x18000#32 = 0#32 ↔ x.toNat < 2 ^ 15 := by
  constructor
  · intro h
    have hbit : ∀ i, (0x18000#32).getLsbD i = true → x.toNat / 2 ^ i % 2 ≠ 1 := by
      intro i hi hx
      have hand := congrArg (fun v : BitVec 32 => v.getLsbD i) h
      have hget : x.getLsbD i = true := by
        rw [getLsbD, testBit_eq_decide_div_mod_eq, decide_eq_true hx]
      simp [hi, hget] at hand
    have h15 := hbit 15 (by decide)
    have h16 := hbit 16 (by decide)
    omega
  · intro hlt
    apply eq_of_getLsbD_eq
    intro i hi
    rw [getLsbD_and, getLsbD_zero]
    by_cases hi15 : i < 15
    · have hmask : ∀ i < 15, (0x18000#32).getLsbD i = false := by decide
      rw [hmask i hi15, Bool.and_false]
    · have hx : x.getLsbD i = false :=
        Nat.testBit_lt_two_pow (hlt.trans_le (Nat.pow_le_pow_right (by decide) (by omega)))
      rw [hx, Bool.false_and]

/-- `crush_ln` shifts its input into `[2 ^ 15, 2 ^ 16]`. -/
theorem lnBits_spec {x : BitVec 32} (hpos : 0 < x.toNat) (hle : x.toNat ≤ 2 ^ 16) :
    lnBits x ≤ 15 ∧ 2 ^ 15 ≤ (x <<< lnBits x).toNat ∧ (x <<< lnBits x).toNat ≤ 2 ^ 16 := by
  rw [lnBits]
  split_ifs with h
  · rw [and_bits_eq_zero_iff hle] at h
    have hmask : (x &&& 0x1FFFF#32).toNat = x.toNat := by
      exact (and_two_pow_sub_one_eq_mod x.toNat 17).trans (Nat.mod_eq_of_lt (by omega))
    have hlow := log2_self_le hpos.ne'
    have hhigh := lt_log2_self (n := x.toNat)
    have hlog : Nat.log2 x.toNat < 15 := (log2_lt hpos.ne').2 h
    rw [clz, hmask]
    obtain ⟨k, hk⟩ : ∃ k, k = Nat.log2 x.toNat := ⟨_, rfl⟩
    rw [← hk] at hlow hhigh hlog ⊢
    have hbits : 31 - k - 16 = 15 - k := by omega
    have hsum : 2 ^ k * 2 ^ (15 - k) = 2 ^ 15 := by
      rw [← pow_add]
      congr 1
      omega
    have hsucc : 2 ^ (k + 1) * 2 ^ (15 - k) = 2 ^ 16 := by
      rw [← pow_add]
      congr 1
      omega
    have hge := Nat.mul_le_mul_right (2 ^ (15 - k)) hlow
    have hlt := Nat.mul_lt_mul_of_pos_right hhigh (Nat.two_pow_pos (15 - k))
    rw [hbits, toNat_shiftLeft]
    omega
  · rw [and_bits_eq_zero_iff hle] at h
    rw [BitVec.shiftLeft_zero]
    omega

/-- No read leaves the tables. -/
theorem crushLn_eq (t : LnTables) {u : BitVec 32} (hu : u.toNat < 2 ^ 16) :
    ∃ lh ∈ t.rhLh, ∃ ll ∈ t.ll, ∃ iexpon ≤ 15,
      crushLn t u = some ((BitVec.ofNat 64 iexpon <<< 44) + ((lh + ll) >>> 4)) := by
  have hx : (u + 1#32).toNat = u.toNat + 1 := by
    exact Nat.mod_eq_of_lt (by simp; omega)
  obtain ⟨-, hge, hle⟩ := lnBits_spec (x := u + 1#32) (by omega) (by omega)
  have hindex : (((u + 1#32) <<< lnBits (u + 1#32)) >>> 8 <<< 1).toNat =
      ((u + 1#32) <<< lnBits (u + 1#32)).toNat / 256 * 2 := by
    rw [toNat_shiftLeft, toNat_ushiftRight, shiftRight_eq_div_pow, Nat.shiftLeft_eq]
    exact Nat.mod_eq_of_lt (by omega)
  have hll : ∀ v : BitVec 64, (v &&& 0xff#64).toNat < 256 := fun v => by
    exact and_lt_two_pow (n := 8) _ (by decide)
  simp only [crushLn, hindex]
  rw [assert_bind (by omega), Vector.getElem?_eq_getElem (by omega), bind_eq_bind,
    bind_some, Vector.getElem?_eq_getElem (by omega), Vector.getElem?_eq_getElem (hll _)]
  exact ⟨_, Vector.getElem_mem _, _, Vector.getElem_mem _, _, sub_le _ _, rfl⟩

/-! ## Straws -/

section

variable (t : LnTables) (h : Hash) (hash : BitVec 8) (x r : BitVec 32)

/-- The straw of an item, as a number. -/
def Straw.draw (e : Straw) : ℤ := (straw2Draw t h hash x r e.id e.weight).getD 0

theorem toNat_and_ffff (v : BitVec 32) : (v &&& 0xffff#32).toNat < 2 ^ 16 := by
  exact and_lt_two_pow _ (by decide)

theorem straw2Draw_eq (e : Straw) :
    straw2Draw t h hash x r e.id e.weight = some (e.draw t h hash x r) := by
  obtain ⟨lh, -, ll, -, iexpon, -, hln⟩ := crushLn_eq t
    (toNat_and_ffff (h.hash32_3 hash x (BitVec.ofInt 32 e.id) r))
  rw [draw, straw2Draw]
  split_ifs
  · simp only [hln]
    rfl
  · rfl

/-- The loop returns the item of the first maximum. -/
theorem bucketStraw2Choose_eq (c : Straw2Call) :
    c.choose t h x r = (c.straws.argmax (draw t h c.bucket.hash x r)).map item := by
  have hdraws : ((c.bucket.getChooseArgIds c.arg).zip
      (c.bucket.getChooseArgWeights c.arg c.position)).mapM
        (fun p => straw2Draw t h c.bucket.hash x r p.1 p.2) =
      some (c.straws.map (draw t h c.bucket.hash x r)) := by
    rw [← c.map_straws, mapM_map]
    exact Loop.mapM_of_forall fun e _ => straw2Draw_eq t h c.bucket.hash x r e
  rw [Straw2Call.choose, bucketStraw2Choose, hdraws, bind_eq_bind, bind_some,
    ← c.map_item_straws, List.getElem?_map, getElem?_highest]

end

section

variable {t : LnTables} (ht : t.Below) (h : Hash) (hash : BitVec 8) (x r : BitVec 32)

include ht

/-- The straw of an item whose weight is not zero: the negative logarithm, divided by the weight
and rounded towards zero. -/
theorem exists_draw_eq (id : ℤ) : ∃ a : ℕ, a ≤ 2 ^ 48 ∧ ∀ e : Straw, e.id = id → e.weight ≠ 0#32 →
      e.draw t h hash x r = -((a / e.weight.toNat : ℕ) : ℤ) := by
  have hu := toNat_and_ffff (h.hash32_3 hash x (BitVec.ofInt 32 id) r)
  obtain ⟨l, hl⟩ :
      ∃ l, crushLn t (h.hash32_3 hash x (BitVec.ofInt 32 id) r &&& 0xffff#32) = some l := by
    obtain ⟨lh, -, ll, -, iexpon, -, hln⟩ := crushLn_eq t hu
    exact ⟨_, hln⟩
  have hlt := ht _ hu l hl
  have hint : (l - 0x1000000000000#64).toInt = -((2 ^ 48 - l.toNat : ℕ) : ℤ) := by
    rw [toInt_sub, toInt_eq_toNat_of_lt (by omega),
      show (0x1000000000000#64).toInt = 2 ^ 48 from rfl, Int.bmod_eq_of_le (by omega) (by omega)]
    omega
  refine ⟨2 ^ 48 - l.toNat, sub_le _ _, fun e he hw => ?_⟩
  simp only [draw, straw2Draw, if_pos hw, he, hl]
  simp only [bind_eq_bind, bind_some, getD_some]
  rw [hint, Int.neg_tdiv, Int.ofNat_tdiv]

/-- An item without a weight draws a shorter straw than one with a weight. -/
theorem draw_lt_of_weight {e e' : Straw} (he : e.weight = 0#32) (he' : e'.weight ≠ 0#32) :
    e.draw t h hash x r < e'.draw t h hash x r := by
  obtain ⟨a, ha, hdraw⟩ := exists_draw_eq ht h hash x r e'.id
  have hmin : e.draw t h hash x r = s64Min := by
    rw [draw, straw2Draw, if_neg (not_not.2 he)]
    rfl
  have hle := div_le_self a e'.weight.toNat
  rw [hmin, hdraw e' rfl he', s64Min]
  omega

/-- A larger weight never draws a shorter straw. -/
theorem straw2Draw_mono {e : Straw} {w : BitVec 32} (hw : e.weight ≤ w) :
    e.draw t h hash x r ≤ draw t h hash x r { e with weight := w } := by
  by_cases hzero : e.weight = 0#32
  · by_cases hw0 : w = 0#32
    · subst hw0
      rw [draw, draw, hzero]
    · exact (draw_lt_of_weight ht h hash x r hzero hw0).le
  have hpos : 0 < e.weight.toNat := Nat.pos_of_ne_zero fun h => hzero (eq_of_toNat_eq h)
  have hle : e.weight.toNat ≤ w.toNat := hw
  have hw0 : w ≠ 0#32 := by
    rintro rfl
    simp at hle
    omega
  obtain ⟨a, -, hdraw⟩ := exists_draw_eq ht h hash x r e.id
  have hdiv := div_le_div_left hle hpos (a := a)
  rw [hdraw e rfl hzero, hdraw { e with weight := w } rfl hw0]
  exact Int.neg_le_neg (Int.ofNat_le.2 hdiv)

end

/-! ## Two choices -/

/-- What becomes of a choice `before` when the bucket is changed and the choice is `after`. -/
structure MovesOnly (before after : List Straw) (chosen chosen' : Option ℤ) : Prop where
  /-- A heavier item takes the choice or leaves it. -/
  grow : ∀ pre post e w, before = pre ++ e :: post → after = pre ++ { e with weight := w } :: post →
    e.weight ≤ w → chosen' = chosen ∨ chosen' = some e.item
  /-- A lighter item gives away the choice only if it was its own. -/
  shrink : ∀ pre post e w,
    before = pre ++ e :: post → after = pre ++ { e with weight := w } :: post →
    w ≤ e.weight → chosen' ≠ chosen → chosen = some e.item
  /-- A new item takes the choice or leaves it. -/
  add : ∀ pre post e, before = pre ++ post → after = pre ++ e :: post →
    chosen' = chosen ∨ chosen' = some e.item
  /-- A removed item gives away the choice only if it was its own. -/
  remove : ∀ pre post e, before = pre ++ e :: post → after = pre ++ post →
    chosen' ≠ chosen → chosen = some e.item

/-- A nonempty bucket has a choice, and it is an item with a weight if there is one. -/
def ChoosesWeight (straws : List Straw) (chosen : Option ℤ) : Prop :=
  (straws ≠ [] → ∃ e ∈ straws, chosen = some e.item) ∧
    ((∃ e ∈ straws, e.weight ≠ 0#32) → ∃ e ∈ straws, chosen = some e.item ∧ e.weight ≠ 0#32)

section

variable {t : LnTables} (ht : t.Below) (h : Hash) (hash : BitVec 8) (x r : BitVec 32)

include ht

theorem movesOnly_argmax (before after : List Straw) :
    MovesOnly before after ((before.argmax (draw t h hash x r)).map item)
      ((after.argmax (draw t h hash x r)).map item) where
  grow := by
    rintro pre post e w rfl rfl hw
    rcases argmax_update (straw2Draw_mono ht h hash x r hw) with hmax | hmax
    · exact .inr (by rw [hmax]; rfl)
    · exact .inl (by rw [hmax])
  shrink := by
    rintro pre post e w rfl rfl hw hne
    have hle := straw2Draw_mono ht h hash x r (e := { e with weight := w }) hw
    rcases argmax_update hle with hmax | hmax
    · rw [hmax]
      rfl
    · exact absurd (by rw [hmax]) hne
  add := by
    rintro pre post e rfl rfl
    rcases argmax_insert (f := draw t h hash x r) with hmax | hmax
    · exact .inr (by rw [hmax]; rfl)
    · exact .inl (by rw [hmax])
  remove := by
    rintro pre post e rfl rfl hne
    rcases argmax_insert (f := draw t h hash x r) with hmax | hmax
    · rw [hmax]
      rfl
    · exact absurd (by rw [hmax]) hne

theorem choosesWeight_argmax (straws : List Straw) :
    ChoosesWeight straws ((straws.argmax (draw t h hash x r)).map item) := by
  cases hmax : straws.argmax (draw t h hash x r) with
  | none =>
    rw [argmax_eq_none] at hmax
    subst hmax
    exact ⟨fun hne => absurd rfl hne, fun ⟨e, he, _⟩ => absurd he not_mem_nil⟩
  | some m =>
    refine ⟨fun _ => ⟨m, argmax_mem hmax, rfl⟩, ?_⟩
    rintro ⟨e, he, hweight⟩
    refine ⟨m, argmax_mem hmax, rfl, fun hm => ?_⟩
    have hlt := draw_lt_of_weight ht h hash x r hm hweight
    exact absurd (le_of_mem_argmax he hmax) hlt.not_ge

end

/-- **Straw2 moves only what must move**, for every hash function, every table whose logarithms are
below `2 ^ 48`, and every two calls for buckets of the same hash. -/
theorem straw2_moves_only {t : LnTables} (ht : t.Below) (h : Hash) (x r : BitVec 32)
    (c c' : Straw2Call) (hhash : c'.bucket.hash = c.bucket.hash) :
    MovesOnly c.straws c'.straws (c.choose t h x r) (c'.choose t h x r) ∧
      ChoosesWeight c.straws (c.choose t h x r) := by
  rw [bucketStraw2Choose_eq, bucketStraw2Choose_eq, hhash]
  exact ⟨movesOnly_argmax ht h c.bucket.hash x r c.straws c'.straws,
    choosesWeight_argmax ht h c.bucket.hash x r c.straws⟩

/-- Tables that keep only the exponent of the logarithm. -/
def exponentTables : LnTables := ⟨Vector.replicate 258 0#64, Vector.replicate 256 0#64⟩

theorem exponentTables_below : exponentTables.Below := by
  intro u hu l hl
  obtain ⟨lh, hlh, ll, hll, iexpon, hle, hln⟩ := crushLn_eq exponentTables hu
  obtain rfl : lh = 0#64 := Vector.eq_of_mem_replicate hlh
  obtain rfl : ll = 0#64 := Vector.eq_of_mem_replicate hll
  rw [hln] at hl
  obtain rfl := Option.some.inj hl
  have hall : ∀ i < 16, (BitVec.ofNat 64 i <<< 44 + (0#64 + 0#64) >>> 4).toNat < 2 ^ 48 := by
    decide
  exact hall iexpon (by omega)

/-- Two devices, the first of weight one. -/
def twoDevices (w : BitVec 32) : Straw2Call :=
  ⟨⟨⟨-1, 0, [0, 1]⟩, [0x10000#32, w], rfl⟩, none, 0⟩

/-- A hash that only looks at the item. -/
def itemHash : Hash := ⟨fun _ _ b => b, fun _ _ b _ => b⟩

/-- The weight of the second device is doubled. -/
theorem straw2_moves_only_twoDevices :
    exponentTables.Below ∧ MovesOnly (twoDevices 0x10000#32).straws (twoDevices 0x20000#32).straws
          ((twoDevices 0x10000#32).choose exponentTables itemHash 0 0)
          ((twoDevices 0x20000#32).choose exponentTables itemHash 0 0) ∧
      ChoosesWeight (twoDevices 0x10000#32).straws
        ((twoDevices 0x10000#32).choose exponentTables itemHash 0 0) :=
  ⟨exponentTables_below, straw2_moves_only exponentTables_below itemHash 0 0 (twoDevices 0x10000#32)
      (twoDevices 0x20000#32) rfl⟩

end Ceph.Crush
