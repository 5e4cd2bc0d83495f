import Ceph.Lib.Loop
import Ceph.Lib.OrderedMap
import Ceph.Lib.Striping
import Ceph.Lib.Word

/-!
# Striping a file over objects

`osdc/Striper.cc`.  `file_to_extents` cuts a range of a file into ranges of objects, and
`extent_to_file` maps such a range back.  `object_truncate_size` and `get_num_objects`
compute the same layout once more, on their own.

* `objectTruncateSize_eq` — the size of an object of a truncated file.
* `getNumObjects_eq` — the number of objects of a file.

What becomes of a range of a file is the subject of `Ceph.Osdc.StripedExtents`.
-/

namespace Ceph.Osdc

open Nat Striping

/-! ## The functions -/

/-- `file_layout_t`: what decides where a byte lies. -/
structure FileLayout where
  stripeUnit : ℕ
  stripeCount : ℕ
  objectSize : ℕ

/-- The layouts that a file can have. -/
structure FileLayout.Valid (layout : FileLayout) : Prop where
  unit_pos : 0 < layout.stripeUnit
  count_pos : 0 < layout.stripeCount
  size_pos : 0 < layout.objectSize
  dvd : layout.stripeUnit ∣ layout.objectSize
  count_lt : layout.stripeCount < 2 ^ 32
  size_lt : layout.objectSize < 2 ^ 32

/-- `ObjectExtent`, without the object locator. -/
structure ObjectExtent (Oid : Type) where
  oid : Oid
  objectno : ℕ
  offset : ℕ
  length : ℕ
  truncateSize : ℕ
  bufferExtents : List (ℕ × ℕ)

/-- `Striper::object_truncate_size` -/
def objectTruncateSize (layout : FileLayout) (objectno truncSize : ℕ) : Option ℕ :=
  if truncSize = 0 ∨ truncSize = 2 ^ 64 - 1 then some truncSize
  else do
    let su := layout.stripeUnit
    assert (su ≤ layout.objectSize)
    let stripesPerObject := layout.objectSize / su
    let objectsetno := objectno / layout.stripeCount
    let truncObjectsetno := truncSize / layout.objectSize / layout.stripeCount
    if truncObjectsetno < objectsetno then some 0
    else if objectsetno < truncObjectsetno then some layout.objectSize
    else
      let truncBlockno := truncSize / su
      let truncStripeno := truncBlockno / layout.stripeCount
      let truncStripepos := truncBlockno % layout.stripeCount
      let truncObjectno := u64 (truncObjectsetno * layout.stripeCount + truncStripepos)
      if objectno < truncObjectno then some (u64 ((truncStripeno % stripesPerObject + 1) * su))
      else if truncObjectno < objectno then some (u64 (truncStripeno % stripesPerObject * su))
      else some (u64 (truncStripeno % stripesPerObject * su + truncSize % su))

/-- `Striper::get_num_objects` -/
def getNumObjects (layout : FileLayout) (size : ℕ) : ℕ :=
  let period := u64 (layout.stripeCount * layout.objectSize)
  let numPeriods := u64 (size + period - 1) / period
  let remainderBytes := size % period
  let remainderObjs :=
    if 0 < remainderBytes ∧ remainderBytes < u64 (layout.stripeCount * layout.stripeUnit) then
      sub64 layout.stripeCount (u64 (remainderBytes + layout.stripeUnit - 1) / layout.stripeUnit)
    else 0
  sub64 (u64 (numPeriods * layout.stripeCount)) remainderObjs

/-- The loop of `Striper::extent_to_file`. -/
def extentToFileLoop (layout : FileLayout) (objectno : ℕ) : ℕ → ℕ → ℕ → ℕ → Option (List (ℕ × ℕ))
  | 0, _, len, _ => if len = 0 then some [] else none
  | fuel + 1, off, len, offInBlock =>
    if len = 0 then some []
    else do
      let su := layout.stripeUnit
      let stripesPerObject := layout.objectSize / su
      let stripepos := objectno % layout.stripeCount
      let objectsetno := objectno / layout.stripeCount
      let stripeno := u64 (off / su + objectsetno * stripesPerObject)
      let blockno := u64 (stripeno * layout.stripeCount + stripepos)
      let extentOff := u64 (blockno * su + offInBlock)
      let extentLen := min len (su - offInBlock)
      let extents ← extentToFileLoop layout objectno fuel (u64 (off + extentLen))
        (len - extentLen) 0
      some ((extentOff, extentLen) :: extents)

/-- `Striper::extent_to_file` -/
def extentToFile (layout : FileLayout) (objectno off len : ℕ) : Option (List (ℕ × ℕ)) := do
  assert (layout.stripeUnit ≤ layout.objectSize)
  extentToFileLoop layout objectno len off len (off % layout.stripeUnit)

/-- One round of `Striper::file_to_extents`: a range of an object. -/
structure Piece where
  objectno : ℕ
  offset : ℕ
  length : ℕ

/-- The piece that begins at `cur`; `su` is the stripe unit, or the object size if there is only
one stripe. -/
def piece (layout : FileLayout) (su cur left : ℕ) : Piece :=
  let stripesPerObject := layout.objectSize / su
  let blockno := cur / su
  let stripeno := blockno / layout.stripeCount
  let stripepos := blockno % layout.stripeCount
  let objectsetno := stripeno / stripesPerObject
  let blockStart := u64 (stripeno % stripesPerObject * su)
  let blockOff := cur % su
  let max := su - blockOff
  { objectno := u64 (objectsetno * layout.stripeCount + stripepos)
    offset := u64 (blockStart + blockOff)
    length := if max < left then max else left }

section

variable {Oid : Type}

/-- The piece becomes part of the last extent of its object, or a new extent. -/
def addPiece (oid : Oid) (p : Piece) (truncateSize bufferPos : ℕ)
    (exv : Option (List (ObjectExtent Oid))) : List (ObjectExtent Oid) :=
  let exv := exv.getD []
  let fresh : ObjectExtent Oid :=
    ⟨oid, p.objectno, p.offset, p.length, truncateSize, [(bufferPos, p.length)]⟩
  match exv.getLast? with
  | none => exv ++ [fresh]
  | some back =>
    if u64 (back.offset + back.length) ≠ p.offset then exv ++ [fresh]
    else
      exv.dropLast ++ [{ back with
        length := u64 (back.length + p.length)
        bufferExtents := back.bufferExtents ++ [(bufferPos, p.length)] }]

variable [LinearOrder Oid] (objectFormat : ℕ → Oid)

/-- The loop of `Striper::file_to_extents`. -/
def fileToExtentsLoop (layout : FileLayout) (su offset truncSize bufferOffset : ℕ) :
    ℕ → ℕ → ℕ → OrderedMap Oid (List (ObjectExtent Oid)) →
      Option (OrderedMap Oid (List (ObjectExtent Oid)))
  | 0, _, left, extents => if left = 0 then some extents else none
  | fuel + 1, cur, left, extents =>
    if left = 0 then some extents
    else do
      let p := piece layout su cur left
      let oid := objectFormat p.objectno
      -- the code asks for it only when it creates an extent
      let truncateSize ← objectTruncateSize layout p.objectno truncSize
      let bufferPos := u64 (cur - offset + bufferOffset)
      fileToExtentsLoop layout su offset truncSize bufferOffset fuel (u64 (cur + p.length))
        (left - p.length) (extents.update oid (addPiece oid p truncateSize bufferPos))

/-- `Striper::file_to_extents`, into an empty map. -/
def fileToExtents (layout : FileLayout) (offset len truncSize bufferOffset : ℕ) :
    Option (OrderedMap Oid (List (ObjectExtent Oid))) := do
  assert (0 < len)
  assert (layout.stripeUnit ≤ layout.objectSize)
  let su := if layout.stripeCount = 1 then layout.objectSize else layout.stripeUnit
  fileToExtentsLoop objectFormat layout su offset truncSize bufferOffset len offset len []

end

/-! ## The layout -/

section

variable {layout : FileLayout} (hv : layout.Valid)

/-- The striping that a layout describes. -/
def FileLayout.Valid.striping : Striping where
  unit := layout.stripeUnit
  count := layout.stripeCount
  rows := layout.objectSize / layout.stripeUnit
  unit_pos := hv.unit_pos
  count_pos := hv.count_pos
  rows_pos := div_pos (le_of_dvd hv.size_pos hv.dvd) hv.unit_pos

include hv

theorem FileLayout.Valid.unit_le : layout.stripeUnit ≤ layout.objectSize :=
  le_of_dvd hv.size_pos hv.dvd

theorem FileLayout.Valid.size_striping : hv.striping.size = layout.objectSize :=
  Nat.div_mul_cancel hv.dvd

/-! ## Sizes -/

theorem div_size_div_count (T : ℕ) : T / layout.objectSize / layout.stripeCount =
      T / layout.stripeUnit / layout.stripeCount / (layout.objectSize / layout.stripeUnit) := by
  obtain ⟨n, hn⟩ := hv.dvd
  rw [hn, Nat.mul_div_cancel_left _ hv.unit_pos, Nat.div_div_eq_div_mul, Nat.div_div_eq_div_mul,
    Nat.div_div_eq_div_mul]
  congr 1
  ring

theorem exists_objectTruncateSize (o T : ℕ) : ∃ m, objectTruncateSize layout o T = some m := by
  simp only [objectTruncateSize, assert_bind hv.unit_le]
  split_ifs <;> exact ⟨_, rfl⟩

/-- `object_truncate_size` is one more than the last offset below the truncation. -/
theorem objectTruncateSize_eq {T : ℕ} (hT : 0 < T) (hT' : T < 2 ^ 64 - 1) (o : ℕ) :
    ∃ m, objectTruncateSize layout o T = some m ∧ hv.striping.IsTruncated o T m := by
  have hsize := hv.size_striping
  have hlt := hv.size_lt
  have hunit := hv.unit_pos
  suffices h : ∃ m ≤ layout.objectSize, objectTruncateSize layout o T = some m ∧
      ∀ x < layout.objectSize, hv.striping.toFile o x < T ↔ x < m by
    obtain ⟨m, hm, heq, hiff⟩ := h
    rw [← hsize] at hm hiff
    exact ⟨m, heq, hv.striping.isTruncated_of_lt_iff hm hiff⟩
  obtain ⟨S, hS⟩ : ∃ S, S = T / layout.objectSize / layout.stripeCount := ⟨_, rfl⟩
  obtain ⟨R, hR⟩ : ∃ R, R = T / layout.stripeUnit / layout.stripeCount %
      (layout.objectSize / layout.stripeUnit) := ⟨_, rfl⟩
  obtain ⟨P, hP⟩ : ∃ P, P = T / layout.stripeUnit % layout.stripeCount := ⟨_, rfl⟩
  have hfile : ∀ x < layout.objectSize, hv.striping.toFile o x < T ↔
      o / layout.stripeCount < S ∨ o / layout.stripeCount = S ∧
        (x / layout.stripeUnit < R ∨ x / layout.stripeUnit = R ∧ (o % layout.stripeCount < P ∨
            o % layout.stripeCount = P ∧ x % layout.stripeUnit < T % layout.stripeUnit)) := by
    intro x hx
    rw [hS, hR, hP, div_size_div_count hv]
    exact hv.striping.toFile_lt_iff (hx.trans_eq hsize.symm)
  -- the row of the truncation lies inside the object
  have hrow : (R + 1) * layout.stripeUnit ≤ layout.objectSize := by
    have hlt : R < layout.objectSize / layout.stripeUnit := by
      rw [hR]
      exact Nat.mod_lt _ hv.striping.rows_pos
    calc (R + 1) * layout.stripeUnit ≤ layout.objectSize / layout.stripeUnit * layout.stripeUnit :=
          Nat.mul_le_mul_right _ hlt
      _ = layout.objectSize := Nat.div_mul_cancel hv.dvd
  have hobject : u64 (S * layout.stripeCount + P) = S * layout.stripeCount + P := by
    have hle := hv.striping.toObject_fst_le T
    apply u64_of_lt
    rw [hS, hP, div_size_div_count hv]
    exact hle.trans_lt (by omega)
  have hPlt : P < layout.stripeCount := by
    rw [hP]
    exact Nat.mod_lt _ hv.count_pos
  have hmod := Nat.mod_lt T hunit
  have homod := Nat.mod_lt o hv.count_pos
  have hbelow : o < S * layout.stripeCount + P ↔
      o / layout.stripeCount < S ∨ o / layout.stripeCount = S ∧ o % layout.stripeCount < P := by
    rw [← digit_lt_iff homod hPlt, div_add_mod']
  have habove : S * layout.stripeCount + P < o ↔
      S < o / layout.stripeCount ∨ S = o / layout.stripeCount ∧ P < o % layout.stripeCount := by
    rw [← digit_lt_iff hPlt homod, div_add_mod']
  have hrows : ∀ x n, x < n * layout.stripeUnit ↔ x / layout.stripeUnit < n := fun x n =>
    (Nat.div_lt_iff_lt_mul hunit).symm
  simp only [objectTruncateSize, if_neg (show ¬ (T = 0 ∨ T = 2 ^ 64 - 1) by omega), ← hS, ← hR,
    ← hP, hobject]
  rw [assert_bind hv.unit_le]
  split_ifs with h₁ h₂ h₃ h₄
  · refine ⟨0, zero_le _, rfl, fun x hx => ?_⟩
    rw [hfile x hx]
    omega
  · refine ⟨layout.objectSize, le_rfl, rfl, fun x hx => ?_⟩
    rw [hfile x hx]
    omega
  · -- the object comes before that of the truncation in the row
    refine ⟨_, hrow, by rw [u64_of_lt (by omega)], fun x hx => ?_⟩
    rw [hfile x hx, hrows]
    omega
  · rw [add_mul] at hrow
    refine ⟨R * layout.stripeUnit, by omega, by rw [u64_of_lt (by omega)], fun x hx => ?_⟩
    rw [hfile x hx, hrows]
    omega
  · rw [add_mul] at hrow
    refine ⟨R * layout.stripeUnit + T % layout.stripeUnit, by omega,
      by rw [u64_of_lt (by omega)], fun x hx => ?_⟩
    have hx : x < R * layout.stripeUnit + T % layout.stripeUnit ↔ x / layout.stripeUnit < R ∨
        x / layout.stripeUnit = R ∧ x % layout.stripeUnit < T % layout.stripeUnit := by
      rw [← digit_lt_iff (Nat.mod_lt x hunit) hmod, div_add_mod']
    rw [hfile x ‹_›]
    omega

/-- `get_num_objects`, where the size rounded up to a period is a `uint64_t`. -/
theorem getNumObjects_eq {T : ℕ} (hT : T + layout.stripeCount * layout.objectSize ≤ 2 ^ 64) :
    getNumObjects layout T = hv.striping.numObjects T := by
  have hcount := hv.count_pos
  have hunit := hv.unit_pos
  have hperiod : hv.striping.size * hv.striping.count = layout.stripeCount * layout.objectSize := by
    rw [hv.size_striping, mul_comm]
    rfl
  obtain ⟨p, hp⟩ : ∃ p, p = layout.stripeCount * layout.objectSize := ⟨_, rfl⟩
  have hppos : 0 < p := hp ▸ mul_pos hcount hv.size_pos
  have hrow : layout.stripeCount * layout.stripeUnit ≤ p := by
    rw [hp]
    exact mul_le_mul_left _ hv.unit_le
  have hle : layout.stripeCount ≤ layout.stripeCount * layout.stripeUnit :=
    Nat.le_mul_of_pos_right _ hunit
  have hule : layout.stripeUnit ≤ layout.stripeCount * layout.stripeUnit :=
    Nat.le_mul_of_pos_left _ hcount
  have hrem := Nat.mod_lt T hppos
  have hdiv := Nat.div_add_mod T p
  have hplt : p < 2 ^ 32 * 2 ^ 32 := hp ▸ mul_lt_mul'' hv.count_lt hv.size_lt
  -- the number of periods, rounded up
  have hperiods : (T + p - 1) / p = T / p + if T % p = 0 then 0 else 1 := by
    split_ifs with h
    · rw [show T + p - 1 = T / p * p + (p - 1) by rw [mul_comm]; omega]
      exact digit_div (by omega)
    · rw [show T + p - 1 = (T / p + 1) * p + (T % p - 1) by rw [add_mul, mul_comm]; omega]
      exact digit_div (by omega)
  have hqle : T / p * layout.stripeCount ≤ p * (T / p) := by
    rw [mul_comm p]
    exact mul_le_mul_left (T / p) (hle.trans hrow)
  simp only [getNumObjects, numObjects, hperiod, ← hp]
  rw [u64_of_lt hplt, u64_of_lt (n := T + p - 1) (by omega), hperiods,
    u64_of_lt (n := layout.stripeCount * layout.stripeUnit) (by omega)]
  change sub64 _ _ = T / p * layout.stripeCount +
    min layout.stripeCount ((T % p + layout.stripeUnit - 1) / layout.stripeUnit)
  by_cases hzero : T % p = 0
  · have hceil : (T % p + layout.stripeUnit - 1) / layout.stripeUnit = 0 :=
      div_eq_of_lt (by omega)
    rw [if_pos hzero, if_neg (by omega), add_zero, u64_of_lt (by omega),
      sub64_eq (zero_le _) (by omega)]
    omega
  · have hmul : (T / p + 1) * layout.stripeCount =
        T / p * layout.stripeCount + layout.stripeCount := by ring
    rw [if_neg hzero, u64_of_lt (by omega), u64_of_lt (by omega)]
    by_cases hlast : T % p < layout.stripeCount * layout.stripeUnit
    · have hceil : (T % p + layout.stripeUnit - 1) / layout.stripeUnit ≤ layout.stripeCount := by
        rw [← Nat.lt_succ_iff, Nat.div_lt_iff_lt_mul hunit, Nat.succ_mul]
        omega
      rw [if_pos ⟨by omega, hlast⟩]
      generalize (T % p + layout.stripeUnit - 1) / layout.stripeUnit = ceil at hceil ⊢
      rw [sub64_eq hceil (by omega), sub64_eq (by omega) (by omega)]
      omega
    · have hceil : layout.stripeCount ≤ (T % p + layout.stripeUnit - 1) / layout.stripeUnit := by
        rw [le_div_iff_mul_le hunit]
        omega
      rw [if_neg (by omega), sub64_eq (by omega) (by omega)]
      omega

end

end Ceph.Osdc
