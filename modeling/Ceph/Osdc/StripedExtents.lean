import Ceph.Osdc.Striper

/-!
# The extents of a file range

What `file_to_extents` and `extent_to_file` make of a range, byte by byte, and that they
agree with each other and with the two functions of `Ceph.Osdc.Striper` that compute sizes.

* `extentToFile_eq` — the bytes of an object range, in order.
* `Filled.step` — what one round of `file_to_extents` preserves.
* `striper_bijection` — the four functions describe one bijection.
-/

namespace Ceph.Osdc

open List Nat ObjectExtent

/-- The positions of a list of extents, in order. -/
def bytesOf (extents : List (ℕ × ℕ)) : List ℕ := extents.flatMap fun e => range' e.1 e.2

theorem bytesOf_append (l₁ l₂ : List (ℕ × ℕ)) : bytesOf (l₁ ++ l₂) = bytesOf l₁ ++ bytesOf l₂ :=
  flatMap_append

theorem bytesOf_singleton (off len : ℕ) : bytesOf [(off, len)] = range' off len :=
  flatMap_singleton ..

/-- A range inside a unit is a range of the file. -/
theorem map_toFile_range' (s : Striping) (o : ℕ) {x n : ℕ} (h : x % s.unit + n ≤ s.unit) :
    (range' x n).map (s.toFile o) = range' (s.toFile o x) n := by
  rw [List.range'_eq_map_range, List.range'_eq_map_range, map_map]
  refine map_congr_left fun i hi => s.toFile_add o ?_
  have := mem_range.1 hi
  omega

theorem range'_split (x : ℕ) {a n : ℕ} (h : a ≤ n) :
    range' x n = range' x a ++ range' (x + a) (n - a) := by
  rw [List.range'_append_1]
  congr 1
  omega

variable {len : ℕ}

section

variable {layout : FileLayout} (hv : layout.Valid)

/-! ## From objects to the file -/

include hv

theorem extentOff_eq {o off : ℕ} (h : hv.striping.toFile o off < 2 ^ 64) :
    u64 (u64 (u64 (off / layout.stripeUnit + o / layout.stripeCount *
      (layout.objectSize / layout.stripeUnit)) * layout.stripeCount + o % layout.stripeCount) *
        layout.stripeUnit + off % layout.stripeUnit) = hv.striping.toFile o off := by
  have hfile : hv.striping.toFile o off = ((off / layout.stripeUnit + o / layout.stripeCount *
      (layout.objectSize / layout.stripeUnit)) * layout.stripeCount + o % layout.stripeCount) *
        layout.stripeUnit + off % layout.stripeUnit := by
    rw [add_comm (off / layout.stripeUnit)]
    rfl
  rw [hfile] at h ⊢
  generalize off / layout.stripeUnit + o / layout.stripeCount *
    (layout.objectSize / layout.stripeUnit) = stripeno at h ⊢
  have hstripe := Nat.le_mul_of_pos_right stripeno hv.count_pos
  have hblock := Nat.le_mul_of_pos_right (stripeno * layout.stripeCount + o % layout.stripeCount)
    hv.unit_pos
  rw [u64_of_lt (n := stripeno) (by omega), u64_of_lt (n := stripeno * _ + _) (by omega),
    u64_of_lt h]

theorem extentToFileLoop_eq (o : ℕ) {fuel off offInBlock : ℕ} (hfuel : len ≤ fuel)
    (hblock : len = 0 ∨ offInBlock = off % layout.stripeUnit)
    (hstop : off + len ≤ layout.objectSize)
    (hlt : ∀ x < off + len, hv.striping.toFile o x < 2 ^ 64) :
    ∃ extents, extentToFileLoop layout o fuel off len offInBlock = some extents ∧
      bytesOf extents = (range' off len).map (hv.striping.toFile o) := by
  induction fuel generalizing off len offInBlock with
  | zero =>
    obtain rfl : len = 0 := by omega
    exact ⟨[], rfl, rfl⟩
  | succ fuel ih =>
    rw [extentToFileLoop]
    by_cases hzero : len = 0
    · subst hzero
      exact ⟨[], if_pos rfl, rfl⟩
    obtain rfl := hblock.resolve_left hzero
    have hmod := mod_lt off hv.unit_pos
    obtain ⟨n, hn⟩ : ∃ n, n = min len (layout.stripeUnit - off % layout.stripeUnit) := ⟨_, rfl⟩
    have hu : u64 (off + n) = off + n := u64_of_lt (by have := hv.size_lt; omega)
    have hnext : len - n = 0 ∨ 0 = u64 (off + n) % layout.stripeUnit := by
      rcases lt_or_ge n len with h | h
      · right
        have hsum : off + n = (off / layout.stripeUnit + 1) * layout.stripeUnit := by
          have := div_add_mod' off layout.stripeUnit
          rw [add_mul]
          omega
        rw [hu, hsum, mul_mod_left]
      · left
        omega
    have hrest : len - n ≤ fuel := by omega
    obtain ⟨extents, heq, hbytes⟩ := ih hrest hnext (by omega) (fun x hx => hlt x (by omega))
    simp only [if_neg hzero, ← hn, extentOff_eq hv (hlt off (by omega)), heq]
    refine ⟨_, rfl, ?_⟩
    rw [range'_split off (show n ≤ len by omega), map_append, ← hu, ← hbytes,
      map_toFile_range' hv.striping o (show off % layout.stripeUnit + n ≤ _ by
        change _ ≤ layout.stripeUnit
        omega)]
    rfl

/-- `extent_to_file` gives the bytes of the range, in order. -/
theorem extentToFile_eq (o : ℕ) {off : ℕ} (hstop : off + len ≤ layout.objectSize)
    (hlt : ∀ x < off + len, hv.striping.toFile o x < 2 ^ 64) :
    ∃ extents, extentToFile layout o off len = some extents ∧
      bytesOf extents = (range' off len).map (hv.striping.toFile o) := by
  rw [extentToFile, assert_bind hv.unit_le]
  exact extentToFileLoop_eq hv o le_rfl (.inr rfl) hstop hlt

end

/-! ## From the file to objects -/

section

variable {Oid : Type}

/-- The part of the buffer that an extent stands for. -/
def ObjectExtent.buffer (ex : ObjectExtent Oid) : List ℕ := bytesOf ex.bufferExtents

/-- A piece adds its part of the buffer to that of its object. -/
theorem buffer_addPiece (oid : Oid) (p : Piece) (truncateSize bufferPos : ℕ)
    (exv : Option (List (ObjectExtent Oid))) :
    (addPiece oid p truncateSize bufferPos exv).flatMap buffer =
      (exv.getD []).flatMap buffer ++ range' bufferPos p.length := by
  simp only [addPiece]
  generalize exv.getD [] = l
  cases hlast : l.getLast? with
  | none => simp [buffer, bytesOf_singleton]
  | some back =>
    obtain ⟨-, rfl⟩ := List.getLast?_eq_some_iff.1 hlast
    dsimp only
    split_ifs
    · simp [buffer, bytesOf_singleton]
    · simp [buffer, bytesOf_append, bytesOf_singleton]

end

/-- The stripe unit with which `file_to_extents` computes. -/
def FileLayout.blockSize (layout : FileLayout) : ℕ :=
  if layout.stripeCount = 1 then layout.objectSize else layout.stripeUnit

section

variable {layout : FileLayout} (hv : layout.Valid)

include hv

/-- The layout with which `file_to_extents` computes. -/
theorem FileLayout.Valid.block : { layout with stripeUnit := layout.blockSize }.Valid where
  unit_pos := by
    rw [FileLayout.blockSize]
    split_ifs
    · exact hv.size_pos
    · exact hv.unit_pos
  count_pos := hv.count_pos
  size_pos := hv.size_pos
  dvd := by
    rw [FileLayout.blockSize]
    split_ifs
    · exact dvd_rfl
    · exact hv.dvd
  count_lt := hv.count_lt
  size_lt := hv.size_lt

/-- With one stripe, units as large as the objects give the same layout. -/
theorem toFile_block : hv.block.striping.toFile = hv.striping.toFile := by
  funext o x
  by_cases h : layout.stripeCount = 1
  · have hlin : ∀ {l : FileLayout} (hl : l.Valid), l.stripeCount = 1 →
        hl.striping.toFile o x = o * l.objectSize + x := by
      intro l hl hcount
      obtain ⟨n, hn⟩ := hl.dvd
      have hdiv := div_add_mod' x l.stripeUnit
      have hrows : l.objectSize / l.stripeUnit = n := by
        rw [hn, Nat.mul_div_cancel_left _ hl.unit_pos]
      have hfile : hl.striping.toFile o x = ((o / l.stripeCount * (l.objectSize / l.stripeUnit) +
        x / l.stripeUnit) * l.stripeCount + o % l.stripeCount) * l.stripeUnit + x % l.stripeUnit :=
        rfl
      rw [hfile, hrows, hcount, Nat.div_one, Nat.mod_one, hn]
      linarith
    rw [hlin hv.block h, hlin hv h]
  · simp only [FileLayout.Valid.striping, FileLayout.blockSize, if_neg h, Striping.toFile]

/-- Where the piece lies. -/
theorem piece_eq {cur : ℕ} (hcur : cur < 2 ^ 64) (left : ℕ) :
    piece layout layout.blockSize cur left =
      ⟨(hv.block.striping.toObject cur).1, (hv.block.striping.toObject cur).2,
        min left (layout.blockSize - cur % layout.blockSize)⟩ := by
  have hobject := hv.block.striping.toObject_fst_le cur
  have hoffset := hv.block.striping.toObject_snd_lt cur
  rw [hv.block.size_striping] at hoffset
  have hsize := hv.size_lt
  simp only [Striping.toObject, FileLayout.Valid.striping] at hobject hoffset ⊢
  rw [piece, u64_of_lt (hobject.trans_lt hcur), u64_of_lt (n := _ % _ * _) (by omega),
    u64_of_lt (by omega)]
  congr 1
  split_ifs <;> omega

/-- The piece is a range of an object, and its bytes are those of the file from `cur` on. -/
structure IsPiece (cur left : ℕ) (p : Piece) : Prop where
  length_pos : 0 < p.length
  length_le : p.length ≤ left
  stop_le : p.offset + p.length ≤ layout.objectSize
  toFile_add : ∀ i < p.length, hv.striping.toFile p.objectno (p.offset + i) = cur + i

theorem isPiece_piece {cur left : ℕ} (hcur : cur < 2 ^ 64) (hleft : 0 < left) :
    IsPiece hv cur left (piece layout layout.blockSize cur left) := by
  have hunit : 0 < layout.blockSize := hv.block.unit_pos
  have hmod := mod_lt cur hunit
  have hoff : (hv.block.striping.toObject cur).2 % layout.blockSize = cur % layout.blockSize :=
    Striping.digit_mod hmod
  have hstop : (hv.block.striping.toObject cur).2 + (layout.blockSize - cur % layout.blockSize) ≤
      layout.objectSize := by
    have hrow := mod_lt (cur / layout.blockSize / layout.stripeCount) hv.block.striping.rows_pos
    have hle := mul_le_mul_right layout.blockSize (succ_le_of_lt hrow)
    have hsize : hv.block.striping.rows * layout.blockSize = layout.objectSize :=
      hv.block.size_striping
    have heq : (hv.block.striping.toObject cur).2 = cur / layout.blockSize / layout.stripeCount %
      hv.block.striping.rows * layout.blockSize + cur % layout.blockSize := rfl
    rw [succ_mul] at hle
    omega
  rw [piece_eq hv hcur]
  refine ⟨by simp only; omega, min_le_left .., by simp only; omega, fun i hi => ?_⟩
  have hlt : (hv.block.striping.toObject cur).2 % layout.blockSize + i < layout.blockSize := by
    simp only at hi
    omega
  rw [← toFile_block hv]
  exact (hv.block.striping.toFile_add _ hlt).trans (by rw [Striping.toFile_toObject])

variable {hv} in
/-- No other place of an object holds a byte of the piece. -/
theorem IsPiece.covers {cur left : ℕ} {p : Piece} (hp : IsPiece hv cur left p) {o x : ℕ}
    (hx : x < layout.objectSize) :
    cur ≤ hv.striping.toFile o x ∧ hv.striping.toFile o x < cur + p.length ↔
      o = p.objectno ∧ p.offset ≤ x ∧ x < p.offset + p.length := by
  have hsize := hv.size_striping
  constructor
  · rintro ⟨hle, hlt⟩
    have hfile := hp.toFile_add (hv.striping.toFile o x - cur) (by omega)
    have hstop := hp.stop_le
    have hplace := congrArg hv.striping.toObject (hfile.trans (add_sub_of_le hle))
    rw [hv.striping.toObject_toFile _ (by omega), hv.striping.toObject_toFile _ (by omega),
      Prod.mk.injEq] at hplace
    omega
  · rintro ⟨rfl, hle, hlt⟩
    have hfile := hp.toFile_add (x - p.offset) (by omega)
    rw [add_sub_of_le hle] at hfile
    omega

end

/-! ## The loop -/

section

variable {layout : FileLayout} (hv : layout.Valid) {Oid : Type}
  (objectFormat : ℕ → Oid) (offset truncSize bufferOffset : ℕ)

/-- An extent covers the bytes of its object between `offset` and `cur`, and stands for their place
in the buffer. -/
structure ExtentFilled (cur : ℕ) (ex : ObjectExtent Oid) : Prop where
  oid : ex.oid = objectFormat ex.objectno
  length_pos : 0 < ex.length
  stop_le : ex.offset + ex.length ≤ layout.objectSize
  covers : ∀ x < layout.objectSize,
    offset ≤ hv.striping.toFile ex.objectno x ∧ hv.striping.toFile ex.objectno x < cur ↔
      ex.offset ≤ x ∧ x < ex.offset + ex.length
  buffer : ex.buffer = (range' ex.offset ex.length).map fun x =>
    hv.striping.toFile ex.objectno x - offset + bufferOffset
  truncate : objectTruncateSize layout ex.objectno truncSize = some ex.truncateSize

/-- The map when the loop has reached `cur`: every object with a byte of the range has one
extent. -/
structure Filled [LinearOrder Oid] (cur : ℕ) (m : OrderedMap Oid (List (ObjectExtent Oid))) :
    Prop where
  sorted : m.Sorted
  extents : ∀ p ∈ m, ∃ ex, p.2 = [ex] ∧ p.1 = ex.oid ∧
    ExtentFilled hv objectFormat offset truncSize bufferOffset cur ex
  complete : ∀ o, ∀ x < layout.objectSize,
    offset ≤ hv.striping.toFile o x → hv.striping.toFile o x < cur → ∃ v, (objectFormat o, v) ∈ m
  perm : (m.flatMap fun p => p.2.flatMap buffer).Perm (range' bufferOffset (cur - offset))

variable {hv objectFormat offset truncSize bufferOffset} {cur left : ℕ} {p : Piece}
  {ex : ObjectExtent Oid}

section

variable (hp : IsPiece hv cur left p)

include hp

/-- The extents of other objects stay as they are. -/
theorem ExtentFilled.frame (hex : ExtentFilled hv objectFormat offset truncSize bufferOffset cur ex)
    (hne : ex.objectno ≠ p.objectno) :
    ExtentFilled hv objectFormat offset truncSize bufferOffset (cur + p.length) ex where
  oid := hex.oid
  length_pos := hex.length_pos
  stop_le := hex.stop_le
  covers x hx := by
    have hcovers := hp.covers (o := ex.objectno) hx
    rw [← hex.covers x hx]
    omega
  buffer := hex.buffer
  truncate := hex.truncate

/-- The next piece of an object begins where its extent ends. -/
theorem ExtentFilled.contiguous
    (hex : ExtentFilled hv objectFormat offset truncSize bufferOffset cur ex)
    (heq : ex.objectno = p.objectno) : ex.offset + ex.length = p.offset := by
  have hmono := hv.striping.toFile_strictMono ex.objectno
  have hfile : hv.striping.toFile ex.objectno p.offset = cur := by
    rw [heq]
    exact hp.toFile_add 0 hp.length_pos
  have hpos := hex.length_pos
  have hstop := hex.stop_le
  have hplt : p.offset < layout.objectSize := by
    have := hp.stop_le
    have := hp.length_pos
    omega
  have hfirst := (hex.covers ex.offset (by omega)).2 ⟨le_rfl, by omega⟩
  have hlast := (hex.covers (ex.offset + ex.length - 1) (by omega)).2 ⟨by omega, by omega⟩
  have hge : ex.offset + ex.length - 1 < p.offset := hmono.lt_iff_lt.1 (by omega)
  by_contra hne
  -- otherwise the byte after the extent would lie before `cur`
  have hlt : ex.offset + ex.length < p.offset := by omega
  have hnext := hmono hlt
  have hbefore := hmono (show ex.offset < ex.offset + ex.length by omega)
  have := (hex.covers (ex.offset + ex.length) (by omega)).1 ⟨by omega, by omega⟩
  omega

/-- The place of the piece in the buffer. -/
theorem IsPiece.buffer (hcur : offset ≤ cur) : ((range' p.offset p.length).map fun x =>
        hv.striping.toFile p.objectno x - offset + bufferOffset) =
      range' (cur - offset + bufferOffset) p.length := by
  rw [List.range'_eq_map_range, List.range'_eq_map_range, map_map]
  refine map_congr_left fun i hi => ?_
  rw [Function.comp_apply, hp.toFile_add i (mem_range.1 hi)]
  omega

/-- The first piece of an object. -/
theorem ExtentFilled.fresh (hcur : offset ≤ cur) {m : ℕ}
    (htrunc : objectTruncateSize layout p.objectno truncSize = some m)
    (hnone : ∀ x < layout.objectSize, offset ≤ hv.striping.toFile p.objectno x →
      ¬ hv.striping.toFile p.objectno x < cur) :
    ExtentFilled hv objectFormat offset truncSize bufferOffset (cur + p.length)
      ⟨objectFormat p.objectno, p.objectno, p.offset, p.length, m,
        [(cur - offset + bufferOffset, p.length)]⟩ where
  oid := rfl
  length_pos := hp.length_pos
  stop_le := hp.stop_le
  covers x hx := by
    have hcovers := hp.covers (o := p.objectno) hx
    have hbefore := hnone x hx
    simp only
    omega
  buffer := (bytesOf_singleton ..).trans (hp.buffer hcur).symm
  truncate := htrunc

/-- A further piece of an object. -/
theorem ExtentFilled.extend (hcur : offset ≤ cur)
    (hex : ExtentFilled hv objectFormat offset truncSize bufferOffset cur ex)
    (heq : ex.objectno = p.objectno) :
    ExtentFilled hv objectFormat offset truncSize bufferOffset (cur + p.length)
      { ex with
        length := ex.length + p.length
        bufferExtents := ex.bufferExtents ++ [(cur - offset + bufferOffset, p.length)] } where
  oid := hex.oid
  length_pos := Nat.add_pos_left hex.length_pos _
  stop_le := by
    have hstop := hp.stop_le
    have hjoin := hex.contiguous hp heq
    simp only
    omega
  covers x hx := by
    have hcovers := hp.covers (o := ex.objectno) hx
    have hbefore := hex.covers x hx
    have hjoin := hex.contiguous hp heq
    simp only
    omega
  buffer := by
    have hjoin := hex.contiguous hp heq
    have hbuffer := hex.buffer
    rw [ObjectExtent.buffer] at hbuffer
    simp only [ObjectExtent.buffer, bytesOf_append, bytesOf_singleton, hbuffer]
    rw [range'_split ex.offset (Nat.le_add_right ex.length p.length), map_append, hjoin,
      Nat.add_sub_cancel_left, ← hp.buffer hcur, heq]
  truncate := hex.truncate

end

theorem addPiece_none (oid : Oid) (m bufferPos : ℕ) : addPiece oid p m bufferPos none =
      [⟨oid, p.objectno, p.offset, p.length, m, [(bufferPos, p.length)]⟩] := rfl

theorem addPiece_some (hp : IsPiece hv cur left p)
    (hex : ExtentFilled hv objectFormat offset truncSize bufferOffset cur ex)
    (heq : ex.objectno = p.objectno) (oid : Oid) (m bufferPos : ℕ) :
    addPiece oid p m bufferPos (some [ex]) =
      [{ ex with
        length := ex.length + p.length
        bufferExtents := ex.bufferExtents ++ [(bufferPos, p.length)] }] := by
  have hjoin := hex.contiguous hp heq
  have hstop := hp.stop_le
  have hsize := hv.size_lt
  simp only [addPiece, Option.getD_some, List.getLast?_singleton]
  rw [if_neg (by rw [u64_of_lt (by omega), hjoin]; exact fun h => h rfl), u64_of_lt (by omega)]
  rfl

variable [LinearOrder Oid] {m : OrderedMap Oid (List (ObjectExtent Oid))}

section

variable (hformat : Function.Injective objectFormat) (hp : IsPiece hv cur left p)
  (hcur : offset ≤ cur) (hm : Filled hv objectFormat offset truncSize bufferOffset cur m) {t : ℕ}
  (htrunc : objectTruncateSize layout p.objectno truncSize = some t)
include hformat hp hcur hm htrunc

/-- The round gives the object of the piece one extent, and leaves the others alone. -/
theorem Filled.mem_update : ∃ ex, ex.oid = objectFormat p.objectno ∧
      ExtentFilled hv objectFormat offset truncSize bufferOffset (cur + p.length) ex ∧
      ∀ q, q ∈ m.update (objectFormat p.objectno)
          (addPiece (objectFormat p.objectno) p t (cur - offset + bufferOffset)) ↔
        q = (objectFormat p.objectno, [ex]) ∨ q ∈ m ∧ q.1 ≠ objectFormat p.objectno := by
  rcases OrderedMap.mem_update hm.sorted (objectFormat p.objectno)
    (addPiece (objectFormat p.objectno) p t (cur - offset + bufferOffset)) with
    ⟨v, hmem, hiff⟩ | ⟨hnone, hiff⟩
  · obtain ⟨ex, hv', hkey, hex⟩ := hm.extents _ hmem
    obtain rfl : v = [ex] := hv'
    have heq : ex.objectno = p.objectno := hformat (hex.oid.symm.trans hkey.symm)
    rw [addPiece_some hp hex heq] at hiff
    refine ⟨_, ?_, hex.extend hp hcur heq, hiff⟩
    exact hkey.symm
  · refine ⟨_, rfl, .fresh hp hcur htrunc fun x hx hle hlt => ?_, fun q => (hiff q).trans ?_⟩
    · obtain ⟨v, hmem⟩ := hm.complete p.objectno x hx hle hlt
      exact hnone v hmem
    · have hne : q ∈ m → q.1 ≠ objectFormat p.objectno := fun hq h => hnone q.2 (h ▸ hq)
      rw [addPiece_none]
      tauto

/-- What one round preserves. -/
theorem Filled.step : Filled hv objectFormat offset truncSize bufferOffset (cur + p.length)
      (m.update (objectFormat p.objectno)
        (addPiece (objectFormat p.objectno) p t (cur - offset + bufferOffset))) := by
  obtain ⟨ex, hoid, hex, hiff⟩ := Filled.mem_update hformat hp hcur hm htrunc
  refine ⟨hm.sorted.update _ _, fun q hq => ?_, fun o x hx hle hlt => ?_, ?_⟩
  · rcases (hiff q).1 hq with rfl | ⟨hq, hne⟩
    · exact ⟨ex, rfl, hoid.symm, hex⟩
    · obtain ⟨ex', hval, hkey, hex'⟩ := hm.extents q hq
      refine ⟨ex', hval, hkey, hex'.frame hp fun heq => hne ?_⟩
      rw [hkey, hex'.oid, heq]
  · by_cases ho : o = p.objectno
    · exact ⟨[ex], (hiff _).2 (.inl (by rw [ho]))⟩
    · have hcovers := hp.covers (o := o) hx
      obtain ⟨v, hmem⟩ := hm.complete o x hx hle (by omega)
      exact ⟨v, (hiff _).2 (.inr ⟨hmem, fun h => ho (hformat h)⟩)⟩
  · have hsplit : range' bufferOffset (cur + p.length - offset) =
        range' bufferOffset (cur - offset) ++ range' (cur - offset + bufferOffset) p.length := by
      rw [range'_split bufferOffset (show cur - offset ≤ cur + p.length - offset by omega),
        add_comm bufferOffset]
      congr 2
      omega
    rw [hsplit]
    refine Perm.trans (OrderedMap.perm_flatMap_update ?_ fun v _ => ?_) (hm.perm.append_right _)
    · exact .of_eq (buffer_addPiece ..)
    · exact .of_eq (buffer_addPiece ..)

end

/-- What the loop does: it ends, and has then filled the extents. -/
theorem fileToExtentsLoop_eq (hformat : Function.Injective objectFormat) {fuel pos : ℕ}
    (hfuel : left ≤ fuel) (hpos : left = 0 ∨ pos = cur) (hcur : offset ≤ cur)
    (hlt : cur + left ≤ 2 ^ 64) (hbuffer : cur - offset + bufferOffset + left ≤ 2 ^ 64)
    (hm : Filled hv objectFormat offset truncSize bufferOffset cur m) :
    ∃ m', fileToExtentsLoop objectFormat layout layout.blockSize offset truncSize bufferOffset fuel
        pos left m = some m' ∧
      Filled hv objectFormat offset truncSize bufferOffset (cur + left) m' := by
  induction fuel generalizing pos left cur m with
  | zero =>
    obtain rfl : left = 0 := by omega
    exact ⟨m, rfl, hm⟩
  | succ fuel ih =>
    rw [fileToExtentsLoop]
    by_cases hzero : left = 0
    · subst hzero
      exact ⟨m, if_pos rfl, hm⟩
    obtain rfl := hpos.resolve_left hzero
    have hp := isPiece_piece hv (show pos < 2 ^ 64 by omega) (pos_of_ne_zero hzero)
    obtain ⟨p, hpdef⟩ : ∃ p, p = piece layout layout.blockSize pos left := ⟨_, rfl⟩
    rw [← hpdef] at hp
    have hlength := hp.length_le
    have hlpos := hp.length_pos
    obtain ⟨t, htrunc⟩ := exists_objectTruncateSize hv p.objectno truncSize
    have hbufferPos : u64 (pos - offset + bufferOffset) = pos - offset + bufferOffset :=
      u64_of_lt (by omega)
    have hnext : left - p.length = 0 ∨ u64 (pos + p.length) = pos + p.length := by
      rcases lt_or_ge p.length left with h | h
      · exact .inr (u64_of_lt (by omega))
      · exact .inl (by omega)
    have hrest : left - p.length ≤ fuel := by omega
    obtain ⟨m', heq, hm'⟩ := ih hrest hnext (by omega) (by omega) (by omega)
      (.step hformat hp hcur hm htrunc)
    rw [show pos + p.length + (left - p.length) = pos + left by omega] at hm'
    simp only [if_neg hzero, ← hpdef, htrunc, hbufferPos]
    exact ⟨m', heq, hm'⟩

/-! ## The bijection -/

variable (hv objectFormat offset bufferOffset) in
/-- What `file_to_extents` returns for a range of `len` bytes. -/
structure Striped (len : ℕ) (m : OrderedMap Oid (List (ObjectExtent Oid))) : Prop where
  /-- The buffer extents partition the buffer. -/
  partition : (m.flatMap fun p => p.2.flatMap buffer).Perm (range' bufferOffset len)
  /-- Every object is named once. -/
  objects : m.Sorted ∧ ∀ p ∈ m, ∀ ex ∈ p.2,
    ex.oid = p.1 ∧ ex.oid = objectFormat ex.objectno ∧ 0 < ex.length
  /-- The ranges of an object are disjoint, ascending and maximal. -/
  ranges : ∀ p ∈ m, p.2.Pairwise fun a b => a.offset + a.length < b.offset
  /-- `extent_to_file` gives back the bytes of the file for which the buffer stands. -/
  backward : ∀ p ∈ m, ∀ ex ∈ p.2, ∃ extents,
    extentToFile layout ex.objectno ex.offset ex.length = some extents ∧
      bytesOf extents = ex.buffer.map (fun q => q - bufferOffset + offset) ∧
      (bytesOf extents).map hv.striping.toObject =
        (range' ex.offset ex.length).map fun x => (ex.objectno, x)

omit [LinearOrder Oid] in
theorem ExtentFilled.backward (hlen : offset + len ≤ 2 ^ 64)
    (hex : ExtentFilled hv objectFormat offset truncSize bufferOffset (offset + len) ex) :
    ∃ extents, extentToFile layout ex.objectno ex.offset ex.length = some extents ∧
      bytesOf extents = ex.buffer.map (fun q => q - bufferOffset + offset) ∧
      (bytesOf extents).map hv.striping.toObject =
        (range' ex.offset ex.length).map fun x => (ex.objectno, x) := by
  have hpos := hex.length_pos
  have hstop := hex.stop_le
  have hrange : ∀ x ∈ range' ex.offset ex.length,
      offset ≤ hv.striping.toFile ex.objectno x ∧ x < layout.objectSize := by
    intro x hx
    obtain ⟨hle, hlt⟩ := mem_range'_1.1 hx
    exact ⟨((hex.covers x (by omega)).2 ⟨hle, hlt⟩).1, by omega⟩
  have hlast := (hex.covers (ex.offset + ex.length - 1) (by omega)).2 ⟨by omega, by omega⟩
  have hbound : ∀ x < ex.offset + ex.length, hv.striping.toFile ex.objectno x < 2 ^ 64 := by
    intro x hx
    have hle := (hv.striping.toFile_strictMono ex.objectno).monotone
      (show x ≤ ex.offset + ex.length - 1 by omega)
    omega
  obtain ⟨extents, heq, hbytes⟩ := extentToFile_eq hv ex.objectno hstop hbound
  refine ⟨extents, heq, ?_, ?_⟩
  · rw [hbytes, hex.buffer, map_map]
    refine map_congr_left fun x hx => ?_
    have := (hrange x hx).1
    rw [Function.comp_apply]
    omega
  · rw [hbytes, map_map]
    refine map_congr_left fun x hx => hv.striping.toObject_toFile _ ?_
    rw [hv.size_striping]
    exact (hrange x hx).2

theorem Filled.striped (hlen : offset + len ≤ 2 ^ 64)
    (hm : Filled hv objectFormat offset truncSize bufferOffset (offset + len) m) :
    Striped hv objectFormat offset bufferOffset len m where
  partition := by
    have hperm := hm.perm
    rwa [Nat.add_sub_cancel_left] at hperm
  objects := by
    refine ⟨hm.sorted, fun p hp ex hmem => ?_⟩
    obtain ⟨ex', hval, hkey, hex⟩ := hm.extents p hp
    obtain rfl : ex = ex' := by rwa [hval, mem_singleton] at hmem
    exact ⟨hkey.symm, hex.oid, hex.length_pos⟩
  ranges p hp := by
    obtain ⟨ex, hval, -⟩ := hm.extents p hp
    rw [hval]
    exact pairwise_singleton _ _
  backward p hp ex hmem := by
    obtain ⟨ex', hval, -, hex⟩ := hm.extents p hp
    obtain rfl : ex = ex' := by rwa [hval, mem_singleton] at hmem
    exact hex.backward hlen

theorem fileToExtents_striped (hformat : Function.Injective objectFormat) (hpos : 0 < len)
    (hlen : offset + len ≤ 2 ^ 64) (hbuffer : bufferOffset + len ≤ 2 ^ 64) :
    ∃ m, fileToExtents objectFormat layout offset len truncSize bufferOffset = some m ∧
      Striped hv objectFormat offset bufferOffset len m := by
  have hinit : Filled hv objectFormat offset truncSize bufferOffset offset [] := by
    refine ⟨Pairwise.nil, fun p hp => absurd hp not_mem_nil, fun o x _ hle hlt => ?_, ?_⟩
    · omega
    · rw [Nat.sub_self]
      exact .refl _
  obtain ⟨m, heq, hm⟩ := fileToExtentsLoop_eq hformat le_rfl (.inr rfl) le_rfl hlen (by omega) hinit
  refine ⟨m, ?_, hm.striped hlen⟩
  rwa [fileToExtents, assert_bind hpos, assert_bind hv.unit_le]

end

/-- **Striping is a bijection.**  The four functions agree on where the bytes of a file lie. -/
theorem striper_bijection {layout : FileLayout} (hv : layout.Valid) {Oid : Type} [LinearOrder Oid]
    {objectFormat : ℕ → Oid} (hformat : Function.Injective objectFormat) :
    (∀ offset len truncSize bufferOffset, 0 < len → offset + len ≤ 2 ^ 64 →
      bufferOffset + len ≤ 2 ^ 64 →
      ∃ m, fileToExtents objectFormat layout offset len truncSize bufferOffset = some m ∧
        Striped hv objectFormat offset bufferOffset len m) ∧ (∀ objectno T, 0 < T → T < 2 ^ 64 - 1 →
      ∃ m, objectTruncateSize layout objectno T = some m ∧ hv.striping.IsTruncated objectno T m) ∧
    (∀ T, 0 < T → T + layout.stripeCount * layout.objectSize ≤ 2 ^ 64 →
      hv.striping.IsNumObjects T (getNumObjects layout T)) := by
  refine ⟨fun offset len truncSize bufferOffset => fileToExtents_striped hformat,
    fun objectno T hT hT' => objectTruncateSize_eq hv hT hT' objectno, fun T hT hlt => ?_⟩
  rw [getNumObjects_eq hv hlt]
  exact hv.striping.isNumObjects_numObjects hT

/-- A file over two objects at a time. -/
theorem twoStripes_valid : (FileLayout.mk 2 2 4).Valid :=
  ⟨by decide, by decide, by decide, by decide, by decide, by decide⟩

/-- Ten bytes from offset three on: rows, objects and object sets end inside the range. -/
theorem striper_bijection_twoStripes :
    (∃ m, fileToExtents id ⟨2, 2, 4⟩ 3 10 0 0 = some m ∧ Striped twoStripes_valid id 3 0 10 m) ∧
      (∃ m, objectTruncateSize ⟨2, 2, 4⟩ 1 7 = some m ∧
        twoStripes_valid.striping.IsTruncated 1 7 m) ∧
      twoStripes_valid.striping.IsNumObjects 9 (getNumObjects ⟨2, 2, 4⟩ 9) :=
  have h := striper_bijection twoStripes_valid Function.injective_id
  ⟨h.1 3 10 0 0 (by decide) (by decide) (by decide), h.2.1 1 7 (by decide) (by decide),
    h.2.2 9 (by decide) (by decide)⟩

theorem default_valid : (FileLayout.mk (2 ^ 22) 1 (2 ^ 22)).Valid :=
  ⟨by decide, by decide, by decide, by decide, by decide, by decide⟩

/-- Where rounding the size up to a period overflows, `get_num_objects` returns zero. -/
theorem getNumObjects_overflow : getNumObjects ⟨2 ^ 22, 1, 2 ^ 22⟩ (2 ^ 64 - 1) = 0 ∧
      ¬ default_valid.striping.IsNumObjects (2 ^ 64 - 1)
        (getNumObjects ⟨2 ^ 22, 1, 2 ^ 22⟩ (2 ^ 64 - 1)) := by
  have hzero : getNumObjects ⟨2 ^ 22, 1, 2 ^ 22⟩ (2 ^ 64 - 1) = 0 := by decide
  refine ⟨hzero, ?_⟩
  rintro ⟨-, b, -, hb⟩
  omega

end Ceph.Osdc
