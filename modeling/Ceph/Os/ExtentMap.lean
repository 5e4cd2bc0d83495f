import Ceph.Lib.OrderedMap
import Ceph.Lib.SortedList
import Ceph.Os.Blob
import Ceph.Os.UseTracker

/-!
# Extents and blobs

The parts of `os/bluestore/BlueStore.h` that all functions of an `ExtentMap` work on: logical
extents, the blobs that have their data, and the references that blobs count.

* `Blob.getRef_counted` — `get_ref` counts the bytes of a range.
-/

namespace Ceph.Os

/-- `Blob`; `sbid` is the id of its shared blob. -/
structure Blob where
  id : ℤ := -1
  sbid : ℕ := 0
  blob : BlobT := {}
  usedInBlob : UseTracker := {}
  deriving DecidableEq

/-- `is_spanning` -/
def Blob.isSpanning (b : Blob) : Bool := 0 ≤ b.id

/-- `Blob::get_ref` -/
def Blob.getRef (minAllocSize : ℕ) (b : Blob) (offset length : ℕ) : Option Blob := do
  assert (b.blob.logicalLength ≠ 0)
  let used ← (if b.usedInBlob.isNotEmpty then some b.usedInBlob
    else b.usedInBlob.init b.blob.logicalLength (b.blob.releaseSize minAllocSize))
  let used ← used.get offset length
  some { b with usedInBlob := used }

/-- `Extent`; blobs are pointers. -/
structure Extent (β : Type) where
  logicalOffset : ℕ
  blobOffset : ℕ
  length : ℕ
  blob : β
  deriving DecidableEq

namespace Extent

variable {β : Type}

/-- `logical_end` -/
def logicalEnd (e : Extent β) : ℕ := (e.logicalOffset + e.length) % 2 ^ 32

/-- `blob_start` -/
def blobStart (e : Extent β) : ℕ := (e.logicalOffset + 2 ^ 32 - e.blobOffset) % 2 ^ 32

/-- `blob_end` -/
def blobEnd (heap : β → Blob) (e : Extent β) : ℕ :=
  (e.blobStart + (heap e.blob).blob.logicalLength) % 2 ^ 32

/-- `blob_escapes_range` -/
def blobEscapesRange (heap : β → Blob) (e : Extent β) (o l : ℕ) : Bool :=
  e.blobStart < o || (o + l) % 2 ^ 32 < e.blobEnd heap

theorem logicalEnd_eq {e : Extent β} (h : e.logicalOffset + e.length < 2 ^ 32) :
    e.logicalEnd = e.logicalOffset + e.length := Nat.mod_eq_of_lt h

end Extent

/-! ## The references of a blob -/

section

variable {β : Type} [DecidableEq β]

/-- The bytes that extents refer to in a blob. -/
def refTotal (extents : List (Extent β)) (b : β) : ℕ :=
  (extents.map fun e => if e.blob = b then e.length else 0).sum

/-- The bytes that extents refer to in unit `u` of a blob. -/
def refCount (au : ℕ) (extents : List (Extent β)) (b : β) (u : ℕ) : ℕ :=
  (extents.map fun e =>
    if e.blob = b then inUnit au u e.blobOffset (e.blobOffset + e.length) else 0).sum

/-- The tracker of the blob counts the references of the extents, or their total. -/
def Counted (minAllocSize : ℕ) (extents : List (Extent β)) (b : β) (blob : Blob) : Prop :=
  blob.usedInBlob.Counts blob.blob.logicalLength (blob.blob.releaseSize minAllocSize)
    (refTotal extents b) (refCount (blob.blob.releaseSize minAllocSize) extents b)

/-- The tracker counts the references in each unit; only a blob of one unit keeps a total alone. -/
structure Tracked (minAllocSize : ℕ) (extents : List (Extent β)) (b : β) (blob : Blob) : Prop where
  counted : Counted minAllocSize extents b blob
  oneUnit : blob.usedInBlob.numAu = 0 →
    blob.blob.logicalLength ≤ blob.blob.releaseSize minAllocSize

theorem refTotal_of_forall_ne {l : List (Extent β)} {b : β} (h : ∀ e ∈ l, e.blob ≠ b) :
    refTotal l b = 0 := by
  induction l with
  | nil => rfl
  | cons e l ih =>
    have hhead := h e List.mem_cons_self
    have htail := ih fun e' he' => h e' (List.mem_cons_of_mem _ he')
    simp only [refTotal, List.map_cons, List.sum_cons, if_neg hhead, Nat.zero_add] at htail ⊢
    exact htail

theorem refCount_le_refTotal (au : ℕ) (l : List (Extent β)) (b : β) (u : ℕ) :
    refCount au l b u ≤ refTotal l b := by
  refine List.sum_le_sum fun e _ => ?_
  split_ifs
  · rw [inUnit]
    omega
  · exact le_rfl

/-- An extent of another blob does not change the references. -/
theorem counted_frame {m : ℕ} {l : List (Extent β)} {b : β} {blob : Blob} {q : Extent β}
    (h : Counted m l b blob) (hq : q.blob ≠ b) : Counted m (l ++ [q]) b blob := by
  have hcount : ∀ au, refCount au (l ++ [q]) b = refCount au l b := fun au => by
    funext u
    simp [refCount, hq]
  have htotal : refTotal (l ++ [q]) b = refTotal l b := by simp [refTotal, hq]
  rwa [Counted, hcount, htotal]

/-- Allocation units are powers of two, and a compressed blob is one unit. -/
theorem releaseSize_spec {b : BlobT} (hb : b.WF) (hpos : b.logicalLength ≠ 0) {order : ℕ}
    (horder : order < 32) : 0 < b.releaseSize (2 ^ order) ∧
      (b.releaseSize (2 ^ order) ∣ 2 ^ 32 ∨ b.releaseSize (2 ^ order) = b.logicalLength) := by
  have hmin : 2 ^ order ∣ 2 ^ 32 := Nat.pow_dvd_pow 2 horder.le
  have hcsum : b.csumChunkSize ∣ 2 ^ 32 := Nat.pow_dvd_pow 2 hb.csumChunkOrder.le
  rw [BlobT.releaseSize]
  split_ifs
  · exact ⟨Nat.pos_of_ne_zero hpos, .inr rfl⟩
  · exact ⟨Nat.two_pow_pos _, .inl hmin⟩
  · exact ⟨Nat.two_pow_pos _, .inl hcsum⟩

variable {order : ℕ} {extents : List (Extent β)} {b : β}

/-- `get_ref` counts the range of one more extent, on a new blob or one whose references are
counted. -/
theorem Blob.getRef_counted (blob : Blob) (hblob : blob.blob.WF)
    (hpos : blob.blob.logicalLength ≠ 0) (horder : order < 32) {e : Extent β} (he : e.blob = b)
    (hin : e.blobOffset + e.length ≤ blob.blob.logicalLength)
    (htotal : refTotal (extents ++ [e]) b < 2 ^ 32)
    (hold : Counted (2 ^ order) extents b blob ∨ blob.usedInBlob = {} ∧ ∀ e ∈ extents, e.blob ≠ b) :
    ∃ used, blob.getRef (2 ^ order) e.blobOffset e.length = some { blob with usedInBlob := used } ∧
      Counted (2 ^ order) (extents ++ [e]) b { blob with usedInBlob := used } := by
  obtain ⟨hau, hunit⟩ := releaseSize_spec hblob hpos horder
  generalize hsize : blob.blob.releaseSize (2 ^ order) = au at hau hunit
  have hlength := hblob.logicalLength
  have hlast : ∀ u, refCount au (extents ++ [e]) b u
      = refCount au extents b u + inUnit au u e.blobOffset (e.blobOffset + e.length) := by
    intro u
    simp [refCount, he]
  have hsum : refTotal (extents ++ [e]) b = refTotal extents b + e.length := by
    simp [refTotal, he]
  -- the tracker that `get` is called on
  obtain ⟨used, hused, hcounts⟩ : ∃ used, (if blob.usedInBlob.isNotEmpty then some blob.usedInBlob
        else blob.usedInBlob.init blob.blob.logicalLength au) = some used ∧
      used.Counts blob.blob.logicalLength au (refTotal extents b) (refCount au extents b) := by
    have hinit : refTotal extents b = 0 → blob.usedInBlob.isNotEmpty = false → ∃ used,
        (if blob.usedInBlob.isNotEmpty then some blob.usedInBlob
          else blob.usedInBlob.init blob.blob.logicalLength au) = some used ∧
        used.Counts blob.blob.logicalLength au (refTotal extents b) (refCount au extents b) := by
      intro hzero hempty
      have hcount : refCount au extents b = fun _ => 0 := funext fun u =>
        Nat.le_zero.1 (hzero ▸ refCount_le_refTotal au extents b u)
      obtain ⟨used, hused, hcounts⟩ := UseTracker.counts_init (.inr hempty)
        hau hunit (Nat.pos_of_ne_zero hpos) hlength
      exact ⟨used, by rw [hempty]; exact hused, by rwa [hzero, hcount]⟩
    rcases hold with hcounted | ⟨hnew, hnone⟩
    · rw [Counted, hsize] at hcounted
      cases hempty : blob.usedInBlob.isNotEmpty with
      | true => exact ⟨_, rfl, hcounted⟩
      | false =>
        have hzero : refTotal extents b = 0 := by
          by_contra hne
          rw [hcounted.isNotEmpty_iff.2 hne] at hempty
          exact Bool.noConfusion hempty
        simpa only [hempty] using hinit hzero hempty
    · exact hinit (refTotal_of_forall_ne hnone) (by rw [hnew]; rfl)
  obtain ⟨used', hget, hcounts'⟩ := hcounts.get hin hlength (by omega)
  refine ⟨used', ?_, ?_⟩
  · rw [Blob.getRef, assert_bind hpos, hsize, hused]
    simp only [Option.bind_eq_bind, Option.bind_some, hget]
  · rw [Counted]
    simp only [hsize, hsum]
    rwa [funext hlast]

end

end Ceph.Os
