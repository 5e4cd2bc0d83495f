import Mathlib.Data.Nat.Size
import Ceph.Lib.IntervalRuns
import Ceph.Lib.Word

/-!
# The allocator of BlueStore

`os/bluestore/StupidAllocator.cc`.  Free space is kept in ten bins by the size of its runs.
A run that grows is promoted to a higher bin, what an allocation leaves of a run is moved to
the bin of its size.  An allocation is put together from several pieces and reported as a list
of extents whose lengths are 32 bits wide.

* `insertFree_spec` — adding free space ends and keeps the bins disjoint.
* `demote_spec` — moving a remnant changes no space.
* `allocateInt_spec` — one piece is taken out of the free space and nothing else.
-/

namespace Ceph.Os

open IntervalMap IntervalSet Finset Function

/-! ## The functions -/

/-- The options the allocator reads. -/
structure AllocConf where
  bdevBlockSize : ℕ
  block_pos : 0 < bdevBlockSize

/-- The free space by bins. -/
abbrev Bins : Type := Fin 10 → IntervalSet

/-- `StupidAllocator` -/
structure StupidAllocator where
  numFree : ℤ
  numReserved : ℤ
  free : Bins
  lastAlloc : ℕ

/-- `AllocExtent` -/
structure AllocExtent where
  offset : ℕ
  length : ℕ
  deriving DecidableEq

/-- A value as `int64_t`. -/
def s64 (n : ℤ) : ℤ := Int.bmod n (2 ^ 64)

/-- `ENOSPC` -/
def enospc : ℤ := 28

/-- The constructor. -/
def StupidAllocator.new : StupidAllocator := ⟨0, 0, fun _ => [], 0⟩

variable (conf : AllocConf)

/-- `_choose_bin` -/
def chooseBin (origLen : ℕ) : Fin 10 :=
  ⟨min (origLen / conf.bdevBlockSize).size 9, by omega⟩

/-- The loop of `_insert_free`. -/
def insertFreeLoop : ℕ → Fin 10 → ℕ → ℕ → Bins → Option Bins
  | 0, _, _, _, _ => none
  | fuel + 1, bin, off, len, free => do
    let (s, run) ← insertRun off len (free bin)
    let newbin := chooseBin conf run.len
    if newbin = bin then return update free bin s
    let s ← eraseRun run.off run.len s
    insertFreeLoop fuel newbin run.off run.len (update free bin s)

/-- `_insert_free` -/
def insertFree (off len : ℕ) (free : Bins) : Option Bins :=
  insertFreeLoop conf 10 (chooseBin conf len) off len free

/-- `reserve` -/
def reserve (need : ℕ) (a : StupidAllocator) : StupidAllocator × ℤ :=
  if a.numFree - a.numReserved < s64 need then (a, -enospc)
  else ({ a with numReserved := s64 (a.numReserved + need) }, 0)

/-- `unreserve` -/
def unreserve (unused : ℕ) (a : StupidAllocator) : Option StupidAllocator := do
  assert (s64 unused ≤ a.numReserved)
  return { a with numReserved := s64 (a.numReserved - unused) }

/-- What lies before the first multiple of `allocUnit` in a run. -/
def skew (allocUnit : ℕ) (p : Extent ℕ) : ℕ :=
  if p.off % allocUnit = 0 then 0 else allocUnit - p.off % allocUnit

/-- `aligned_len` -/
def alignedLen (allocUnit : ℕ) (p : Extent ℕ) : ℕ :=
  if p.len < skew allocUnit p then 0 else p.len - skew allocUnit p

/-- The first run in the given bins, and in a part of each, whose aligned length suffices. -/
def searchBins (allocUnit least : ℕ) (part : IntervalSet → IntervalSet) (free : Bins)
    (bins : List (Fin 10)) : Option (Fin 10 × Extent ℕ) :=
  bins.findSome? fun bin =>
    ((part (free bin)).find? fun p => least ≤ alignedLen allocUnit p).map fun p => (bin, p)

/-- The four searches of `allocate_int`: up and then down, from the hint and then from the
origin. -/
def searchFree (wantSize allocUnit hint : ℕ) (free : Bins) : Option (Fin 10 × Extent ℕ) :=
  let origBin := chooseBin conf (max allocUnit wantSize)
  let up := (List.finRange 10).filter fun bin => origBin ≤ bin
  let down := ((List.finRange 10).filter fun bin => bin ≤ origBin).reverse
  let fromHint := fun s => if hint = 0 then [] else lowerBound hint s
  let beforeHint := fun s => if hint = 0 then s else upTo hint s
  (searchBins allocUnit wantSize fromHint free up).or <|
    (searchBins allocUnit wantSize beforeHint free up).or <|
      (searchBins allocUnit allocUnit fromHint free down).or <|
        searchBins allocUnit allocUnit beforeHint free down

/-- Move the run that `x` is in to the bin of its size. -/
def demote (bin : Fin 10) (x : ℕ) (free : Bins) : Option Bins :=
  match contains x (free bin) with
  | none => some free
  | some run => do
    if chooseBin conf run.len = bin then return free
    let s ← eraseRun run.off run.len (free bin)
    insertFree conf run.off run.len (update free bin s)

/-- What `allocate_int` takes of the run it found.  `small` is the bound that
`bluestore_debug_small_allocations` sets, 0 if there is none. -/
def pieceOf (small wantSize allocUnit : ℕ) (p : Extent ℕ) : AllocExtent :=
  let skew := skew allocUnit p
  let length := u32 (min (max allocUnit wantSize) (p.len - skew))
  ⟨p.off + skew, if small ≠ 0 ∧ small < length then small else length⟩

/-- The end of `allocate_int`: take a piece out of a run and move what is left of it.  The
byte before the run is looked up for what is left before the piece. -/
def carve (bin : Fin 10) (p : Extent ℕ) (piece : AllocExtent) (a : StupidAllocator) :
    Option StupidAllocator := do
  let s ← eraseRun piece.offset piece.length (a.free bin)
  let free := update a.free bin s
  let free ← (if piece.offset = 0 then some free
    else demote conf bin ((p.off + (2 ^ 64 - 1)) % 2 ^ 64) free : Option Bins)
  let free ← demote conf bin (piece.offset + piece.length) free
  assert (0 ≤ s64 (a.numFree - piece.length))
  assert (0 ≤ s64 (a.numReserved - piece.length))
  return ⟨s64 (a.numFree - piece.length), s64 (a.numReserved - piece.length), free,
    piece.offset + piece.length⟩

/-- `allocate_int`: one piece, or none if there is no space. -/
def allocateInt (small wantSize allocUnit hint : ℕ) (a : StupidAllocator) :
    Option (Option (StupidAllocator × AllocExtent)) :=
  if allocUnit = 0 then none
  else
    match searchFree conf wantSize allocUnit (if hint = 0 then a.lastAlloc else hint) a.free with
    | none => some none
    | some (bin, p) =>
      let piece := pieceOf small wantSize allocUnit p
      (carve conf bin p piece a).map fun a => some (a, piece)

/-- `ExtentList::add_extents`, with blocks of one byte. -/
def addExtents (maxBlocks : ℤ) (piece : AllocExtent) (extents : List AllocExtent) :
    List AllocExtent :=
  match extents.getLast? with
  | none => [piece]
  | some last =>
    if last.offset + last.length = piece.offset ∧
        (maxBlocks = 0 ∨ (last.length + piece.length : ℕ) ≤ maxBlocks) then
      extents.dropLast ++ [⟨last.offset, u32 (last.length + piece.length)⟩]
    else extents ++ [piece]

/-- The loop of `allocate`: the bytes allocated, with `small` for each piece. -/
def allocateLoop (small : ℕ → ℕ) (wantSize allocUnit maxAllocSize : ℕ) :
    ℕ → ℕ → ℕ → List AllocExtent → StupidAllocator → Option (StupidAllocator × ℕ × List AllocExtent)
  | 0, allocated, _, extents, a =>
    if wantSize ≤ allocated then some (a, allocated, extents) else none
  | fuel + 1, allocated, hint, extents, a =>
    if wantSize ≤ allocated then some (a, allocated, extents)
    else do
      match ← allocateInt conf (small fuel) (min maxAllocSize (wantSize - allocated)) allocUnit
          hint a with
      | none => return (a, allocated, extents)
      | some (a, piece) =>
        allocateLoop small wantSize allocUnit maxAllocSize fuel (allocated + piece.length)
          (piece.offset + piece.length) (addExtents (s64 maxAllocSize) piece extents) a

/-- `allocate`.  The hint is an `int64_t` that is compared as an `uint64_t`. -/
def allocate (small : ℕ → ℕ) (wantSize allocUnit maxAllocSize : ℕ) (hint : BitVec 64)
    (a : StupidAllocator) : Option (StupidAllocator × ℤ × List AllocExtent) := do
  let maxAllocSize := if maxAllocSize = 0 then wantSize else maxAllocSize
  let (a, allocated, extents) ←
    allocateLoop conf small wantSize allocUnit maxAllocSize wantSize 0 hint.toNat [] a
  return (a, if allocated = 0 then -enospc else allocated, extents)

variable (offset length : ℕ) (a : StupidAllocator)

/-- Add free space. -/
def addFree : Option StupidAllocator := do
  let free ← insertFree conf offset length a.free
  return { a with free, numFree := s64 (a.numFree + length) }

/-- `release` -/
def release : Option StupidAllocator :=
  addFree conf offset length a

/-- `init_add_free` -/
def initAddFree : Option StupidAllocator :=
  addFree conf offset length a

/-- One round of `init_rm_free`: what is left to remove, and the bins. -/
def rmFreeStep (st : IntervalSet × Bins) (i : Fin 10) : Option (IntervalSet × Bins) := do
  let (rm, free) := st
  if rm = [] then return (rm, free)
  let overlap ← intersectionOf rm (free i)
  if overlap = [] then return (rm, free)
  let s ← subtract (free i) overlap
  let rm ← subtract rm overlap
  return (rm, update free i s)

/-- `init_rm_free` -/
def initRmFree : Option StupidAllocator := do
  let rm ← insertNew offset length []
  let (rm, free) ← (List.finRange 10).foldlM rmFreeStep (rm, a.free)
  assert (rm = [])
  let numFree := s64 (a.numFree - length)
  assert (0 ≤ numFree)
  return { a with free, numFree }

/-! ## The bins -/

/-- Every bin is a set of maximal runs, and no byte is in two bins. -/
structure BinsOK (free : Bins) : Prop where
  wf : ∀ i, WF lengths 1 (free i)
  disjoint : ∀ i j, i ≠ j → Disjoint (bytes (free i)) (bytes (free j))

/-- The free bytes. -/
def space (free : Bins) : Finset ℕ := univ.biUnion fun i => bytes (free i)

/-- The bytes of an extent. -/
def AllocExtent.bytes (e : AllocExtent) : Finset ℕ := Ico e.offset (e.offset + e.length)

variable {conf} {free : Bins} {bin : Fin 10} {s : IntervalSet} {I : Finset ℕ} {off len x : ℕ}

theorem mem_space : x ∈ space free ↔ ∃ i, x ∈ bytes (free i) := by simp [space]

theorem bytes_subset_space (i : Fin 10) : bytes (free i) ⊆ space free :=
  fun _ hx => mem_space.2 ⟨i, hx⟩

theorem mem_space_update :
    x ∈ space (update free bin s) ↔ x ∈ bytes s ∨ ∃ j ≠ bin, x ∈ bytes (free j) := by
  rw [mem_space]
  exact exists_update_iff free fun _ s => x ∈ bytes s

section

variable (h : BinsOK free) (hwf : WF lengths 1 s)

include h hwf

theorem BinsOK.update (hdisj : ∀ j ≠ bin, Disjoint (bytes s) (bytes (free j))) :
    BinsOK (update free bin s) := by
  refine ⟨(forall_update_iff free fun _ => WF lengths 1).2 ⟨hwf, fun i _ => h.wf i⟩, ?_⟩
  intro i j hij
  by_cases hi : i = bin
  · subst hi
    rw [update_self, update_of_ne hij.symm]
    exact hdisj j hij.symm
  · by_cases hj : j = bin
    · subst hj
      rw [update_self, update_of_ne hi]
      exact (hdisj i hi).symm
    · rw [update_of_ne hi, update_of_ne hj]
      exact h.disjoint i j hij

omit h hwf in
theorem mem_space_iff :
    x ∈ space free ↔ x ∈ bytes (free bin) ∨ ∃ j, j ≠ bin ∧ x ∈ bytes (free j) := by
  rw [← mem_space_update, Function.update_eq_self]

/-- Bytes that were not free are added to one bin. -/
theorem BinsOK.insert (hbytes : bytes s = I ∪ bytes (free bin)) (hdisj : Disjoint I (space free)) :
    BinsOK (Function.update free bin s) ∧ space (Function.update free bin s) = I ∪ space free := by
  refine ⟨h.update hwf fun j hj => ?_, ?_⟩
  · rw [hbytes, disjoint_union_left]
    exact ⟨disjoint_of_subset_right (bytes_subset_space j) hdisj, h.disjoint _ _ hj.symm⟩
  · ext x
    rw [mem_space_update, hbytes, mem_union, mem_union, mem_space_iff, or_assoc]

/-- Bytes of one bin are taken out of it. -/
theorem BinsOK.erase (hbytes : bytes s = bytes (free bin) \ I) (hsub : I ⊆ bytes (free bin)) :
    BinsOK (Function.update free bin s) ∧ space (Function.update free bin s) = space free \ I := by
  refine ⟨h.update hwf fun j hj => ?_, ?_⟩
  · rw [hbytes]
    exact disjoint_of_subset_left sdiff_subset (h.disjoint _ _ hj.symm)
  · ext x
    rw [mem_space_update, hbytes, mem_sdiff, mem_sdiff, mem_space_iff, or_and_right]
    refine or_congr_right (and_iff_left_of_imp ?_).symm
    rintro ⟨j, hj, hx⟩ hI
    exact disjoint_left.1 (h.disjoint _ _ hj) hx (hsub hI)

end

/-- The sizes of the bins add up to the number of free bytes. -/
theorem BinsOK.card_space (h : BinsOK free) : (space free).card = ∑ i, total (free i) := by
  rw [space, card_biUnion fun i _ j _ hij => h.disjoint i j hij]
  exact sum_congr rfl fun i _ => card_bytes (h.wf i)

theorem BinsOK.empty : BinsOK fun _ => [] :=
  ⟨fun _ => WF.nil 1, fun _ _ _ => by simp⟩

@[simp] theorem space_empty : space (fun _ => []) = ∅ := by
  ext x
  simp [mem_space]

/-! ## Adding and moving free space -/

theorem chooseBin_mono {m n : ℕ} (h : m ≤ n) : chooseBin conf m ≤ chooseBin conf n := by
  have := Nat.size_le_size (Nat.div_le_div_right (c := conf.bdevBlockSize) h)
  simp only [chooseBin, Fin.le_def]
  omega

theorem insertFreeLoop_spec {fuel : ℕ} (hfuel : 10 ≤ fuel + bin) (hbin : bin = chooseBin conf len)
    (h : BinsOK free) (hlen : 0 < len) (hdisj : Disjoint (Ico off (off + len)) (space free)) :
    ∃ free', insertFreeLoop conf fuel bin off len free = some free' ∧ BinsOK free' ∧
      space free' = Ico off (off + len) ∪ space free := by
  induction fuel generalizing bin off len free with
  | zero => omega
  | succ fuel ih =>
    obtain ⟨s, run, hins, hwf, hbytes, hrun, hle⟩ := insertRun_bytes (h.wf bin) hlen
      (disjoint_of_subset_right (bytes_subset_space bin) hdisj)
    obtain ⟨hok, hspace⟩ := h.insert hwf hbytes hdisj
    simp only [insertFreeLoop, hins, Option.bind_eq_bind, Option.bind_some]
    by_cases hnew : chooseBin conf run.len = bin
    · rw [if_pos hnew]
      exact ⟨_, rfl, hok, hspace⟩
    rw [if_neg hnew]
    -- the run goes to a higher bin: it is taken out of this one as a whole
    have hsub : Ico run.off run.stop ⊆ bytes s := Ico_subset_bytes hrun
    have hpos := (hwf.sized run hrun).1
    obtain ⟨s', herase, hwf', hbytes'⟩ := eraseRun_bytes hwf hpos hsub
    have hself : update free bin s bin = s := update_self ..
    rw [← hself] at hbytes' hsub
    have hstep := hok.erase hwf' hbytes' hsub
    rw [update_idem] at hstep
    have hhigher : bin < chooseBin conf run.len :=
      lt_of_le_of_ne (hbin ▸ chooseBin_mono hle) (Ne.symm hnew)
    obtain ⟨free', hloop, hok', hspace'⟩ := ih (by omega) rfl hstep.1 hpos (by
      rw [hstep.2]
      exact disjoint_sdiff)
    simp only [herase, Option.bind_some]
    refine ⟨free', hloop, hok', ?_⟩
    have hfree := hsub.trans (bytes_subset_space bin)
    rw [hspace] at hfree
    rw [hspace', hstep.2, hspace]
    exact union_sdiff_of_subset hfree

variable (conf) in
theorem insertFree_spec (h : BinsOK free) (hlen : 0 < len)
    (hdisj : Disjoint (Ico off (off + len)) (space free)) :
    ∃ free', insertFree conf off len free = some free' ∧ BinsOK free' ∧
      space free' = Ico off (off + len) ∪ space free :=
  insertFreeLoop_spec (by omega) rfl h hlen hdisj

variable (conf) in
theorem demote_spec (h : BinsOK free) (bin : Fin 10) (x : ℕ) :
    ∃ free', demote conf bin x free = some free' ∧ BinsOK free' ∧ space free' = space free := by
  rw [demote]
  cases hrun : contains x (free bin) with
  | none => exact ⟨free, rfl, h, rfl⟩
  | some run =>
    by_cases hnew : chooseBin conf run.len = bin
    · exact ⟨free, if_pos hnew, h, rfl⟩
    have hmem := (contains_eq_some hrun).1
    have hsub : Ico run.off (run.off + run.len) ⊆ bytes (free bin) := Ico_subset_bytes hmem
    have hpos := ((h.wf bin).sized run hmem).1
    obtain ⟨s, herase, hwf, hbytes⟩ := eraseRun_bytes (h.wf bin) hpos hsub
    obtain ⟨hok, hspace⟩ := h.erase hwf hbytes hsub
    obtain ⟨free', hins, hok', hspace'⟩ := insertFree_spec conf hok hpos (hspace ▸ disjoint_sdiff)
    refine ⟨free', ?_, hok', ?_⟩
    · simp only [if_neg hnew, herase, Option.bind_eq_bind, Option.bind_some]
      exact hins
    · rw [hspace', hspace]
      exact union_sdiff_of_subset (hsub.trans (bytes_subset_space bin))

/-! ## One piece -/

theorem s64_eq {n : ℤ} (h : 0 ≤ n) (hlt : n < 2 ^ 63) : s64 n = n := by
  rw [s64, Int.bmod_def]
  omega

variable {allocUnit : ℕ} {p : Extent ℕ}

theorem searchBins_eq_some {least : ℕ} {part : IntervalSet → IntervalSet}
    (hpart : ∀ s, ∀ p ∈ part s, p ∈ s) {bins : List (Fin 10)}
    (h : searchBins allocUnit least part free bins = some (bin, p)) :
    p ∈ free bin ∧ least ≤ alignedLen allocUnit p := by
  obtain ⟨i, -, hi⟩ := List.exists_of_findSome?_eq_some h
  obtain ⟨q, hq, heq⟩ := of_map hi
  cases heq
  exact ⟨hpart _ _ (List.mem_of_find?_eq_some hq), by simpa using List.find?_some hq⟩

variable {wantSize : ℕ}

/-- The run that is found is in the bin that is named, and its aligned length suffices for one of
the searches. -/
theorem searchFree_found {hint : ℕ}
    (h : searchFree conf wantSize allocUnit hint free = some (bin, p)) :
    p ∈ free bin ∧ (wantSize ≤ alignedLen allocUnit p ∨ allocUnit ≤ alignedLen allocUnit p) := by
  have hfrom : ∀ s : IntervalSet, ∀ p ∈ (if hint = 0 then [] else lowerBound hint s), p ∈ s := by
    intro s p hp
    split at hp
    · cases hp
    · exact mem_of_mem_lowerBound hp
  have hbefore : ∀ s : IntervalSet, ∀ p ∈ (if hint = 0 then s else upTo hint s), p ∈ s := by
    intro s p hp
    split at hp
    · exact hp
    · exact mem_of_mem_upTo hp
  simp only [searchFree, Option.or_eq_some_iff] at h
  rcases h with h | ⟨-, h | ⟨-, h | ⟨-, h⟩⟩⟩
  · exact (searchBins_eq_some hfrom h).imp_right .inl
  · exact (searchBins_eq_some hbefore h).imp_right .inl
  · exact (searchBins_eq_some hfrom h).imp_right .inr
  · exact (searchBins_eq_some hbefore h).imp_right .inr

/-- The run that is found is free, and something of it is left after the alignment. -/
theorem searchFree_eq_some {hint : ℕ} (hwant : 0 < wantSize) (hunit : 0 < allocUnit)
    (h : searchFree conf wantSize allocUnit hint free = some (bin, p)) :
    p ∈ free bin ∧ skew allocUnit p < p.len := by
  obtain ⟨hmem, hfits⟩ := searchFree_found h
  refine ⟨hmem, ?_⟩
  have hpos : 0 < alignedLen allocUnit p := by omega
  rw [alignedLen] at hpos
  split at hpos
  · omega
  · omega

variable (conf bin) in
/-- A piece of a run is taken out of the free space; nothing else of it changes. -/
theorem carve_eq {a : StupidAllocator} (p : Extent ℕ) {piece : AllocExtent} (hok : BinsOK a.free)
    (hfree : a.numFree = (space a.free).card) (hlt : (space a.free).card < 2 ^ 63)
    (hpos : 0 < piece.length) (hsub : piece.bytes ⊆ bytes (a.free bin)) :
    ∃ free', BinsOK free' ∧ space free' = space a.free \ piece.bytes ∧
      carve conf bin p piece a = (assert (0 ≤ s64 (a.numReserved - piece.length))).map fun _ =>
        ⟨a.numFree - piece.length, s64 (a.numReserved - piece.length), free',
          piece.offset + piece.length⟩ := by
  obtain ⟨s, herase, hwf, hbytes⟩ := eraseRun_bytes (hok.wf bin) hpos hsub
  obtain ⟨hok₁, hspace₁⟩ := hok.erase hwf hbytes hsub
  obtain ⟨free₂, hleft, hok₂, hspace₂⟩ : ∃ free', (if piece.offset = 0 then
        some (update a.free bin s)
      else demote conf bin ((p.off + (2 ^ 64 - 1)) % 2 ^ 64) (update a.free bin s)) =
        some free' ∧ BinsOK free' ∧ space free' = space (update a.free bin s) := by
    split
    · exact ⟨_, rfl, hok₁, rfl⟩
    · exact demote_spec conf hok₁ bin _
  obtain ⟨free₃, hright, hok₃, hspace₃⟩ :=
    demote_spec conf hok₂ bin (piece.offset + piece.length)
  refine ⟨free₃, hok₃, by rw [hspace₃, hspace₂, hspace₁]; rfl, ?_⟩
  have hcard : piece.length ≤ (space a.free).card := by
    have := card_le_card (hsub.trans (bytes_subset_space bin))
    rwa [AllocExtent.bytes, Nat.card_Ico, Nat.add_sub_cancel_left] at this
  have hnum : s64 (a.numFree - piece.length) = a.numFree - piece.length :=
    s64_eq (by omega) (by omega)
  simp only [carve, herase, hleft, hright, Option.bind_eq_bind, Option.bind_some, hnum]
  refine (assert_bind (by omega) _).trans ?_
  cases assert (0 ≤ s64 (a.numReserved - piece.length)) <;> rfl

theorem pieceOf_spec (small : ℕ) (hwant : 0 < wantSize) (hfits : max allocUnit wantSize < 2 ^ 32)
    (hskew : skew allocUnit p < p.len) :
    0 < (pieceOf small wantSize allocUnit p).length ∧
      (pieceOf small wantSize allocUnit p).length ≤ max allocUnit wantSize ∧
      (pieceOf small wantSize allocUnit p).bytes ⊆ Ico p.off p.stop := by
  have hu : u32 (min (max allocUnit wantSize) (p.len - skew allocUnit p)) =
      min (max allocUnit wantSize) (p.len - skew allocUnit p) := u32_of_lt (by omega)
  obtain ⟨l, hl⟩ : ∃ l, l = (pieceOf small wantSize allocUnit p).length := ⟨_, rfl⟩
  have hbounds : 0 < l ∧ l ≤ min (max allocUnit wantSize) (p.len - skew allocUnit p) := by
    simp only [pieceOf, hu] at hl
    split at hl <;> omega
  rw [← hl]
  refine ⟨hbounds.1, by omega, Finset.Ico_subset_Ico ?_ ?_⟩
  · exact Nat.le_add_right ..
  · rw [← hl]
    change p.off + skew allocUnit p + l ≤ p.off + p.len
    omega

/-- What `allocate_int` does where sizes fit in 32 bits: it finds nothing, or takes one piece of
at most the wanted size out of the free space, if that much was reserved. -/
theorem allocateInt_spec {a : StupidAllocator} (small hint : ℕ) (hok : BinsOK a.free)
    (hfree : a.numFree = (space a.free).card) (hlt : (space a.free).card < 2 ^ 63)
    (hwant : 0 < wantSize) (hunit : 0 < allocUnit) (hfits : max allocUnit wantSize < 2 ^ 32) :
    allocateInt conf small wantSize allocUnit hint a = some none ∨
    ∃ piece free', 0 < piece.length ∧ piece.length ≤ max allocUnit wantSize ∧
      piece.bytes ⊆ space a.free ∧ BinsOK free' ∧ space free' = space a.free \ piece.bytes ∧
      allocateInt conf small wantSize allocUnit hint a =
        (assert (0 ≤ s64 (a.numReserved - piece.length))).map fun _ =>
          some (⟨a.numFree - piece.length, s64 (a.numReserved - piece.length), free',
            piece.offset + piece.length⟩, piece) := by
  rw [allocateInt, if_neg (by omega)]
  cases hsearch : searchFree conf wantSize allocUnit (if hint = 0 then a.lastAlloc else hint)
      a.free with
  | none => exact .inl rfl
  | some found =>
    obtain ⟨bin, p⟩ := found
    obtain ⟨hp, hskew⟩ := searchFree_eq_some hwant hunit hsearch
    obtain ⟨hpos, hle, hsub⟩ := pieceOf_spec small hwant hfits hskew
    have hsub' := hsub.trans (Ico_subset_bytes hp)
    obtain ⟨free', hok', hspace', heq⟩ := carve_eq conf bin p hok hfree hlt hpos hsub'
    refine .inr ⟨_, free', hpos, hle, hsub'.trans (bytes_subset_space bin), hok', hspace', ?_⟩
    simp only [heq, Option.map_map]
    rfl

end Ceph.Os
