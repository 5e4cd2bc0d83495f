import Ceph.Os.StupidAllocator

/-!
# Accounting for free space

What holds of the allocator after any sequence of calls.  `Reachable` says which sequences are
meant: space is added where it was neither free nor allocated, what is released was allocated,
and the sizes asked for fit in the 32 bits of an extent.

* `allocateLoop_spec` — the pieces of an allocation, put together.
* `reachable_accounts` — no byte is free twice, and `num_free` counts the free bytes.
* `allocation_exact` — what every allocation returns.
* `allocation_length_lost` — with larger sizes the lengths are not those of the pieces.
-/

namespace Ceph.Os

open IntervalMap IntervalSet Finset Option StupidAllocator Function

/-! ## Extents -/

/-- The bytes of some extents. -/
def extentBytes : List AllocExtent → Finset ℕ
  | [] => ∅
  | e :: extents => e.bytes ∪ extentBytes extents

@[simp] theorem extentBytes_nil : extentBytes [] = ∅ := rfl

theorem extentBytes_append (extents extents' : List AllocExtent) :
    extentBytes (extents ++ extents') = extentBytes extents ∪ extentBytes extents' := by
  induction extents with
  | nil => simp
  | cons e extents ih => rw [List.cons_append, extentBytes, extentBytes, ih, union_assoc]

variable {extents : List AllocExtent}

theorem bytes_subset_extentBytes {e : AllocExtent} (he : e ∈ extents) :
    e.bytes ⊆ extentBytes extents := by
  induction extents with
  | nil => cases he
  | cons e' extents ih =>
    rcases List.mem_cons.1 he with rfl | he
    · exact subset_union_left
    · exact (ih he).trans subset_union_right

/-- Disjoint extents, none empty and of bounded length, of `allocated` bytes in all. -/
structure Apportion (allocated bound : ℕ) (extents : List AllocExtent) : Prop where
  disjoint : extents.Pairwise fun e e' => Disjoint e.bytes e'.bytes
  total : (extents.map AllocExtent.length).sum = allocated
  bounded : ∀ e ∈ extents, 0 < e.length ∧ e.length ≤ bound

variable {allocated : ℕ} {bound : ℕ}

/-- One more piece is added, possibly to the last extent. -/
theorem Apportion.add (h : Apportion allocated bound extents) {piece : AllocExtent} {maxBlocks : ℤ}
    (hdisj : Disjoint (extentBytes extents) piece.bytes)
    (hpiece : 0 < piece.length ∧ piece.length ≤ bound)
    (hmerge : ∀ n, n ≤ allocated + piece.length → maxBlocks = 0 ∨ (n : ℤ) ≤ maxBlocks →
      n < 2 ^ 32 ∧ n ≤ bound) :
    Apportion (allocated + piece.length) bound (addExtents maxBlocks piece extents) ∧
      extentBytes (addExtents maxBlocks piece extents) = extentBytes extents ∪ piece.bytes := by
  rcases extents.eq_nil_or_concat with rfl | ⟨init, last, rfl⟩
  · obtain ⟨-, rfl, -⟩ := h
    refine ⟨⟨List.pairwise_singleton .., ?_, ?_⟩, ?_⟩
    · simp [addExtents]
    · simpa [addExtents] using hpiece
    · simp [addExtents, extentBytes]
  · rw [List.concat_eq_append] at h hdisj ⊢
    have hlast : last.length ≤ allocated := by
      rw [← h.total]
      simp
    rw [addExtents, List.getLast?_concat]
    simp only [List.dropLast_concat]
    have hinit : init.Pairwise fun e e' => Disjoint e.bytes e'.bytes :=
      (List.pairwise_append.1 h.disjoint).1
    have hinitLast : ∀ e ∈ init, Disjoint e.bytes last.bytes := fun e he =>
      (List.pairwise_append.1 h.disjoint).2.2 e he last (List.mem_singleton_self _)
    have hnew : ∀ e ∈ init ++ [last], Disjoint e.bytes piece.bytes := fun e he =>
      disjoint_of_subset_left (bytes_subset_extentBytes he) hdisj
    split
    next hc =>
      obtain ⟨hend, hmax⟩ := hc
      obtain ⟨hlt, hle⟩ := hmerge _ (by omega) hmax
      rw [u32_of_lt hlt]
      have hjoin : AllocExtent.bytes ⟨last.offset, last.length + piece.length⟩ =
          last.bytes ∪ piece.bytes := by
        simp only [AllocExtent.bytes]
        rw [← hend, Finset.Ico_union_Ico_eq_Ico (by omega) (by omega), Nat.add_assoc]
      refine ⟨⟨List.pairwise_append.2 ⟨hinit, List.pairwise_singleton .., fun e he e' he' => ?_⟩,
        ?_, fun e he => ?_⟩, ?_⟩
      · obtain rfl := List.mem_singleton.1 he'
        rw [hjoin, disjoint_union_right]
        exact ⟨hinitLast e he, hnew e (List.mem_append_left _ he)⟩
      · rw [← h.total]
        simp [Nat.add_assoc]
      · rcases List.mem_append.1 he with he | he
        · exact h.bounded e (List.mem_append_left _ he)
        · rw [List.mem_singleton.1 he]
          exact ⟨by simp only; omega, hle⟩
      · rw [extentBytes_append, extentBytes_append, extentBytes, hjoin]
        simp only [extentBytes, union_empty, union_assoc]
    next hc =>
      refine ⟨⟨List.pairwise_append.2 ⟨h.disjoint, List.pairwise_singleton ..,
        fun e he e' he' => ?_⟩, ?_, fun e he => ?_⟩, ?_⟩
      · obtain rfl := List.mem_singleton.1 he'
        exact hnew e he
      · rw [← h.total]
        simp [Nat.add_assoc]
      · rcases List.mem_append.1 he with he | he
        · exact h.bounded e he
        · rwa [List.mem_singleton.1 he]
      · rw [extentBytes_append _ [piece]]
        simp [extentBytes]

/-! ## An allocation -/

/-- The largest extent that `allocate` makes. -/
def effectiveMax (wantSize maxAllocSize : ℕ) : ℕ :=
  if maxAllocSize = 0 then wantSize else maxAllocSize

/-- The sizes asked for fit in the 32 bits that an extent has for its length. -/
structure SizesFit (wantSize allocUnit maxAllocSize : ℕ) : Prop where
  unit_pos : 0 < allocUnit
  fits : allocUnit + wantSize ≤ 2 ^ 32 ∨
    allocUnit < 2 ^ 32 ∧ effectiveMax wantSize maxAllocSize < 2 ^ 32

/-- What has been allocated since the state `a`. -/
structure Taken (a : StupidAllocator) (bound allocated : ℕ) (extents : List AllocExtent)
    (a' : StupidAllocator) : Prop where
  ok : BinsOK a'.free
  count : a'.numFree = (space a'.free).card
  apportion : Apportion allocated bound extents
  wasFree : extentBytes extents ⊆ space a.free
  space : space a'.free = space a.free \ extentBytes extents
  reserved : a'.numReserved < 2 ^ 63

theorem s64_lt (n : ℤ) : s64 n < 2 ^ 63 := by
  rw [s64, Int.bmod_def]
  omega

theorem le_s64 {n : ℤ} (h : n < 2 ^ 63) : n ≤ s64 n := by
  rw [s64, Int.bmod_def]
  omega

variable {conf : AllocConf} {a a' : StupidAllocator} {wantSize allocUnit maxAllocSize : ℕ}

theorem Taken.step
    (h : Taken a bound allocated extents a') {piece : AllocExtent} {free : Bins} {maxBlocks : ℤ}
    (hsub : piece.bytes ⊆ Os.space a'.free) (hok : BinsOK free)
    (hspace : Os.space free = Os.space a'.free \ piece.bytes)
    (hpiece : 0 < piece.length ∧ piece.length ≤ bound)
    (hmerge : ∀ n, n ≤ allocated + piece.length → maxBlocks = 0 ∨ (n : ℤ) ≤ maxBlocks →
      n < 2 ^ 32 ∧ n ≤ bound) :
    Taken a bound (allocated + piece.length) (addExtents maxBlocks piece extents)
      ⟨a'.numFree - piece.length, s64 (a'.numReserved - piece.length), free,
        piece.offset + piece.length⟩ := by
  have hdisj : Disjoint (extentBytes extents) piece.bytes := by
    rw [h.space] at hsub
    exact (disjoint_of_subset_left hsub sdiff_disjoint).symm
  obtain ⟨happ, hbytes⟩ := h.apportion.add hdisj hpiece hmerge
  have hcard : (Os.space free).card = (Os.space a'.free).card - piece.length := by
    rw [hspace, card_sdiff_of_subset hsub, AllocExtent.bytes, Nat.card_Ico, Nat.add_sub_cancel_left]
  have hle : piece.length ≤ (Os.space a'.free).card := by
    have := card_le_card hsub
    rwa [AllocExtent.bytes, Nat.card_Ico, Nat.add_sub_cancel_left] at this
  refine ⟨hok, ?_, happ, ?_, ?_, s64_lt _⟩
  · have := h.count
    change a'.numFree - piece.length = ((Os.space free).card : ℤ)
    omega
  · rw [hbytes]
    exact union_subset h.wasFree (hsub.trans (h.space ▸ sdiff_subset))
  · rw [hbytes, hspace, h.space]
    exact sdiff_sdiff ..

/-- What is asked for in one round. -/
theorem SizesFit.piece_lt (hsizes : SizesFit wantSize allocUnit maxAllocSize)
    (h : allocated < wantSize) :
    0 < min (effectiveMax wantSize maxAllocSize) (wantSize - allocated) ∧
      max allocUnit (min (effectiveMax wantSize maxAllocSize) (wantSize - allocated)) < 2 ^ 32 := by
  obtain ⟨hunit, hfits⟩ := hsizes
  have hpos : 0 < effectiveMax wantSize maxAllocSize := by
    rw [effectiveMax]
    split <;> omega
  omega

/-- An extent that `add_extents` makes longer stays in bounds. -/
theorem SizesFit.merge_le (hsizes : SizesFit wantSize allocUnit maxAllocSize) {n : ℕ}
    (hwant : 0 < wantSize) (hn : n < wantSize + allocUnit)
    (hmax : s64 (effectiveMax wantSize maxAllocSize) = 0 ∨
      (n : ℤ) ≤ s64 (effectiveMax wantSize maxAllocSize)) :
    n < 2 ^ 32 ∧ n ≤ max allocUnit (effectiveMax wantSize maxAllocSize) := by
  obtain ⟨-, hfits⟩ := hsizes
  have hpos : 0 < effectiveMax wantSize maxAllocSize := by
    rw [effectiveMax]
    split <;> omega
  generalize effectiveMax wantSize maxAllocSize = M at *
  rcases Nat.lt_or_ge M (2 ^ 32) with hM | hM
  · rw [s64_eq (by omega) (by omega)] at hmax
    omega
  · omega

variable (conf) in
theorem allocateLoop_spec (small : ℕ → ℕ) {fuel : ℕ} (hint : ℕ)
    (hsizes : SizesFit wantSize allocUnit maxAllocSize) (hfuel : wantSize ≤ fuel + allocated)
    (hlt : (space a.free).card < 2 ^ 63) (htotal : allocated < wantSize + allocUnit)
    (h : Taken a (max allocUnit (effectiveMax wantSize maxAllocSize)) allocated extents a') :
    (∃ a'' allocated' extents', allocateLoop conf small wantSize allocUnit
        (effectiveMax wantSize maxAllocSize) fuel allocated hint extents a' =
          some (a'', allocated', extents') ∧
      Taken a (max allocUnit (effectiveMax wantSize maxAllocSize)) allocated' extents' a'') ∨
    (allocateLoop conf small wantSize allocUnit (effectiveMax wantSize maxAllocSize) fuel
        allocated hint extents a' = none ∧ a'.numReserved + allocated < wantSize + allocUnit) := by
  induction fuel generalizing a' allocated hint extents with
  | zero => exact .inl ⟨a', allocated, extents, if_pos (by omega), h⟩
  | succ fuel ih =>
    rw [allocateLoop]
    by_cases hdone : wantSize ≤ allocated
    · exact .inl ⟨a', allocated, extents, if_pos hdone, h⟩
    rw [if_neg hdone]
    have hreserved := h.reserved
    have hunit := hsizes.unit_pos
    have hlt' : (space a'.free).card < 2 ^ 63 :=
      (card_le_card (h.space ▸ sdiff_subset)).trans_lt hlt
    obtain ⟨hwant, hfits⟩ := hsizes.piece_lt (show allocated < wantSize by omega)
    rcases allocateInt_spec (small fuel) hint h.ok h.count hlt' hwant hunit hfits with
      hnone | ⟨piece, free, hpos, hle, hsub, hok, hspace, heq⟩
    · rw [hnone]
      exact .inl ⟨a', allocated, extents, rfl, h⟩
    have hgrow : allocated + piece.length < wantSize + allocUnit := by omega
    rw [heq]
    by_cases hassert : 0 ≤ s64 (a'.numReserved - piece.length)
    · rw [assert, if_pos hassert]
      have hstep := h.step hsub hok hspace ⟨hpos, by omega⟩ fun n hn =>
        hsizes.merge_le (by omega) (show n < wantSize + allocUnit by omega)
      refine (ih _ (by omega) hgrow hstep).imp_right fun hn => ⟨hn.1, ?_⟩
      have hle := le_s64 (show a'.numReserved - piece.length < 2 ^ 63 by omega)
      have hlt : s64 (a'.numReserved - piece.length) + ((allocated + piece.length : ℕ) : ℤ) <
        wantSize + allocUnit := hn.2
      omega
    · right
      rw [assert, if_neg hassert]
      refine ⟨rfl, ?_⟩
      by_contra hge
      rw [s64_eq (by omega) (by omega)] at hassert
      omega

/-! ## The state after any calls -/

/-- No byte is free twice or both free and allocated, and the free bytes are counted. -/
structure Accounts (a : StupidAllocator) (owned : Finset ℕ) : Prop where
  ok : BinsOK a.free
  count : a.numFree = (space a.free).card
  apart : Disjoint (space a.free) owned
  bound : space a.free ∪ owned ⊆ range (2 ^ 63 - 1)
  reserved : a.numReserved < 2 ^ 63

variable {owned : Finset ℕ} {offset length : ℕ}

theorem Accounts.card_lt (h : Accounts a owned) : (space a.free).card < 2 ^ 63 := by
  have := card_le_card (subset_union_left.trans h.bound)
  rw [card_range] at this
  omega

theorem Accounts.new : Accounts new ∅ := by
  refine ⟨BinsOK.empty, ?_, ?_, ?_, ?_⟩
  · simp [StupidAllocator.new]
  · simp
  · simp [StupidAllocator.new]
  · simp [StupidAllocator.new]

variable (conf) in
theorem Accounts.addFree (h : Accounts a owned) (hlen : 0 < length)
    (hbound : offset + length < 2 ^ 63)
    (hdisj : Disjoint (Ico offset (offset + length)) (space a.free)) :
    ∃ free, addFree conf offset length a =
        some { a with free, numFree := a.numFree + length } ∧ BinsOK free ∧
      space free = Ico offset (offset + length) ∪ space a.free ∧
      a.numFree + length = (space free).card := by
  obtain ⟨free, hins, hok, hspace⟩ := insertFree_spec conf h.ok hlen hdisj
  have hcard : (space free).card = length + (space a.free).card := by
    rw [hspace, card_union_of_disjoint hdisj, Nat.card_Ico, Nat.add_sub_cancel_left]
  have hle : (space free).card < 2 ^ 63 := by
    have hsub : space free ⊆ range (2 ^ 63 - 1) := by
      rw [hspace]
      refine union_subset (fun x hx => ?_) (subset_union_left.trans h.bound)
      have := (mem_Ico.1 hx).2
      rw [mem_range]
      omega
    have := card_le_card hsub
    rw [card_range] at this
    omega
  have hcount := h.count
  refine ⟨free, ?_, hok, hspace, by omega⟩
  simp only [Os.addFree, hins, bind_eq_bind, bind_some, Option.pure_def]
  rw [s64_eq (by omega) (by omega)]

/-- One round of `init_rm_free` takes out of a bin what is to be removed. -/
theorem rmFreeStep_spec {rm : IntervalSet} (free : Bins) (i : Fin 10) (hrm : WF lengths 1 rm)
    (hfree : WF lengths 1 (free i)) :
    ∃ rm' s, rmFreeStep (rm, free) i = some (rm', update free i s) ∧ WF lengths 1 rm' ∧
      WF lengths 1 s ∧ bytes rm' = bytes rm \ bytes (free i) ∧
      bytes s = bytes (free i) \ bytes rm := by
  by_cases hempty : rm = []
  · refine ⟨rm, free i, ?_, hrm, hfree, ?_, ?_⟩
    · rw [update_eq_self]
      exact if_pos hempty
    · simp [hempty]
    · simp [hempty]
  obtain ⟨overlap, hinter, hwf, hbytes⟩ := intersectionOf_bytes hrm hfree
  by_cases hnone : overlap = []
  · have hdisj : Disjoint (bytes rm) (bytes (free i)) := by
      rw [disjoint_iff_inter_eq_empty, ← hbytes, hnone]
      rfl
    refine ⟨rm, free i, ?_, hrm, hfree, ?_, ?_⟩
    · rw [update_eq_self]
      simp only [rmFreeStep, if_neg hempty, hinter, bind_eq_bind, bind_some]
      exact if_pos hnone
    · rw [sdiff_eq_self_of_disjoint hdisj]
    · rw [sdiff_eq_self_of_disjoint hdisj.symm]
  obtain ⟨s, hs, hwfs, hbytess⟩ := subtract_bytes hfree hwf (hbytes ▸ inter_subset_right)
  obtain ⟨rm', hrm', hwfrm, hbytesrm⟩ := subtract_bytes hrm hwf (hbytes ▸ inter_subset_left)
  refine ⟨rm', s, ?_, hwfrm, hwfs, ?_, ?_⟩
  · simp only [rmFreeStep, if_neg hempty, hinter, bind_eq_bind, bind_some,
      if_neg hnone, hs, hrm', Option.pure_def]
  · rw [hbytesrm, hbytes, sdiff_inter_self_left]
  · rw [hbytess, hbytes, sdiff_inter_self_right]

/-- All rounds: the bins lose what is to be removed, and what no bin had is left. -/
theorem rmFree_spec {rm : IntervalSet} {free : Bins} (hrm : WF lengths 1 rm) (hok : BinsOK free) :
    ∃ rm' free', (List.finRange 10).foldlM rmFreeStep (rm, free) = some (rm', free') ∧
      WF lengths 1 rm' ∧ bytes rm' = bytes rm \ space free ∧
      ∀ i, WF lengths 1 (free' i) ∧ bytes (free' i) = bytes (free i) \ bytes rm := by
  obtain ⟨⟨rm', free'⟩, hloop, hwf, hleft, hbins, -⟩ := Loop.foldlM_invariant
    (fun pre (st : IntervalSet × Bins) => WF lengths 1 st.1 ∧
      (∀ x, x ∈ bytes st.1 ↔ x ∈ bytes rm ∧ ∀ i ∈ pre, x ∉ bytes (free i)) ∧
      (∀ i ∈ pre, WF lengths 1 (st.2 i) ∧ bytes (st.2 i) = bytes (free i) \ bytes rm) ∧
      ∀ i ∉ pre, st.2 i = free i)
    (l := List.finRange 10) (b := (rm, free)) ⟨hrm, by simp, by simp, fun _ _ => rfl⟩ (by
      rintro pre i post ⟨rm', free'⟩ hsplit ⟨hwf, hleft, hbins, hsame⟩
      have hnot : i ∉ pre := by
        have hnodup := List.nodup_finRange 10
        rw [hsplit] at hnodup
        exact fun hi => (List.nodup_append.1 hnodup).2.2 i hi i List.mem_cons_self rfl
      have hbin : free' i = free i := hsame i hnot
      obtain ⟨rm'', s, hstep, hwfrm, hwfs, hbytesrm, hbytess⟩ :=
        rmFreeStep_spec free' i hwf (hbin ▸ hok.wf i)
      rw [hbin] at hbytesrm hbytess
      refine ⟨_, hstep, hwfrm, fun x => ?_, fun j hj => ?_, fun j hj => ?_⟩
      · simp only [hbytesrm, mem_sdiff, hleft, List.forall_mem_append, List.forall_mem_singleton,
          and_assoc]
      · by_cases heq : j = i
        · subst heq
          simp only [update_self]
          refine ⟨hwfs, hbytess.trans (Finset.ext fun x => ?_)⟩
          -- no other bin has the bytes of this one
          have hother : x ∈ bytes (free j) → ∀ k ∈ pre, x ∉ bytes (free k) := fun hx k hk hx' =>
            disjoint_left.1 (hok.disjoint k j fun h => hnot (h ▸ hk)) hx' hx
          simp only [mem_sdiff, hleft]
          tauto
        · simp only [update_of_ne heq]
          exact hbins j (by simpa [heq] using hj)
      · rw [List.mem_append, not_or, List.mem_singleton] at hj
        exact (update_of_ne hj.2 ..).trans (hsame j hj.1))
  refine ⟨rm', free', hloop, hwf, Finset.ext fun x => ?_, fun i => hbins i (List.mem_finRange i)⟩
  simp [hleft, mem_space]

variable (offset) in
/-- Free bytes can be removed, and only those; every bin keeps the others that it had. -/
theorem Accounts.initRmFree_gives (h : Accounts a owned) (hlen : 0 < length) :
    Gives (Ico offset (offset + length) ⊆ space a.free)
      (fun a' : StupidAllocator => BinsOK a'.free ∧
      space a'.free = space a.free \ Ico offset (offset + length) ∧
      a'.numFree = (space a'.free).card ∧ a'.numReserved = a.numReserved ∧
      ∀ i, bytes (a'.free i) ⊆ bytes (a.free i)) (initRmFree offset length a) := by
  have hnew : Disjoint (Ico offset (offset + length)) (bytes []) := disjoint_empty_right _
  obtain ⟨rm, hrm, hwf, hbytes⟩ := insertNew_bytes (WF.nil 1) hlen hnew
  rw [bytes_nil, union_empty] at hbytes
  obtain ⟨rm', free, hloop, hwf', hleft, hbins⟩ := rmFree_spec hwf h.ok
  rw [hbytes] at hleft hbins
  simp only [Os.initRmFree, hrm, hloop, bind_eq_bind, bind_some]
  refine Gives.bind (f := fun _ => (_ : Option _)) (.assert fun hsub => ?_) fun _ hnone => ?_
  · cases rm' with
    | nil => rfl
    | cons e s =>
      have hmem : e.off ∈ bytes (e :: s) := mem_bytes.2 (hwf'.covered_off List.mem_cons_self)
      rw [hleft, sdiff_eq_empty_iff_subset.2 hsub] at hmem
      exact absurd hmem (notMem_empty _)
  rw [hnone] at hleft
  have hsub := sdiff_eq_empty_iff_subset.1 hleft.symm
  have hspace : space free = space a.free \ Ico offset (offset + length) := by
    ext x
    simp only [mem_space, mem_sdiff, (hbins _).2, exists_and_right]
  have hle := card_le_card hsub
  have hcard := card_sdiff_of_subset hsub
  rw [← hspace, Nat.card_Ico] at hcard
  rw [Nat.card_Ico] at hle
  have hcount := h.count
  have hlt := h.card_lt
  have hnum : s64 (a.numFree - length) = ((space free).card : ℤ) := by
    rw [s64_eq (by omega) (by omega)]
    omega
  refine Gives.bind (f := fun _ => some _)
    (.assert fun _ => by rw [hnum]; exact Int.natCast_nonneg _) fun _ _ => .some
    ⟨⟨fun i => (hbins i).1, fun i j hne => ?_⟩, hspace, hnum, rfl,
      fun i => (hbins i).2 ▸ sdiff_subset⟩
  rw [(hbins i).2, (hbins j).2]
  exact disjoint_of_subset_left sdiff_subset
    (disjoint_of_subset_right sdiff_subset (h.ok.disjoint i j hne))

variable (conf) in
theorem Accounts.allocate (h : Accounts a owned) (small : ℕ → ℕ) (hint : BitVec 64)
    (hsizes : SizesFit wantSize allocUnit maxAllocSize) :
    (∃ a', ∃ allocated : ℕ, ∃ extents, allocate conf small wantSize allocUnit maxAllocSize hint a =
        some (a', if allocated = 0 then -enospc else allocated, extents) ∧
      Taken a (max allocUnit (effectiveMax wantSize maxAllocSize)) allocated extents a') ∨
    (allocate conf small wantSize allocUnit maxAllocSize hint a = none ∧
      a.numReserved < wantSize + allocUnit) := by
  have hstart : Taken a (max allocUnit (effectiveMax wantSize maxAllocSize)) 0 [] a :=
    ⟨h.ok, h.count, ⟨List.Pairwise.nil, rfl, by simp⟩, by simp, by simp, h.reserved⟩
  have hunit := hsizes.unit_pos
  rcases allocateLoop_spec conf small hint.toNat hsizes (show wantSize ≤ wantSize + 0 from le_rfl)
    h.card_lt (by omega) hstart with ⟨a', allocated, extents, heq, htaken⟩ | ⟨heq, hlt⟩
  · refine .inl ⟨a', allocated, extents, ?_, htaken⟩
    change (allocateLoop conf small wantSize allocUnit (effectiveMax wantSize maxAllocSize) wantSize
      0 hint.toNat [] a >>= _) = _
    rw [heq]
    rfl
  · refine .inr ⟨?_, by simpa using hlt⟩
    change (allocateLoop conf small wantSize allocUnit (effectiveMax wantSize maxAllocSize) wantSize
      0 hint.toNat [] a >>= _) = _
    rw [heq]
    rfl

/-- What calls can lead to, with the bytes that are allocated: space is added where it was
neither free nor allocated, what is released was allocated, and the sizes asked for fit. -/
inductive Reachable (conf : AllocConf) : StupidAllocator → Finset ℕ → Prop
  | new : Reachable conf new ∅
  | initAddFree {a a' : StupidAllocator} {owned : Finset ℕ} {offset length : ℕ} :
      Reachable conf a owned → 0 < length →
      offset + length < 2 ^ 63 → Disjoint (Ico offset (offset + length)) (space a.free ∪ owned) →
      initAddFree conf offset length a = some a' → Reachable conf a' owned
  | initRmFree {a a' : StupidAllocator} {owned : Finset ℕ} {offset length : ℕ} :
      Reachable conf a owned → 0 < length →
      initRmFree offset length a = some a' → Reachable conf a' owned
  | reserve {a : StupidAllocator} {owned : Finset ℕ} (need : ℕ) : Reachable conf a owned →
      Reachable conf (reserve need a).1 owned
  | unreserve {a a' : StupidAllocator} {owned : Finset ℕ} {unused : ℕ} :
      Reachable conf a owned → unreserve unused a = some a' → Reachable conf a' owned
  | allocate {a a' : StupidAllocator} {owned : Finset ℕ} {small : ℕ → ℕ}
      {wantSize allocUnit maxAllocSize : ℕ} {hint : BitVec 64} {result : ℤ}
      {extents : List AllocExtent} :
      Reachable conf a owned → SizesFit wantSize allocUnit maxAllocSize →
      allocate conf small wantSize allocUnit maxAllocSize hint a = some (a', result, extents) →
      Reachable conf a' (owned ∪ extentBytes extents)
  | release {a a' : StupidAllocator} {owned : Finset ℕ} {offset length : ℕ} :
      Reachable conf a owned → 0 < length →
      Ico offset (offset + length) ⊆ owned → release conf offset length a = some a' →
      Reachable conf a' (owned \ Ico offset (offset + length))

theorem reachable_accounts (h : Reachable conf a owned) : Accounts a owned := by
  induction h with
  | new => exact Accounts.new
  | initAddFree _ hlen hbound hdisj heq ih =>
    obtain ⟨hfree, howned⟩ := disjoint_union_right.1 hdisj
    obtain ⟨free, hadd, hok, hspace, hcount⟩ := ih.addFree conf hlen hbound hfree
    obtain rfl := some.inj (hadd.symm.trans heq)
    refine ⟨hok, hcount, ?_, ?_, ih.reserved⟩
    · exact hspace ▸ disjoint_union_left.2 ⟨howned, ih.apart⟩
    · rw [hspace, union_assoc]
      refine union_subset (fun x hx => ?_) ih.bound
      have := (mem_Ico.1 hx).2
      rw [mem_range]
      omega
  | initRmFree _ hlen heq ih =>
    obtain ⟨hok, hspace, hcount, hreserved, -⟩ := (ih.initRmFree_gives _ hlen).2 _ heq
    refine ⟨hok, hcount, ?_, ?_, hreserved ▸ ih.reserved⟩
    · exact disjoint_of_subset_left (hspace ▸ sdiff_subset) ih.apart
    · exact (union_subset_union_left (hspace ▸ sdiff_subset)).trans ih.bound
  | reserve need _ ih =>
    rw [Os.reserve]
    split
    · exact ih
    · exact ⟨ih.ok, ih.count, ih.apart, ih.bound, s64_lt _⟩
  | unreserve _ heq ih =>
    obtain ⟨-, heq⟩ := of_assert heq
    cases heq
    exact ⟨ih.ok, ih.count, ih.apart, ih.bound, s64_lt _⟩
  | @allocate a _ owned _ _ _ _ _ _ _ _ hsizes heq ih =>
    rcases ih.allocate conf _ _ hsizes with
      ⟨a', allocated, extents, hres, htaken⟩ | ⟨hnone, -⟩
    · obtain ⟨rfl, -, rfl⟩ : _ ∧ _ ∧ _ := by simpa using hres.symm.trans heq
      refine ⟨htaken.ok, htaken.count, ?_, ?_, htaken.reserved⟩
      · rw [htaken.space, disjoint_union_right]
        exact ⟨disjoint_of_subset_left sdiff_subset ih.apart, sdiff_disjoint⟩
      · refine Finset.Subset.trans ?_ ih.bound
        rw [htaken.space]
        intro x hx
        have := @htaken.wasFree x
        simp only [mem_union, mem_sdiff] at hx ⊢
        tauto
    · simp [hnone] at heq
  | @release a _ owned offset length _ hlen hsub heq ih =>
    have hbound : offset + length < 2 ^ 63 := by
      have := mem_range.1 (ih.bound (mem_union_right _
        (hsub (mem_Ico.2 ⟨show offset ≤ offset + length - 1 by omega, by omega⟩))))
      omega
    have hfree := disjoint_of_subset_left hsub ih.apart.symm
    obtain ⟨free, hadd, hok, hspace, hcount⟩ := ih.addFree conf hlen hbound hfree
    obtain rfl := some.inj (hadd.symm.trans heq)
    refine ⟨hok, hcount, ?_, ?_, ih.reserved⟩
    · rw [show space _ = _ from hspace, disjoint_union_left]
      exact ⟨disjoint_sdiff, disjoint_of_subset_right sdiff_subset ih.apart⟩
    · refine Finset.Subset.trans ?_ ih.bound
      rw [show space _ = _ from hspace]
      intro x hx
      simp only [mem_union, mem_sdiff] at hx ⊢
      tauto

/-! ## Allocations -/

/-- What an allocation that found space returns: disjoint extents that were free and are not
free any more, of the length that is reported, and none longer than allowed. -/
structure Carved (a a' : StupidAllocator) (allocUnit maxAllocSize : ℕ) (result : ℤ)
    (extents : List AllocExtent) : Prop where
  disjoint : extents.Pairwise fun e e' => Disjoint e.bytes e'.bytes
  wasFree : extentBytes extents ⊆ space a.free
  total : ((extents.map AllocExtent.length).sum : ℤ) = result
  space : space a'.free = space a.free \ extentBytes extents
  bounded : maxAllocSize ≠ 0 → allocUnit ∣ maxAllocSize → ∀ e ∈ extents, e.length ≤ maxAllocSize

theorem Taken.carved
    (h : Taken a (max allocUnit (effectiveMax wantSize maxAllocSize)) allocated extents a') :
    Carved a a' allocUnit maxAllocSize allocated extents := by
  refine ⟨h.apportion.disjoint, h.wasFree, congrArg _ h.apportion.total, h.space, ?_⟩
  intro hmax hdvd e he
  have hle := (h.apportion.bounded e he).2
  have hunit := Nat.le_of_dvd (Nat.pos_of_ne_zero hmax) hdvd
  rw [effectiveMax, if_neg hmax] at hle
  omega

theorem Taken.nothing (h : Taken a bound 0 extents a') : extents = [] := by
  cases extents with
  | nil => rfl
  | cons e extents =>
    have hpos := (h.apportion.bounded e List.mem_cons_self).1
    have htotal := h.apportion.total
    simp only [List.map_cons, List.sum_cons] at htotal
    omega

/-- **Free space is accounted for exactly.**  After any calls no byte is free twice and
`num_free` is the size of the bins.  An allocation returns if enough was reserved for it, and
takes out of the free space exactly the extents that it returns. -/
theorem allocation_exact (h : Reachable conf a owned) :
    (∀ i j, i ≠ j → Disjoint (bytes (a.free i)) (bytes (a.free j))) ∧
    a.numFree = (∑ i, total (a.free i) : ℕ) ∧
    ∀ small wantSize allocUnit maxAllocSize hint, SizesFit wantSize allocUnit maxAllocSize →
      (wantSize + allocUnit ≤ a.numReserved →
        ∃ r, allocate conf small wantSize allocUnit maxAllocSize hint a = some r) ∧
      ∀ a' result extents,
        allocate conf small wantSize allocUnit maxAllocSize hint a = some (a', result, extents) →
        result = -enospc ∧ extents = [] ∧ space a'.free = space a.free ∨
          0 < result ∧ Carved a a' allocUnit maxAllocSize result extents := by
  have haccounts := reachable_accounts h
  refine ⟨haccounts.ok.disjoint, haccounts.count.trans (by rw [haccounts.ok.card_space]), ?_⟩
  intro small wantSize allocUnit maxAllocSize hint hsizes
  rcases haccounts.allocate conf small hint hsizes with
    ⟨a₁, allocated, extents₁, heq, htaken⟩ | ⟨hnone, hlt⟩
  · refine ⟨fun _ => ⟨_, heq⟩, fun a' result extents hres => ?_⟩
    obtain ⟨rfl, rfl, rfl⟩ : _ ∧ _ ∧ _ := by simpa using heq.symm.trans hres
    by_cases hzero : allocated = 0
    · subst hzero
      obtain rfl := htaken.nothing
      exact .inl ⟨rfl, rfl, by simpa using htaken.space⟩
    · rw [if_neg hzero]
      exact .inr ⟨by omega, htaken.carved⟩
  · refine ⟨fun hge => absurd hlt (not_lt.2 hge), fun a' result extents hres => ?_⟩
    simp [hnone] at hres

/-- Blocks of four kilobytes. -/
def blockConf : AllocConf := ⟨4096, by decide⟩

/-- Space can be added after the last free byte. -/
theorem exists_extended (offset : ℕ) (h : Reachable conf a ∅) (hlen : 0 < length)
    (hbound : offset + length < 2 ^ 63) (hlast : ∀ x ∈ space a.free, x < offset) :
    ∃ a', initAddFree conf offset length a = some a' ∧ Reachable conf a' ∅ ∧
      ∀ x ∈ space a'.free, x < offset + length := by
  have hdisj : Disjoint (Ico offset (offset + length)) (space a.free) := by
    rw [disjoint_left]
    intro x hx hfree
    have hge := (mem_Ico.1 hx).1
    have hlt := hlast x hfree
    omega
  obtain ⟨free, hadd, -, hspace, -⟩ := (reachable_accounts h).addFree conf hlen hbound hdisj
  refine ⟨_, hadd, h.initAddFree hlen hbound (by rwa [union_empty]) hadd, ?_⟩
  intro x hx
  rcases mem_union.1 (hspace ▸ hx) with hx | hx
  · exact (mem_Ico.1 hx).2
  · exact (hlast x hx).trans_le (Nat.le_add_right ..)

/-- A megabyte is added, some of it reserved, two pages are allocated one at a time, and the first
of them is released. -/
theorem allocation_exact_megabyte : ∃ a a' a'', Reachable blockConf a ∅ ∧
    a.numReserved = 16384 ∧
    allocate blockConf (fun _ => 0) 8192 4096 4096 0 a =
      some (a', 8192, [⟨0, 4096⟩, ⟨4096, 4096⟩]) ∧
    Carved a a' 4096 4096 8192 [⟨0, 4096⟩, ⟨4096, 4096⟩] ∧
    release blockConf 0 4096 a' = some a'' ∧
    (∀ i j, i ≠ j → Disjoint (bytes (a''.free i)) (bytes (a''.free j))) ∧
    a''.numFree = (∑ i, total (a''.free i) : ℕ) ∧ a''.numFree = 2 ^ 20 - 4096 := by
  obtain ⟨a₁, hadd, hreach₁, -⟩ := exists_extended 0 (@Reachable.new blockConf)
    (show 0 < 2 ^ 20 by decide) (by decide) (by simp [StupidAllocator.new])
  have hreach := hreach₁.reserve 16384
  have hrun : ((initAddFree blockConf 0 (2 ^ 20) new).bind fun a₁ =>
      (allocate blockConf (fun _ => 0) 8192 4096 4096 0 (reserve 16384 a₁).1).bind fun r =>
        (release blockConf 0 4096 r.1).map fun a'' =>
          ((reserve 16384 a₁).1.numReserved, r.2, a''.numFree)) =
      some (16384, (8192, [⟨0, 4096⟩, ⟨4096, 4096⟩]), 2 ^ 20 - 4096) := by decide +kernel
  rw [hadd, bind_some] at hrun
  obtain ⟨⟨a', r⟩, halloc, hrun⟩ := of_bind hrun
  obtain ⟨a'', hrelease, hvalues⟩ := of_map hrun
  obtain ⟨hreserved, rfl, hfree⟩ : _ ∧ _ ∧ _ := by simpa using hvalues
  have hsizes : SizesFit 8192 4096 4096 := ⟨by decide, .inl (by decide)⟩
  have hcarved := ((allocation_exact hreach).2.2 _ _ _ _ _ hsizes).2 _ _ _ halloc
  have hreach' := (hreach.allocate hsizes halloc).release (by decide)
    (by simp [extentBytes, AllocExtent.bytes]) hrelease
  obtain ⟨hdisjoint, hcount, -⟩ := allocation_exact hreach'
  exact ⟨_, a', a'', hreach, hreserved, halloc, (hcarved.resolve_left (by simp)).2, hrelease,
    hdisjoint, hcount, hfree⟩

/-- Runs of different sizes next to each other, all of them reserved. -/
def scattered : Option StupidAllocator := do
  let a ← initAddFree blockConf 0 (2 ^ 32 - 2 ^ 20) new
  let a ← initAddFree blockConf (2 ^ 32 - 2 ^ 20) (3 * 2 ^ 18) a
  let a ← initAddFree blockConf (2 ^ 32 - 2 ^ 18) (2 ^ 18) a
  return (reserve (2 ^ 32) a).1

theorem scattered_reachable : ∃ a, scattered = some a ∧ Reachable blockConf a ∅ := by
  obtain ⟨a₁, h₁, hr₁, hlt₁⟩ := exists_extended 0 (@Reachable.new blockConf)
    (show 0 < 2 ^ 32 - 2 ^ 20 by decide) (by decide) (by simp [new])
  obtain ⟨a₂, h₂, hr₂, hlt₂⟩ := exists_extended (2 ^ 32 - 2 ^ 20) hr₁
    (show 0 < 3 * 2 ^ 18 by decide) (by decide) hlt₁
  obtain ⟨a₃, h₃, hr₃, -⟩ := exists_extended (2 ^ 32 - 2 ^ 18) hr₂
    (show 0 < 2 ^ 18 by decide) (by decide) hlt₂
  refine ⟨_, ?_, hr₃.reserve (2 ^ 32)⟩
  simp only [scattered, h₁, h₂, h₃, bind_eq_bind, bind_some, Option.pure_def]

/-- **The length of a large extent is lost.**  Three pieces that lie next to each other make an
extent of `2 ^ 32` bytes, whose length is stored as zero. -/
theorem allocation_length_lost : ∃ a a', Reachable blockConf a ∅ ∧ a.numReserved = 2 ^ 32 ∧
    allocate blockConf (fun _ => 0) (2 ^ 32) 4096 0 0 a = some (a', 2 ^ 32, [⟨0, 0⟩]) ∧
    ¬ Carved a a' 4096 0 (2 ^ 32) [⟨0, 0⟩] := by
  obtain ⟨a, ha, hreach⟩ := scattered_reachable
  have hreserved : scattered.map StupidAllocator.numReserved = some (2 ^ 32) := by decide +kernel
  have hrun : (scattered.bind fun a =>
      (allocate blockConf (fun _ => 0) (2 ^ 32) 4096 0 0 a).map Prod.snd) =
        some (2 ^ 32, [⟨0, 0⟩]) := by decide +kernel
  rw [ha] at hreserved hrun
  obtain ⟨⟨a', r⟩, heq, rfl⟩ := of_map hrun
  refine ⟨a, a', hreach, some.inj hreserved, heq, fun h => ?_⟩
  have htotal := h.total
  simp at htotal

end Ceph.Os
