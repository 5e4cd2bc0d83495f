import Ceph.Os.StupidAllocatorRuns

/-!
# Alignment and exhaustion

Two questions about what the allocator hands out.

* `allocate_aligned_iff` — when the extents are whole allocation units, for instance if the free
  space ends on units.
* `unaligned_extent` — otherwise the end of a free run is handed out with its remainder.
* `finds_space_iff` — for which sizes a failed search means that there is no space.
* `space_overlooked` — a run in a bin above the one of the wanted size is overlooked.
-/

namespace Ceph.Os

open IntervalMap IntervalSet Finset Function Nat Option

/-! ## Whole units -/

/-- Every bin is an interval set whose runs end on multiples of `allocUnit`. -/
structure EndsOn (allocUnit : ℕ) (free : Bins) : Prop where
  wf : ∀ i, WF lengths 1 (free i)
  stop : ∀ i, ∀ p ∈ free i, allocUnit ∣ p.stop

/-- The extent is made of whole units. -/
def AllocExtent.Whole (allocUnit : ℕ) (e : AllocExtent) : Prop :=
  allocUnit ∣ e.offset ∧ allocUnit ∣ e.length

variable {conf : AllocConf} {allocUnit : ℕ} {free free' : Bins} {bin : Fin 10}

section

variable (h : EndsOn allocUnit free)

include h

theorem EndsOn.update (bin : Fin 10) {s : IntervalSet} (hwf : WF lengths 1 s)
    (hstop : ∀ p ∈ s, allocUnit ∣ p.stop) :
    EndsOn allocUnit (Function.update free bin s) := by
  constructor
  · exact (forall_update_iff free fun _ => WF lengths 1).2 ⟨hwf, fun i _ => h.wf i⟩
  · exact (forall_update_iff free fun _ s => ∀ p ∈ s, allocUnit ∣ p.stop).2
      ⟨hstop, fun i _ => h.stop i⟩

/-- A run is taken out of its bin. -/
theorem EndsOn.eraseRun (bin : Fin 10) (run : Extent ℕ) (hrun : run ∈ free bin) {s : IntervalSet}
    (herase : eraseRun run.off run.len (free bin) = some s) :
    EndsOn allocUnit (Function.update free bin s) := by
  obtain ⟨e, -, hchecked⟩ := of_bind herase
  obtain ⟨-, hs⟩ := of_assert hchecked
  cases hs
  refine h.update bin ((h.wf bin).erase lengths_lawful le_rfl _ _) fun p hp => ?_
  exact h.stop bin p (mem_of_mem_erase (h.wf bin) hrun hp)

theorem EndsOn.insertFreeLoop {fuel : ℕ} {off len : ℕ} (hstop : allocUnit ∣ off + len)
    (heq : insertFreeLoop conf fuel bin off len free = some free') :
    EndsOn allocUnit free' := by
  induction fuel generalizing bin off len free with
  | zero => cases heq
  | succ fuel ih =>
    obtain ⟨⟨s, run⟩, hins, heq⟩ := of_bind heq
    obtain ⟨s', hnew, hins⟩ := of_bind hins
    obtain ⟨run', hcontains, hins⟩ := of_bind hins
    obtain ⟨rfl, rfl⟩ := Prod.mk.inj (some.inj hins)
    obtain ⟨hwf, hstops⟩ := of_insertNew (h.wf bin) hnew
    have hs := hstops (h.stop bin) hstop
    have hadded := h.update bin hwf hs
    simp only at heq
    split at heq
    · obtain rfl := some.inj heq
      exact hadded
    · obtain ⟨s'', herase, heq⟩ := of_bind heq
      have hrun := (contains_eq_some hcontains).1
      have hrest := hadded.eraseRun bin run' (by rwa [update_self]) (by rwa [update_self])
      rw [update_idem] at hrest
      exact ih hrest (hs run' hrun) heq

theorem EndsOn.demote {x : ℕ} (heq : demote conf bin x free = some free') :
    EndsOn allocUnit free' := by
  rw [Os.demote] at heq
  split at heq
  · cases heq
    exact h
  next run hcontains =>
    split at heq
    · cases heq
      exact h
    · obtain ⟨s, herase, heq⟩ := of_bind heq
      have hrun := (contains_eq_some hcontains).1
      exact (h.eraseRun bin run hrun herase).insertFreeLoop (h.stop bin run hrun) heq

end

theorem EndsOn.carve {p : Extent ℕ} {piece : AllocExtent} {a a' : StupidAllocator}
    (h : EndsOn allocUnit a.free) (hoff : allocUnit ∣ piece.offset)
    (heq : carve conf bin p piece a = some a') : EndsOn allocUnit a'.free := by
  obtain ⟨s, herase, heq⟩ := of_bind heq
  obtain ⟨free₁, hleft, heq⟩ := of_bind heq
  obtain ⟨free₂, hright, heq⟩ := of_bind heq
  obtain ⟨-, heq⟩ := of_assert heq
  obtain ⟨-, heq⟩ := of_assert heq
  cases heq
  obtain ⟨e, -, hchecked⟩ := of_bind herase
  obtain ⟨-, hs⟩ := of_assert hchecked
  cases hs
  have hcut : EndsOn allocUnit (Function.update a.free bin
      (erase lengths piece.offset piece.length (a.free bin))) :=
    h.update bin ((h.wf bin).erase lengths_lawful le_rfl _ _) (forall_stop_erase (h.stop bin) hoff)
  refine EndsOn.demote ?_ hright
  split at hleft
  · cases hleft
    exact hcut
  · exact hcut.demote hleft

/-! ## The pieces -/

variable {wantSize : ℕ} {p : Extent ℕ}

theorem dvd_off_add_skew (hunit : 0 < allocUnit) (p : Extent ℕ) :
    allocUnit ∣ p.off + skew allocUnit p := by
  rw [skew]
  split
  next hzero => exact dvd_of_mod_eq_zero hzero
  next =>
    have hlt := mod_lt p.off hunit
    have hdiv := div_add_mod p.off allocUnit
    refine ⟨p.off / allocUnit + 1, ?_⟩
    rw [mul_add]
    omega

/-- The run has the wanted size from its first unit on, or whole units as the code stores what
it has, or the piece is bounded for debugging. -/
def ServesWhole (small wantSize allocUnit : ℕ) (p : Extent ℕ) : Prop :=
  max allocUnit wantSize ≤ p.len - skew allocUnit p ∨
    allocUnit ∣ u32 (p.len - skew allocUnit p) ∨
      small ≠ 0 ∧ small < u32 (p.len - skew allocUnit p)
  deriving Decidable

theorem pieceOf_whole_iff {k small : ℕ} (hsmall : 2 ^ k ∣ small) (hwant : 2 ^ k ∣ wantSize) :
    2 ^ k ∣ (pieceOf small wantSize (2 ^ k) p).length ↔ ServesWhole small wantSize (2 ^ k) p := by
  have hmax : 2 ^ k ∣ max (2 ^ k) wantSize := by
    rcases max_choice (2 ^ k) wantSize with h | h
    · rw [h]
    · rwa [h]
  simp only [pieceOf, ServesWhole]
  by_cases hlong : max (2 ^ k) wantSize ≤ p.len - skew (2 ^ k) p
  · simp only [min_eq_left hlong, hlong, true_or, iff_true]
    split
    · exact hsmall
    · exact dvd_u32 hmax
  · simp only [min_eq_right (not_le.1 hlong).le, hlong, false_or]
    split
    next hcut => simp [hsmall, hcut]
    next hcut => simp [hcut]

/-- What a run that ends on a unit has from its first unit on is whole units. -/
theorem servesWhole_of_stop {k small : ℕ} (hstop : 2 ^ k ∣ p.stop) :
    ServesWhole small wantSize (2 ^ k) p := by
  refine .inr (.inl (dvd_u32 ?_))
  rw [show p.len - skew (2 ^ k) p = p.stop - (p.off + skew (2 ^ k) p) by rw [Extent.stop]; omega]
  exact dvd_sub hstop (dvd_off_add_skew (Nat.two_pow_pos k) p)

theorem pieceOf_length_lt {small : ℕ} : (pieceOf small wantSize allocUnit p).length < 2 ^ 32 := by
  simp only [pieceOf]
  split
  next hcut => exact hcut.2.trans (u32_lt _)
  next => exact u32_lt _

section

variable {k : ℕ} {extents : List AllocExtent} {maxBlocks : ℤ} {piece : AllocExtent}

theorem addExtents_whole (h : ∀ e ∈ extents, e.Whole (2 ^ k) ∧ e.length < 2 ^ 32)
    (hpiece : piece.Whole (2 ^ k)) (hlt : piece.length < 2 ^ 32) :
    ∀ e ∈ addExtents maxBlocks piece extents, e.Whole (2 ^ k) ∧ e.length < 2 ^ 32 := by
  intro e he
  rw [addExtents] at he
  split at he
  · rw [List.mem_singleton.1 he]
    exact ⟨hpiece, hlt⟩
  next last hlast =>
    obtain ⟨hwhole, -⟩ := h last (List.mem_of_getLast? hlast)
    split at he
    · rcases List.mem_append.1 he with he | he
      · exact h e (List.dropLast_subset _ he)
      · rw [List.mem_singleton.1 he]
        exact ⟨⟨hwhole.1, dvd_u32 (dvd_add hwhole.2 hpiece.2)⟩, u32_lt _⟩
    · rcases List.mem_append.1 he with he | he
      · exact h e he
      · rw [List.mem_singleton.1 he]
        exact ⟨hpiece, hlt⟩

/-- The extent begins on a unit and does not end on one. -/
def AllocExtent.Broken (allocUnit : ℕ) (e : AllocExtent) : Prop :=
  allocUnit ∣ e.offset ∧ ¬ allocUnit ∣ e.length

/-- A broken piece gives a broken extent. -/
theorem exists_broken_of_piece (h : ∀ e ∈ extents, e.Whole (2 ^ k) ∧ e.length < 2 ^ 32)
    (hpiece : piece.Broken (2 ^ k)) (hlt : piece.length < 2 ^ 32) :
    ∃ e ∈ addExtents maxBlocks piece extents, e.Broken (2 ^ k) := by
  rw [addExtents]
  split
  · exact ⟨piece, List.mem_singleton_self _, hpiece⟩
  next last hlast =>
    obtain ⟨hwhole, hlastlt⟩ := h last (List.mem_of_getLast? hlast)
    split
    · exact ⟨_, List.mem_append_right _ (List.mem_singleton_self _), hwhole.1,
        not_dvd_u32_add hwhole.2 hlastlt hpiece.2 hlt⟩
    · exact ⟨piece, List.mem_append_right _ (List.mem_singleton_self _), hpiece⟩

/-- A broken extent stays: the pieces begin on units, so none of them goes on where it ends. -/
theorem exists_broken_addExtents (h : ∃ e ∈ extents, e.Broken (2 ^ k))
    (hoff : 2 ^ k ∣ piece.offset) : ∃ e ∈ addExtents maxBlocks piece extents, e.Broken (2 ^ k) := by
  obtain ⟨e, he, hbroken⟩ := h
  rw [addExtents]
  split
  next hnone => exact absurd he (by simp [List.getLast?_eq_none_iff.1 hnone])
  next last hlast =>
    split
    next hmerge =>
      have hne : e ≠ last := by
        rintro rfl
        exact hbroken.2 ((Nat.dvd_add_right hbroken.1).1 (hmerge.1 ▸ hoff))
      rw [← List.dropLast_append_getLast? last hlast, List.mem_append, List.mem_singleton] at he
      exact ⟨e, List.mem_append_left _ (he.resolve_right hne), hbroken⟩
    next => exact ⟨e, List.mem_append_left _ he, hbroken⟩

end

/-! ## The rounds -/

section

variable (conf) (small : ℕ → ℕ) (wantSize allocUnit maxAllocSize : ℕ)

/-- In each round of `allocate` the run that is found serves what is still wanted. -/
def eachServesWhole : ℕ → ℕ → ℕ → StupidAllocator → Bool
  | 0, _, _, _ => true
  | fuel + 1, allocated, hint, a =>
    wantSize ≤ allocated ||
      let want := min maxAllocSize (wantSize - allocated)
      match searchFree conf want allocUnit (if hint = 0 then a.lastAlloc else hint) a.free with
      | none => true
      | some (bin, p) =>
        let piece := pieceOf (small fuel) want allocUnit p
        decide (ServesWhole (small fuel) want allocUnit p) &&
          (carve conf bin p piece a).all
            (eachServesWhole fuel (allocated + piece.length) (piece.offset + piece.length))

variable {conf small wantSize allocUnit maxAllocSize}

/-- What a round of the loop does: the request is served, or nothing is found, or a piece of the
run that is found is added. -/
theorem allocateLoop_cases (hunit : allocUnit ≠ 0) {fuel allocated hint : ℕ}
    {extents extents' : List AllocExtent} {a a' : StupidAllocator} {allocated' : ℕ}
    (heq : allocateLoop conf small wantSize allocUnit maxAllocSize (fuel + 1) allocated hint
      extents a = some (a', allocated', extents')) :
    extents' = extents ∧
      eachServesWhole conf small wantSize allocUnit maxAllocSize (fuel + 1) allocated hint a ∨
    ∃ bin p a₂, p ∈ a.free bin ∧
      let want := min maxAllocSize (wantSize - allocated)
      let piece := pieceOf (small fuel) want allocUnit p
      carve conf bin p piece a = some a₂ ∧
      allocateLoop conf small wantSize allocUnit maxAllocSize fuel (allocated + piece.length)
        (piece.offset + piece.length) (addExtents (s64 maxAllocSize) piece extents) a₂ =
          some (a', allocated', extents') ∧
      (eachServesWhole conf small wantSize allocUnit maxAllocSize (fuel + 1) allocated hint a ↔
        ServesWhole (small fuel) want allocUnit p ∧
          eachServesWhole conf small wantSize allocUnit maxAllocSize fuel (allocated + piece.length)
            (piece.offset + piece.length) a₂) := by
  rw [allocateLoop] at heq
  rw [eachServesWhole]
  by_cases hserved : wantSize ≤ allocated
  · rw [if_pos hserved] at heq
    obtain ⟨-, -, rfl⟩ : _ ∧ _ ∧ _ := by simpa using heq
    exact .inl ⟨rfl, by simp [hserved]⟩
  rw [if_neg hserved] at heq
  obtain ⟨found, hint', heq⟩ := of_bind heq
  rw [allocateInt, if_neg hunit] at hint'
  cases hsearch : searchFree conf (min maxAllocSize (wantSize - allocated)) allocUnit
      (if hint = 0 then a.lastAlloc else hint) a.free with
  | none =>
    simp only [hsearch, some.injEq] at hint'
    subst hint'
    obtain ⟨-, -, rfl⟩ : _ ∧ _ ∧ _ := by simpa using heq
    exact .inl ⟨rfl, by simp [hsearch]⟩
  | some run =>
    obtain ⟨bin, p⟩ := run
    simp only [hsearch] at hint'
    obtain ⟨a₂, hcarve, rfl⟩ := of_map hint'
    refine .inr ⟨bin, p, a₂, (searchFree_found hsearch).1, hcarve, heq, ?_⟩
    simp [hserved, hsearch, hcarve]

theorem exists_broken_allocateLoop {k fuel allocated hint : ℕ}
    {extents extents' : List AllocExtent} {a a' : StupidAllocator} {allocated' : ℕ}
    (h : ∃ e ∈ extents, e.Broken (2 ^ k))
    (heq : allocateLoop conf small wantSize (2 ^ k) maxAllocSize fuel allocated hint extents a =
      some (a', allocated', extents')) : ∃ e ∈ extents', e.Broken (2 ^ k) := by
  induction fuel generalizing allocated hint extents a with
  | zero =>
    rw [allocateLoop] at heq
    split at heq
    · obtain ⟨-, -, rfl⟩ : _ ∧ _ ∧ _ := by simpa using heq
      exact h
    · cases heq
  | succ fuel ih =>
    rcases allocateLoop_cases (Nat.two_pow_pos k).ne' heq with
      ⟨rfl, -⟩ | ⟨bin, p, a₂, -, -, hrest, -⟩
    · exact h
    · exact ih (exists_broken_addExtents h (dvd_off_add_skew (Nat.two_pow_pos k) p)) hrest

/-- Runs that end on units serve every round. -/
theorem EndsOn.eachServesWhole {k fuel allocated hint : ℕ} {a : StupidAllocator}
    (h : EndsOn (2 ^ k) a.free) :
    eachServesWhole conf small wantSize (2 ^ k) maxAllocSize fuel allocated hint a = true := by
  induction fuel generalizing allocated hint a with
  | zero => rfl
  | succ fuel ih =>
    rw [Os.eachServesWhole, Bool.or_eq_true]
    refine .inr ?_
    simp only
    split
    · rfl
    next bin p hsearch =>
      rw [Bool.and_eq_true, decide_eq_true_eq]
      refine ⟨servesWhole_of_stop (h.stop bin p (searchFree_found hsearch).1), ?_⟩
      rw [Option.all_eq_true]
      intro a₂ hcarve
      exact ih (h.carve (dvd_off_add_skew (Nat.two_pow_pos k) p) hcarve)

variable {k : ℕ} (hsmall : ∀ i, 2 ^ k ∣ small i) (hwant : 2 ^ k ∣ wantSize)
  (hmax : 2 ^ k ∣ maxAllocSize)

include hsmall hwant hmax

/-- The extents are whole units if and only if each round is served so: a broken extent never
becomes whole again. -/
theorem allocateLoop_whole_iff {fuel allocated hint : ℕ} {extents extents' : List AllocExtent}
    {a a' : StupidAllocator} {allocated' : ℕ} (halloc : 2 ^ k ∣ allocated)
    (hextents : ∀ e ∈ extents, e.Whole (2 ^ k) ∧ e.length < 2 ^ 32)
    (heq : allocateLoop conf small wantSize (2 ^ k) maxAllocSize fuel allocated hint extents a =
      some (a', allocated', extents')) :
    (∀ e ∈ extents', e.Whole (2 ^ k)) ↔
      eachServesWhole conf small wantSize (2 ^ k) maxAllocSize fuel allocated hint a = true := by
  induction fuel generalizing allocated hint extents a with
  | zero =>
    rw [allocateLoop] at heq
    split at heq
    · obtain ⟨-, -, rfl⟩ : _ ∧ _ ∧ _ := by simpa using heq
      exact iff_of_true (fun e he => (hextents e he).1) rfl
    · cases heq
  | succ fuel ih =>
    rcases allocateLoop_cases (Nat.two_pow_pos k).ne' heq with
      ⟨rfl, hserved⟩ | ⟨bin, p, a₂, -, -, hrest, hiff⟩
    · exact iff_of_true (fun e he => (hextents e he).1) hserved
    have hround : 2 ^ k ∣ min maxAllocSize (wantSize - allocated) := by
      rcases min_choice maxAllocSize (wantSize - allocated) with hmin | hmin
      · rwa [hmin]
      · rw [hmin]
        exact dvd_sub hwant halloc
    have hoff := dvd_off_add_skew (Nat.two_pow_pos k) p
    rw [hiff, ← pieceOf_whole_iff (hsmall fuel) hround]
    by_cases hpiece : 2 ^ k ∣
        (pieceOf (small fuel) (min maxAllocSize (wantSize - allocated)) (2 ^ k) p).length
    · rw [and_iff_right hpiece]
      exact ih (dvd_add halloc hpiece) (addExtents_whole hextents ⟨hoff, hpiece⟩ pieceOf_length_lt)
        hrest
    · obtain ⟨e, he, hbroken⟩ := exists_broken_allocateLoop
        (exists_broken_of_piece hextents ⟨hoff, hpiece⟩ pieceOf_length_lt) hrest
      exact iff_of_false (fun h => hbroken.2 (h e he).2) fun h => hpiece h.1

end

theorem unit_le_alignedLen_iff (hunit : 0 < allocUnit) :
    allocUnit ≤ alignedLen allocUnit p ↔ ∃ x, allocUnit ∣ x ∧ p.off ≤ x ∧
      x + allocUnit ≤ p.stop := by
  have hoff := dvd_off_add_skew hunit p
  have hskew : skew allocUnit p < allocUnit := by
    rw [skew]
    split
    · exact hunit
    · omega
  constructor
  · intro hle
    refine ⟨p.off + skew allocUnit p, hoff, Nat.le_add_right .., ?_⟩
    rw [alignedLen] at hle
    rw [Extent.stop]
    split at hle
    · omega
    · omega
  · rintro ⟨x, hx, hge, hle⟩
    -- the first multiple at or after the start is the start plus the skew
    have hfirst : p.off + skew allocUnit p ≤ x := by
      obtain ⟨m, hm⟩ := hoff
      obtain ⟨n, rfl⟩ := hx
      rw [hm]
      refine mul_le_mul_left _ ?_
      by_contra hlt
      have hmul : allocUnit * (n + 1) ≤ allocUnit * m := mul_le_mul_left _ (by omega)
      rw [mul_add] at hmul
      omega
    rw [Extent.stop] at hle
    rw [alignedLen, if_neg (by omega)]
    omega

theorem searchBins_eq_none {least : ℕ} {part : IntervalSet → IntervalSet} {bins : List (Fin 10)} :
    searchBins allocUnit least part free bins = none ↔
      ∀ bin ∈ bins, ∀ p ∈ part (free bin), alignedLen allocUnit p < least := by
  simp [searchBins]

/-- The searches fail exactly if in the bins from the wanted one up no run has the wanted size,
and from it down none has a unit. -/
theorem searchFree_eq_none {hint : ℕ} : searchFree conf wantSize allocUnit hint free = none ↔
      (∀ bin, chooseBin conf (max allocUnit wantSize) ≤ bin →
        ∀ p ∈ free bin, alignedLen allocUnit p < wantSize) ∧
      ∀ bin, bin ≤ chooseBin conf (max allocUnit wantSize) →
        ∀ p ∈ free bin, alignedLen allocUnit p < allocUnit := by
  have hsplit : ∀ (s : IntervalSet) (P : Extent ℕ → Prop), (∀ p ∈ s, P p) ↔
      (∀ p ∈ (if hint = 0 then [] else lowerBound hint s), P p) ∧
        ∀ p ∈ (if hint = 0 then s else upTo hint s), P p := by
    intro s P
    by_cases hzero : hint = 0
    · simp [hzero]
    · rw [if_neg hzero, if_neg hzero, and_comm, ← List.forall_mem_append, upTo, lowerBound,
        List.takeWhile_append_dropWhile]
  simp only [searchFree, or_eq_none_iff, searchBins_eq_none, List.mem_reverse,
    List.mem_filter, List.mem_finRange, true_and, decide_eq_true_eq]
  constructor
  · rintro ⟨hup, hup', hdown, hdown'⟩
    exact ⟨fun bin hbin => (hsplit _ _).2 ⟨hup bin hbin, hup' bin hbin⟩,
      fun bin hbin => (hsplit _ _).2 ⟨hdown bin hbin, hdown' bin hbin⟩⟩
  · rintro ⟨hup, hdown⟩
    exact ⟨fun bin hbin => ((hsplit _ _).1 (hup bin hbin)).1,
      fun bin hbin => ((hsplit _ _).1 (hup bin hbin)).2,
      fun bin hbin => ((hsplit _ _).1 (hdown bin hbin)).1,
      fun bin hbin => ((hsplit _ _).1 (hdown bin hbin)).2⟩

/-! ## A run in a bin above its size -/

variable {a : StupidAllocator} {owned : Finset ℕ} {offset length : ℕ}

theorem chooseBin_val (conf : AllocConf) (n : ℕ) :
    (chooseBin conf n : ℕ) = min (n / conf.bdevBlockSize).size 9 := rfl

/-- The first run goes to the bin of its size. -/
theorem initAddFree_new (conf : AllocConf) (hlen : 0 < length) : initAddFree conf 0 length .new =
    some ⟨s64 length, 0, Function.update (fun _ => []) (chooseBin conf length)
      [⟨0, length, length⟩], 0⟩ := by
  have hrun : insertRun 0 length [] = some ([⟨0, length, length⟩], ⟨0, length, length⟩) := by
    simp [insertRun, insertNew, unionInsert, IntervalMap.insert, IntervalMap.erase, place,
      contains, lowerBound, lengths, Extent.stop, hlen, hlen.ne', Option.filter]
  have hins : insertFree conf 0 length (fun _ => []) =
      some (Function.update (fun _ => []) (chooseBin conf length) [⟨0, length, length⟩]) := by
    rw [insertFree, insertFreeLoop]
    simp only [hrun, bind_eq_bind, bind_some, if_true, Option.pure_def]
  simp only [initAddFree, addFree, StupidAllocator.new, hins, bind_eq_bind,
    bind_some, Option.pure_def, zero_add]

/-- A large run of which all but the first unit was removed stays in the bin of its old size. -/
theorem exists_misplaced (conf : AllocConf) {b unit : ℕ} (hb : b < 9) (hunit : 0 < unit)
    (hlt : unit < 2 ^ b * conf.bdevBlockSize) (hbound : 2 ^ b * conf.bdevBlockSize < 2 ^ 63) :
    ∃ a, Reachable conf a ∅ ∧ space a.free = Ico 0 unit ∧
      ∀ i : Fin 10, (i : ℕ) ≠ b + 1 → bytes (a.free i) = ∅ := by
  have hbin : (chooseBin conf (2 ^ b * conf.bdevBlockSize) : ℕ) = b + 1 := by
    rw [chooseBin_val, Nat.mul_div_cancel _ conf.block_pos, Nat.size_pow]
    exact min_eq_left (by omega)
  generalize 2 ^ b * conf.bdevBlockSize = L at *
  have hadd := initAddFree_new conf (show 0 < L by omega)
  have hreach := (@Reachable.new conf).initAddFree (by omega) (by omega)
    (by simp [StupidAllocator.new]) hadd
  have haccounts := reachable_accounts hreach
  have hall : space (Function.update (fun _ => []) (chooseBin conf L) [⟨0, L, L⟩]) = Ico 0 L := by
    ext x
    simp [mem_space_update, bytes_cons, Extent.stop]
  have hgives := haccounts.initRmFree_gives unit (show 0 < L - unit by omega)
  obtain ⟨a', hrm⟩ := isSome_iff_exists.1 (hgives.1 (by
    rw [hall]
    exact Finset.Ico_subset_Ico (zero_le _) (by omega)))
  obtain ⟨-, hspace, -, -, hshrink⟩ := hgives.2 a' hrm
  refine ⟨a', hreach.initRmFree (by omega) hrm, ?_, fun i hi => ?_⟩
  · rw [hspace, hall]
    ext x
    simp only [mem_sdiff, mem_Ico]
    omega
  · have hne : i ≠ chooseBin conf L := fun heq => hi (heq ▸ hbin)
    have hempty := hshrink i
    simp only [update_of_ne hne, bytes_nil] at hempty
    exact subset_empty.1 hempty

theorem size_le_eight_iff {n : ℕ} : n.size ≤ 8 ↔ n < 2 ^ 8 := size_le

/-- **When a failed search means that there is no space.**  The searches cover every run with
an aligned unit for the sizes up to one unit and for those of the last bin, and for no other. -/
theorem finds_space_iff (conf : AllocConf) (hblock : conf.bdevBlockSize < 2 ^ 31) (k wantSize : ℕ) :
    (∀ a owned, Reachable conf a owned → ∀ small hint,
      allocateInt conf small wantSize (2 ^ k) hint a = some none →
        ∀ i, ∀ p ∈ a.free i, ¬ ∃ x, 2 ^ k ∣ x ∧ p.off ≤ x ∧ x + 2 ^ k ≤ p.stop) ↔
      wantSize ≤ 2 ^ k ∨ 2 ^ 8 * conf.bdevBlockSize ≤ wantSize := by
  have hunit := Nat.two_pow_pos k
  have hnone : ∀ {small hint a}, allocateInt conf small wantSize (2 ^ k) hint a = some none ↔
      searchFree conf wantSize (2 ^ k) (if hint = 0 then a.lastAlloc else hint) a.free = none := by
    intro small hint a
    rw [allocateInt, if_neg hunit.ne']
    cases searchFree conf wantSize (2 ^ k) (if hint = 0 then a.lastAlloc else hint) a.free with
    | none => simp
    | some found => simp
  constructor
  · intro h
    by_contra hcon
    obtain ⟨hwant, hsmall⟩ := not_or.1 hcon
    have hmax : max (2 ^ k) wantSize = wantSize := max_eq_right (by omega)
    have hb : (wantSize / conf.bdevBlockSize).size < 9 := by
      have := size_le_eight_iff.2 ((div_lt_iff_lt_mul conf.block_pos).2 (not_le.1 hsmall))
      omega
    have hnext : wantSize < 2 ^ (wantSize / conf.bdevBlockSize).size * conf.bdevBlockSize :=
      (div_lt_iff_lt_mul conf.block_pos).1 (lt_size_self _)
    have hbound : 2 ^ (wantSize / conf.bdevBlockSize).size * conf.bdevBlockSize < 2 ^ 63 := by
      have hpow := Nat.pow_le_pow_right (show 0 < 2 by decide) hb.le
      calc 2 ^ (wantSize / conf.bdevBlockSize).size * conf.bdevBlockSize
          ≤ 2 ^ 9 * conf.bdevBlockSize := Nat.mul_le_mul_right _ hpow
        _ < 2 ^ 63 := by omega
    -- one free unit, in a bin above the one where the search begins
    obtain ⟨a, hreach, hspace, hbins⟩ := exists_misplaced conf hb hunit (by omega) hbound
    have hok := (reachable_accounts hreach).ok
    have hlen : ∀ i, ∀ p ∈ a.free i, alignedLen (2 ^ k) p ≤ 2 ^ k := by
      intro i p hp
      have hle := card_le_card ((Ico_subset_bytes hp).trans (bytes_subset_space i))
      rw [hspace, Nat.card_Ico, Nat.card_Ico, Extent.stop] at hle
      rw [alignedLen]
      split
      · omega
      · omega
    have hfail : allocateInt conf 0 wantSize (2 ^ k) 0 a = some none := by
      rw [hnone, searchFree_eq_none, hmax]
      refine ⟨fun i _ p hp => (hlen i p hp).trans_lt (by omega), fun i hi p hp => ?_⟩
      have hempty := hbins i (by
        have := Fin.le_def.1 hi
        rw [chooseBin_val] at this
        omega)
      have hoff : p.off ∈ bytes (a.free i) := mem_bytes.2 ((hok.wf i).covered_off hp)
      rw [hempty] at hoff
      exact absurd hoff (notMem_empty _)
    obtain ⟨i, hi⟩ := mem_space.1 (show 0 ∈ space a.free by
      rw [hspace]
      exact mem_Ico.2 ⟨le_rfl, hunit⟩)
    obtain ⟨p, hp, hcov⟩ := mem_bytes.1 hi
    refine h a ∅ hreach 0 0 hfail i p hp ⟨0, dvd_zero _, hcov.1, ?_⟩
    refine le_stop_of_covers (hok.wf i) hp hcov fun x hx => ?_
    have honly : ∀ {j y}, y ∈ bytes (a.free j) →
        (j : ℕ) = (wantSize / conf.bdevBlockSize).size + 1 := by
      intro j y hy
      by_contra hj
      rw [hbins j hj] at hy
      exact absurd hy (notMem_empty _)
    rw [zero_add, ← hspace] at hx
    obtain ⟨j, hj⟩ := mem_space.1 hx
    rwa [show i = j from Fin.ext ((honly hi).trans (honly hj).symm)]
  · intro hcond a owned hreach small hint hfail i p hp hx
    have hfits := (unit_le_alignedLen_iff hunit).2 hx
    obtain ⟨hup, hdown⟩ := searchFree_eq_none.1 (hnone.1 hfail)
    rcases le_total (chooseBin conf (max (2 ^ k) wantSize)) i with hi | hi
    · rcases hcond with hwant | hlarge
      · have := hup i hi p hp
        omega
      · have hlast : i ≤ chooseBin conf (max (2 ^ k) wantSize) := by
          have hsize : ¬ (max (2 ^ k) wantSize / conf.bdevBlockSize).size ≤ 8 := by
            rw [size_le_eight_iff, div_lt_iff_lt_mul conf.block_pos]
            omega
          rw [Fin.le_def, chooseBin_val]
          omega
        exact absurd (hdown i hlast p hp) (by omega)
    · exact absurd (hdown i hi p hp) (by omega)

/-- One page of 4096 bytes is found wherever there is one. -/
theorem finds_space_iff_page : blockConf.bdevBlockSize < 2 ^ 31 ∧
    ∀ a owned, Reachable blockConf a owned → ∀ small hint,
      allocateInt blockConf small 4096 (2 ^ 12) hint a = some none →
        ∀ i, ∀ p ∈ a.free i, ¬ ∃ x, 2 ^ 12 ∣ x ∧ p.off ≤ x ∧ x + 2 ^ 12 ≤ p.stop :=
  ⟨by decide, (finds_space_iff blockConf (by decide) 12 4096).2 (.inl (by decide))⟩

/-- **Free space is overlooked.**  Of sixteen free pages twelve are removed; the other four stay
in the bin for sixteen.  The search for eight pages fails, although it would take one. -/
theorem space_overlooked : ∃ a, Reachable blockConf a ∅ ∧ a.free 5 = [⟨0, 16384, 16384⟩] ∧
    (allocateInt blockConf 0 32768 4096 0 a).map Option.isNone = some true := by
  have hrun : ((initAddFree blockConf 0 65536 .new).bind fun a =>
      (initRmFree 16384 49152 a).map fun a =>
        (a.free 5, (allocateInt blockConf 0 32768 4096 0 a).map Option.isNone)) =
      some ([⟨0, 16384, 16384⟩], some true) := by decide +kernel
  obtain ⟨a, hadd, hrun⟩ := of_bind hrun
  obtain ⟨a', hrm, hpair⟩ := of_map hrun
  obtain ⟨hfree, hfail⟩ := Prod.mk.inj hpair
  have hreach := (@Reachable.new blockConf).initAddFree (by decide) (by decide)
    (by simp [StupidAllocator.new]) hadd
  exact ⟨a', hreach.initRmFree (by decide) hrm, hfree, hfail⟩

end Ceph.Os
