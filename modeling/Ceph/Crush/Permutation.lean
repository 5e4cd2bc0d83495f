import Ceph.Crush.Straw2

/-!
# The permutation of a bucket

`bucket_perm_choose` of `crush/mapper.c`, which uniform buckets use.  It builds the permutation for
an `x` only as far as it is asked for and keeps it in a work area that is not initialized; after
`r = 0` only its first entry is there, which `perm_n = 0xffff` marks.  What is returned is the entry
of one shuffle of the positions that depends on `x` alone, whatever was asked before.

* `Usable.choose` — one call, from a work area that an earlier one left.
* `permChoose_history_free` — every call after any others.
-/

namespace Ceph.Crush

open List Option Function Equiv

/-! ## The functions -/

/-- `crush_work_bucket` -/
structure WorkBucket where
  permX : BitVec 32
  permN : ℕ
  perm : ℕ → ℕ

section

variable (h : Hash) (b : Bucket) (x : BitVec 32)

/-- One round of the loop that extends the permutation. -/
def permStep (w : WorkBucket) : WorkBucket :=
  let p := w.permN
  if p < b.items.length - 1 then
    let i := (h.hash32_3 b.hash x (BitVec.ofInt 32 b.id) (BitVec.ofNat 32 p)).toNat %
      (b.items.length - p)
    { w with
      permN := p + 1
      perm := update (update w.perm (p + i) (w.perm p)) p (w.perm (p + i)) }
  else { w with permN := p + 1 }

/-- The permutation before it is extended; the second value is set if the first entry is all
that is needed. -/
def permStart (w : WorkBucket) (pr : ℕ) : WorkBucket × Option ℕ :=
  if w.permX ≠ x ∨ w.permN = 0 then
    if pr = 0 then
      let s := (h.hash32_3 b.hash x (BitVec.ofInt 32 b.id) 0#32).toNat % b.items.length
      (⟨x, 0xffff, update w.perm 0 s⟩, some s)
    else (⟨x, 0, fun i => if i < b.items.length then i else w.perm i⟩, none)
  else if w.permN = 0xffff then
    let perm := fun i => if 1 ≤ i ∧ i < b.items.length then i else w.perm i
    ({ w with permN := 1, perm := update perm (perm 0) 0 }, none)
  else (w, none)

/-- `bucket_perm_choose` -/
def bucketPermChoose (w : WorkBucket) (r : BitVec 32) : Option (ℤ × WorkBucket) := do
  assert (b.items.length ≠ 0)
  let pr := r.toNat % b.items.length
  match permStart h b x w pr with
  | (w, some s) => (b.items[s]?).map fun item => (item, w)
  | (w, none) =>
    let w := (permStep h b x)^[pr + 1 - w.permN] w
    (b.items[w.perm pr]?).map fun item => (item, w)

end

/-- `crush_init_workspace`: the entries of the permutation are not initialized. -/
def initWorkspace (perm : ℕ → ℕ) : WorkBucket := ⟨0, 0, perm⟩

section

variable (h : Hash) (b : Bucket)

/-- Calls of `bucket_perm_choose` with one work area. -/
def permCalls (w : WorkBucket) (calls : List (BitVec 32 × BitVec 32)) : Option WorkBucket :=
  calls.foldlM (fun w c => (bucketPermChoose h b c.1 w c.2).map (·.2)) w

variable (x : BitVec 32)

/-- The exchange of round `p`. -/
def exchange (p : ℕ) : Perm ℕ :=
  if p < b.items.length - 1 then
    swap p (p + (h.hash32_3 b.hash x (BitVec.ofInt 32 b.id) (BitVec.ofNat 32 p)).toNat %
      (b.items.length - p))
  else 1

/-- The positions after `n` rounds. -/
def shuffle : ℕ → Perm ℕ
  | 0 => 1
  | n + 1 => shuffle n * exchange h b x n

/-! ## The shuffle -/

theorem exchange_lt_iff (p i : ℕ) : exchange h b x p i < b.items.length ↔ i < b.items.length := by
  rw [exchange]
  split_ifs with hp
  · have := Nat.mod_lt (h.hash32_3 b.hash x (BitVec.ofInt 32 b.id) (BitVec.ofNat 32 p)).toNat
      (show 0 < b.items.length - p by omega)
    rw [swap_apply_def]
    split_ifs <;> omega
  · rfl

theorem shuffle_lt_iff (n i : ℕ) : shuffle h b x n i < b.items.length ↔ i < b.items.length := by
  induction n generalizing i with
  | zero => rfl
  | succ n ih => rw [shuffle, Perm.mul_apply, ih, exchange_lt_iff]

variable {i n : ℕ}

theorem exchange_of_lt (hi : i < n) : exchange h b x n i = i := by
  rw [exchange]
  split_ifs
  · exact swap_apply_of_ne_of_ne (by omega) (by omega)
  · rfl

/-- Later rounds leave an entry as it is. -/
theorem shuffle_of_lt (hi : i < n) : shuffle h b x n i = shuffle h b x (i + 1) i := by
  induction n with
  | zero => omega
  | succ n ih =>
    rcases Nat.lt_succ_iff_lt_or_eq.1 hi with hlt | rfl
    · rw [shuffle, Perm.mul_apply, exchange_of_lt h b x hlt, ih hlt]
    · rfl

/-- The first entry, as `r = 0` computes it. -/
theorem shuffle_one_zero (hsize : 0 < b.items.length) : shuffle h b x 1 0 =
    (h.hash32_3 b.hash x (BitVec.ofInt 32 b.id) 0#32).toNat % b.items.length := by
  rw [shuffle, shuffle, one_mul, exchange]
  split_ifs with hone
  · rw [swap_apply_left, Nat.zero_add, Nat.sub_zero]
  · rw [show b.items.length = 1 by omega, Nat.mod_one]
    rfl

/-! ## The work area -/

/-- The work area has the shuffle for its `x`, as far as it goes. -/
def Follows (w : WorkBucket) : Prop :=
  ∀ i < b.items.length, w.perm i = shuffle h b w.permX w.permN i

/-- What holds between calls: the first entry is right, and so are the others unless the marker
says otherwise. -/
def Usable (w : WorkBucket) : Prop :=
  w.permN ≠ 0 → w.perm 0 = shuffle h b w.permX 1 0 ∧ (w.permN ≠ 0xffff → Follows h b w)

variable {h b x} {w : WorkBucket}

theorem permStep_eq (w : WorkBucket) : permStep h b x w =
    { w with permN := w.permN + 1, perm := w.perm ∘ exchange h b x w.permN } := by
  rw [permStep, exchange]
  split_ifs
  · simp only [comp_swap_eq_update]
  · rfl

/-- The loop goes on with the shuffle. -/
theorem Follows.iterate (hw : Follows h b w) (hx : w.permX = x) (n : ℕ) :
    Follows h b ((permStep h b x)^[n] w) ∧ ((permStep h b x)^[n] w).permX = x ∧
      ((permStep h b x)^[n] w).permN = w.permN + n := by
  induction n generalizing w with
  | zero => exact ⟨hw, hx, rfl⟩
  | succ n ih =>
    have hstep : Follows h b (permStep h b x w) := by
      subst hx
      intro i hi
      simp only [permStep_eq, comp_apply, shuffle, Perm.mul_apply]
      exact hw _ ((exchange_lt_iff ..).2 hi)
    obtain ⟨hfollows, hperm, hn⟩ := ih hstep (by rw [permStep_eq]; exact hx)
    refine ⟨hfollows, hperm, hn.trans ?_⟩
    rw [permStep_eq]
    simp only
    omega

theorem Follows.usable (hw : Follows h b w) (hsize : 0 < b.items.length) : Usable h b w :=
  fun hn => ⟨by rw [hw 0 hsize, shuffle_of_lt h b _ (Nat.pos_of_ne_zero hn)], fun _ => hw⟩

/-- Before the loop the work area follows the shuffle, or the entry is already there. -/
theorem permStart_cases (hsize : 0 < b.items.length) (hw : Usable h b w) (x : BitVec 32) (pr : ℕ) :
    (pr = 0 ∧ ∃ w', permStart h b x w pr = (w', some (shuffle h b x 1 0)) ∧ Usable h b w') ∨
      ∃ w', permStart h b x w pr = (w', none) ∧ Follows h b w' ∧ w'.permX = x := by
  rw [permStart]
  split_ifs with hnew hzero hmagic
  · refine .inl ⟨hzero, _, by rw [shuffle_one_zero h b x hsize],
      fun _ => ⟨?_, fun h => absurd rfl h⟩⟩
    simp only [update_self, shuffle_one_zero h b x hsize]
  · refine .inr ⟨_, rfl, fun i hi => ?_, rfl⟩
    simp only [if_pos hi]
    rfl
  · -- the other entries are filled in as the first round leaves them
    push Not at hnew
    obtain ⟨rfl, hn⟩ := hnew
    obtain ⟨hfirst, -⟩ := hw hn
    refine .inr ⟨_, rfl, fun i hi => ?_, rfl⟩
    simp only [shuffle, one_mul, exchange] at hfirst ⊢
    by_cases hlen : 0 < b.items.length - 1
    · rw [if_pos hlen, swap_apply_left] at hfirst
      rw [if_pos hlen, ← hfirst, swap_apply_def, update_apply]
      grind
    · rw [if_neg hlen] at hfirst ⊢
      obtain rfl : i = 0 := by omega
      rw [hfirst]
      exact update_self ..
  · push Not at hnew
    exact .inr ⟨w, rfl, (hw hnew.2).2 hmagic, hnew.1⟩

/-- **One call.** -/
theorem Usable.choose (hsize : 0 < b.items.length) (hw : Usable h b w) (x r : BitVec 32) :
    ∃ item w', b.items[shuffle h b x b.items.length (r.toNat % b.items.length)]? = some item ∧
      bucketPermChoose h b x w r = some (item, w') ∧ Usable h b w' := by
  have hpr := Nat.mod_lt r.toNat hsize
  rw [shuffle_of_lt h b x hpr]
  obtain ⟨item, hget⟩ : ∃ item, b.items[_]? = some item :=
    ⟨_, getElem?_eq_getElem ((shuffle_lt_iff h b x (r.toNat % b.items.length + 1) _).2 hpr)⟩
  rw [bucketPermChoose, assert_bind hsize.ne']
  rcases permStart_cases hsize hw x (r.toNat % b.items.length) with
    ⟨hzero, w', heq, hw'⟩ | ⟨w', heq, hw', hx⟩
  · rw [hzero] at hget heq ⊢
    simp only [heq, hget, map_some]
    exact ⟨_, _, rfl, rfl, hw'⟩
  · obtain ⟨hfollows, hperm, hn⟩ := hw'.iterate hx (r.toNat % b.items.length + 1 - w'.permN)
    have hentry := hfollows _ hpr
    rw [hperm, shuffle_of_lt h b x (by omega)] at hentry
    simp only [heq, hentry, hget, map_some]
    exact ⟨_, _, rfl, rfl, hfollows.usable hsize⟩

variable (h) in
/-- **The permutation does not depend on the history.**  After any calls, each call returns what it
returns on a fresh work area: the item at an entry of a permutation of the positions. -/
theorem permChoose_history_free (hsize : 0 < b.items.length)
    (calls : List (BitVec 32 × BitVec 32)) (perm perm' : ℕ → ℕ) :
    ∃ w, permCalls h b (initWorkspace perm) calls = some w ∧ ∀ x,
      Set.BijOn (shuffle h b x b.items.length) (Set.Iio b.items.length) (Set.Iio b.items.length) ∧
      ∀ r, ∃ item w' w'',
        b.items[shuffle h b x b.items.length (r.toNat % b.items.length)]? = some item ∧
        bucketPermChoose h b x w r = some (item, w') ∧
        bucketPermChoose h b x (initWorkspace perm') r = some (item, w'') := by
  have hfresh : ∀ perm, Usable h b (initWorkspace perm) := fun _ hn => absurd rfl hn
  obtain ⟨w, hrun, hw⟩ := Loop.foldlM_invariant (fun _ w => Usable h b w)
    (f := fun w c => (bucketPermChoose h b c.1 w c.2).map (·.2)) (hfresh perm)
    fun _ c _ w (_ : calls = _) hw => by
      obtain ⟨item, w', -, heq, hw'⟩ := hw.choose hsize c.1 c.2
      exact ⟨w', by rw [heq]; rfl, hw'⟩
  refine ⟨w, hrun, fun x => ⟨Equiv.bijOn _ fun i => shuffle_lt_iff h b x _ i, fun r => ?_⟩⟩
  obtain ⟨item, w', hitem, heq, -⟩ := hw.choose hsize x r
  obtain ⟨item', w'', hitem', heq', -⟩ := (hfresh perm').choose hsize x r
  obtain rfl := some.inj (hitem.symm.trans hitem')
  exact ⟨item, w', w'', hitem, heq, heq'⟩

end

theorem permChoose_pair_history_free :
    ∃ w item w' w'', permCalls itemHash ⟨-1, 0, [4, 9]⟩ (initWorkspace id) [(7, 0), (8, 1)] =
        some w ∧
      bucketPermChoose itemHash ⟨-1, 0, [4, 9]⟩ 7 w 1 = some (item, w') ∧
      bucketPermChoose itemHash ⟨-1, 0, [4, 9]⟩ 7 (initWorkspace id) 1 = some (item, w'') := by
  obtain ⟨w, hw, hall⟩ := permChoose_history_free itemHash (b := ⟨-1, 0, [4, 9]⟩) (by decide)
    [(7, 0), (8, 1)] id id
  obtain ⟨item, w', w'', -, heq⟩ := (hall 7).2 1
  exact ⟨w, item, w', w'', hw, heq⟩

end Ceph.Crush
