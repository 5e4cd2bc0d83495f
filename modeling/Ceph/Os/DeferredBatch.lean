import Ceph.Lib.IntervalMap

/-!
# Deferred writes

`DeferredBatch` of `os/bluestore/BlueStore.cc`: the small writes that wait to be sent to the device,
and for each sequence number how many bytes of it are left to write.  A new write first cuts its
range out of what is there.

* `discard_spec` — cutting a range out is `erase` of an interval map, and the byte counts follow.
* `prepareWrites_iff` — the batch holds the data of the last writer of each byte, and the counts are
  those of the bytes it holds as long as these fit in an `int`.
-/

namespace Ceph.Os

open IntervalMap Loop List Option Function

/-- `deferred_io` -/
structure DeferredIo where
  bl : List UInt8
  seq : ℕ
  deriving DecidableEq

open DeferredIo

/-- `DeferredBatch`.  `iomap` is in the order of device offsets; an extent is as long as its data.
`seqBytes` is a `map<uint64_t, int>`. -/
structure DeferredBatch where
  iomap : IntervalMap DeferredIo
  seqBytes : ℕ → Option ℤ

/-- Data is cut, and never joined. -/
def deferredIo : Splitter DeferredIo where
  length := fun io => io.bl.length
  split := fun off len io => { io with bl := (io.bl.drop off).take len }
  canMerge := fun _ _ => false
  merge := fun a _ => a

/-- The byte at a position, and the sequence number it belongs to. -/
def DeferredIo.byteAt (io : DeferredIo) (i : ℕ) : UInt8 × ℕ := (io.bl.getD i 0, io.seq)

/-! ## The functions -/

/-- An entry of `iomap`. -/
def ioEntry (off : ℕ) (io : DeferredIo) : Extent DeferredIo := ⟨off, io.bl.length, io⟩

/-- `substr_of` -/
def DeferredIo.substrOf (io : DeferredIo) (off len : ℕ) : DeferredIo :=
  { io with bl := (io.bl.drop off).take len }

/-- `i->second -= n`, of an `int` -/
def subBytes (sb : ℕ → Option ℤ) (seq n : ℕ) : Option (ℕ → Option ℤ) := do
  let bytes ← sb seq
  some (update sb seq (some ((bytes - n).bmod (2 ^ 32))))

/-- The second loop of `_discard`, over the entries from `p` on. -/
def discardLoop (stop : ℕ) : IntervalMap DeferredIo → (ℕ → Option ℤ) →
    Option (IntervalMap DeferredIo × (ℕ → Option ℤ))
  | [], sb => some ([], sb)
  | p :: rest, sb =>
    if stop ≤ p.off then some (p :: rest, sb)
    else if stop < p.stop then do
      -- the tail becomes the next entry, and ends the loop
      let sb ← subBytes sb p.val.seq (stop - p.off)
      some (ioEntry stop (p.val.substrOf (stop - p.off) (p.stop - stop)) :: rest, sb)
    else do
      let sb ← subBytes sb p.val.seq p.len
      discardLoop stop rest sb

/-- What `_discard` keeps of the entry before `offset`, and its count. -/
def discardBefore (offset length : ℕ) (p : Extent DeferredIo) (sb : ℕ → Option ℤ) :
    Option (IntervalMap DeferredIo × (ℕ → Option ℤ)) :=
  if offset < p.stop then
    let head := ioEntry p.off (p.val.substrOf 0 (offset - p.off))
    if offset + length < p.stop then do
      let sb ← subBytes sb p.val.seq length
      some ([head, ioEntry (offset + length)
        (p.val.substrOf (offset + length - p.off) (p.stop - (offset + length)))], sb)
    else do
      let sb ← subBytes sb p.val.seq (p.stop - offset)
      some ([head], sb)
  else some ([p], sb)

/-- `_discard` -/
def DeferredBatch.discard (b : DeferredBatch) (offset length : ℕ) : Option DeferredBatch := do
  let before := b.iomap.takeWhile fun e => e.off < offset
  let after := b.iomap.dropWhile fun e => e.off < offset
  let (kept, sb) ← match before.getLast? with
    | none => some ([], b.seqBytes)
    | some p => (discardBefore offset length p b.seqBytes).map fun r =>
      (before.dropLast ++ r.1, r.2)
  let (rest, sb) ← discardLoop (offset + length) after sb
  some ⟨kept ++ rest, sb⟩

/-- `prepare_write` of `data` -/
def DeferredBatch.prepareWrite (b : DeferredBatch) (seq offset : ℕ) (data : List UInt8) :
    Option DeferredBatch := do
  let b ← b.discard offset data.length
  assert (∀ e ∈ b.iomap, e.off ≠ offset)
  let bytes := (b.seqBytes seq).getD 0
  some {
    iomap := b.iomap.takeWhile (fun e => e.off < offset) ++
      ioEntry offset ⟨data, seq⟩ :: b.iomap.dropWhile fun e => e.off < offset
    seqBytes := update b.seqBytes seq (some ((bytes + data.length).bmod (2 ^ 32))) }

/-- One call of `prepare_write`; the extents that `bluestore_blob_t::map` gives are not empty. -/
structure DeferredWrite where
  seq : ℕ
  offset : ℕ
  data : List UInt8
  nonempty : data ≠ []

/-- Calls of `prepare_write` on a new batch. -/
def prepareWrites (ws : List DeferredWrite) : Option DeferredBatch :=
  ws.foldlM (fun b w => b.prepareWrite w.seq w.offset w.data) ⟨[], fun _ => none⟩

/-! ## Counting the bytes of a sequence number -/

/-- What `_audit` adds up for `seq`. -/
def carried (seq : ℕ) (m : IntervalMap DeferredIo) : ℕ :=
  (m.map fun e => if e.val.seq = seq then e.len else 0).sum

/-- The counts are those of the entries, in 32 bits. -/
def Tracks (sb : ℕ → Option ℤ) (m : IntervalMap DeferredIo) : Prop :=
  ∀ seq, sb seq = some ((carried seq m : ℤ).bmod (2 ^ 32)) ∨
    sb seq = none ∧ ∀ e ∈ m, e.val.seq ≠ seq

section

variable {sb : ℕ → Option ℤ} {m m' : IntervalMap DeferredIo} {e : Extent DeferredIo}
  {seq n offset length : ℕ}

@[simp] theorem carried_cons : carried seq (e :: m) = (if e.val.seq = seq then e.len else 0) +
    carried seq m := by simp [carried]

@[simp] theorem carried_append : carried seq (m ++ m') = carried seq m + carried seq m' := by
  simp [carried]

@[simp] theorem carried_nil : carried seq [] = 0 := rfl

theorem carried_of_forall_ne (h : ∀ e ∈ m, e.val.seq ≠ seq) : carried seq m = 0 := by
  rw [carried, sum_eq_zero]
  intro x hx
  obtain ⟨e, he, rfl⟩ := mem_map.1 hx
  exact if_neg (h e he)

theorem deferredIo_lawful : deferredIo.Lawful byteAt where
  length_split := by
    intro a o l h
    simp only [deferredIo, length_take, length_drop] at h ⊢
    omega
  at_split := by
    intro a o l i h hi
    simp [deferredIo, byteAt, getD_eq_getElem?_getD, hi]
  length_merge := by simp [deferredIo]
  at_merge_left := by simp [deferredIo]
  at_merge_right := by simp [deferredIo]

theorem carried_of_forall_eq (h : ∀ p ∈ m, p.val.seq = n) :
    carried seq m = if n = seq then (m.map Extent.len).sum else 0 := by
  induction m with
  | nil => simp
  | cons p m ih =>
    rw [carried_cons, ih fun q hq => h q (mem_cons_of_mem _ hq), h p mem_cons_self]
    split_ifs <;> simp

variable {pre post : IntervalMap DeferredIo}

/-- When pieces of an entry take its place, its count is lowered by what it lost. -/
theorem Tracks.replace (h : Tracks sb (pre ++ e :: post)) (pieces : IntervalMap DeferredIo) (n : ℕ)
    (hpieces : ∀ p ∈ pieces, p.val.seq = e.val.seq)
    (hlen : e.len = (pieces.map Extent.len).sum + n) :
    ∃ sb', subBytes sb e.val.seq n = some sb' ∧ Tracks sb' (pre ++ (pieces ++ post)) := by
  have hsb : sb e.val.seq = some ((carried e.val.seq (pre ++ e :: post) : ℤ).bmod (2 ^ 32)) :=
    (h e.val.seq).resolve_right fun hnone => hnone.2 e (by simp) rfl
  refine ⟨_, by rw [subBytes, hsb]; rfl, fun s => ?_⟩
  by_cases hs : e.val.seq = s
  · subst hs
    refine .inl ?_
    rw [update_self, Int.bmod_sub_bmod]
    congr 2
    simp only [carried_append, carried_cons, carried_of_forall_eq hpieces, if_true]
    omega
  · rw [update_of_ne (Ne.symm hs)]
    refine (h s).imp (fun hsome => ?_) fun ⟨hnone, hall⟩ => ⟨hnone, fun p hp => ?_⟩
    · rw [hsome]
      simp [carried_of_forall_eq hpieces, hs]
    · simp only [mem_append] at hp
      rcases hp with hp | hp | hp
      · exact hall p (by simp [hp])
      · exact hpieces p hp ▸ hs
      · exact hall p (by simp [hp])

/-! ## Discarding -/

theorem ioEntry_substrOf (he : e.val.bl.length = e.len) (off : ℕ) {o l : ℕ} (h : o + l ≤ e.len) :
    ioEntry off (e.val.substrOf o l) = ⟨off, l, deferredIo.split o l e.val⟩ := by
  have hlen : (e.val.substrOf o l).bl.length = l := by
    simp only [substrOf, length_take, length_drop]
    omega
  rw [ioEntry, hlen]
  rfl

variable (length) in
/-- The loop cuts the range out of the entries from `offset` on. -/
theorem discardLoop_spec (hwf : WF deferredIo 0 m) (hoff : ∀ e ∈ m, offset ≤ e.off)
    (pre : IntervalMap DeferredIo) (h : Tracks sb (pre ++ m)) :
    ∃ sb', discardLoop (offset + length) m sb
        = some (m.flatMap (cut deferredIo offset length), sb') ∧
      Tracks sb' (pre ++ m.flatMap (cut deferredIo offset length)) := by
  induction m generalizing sb with
  | nil => exact ⟨sb, rfl, h⟩
  | cons p m ih =>
    have hp := hoff p mem_cons_self
    obtain ⟨hlen, hsize⟩ := hwf.sized p mem_cons_self
    have hstop := p.stop_eq
    have hbehind : ∀ q ∈ m, p.stop ≤ q.off := fun q hq => (hwf.head q hq)
    rw [discardLoop]
    by_cases hout : offset + length ≤ p.off
    · have hall : ∀ q ∈ p :: m, q.stop ≤ offset ∨ offset + length ≤ q.off := by
        intro q hq
        rcases mem_cons.1 hq with rfl | hq
        · exact .inr hout
        · have := hbehind q hq
          exact .inr (by omega)
      rw [if_pos hout, flatMap_cut_of_forall hall]
      exact ⟨sb, rfl, h⟩
    have hcut : cut deferredIo offset length p = rightOf deferredIo (offset + length) p := by
      rw [cut, if_neg (by omega), leftOf, if_neg (by omega), nil_append]
    rw [if_neg hout, flatMap_cons, hcut, rightOf]
    by_cases htail : offset + length < p.stop
    · have hm : m.flatMap (cut deferredIo offset length) = m :=
        flatMap_cut_of_forall fun q hq => .inr (by have := hbehind q hq; omega)
      have hentry := ioEntry_substrOf hsize (offset + length)
        (show offset + length - p.off + (p.stop - (offset + length)) ≤ p.len by omega)
      have hpos : p.len - (p.stop - (offset + length)) = offset + length - p.off := by omega
      rw [if_pos htail, if_pos htail, hm, hentry, hpos]
      obtain ⟨sb', hsb', ht⟩ := h.replace [⟨offset + length, p.stop - (offset + length),
        deferredIo.split (offset + length - p.off) (p.stop - (offset + length)) p.val⟩]
        (offset + length - p.off) (by simp [deferredIo]) (by simp; omega)
      exact ⟨sb', by rw [hsb']; rfl, ht⟩
    · rw [if_neg htail, if_neg htail]
      obtain ⟨sb₁, hsb₁, ht⟩ := h.replace [] p.len (by simp) (by simp)
      obtain ⟨sb', hrun, ht'⟩ := ih hwf.tail (fun q hq => hoff q (mem_cons_of_mem _ hq)) ht
      exact ⟨sb', by rw [hsb₁]; exact hrun, ht'⟩

variable (length) in
/-- The entry before `offset` is cut, and its count follows. -/
theorem discardBefore_spec (hsize : e.val.bl.length = e.len) (he : e.off < offset)
    (h : Tracks sb (pre ++ e :: post)) :
    ∃ sb', discardBefore offset length e sb = some (cut deferredIo offset length e, sb') ∧
      Tracks sb' (pre ++ (cut deferredIo offset length e ++ post)) := by
  have hstop := e.stop_eq
  rw [discardBefore]
  by_cases hin : offset < e.stop
  · have hhead := ioEntry_substrOf (o := 0) (l := offset - e.off) hsize e.off (by omega)
    have hcut : cut deferredIo offset length e
        = ⟨e.off, offset - e.off, deferredIo.split 0 (offset - e.off) e.val⟩ ::
          rightOf deferredIo (offset + length) e := by
      rw [cut, if_neg (by omega), leftOf, if_pos he]
      rfl
    rw [if_pos hin, hcut, rightOf, hhead]
    by_cases htail : offset + length < e.stop
    · have hentry := ioEntry_substrOf hsize (offset + length)
        (show offset + length - e.off + (e.stop - (offset + length)) ≤ e.len by omega)
      have hpos : e.len - (e.stop - (offset + length)) = offset + length - e.off := by omega
      rw [if_pos htail, if_pos htail, hentry, hpos]
      obtain ⟨sb', hsb', ht⟩ := h.replace
        [⟨e.off, offset - e.off, deferredIo.split 0 (offset - e.off) e.val⟩,
          ⟨offset + length, e.stop - (offset + length), deferredIo.split (offset + length - e.off)
            (e.stop - (offset + length)) e.val⟩] length (by simp [deferredIo]) (by simp; omega)
      exact ⟨sb', by rw [hsb']; rfl, ht⟩
    · rw [if_neg htail, if_neg htail]
      obtain ⟨sb', hsb', ht⟩ := h.replace
        [⟨e.off, offset - e.off, deferredIo.split 0 (offset - e.off) e.val⟩] (e.stop - offset)
        (by simp [deferredIo]) (by simp; omega)
      exact ⟨sb', by rw [hsb']; rfl, ht⟩
  · rw [if_neg hin, cut, if_pos (.inl (by omega))]
    exact ⟨sb, rfl, h⟩

variable (offset) in
/-- **Discarding** a range cuts it out of the map. -/
theorem discard_spec {b : DeferredBatch} (hwf : WF deferredIo 0 b.iomap) (hlen : 0 < length)
    (h : Tracks b.seqBytes b.iomap) :
    ∃ sb', b.discard offset length = some ⟨erase deferredIo offset length b.iomap, sb'⟩ ∧
      Tracks sb' (erase deferredIo offset length b.iomap) := by
  obtain ⟨hsplit, hbefore, hafter, hlast⟩ := hwf.cut_at offset
  rw [DeferredBatch.discard, erase, if_neg hlen.ne']
  generalize b.iomap.takeWhile (fun e => e.off < offset) = before at *
  generalize b.iomap.dropWhile (fun e => e.off < offset) = after at *
  rw [hsplit] at hwf h ⊢
  have hwfAfter : WF deferredIo 0 after :=
    ⟨(pairwise_append.1 hwf.apart).2.1, fun e he => hwf.sized e (by simp [he])⟩
  rcases eq_nil_or_concat' before with rfl | ⟨pre, p, rfl⟩
  · obtain ⟨sb', hrun, ht⟩ := discardLoop_spec length hwfAfter hafter [] h
    exact ⟨sb', by simp [hrun], ht⟩
  have hp := hwf.sized p (by simp)
  have hpre : pre.flatMap (cut deferredIo offset length) = pre :=
    flatMap_cut_of_forall fun e he => .inl (hlast pre p rfl e he)
  obtain ⟨sb₁, hrun₁, ht₁⟩ := discardBefore_spec length hp.2 (hbefore p (by simp))
    (show Tracks b.seqBytes (pre ++ p :: after) by simpa using h)
  obtain ⟨sb', hrun, ht⟩ := discardLoop_spec length hwfAfter hafter
    (pre ++ cut deferredIo offset length p) (by simpa using ht₁)
  refine ⟨sb', ?_, ?_⟩
  · simp [hrun₁, hrun, hpre]
  · simpa [hpre] using ht

/-! ## Writing -/

theorem place_eq (e : Extent DeferredIo) (m : IntervalMap DeferredIo) : place deferredIo e m
    = m.takeWhile (fun p => p.off < e.off) ++ e :: m.dropWhile fun p => p.off < e.off :=
  place_eq_of_not_merge (fun _ _ => rfl) e m

theorem Tracks.add (h : Tracks sb m) (e : Extent DeferredIo) : Tracks (update sb e.val.seq
        (some (((sb e.val.seq).getD 0 + e.len).bmod (2 ^ 32)))) (place deferredIo e m) := by
  have hcarried : ∀ s, carried s (place deferredIo e m)
      = carried s m + if e.val.seq = s then e.len else 0 := by
    intro s
    have hsplit := congrArg (carried s) (takeWhile_append_dropWhile
      (p := fun p : Extent DeferredIo => p.off < e.off) (l := m))
    rw [carried_append] at hsplit
    rw [place_eq, carried_append, carried_cons]
    omega
  intro s
  by_cases hs : e.val.seq = s
  · subst hs
    rw [update_self, hcarried, if_pos rfl]
    rcases h e.val.seq with hsome | ⟨hnone, hall⟩
    · rw [hsome, getD_some, Int.bmod_add_bmod]
      simp
    · rw [hnone, carried_of_forall_ne hall]
      simp
  · rw [update_of_ne (Ne.symm hs), hcarried, if_neg hs]
    refine (h s).imp (fun hsome => by rw [hsome]; simp) fun ⟨hnone, hall⟩ => ⟨hnone, fun p hp => ?_⟩
    rw [place_eq] at hp
    rcases mem_append.1 hp with hp | hp
    · exact hall p ((takeWhile_sublist _).mem hp)
    · rcases mem_cons.1 hp with rfl | hp
      · exact hs
      · exact hall p ((dropWhile_sublist _).mem hp)

variable (seq offset) in
/-- **`prepare_write`** inserts its data into the map. -/
theorem prepareWrite_spec {b : DeferredBatch} (hwf : WF deferredIo 0 b.iomap)
    (h : Tracks b.seqBytes b.iomap) {data : List UInt8} (hdata : data ≠ []) :
    ∃ b', b.prepareWrite seq offset data = some b' ∧ WF deferredIo 0 b'.iomap ∧
      Tracks b'.seqBytes b'.iomap ∧
      ∀ x, get byteAt b'.iomap x = if offset ≤ x ∧ x < offset + data.length then
        some (data.getD (x - offset) 0, seq) else get byteAt b.iomap x := by
  have hlen : 0 < data.length := length_pos_iff.2 hdata
  obtain ⟨sb, hrun, ht⟩ := discard_spec offset hwf hlen h
  obtain ⟨m, hm, hwf', hget⟩ := insert_spec deferredIo_lawful (.inl rfl) hwf offset
    (a := ⟨data, seq⟩) hlen rfl
  have hplace : place deferredIo (ioEntry offset ⟨data, seq⟩)
      (erase deferredIo offset data.length b.iomap) = m := by
    rw [IntervalMap.insert, if_pos ⟨hlen, rfl⟩] at hm
    exact some_inj.1 hm
  have hnew : ∀ e ∈ erase deferredIo offset data.length b.iomap, e.off ≠ offset := by
    intro e he heq
    have hroom := erase_disjoint deferredIo_lawful hwf hlen he
    have hsize := (WF.erase deferredIo_lawful (by omega) hwf offset data.length).sized e he
    have hstop := e.stop_eq
    omega
  refine ⟨⟨m, _⟩, ?_, hwf', hplace ▸ ht.add (ioEntry offset ⟨data, seq⟩), hget⟩
  rw [DeferredBatch.prepareWrite, hrun, bind_eq_bind, bind_some, assert_bind hnew,
    ← hplace, place_eq]
  rfl

/-- What the last write that covers a byte put there, and its sequence number. -/
def lastWriter (ws : List DeferredWrite) (x : ℕ) : Option (UInt8 × ℕ) :=
  ws.foldl (fun last w => if w.offset ≤ x ∧ x < w.offset + w.data.length then
    some (w.data.getD (x - w.offset) 0, w.seq) else last) none

variable (ws : List DeferredWrite)

theorem prepareWrites_spec :
    ∃ b, prepareWrites ws = some b ∧ WF deferredIo 0 b.iomap ∧ Tracks b.seqBytes b.iomap ∧
      ∀ x, get byteAt b.iomap x = lastWriter ws x := by
  refine foldlM_invariant (fun (pre : List DeferredWrite) (b : DeferredBatch) =>
    WF deferredIo 0 b.iomap ∧ Tracks b.seqBytes b.iomap ∧
      ∀ x, get byteAt b.iomap x = lastWriter pre x)
    ⟨WF.nil 0, fun s => .inr ⟨rfl, by simp⟩, fun _ => rfl⟩ ?_
  intro pre w post b _ hinv
  obtain ⟨hwf, ht, hget⟩ := hinv
  obtain ⟨b', hrun, hwf', ht', hget'⟩ := prepareWrite_spec w.seq w.offset hwf ht w.nonempty
  refine ⟨b', hrun, hwf', ht', fun x => ?_⟩
  rw [hget', hget, lastWriter, lastWriter, foldl_append]
  rfl

variable (seq) in
/-- The lengths that are added up are the number of bytes held. -/
theorem carried_eq_encard (hwf : WF deferredIo 0 m) :
    (carried seq m : ℕ∞) = {x | ∃ v, get byteAt m x = some (v, seq)}.encard := by
  induction m with
  | nil => simp
  | cons e m ih =>
    have hnone : ∀ x, e.Covers x → get byteAt m x = none := by
      intro x hx
      refine (get_eq_none_iff ..).2 fun p hp hpx => ?_
      have hap := hwf.head p hp
      have h₁ := hx.2
      have h₂ := hpx.1
      omega
    have hset : {x | ∃ v, get byteAt (e :: m) x = some (v, seq)}
        = (if e.val.seq = seq then ↑(Finset.Ico e.off e.stop) else ∅) ∪
          {x | ∃ v, get byteAt m x = some (v, seq)} := by
      ext x
      by_cases hx : e.Covers x
      · have hx' := hx
        by_cases hs : e.val.seq = seq <;>
          simp [get_cons, hx, hnone x hx, byteAt, hs, hx'.1, hx'.2]
      · have hx' : ¬ (e.off ≤ x ∧ x < e.stop) := hx
        by_cases hs : e.val.seq = seq
        · simp [get_cons, hx, hs, hx']
        · simp [get_cons, hx, hs]
    have hdisj : Disjoint (if e.val.seq = seq then ↑(Finset.Ico e.off e.stop) else (∅ : Set ℕ))
        {x | ∃ v, get byteAt m x = some (v, seq)} := by
      refine Set.disjoint_left.2 fun x hx ⟨v, hv⟩ => ?_
      split_ifs at hx with hs
      · rw [hnone x (by simpa [Extent.Covers] using hx)] at hv
        exact absurd hv (by simp)
      · exact hx
    rw [hset, Set.encard_union_eq hdisj, ← ih hwf.tail, carried_cons]
    split_ifs
    · rw [Set.encard_coe_eq_coe_finsetCard, Nat.card_Ico, Extent.stop, Nat.add_sub_cancel_left]
      rfl
    · simp

/-- What the batch should hold. -/
structure Collapsed (ws : List DeferredWrite) (b : DeferredBatch) : Prop where
  disjoint : b.iomap.Pairwise fun e e' => e.stop ≤ e'.off
  last : ∀ x, get byteAt b.iomap x = lastWriter ws x
  audit : ∀ seq, (b.seqBytes seq).getD 0 = carried seq b.iomap

/-- The batch holds the last writes, and its counts are the bytes they left, as an `int`. -/
theorem prepareWrites_counts : ∃ b, prepareWrites ws = some b ∧ WF deferredIo 0 b.iomap ∧
    (∀ x, get byteAt b.iomap x = lastWriter ws x) ∧
    ∀ seq, carried seq b.iomap = {x | ∃ v, lastWriter ws x = some (v, seq)}.ncard ∧
      (b.seqBytes seq).getD 0 = (carried seq b.iomap : ℤ).bmod (2 ^ 32) := by
  obtain ⟨b, hrun, hwf, ht, hget⟩ := prepareWrites_spec ws
  refine ⟨b, hrun, hwf, hget, fun s => ⟨?_, ?_⟩⟩
  · have hcard := carried_eq_encard s hwf
    simp only [hget] at hcard
    rw [Set.ncard, ← hcard, ENat.toNat_natCast]
  · rcases ht s with hsome | ⟨hnone, hall⟩
    · rw [hsome, getD_some]
    · rw [hnone, carried_of_forall_ne hall]
      simp

/-- **Deferred writes collapse to the last writer**, and the counts are exact as long as the bytes
of each sequence number fit in an `int`. -/
theorem prepareWrites_iff : (∃ b, prepareWrites ws = some b ∧ Collapsed ws b) ↔
    ∀ seq, {x | ∃ v, lastWriter ws x = some (v, seq)}.ncard < 2 ^ 31 := by
  obtain ⟨b, hrun, hwf, hget, hcount⟩ := prepareWrites_counts ws
  rw [hrun]
  simp only [some_inj, exists_eq_left', ← (hcount _).1]
  constructor
  · intro hc s
    have hle := Int.bmod_lt (x := (carried s b.iomap : ℤ)) (m := 2 ^ 32) (by norm_num)
    rw [← (hcount s).2, hc.audit] at hle
    omega
  · intro hlt
    refine ⟨hwf.apart, hget, fun s => ?_⟩
    rw [(hcount s).2]
    have := hlt s
    exact Int.bmod_eq_of_le (by omega) (by omega)

/-- A write of `n + 1` bytes with the sequence number 1. -/
def zeroWrite (n : ℕ) : DeferredWrite := ⟨1, 0, replicate (n + 1) 0, by simp⟩

theorem lastWriter_zeroWrite (n : ℕ) :
    {x | ∃ v, lastWriter [zeroWrite n] x = some (v, 1)} = Finset.range (n + 1) := by
  ext x
  simp [lastWriter, zeroWrite]

/-- After a write of 2³¹ bytes the count of its sequence number is negative. -/
theorem prepareWrites_large : ∃ b, prepareWrites [zeroWrite (2 ^ 31 - 1)] = some b ∧
    carried 1 b.iomap = 2 ^ 31 ∧ (b.seqBytes 1).getD 0 = -2 ^ 31 := by
  obtain ⟨b, hrun, -, -, hcount⟩ := prepareWrites_counts [zeroWrite (2 ^ 31 - 1)]
  obtain ⟨hcard, hbytes⟩ := hcount 1
  rw [lastWriter_zeroWrite, Set.ncard_coe_finset, Finset.card_range] at hcard
  refine ⟨b, hrun, hcard, ?_⟩
  rw [hbytes, hcard]
  decide +kernel

end

end Ceph.Os
