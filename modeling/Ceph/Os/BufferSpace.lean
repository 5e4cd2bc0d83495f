import Ceph.Lib.IntervalMap

/-!
# Cached buffers in flight

`BufferSpace` of `os/bluestore/BlueStore.h`: the cached data of a blob, and the list of its buffers
whose writes are in flight.  `finish_write` stops at the first buffer of a later sequence number, so
the list has to be sorted; but a buffer that a later call cuts leaves its tail behind as a new
buffer of the old sequence number, at the end of the list.

* `discard_eq` — what cutting a range out does to the list.
* `good_iff` — the runs along which the list stays sorted and every write is finished.
-/

namespace Ceph.Os

open IntervalMap Loop List

/-- The state of a buffer; empty buffers come only from a cache that is trimmed. -/
inductive BufferState where
  | clean
  | writing
  deriving DecidableEq

/-- `Buffer`, without its place: `noCache` is its flag. -/
structure Buffer where
  state : BufferState
  seq : ℕ
  noCache : Bool
  data : List UInt8
  deriving DecidableEq

/-- A buffer is cut; the part behind is a new buffer without flags. -/
def buffers : Splitter Buffer where
  length := fun b => b.data.length
  split := fun off len b =>
    { b with noCache := b.noCache && decide (off = 0), data := (b.data.drop off).take len }
  canMerge := fun _ _ => false
  merge := fun a _ => a

/-- A buffer in flight.  Its offset, sequence number and flags never change. -/
structure InFlight where
  offset : ℕ
  seq : ℕ
  noCache : Bool
  deriving DecidableEq

variable (e : Extent Buffer)

def inFlight : InFlight := ⟨e.off, e.val.seq, e.val.noCache⟩

/-- `BufferSpace`: the buffers in the order of their offsets, and those in flight. -/
structure BufferSpace where
  bufferMap : IntervalMap Buffer
  writing : List InFlight
  deriving DecidableEq

open BufferSpace

/-! ## The functions -/

/-- `writing.push_back`, for a buffer in flight -/
def pushWriting (wr : List InFlight) : List InFlight :=
  if e.val.state = .writing then wr ++ [inFlight e] else wr

/-- `writing.erase`, for a buffer in flight -/
def eraseWriting (wr : List InFlight) : List InFlight :=
  if e.val.state = .writing then wr.filter fun w => w.offset ≠ e.off else wr

/-- `truncate` -/
def truncate (newlen : ℕ) : Extent Buffer :=
  ⟨e.off, newlen, buffers.split 0 newlen e.val⟩

/-- The new buffer at `stop` for what lies behind. -/
def tailFrom (stop : ℕ) : Extent Buffer :=
  ⟨stop, e.stop - stop, buffers.split (e.len - (e.stop - stop)) (e.stop - stop) e.val⟩

/-- `_data_lower_bound`: the buffers before it and from it on. -/
def dataLowerBound (offset : ℕ) (m : IntervalMap Buffer) :
    IntervalMap Buffer × IntervalMap Buffer :=
  let before := m.takeWhile fun e => e.off < offset
  let after := m.dropWhile fun e => e.off < offset
  match before.getLast? with
  | none => (before, after)
  | some e => if e.stop ≤ offset then (before, after) else (before.dropLast, e :: after)

/-- The loop of `_discard`. -/
def discardBuffers (offset stop : ℕ) : IntervalMap Buffer → List InFlight →
    IntervalMap Buffer × List InFlight
  | [], wr => ([], wr)
  | b :: rest, wr =>
    if stop ≤ b.off then (b :: rest, wr)
    else if b.off < offset then
      if stop < b.stop then
        -- drop middle
        (truncate b (offset - b.off) :: tailFrom b stop :: rest, pushWriting (tailFrom b stop) wr)
      else
        -- drop tail
        let r := discardBuffers offset stop rest wr
        (truncate b (offset - b.off) :: r.1, r.2)
    else if b.stop ≤ stop then discardBuffers offset stop rest (eraseWriting b wr)
    else
      -- drop front
      (tailFrom b stop :: rest, eraseWriting b (pushWriting (tailFrom b stop) wr))

namespace BufferSpace

variable (s : BufferSpace)

/-- `_discard` -/
def discard (offset length : ℕ) : BufferSpace :=
  let parts := dataLowerBound offset s.bufferMap
  let r := discardBuffers offset (offset + length) parts.2 s.writing
  ⟨parts.1 ++ r.1, r.2⟩

/-- `_add_buffer` -/
def addBuffer (e : Extent Buffer) : BufferSpace where
  bufferMap := s.bufferMap.takeWhile (fun p => p.off < e.off) ++
    e :: s.bufferMap.dropWhile fun p => p.off < e.off
  writing := pushWriting e s.writing

/-- `write` -/
def write (seq offset : ℕ) (data : List UInt8) (noCache : Bool) : BufferSpace :=
  (s.discard offset data.length).addBuffer ⟨offset, data.length, ⟨.writing, seq, noCache, data⟩⟩

/-- `did_read` -/
def didRead (offset : ℕ) (data : List UInt8) : BufferSpace :=
  (s.discard offset data.length).addBuffer ⟨offset, data.length, ⟨.clean, 0, false, data⟩⟩

/-- The buffer of a finished write goes, or becomes clean. -/
def finish (m : IntervalMap Buffer) (w : InFlight) : IntervalMap Buffer :=
  if w.noCache then m.filter fun e => e.off ≠ w.offset
  else m.map fun e => if e.off = w.offset then { e with val.state := .clean } else e

/-- `finish_write` -/
def finishWrite (seq : ℕ) (s : BufferSpace) : BufferSpace :=
  let seen := s.writing.takeWhile fun w => w.seq ≤ seq
  ⟨(seen.filter fun w => w.seq = seq).foldl finish s.bufferMap,
    seen.filter (fun w => w.seq ≠ seq) ++ s.writing.dropWhile fun w => w.seq ≤ seq⟩

/-- The loop of `split`, from the last buffer back: what stays, in reverse order, and `r`. -/
def splitLoop (pos : ℕ) : IntervalMap Buffer → List InFlight → BufferSpace →
    IntervalMap Buffer × List InFlight × BufferSpace
  | [], wr, r => ([], wr, r)
  | p :: rest, wr, r =>
    if p.stop ≤ pos then (p :: rest, wr, r)
    else if p.off < pos then
      (truncate p (pos - p.off) :: rest, wr, r.addBuffer { tailFrom p pos with off := 0 })
    else splitLoop pos rest (eraseWriting p wr)
      (r.addBuffer { p with off := p.off - pos, val.noCache := false })

/-- `split` into a new space. -/
def split (pos : ℕ) : Option (BufferSpace × BufferSpace) := do
  let parts := splitLoop pos s.bufferMap.reverse s.writing ⟨[], []⟩
  if s.bufferMap = [] then some (s, ⟨[], []⟩)
  else
    assert (parts.2.1 = [])
    some (⟨parts.1.reverse, parts.2.1⟩, parts.2.2)

end BufferSpace

/-! ## Cutting a range out -/

section

variable {m : IntervalMap Buffer} {e : Extent Buffer} {offset length : ℕ} {wr : List InFlight}

theorem buffers_lawful : buffers.Lawful fun b i => b.data.getD i 0 where
  length_split := by
    intro a o l h
    simp only [buffers, length_take, length_drop] at h ⊢
    omega
  at_split := by
    intro a o l i h hi
    simp [buffers, getD_eq_getElem?_getD, hi]
  length_merge := by simp [buffers]
  at_merge_left := by simp [buffers]
  at_merge_right := by simp [buffers]

variable (offset) in
/-- The list is cut where buffers begin to reach beyond `offset`. -/
theorem dataLowerBound_spec (hwf : WF buffers 0 m) :
    m = (dataLowerBound offset m).1 ++ (dataLowerBound offset m).2 ∧
      (∀ e ∈ (dataLowerBound offset m).1, e.stop ≤ offset) ∧
      ∀ e ∈ (dataLowerBound offset m).2, offset < e.stop := by
  obtain ⟨hsplit, -, hoff, hlast⟩ := hwf.cut_at offset
  have hafter : ∀ e ∈ m.dropWhile (fun e => e.off < offset), offset < e.stop := by
    intro e he
    exact (hoff e he).trans_lt (hwf.off_lt_stop ((dropWhile_sublist _).mem he))
  unfold dataLowerBound
  dsimp only
  generalize m.takeWhile (fun e => decide (e.off < offset)) = before at *
  rcases eq_nil_or_concat' before with rfl | ⟨pre, p, rfl⟩
  · exact ⟨hsplit, by simp, hafter⟩
  have hpre := hlast pre p rfl
  rw [List.getLast?_concat]
  dsimp only
  split_ifs with hp
  · refine ⟨hsplit, fun e he => ?_, hafter⟩
    rcases mem_append.1 he with he | he
    · exact hpre e he
    · exact mem_singleton.1 he ▸ hp
  · rw [dropLast_concat]
    refine ⟨by simpa using hsplit, hpre, fun e he => ?_⟩
    rcases mem_cons.1 he with rfl | he
    · omega
    · exact hafter e he

/-- The buffers in flight whose tails are left behind. -/
def tails (stop : ℕ) (m : IntervalMap Buffer) : List InFlight :=
  (m.filter fun e => e.val.state = .writing ∧ e.off < stop ∧ stop < e.stop).map
    fun e => inFlight (tailFrom e stop)

/-- The buffer of `w` is taken out. -/
def Removed (offset stop : ℕ) (m : IntervalMap Buffer) (w : InFlight) : Prop :=
  ∃ e ∈ m, e.val.state = .writing ∧ offset ≤ e.off ∧ e.off < stop ∧ w.offset = e.off

instance (offset stop : ℕ) (m : IntervalMap Buffer) (w : InFlight) :
    Decidable (Removed offset stop m w) :=
  inferInstanceAs (Decidable (∃ e ∈ m, _ ∧ _ ∧ _ ∧ _))

theorem removed_cons (stop : ℕ) (w : InFlight) : Removed offset stop (e :: m) w ↔
    (e.val.state = .writing ∧ offset ≤ e.off ∧ e.off < stop ∧ w.offset = e.off) ∨
      Removed offset stop m w := by
  simp [Removed]

theorem tails_cons (stop : ℕ) : tails stop (e :: m) =
    (if e.val.state = .writing ∧ e.off < stop ∧ stop < e.stop then [inFlight (tailFrom e stop)]
      else []) ++ tails stop m := by
  unfold tails
  split_ifs <;> simp_all

theorem mem_tails {stop : ℕ} {w : InFlight} : w ∈ tails stop m ↔ ∃ e ∈ m,
    (e.val.state = .writing ∧ e.off < stop ∧ stop < e.stop) ∧ inFlight (tailFrom e stop) = w := by
  simp [tails, and_assoc]

theorem not_removed_of_forall {stop : ℕ} (hm : ∀ e ∈ m, stop ≤ e.off) (w : InFlight) :
    ¬ Removed offset stop m w := by
  rintro ⟨e, he, -, -, hlt, -⟩
  exact absurd hlt (not_lt.2 (hm e he))

theorem tails_eq_nil {stop : ℕ} (hm : ∀ e ∈ m, e.off < stop → e.stop ≤ stop) :
    tails stop m = [] := by
  rw [tails, filter_eq_nil_iff.2, map_nil]
  intro e he h
  simp only [decide_eq_true_eq] at h
  have := hm e he h.2.1
  omega

theorem discardBuffers_spec (hwf : WF buffers 0 m) (hm : ∀ e ∈ m, offset < e.stop) :
    discardBuffers offset (offset + length) m wr = (m.flatMap (cut buffers offset length),
      wr.filter (fun w => ¬ Removed offset (offset + length) m w) ++
      tails (offset + length) m) := by
  induction m generalizing wr with
  | nil => simp [discardBuffers, Removed, tails]
  | cons b m ih =>
    have hb := hm b mem_cons_self
    have hbehind : ∀ e ∈ m, b.stop ≤ e.off := fun e he => hwf.head e he
    have ih := fun wr => @ih wr hwf.tail fun e he => hm e (mem_cons_of_mem _ he)
    have hbeyond : offset + length ≤ b.stop →
        (∀ w, ¬ Removed offset (offset + length) m w) ∧ tails (offset + length) m = [] ∧
          m.flatMap (cut buffers offset length) = m := by
      intro hle
      have hout : ∀ e ∈ m, offset + length ≤ e.off := fun e he => hle.trans (hbehind e he)
      exact ⟨not_removed_of_forall hout, tails_eq_nil fun e he h => absurd h (not_lt.2 (hout e he)),
        flatMap_cut_of_forall fun e he => .inr (hout e he)⟩
    rw [discardBuffers, flatMap_cons, tails_cons]
    simp only [removed_cons]
    by_cases hfar : offset + length ≤ b.off
    · obtain ⟨hr, ht, hc⟩ := hbeyond (hfar.trans (by simp [Extent.stop]))
      rw [if_pos hfar, hc, ht, cut, if_pos (.inr hfar)]
      simp [hr, not_lt.2 hfar]
    have hcut : cut buffers offset length b =
        leftOf buffers offset b ++ rightOf buffers (offset + length) b := by
      rw [cut, if_neg (by omega)]
    rw [if_neg hfar, hcut, leftOf, rightOf]
    by_cases hfront : b.off < offset
    · rw [if_pos hfront, if_pos hfront]
      by_cases hback : offset + length < b.stop
      · -- drop middle
        obtain ⟨hr, ht, hc⟩ := hbeyond hback.le
        rw [if_pos hback, if_pos hback, hc, ht, pushWriting]
        by_cases hwr : b.val.state = .writing <;>
          simp [hr, hwr, hback, not_le.2 hfront, not_le.1 hfar, truncate, tailFrom, buffers]
      · -- drop tail
        rw [if_neg hback, if_neg hback, ih]
        simp [hback, not_le.2 hfront, truncate]
    · rw [if_neg hfront, if_neg hfront]
      by_cases hback : b.stop ≤ offset + length
      · rw [if_pos hback, if_neg (not_lt.2 hback), ih, eraseWriting]
        by_cases hwr : b.val.state = .writing
        · simp [hwr, not_lt.2 hback, not_lt.1 hfront, not_le.1 hfar, filter_filter, Bool.and_comm]
        · simp [hwr]
      -- drop front
      obtain ⟨hr, ht, hc⟩ := hbeyond (not_le.1 hback).le
      rw [if_neg hback, if_pos (not_le.1 hback), hc, ht, eraseWriting, pushWriting]
      by_cases hwr : b.val.state = .writing
      · have hne : ¬ offset + length = b.off := by omega
        simp [hr, hwr, hne, not_le.1 hback, not_lt.1 hfront, not_le.1 hfar, filter_append,
          inFlight, tailFrom, buffers]
      · simp [hr, hwr, tailFrom, buffers]

end

/-! ## What every call keeps -/

/-- The buffers lie apart; the list has exactly those in flight, none later than `last`. -/
structure Inv (s : BufferSpace) (last : ℕ) : Prop where
  wf : WF buffers 0 s.bufferMap
  linked : ∀ w, w ∈ s.writing ↔ ∃ e ∈ s.bufferMap, e.val.state = .writing ∧ inFlight e = w
  recent : ∀ w ∈ s.writing, w.seq ≤ last

/-- The list is sorted by sequence number. -/
def Ordered (s : BufferSpace) : Prop := s.writing.Pairwise fun a b => a.seq ≤ b.seq

instance (s : BufferSpace) : Decidable (Ordered s) := inferInstanceAs (Decidable (Pairwise _ _))

theorem eq_of_off_eq {m : IntervalMap Buffer} (h : WF buffers 0 m) {e e' : Extent Buffer}
    (he : e ∈ m) (he' : e' ∈ m) (hoff : e.off = e'.off) : e = e' := by
  by_contra hne
  have hlt := h.off_lt_stop he
  have hlt' := h.off_lt_stop he'
  have := h.apart_of_ne he he' hne
  omega

/-- No write is in flight in a cut that leaves a tail, but those the tail may follow. -/
def CutSafe (s : BufferSpace) (offset length : ℕ) : Prop :=
  ∀ e ∈ s.bufferMap, e.val.state = .writing → e.off < offset + length → offset + length < e.stop →
    ∀ w ∈ s.writing, ¬ (offset ≤ w.offset ∧ w.offset < offset + length) → w.seq ≤ e.val.seq

section

variable {s : BufferSpace} {last : ℕ} (h : Inv s last) (offset length : ℕ)
include h

/-- **What a cut does to the list.**  The buffers that begin in the range go, and the tail of the
one that reaches beyond it comes last. -/
theorem discard_eq : s.discard offset length = ⟨s.bufferMap.flatMap (cut buffers offset length),
    s.writing.filter (fun w => ¬ (offset ≤ w.offset ∧ w.offset < offset + length)) ++
      tails (offset + length) s.bufferMap⟩ := by
  obtain ⟨hsplit, hbefore, hafter⟩ := dataLowerBound_spec offset h.wf
  have hsub : (dataLowerBound offset s.bufferMap).2.Sublist s.bufferMap := by
    conv_rhs => rw [hsplit]
    exact sublist_append_right _ _
  have hwf := h.wf.sublist hsub
  have hout : ∀ w ∈ s.writing,
      (Removed offset (offset + length) (dataLowerBound offset s.bufferMap).2 w ↔
        offset ≤ w.offset ∧ w.offset < offset + length) := by
    intro w hw
    refine ⟨fun ⟨e, _, _, h1, h2, h3⟩ => by omega, fun hin => ?_⟩
    obtain ⟨e, he, hwr, rfl⟩ := (h.linked w).1 hw
    refine ⟨e, ?_, hwr, hin.1, hin.2, rfl⟩
    rw [hsplit] at he
    refine (mem_append.1 he).resolve_left fun hb => ?_
    have h1 := hbefore e hb
    have h2 := h.wf.off_lt_stop (hsplit ▸ he : e ∈ s.bufferMap)
    have h4 : (inFlight e).offset = e.off := rfl
    omega
  have htails : tails (offset + length) s.bufferMap =
      tails (offset + length) (dataLowerBound offset s.bufferMap).2 := by
    conv_lhs => rw [hsplit]
    rw [tails, filter_append, map_append, ← tails, ← tails, tails_eq_nil, nil_append]
    intro e he _
    have := hbefore e he
    omega
  have hmap : s.bufferMap.flatMap (cut buffers offset length) =
      (dataLowerBound offset s.bufferMap).1 ++
        (dataLowerBound offset s.bufferMap).2.flatMap (cut buffers offset length) := by
    conv_lhs => rw [hsplit]
    rw [flatMap_append, flatMap_cut_of_forall fun e he => .inl (hbefore e he)]
  rw [BufferSpace.discard, discardBuffers_spec hwf hafter, hmap, htails]
  dsimp only
  congr 2
  exact filter_congr fun w hw => by simp only [hout w hw]

omit h in
theorem mem_cut_buffers {p e : Extent Buffer} : p ∈ cut buffers offset length e ↔
    if e.stop ≤ offset ∨ offset + length ≤ e.off then p = e
    else e.off < offset ∧ p = truncate e (offset - e.off) ∨
      offset + length < e.stop ∧ p = tailFrom e (offset + length) := by
  rw [cut, leftOf, rightOf]
  split_ifs <;> simp_all [truncate, tailFrom]

theorem Inv.discard : Inv (s.discard offset length) last := by
  rw [discard_eq h]
  refine ⟨h.wf.flatMap_cut buffers_lawful offset (Nat.zero_le _), fun w => ?_, fun w hw => ?_⟩
  · constructor
    · intro hw
      rcases mem_append.1 hw with hw | hw
      · obtain ⟨hw, hnot⟩ := mem_filter.1 hw
        obtain ⟨e, he, hwr, rfl⟩ := (h.linked w).1 hw
        have hnot : ¬ (offset ≤ e.off ∧ e.off < offset + length) := of_decide_eq_true hnot
        by_cases hout : e.stop ≤ offset ∨ offset + length ≤ e.off
        · exact ⟨e, mem_flatMap.2 ⟨e, he, by rw [mem_cut_buffers, if_pos hout]⟩, hwr, rfl⟩
        · refine ⟨truncate e (offset - e.off), mem_flatMap.2 ⟨e, he, ?_⟩, hwr, ?_⟩
          · rw [mem_cut_buffers, if_neg hout]
            exact .inl ⟨by omega, rfl⟩
          · simp [inFlight, truncate, buffers]
      · obtain ⟨e, he, ⟨hwr, h1, h2⟩, rfl⟩ := mem_tails.1 hw
        refine ⟨tailFrom e (offset + length), mem_flatMap.2 ⟨e, he, ?_⟩, hwr, rfl⟩
        rw [mem_cut_buffers, if_neg (by omega)]
        exact .inr ⟨h2, rfl⟩
    · rintro ⟨p, hp, hwr, rfl⟩
      obtain ⟨e, he, hp⟩ := mem_flatMap.1 hp
      rw [mem_cut_buffers] at hp
      have hlt := h.wf.off_lt_stop he
      split_ifs at hp with hout
      · subst hp
        refine mem_append_left _ (mem_filter.2 ⟨(h.linked _).2 ⟨p, he, hwr, rfl⟩, ?_⟩)
        refine decide_eq_true (fun hin : offset ≤ p.off ∧ p.off < offset + length => ?_)
        omega
      · rcases hp with ⟨hlt, rfl⟩ | ⟨hlt, rfl⟩
        · refine mem_append_left _ (mem_filter.2 ⟨(h.linked _).2 ⟨e, he, hwr, ?_⟩, ?_⟩)
          · simp [inFlight, truncate, buffers]
          · refine decide_eq_true (fun hin : offset ≤ e.off ∧ e.off < offset + length => ?_)
            omega
        · exact mem_append_right _ (mem_tails.2 ⟨e, he, ⟨hwr, by omega, hlt⟩, rfl⟩)
  · rcases mem_append.1 hw with hw | hw
    · exact h.recent w (mem_filter.1 hw).1
    · obtain ⟨e, he, ⟨hwr, -⟩, rfl⟩ := mem_tails.1 hw
      exact h.recent (inFlight e) ((h.linked _).2 ⟨e, he, hwr, rfl⟩)

theorem ordered_discard_iff (ho : Ordered s) :
    Ordered (s.discard offset length) ↔ CutSafe s offset length := by
  have htails : (tails (offset + length) s.bufferMap).Pairwise fun a b => a.seq ≤ b.seq := by
    rw [tails, pairwise_map]
    refine (h.wf.apart.filter _).imp_of_mem fun {a b} ha hb hab => ?_
    have h1 := of_decide_eq_true (mem_filter.1 ha).2
    have h2 := of_decide_eq_true (mem_filter.1 hb).2
    omega
  rw [Ordered, discard_eq h, pairwise_append]
  constructor
  · rintro ⟨-, -, hall⟩ e he hwr h1 h2 w hw hnot
    exact hall w (mem_filter.2 ⟨hw, decide_eq_true hnot⟩) _
      (mem_tails.2 ⟨e, he, ⟨hwr, h1, h2⟩, rfl⟩)
  · refine fun hsafe => ⟨Pairwise.filter _ ho, htails, fun w hw t ht => ?_⟩
    obtain ⟨hw, hnot⟩ := mem_filter.1 hw
    obtain ⟨e, he, ⟨hwr, h1, h2⟩, rfl⟩ := mem_tails.1 ht
    exact hsafe e he hwr h1 h2 w hw (of_decide_eq_true hnot)

end

section

variable {s : BufferSpace} {last : ℕ} {e : Extent Buffer}

theorem mem_addBuffer {p : Extent Buffer} :
    p ∈ (s.addBuffer e).bufferMap ↔ p = e ∨ p ∈ s.bufferMap := by
  have hall := takeWhile_append_dropWhile (p := fun p : Extent Buffer => p.off < e.off)
    (l := s.bufferMap)
  conv_rhs => rw [← hall]
  simp only [addBuffer, mem_append, mem_cons]
  tauto

theorem mem_pushWriting {w : InFlight} {wr : List InFlight} :
    w ∈ pushWriting e wr ↔ w ∈ wr ∨ e.val.state = .writing ∧ inFlight e = w := by
  rw [pushWriting]
  split_ifs with hwr <;> simp [hwr, eq_comm]

theorem Inv.addBuffer (h : Inv s last) (he : 0 < e.len ∧ e.val.data.length = e.len)
    (hroom : ∀ p ∈ s.bufferMap, p.stop ≤ e.off ∨ e.stop ≤ p.off) {next : ℕ} (hle : last ≤ next)
    (hseq : e.val.state = .writing → e.val.seq ≤ next) : Inv (s.addBuffer e) next := by
  refine ⟨?_, fun w => ?_, fun w hw => ?_⟩
  · have hwf := WF.place buffers_lawful (.inl rfl) he h.wf hroom
    rwa [place_eq_of_not_merge fun _ _ => rfl] at hwf
  · have hpush : w ∈ (s.addBuffer e).writing ↔
        w ∈ s.writing ∨ e.val.state = .writing ∧ inFlight e = w := mem_pushWriting
    simp only [hpush, h.linked, mem_addBuffer, or_and_right, exists_or, exists_eq_left]
    exact or_comm
  · rcases mem_pushWriting.1 hw with hw | ⟨hwr, rfl⟩
    · exact (h.recent w hw).trans hle
    · exact hseq hwr

theorem ordered_addBuffer_iff (h : Inv s last) (hseq : e.val.state = .writing → last ≤ e.val.seq) :
    Ordered (s.addBuffer e) ↔ Ordered s := by
  rw [Ordered, addBuffer, pushWriting]
  split_ifs with hwr
  · rw [pairwise_append]
    refine ⟨fun ho => ho.1, fun ho => ⟨ho, pairwise_singleton _ _, fun w hw t ht => ?_⟩⟩
    rw [mem_singleton.1 ht]
    exact (h.recent w hw).trans (hseq hwr)
  · rfl

/-- A buffer takes the place of what its range had. -/
theorem Inv.replace (h : Inv s last) (he : 0 < e.len ∧ e.val.data.length = e.len) {next : ℕ}
    (hle : last ≤ next) (hseq : e.val.state = .writing → e.val.seq ≤ next) :
    Inv ((s.discard e.off e.len).addBuffer e) next := by
  refine (h.discard e.off e.len).addBuffer he (fun p hp => ?_) hle hseq
  rw [discard_eq h] at hp
  obtain ⟨b, hb, hp⟩ := mem_flatMap.1 hp
  exact (mem_cut buffers_lawful (h.wf.sized b hb) hp).2.2.1

theorem ordered_replace_iff (h : Inv s last) (ho : Ordered s)
    (hseq : e.val.state = .writing → last ≤ e.val.seq) :
    Ordered ((s.discard e.off e.len).addBuffer e) ↔ CutSafe s e.off e.len :=
  (ordered_addBuffer_iff (h.discard e.off e.len) hseq).trans (ordered_discard_iff h e.off e.len ho)

/-! ## Finishing a write -/

theorem finish_spec {m : IntervalMap Buffer} (hm : WF buffers 0 m) (w : InFlight) :
    WF buffers 0 (finish m w) ∧ ∀ p, p.val.state = .writing →
      (p ∈ finish m w ↔ p ∈ m ∧ p.off ≠ w.offset) := by
  rw [finish]
  split_ifs
  · exact ⟨⟨hm.apart.filter _, fun p hp => hm.sized p (mem_filter.1 hp).1⟩, fun p _ => by simp⟩
  refine ⟨⟨?_, ?_⟩, fun p hwr => ?_⟩
  · rw [pairwise_map]
    refine hm.apart.imp fun {a b} hab => ?_
    split_ifs <;> exact hab
  · intro p hp
    obtain ⟨b, hb, rfl⟩ := mem_map.1 hp
    split_ifs <;> exact hm.sized b hb
  · rw [mem_map]
    constructor
    · rintro ⟨b, hb, rfl⟩
      split_ifs at hwr ⊢ with hoff
      exact ⟨hb, hoff⟩
    · exact fun ⟨hp, hne⟩ => ⟨p, hp, if_neg hne⟩

theorem foldl_finish_spec {m : IntervalMap Buffer} (hm : WF buffers 0 m) (ws : List InFlight) :
    WF buffers 0 (ws.foldl finish m) ∧ ∀ p, p.val.state = .writing →
      (p ∈ ws.foldl finish m ↔ p ∈ m ∧ ∀ w ∈ ws, p.off ≠ w.offset) := by
  induction ws generalizing m with
  | nil => exact ⟨hm, by simp⟩
  | cons w ws ih =>
    obtain ⟨hwf, hmem⟩ := finish_spec hm w
    obtain ⟨hwf', hmem'⟩ := ih hwf
    refine ⟨hwf', fun p hp => ?_⟩
    rw [foldl_cons, hmem' p hp, hmem p hp, forall_mem_cons, and_assoc]

theorem Ordered.downClosed (ho : Ordered s) (seq : ℕ) :
    SortedList.DownClosed (fun w : InFlight => decide (w.seq ≤ seq)) s.writing :=
  ho.imp fun {a b} hab hb => by
    simp only [decide_eq_true_eq] at hb ⊢
    omega

/-- Where the list is sorted, the early exit misses no write. -/
theorem finishWrite_writing (ho : Ordered s) (seq : ℕ) :
    (s.finishWrite seq).writing = s.writing.filter fun w => w.seq ≠ seq := by
  have hlate : (s.writing.dropWhile fun w => w.seq ≤ seq).filter (fun w => w.seq ≠ seq) =
      s.writing.dropWhile fun w => w.seq ≤ seq := by
    rw [SortedList.dropWhile_eq_filter (ho.downClosed seq), filter_filter]
    exact filter_congr fun w _ => by simp; omega
  conv_rhs => rw [← takeWhile_append_dropWhile
    (l := s.writing), filter_append, hlate]
  rfl

theorem Inv.finishWrite (h : Inv s last) (ho : Ordered s) (seq : ℕ) :
    Inv (s.finishWrite seq) last := by
  obtain ⟨hwf, hmem⟩ := foldl_finish_spec h.wf
    ((s.writing.takeWhile fun w => w.seq ≤ seq).filter fun w => w.seq = seq)
  have hdone : ∀ w, w ∈ ((s.writing.takeWhile fun w => w.seq ≤ seq).filter fun w => w.seq = seq) ↔
      w ∈ s.writing ∧ w.seq = seq := by
    intro w
    rw [SortedList.takeWhile_eq_filter (ho.downClosed seq)]
    simp only [mem_filter, decide_eq_true_eq]
    exact ⟨fun ⟨⟨hw, _⟩, heq⟩ => ⟨hw, heq⟩, fun ⟨hw, heq⟩ => ⟨⟨hw, heq.le⟩, heq⟩⟩
  refine ⟨hwf, fun w => ?_, fun w hw => ?_⟩
  · rw [finishWrite_writing ho, mem_filter, decide_eq_true_eq]
    constructor
    · rintro ⟨hw, hne⟩
      obtain ⟨e, he, hwr, rfl⟩ := (h.linked w).1 hw
      refine ⟨e, (hmem e hwr).2 ⟨he, fun w' hw' hoff => hne ?_⟩, hwr, rfl⟩
      obtain ⟨hw', hseq⟩ := (hdone w').1 hw'
      obtain ⟨e', he', -, rfl⟩ := (h.linked w').1 hw'
      rw [eq_of_off_eq h.wf he he' hoff, hseq]
    · rintro ⟨e, he, hwr, rfl⟩
      obtain ⟨he, hkept⟩ := (hmem e hwr).1 he
      have hw := (h.linked _).2 ⟨e, he, hwr, rfl⟩
      exact ⟨hw, fun hseq => hkept _ ((hdone _).2 ⟨hw, hseq⟩) rfl⟩
  · rw [finishWrite_writing ho] at hw
    exact h.recent w (mem_filter.1 hw).1

/-! ## Splitting the space -/

variable (pos : ℕ)

section

variable (e : Extent Buffer)

/-- What stays of a buffer that begins before `pos`. -/
def kept : Extent Buffer :=
  if e.stop ≤ pos then e else truncate e (pos - e.off)

/-- What the new space gets of a buffer that ends behind `pos`. -/
def moved : Extent Buffer :=
  if e.off < pos then { tailFrom e pos with off := 0 }
  else { e with off := e.off - pos, val.noCache := false }

@[simp] theorem moved_state :
    (moved pos e).val.state = e.val.state := by
  rw [moved]
  split_ifs <;> rfl

@[simp] theorem moved_seq : (moved pos e).val.seq = e.val.seq := by
  rw [moved]
  split_ifs <;> rfl

theorem moved_off : (moved pos e).off = e.off - pos := by
  rw [moved]
  split_ifs with hlt
  · exact (Nat.sub_eq_zero_of_le hlt.le).symm
  · rfl

end

theorem addBuffer_front {r : BufferSpace} (hr : ∀ p ∈ r.bufferMap, e.off ≤ p.off) :
    r.addBuffer e = ⟨e :: r.bufferMap, pushWriting e r.writing⟩ := by
  have htake : r.bufferMap.takeWhile (fun p => p.off < e.off) = [] := by
    rw [takeWhile_eq_nil_iff]
    intro hlen hp
    have := hr _ (get_mem r.bufferMap ⟨0, hlen⟩)
    simp at hp this
    omega
  have hall := takeWhile_append_dropWhile (p := fun p : Extent Buffer => p.off < e.off)
    (l := r.bufferMap)
  rw [htake, nil_append] at hall
  rw [addBuffer, htake, hall, nil_append]

variable {pos : ℕ} {l : IntervalMap Buffer}

/-- Buffers that end before `pos` stay as they are. -/
theorem splitLoop_below (hlen : ∀ e ∈ l, 0 < e.len) (hl : ∀ e ∈ l, e.stop ≤ pos) :
    (l.filter fun e => e.off < pos).map (kept pos) = l ∧
      (l.filter fun e => pos < e.stop) = [] ∧ ∀ e ∈ l, ¬ pos ≤ e.off := by
  have hoff : ∀ e ∈ l, e.off < pos := fun e he => by
    have h1 := hlen e he
    have h2 : e.off + e.len ≤ pos := hl e he
    omega
  refine ⟨?_, ?_, fun e he => not_le.2 (hoff e he)⟩
  · rw [filter_eq_self.2 fun e he => decide_eq_true (hoff e he)]
    exact (map_congr_left fun e he => if_pos (hl e he)).trans (map_id l)
  · exact filter_eq_nil_iff.2 fun e he h => not_lt.2 (hl e he) (of_decide_eq_true h)

theorem splitLoop_spec (pos : ℕ) (hlen : ∀ e ∈ l, 0 < e.len)
    (hl : l.Pairwise fun e e' => e'.stop ≤ e.off) (wr : List InFlight) (r : BufferSpace)
    (hr : ∀ p ∈ r.bufferMap, ∀ e ∈ l, e.stop ≤ p.off + pos) :
    splitLoop pos l wr r = ((l.filter fun e => e.off < pos).map (kept pos),
      wr.filter fun w => ∀ e ∈ l, e.val.state = .writing → pos ≤ e.off → w.offset ≠ e.off,
      ⟨((l.filter fun e => pos < e.stop).map (moved pos)).reverse ++ r.bufferMap,
        r.writing ++ ((l.filter fun e => pos < e.stop).filter fun e => e.val.state = .writing).map
          fun e => inFlight (moved pos e)⟩) := by
  induction l generalizing wr r with
  | nil => simp [splitLoop]
  | cons p l ih =>
    obtain ⟨hp, hl⟩ := pairwise_cons.1 hl
    have hlen' : ∀ e ∈ l, 0 < e.len := fun e he => hlen e (mem_cons_of_mem _ he)
    have hpstop := p.stop_eq
    rw [splitLoop]
    by_cases hbelow : p.stop ≤ pos
    · have hall : ∀ e ∈ p :: l, e.stop ≤ pos := by
        rw [forall_mem_cons]
        exact ⟨hbelow, fun e he => (hp e he).trans (by omega)⟩
      obtain ⟨hk, hm, hno⟩ := splitLoop_below hlen hall
      rw [if_pos hbelow, hk, hm, filter_eq_self.2]
      · simp
      · exact fun w _ => decide_eq_true fun e he _ hle => absurd hle (hno e he)
    have hcons : ((p :: l).filter fun e => pos < e.stop) = p :: l.filter fun e => pos < e.stop :=
      filter_cons_of_pos (by simpa using hbelow)
    rw [if_neg hbelow, hcons]
    by_cases hcut : p.off < pos
    · -- the buffer at `pos` is cut, and nothing before it is looked at
      obtain ⟨hk, hm, hno⟩ := splitLoop_below hlen' fun e he => (hp e he).trans hcut.le
      have hfront : ∀ q ∈ r.bufferMap, (moved pos p).off ≤ q.off := by
        intro q _
        rw [moved_off]
        omega
      have hmoved : { tailFrom p pos with off := 0 } = moved pos p := (if_pos hcut).symm
      rw [if_pos hcut, filter_cons_of_pos (by simpa using hcut), hmoved,
        addBuffer_front hfront, hm, map_cons, hk, kept, if_neg hbelow,
        filter_eq_self.2, pushWriting]
      · by_cases hwr : p.val.state = .writing <;> simp [hwr]
      · refine fun w _ => decide_eq_true ?_
        rw [forall_mem_cons]
        exact ⟨fun _ hle => absurd hcut (not_lt.2 hle), fun e he _ hle => absurd hle (hno e he)⟩
    · have hfront : ∀ q ∈ r.bufferMap, (moved pos p).off ≤ q.off := by
        intro q hq
        have := hr q hq p mem_cons_self
        rw [moved_off]
        omega
      have hmoved : { p with off := p.off - pos, val.noCache := false } = moved pos p :=
        (if_neg hcut).symm
      rw [if_neg hcut, filter_cons_of_neg (by simpa using hcut), hmoved,
        addBuffer_front hfront, ih hlen' hl]
      · rw [pushWriting, eraseWriting]
        by_cases hwr : p.val.state = .writing
        · simp [hwr, not_lt.1 hcut, filter_filter, Bool.and_comm]
        · simp [hwr]
      · rintro q hq e he
        rcases mem_cons.1 hq with rfl | hq
        · have := hp e he
          rw [moved_off]
          omega
        · exact hr q hq e (mem_cons_of_mem _ he)

/-- Every buffer in flight lies behind `pos`. -/
def Movable (s : BufferSpace) (pos : ℕ) : Prop :=
  ∀ e ∈ s.bufferMap, e.val.state = .writing → pos ≤ e.off

/-- The two spaces of a split at `pos`. -/
def splitLeft (s : BufferSpace) (pos : ℕ) : BufferSpace :=
  ⟨(s.bufferMap.filter fun e => e.off < pos).map (kept pos), []⟩

def splitRight (s : BufferSpace) (pos : ℕ) : BufferSpace where
  bufferMap := (s.bufferMap.filter fun e => pos < e.stop).map (moved pos)
  writing := ((s.bufferMap.filter fun e => e.val.state = .writing).map
    fun e => inFlight (moved pos e)).reverse

theorem split_eq_some_iff (h : Inv s last) {q : BufferSpace × BufferSpace} :
    s.split pos = some q ↔ Movable s pos ∧ q = (splitLeft s pos, splitRight s pos) := by
  have hloop := splitLoop_spec pos
    (fun e he => (h.wf.sized e (mem_reverse.1 he)).1) (pairwise_reverse.2 h.wf.apart)
    s.writing ⟨[], []⟩ (by simp)
  have hempty : (s.writing.filter fun w => ∀ e ∈ s.bufferMap.reverse, e.val.state = .writing →
      pos ≤ e.off → w.offset ≠ e.off) = [] ↔ Movable s pos := by
    rw [filter_eq_nil_iff]
    constructor
    · intro hall e he hwr
      have hw := hall (inFlight e) ((h.linked _).2 ⟨e, he, hwr, rfl⟩)
      simp only [decide_eq_true_eq, not_forall, not_not] at hw
      obtain ⟨e', -, -, hle, heq⟩ := hw
      exact hle.trans_eq heq.symm
    · intro hpos w hw hall
      obtain ⟨e, he, hwr, rfl⟩ := (h.linked w).1 hw
      exact of_decide_eq_true hall e (mem_reverse.2 he) hwr (hpos e he hwr) rfl
  rw [split, hloop]
  by_cases hnil : s.bufferMap = []
  · have hwr : s.writing = [] := eq_nil_iff_forall_not_mem.2 fun w hw => by
      obtain ⟨e, he, -⟩ := (h.linked w).1 hw
      simp [hnil] at he
    obtain ⟨m, wr⟩ := s
    subst hnil hwr
    simp [Movable, splitLeft, splitRight, eq_comm]
  · rw [if_neg hnil, assert_bind_eq_some, hempty]
    refine and_congr_right fun hpos => ?_
    have hfilter : ((s.bufferMap.filter fun e => pos < e.stop).filter
        fun e => e.val.state = .writing) = s.bufferMap.filter fun e => e.val.state = .writing := by
      rw [filter_filter]
      refine filter_congr fun e he => ?_
      by_cases hwr : e.val.state = .writing
      · simp [hwr, (hpos e he hwr).trans_lt (h.wf.off_lt_stop he)]
      · simp [hwr]
    rw [hempty.2 hpos, Option.some_inj, eq_comm]
    simp only [filter_reverse, map_reverse, reverse_reverse, hfilter,
      append_nil, nil_append, splitLeft, splitRight]

theorem kept_spec (he : 0 < e.len ∧ e.val.data.length = e.len) (hlt : e.off < pos) :
    (kept pos e).off = e.off ∧ (kept pos e).stop ≤ e.stop ∧ 0 < (kept pos e).len ∧
      (kept pos e).val.data.length = (kept pos e).len := by
  rw [kept]
  split_ifs with hle
  · exact ⟨rfl, le_rfl, he⟩
  · have hstop := e.stop_eq
    refine ⟨rfl, ?_, ?_, ?_⟩
    · show e.off + (pos - e.off) ≤ e.stop
      omega
    · show 0 < pos - e.off
      omega
    · exact buffers_lawful.length_split e.val 0 (pos - e.off) (by simp only [buffers]; omega)

theorem moved_spec (he : 0 < e.len ∧ e.val.data.length = e.len) (hlt : pos < e.stop) :
    (moved pos e).stop = e.stop - pos ∧ 0 < (moved pos e).len ∧
      (moved pos e).val.data.length = (moved pos e).len := by
  have hstop := e.stop_eq
  rw [moved]
  split_ifs with hcut
  · refine ⟨?_, ?_, ?_⟩
    · show 0 + (e.stop - pos) = e.stop - pos
      omega
    · show 0 < e.stop - pos
      omega
    · exact buffers_lawful.length_split e.val (e.len - (e.stop - pos)) (e.stop - pos)
        (by simp only [buffers]; omega)
  · refine ⟨?_, he⟩
    show e.off - pos + e.len = e.stop - pos
    omega

theorem Inv.splitLeft (h : Inv s last) (hpos : Movable s pos) : Inv (splitLeft s pos) last := by
  have hmem : ∀ e ∈ s.bufferMap.filter fun e => e.off < pos, e ∈ s.bufferMap ∧ e.off < pos :=
    fun e he => ⟨(mem_filter.1 he).1, of_decide_eq_true (mem_filter.1 he).2⟩
  refine ⟨⟨?_, ?_⟩, fun w => ⟨by simp [Ceph.Os.splitLeft], ?_⟩, by simp [Ceph.Os.splitLeft]⟩
  · refine pairwise_map.2 ((h.wf.apart.filter _).imp_of_mem fun {a b} ha hb hab => ?_)
    have h1 := kept_spec (h.wf.sized a (hmem a ha).1) (hmem a ha).2
    have h2 := kept_spec (h.wf.sized b (hmem b hb).1) (hmem b hb).2
    omega
  · intro p hp
    obtain ⟨e, he, rfl⟩ := mem_map.1 hp
    exact (kept_spec (h.wf.sized e (hmem e he).1) (hmem e he).2).2.2
  · rintro ⟨p, hp, hwr, -⟩
    obtain ⟨e, he, rfl⟩ := mem_map.1 hp
    have hstate : e.val.state = .writing := by
      rw [kept] at hwr
      split_ifs at hwr <;> exact hwr
    exact absurd (hmem e he).2 (not_lt.2 (hpos e (hmem e he).1 hstate))

theorem Inv.splitRight (h : Inv s last) (hpos : Movable s pos) : Inv (splitRight s pos) last := by
  have hmem : ∀ e ∈ s.bufferMap.filter fun e => pos < e.stop, e ∈ s.bufferMap ∧ pos < e.stop :=
    fun e he => ⟨(mem_filter.1 he).1, of_decide_eq_true (mem_filter.1 he).2⟩
  refine ⟨⟨?_, ?_⟩, fun w => ?_, fun w hw => ?_⟩
  · refine pairwise_map.2 ((h.wf.apart.filter _).imp_of_mem fun {a b} ha hb hab => ?_)
    have h1 := (moved_spec (h.wf.sized a (hmem a ha).1) (hmem a ha).2).1
    have h2 := moved_off pos b
    omega
  · intro p hp
    obtain ⟨e, he, rfl⟩ := mem_map.1 hp
    exact (moved_spec (h.wf.sized e (hmem e he).1) (hmem e he).2).2
  · constructor
    · intro hw
      obtain ⟨e, he, rfl⟩ := mem_map.1 (mem_reverse.1 hw)
      obtain ⟨he, hwr⟩ := mem_filter.1 he
      have hwr := of_decide_eq_true hwr
      refine ⟨moved pos e, mem_map_of_mem (mem_filter.2 ⟨he, decide_eq_true ?_⟩),
        (moved_state pos e).trans hwr, rfl⟩
      exact (hpos e he hwr).trans_lt (h.wf.off_lt_stop he)
    · rintro ⟨p, hp, hwr, rfl⟩
      obtain ⟨e, he, rfl⟩ := mem_map.1 hp
      rw [moved_state] at hwr
      exact mem_reverse.2 (mem_map_of_mem (mem_filter.2 ⟨(hmem e he).1, decide_eq_true hwr⟩))
  · obtain ⟨e, he, rfl⟩ := mem_map.1 (mem_reverse.1 hw)
    obtain ⟨he, hwr⟩ := mem_filter.1 he
    have := h.recent (inFlight e) ((h.linked _).2 ⟨e, he, of_decide_eq_true hwr, rfl⟩)
    simpa [inFlight] using this

end

/-! ## Whole runs -/

/-- The calls on a space; a split is followed into one of the two spaces. -/
inductive BufferOp where
  | write (seq offset : ℕ) (data : List UInt8) (noCache : Bool)
  | didRead (offset : ℕ) (data : List UInt8)
  | discard (offset length : ℕ)
  | finishWrite (seq : ℕ)
  | splitLeft (pos : ℕ)
  | splitRight (pos : ℕ)

variable (s : BufferSpace)

/-- One call. -/
def step : BufferOp → Option BufferSpace
  | .write seq offset data noCache => some (s.write seq offset data noCache)
  | .didRead offset data => some (s.didRead offset data)
  | .discard offset length => some (s.discard offset length)
  | .finishWrite seq => some (s.finishWrite seq)
  | .splitLeft pos => (s.split pos).map Prod.fst
  | .splitRight pos => (s.split pos).map Prod.snd

/-- The write of `seq` is finished in the space. -/
def Finished (seq : ℕ) : Prop :=
  ∀ e ∈ s.bufferMap, e.val.state = .writing → e.val.seq ≠ seq

instance (seq : ℕ) : Decidable (Finished s seq) :=
  inferInstanceAs (Decidable (∀ e ∈ s.bufferMap, _ → _))

/-- After every call the list is sorted, and a finished write is gone. -/
def Good (s : BufferSpace) : List BufferOp → Prop
  | [] => True
  | op :: ops => ∃ s', step s op = some s' ∧ Ordered s' ∧
      (∀ seq, op = .finishWrite seq → Finished s' seq) ∧ Good s' ops

/-- The calls are made with rising sequence numbers from `last` on, on data within 32 bits. -/
def Admissible (last : ℕ) : List BufferOp → Prop
  | [] => True
  | .write seq offset data _ :: ops =>
    last ≤ seq ∧ data ≠ [] ∧ offset + data.length < 2 ^ 32 ∧ Admissible seq ops
  | .didRead offset data :: ops =>
    data ≠ [] ∧ offset + data.length < 2 ^ 32 ∧ Admissible last ops
  | .discard offset length :: ops => offset + length < 2 ^ 32 ∧ Admissible last ops
  | _ :: ops => Admissible last ops

/-- What a call asks of the writes in flight. -/
def StepSafe : BufferOp → Prop
  | .write _ offset data _ => CutSafe s offset data.length
  | .didRead offset data => CutSafe s offset data.length
  | .discard offset length => CutSafe s offset length
  | .finishWrite _ => True
  | .splitLeft pos => Movable s pos
  | .splitRight pos => Movable s pos ∧
      (s.bufferMap.filter fun e => e.val.state = .writing).Pairwise fun e e' =>
        e'.val.seq ≤ e.val.seq

/-- Every call of a run is safe where it is made. -/
def Safe (s : BufferSpace) : List BufferOp → Prop
  | [] => True
  | op :: ops => StepSafe s op ∧ ∀ s', step s op = some s' → Safe s' ops

section

variable {s : BufferSpace} {last : ℕ}

/-- The last sequence number after a call. -/
def lastSeq (last : ℕ) : BufferOp → ℕ
  | .write seq _ _ _ => seq
  | _ => last

variable {op : BufferOp}

theorem admissible_tail {ops : List BufferOp} (h : Admissible last (op :: ops)) :
    Admissible (lastSeq last op) ops := by
  cases op with
  | write seq offset data noCache => exact h.2.2.2
  | didRead offset data => exact h.2.2
  | discard offset length => exact h.2
  | finishWrite seq => exact h
  | splitLeft pos => exact h
  | splitRight pos => exact h

theorem step_iff (h : Inv s last) (ho : Ordered s) (hop : Admissible last [op]) :
    (∃ s', step s op = some s' ∧ Ordered s' ∧ ∀ seq, op = .finishWrite seq → Finished s' seq) ↔
      StepSafe s op := by
  cases op with
  | write seq offset data noCache =>
    have hiff := ordered_replace_iff (e := ⟨offset, data.length, ⟨.writing, seq, noCache, data⟩⟩)
      h ho fun _ => hop.1
    simpa [step, StepSafe, write] using hiff
  | didRead offset data =>
    have hiff := ordered_replace_iff (e := ⟨offset, data.length, ⟨.clean, 0, false, data⟩⟩) h ho
      nofun
    simpa [step, StepSafe, didRead] using hiff
  | discard offset length => simpa [step, StepSafe] using ordered_discard_iff h offset length ho
  | finishWrite seq =>
    have hsort : Ordered (s.finishWrite seq) := by
      rw [Ordered, finishWrite_writing ho]
      exact Pairwise.filter _ ho
    have hdone : Finished (s.finishWrite seq) seq := by
      intro e he hwr
      have hw := ((h.finishWrite ho seq).linked _).2 ⟨e, he, hwr, rfl⟩
      rw [finishWrite_writing ho] at hw
      exact of_decide_eq_true (mem_filter.1 hw).2
    simpa [step, StepSafe] using ⟨hsort, hdone⟩
  | splitLeft pos =>
    have hsort : Ordered (splitLeft s pos) := Pairwise.nil
    simp [step, StepSafe, split_eq_some_iff h, hsort]
  | splitRight pos =>
    have hsort : Ordered (splitRight s pos) ↔
        (s.bufferMap.filter fun e => e.val.state = .writing).Pairwise
          fun e e' => e'.val.seq ≤ e.val.seq := by
      rw [Ordered, splitRight, pairwise_reverse, pairwise_map]
      simp [inFlight]
    simp [step, StepSafe, split_eq_some_iff h, hsort]

theorem step_inv (h : Inv s last) (ho : Ordered s) (hop : Admissible last [op]) {s' : BufferSpace}
    (hs : step s op = some s') : Inv s' (lastSeq last op) := by
  cases op with
  | write seq offset data noCache =>
    cases hs
    exact h.replace ⟨length_pos_iff.2 hop.2.1, rfl⟩ hop.1 fun _ => le_rfl
  | didRead offset data =>
    cases hs
    exact h.replace ⟨length_pos_iff.2 hop.1, rfl⟩ le_rfl nofun
  | discard offset length =>
    cases hs
    exact h.discard offset length
  | finishWrite seq =>
    cases hs
    exact h.finishWrite ho seq
  | splitLeft pos =>
    obtain ⟨q, hq, rfl⟩ := of_map hs
    obtain ⟨hpos, rfl⟩ := (split_eq_some_iff h).1 hq
    exact h.splitLeft hpos
  | splitRight pos =>
    obtain ⟨q, hq, rfl⟩ := of_map hs
    obtain ⟨hpos, rfl⟩ := (split_eq_some_iff h).1 hq
    exact h.splitRight hpos

/-- The run lemma: induction on the calls, from any state with the invariant. -/
theorem good_of_inv (h : Inv s last) (ho : Ordered s) {ops : List BufferOp}
    (hops : Admissible last ops) : Good s ops ↔ Safe s ops := by
  induction ops generalizing s last with
  | nil => exact Iff.rfl
  | cons op ops ih =>
    have hop : Admissible last [op] := by
      cases op <;> simp_all [Admissible]
    have hnext : ∀ s', step s op = some s' → Ordered s' → (Good s' ops ↔ Safe s' ops) :=
      fun s' hs ho' => ih (step_inv h ho hop hs) ho' (admissible_tail hops)
    constructor
    · rintro ⟨s', hs, ho', hfin, hgood⟩
      refine ⟨(step_iff h ho hop).1 ⟨s', hs, ho', hfin⟩, fun t ht => ?_⟩
      rw [hs] at ht
      exact Option.some.inj ht ▸ (hnext s' hs ho').1 hgood
    · rintro ⟨hsafe, hrest⟩
      obtain ⟨s', hs, ho', hfin⟩ := (step_iff h ho hop).2 hsafe
      exact ⟨s', hs, ho', hfin, (hnext s' hs ho').2 (hrest s' hs)⟩

end

/-- **The list stays sorted, and every write is finished, along exactly the safe runs.** -/
theorem good_iff (ops : List BufferOp) (hops : Admissible 0 ops) :
    Good ⟨[], []⟩ ops ↔ Safe ⟨[], []⟩ ops := by
  have hinv : Inv ⟨[], []⟩ 0 := ⟨WF.nil 0, by simp, by simp⟩
  exact good_of_inv hinv Pairwise.nil hops

/-- A write over the end of one in flight. -/
theorem good_iff_two : Good ⟨[], []⟩ [.write 1 0 [1, 2, 3] false, .write 2 1 [4, 5] false,
    .finishWrite 1] := by
  refine (good_iff _ (by simp [Admissible])).2
    ⟨by simp [StepSafe, CutSafe], fun s hs => ⟨?_, fun t ht => ⟨trivial, fun _ _ => trivial⟩⟩⟩
  cases hs
  show CutSafe _ 1 2
  unfold CutSafe
  decide

/-- The writes of three calls, the third in the middle of the first. -/
def middleCut : BufferSpace :=
  ((write ⟨[], []⟩ 1 0 [1, 1, 1] false).write 2 5 [2] false).write 3 1 [3] false

/-- The tail of the first write comes behind the second, and `finishWrite` stops before it. -/
theorem not_good_middleCut : ¬ Good ⟨[], []⟩ [.write 1 0 [1, 1, 1] false, .write 2 5 [2] false,
      .write 3 1 [3] false, .finishWrite 1] ∧ ¬ Finished (middleCut.finishWrite 1) 1 := by
  refine ⟨?_, by decide⟩
  rintro ⟨s, hs, -, -, t, ht, -, -, u, hu, ho, -⟩
  cases hs
  cases ht
  cases hu
  revert ho
  decide

end Ceph.Os
