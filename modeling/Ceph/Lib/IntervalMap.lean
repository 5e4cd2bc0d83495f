import Mathlib.Tactic
import Ceph.Lib.Loop
import Ceph.Lib.SortedList

/-!
# Interval maps

A map from disjoint intervals of `ℕ` to values that can be cut and joined, kept
as a list of extents in increasing order.  Erasing or inserting over a range
splits the values that overlap it, and an inserted extent is merged with its
neighbours where the values allow it.

Read point by point (`IntervalMap.get`) the operations are those of a partial
function: `get_erase`, `get_insert`, `get_intersect`.  The representation
invariant `IntervalMap.WF gap` says that extents are at least `gap` apart.  With
values that can always be merged it is kept with `gap = 1`, so that every extent
is a maximal run of the covered points (`WF.not_covered_before`,
`WF.not_covered_after`).
-/

namespace Ceph

open List Option

universe u v

/-- The interval `[off, off + len)` and what it maps to. -/
structure Extent (V : Type u) where
  off : ℕ
  len : ℕ
  val : V
  deriving DecidableEq

open Extent

/-- How values are measured, cut and joined. -/
structure Splitter (V : Type u) where
  length : V → ℕ
  /-- `split off len v` is the part of `v` from `off` on, `len` long. -/
  split : ℕ → ℕ → V → V
  canMerge : V → V → Bool
  merge : V → V → V

/-- Cutting and joining do not change what is found at a position. -/
structure Splitter.Lawful {V : Type u} {β : Type v} (S : Splitter V) (at_ : V → ℕ → β) : Prop where
  length_split : ∀ a o l, o + l ≤ S.length a → S.length (S.split o l a) = l
  at_split : ∀ a o l i, o + l ≤ S.length a → i < l → at_ (S.split o l a) i = at_ a (o + i)
  length_merge : ∀ a b, S.canMerge a b → S.length (S.merge a b) = S.length a + S.length b
  at_merge_left : ∀ a b i, S.canMerge a b → i < S.length a → at_ (S.merge a b) i = at_ a i
  at_merge_right : ∀ a b i, S.canMerge a b → i < S.length b →
    at_ (S.merge a b) (S.length a + i) = at_ b i

/-- The extents, in increasing order. -/
abbrev IntervalMap (V : Type u) : Type u := List (Extent V)

namespace Extent

variable {V : Type u}

/-- The end of the interval. -/
def stop (e : Extent V) : ℕ := e.off + e.len

theorem stop_eq (e : Extent V) : e.stop = e.off + e.len := rfl

/-- `x` is in the interval. -/
def Covers (e : Extent V) (x : ℕ) : Prop := e.off ≤ x ∧ x < e.stop

instance (e : Extent V) (x : ℕ) : Decidable (e.Covers x) := inferInstanceAs (Decidable (_ ∧ _))

end Extent

variable {len : ℕ}

namespace IntervalMap

variable {V : Type u} {β : Type v} (S : Splitter V) (at_ : V → ℕ → β)

/-! ## The operations -/

/-- The part of an extent before `stop`. -/
def leftOf (stop : ℕ) (e : Extent V) : List (Extent V) :=
  if e.off < stop then [⟨e.off, stop - e.off, S.split 0 (stop - e.off) e.val⟩] else []

/-- The part of an extent from `start` on. -/
def rightOf (start : ℕ) (e : Extent V) : List (Extent V) :=
  if start < e.stop then
    [⟨start, e.stop - start, S.split (e.len - (e.stop - start)) (e.stop - start) e.val⟩]
  else []

section

variable (off len : ℕ)

/-- What is left of an extent when `[off, off + len)` is taken out of it. -/
def cut (e : Extent V) : List (Extent V) :=
  if e.stop ≤ off ∨ off + len ≤ e.off then [e] else leftOf S off e ++ rightOf S (off + len) e

/-- Take `[off, off + len)` out of the map. -/
def erase (m : IntervalMap V) : IntervalMap V :=
  if len = 0 then m else m.flatMap (cut S off len)

/-- `e` ends where `e'` begins, and their values can be merged. -/
def Joins (e e' : Extent V) : Prop := e.stop = e'.off ∧ S.canMerge e.val e'.val = true

instance (e e' : Extent V) : Decidable (Joins S e e') := inferInstanceAs (Decidable (_ ∧ _))

/-- The two extents as one. -/
def join (e e' : Extent V) : Extent V := ⟨e.off, e'.stop - e.off, S.merge e.val e'.val⟩

/-- Put `e` before `m`, merging it with the first extent if possible. -/
def mergeNext (e : Extent V) : IntervalMap V → IntervalMap V
  | [] => [e]
  | x :: m => if Joins S e x then join S e x :: m else e :: x :: m

/-- Put `e` in its place, merging it with its neighbours if possible. -/
def place (e : Extent V) : IntervalMap V → IntervalMap V
  | [] => [e]
  | x :: m =>
    if x.off < e.off then
      if Joins S x e then mergeNext S (join S x e) m else x :: place e m
    else mergeNext S e (x :: m)

/-- Map `[off, off + len)` to `a`.  The interval must not be empty and must have
the length of the value. -/
def insert (a : V) (m : IntervalMap V) : Option (IntervalMap V) :=
  if 0 < len ∧ len = S.length a then some (place S ⟨off, len, a⟩ (erase S off len m)) else none

/-- The part of an extent in `[off, off + len)`. -/
def clip (e : Extent V) : Extent V :=
  let e := if e.off < off then
      ⟨off, e.len - (off - e.off), S.split (off - e.off) (e.len - (off - e.off)) e.val⟩
    else e
  if off + len < e.stop then
    ⟨e.off, e.len - (e.stop - (off + len)), S.split 0 (e.len - (e.stop - (off + len))) e.val⟩
  else e

/-- The part of the map in `[off, off + len)`. -/
def intersect (m : IntervalMap V) : Option (IntervalMap V) :=
  (m.filter fun e => off < e.stop ∧ e.off < off + len).foldlM
    (fun ret e => insert S (clip S off len e).off (clip S off len e).len (clip S off len e).val ret)
    []

end

/-- What the map has at `x`. -/
def get : IntervalMap V → ℕ → Option β
  | [], _ => none
  | e :: m, x => if e.Covers x then some (at_ e.val (x - e.off)) else get m x

variable (m : IntervalMap V) (x : ℕ)

/-- `x` lies in one of the intervals. -/
def Covered : Prop := ∃ e ∈ m, e.Covers x

instance : Decidable (Covered m x) :=
  inferInstanceAs (Decidable (∃ e ∈ m, e.Covers x))

/-- The representation invariant. -/
structure WF (gap : ℕ) (m : IntervalMap V) : Prop where
  apart : m.Pairwise fun e e' => e.stop + gap ≤ e'.off
  sized : ∀ e ∈ m, 0 < e.len ∧ S.length e.val = e.len

/-! ## Looking up -/

@[simp] theorem get_nil : get at_ ([] : IntervalMap V) x = none := rfl

theorem get_cons (e : Extent V) (m : IntervalMap V) (x : ℕ) :
    get at_ (e :: m) x = if e.Covers x then some (at_ e.val (x - e.off)) else get at_ m x := rfl

theorem get_singleton (e : Extent V) (x : ℕ) :
    get at_ [e] x = if e.Covers x then some (at_ e.val (x - e.off)) else none := rfl

theorem get_append (m m' : IntervalMap V) (x : ℕ) :
    get at_ (m ++ m') x = (get at_ m x).or (get at_ m' x) := by
  induction m with
  | nil => rfl
  | cons e m ih =>
    rw [cons_append, get_cons, get_cons, ih]
    by_cases h : e.Covers x
    · rw [if_pos h, if_pos h, some_or]
    · rw [if_neg h, if_neg h]

theorem get_isSome_iff : (get at_ m x).isSome ↔ Covered m x := by
  induction m with
  | nil => simp [Covered]
  | cons e m ih =>
    rw [get_cons]
    by_cases h : e.Covers x
    · simp [h, Covered]
    · simpa [h, Covered] using ih

theorem get_eq_none_iff : get at_ m x = none ↔ ∀ e ∈ m, ¬ e.Covers x := by
  rw [← not_isSome_iff_eq_none, get_isSome_iff, Covered]
  push Not
  rfl

theorem get_eq_none_of_stop_le (h : ∀ e ∈ m, e.stop ≤ x) : get at_ m x = none :=
  (get_eq_none_iff ..).2 fun e he hc => absurd hc.2 (h e he).not_gt

theorem get_eq_none_iff_not_covered : get at_ m x = none ↔ ¬ Covered m x := by
  rw [← not_isSome_iff_eq_none, get_isSome_iff]

variable {S at_}

theorem WF.nil (gap : ℕ) : WF S gap ([] : IntervalMap V) := ⟨Pairwise.nil, by simp⟩

variable {m x} {gap : ℕ} {e : Extent V}

theorem WF.tail (h : WF S gap (e :: m)) : WF S gap m :=
  ⟨(pairwise_cons.1 h.apart).2, fun x hx => h.sized x (mem_cons_of_mem _ hx)⟩

theorem WF.mono {gap' : ℕ} (hle : gap' ≤ gap) (h : WF S gap m) : WF S gap' m :=
  ⟨h.apart.imp fun hap => by omega, h.sized⟩

theorem WF.sublist {m' : IntervalMap V} (h : WF S gap m) (hsub : m'.Sublist m) : WF S gap m' :=
  ⟨h.apart.sublist hsub, fun e he => h.sized e (hsub.subset he)⟩

theorem WF.upTo {pre post : IntervalMap V} (h : WF S gap (pre ++ e :: post)) :
    WF S gap (pre ++ [e]) := by
  rw [append_cons] at h
  exact h.sublist (sublist_append_left _ _)

theorem WF.off_lt_stop (h : WF S gap m) (he : e ∈ m) : e.off < e.stop :=
  Nat.lt_add_of_pos_right (h.sized e he).1

theorem WF.covered_off (h : WF S gap m) (he : e ∈ m) : Covered m e.off :=
  ⟨e, he, le_rfl, h.off_lt_stop he⟩

theorem WF.stop_le (h : WF S gap m) {n : ℕ} (hn : ∀ x, Covered m x → x < n) (he : e ∈ m) :
    e.stop ≤ n := by
  have hlt := h.off_lt_stop he
  have := hn (e.stop - 1) ⟨e, he, by omega, by omega⟩
  omega

theorem WF.head (h : WF S gap (e :: m)) : ∀ x ∈ m, e.stop + gap ≤ x.off :=
  (pairwise_cons.1 h.apart).1

variable {e' : Extent V}

/-- Of two extents one lies before the other. -/
theorem WF.apart_of_ne (h : WF S gap m) (he : e ∈ m) (he' : e' ∈ m)
    (hne : e ≠ e') : e.stop + gap ≤ e'.off ∨ e'.stop + gap ≤ e.off := by
  induction m with
  | nil => cases he
  | cons y m ih =>
    rcases mem_cons.1 he with rfl | hm
    · rcases mem_cons.1 he' with rfl | hm'
      · exact absurd rfl hne
      · exact .inl (h.head e' hm')
    · rcases mem_cons.1 he' with rfl | hm'
      · exact .inr (h.head e hm)
      · exact ih h.tail hm hm'

/-- The map is cut where extents begin at or after `off`; of those before, only the last can reach
beyond it. -/
theorem WF.cut_at (h : WF S gap m) (off : ℕ) :
    m = m.takeWhile (fun e => e.off < off) ++ m.dropWhile (fun e => e.off < off) ∧
      (∀ e ∈ m.takeWhile fun e => e.off < off, e.off < off) ∧
      (∀ e ∈ m.dropWhile fun e => e.off < off, off ≤ e.off) ∧
      ∀ pre p, m.takeWhile (fun e => e.off < off) = pre ++ [p] → ∀ e ∈ pre, e.stop ≤ off := by
  have hdown : SortedList.DownClosed (fun e : Extent V => decide (e.off < off)) m :=
    h.apart.imp fun {a b} hab hb => by
      have := a.stop_eq
      simp only [decide_eq_true_eq] at hb ⊢
      omega
  have hbefore : ∀ e ∈ m.takeWhile fun e => e.off < off, e.off < off := fun e he => by
    simpa using mem_takeWhile_imp he
  refine ⟨takeWhile_append_dropWhile.symm, hbefore, fun e he => ?_, fun pre p hpre e he => ?_⟩
  · rw [SortedList.dropWhile_eq_filter hdown] at he
    simpa using (mem_filter.1 he).2
  · have hp := hbefore p (by simp [hpre])
    have hap := h.apart.sublist (takeWhile_sublist fun e => decide (e.off < off))
    rw [hpre, pairwise_append] at hap
    have := hap.2.2 e he p (mem_singleton_self p)
    omega

/-- The extent that covers `x` says what the map has there. -/
theorem WF.get_of_mem (h : WF S 0 m) (he : e ∈ m) (hx : e.Covers x) :
    get at_ m x = some (at_ e.val (x - e.off)) := by
  induction m with
  | nil => cases he
  | cons y m ih =>
    rw [get_cons]
    rcases mem_cons.1 he with rfl | he'
    · rw [if_pos hx]
    · have hap := h.head e he'
      have hnot : ¬ y.Covers x := fun hy => by
        have := hy.2
        have := hx.1
        omega
      rw [if_neg hnot, ih h.tail he']

/-- With extents at least one apart, the point before an extent is not covered. -/
theorem WF.not_covered_before (h : WF S 1 m) (he : e ∈ m) (hx : x + 1 = e.off) : ¬ Covered m x := by
  rintro ⟨y, hy, hc⟩
  have hstop := e.stop_eq
  obtain ⟨h1, h2⟩ := hc
  have hne : e ≠ y := by
    rintro rfl
    omega
  have := h.apart_of_ne he hy hne
  omega

/-- With extents at least one apart, the point after an extent is not covered. -/
theorem WF.not_covered_after (h : WF S 1 m) (he : e ∈ m) : ¬ Covered m e.stop := by
  rintro ⟨y, hy, hc⟩
  have hstop := e.stop_eq
  obtain ⟨h1, h2⟩ := hc
  have hne : e ≠ y := by
    rintro rfl
    omega
  have := h.apart_of_ne he hy hne
  omega

theorem WF.off_le_of_covered (h : WF S gap (e :: m)) (hc : Covered (e :: m) x) : e.off ≤ x := by
  obtain ⟨y, hy, hy1, -⟩ := hc
  have hstop := e.stop_eq
  rcases mem_cons.1 hy with rfl | hy
  · exact hy1
  · have := h.head y hy
    omega

/-- The rest covers what is covered behind the first extent. -/
theorem WF.covered_tail_iff (h : WF S gap (e :: m)) :
    Covered m x ↔ Covered (e :: m) x ∧ e.stop ≤ x := by
  constructor
  · rintro ⟨y, hy, hc⟩
    have hap := h.head y hy
    have := hc.1
    exact ⟨⟨y, mem_cons_of_mem _ hy, hc⟩, by omega⟩
  · rintro ⟨⟨y, hy, hc⟩, hle⟩
    rcases mem_cons.1 hy with rfl | hy
    · exact absurd hc.2 (by omega)
    · exact ⟨y, hy, hc⟩

/-- Two maps of maximal runs that cover the same points have the same intervals. -/
theorem WF.map_off_len_eq {W : Type*} {T : Splitter W} {m' : IntervalMap W}
    (h : WF S 1 m) (h' : WF T 1 m')
    (hcov : ∀ x, Covered m x ↔ Covered m' x) :
    m.map (fun e => (e.off, e.len)) = m'.map fun e => (e.off, e.len) := by
  induction m generalizing m' with
  | nil =>
    cases m' with
    | nil => rfl
    | cons e' m' =>
      obtain ⟨e, he, -⟩ := (hcov e'.off).2 (h'.covered_off mem_cons_self)
      cases he
  | cons e m ih =>
    have hstop := e.stop_eq
    have hfirst := (hcov e.off).1 (h.covered_off mem_cons_self)
    cases m' with
    | nil =>
      obtain ⟨e', he, -⟩ := hfirst
      cases he
    | cons e' m' =>
      have hstop' := e'.stop_eq
      -- both first runs begin at the least covered point …
      have hoff : e.off = e'.off := le_antisymm
        (h.off_le_of_covered ((hcov e'.off).2 (h'.covered_off mem_cons_self)))
        (h'.off_le_of_covered hfirst)
      -- … and end at the first point after it that is not covered
      have hend : e.stop = e'.stop := by
        rcases lt_trichotomy e.stop e'.stop with hlt | heq | hlt
        · exact absurd ((hcov e.stop).2 ⟨e', mem_cons_self .., by omega, hlt⟩)
            (h.not_covered_after mem_cons_self)
        · exact heq
        · exact absurd ((hcov e'.stop).1 ⟨e, mem_cons_self .., by omega, hlt⟩)
            (h'.not_covered_after mem_cons_self)
      have hrest : ∀ x, Covered m x ↔ Covered m' x := fun x => by
        rw [h.covered_tail_iff, h'.covered_tail_iff, hcov, hend]
      rw [map_cons, map_cons, ih h.tail h'.tail hrest, hoff, show e.len = e'.len by omega]

/-! ## Erasing -/

variable {off : ℕ}

section Erase

variable (hS : S.Lawful at_)
include hS

/-- `p` is a part of `e`, with the values of `e`. -/
structure PartOf (S : Splitter V) (at_ : V → ℕ → β) (p e : Extent V) : Prop where
  off : e.off ≤ p.off
  stop : p.stop ≤ e.stop
  sized : S.length p.val = p.len
  at_eq : ∀ x, p.Covers x → at_ p.val (x - p.off) = at_ e.val (x - e.off)

theorem partOf_split (he : S.length e.val = e.len) {a l o : ℕ} (ha : e.off ≤ a)
    (hl : a + l ≤ e.stop) (ho : o = a - e.off) : PartOf S at_ ⟨a, l, S.split o l e.val⟩ e := by
  have hstop := e.stop_eq
  refine ⟨ha, hl, hS.length_split _ _ _ (by omega), fun x hx => ?_⟩
  have h1 : a ≤ x := hx.1
  have h2 : x < a + l := hx.2
  show at_ (S.split o l e.val) (x - a) = _
  rw [hS.at_split _ _ _ _ (by omega) (by omega)]
  congr 1
  omega

variable {p : Extent V}

omit hS in
theorem PartOf.trans (h : PartOf S at_ p e) (h' : PartOf S at_ e e') : PartOf S at_ p e' :=
  ⟨h'.off.trans h.off, h.stop.trans h'.stop, h.sized, fun x hx => (h.at_eq x hx).trans
    (h'.at_eq x ⟨h.off.trans hx.1, hx.2.trans_le h.stop⟩)⟩

omit hS in
/-- A part, point by point. -/
theorem PartOf.get_eq (h : PartOf S at_ p e) {c : Prop} [Decidable c]
    (hc : e.Covers x → (p.Covers x ↔ c)) : get at_ [p] x = if c then get at_ [e] x else none := by
  rw [get_singleton, get_singleton]
  by_cases hx : e.Covers x
  · by_cases hp : p.Covers x
    · rw [if_pos hp, if_pos ((hc hx).1 hp), if_pos hx, h.at_eq x hp]
    · rw [if_neg hp, if_neg fun h => hp ((hc hx).2 h)]
  · have hp : ¬ p.Covers x := fun hp => hx ⟨h.off.trans hp.1, hp.2.trans_le h.stop⟩
    rw [if_neg hp, if_neg hx, ite_self]

theorem get_leftOf {stop : ℕ} (he : S.length e.val = e.len) (hstop : stop ≤ e.stop) (x : ℕ) :
    get at_ (leftOf S stop e) x = if x < stop then get at_ [e] x else none := by
  rw [leftOf]
  by_cases hlt : e.off < stop
  · rw [if_pos hlt]
    refine (partOf_split hS he le_rfl (by omega) (by omega)).get_eq fun hx => ?_
    simp only [Extent.Covers, Extent.stop] at *
    omega
  · rw [get_singleton]
    split_ifs with hx hc
    · exact absurd (hc.1.trans_lt hx) hlt
    · rfl
    · rfl

theorem get_rightOf {start : ℕ} (he : S.length e.val = e.len) (hstart : e.off ≤ start) (x : ℕ) :
    get at_ (rightOf S start e) x = if start ≤ x then get at_ [e] x else none := by
  rw [rightOf]
  by_cases hlt : start < e.stop
  · rw [if_pos hlt]
    have hstop := e.stop_eq
    refine (partOf_split hS he hstart (by omega) (by omega)).get_eq fun hx => ?_
    simp only [Covers, stop] at *
    omega
  · rw [get_singleton]
    split_ifs with hx hc
    · exact absurd (hx.trans_lt hc.2) hlt
    · rfl
    · rfl

theorem get_cut (hlen : 0 < len) (he : S.length e.val = e.len) (x : ℕ) :
    get at_ (cut S off len e) x = if off ≤ x ∧ x < off + len then none else get at_ [e] x := by
  rw [cut]
  by_cases hout : e.stop ≤ off ∨ off + len ≤ e.off
  · rw [if_pos hout]
    by_cases hin : off ≤ x ∧ x < off + len
    · rw [if_pos hin, get_eq_none_iff]
      simp only [mem_singleton, forall_eq, Covers]
      omega
    · rw [if_neg hin]
  · rw [if_neg hout, get_append, get_leftOf hS he (by omega), get_rightOf hS he (by omega)]
    -- to the left of the hole, in it, to the right of it
    by_cases hleft : x < off
    · have hright : ¬ off + len ≤ x := by omega
      have hin : ¬ (off ≤ x ∧ x < off + len) := by omega
      rw [if_pos hleft, if_neg hright, if_neg hin, or_none]
    · rw [if_neg hleft, none_or]
      by_cases hright : off + len ≤ x
      · have hin : ¬ (off ≤ x ∧ x < off + len) := by omega
        rw [if_pos hright, if_neg hin]
      · have hin : off ≤ x ∧ x < off + len := by omega
        rw [if_neg hright, if_pos hin]

/-- Erasing, point by point. -/
theorem get_erase (hm : ∀ e ∈ m, S.length e.val = e.len) (off len x : ℕ) :
    get at_ (erase S off len m) x = if off ≤ x ∧ x < off + len then none else get at_ m x := by
  rw [erase]
  by_cases hlen : len = 0
  · rw [if_pos hlen, if_neg (by omega)]
  rw [if_neg hlen]
  induction m with
  | nil => simp
  | cons e m ih =>
    have ih := ih fun y hy => hm y (mem_cons_of_mem _ hy)
    rw [flatMap_cons, get_append, ih, get_cut hS (Nat.pos_of_ne_zero hlen) (hm e mem_cons_self)]
    by_cases hin : off ≤ x ∧ x < off + len
    · rw [if_pos hin, if_pos hin, if_pos hin, none_or]
    · rw [if_neg hin, if_neg hin, if_neg hin, get_singleton, get_cons]
      by_cases hc : e.Covers x
      · rw [if_pos hc, if_pos hc, some_or]
      · rw [if_neg hc, if_neg hc, none_or]

omit hS in
/-- The pieces of an extent. -/
theorem mem_cut_of_not (hout : ¬ (e.stop ≤ off ∨ off + len ≤ e.off)) (hp : p ∈ cut S off len e) :
    (e.off < off ∧ p = ⟨e.off, off - e.off, S.split 0 (off - e.off) e.val⟩) ∨
      (off + len < e.stop ∧ p = ⟨off + len, e.stop - (off + len),
        S.split (e.len - (e.stop - (off + len))) (e.stop - (off + len)) e.val⟩) := by
  rw [cut, if_neg hout, leftOf, rightOf] at hp
  rcases mem_append.1 hp with hp | hp
  · split at hp
    · exact .inl ⟨‹_›, mem_singleton.1 hp⟩
    · cases hp
  · split at hp
    · exact .inr ⟨‹_›, mem_singleton.1 hp⟩
    · cases hp

omit hS in
/-- What erasing leaves: whole extents, and pieces of those that meet the hole. -/
theorem mem_erase (hp : p ∈ erase S off len m) :
    p ∈ m ∨ ∃ e ∈ m, ¬ (e.stop ≤ off ∨ off + len ≤ e.off) ∧ p ∈ cut S off len e := by
  rw [erase] at hp
  split at hp
  · exact .inl hp
  obtain ⟨e, he, hpe⟩ := mem_flatMap.1 hp
  by_cases hout : e.stop ≤ off ∨ off + len ≤ e.off
  · rw [cut, if_pos hout] at hpe
    exact .inl (mem_singleton.1 hpe ▸ he)
  · exact .inr ⟨e, he, hout, hpe⟩

/-- The pieces of an extent lie in it, outside the hole, and are sized. -/
theorem mem_cut (he : 0 < e.len ∧ S.length e.val = e.len) (hp : p ∈ cut S off len e) :
    e.off ≤ p.off ∧ p.stop ≤ e.stop ∧ (p.stop ≤ off ∨ off + len ≤ p.off) ∧
      0 < p.len ∧ S.length p.val = p.len := by
  have hstop := e.stop_eq
  by_cases hout : e.stop ≤ off ∨ off + len ≤ e.off
  · rw [cut, if_pos hout] at hp
    obtain rfl := mem_singleton.1 hp
    exact ⟨le_rfl, le_rfl, hout, he⟩
  · rcases mem_cut_of_not hout hp with ⟨hlt, rfl⟩ | ⟨hlt, rfl⟩
    · refine ⟨le_rfl, ?_, .inl ?_, ?_, hS.length_split _ _ _ (by omega)⟩ <;>
        simp only [stop] at * <;> omega
    · refine ⟨?_, ?_, .inr ?_, ?_, hS.length_split _ _ _ (by omega)⟩ <;>
        simp only [stop] at * <;> omega

omit hS in
theorem pairwise_cut (hgap : gap ≤ len) (e : Extent V) :
    (cut S off len e).Pairwise fun p p' => p.stop + gap ≤ p'.off := by
  rw [cut, leftOf, rightOf]
  split_ifs
  · exact pairwise_singleton _ _
  · simp only [cons_append, nil_append, pairwise_pair, stop]
    omega
  · exact pairwise_singleton _ _
  · exact pairwise_singleton _ _
  · exact Pairwise.nil

/-- Cutting a range out of every extent; an empty range cuts the extent it lies in. -/
theorem WF.flatMap_cut (h : WF S gap m) (off : ℕ) (hgap : gap ≤ len) :
    WF S gap (m.flatMap (cut S off len)) := by
  constructor
  · rw [pairwise_flatMap]
    refine ⟨fun e _ => pairwise_cut hgap e, ?_⟩
    refine h.apart.imp_of_mem fun {e e'} he he' hap p hp p' hp' => ?_
    have hp1 := mem_cut hS (h.sized e he) hp
    have hp2 := mem_cut hS (h.sized e' he') hp'
    omega
  · intro p hp
    obtain ⟨e, he, hpe⟩ := mem_flatMap.1 hp
    exact (mem_cut hS (h.sized e he) hpe).2.2.2

theorem WF.erase (hgap : gap ≤ 1) (h : WF S gap m) (off len : ℕ) :
    WF S gap (erase S off len m) := by
  rw [IntervalMap.erase]
  by_cases hlen : len = 0
  · rwa [if_pos hlen]
  · rw [if_neg hlen]
    exact h.flatMap_cut hS off (by omega)

omit hS in
/-- Extents outside of the range stay. -/
theorem flatMap_cut_of_forall (h : ∀ e ∈ m, e.stop ≤ off ∨ off + len ≤ e.off) :
    m.flatMap (cut S off len) = m := by
  induction m with
  | nil => rfl
  | cons e m ih =>
    rw [flatMap_cons, ih fun p hp => h p (mem_cons_of_mem _ hp), cut, if_pos (h e mem_cons_self)]
    rfl

omit hS in
/-- Without merging, an extent is placed before the first that does not begin before it. -/
theorem place_eq_of_not_merge (hmerge : ∀ a b, S.canMerge a b = false) (e : Extent V)
    (m : IntervalMap V) :
    place S e m =
      m.takeWhile (fun p => p.off < e.off) ++ e :: m.dropWhile fun p => p.off < e.off := by
  have hnext : ∀ l : IntervalMap V, mergeNext S e l = e :: l := by
    intro l
    cases l <;> simp [mergeNext, Joins, hmerge]
  induction m with
  | nil => rfl
  | cons p m ih =>
    rw [place, hnext, ih]
    by_cases hlt : p.off < e.off <;> simp [hlt, Joins, hmerge]

/-- No extent of the result reaches into the hole. -/
theorem erase_disjoint (h : WF S gap m) (hlen : 0 < len)
    (hp : p ∈ erase S off len m) : p.stop ≤ off ∨ off + len ≤ p.off := by
  rw [erase, if_neg (by omega)] at hp
  obtain ⟨e, he, hpe⟩ := mem_flatMap.1 hp
  exact (mem_cut hS (h.sized e he) hpe).2.2.1

omit hS in
/-- A property of values that cutting keeps holds of all values after erasing. -/
theorem erase_forall {P : V → Prop} (hsplit : ∀ o l a, P a → P (S.split o l a))
    (hm : ∀ e ∈ m, P e.val) (off len : ℕ) :
    ∀ e ∈ erase S off len m, P e.val := by
  intro p hp
  rcases mem_erase hp with hp | ⟨e, he, hout, hpe⟩
  · exact hm p hp
  · rcases mem_cut_of_not hout hpe with ⟨-, rfl⟩ | ⟨-, rfl⟩ <;> exact hsplit _ _ _ (hm e he)

end Erase

/-! ## Placing -/

section Place

theorem Joins.stop (h : Joins S e e') : (join S e e').stop = e'.stop := by
  have := h.1
  simp only [join, Extent.stop] at *
  omega

variable (hS : S.Lawful at_)
include hS

/-- A joined extent covers what its two parts cover, with their values. -/
theorem get_join_cons (he : S.length e.val = e.len) (he' : S.length e'.val = e'.len)
    (hj : Joins S e e') (m : IntervalMap V) (x : ℕ) :
    get at_ (join S e e' :: m) x = get at_ (e :: e' :: m) x := by
  have hjstop := hj.stop
  obtain ⟨hadj, hcan⟩ := hj
  have hstop := e.stop_eq
  have hstop' := e'.stop_eq
  have hjoff : (join S e e').off = e.off := rfl
  rw [get_cons, get_cons, get_cons]
  by_cases h1 : e.Covers x
  · have hx1 := h1.1
    have hx2 := h1.2
    rw [if_pos ⟨by omega, by omega⟩, if_pos h1]
    simp only [join, some.injEq]
    exact hS.at_merge_left _ _ _ hcan (by omega)
  · rw [if_neg h1]
    have h1' : ¬ (e.off ≤ x ∧ x < e.stop) := h1
    by_cases h2 : e'.Covers x
    · have hx1 := h2.1
      have hx2 := h2.2
      rw [if_pos ⟨by omega, by omega⟩, if_pos h2]
      simp only [join, some.injEq]
      have hidx : x - e.off = S.length e.val + (x - e'.off) := by omega
      rw [hidx]
      exact hS.at_merge_right _ _ _ hcan (by omega)
    · have h2' : ¬ (e'.off ≤ x ∧ x < e'.stop) := h2
      rw [if_neg h2, if_neg]
      rintro ⟨hc1, hc2⟩
      omega

theorem join_sized (he : 0 < e.len ∧ S.length e.val = e.len) (he' : S.length e'.val = e'.len)
    (hj : Joins S e e') :
    0 < (join S e e').len ∧ S.length (join S e e').val = (join S e e').len := by
  obtain ⟨hadj, hcan⟩ := hj
  have hstop := e.stop_eq
  have hstop' := e'.stop_eq
  simp only [join]
  rw [hS.length_merge _ _ hcan]
  omega

theorem get_mergeNext (he : S.length e.val = e.len) (hm : ∀ p ∈ m, S.length p.val = p.len) (x : ℕ) :
    get at_ (mergeNext S e m) x = get at_ (e :: m) x := by
  cases m with
  | nil => rfl
  | cons y m =>
    rw [mergeNext]
    by_cases hj : Joins S e y
    · rw [if_pos hj]
      exact get_join_cons hS he (hm y mem_cons_self) hj m x
    · rw [if_neg hj]

/-- Placing an extent where there is room, point by point. -/
theorem get_place (he : 0 < e.len ∧ S.length e.val = e.len)
    (hm : ∀ p ∈ m, 0 < p.len ∧ S.length p.val = p.len)
    (hroom : ∀ p ∈ m, p.stop ≤ e.off ∨ e.stop ≤ p.off) (x : ℕ) :
    get at_ (place S e m) x = if e.Covers x then some (at_ e.val (x - e.off)) else get at_ m x := by
  induction m with
  | nil => rfl
  | cons y m ih =>
    have hy := hm y mem_cons_self
    have hm' := fun p hp => hm p (mem_cons_of_mem y hp)
    rw [place]
    by_cases hlt : y.off < e.off
    · have hye : y.stop ≤ e.off := by
        have := hroom y mem_cons_self
        have hstop := e.stop_eq
        omega
      have hexcl : e.Covers x → ¬ y.Covers x := fun h1 h2 => by
        have := h1.1
        have := h2.2
        omega
      rw [if_pos hlt]
      by_cases hj : Joins S y e
      · rw [if_pos hj, get_mergeNext hS (join_sized hS hy he.2 hj).2 (fun p hp => (hm' p hp).2),
          get_join_cons hS hy.2 he.2 hj, get_cons, get_cons, get_cons]
        by_cases hc : e.Covers x
        · rw [if_neg (hexcl hc), if_pos hc, if_pos hc]
        · rw [if_neg hc, if_neg hc]
      · rw [if_neg hj, get_cons, get_cons, ih hm' fun p hp => hroom p (mem_cons_of_mem _ hp)]
        by_cases hc : e.Covers x
        · rw [if_neg (hexcl hc), if_pos hc, if_pos hc]
        · rw [if_neg hc, if_neg hc]
    · rw [if_neg hlt, get_mergeNext hS he.2 fun p hp => (hm p hp).2, get_cons]

section

omit hS

variable {P : Extent V → Prop} (hjoin : ∀ e e', Joins S e e' → P e → P e' → P (join S e e'))
include hjoin

/-- What joining keeps holds of all extents after a merge. -/
theorem forall_mergeNext {e : Extent V} (he : P e) (hm : ∀ p ∈ m, P p) :
    ∀ p ∈ mergeNext S e m, P p := by
  intro p hp
  cases m with
  | nil => rwa [mem_singleton.1 hp]
  | cons y m =>
    rw [mergeNext] at hp
    split at hp
    · rcases mem_cons.1 hp with rfl | hp
      · exact hjoin _ _ ‹_› he (hm y mem_cons_self)
      · exact hm p (mem_cons_of_mem _ hp)
    · rcases mem_cons.1 hp with rfl | hp
      · exact he
      · exact hm p hp

/-- What joining keeps holds of all extents once another is placed. -/
theorem forall_place (he : P e) (hm : ∀ p ∈ m, P p) : ∀ p ∈ place S e m, P p := by
  induction m with
  | nil =>
    intro p hp
    rwa [mem_singleton.1 hp]
  | cons y m ih =>
    have hy := hm y mem_cons_self
    have hm' := fun p hp => hm p (mem_cons_of_mem y hp)
    intro p hp
    rw [place] at hp
    split at hp
    · split at hp
      · exact forall_mergeNext hjoin (hjoin _ _ ‹_› hy he) hm' p hp
      · rcases mem_cons.1 hp with rfl | hp
        · exact hy
        · exact ih hm' p hp
    · exact forall_mergeNext hjoin he hm p hp

end

section

variable (hgap : gap = 0 ∨ gap = 1 ∧ ∀ a b, S.canMerge a b = true)

include hgap

omit hS in
/-- Two extents next to each other are apart, unless they are merged. -/
theorem apart_of_not_joins (hle : e.stop ≤ e'.off) (hj : ¬ Joins S e e') :
    e.stop + gap ≤ e'.off := by
  rcases hgap with rfl | ⟨rfl, hcan⟩
  · exact hle
  · have : e.stop ≠ e'.off := fun h => hj ⟨h, hcan _ _⟩
    omega

omit hS in
theorem mergeNext_apart (hm : m.Pairwise fun p p' => p.stop + gap ≤ p'.off)
    (hpos : ∀ p ∈ m, 0 < p.len) (hle : ∀ p ∈ m, e.stop ≤ p.off) :
    (mergeNext S e m).Pairwise fun p p' => p.stop + gap ≤ p'.off := by
  cases m with
  | nil => exact pairwise_singleton _ _
  | cons y m =>
    obtain ⟨hy, hm'⟩ := pairwise_cons.1 hm
    have hey := hle y mem_cons_self
    have hystop := y.stop_eq
    rw [mergeNext]
    by_cases hj : Joins S e y
    · rw [if_pos hj]
      refine pairwise_cons.2 ⟨fun p hp => ?_, hm'⟩
      have := hy p hp
      have hjstop := hj.stop
      omega
    · rw [if_neg hj]
      refine pairwise_cons.2 ⟨fun p hp => ?_, hm⟩
      have hap := apart_of_not_joins hgap hey hj
      rcases mem_cons.1 hp with rfl | hp
      · exact hap
      · have := hy p hp
        omega

theorem WF.place (he : 0 < e.len ∧ S.length e.val = e.len) (h : WF S gap m)
    (hroom : ∀ p ∈ m, p.stop ≤ e.off ∨ e.stop ≤ p.off) : WF S gap (place S e m) := by
  refine ⟨?_, forall_place (fun _ _ hj he he' => join_sized hS he he'.2 hj) he h.sized⟩
  induction m with
  | nil => exact pairwise_singleton _ _
  | cons y m ih =>
    have hy := h.sized y mem_cons_self
    have hystop := y.stop_eq
    have hestop := e.stop_eq
    have hroomy := hroom y mem_cons_self
    have hroom' := fun p hp => hroom p (mem_cons_of_mem y hp)
    rw [IntervalMap.place]
    by_cases hlt : y.off < e.off
    · rw [if_pos hlt]
      -- everything behind `y` is behind `e` as well once `y` touches `e`
      by_cases hj : Joins S y e
      · rw [if_pos hj]
        have hjstop := hj.stop
        have hafter : ∀ p ∈ m, (join S y e).stop ≤ p.off := by
          intro p hp
          have h1 := h.head p hp
          have h2 := hroom' p hp
          have h3 := (h.tail.sized p hp).1
          have h4 := hj.1
          have hpstop := p.stop_eq
          omega
        exact mergeNext_apart hgap h.tail.apart (fun p hp => (h.tail.sized p hp).1) hafter
      · rw [if_neg hj]
        have hye := apart_of_not_joins hgap (show y.stop ≤ e.off by omega) hj
        exact pairwise_cons.2 ⟨forall_place (fun _ _ _ he _ => he) hye h.head, ih h.tail hroom'⟩
    · rw [if_neg hlt]
      have hafter : ∀ p ∈ y :: m, e.stop ≤ p.off := by
        intro p hp
        rcases mem_cons.1 hp with rfl | hp
        · omega
        · have := h.head p hp
          omega
      exact mergeNext_apart hgap h.apart (fun p hp => (h.sized p hp).1) hafter

end

end Place

/-! ## Inserting -/

section Insert

variable (hS : S.Lawful at_)
include hS

/-- **Inserting.**  An interval of the length of the value is accepted; the result
has the value there and is unchanged elsewhere. -/
theorem insert_spec (hgap : gap = 0 ∨ gap = 1 ∧ ∀ a b, S.canMerge a b = true)
    (h : WF S gap m) (off : ℕ) {a : V} (hlen : 0 < len) (ha : S.length a = len) :
    ∃ m', insert S off len a m = some m' ∧ WF S gap m' ∧
      ∀ x, get at_ m' x =
        if off ≤ x ∧ x < off + len then some (at_ a (x - off)) else get at_ m x := by
  have hgap' : gap ≤ 1 := by omega
  have hroom : ∀ p ∈ erase S off len m, p.stop ≤ off ∨ off + len ≤ p.off :=
    fun p hp => erase_disjoint hS h hlen hp
  have hwf := WF.erase hS hgap' h off len
  refine ⟨_, if_pos ⟨hlen, ha.symm⟩, WF.place hS hgap ⟨hlen, ha⟩ hwf hroom, fun x => ?_⟩
  rw [get_place hS ⟨hlen, ha⟩ hwf.sized hroom, get_erase hS fun e he => (h.sized e he).2]
  by_cases hin : off ≤ x ∧ x < off + len
  · rw [if_pos (show (⟨off, len, a⟩ : Extent V).Covers x from hin), if_pos hin]
  · rw [if_neg hin, if_neg (show ¬ (⟨off, len, a⟩ : Extent V).Covers x from hin), if_neg hin]

omit hS in
/-- An insertion that is not refused had an interval of the length of the value. -/
theorem insert_eq_some {m' : IntervalMap V} {a : V} (h : insert S off len a m = some m') :
    0 < len ∧ S.length a = len := by
  rw [insert] at h
  by_cases hc : 0 < len ∧ len = S.length a
  · exact ⟨hc.1, hc.2.symm⟩
  · rw [if_neg hc] at h
    cases h

omit hS in
/-- A property of values that cutting and joining keep holds of all values after
an insertion. -/
theorem insert_forall {P : V → Prop} (hsplit : ∀ o l a, P a → P (S.split o l a))
    (hmerge : ∀ a b, P a → P b → P (S.merge a b)) {m' : IntervalMap V} {a : V}
    (hm : ∀ e ∈ m, P e.val) (ha : P a) (h : insert S off len a m = some m') :
    ∀ e ∈ m', P e.val := by
  rw [insert] at h
  split at h
  · cases h
    exact forall_place (fun _ _ _ he he' => hmerge _ _ he he') ha (erase_forall hsplit hm off len)
  · cases h

/-! ## Intersecting -/

theorem clip_spec (he : S.length e.val = e.len) (h1 : off < e.stop) (h2 : e.off < off + len)
    (hlen : 0 < len) : PartOf S at_ (clip S off len e) e ∧
      (clip S off len e).off = max off e.off ∧
        (clip S off len e).stop = min (off + len) e.stop := by
  have hstop := e.stop_eq
  -- first the left end, then the right end
  obtain ⟨e', heq, hpart, hoff', hstop'⟩ : ∃ e', (if e.off < off then
      (⟨off, e.len - (off - e.off), S.split (off - e.off) (e.len - (off - e.off)) e.val⟩ : Extent V)
      else e) = e' ∧ PartOf S at_ e' e ∧ e'.off = max off e.off ∧ e'.stop = e.stop := by
    by_cases hlt : e.off < off
    · rw [if_pos hlt]
      refine ⟨_, rfl, partOf_split hS he hlt.le (by omega) rfl, by simp only; omega, ?_⟩
      simp only [stop] at *
      omega
    · rw [if_neg hlt]
      exact ⟨e, rfl, ⟨le_rfl, le_rfl, he, fun _ _ => rfl⟩, by omega, rfl⟩
  have hstop'' := e'.stop_eq
  rw [clip, heq]
  by_cases hright : off + len < e'.stop
  · rw [if_pos hright]
    refine ⟨(partOf_split hS hpart.sized le_rfl (by omega) (Nat.sub_self _).symm).trans hpart,
      hoff', ?_⟩
    simp only [stop] at *
    omega
  · rw [if_neg hright]
    exact ⟨hpart, hoff', by omega⟩

omit hS in
/-- What does not cover `x` can be left out. -/
theorem get_filter {q : Extent V → Bool}
    (h : ∀ e ∈ m, e.Covers x → q e) : get at_ (m.filter q) x = get at_ m x := by
  induction m with
  | nil => rfl
  | cons e m ih =>
    have hrest := ih fun p hp => h p (mem_cons_of_mem _ hp)
    cases hq : q e with
    | true => rw [filter_cons_of_pos hq, get_cons, get_cons, hrest]
    | false =>
      have hc : ¬ e.Covers x := fun hc => by simp [hq] at h; exact h.1 hc
      rw [filter_cons_of_neg (by simp [hq]), get_cons, if_neg hc, hrest]

/-- **Intersecting**, point by point. -/
theorem intersect_spec (hgap : gap = 0 ∨ gap = 1 ∧ ∀ a b, S.canMerge a b = true)
    (h : WF S 0 m) (hlen : 0 < len ∨ off = 0) :
    ∃ m', intersect S off len m = some m' ∧ WF S gap m' ∧
      ∀ x, get at_ m' x = if off ≤ x ∧ x < off + len then get at_ m x else none := by
  obtain ⟨m', hrun, hwf, hget⟩ := Loop.foldlM_invariant
    (l := m.filter fun e => off < e.stop ∧ e.off < off + len) (fun pre acc => WF S gap acc ∧
      ∀ x, get at_ acc x = if off ≤ x ∧ x < off + len then get at_ pre x else none)
    ⟨WF.nil gap, by simp⟩ fun pre e post acc hl ⟨hwf, hget⟩ => by
      -- the part of the extent in the range is inserted
      obtain ⟨he, hov⟩ := mem_filter.1 (show e ∈ m.filter _ by rw [hl]; simp)
      obtain ⟨h1, h2⟩ := of_decide_eq_true hov
      obtain ⟨hpos, hsz⟩ := h.sized e he
      obtain ⟨hpart, hoff, hstop⟩ := clip_spec hS hsz h1 h2 (by omega)
      have hcstop := (clip S off len e).stop_eq
      have hestop := e.stop_eq
      obtain ⟨acc', hins, hwf', hget'⟩ := insert_spec hS hgap hwf (clip S off len e).off
        (by omega) hpart.sized
      refine ⟨acc', hins, hwf', fun x => ?_⟩
      have happend : get at_ acc' x = get at_ ([clip S off len e] ++ acc) x := hget' x
      rw [happend, get_append, get_append, hget,
        hpart.get_eq (c := off ≤ x ∧ x < off + len) fun hc => by
        simp only [Covers] at *
        omega]
      by_cases hin : off ≤ x ∧ x < off + len
      · rw [if_pos hin, if_pos hin, if_pos hin]
        by_cases hc : e.Covers x
        · have hnone : get at_ pre x = none := (get_eq_none_iff ..).2 fun p hp hpc => by
            have hap := h.apart.filter fun e => decide (off < e.stop ∧ e.off < off + len)
            rw [hl] at hap
            have := (pairwise_append.1 hap).2.2 p hp e mem_cons_self
            have := hpc.2
            have := hc.1
            omega
          rw [hnone, or_none, none_or]
        · rw [get_singleton, if_neg hc, or_none, none_or]
      · rw [if_neg hin, if_neg hin, if_neg hin, none_or]
  refine ⟨m', hrun, hwf, fun x => ?_⟩
  rw [hget]
  by_cases hin : off ≤ x ∧ x < off + len
  · rw [if_pos hin, if_pos hin, get_filter fun e _ hc => by
      simp only [Covers, decide_eq_true_eq] at *
      omega]
  · rw [if_neg hin, if_neg hin]

end Insert

end IntervalMap

/-! ## Interval sets -/

/-- A set of numbers kept as its maximal runs: an interval map whose values are
the lengths. -/
abbrev IntervalSet : Type := IntervalMap ℕ

namespace IntervalSet

open IntervalMap

/-- Lengths are cut and added. -/
def lengths : Splitter ℕ where
  length := fun n => n
  split := fun _ len _ => len
  canMerge := fun _ _ => true
  merge := fun a b => a + b

theorem lengths_lawful : lengths.Lawful (fun _ _ => ()) where
  length_split := fun _ _ _ _ => rfl
  at_split := fun _ _ _ _ _ _ => rfl
  length_merge := fun _ _ _ => rfl
  at_merge_left := fun _ _ _ _ _ => rfl
  at_merge_right := fun _ _ _ _ _ => rfl

/-- Add `[off, off + len)`, which must not be empty, to the set. -/
def unionInsert (off len : ℕ) (s : IntervalSet) : Option IntervalSet :=
  insert lengths off len len s

/-- Add `[off, off + len)`, which must not be empty and not meet the set. -/
def insertNew (off len : ℕ) (s : IntervalSet) : Option IntervalSet :=
  if ∀ e ∈ s, e.stop ≤ off ∨ off + len ≤ e.off then unionInsert off len s else none

/-- The points an interval map covers. -/
def ofMap {V : Type u} (m : IntervalMap V) : Option IntervalSet :=
  m.foldlM (fun s e => insertNew e.off e.len s) []

variable {s : IntervalSet}

theorem unionInsert_spec (h : WF lengths 1 s) (off : ℕ) (hlen : 0 < len) :
    ∃ s', unionInsert off len s = some s' ∧ WF lengths 1 s' ∧
      ∀ x, Covered s' x ↔ (off ≤ x ∧ x < off + len) ∨ Covered s x := by
  obtain ⟨s', hins, hwf, hget⟩ := insert_spec lengths_lawful
    (.inr ⟨rfl, fun _ _ => rfl⟩) h off hlen (show lengths.length len = len from rfl)
  refine ⟨s', hins, hwf, fun x => ?_⟩
  rw [← get_isSome_iff (fun _ _ => ()), hget x, ← get_isSome_iff (fun _ _ => ()) s]
  by_cases hin : off ≤ x ∧ x < off + len
  · simp [hin]
  · simp [hin]

theorem insertNew_spec (h : WF lengths 1 s) (off : ℕ) (hlen : 0 < len)
    (hnew : ∀ x, off ≤ x → x < off + len → ¬ Covered s x) :
    ∃ s', insertNew off len s = some s' ∧ WF lengths 1 s' ∧
      ∀ x, Covered s' x ↔ (off ≤ x ∧ x < off + len) ∨ Covered s x := by
  have hroom : ∀ e ∈ s, e.stop ≤ off ∨ off + len ≤ e.off := by
    intro e he
    by_contra hcon
    have hlt := h.off_lt_stop he
    exact hnew (max off e.off) (le_max_left _ _) (by omega) ⟨e, he, le_max_right _ _, by omega⟩
  rw [insertNew, if_pos hroom]
  exact unionInsert_spec h off hlen

/-- Collecting the intervals of a map gives the set of the points it covers. -/
theorem ofMap_spec {V : Type u} {S : Splitter V} {m : IntervalMap V} (h : WF S 0 m) :
    ∃ s, ofMap m = some s ∧ WF lengths 1 s ∧ ∀ x, Covered s x ↔ Covered m x := by
  refine Loop.foldlM_invariant (fun pre s => WF lengths 1 s ∧ ∀ x, Covered s x ↔ Covered pre x)
    ⟨WF.nil 1, fun x => by simp [Covered]⟩ ?_
  rintro pre e post s rfl ⟨hwf, hcov⟩
  have hpos := (h.sized e (by simp)).1
  obtain ⟨s', hins, hwf', hcov'⟩ := insertNew_spec hwf e.off hpos fun x h1 h2 hc => by
    obtain ⟨y, hy, hyc⟩ := (hcov x).1 hc
    have hap := (pairwise_append.1 h.apart).2.2 y hy e mem_cons_self
    have := hyc.2
    omega
  refine ⟨s', hins, hwf', fun x => ?_⟩
  rw [hcov' x, hcov x]
  simp only [Covered, mem_append, mem_singleton]
  constructor
  · rintro (hx | ⟨y, hy, hyc⟩)
    · exact ⟨e, .inr rfl, hx⟩
    · exact ⟨y, .inl hy, hyc⟩
  · rintro ⟨y, hy | rfl, hyc⟩
    · exact .inr ⟨y, hy, hyc⟩
    · exact .inl hyc

/-- Sets of the same points are equal. -/
theorem eq_of_covered {s' : IntervalSet} (h : WF lengths 1 s) (h' : WF lengths 1 s')
    (hcov : ∀ x, Covered s x ↔ Covered s' x) : s = s' := by
  have hval : ∀ (t : IntervalSet), WF lengths 1 t →
      t = (t.map fun e => (e.off, e.len)).map fun p => ⟨p.1, p.2, p.2⟩ := by
    intro t ht
    rw [List.map_map]
    conv_lhs => rw [← List.map_id t]
    refine List.map_congr_left fun e he => ?_
    have : e.val = e.len := (ht.sized e he).2
    cases e
    simp only at this
    subst this
    rfl
  rw [hval s h, hval s' h', h.map_off_len_eq h' hcov]

end IntervalSet

end Ceph
