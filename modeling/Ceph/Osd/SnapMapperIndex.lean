import Ceph.Lib.SortedList
import Ceph.Osd.SnapMapper

/-!
# What the snap mapper holds

After a run of calls the map holds, for every object, the set last stored for it, and
under the keys of its snapshots what is left of the set it was added with
(`Represents`).  Snapshots that agree modulo 2³² have the same keys: of those an object
is added with only the smallest is recorded, and the record is gone as soon as one of
them is taken away (`SnapRecord.entry`).
-/

namespace Ceph.Osd

open Ceph.Common List Option Function SnapMapper Finmap

/-! ## Keys -/

/-- The snapshots are printed alike. -/
def Alike (s t : SnapId) : Prop := s.val % 2 ^ 32 = t.val % 2 ^ 32

instance (s t : SnapId) : Decidable (Alike s t) := inferInstanceAs (Decidable (_ = _))

theorem length_getPrefix (s : SnapId) : (getPrefix s).length = 21 := by
  simp [getPrefix, mappingPrefix, upperHex]

variable {s : SnapId} {t : SnapId}

theorem getPrefix_inj : getPrefix s = getPrefix t ↔ Alike s t := by
  constructor
  · intro h
    have h := append_cancel_left h
    have hlt : ∀ s : SnapId, s.val % 2 ^ 32 < 16 ^ 16 := fun s => by omega
    exact (upperHex_append_inj (hlt s) (hlt t) h).1
  · intro h
    unfold getPrefix
    rw [show s.val % 2 ^ 32 = t.val % 2 ^ 32 from h]

variable {o : HObject}

namespace SnapMapper

variable (m : SnapMapper)

theorem toRawKey_inj {o' : HObject} : m.toRawKey s o = m.toRawKey t o' ↔ Alike s t ∧ o = o' := by
  constructor
  · intro h
    obtain ⟨hs, h⟩ := append_inj h (by rw [length_getPrefix, length_getPrefix])
    exact ⟨getPrefix_inj.1 hs, HObject.toStr_injective (append_cancel_left h)⟩
  · rintro ⟨hs, rfl⟩
    unfold toRawKey
    rw [getPrefix_inj.2 hs]

theorem toObjectKey_inj {o' : HObject} (h : m.toObjectKey o = m.toObjectKey o') : o = o' :=
  HObject.toStr_injective (append_cancel_left (append_cancel_left h))

theorem take_getPrefix (s : SnapId) (rest : List Char) :
    (getPrefix s ++ rest).take 4 = "MAP_".toList := by
  simp [getPrefix, mappingPrefix]

theorem take_toObjectKey (o : HObject) : (m.toObjectKey o).take 4 = "OBJ_".toList := by
  simp [toObjectKey, objectPrefix]

theorem toRawKey_ne_toObjectKey (s : SnapId) (o o' : HObject) :
    m.toRawKey s o ≠ m.toObjectKey o' := by
  intro h
  have htake := congrArg (take 4) h
  rw [toRawKey, take_getPrefix, take_toObjectKey] at htake
  exact absurd htake (by decide)

/-- The object belongs to the placement group. -/
structure InPg (o : HObject) : Prop where
  check : m.check o
  pool_eq : o.pool = m.pool

/-- The key is looked at in a search. -/
def Ours (key : List Char) : Prop := ∃ s, ∃ i ∈ m.prefixes, getPrefix s ++ i <+: key

theorem not_ours_toObjectKey (o : HObject) : ¬ m.Ours (m.toObjectKey o) := by
  rintro ⟨s, i, -, rest, hkey⟩
  have htake := congrArg (take 4) hkey
  rw [append_assoc, take_getPrefix, take_toObjectKey] at htake
  exact absurd htake (by decide)

theorem mem_prefixes {i : List Char} :
    i ∈ m.prefixes ↔ ∃ ps, getPrefixes m.maskBits m.pattern m.pool = some ps ∧
      ∃ p ∈ ps, m.shardPrefix ++ p = i := by
  unfold prefixes
  cases getPrefixes m.maskBits m.pattern m.pool with
  | none => simp
  | some ps => simp

/-- A search for a snapshot comes to the keys of all objects of the placement group. -/
theorem exists_prefix_toRawKey (ho : m.InPg o) (s : SnapId) :
    ∃ i ∈ m.prefixes, getPrefix s ++ i <+: m.toRawKey s o ∧ getPrefix s ++ i ≠ m.toRawKey s o := by
  obtain ⟨ps, hps, p, hp, hpre, hne⟩ := exists_prefix_of_matchHash m.maskBits_lt ho.check
  rw [ho.pool_eq] at hps
  refine ⟨m.shardPrefix ++ p, m.mem_prefixes.2 ⟨ps, hps, p, hp, rfl⟩, ?_, ?_⟩
  · exact (prefix_append_right_inj _).2 ((prefix_append_right_inj _).2 hpre)
  · intro h
    exact hne (append_cancel_left (append_cancel_left h))

theorem ours_toRawKey (ho : m.InPg o) (s : SnapId) : m.Ours (m.toRawKey s o) :=
  have ⟨i, hi, hpre, _⟩ := m.exists_prefix_toRawKey ho s
  ⟨s, i, hi, hpre⟩

/-- The strings searched for are in order, and none begins with another. -/
theorem prefixes_sorted (s : SnapId) :
    m.prefixes.Pairwise fun i j => getPrefix s ++ i < getPrefix s ++ j ∧
      ¬ getPrefix s ++ i <+: getPrefix s ++ j := by
  have hlen : ∀ i ∈ m.prefixes, ∀ j ∈ m.prefixes, i.length = j.length := by
    intro i hi j hj
    obtain ⟨ps, hps, p, hp, rfl⟩ := m.mem_prefixes.1 hi
    obtain ⟨ps', hps', q, hq, rfl⟩ := m.mem_prefixes.1 hj
    rw [length_append, length_append, length_of_mem_getPrefixes hps hp,
      length_of_mem_getPrefixes hps' hq]
  have hlt : m.prefixes.Pairwise (· < ·) := by
    unfold prefixes
    split
    · exact (Finset.sortedLT_sort _).pairwise
    · exact .nil
  refine hlt.imp_of_mem fun {i j} hi hj hij => ⟨?_, fun hpre => ?_⟩
  · exact (append_lt_append_iff rfl).2 (.inr ⟨rfl, hij⟩)
  · rw [prefix_append_right_inj] at hpre
    exact hij.ne (hpre.eq_of_length (hlen i hi j hj))

end SnapMapper

/-! ## What is stored -/

/-- What the calls say of an object: the set it was added with, and the one last stored. -/
structure SnapRecord where
  added : Finset SnapId
  current : Finset SnapId

/-- The snapshot that is recorded under the key of `s`. -/
def SnapRecord.entry (r : SnapRecord) (s : SnapId) : Option SnapId :=
  if r.added.filter (Alike s ·) ⊆ r.current then
    (SortedList.ascending r.added).find? fun t => Alike s t
  else none

theorem find?_sort {A : Finset SnapId} : ((A.sort (· ≤ ·)).find? fun t => Alike s t) = some t ↔
      t ∈ A ∧ Alike s t ∧ ∀ u ∈ A, Alike s u → t ≤ u := by
  have hfirst : ∀ t, ((A.sort (· ≤ ·)).find? fun t => Alike s t) = some t →
      t ∈ A ∧ Alike s t ∧ ∀ u ∈ A, Alike s u → t ≤ u := by
    intro t h
    obtain ⟨ht, front, back, hsplit, hfront⟩ := List.find?_eq_some_iff_append.1 h
    have hsorted : (A.sort (· ≤ ·)).Pairwise (· < ·) := (Finset.sortedLT_sort _).pairwise
    have hmem : ∀ u, u ∈ A ↔ u ∈ front ++ t :: back := fun u => by
      rw [← hsplit, Finset.mem_sort]
    rw [hsplit, pairwise_append, pairwise_cons] at hsorted
    refine ⟨(hmem t).2 (by simp), by simpa using ht, fun u hu halike => ?_⟩
    rcases mem_append.1 ((hmem u).1 hu) with hu | hu
    · exact absurd halike (by simpa using hfront u hu)
    · rcases mem_cons.1 hu with rfl | hu
      · exact le_rfl
      · exact (hsorted.2.1.1 u hu).le
  refine ⟨hfirst t, fun ⟨hmem, halike, hleast⟩ => ?_⟩
  cases hfind : (A.sort (· ≤ ·)).find? fun t => Alike s t with
  | none =>
    have := List.find?_eq_none.1 hfind t ((Finset.mem_sort _).2 hmem)
    exact absurd (decide_eq_true halike) this
  | some t' =>
    obtain ⟨hmem', halike', hleast'⟩ := hfirst t' hfind
    rw [(hleast' t hmem halike).antisymm (hleast t' hmem' halike')]

abbrev SnapSpec := HObject → Option SnapRecord

/-- What a call does to what is stored. -/
def SnapCall.apply (spec : SnapSpec) : SnapCall → SnapSpec
  | .addOid oid snaps => update spec oid (some ⟨snaps, snaps⟩)
  | .updateSnaps oid newSnaps _ =>
    update spec oid ((spec oid).bind fun r =>
      if newSnaps = ∅ then none else some { r with current := newSnaps })
  | .removeOid oid => update spec oid none

/-- The object a call is about. -/
def SnapCall.oid : SnapCall → HObject
  | .addOid oid _ => oid
  | .updateSnaps oid _ _ => oid
  | .removeOid oid => oid

variable {call : SnapCall}

theorem SnapCall.apply_of_ne (ho : o ≠ call.oid) (spec : SnapSpec) :
    call.apply spec o = spec o := by
  cases call <;> exact update_of_ne ho _ _

theorem SnapCall.apply_addOid_self (spec : SnapSpec) (oid : HObject) (snaps : Finset SnapId) :
    (SnapCall.addOid oid snaps).apply spec oid = some ⟨snaps, snaps⟩ := by
  exact update_self ..

/-- The call may be made: an object is added that is not there, or its set is replaced by
a subset of it. -/
def SnapCall.Fits (spec : SnapSpec) : SnapCall → Prop
  | .addOid oid _ => spec oid = none
  | .updateSnaps oid newSnaps oldSnapsCheck => ∀ r ∈ spec oid, newSnaps ⊆ r.current ∧
      (newSnaps ≠ ∅ → ∀ old ∈ oldSnapsCheck, r.current = old)
  | .removeOid _ => True

/-- The map holds what is stored. -/
structure Represents (m : SnapMapper) (store : SnapStore) (spec : SnapSpec) : Prop where
  inPg : ∀ o r, spec o = some r → m.InPg o
  subset : ∀ o r, spec o = some r → r.current ⊆ r.added
  objects : ∀ o, m.InPg o → store.lookup (m.toObjectKey o) =
    (spec o).map fun r => .objectSnaps o r.current
  mappings : ∀ o s, m.InPg o → store.lookup (m.toRawKey s o) =
    (spec o).bind fun r => (r.entry s).map fun t => .mapping t o
  ours : ∀ key v, m.Ours key → store.lookup key = some v → ∃ s o, m.InPg o ∧ key = m.toRawKey s o

/-! ## The operations on the map -/

theorem lookup_removeKeys (store : SnapStore) (keys : List (List Char)) (key : List Char) :
    (removeKeys store keys).lookup key =
      if key ∈ keys then none else store.lookup key := by
  unfold removeKeys
  induction keys generalizing store with
  | nil => simp
  | cons k keys ih =>
    rw [foldl_cons, ih]
    by_cases hk : key = k
    · subst hk
      simp
    · simp [hk, lookup_erase_ne hk]

variable {oid : HObject} {snaps : Finset SnapId}

section Operations

variable {m : SnapMapper}

theorem mem_rawKeys : m.toRawKey s o ∈ m.rawKeys oid snaps ↔ o = oid ∧ ∃ t ∈ snaps, Alike s t := by
  unfold rawKeys
  simp only [List.mem_map, Finset.mem_sort, m.toRawKey_inj]
  constructor
  · rintro ⟨t, ht, halike, rfl⟩
    exact ⟨rfl, t, ht, halike.symm⟩
  · rintro ⟨rfl, t, ht, halike⟩
    exact ⟨t, ht, halike.symm, rfl⟩

theorem toObjectKey_notMem_rawKeys (o oid : HObject) (snaps : Finset SnapId) :
    m.toObjectKey o ∉ m.rawKeys oid snaps := by
  unfold rawKeys
  rw [List.mem_map]
  rintro ⟨t, -, h⟩
  exact m.toRawKey_ne_toObjectKey t oid o h

/-- Of the snapshots with one key the first stays. -/
theorem lookup_toAdd (oid : HObject) (snaps : Finset SnapId) (key : List Char) :
    (m.toAdd oid snaps).lookup key =
      ((snaps.sort (· ≤ ·)).find? fun t => m.toRawKey t oid = key).map fun t => .mapping t oid := by
  refine Loop.foldl_invariant (fun pre (added : SnapStore) => ∀ key, added.lookup key =
    (pre.find? fun t => m.toRawKey t oid = key).map fun t => .mapping t oid) ?_ ?_ key
  · intro key
    rfl
  · rintro pre t - added - hinv key
    have hmem : m.toRawKey t oid ∈ added ↔
        (pre.find? fun u => m.toRawKey u oid = m.toRawKey t oid).isSome := by
      rw [← lookup_isSome, hinv, isSome_map]
    rw [List.find?_append]
    by_cases hkey : m.toRawKey t oid = key
    · subst hkey
      cases hfind : pre.find? fun u => m.toRawKey u oid = m.toRawKey t oid with
      | some u =>
        rw [if_pos (hmem.2 (by rw [hfind]; rfl)), hinv, hfind]
        rfl
      | none =>
        rw [if_neg (fun h => by simp [hfind] at hmem; exact hmem h), lookup_insert]
        simp
    · rw [List.find?_singleton, decide_eq_false hkey]
      simp only [Bool.false_eq_true, if_false, or_none]
      split
      · exact hinv key
      · rw [lookup_insert_of_ne _ (Ne.symm hkey)]
        exact hinv key

theorem lookup_toAdd_toRawKey (oid : HObject) (snaps : Finset SnapId) (s : SnapId) (o : HObject) :
    (m.toAdd oid snaps).lookup (m.toRawKey s o) = if o = oid then
        ((snaps.sort (· ≤ ·)).find? fun t => Alike s t).map fun t => .mapping t oid
      else none := by
  rw [lookup_toAdd]
  split <;> rename_i ho
  · subst ho
    congr 2
    funext t
    rw [decide_eq_decide, m.toRawKey_inj]
    exact ⟨fun h => h.1.symm, fun h => ⟨h.symm, rfl⟩⟩
  · rw [List.find?_eq_none.2 fun t _ => ?_, map_none]
    rw [decide_eq_true_eq, m.toRawKey_inj]
    exact fun h => ho h.2.symm

theorem lookup_toAdd_toObjectKey (oid : HObject) (snaps : Finset SnapId) (o : HObject) :
    (m.toAdd oid snaps).lookup (m.toObjectKey o) = none := by
  rw [lookup_toAdd, List.find?_eq_none.2 fun t _ => ?_, map_none]
  rw [decide_eq_true_eq]
  exact m.toRawKey_ne_toObjectKey t oid o

theorem lookup_toAdd_eq_some {key : List Char} {v : SnapValue}
    (h : (m.toAdd oid snaps).lookup key = some v) : ∃ s, key = m.toRawKey s oid := by
  rw [lookup_toAdd] at h
  obtain ⟨t, hfind, -⟩ := of_map h
  have hkey := List.find?_some hfind
  exact ⟨t, (of_decide_eq_true hkey).symm⟩

end Operations

/-! ## The calls -/

section Calls

variable {m : SnapMapper} {store store' : SnapStore} {spec : SnapSpec} {r : SnapRecord}

namespace Represents

theorem getSnaps_eq (h : Represents m store spec) (ho : m.InPg o) :
    m.getSnaps store o = match spec o with
      | none => some none
      | some r => if r.current = ∅ then none else some (some r.current) := by
  unfold getSnaps
  rw [assert_bind ho.check, h.objects o ho]
  cases spec o with
  | none => rfl
  | some r =>
    dsimp only [map_some]
    by_cases hr : r.current = ∅
    · rw [if_pos hr, assert_bind_of_not (not_not.2 hr)]
    · rw [if_neg hr, assert_bind hr]

theorem filter_subset_iff {A C : Finset SnapId} :
    A.filter (Alike s ·) ⊆ C ↔ ∀ t ∈ A, Alike s t → t ∈ C := by
  simp only [Finset.subset_iff, Finset.mem_filter, and_imp]

/-- Nothing is recorded of an object without snapshots that are printed alike. -/
theorem entry_eq_none (h : ∀ t ∈ r.current, ¬ Alike s t) : r.entry s = none := by
  unfold SnapRecord.entry
  split <;> rename_i hall
  · rw [filter_subset_iff] at hall
    refine List.find?_eq_none.2 fun t ht => ?_
    rw [decide_eq_true_eq]
    exact fun halike => h t (hall t (SortedList.mem_ascending.1 ht) halike) halike
  · rfl

variable {newSnaps : Finset SnapId}

/-- A snapshot is taken away that is printed like `s`. -/
theorem entry_of_gone (hcur : r.current ⊆ r.added) (hgone : ∃ t ∈ r.current \ newSnaps, Alike s t) :
    ({ r with current := newSnaps } : SnapRecord).entry s = none := by
  obtain ⟨t, ht, halike⟩ := hgone
  rw [Finset.mem_sdiff] at ht
  refine if_neg fun hall => ht.2 ?_
  exact filter_subset_iff.1 hall t (hcur ht.1) halike

/-- None is. -/
theorem entry_of_kept (hsub : newSnaps ⊆ r.current)
    (hkept : ¬ ∃ t ∈ r.current \ newSnaps, Alike s t) :
    ({ r with current := newSnaps } : SnapRecord).entry s = r.entry s := by
  have hiff : r.added.filter (Alike s ·) ⊆ newSnaps ↔ r.added.filter (Alike s ·) ⊆ r.current := by
    refine ⟨fun hall => hall.trans hsub, fun hall => filter_subset_iff.2 fun t ht halike => ?_⟩
    by_contra hnot
    refine hkept ⟨t, Finset.mem_sdiff.2 ⟨filter_subset_iff.1 hall t ht halike, hnot⟩, halike⟩
  unfold SnapRecord.entry
  by_cases hall : r.added.filter (Alike s ·) ⊆ r.current
  · rw [if_pos hall, if_pos (hiff.2 hall)]
  · rw [if_neg hall, if_neg fun h => hall (hiff.1 h)]

section

variable (h : Represents m store spec) (hpg : m.InPg oid)

include h hpg

variable {new : Option SnapRecord}

/-- A change of the keys of one object. -/
theorem update (hsub : ∀ r ∈ new, r.current ⊆ r.added)
    (hobjects : ∀ o, store'.lookup (m.toObjectKey o) =
      if o = oid then new.map fun r => .objectSnaps oid r.current
      else store.lookup (m.toObjectKey o))
    (hmappings : ∀ s o, store'.lookup (m.toRawKey s o) =
      if o = oid then new.bind fun r => (r.entry s).map fun t => .mapping t oid
      else store.lookup (m.toRawKey s o))
    (hours : ∀ key v, m.Ours key → store'.lookup key = some v →
      (∃ s, key = m.toRawKey s oid) ∨ store.lookup key = some v) :
    Represents m store' (update spec oid new) where
  inPg o r hr := by
    by_cases ho : o = oid
    · exact ho ▸ hpg
    · rw [update_of_ne ho] at hr
      exact h.inPg o r hr
  subset := (forall_update_iff spec fun _ new => ∀ r ∈ new, r.current ⊆ r.added).2
    ⟨hsub, fun o _ => h.subset o⟩
  objects o ho := by
    rw [hobjects]
    split <;> rename_i heq
    · rw [heq, update_self]
    · rw [update_of_ne heq]
      exact h.objects o ho
  mappings o s ho := by
    rw [hmappings]
    split <;> rename_i heq
    · rw [heq, update_self]
    · rw [update_of_ne heq]
      exact h.mappings o s ho
  ours key v hkey hv := by
    rcases hours key v hkey hv with ⟨s, rfl⟩ | hold
    · exact ⟨s, oid, hpg, rfl⟩
    · exact h.ours key v hkey hold

theorem addOid (hnone : spec oid = none) : ∃ store', m.addOid store oid snaps = some store' ∧
      Represents m store' ((SnapCall.addOid oid snaps).apply spec) := by
  refine ⟨m.toAdd oid snaps ∪ store.insert (m.toObjectKey oid) (.objectSnaps oid snaps), ?_, ?_⟩
  · unfold SnapMapper.addOid SnapMapper.setSnaps
    rw [assert_bind hpg.check, h.getSnaps_eq hpg, hnone, assert_bind hpg.check]
    rfl
  · have hlookup : ∀ key, (m.toAdd oid snaps ∪
        store.insert (m.toObjectKey oid) (.objectSnaps oid snaps)).lookup key =
        ((m.toAdd oid snaps).lookup key).or
          ((store.insert (m.toObjectKey oid) (.objectSnaps oid snaps)).lookup key) := by
      intro key
      by_cases hmem : key ∈ m.toAdd oid snaps
      · rw [lookup_union_left hmem]
        obtain ⟨v, hv⟩ := isSome_iff_exists.1 (lookup_isSome.2 hmem)
        rw [hv, some_or]
      · rw [lookup_union_right hmem, lookup_eq_none.2 hmem, none_or]
    refine h.update hpg (fun r hr => by cases hr; exact subset_rfl) (fun o => ?_) (fun s o => ?_)
      fun key v hkey hv => ?_
    · rw [hlookup, lookup_toAdd_toObjectKey, none_or]
      split <;> rename_i ho
      · rw [ho, lookup_insert]
        rfl
      · rw [lookup_insert_of_ne _ fun h => ho (m.toObjectKey_inj h)]
    · rw [hlookup, lookup_toAdd_toRawKey,
        lookup_insert_of_ne _ (m.toRawKey_ne_toObjectKey s o oid)]
      split <;> rename_i ho
      · rw [ho, h.mappings oid s hpg, hnone, bind_none, or_none]
        rw [bind_some, SnapRecord.entry, if_pos (Finset.filter_subset _ _), SortedList.ascending]
      · rfl
    · rw [hlookup] at hv
      rcases or_eq_some_iff.1 hv with hv | ⟨-, hv⟩
      · exact .inl (lookup_toAdd_eq_some hv)
      · have hne : key ≠ m.toObjectKey oid := fun heq => m.not_ours_toObjectKey oid (heq ▸ hkey)
        rw [lookup_insert_of_ne _ hne] at hv
        exact .inr hv

theorem removeOid_eq :
    m.removeOid store oid = match spec oid with
      | none => some (store, enoent)
      | some r =>
        if r.current = ∅ then none
        else some (removeKeys (store.erase (m.toObjectKey oid)) (m.rawKeys oid r.current), 0) := by
  unfold removeOid clearSnaps
  rw [assert_bind hpg.check, h.getSnaps_eq hpg]
  cases spec oid with
  | none => rfl
  | some r =>
    dsimp only
    split
    · rfl
    · rw [assert_bind hpg.check]
      rfl

theorem updateSnaps_eq {oldSnapsCheck : Option (Finset SnapId)} (hnew : newSnaps ≠ ∅)
    (hcheck : ∀ r ∈ spec oid, ∀ old ∈ oldSnapsCheck, r.current = old) :
    m.updateSnaps store oid newSnaps oldSnapsCheck = match spec oid with
      | none => some (store, enoent)
      | some r =>
        if r.current = ∅ then none
        else some (removeKeys (store.insert (m.toObjectKey oid) (.objectSnaps oid newSnaps))
          (m.rawKeys oid (r.current \ newSnaps)), 0) := by
  unfold updateSnaps setSnaps
  rw [assert_bind hpg.check, if_neg hnew, h.getSnaps_eq hpg]
  cases hrec : spec oid with
  | none => rfl
  | some r =>
    dsimp only
    split
    · rfl
    · change (assert _ >>= _) = _
      rw [assert_bind (all_eq_true _ _ |>.2 fun old hold =>
        decide_eq_true (hcheck r hrec old hold)), assert_bind hpg.check]
      rfl

/-- The keys of the object are removed, apart from those that stay. -/
theorem remove {gone : Finset SnapId} {store₁ : SnapStore}
    (hsub : ∀ r ∈ new, r.current ⊆ r.added) (hrec : spec oid = some r)
    (hkept : ∀ key, key ≠ m.toObjectKey oid → store₁.lookup key = store.lookup key)
    (hobject : store₁.lookup (m.toObjectKey oid) = new.map fun r => .objectSnaps oid r.current)
    (hgone : ∀ s, (∃ t ∈ gone, Alike s t) → (new.bind fun r => r.entry s) = none)
    (hstay : ∀ s, (¬ ∃ t ∈ gone, Alike s t) → (new.bind fun r => r.entry s) = r.entry s) :
    Represents m (removeKeys store₁ (m.rawKeys oid gone)) (Function.update spec oid new) := by
  refine h.update hpg hsub (fun o => ?_) (fun s o => ?_) fun key v hkey hv => ?_
  · rw [lookup_removeKeys, if_neg (toObjectKey_notMem_rawKeys o oid gone)]
    split <;> rename_i ho
    · rw [ho, hobject]
    · exact hkept _ fun heq => ho (m.toObjectKey_inj heq)
  · rw [lookup_removeKeys, hkept _ (m.toRawKey_ne_toObjectKey s o oid)]
    by_cases ho : o = oid
    · rw [if_pos ho, ho, h.mappings oid s hpg, hrec]
      have hbind : (new.bind fun r => (r.entry s).map fun t => SnapValue.mapping t oid) =
          (new.bind fun r => r.entry s).map fun t => .mapping t oid := by
        cases new <;> rfl
      rw [hbind]
      by_cases hs : ∃ t ∈ gone, Alike s t
      · rw [if_pos (mem_rawKeys.2 ⟨rfl, hs⟩), hgone s hs, map_none]
      · rw [if_neg fun h => hs (mem_rawKeys.1 h).2, hstay s hs, bind_some]
    · rw [if_neg ho, if_neg fun h => ho (mem_rawKeys.1 h).1]
  · rw [lookup_removeKeys] at hv
    split at hv
    · cases hv
    · rw [hkept _ fun heq => m.not_ours_toObjectKey oid (heq ▸ hkey)] at hv
      exact .inr hv

/-- The object is removed. -/
theorem removeOid (hrec : spec oid = some r) : Represents m
      (removeKeys (store.erase (m.toObjectKey oid)) (m.rawKeys oid r.current))
      (Function.update spec oid none) := by
  refine h.remove hpg (nofun) hrec (fun key hne => lookup_erase_ne hne)
    (lookup_erase _ _) (fun _ _ => rfl) fun s hs => ?_
  exact (entry_eq_none fun t ht halike => hs ⟨t, ht, halike⟩).symm

/-- Its set is replaced. -/
theorem updateSnaps (hrec : spec oid = some r) (hsub : newSnaps ⊆ r.current) : Represents m
      (removeKeys (store.insert (m.toObjectKey oid) (.objectSnaps oid newSnaps))
        (m.rawKeys oid (r.current \ newSnaps)))
      (Function.update spec oid (some { r with current := newSnaps })) := by
  have hcur := h.subset oid r hrec
  refine h.remove hpg (fun r' hr => ?_) hrec (fun key hne => lookup_insert_of_ne _ hne)
    (lookup_insert _) (fun s hs => ?_) fun s hs => ?_
  · cases hr
    exact hsub.trans hcur
  · exact entry_of_gone hcur hs
  · exact entry_of_kept hsub hs

end

end Represents

/-- **A call stores what it is to store**, if the object has no empty set. -/
theorem SnapCall.exists_run (h : Represents m store spec) (hpg : m.InPg call.oid)
    (hfits : call.Fits spec) (hset : ∀ r ∈ spec call.oid, r.current ≠ ∅) :
    ∃ store', call.run m store = some store' ∧ Represents m store' (call.apply spec) := by
  have hremove : ∀ oid, m.InPg oid → (∀ r ∈ spec oid, r.current ≠ ∅) →
      ∃ store', (m.removeOid store oid).map (·.1) = some store' ∧
        Represents m store' (update spec oid none) := by
    intro oid hpg hset
    rw [h.removeOid_eq hpg]
    cases hrec : spec oid with
    | none =>
      refine ⟨store, rfl, ?_⟩
      rwa [← hrec, update_eq_self]
    | some r =>
      refine ⟨_, ?_, h.removeOid hpg hrec⟩
      dsimp only
      rw [if_neg (hset r hrec)]
      rfl
  cases call with
  | addOid oid snaps => exact h.addOid hpg hfits
  | updateSnaps oid newSnaps oldSnapsCheck =>
    change m.InPg oid at hpg
    unfold SnapCall.run SnapCall.apply
    dsimp only
    by_cases hnew : newSnaps = ∅
    · have hnone : ((spec oid).bind fun r =>
          if newSnaps = ∅ then none else some { r with current := newSnaps }) = none := by
        cases spec oid <;> simp [hnew]
      unfold SnapMapper.updateSnaps
      rw [hnone, assert_bind hpg.check, if_pos hnew]
      exact hremove oid hpg hset
    · rw [h.updateSnaps_eq hpg hnew fun r hr => (hfits r hr).2 hnew]
      cases hrec : spec oid with
      | none =>
        refine ⟨store, rfl, ?_⟩
        rwa [bind_none, ← hrec, update_eq_self]
      | some r =>
        rw [bind_some, if_neg hnew]
        refine ⟨_, ?_, h.updateSnaps hpg hrec (hfits r hrec).1⟩
        dsimp only
        rw [if_neg (hset r hrec)]
        rfl
  | removeOid oid => exact hremove oid hpg hset

/-- An object that was added with the empty set cannot be touched again. -/
theorem SnapCall.run_eq_none (h : Represents m store spec) (hpg : m.InPg call.oid)
    (hrec : spec call.oid = some r) (hempty : r.current = ∅) : call.run m store = none := by
  have hget : m.getSnaps store call.oid = none := by
    rw [h.getSnaps_eq hpg, hrec]
    exact if_pos hempty
  have hremove : m.removeOid store call.oid = none := by
    unfold SnapMapper.removeOid
    rw [assert_bind hpg.check, hget]
    rfl
  cases call with
  | addOid oid snaps =>
    dsimp only [SnapCall.oid] at hpg hget
    change m.addOid store oid snaps = none
    unfold SnapMapper.addOid
    rw [assert_bind hpg.check, hget]
    rfl
  | updateSnaps oid newSnaps oldSnapsCheck =>
    dsimp only [SnapCall.oid] at hpg hget hremove
    change (m.updateSnaps store oid newSnaps oldSnapsCheck).map _ = none
    unfold SnapMapper.updateSnaps
    rw [assert_bind hpg.check]
    split
    · rw [hremove]
      rfl
    · rw [hget]
      rfl
  | removeOid oid =>
    dsimp only [SnapCall.oid] at hremove
    change (m.removeOid store oid).map _ = none
    rw [hremove]
    rfl

end Calls

end Ceph.Osd
