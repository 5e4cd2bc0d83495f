import Ceph.Osd.ECTransaction

/-!
# Undoing changes on a shard

What the undo records of a log entry need in order to restore an object, in terms
of the store alone.  Before a range of the object is overwritten it is copied to
the stash, an object of the generation of the log entry, and before an attribute is
changed its old value is noted.  `Saved` and `AttrsSaved` say that enough was kept;
they are preserved by the writes of a transaction, and the undo operations lead
from them back to the old object.
-/

namespace Ceph.Osd

open Store List Option

/-! ## Objects that are left alone -/

/-- The operation does not change the object `o`. -/
def StoreOp.Spares (o : Goid) : StoreOp → Prop
  | .touch oid => o ≠ oid
  | .write oid .. => o ≠ oid
  | .truncate oid _ => o ≠ oid
  | .remove oid => o ≠ oid
  | .setattr oid .. => o ≠ oid
  | .setattrs oid _ => o ≠ oid
  | .rmattr oid _ => o ≠ oid
  | .clone _ noid => o ≠ noid
  | .cloneRange _ noid .. => o ≠ noid
  | .collectionMoveRename oldoid oid => o ≠ oldoid ∧ o ≠ oid
  | .tryRename oldoid oid => o ≠ oldoid ∧ o ≠ oid
  | .setAllocHint .. => True
  | .setObjectSnapMapping .. => True
  | .clearObjectSnapMapping _ => True

theorem Store.move_of_ne (store : Store) {o oldoid oid : Goid} (h : o ≠ oldoid ∧ o ≠ oid) :
    store.move oldoid oid o = store o := by
  rw [move]
  cases store oldoid with
  | none => rfl
  | some obj => simp only [set_of_ne _ h.2, set_of_ne _ h.1]

theorem Store.apply_of_spares (store : Store) {o : Goid} {op : StoreOp} (h : op.Spares o) :
    store.apply op o = store o := by
  cases op with
  | touch oid => exact set_of_ne _ h _
  | write oid off len bl flags => exact set_of_ne _ h _
  | truncate oid size => exact modify_of_ne _ h _
  | remove oid => exact set_of_ne _ h _
  | setattr oid name val => exact modify_of_ne _ h _
  | setattrs oid attrs => exact modify_of_ne _ h _
  | rmattr oid name => exact modify_of_ne _ h _
  | clone oid noid =>
    rw [apply]
    cases store oid with
    | none => rfl
    | some obj => exact set_of_ne _ h _
  | cloneRange oid noid srcoff srclen dstoff =>
    rw [apply]
    cases store oid with
    | none => rfl
    | some obj => exact set_of_ne _ h _
  | collectionMoveRename oldoid oid => exact store.move_of_ne h
  | tryRename oldoid oid => exact store.move_of_ne h
  | setAllocHint oid a b flags => rfl
  | setObjectSnapMapping oid snaps => rfl
  | clearObjectSnapMapping oid => rfl

theorem Store.applyAll_of_spares (store : Store) {o : Goid} {ops : List StoreOp}
    (h : ∀ op ∈ ops, op.Spares o) : store.applyAll ops o = store o := by
  induction ops generalizing store with
  | nil => rfl
  | cons op ops ih =>
    rw [applyAll_cons, ih _ fun op' hop' => h op' (mem_cons_of_mem _ hop'),
      store.apply_of_spares (h op mem_cons_self)]

/-! ## Data -/

/-- `x` lies in one of the extents `(off, len)`. -/
def InExtents (extents : List (ℕ × ℕ)) (x : ℕ) : Prop :=
  ∃ ext ∈ extents, ext.1 ≤ x ∧ x < ext.1 + ext.2

variable {off : ℕ} {len : ℕ}

theorem inExtents_concat {extents : List (ℕ × ℕ)} {x : ℕ} :
    InExtents (extents ++ [(off, len)]) x ↔ InExtents extents x ∨ (off ≤ x ∧ x < off + len) := by
  simp only [InExtents, mem_append, mem_singleton]
  constructor
  · rintro ⟨ext, h | rfl, hx⟩
    · exact .inl ⟨ext, h, hx⟩
    · exact .inr hx
  · rintro (⟨ext, h, hx⟩ | hx)
    · exact ⟨ext, .inl h, hx⟩
    · exact ⟨_, .inr rfl, hx⟩

theorem buffer_ext {a b : Buffer} (hlen : a.length = b.length)
    (h : ∀ x, a.getD x 0 = b.getD x 0) : a = b := by
  refine ext_getElem hlen fun i h1 h2 => ?_
  have := h i
  rwa [getD_eq_getElem _ _ h1, getD_eq_getElem _ _ h2] at this

/-- The bytes copied by `clone_range`. -/
theorem getD_slice (bl : Buffer) {x : ℕ} (h : off ≤ x) (h' : x < off + len) :
    ((bl.drop off).take len).getD (x - off) 0 = bl.getD x 0 := by
  rw [getD_eq_getElem?_getD, List.getElem?_take_of_lt (by omega), List.getElem?_drop,
    Nat.add_sub_cancel' h, ← getD_eq_getElem?_getD]

theorem length_slice {bl : Buffer} (h : off + len ≤ bl.length) :
    ((bl.drop off).take len).length = len := by
  rw [length_take, length_drop]
  omega

section Saved

variable {oid stash : Goid} {old cur : Buffer} {xattrs : String → Option Buffer} {after : ℕ}
  {extents : List (ℕ × ℕ)} {store : Store}

/-- The object holds `cur`.  Below `after` it differs from `old` only in the extents,
whose old bytes are in the stash. -/
structure Saved (oid stash : Goid) (old : Buffer) (xattrs : String → Option Buffer) (after : ℕ)
    (extents : List (ℕ × ℕ)) (cur : Buffer) (store : Store) : Prop where
  object : store oid = some ⟨cur, xattrs⟩
  length : after ≤ cur.length
  kept : ∀ x < after, ¬ InExtents extents x → cur.getD x 0 = old.getD x 0
  unused : extents = [] → store stash = none
  stashed : extents ≠ [] → ∃ saved, store stash = some saved ∧
    ∀ x, InExtents extents x → x < saved.data.length ∧ saved.data.getD x 0 = old.getD x 0
  within : ∀ ext ∈ extents, 0 < ext.2 ∧ ext.1 + ext.2 ≤ old.length

namespace Saved

/-- An operation on the object alone, after which the bytes that were not saved are still there. -/
theorem change (h : Saved oid stash old xattrs after extents cur store) (op : StoreOp)
    (hspares : op.Spares stash) {cur' : Buffer} {xattrs' : String → Option Buffer}
    (hobj : store.apply op oid = some ⟨cur', xattrs'⟩) (hlen : after ≤ cur'.length)
    (hkept : ∀ x < after, ¬ InExtents extents x → cur'.getD x 0 = cur.getD x 0) :
    Saved oid stash old xattrs' after extents cur' (store.apply op) := by
  have hstash := store.apply_of_spares hspares
  refine ⟨hobj, hlen, fun x hx hno => (hkept x hx hno).trans (h.kept x hx hno), fun hnil => ?_,
    fun hne => ?_, h.within⟩
  · rw [hstash, h.unused hnil]
  · rw [hstash]
    exact h.stashed hne

section

variable (hne : stash ≠ oid) (h : Saved oid stash old xattrs after extents cur store)

include hne h

/-- A write to ranges that were saved or lie behind `after`. -/
theorem write (bl : Buffer) (hin : ∀ x < after, off ≤ x → x < off + bl.length → InExtents extents x)
    (len : ℕ) (flags : UInt32) :
    Saved oid stash old xattrs after extents (overwrite cur off bl)
      (store.apply (.write oid off len bl flags)) := by
  refine h.change (.write oid off len bl flags) hne ?_ ?_ fun x hx hno => ?_
  · rw [apply, h.object]
    exact set_self _ _ _
  · rw [length_overwrite]
    exact h.length.trans (le_max_left _ _)
  · rw [getD_overwrite, if_neg fun hc => hno (hin x hx hc.1 hc.2)]

/-- Copying a range to the stash before it is changed. -/
theorem save (off : ℕ) (hpos : 0 < len) (hlen : off + len ≤ cur.length)
    (hold : off + len ≤ old.length)
    (hsame : ∀ x, off ≤ x → x < off + len → cur.getD x 0 = old.getD x 0) :
    Saved oid stash old xattrs after (extents ++ [(off, len)]) cur
      ((store.applyAll (if extents.isEmpty then [.touch stash] else [])).apply
        (.cloneRange oid stash off len off)) := by
  -- the stash exists, and the object is as before
  obtain ⟨saved, hsaved, hbytes⟩ : ∃ saved,
      store.applyAll (if extents.isEmpty then [.touch stash] else []) stash = some saved ∧
        ∀ x, InExtents extents x → x < saved.data.length ∧ saved.data.getD x 0 = old.getD x 0 := by
    cases extents with
    | nil =>
      refine ⟨{}, ?_, fun x hx => ?_⟩
      · show store.apply (.touch stash) stash = _
        rw [apply, h.unused rfl]
        exact set_self _ _ _
      · obtain ⟨ext, hext, -⟩ := hx
        cases hext
    | cons ext extents => exact h.stashed (List.cons_ne_nil _ _)
  have hobj : store.applyAll (if extents.isEmpty then [.touch stash] else []) oid =
      some ⟨cur, xattrs⟩ := by
    rw [store.applyAll_of_spares, h.object]
    intro op hop
    split at hop
    · rw [mem_singleton.1 hop]
      exact hne.symm
    · cases hop
  have hslice : ((cur.drop off).take len).length = len := length_slice hlen
  have hclone : ∀ store' : Store, store' oid = some ⟨cur, xattrs⟩ → store' stash = some saved →
      store'.apply (.cloneRange oid stash off len off) stash =
        some { saved with data := overwrite saved.data off ((cur.drop off).take len) } := by
    intro store' h1 h2
    rw [apply, h1, h2]
    exact set_self _ _ _
  refine ⟨?_, h.length, fun x hx hno => ?_, fun hnil => ?_,
    fun _ => ⟨_, hclone _ hobj hsaved, ?_⟩, ?_⟩
  · rw [Store.apply_of_spares _ (show StoreOp.Spares oid (.cloneRange oid stash off len off) from
      hne.symm), hobj]
  · exact h.kept x hx fun hin => hno (inExtents_concat.2 (.inl hin))
  · exact absurd hnil (by simp)
  · intro x hx
    simp only [length_overwrite, getD_overwrite, hslice]
    by_cases hin : off ≤ x ∧ x < off + len
    · rw [if_pos hin, getD_slice cur hin.1 hin.2]
      exact ⟨by omega, hsame x hin.1 hin.2⟩
    · rw [if_neg hin]
      obtain ⟨h1, h2⟩ := hbytes x ((inExtents_concat.1 hx).resolve_right hin)
      exact ⟨by omega, h2⟩
  · intro ext hext
    rcases mem_append.1 hext with hext | hext
    · exact h.within ext hext
    · rw [mem_singleton.1 hext]
      exact ⟨hpos, hold⟩

/-- Changing an attribute of the object. -/
theorem setattr (name : String) (val : Buffer) :
    Saved oid stash old (setXattrs xattrs [(name, val)]) after extents cur
      (store.apply (.setattr oid name val)) := by
  refine h.change (.setattr oid name val) hne ?_ h.length fun _ _ _ => rfl
  rw [apply, modify_self, h.object]
  rfl

/-- Truncating the object above `after`. -/
theorem truncate {size : ℕ} (hsize : after ≤ size) :
    Saved oid stash old xattrs after extents (resize cur size)
      (store.apply (.truncate oid size)) := by
  refine h.change (.truncate oid size) hne ?_ ?_ fun x hx _ => ?_
  · rw [apply, modify_self, h.object]
    rfl
  · rwa [length_resize]
  · rw [getD_resize, if_pos (by omega)]

end

end Saved

/-- Copying extents back from the stash. -/
theorem restore_extents (hne : stash ≠ oid) {saved : StoredObject} (extents : List (ℕ × ℕ))
    {cur : Buffer} {store : Store} (hobj : store oid = some ⟨cur, xattrs⟩)
    (hstash : store stash = some saved)
    (hlen : ∀ ext ∈ extents, 0 < ext.2 ∧ ext.1 + ext.2 ≤ saved.data.length) :
    ∃ new, store.applyAll (extents.map fun ext => .cloneRange stash oid ext.1 ext.2 ext.1) oid =
        some ⟨new, xattrs⟩ ∧
      (∀ x, (InExtents extents x → new.getD x 0 = saved.data.getD x 0 ∧ x < new.length) ∧
        (¬ InExtents extents x → new.getD x 0 = cur.getD x 0)) ∧ cur.length ≤ new.length ∧
      ∀ n, cur.length ≤ n → (∀ ext ∈ extents, ext.1 + ext.2 ≤ n) → new.length ≤ n := by
  induction extents generalizing cur store with
  | nil =>
    refine ⟨cur, hobj, fun x => ⟨fun hx => ?_, fun _ => rfl⟩, le_rfl, fun n hn _ => hn⟩
    obtain ⟨ext, hext, -⟩ := hx
    cases hext
  | cons ext extents ih =>
    obtain ⟨off, len⟩ := ext
    obtain ⟨-, hfit⟩ := hlen (off, len) mem_cons_self
    have hslice : ((saved.data.drop off).take len).length = len := length_slice hfit
    have hobj' : store.apply (.cloneRange stash oid off len off) oid =
        some ⟨overwrite cur off ((saved.data.drop off).take len), xattrs⟩ := by
      rw [apply, hstash, hobj]
      exact set_self _ _ _
    have hstash' : store.apply (.cloneRange stash oid off len off) stash = some saved := by
      rw [store.apply_of_spares (show StoreOp.Spares stash (.cloneRange stash oid off len off) from
        hne), hstash]
    obtain ⟨new, hnew, hbytes, hge, hle⟩ := ih hobj' hstash' fun ext hext =>
      hlen ext (mem_cons_of_mem _ hext)
    rw [length_overwrite, hslice] at hge hle
    refine ⟨new, hnew, fun x => ⟨?_, fun hno => ?_⟩, (le_max_left _ _).trans hge,
      fun n hn hall => ?_⟩
    · rintro ⟨ext, hext, hx⟩
      by_cases hin : InExtents extents x
      · exact (hbytes x).1 hin
      · rcases mem_cons.1 hext with rfl | hext
        · rw [(hbytes x).2 hin, getD_overwrite, hslice, if_pos hx, getD_slice _ hx.1 hx.2]
          exact ⟨rfl, by omega⟩
        · exact absurd ⟨ext, hext, hx⟩ hin
    · have hno' : ¬ InExtents extents x := fun ⟨ext, hext, hx⟩ =>
        hno ⟨ext, mem_cons_of_mem _ hext, hx⟩
      rw [(hbytes x).2 hno', getD_overwrite, hslice,
        if_neg fun hx => hno ⟨(off, len), mem_cons_self .., hx⟩]
    · exact hle n (max_le hn (hall (off, len) mem_cons_self)) fun ext hext =>
        hall ext (mem_cons_of_mem _ hext)

/-- **The old data comes back**, once what was appended is cut off and the extents
are copied back. -/
theorem Saved.undo {hoid : Soid} {gen : ℕ} {appended : Bool}
    (h : Saved ⟨hoid, none⟩ ⟨hoid, some gen⟩ old xattrs after extents cur store)
    (happ : appended = false → cur.length ≤ old.length) (hle : after ≤ old.length)
    (hcover : ∀ x, after ≤ x → x < old.length → InExtents extents x) :
    ∃ store', store.applyAll ((if appended then [.truncate ⟨hoid, none⟩ after] else []) ++
        (if extents.isEmpty then [] else rollbackExtents gen extents hoid)) = store' ∧
      store' ⟨hoid, none⟩ = some ⟨old, xattrs⟩ ∧ store' ⟨hoid, some gen⟩ = none := by
  have hne : (⟨hoid, some gen⟩ : Goid) ≠ ⟨hoid, none⟩ := by simp
  refine ⟨_, rfl, ?_⟩
  rw [applyAll_append]
  -- what was appended is gone
  obtain ⟨cur₁, store₁, hstore₁, h₁, hlen₁⟩ : ∃ cur₁ store₁,
      store.applyAll (if appended then [.truncate ⟨hoid, none⟩ after] else []) = store₁ ∧
        Saved ⟨hoid, none⟩ ⟨hoid, some gen⟩ old xattrs after extents cur₁ store₁ ∧
        cur₁.length ≤ old.length := by
    cases appended with
    | true => exact ⟨_, _, rfl, h.truncate hne le_rfl, by rw [length_resize]; exact hle⟩
    | false => exact ⟨cur, store, rfl, h, happ rfl⟩
  rw [hstore₁]
  cases hext : extents with
  | nil =>
    rw [hext] at h₁ hcover
    have hafter : after = old.length := by
      by_contra hne'
      obtain ⟨ext, hmem, -⟩ := hcover after le_rfl (by omega)
      cases hmem
    have hcur : cur₁ = old := by
      refine buffer_ext (by have := h₁.length; omega) fun x => ?_
      by_cases hx : x < after
      · exact h₁.kept x hx (by simp [InExtents])
      · rw [getD_eq_default _ _ (by omega), getD_eq_default _ _ (by omega)]
    exact ⟨hcur ▸ h₁.object, h₁.unused rfl⟩
  | cons ext extents' =>
    rw [← hext]
    have hnil : extents ≠ [] := hext ▸ List.cons_ne_nil _ _
    rw [if_neg (by rwa [List.isEmpty_iff]), rollbackExtents, applyAll_append]
    obtain ⟨saved, hsaved, hbytes⟩ := h₁.stashed hnil
    obtain ⟨new, hnew, hbytes', hge, hle'⟩ := restore_extents hne extents h₁.object hsaved
      fun ext hmem => by
        obtain ⟨hpos, -⟩ := h₁.within ext hmem
        have := (hbytes (ext.1 + ext.2 - 1) ⟨ext, hmem, by omega, by omega⟩).1
        exact ⟨hpos, by omega⟩
    have hlen : new.length = old.length := by
      refine le_antisymm (hle' _ hlen₁ fun ext hmem => (h₁.within ext hmem).2) ?_
      rcases hle.eq_or_lt with heq | hlt
      · have := h₁.length
        omega
      · have := ((hbytes' (old.length - 1)).1 (hcover _ (by omega) (by omega))).2
        omega
    have hnew' : new = old := by
      refine buffer_ext hlen fun x => ?_
      by_cases hin : InExtents extents x
      · rw [((hbytes' x).1 hin).1, (hbytes x hin).2]
      · rw [(hbytes' x).2 hin]
        by_cases hx : x < after
        · exact h₁.kept x hx hin
        · have hout : old.length ≤ x := by
            by_contra hlt
            exact hin (hcover x (by omega) (by omega))
          rw [getD_eq_default _ _ (by omega), getD_eq_default _ _ hout]
    constructor
    · show Store.apply _ (.remove ⟨hoid, some gen⟩) ⟨hoid, none⟩ = _
      rw [Store.apply_of_spares _ (show StoreOp.Spares ⟨hoid, none⟩ (.remove ⟨hoid, some gen⟩) from
        hne.symm), hnew, hnew']
    · exact set_self _ _ _

end Saved

/-! ## Attributes -/

/-- The attributes `cur` differ from `old` only where the old value was noted. -/
structure AttrsSaved (old : String → Option Buffer) (noted : OldAttrs)
    (cur : String → Option Buffer) : Prop where
  noted_eq : ∀ attr ∈ noted, attr.2 = old attr.1
  kept : ∀ name, name ∉ noted.map (·.1) → cur name = old name

namespace AttrsSaved

variable {old cur : String → Option Buffer} {noted : OldAttrs}

theorem set (h : AttrsSaved old noted cur) {attrs : List (String × Buffer)}
    (hattrs : ∀ attr ∈ attrs, attr.1 ∈ noted.map (·.1)) :
    AttrsSaved old noted (setXattrs cur attrs) := by
  refine ⟨h.noted_eq, fun name hname => ?_⟩
  have hnone : attrs.lookup name = none := by
    rw [lookup_eq_none_iff]
    intro attr hattr
    rw [bne_iff_ne]
    rintro rfl
    exact hname (hattrs attr hattr)
  rw [setXattrs, hnone, none_or, h.kept name hname]

theorem remove (h : AttrsSaved old noted cur) {name : String} (hname : name ∈ noted.map (·.1)) :
    AttrsSaved old noted fun n => if n = name then none else cur n := by
  refine ⟨h.noted_eq, fun n hn => ?_⟩
  have hne : n ≠ name := fun heq => hn (heq ▸ hname)
  rw [if_neg hne, h.kept n hn]

/-- Noting the value of an attribute. -/
theorem note (h : AttrsSaved old noted cur) {name : String} {val : Option Buffer}
    (hval : name ∉ noted.map (·.1) → val = old name) :
    AttrsSaved old (noted.insertNew [(name, val)]) cur := by
  by_cases hmem : name ∈ noted.map (·.1)
  · have hsame : noted.insertNew [(name, val)] = noted := by
      simp only [OldAttrs.insertNew, filter_cons, hmem, not_true_eq_false, decide_false,
        Bool.false_eq_true, if_false, filter_nil, append_nil]
    rwa [hsame]
  have hnew : noted.insertNew [(name, val)] = noted ++ [(name, val)] := by
    simp only [OldAttrs.insertNew, filter_cons, hmem, not_false_eq_true, decide_true, if_true,
      filter_nil]
  rw [hnew]
  refine ⟨fun attr hattr => ?_, fun n hn => h.kept n fun hin => hn ?_⟩
  · rcases mem_append.1 hattr with hattr | hattr
    · exact h.noted_eq attr hattr
    · rw [mem_singleton.1 hattr]
      exact hval hmem
  · rw [map_append]
    exact mem_append_left _ hin

theorem mem_insertNew (noted : OldAttrs) (name : String) (val : Option Buffer) :
    name ∈ (noted.insertNew [(name, val)]).map (·.1) := by
  by_cases hmem : name ∈ noted.map (·.1)
  · rw [OldAttrs.insertNew, map_append]
    exact mem_append_left _ hmem
  · simp [OldAttrs.insertNew, hmem]

end AttrsSaved

/-- Removing attributes one after the other. -/
theorem applyAll_rmattr (oid : Goid) (names : List String) {store : Store} {data : Buffer}
    {xattrs : String → Option Buffer} (hobj : store oid = some ⟨data, xattrs⟩) :
    store.applyAll (names.map fun name => .rmattr oid name) oid =
      some ⟨data, fun n => if n ∈ names then none else xattrs n⟩ := by
  induction names generalizing store xattrs with
  | nil => simpa using hobj
  | cons name names ih =>
    have hstep : store.apply (.rmattr oid name) oid =
        some ⟨data, fun n => if n = name then none else xattrs n⟩ := by
      rw [apply, modify_self, hobj]
      rfl
    rw [map_cons, applyAll_cons, ih hstep]
    congr 2
    funext n
    by_cases h1 : n ∈ names
    · simp [h1]
    · by_cases h2 : n = name <;> simp [h1, h2]

/-- **The old attributes come back.** -/
theorem AttrsSaved.undo {old cur : String → Option Buffer} {noted : OldAttrs}
    (h : AttrsSaved old noted cur) {hoid : Soid} (htemp : hoid.isTemp = false) {store : Store}
    {data : Buffer} (hobj : store ⟨hoid, none⟩ = some ⟨data, cur⟩) :
    ∃ ops, rollbackSetattrs hoid noted = some ops ∧
      store.applyAll ops ⟨hoid, none⟩ = some ⟨data, old⟩ ∧
      ∀ gen, store.applyAll ops ⟨hoid, some gen⟩ = store ⟨hoid, some gen⟩ := by
  refine ⟨_, assert_bind (by simp [htemp]) _, ?_, fun gen => ?_⟩
  · have hrm : (noted.filter (·.2.isNone)).map (fun attr => StoreOp.rmattr ⟨hoid, none⟩ attr.1) =
        ((noted.filter (·.2.isNone)).map (·.1)).map fun name => .rmattr ⟨hoid, none⟩ name := by
      rw [List.map_map]
      rfl
    rw [applyAll_append, hrm]
    show Store.apply _ (.setattrs ⟨hoid, none⟩ _) ⟨hoid, none⟩ = _
    rw [apply, modify_self, applyAll_rmattr _ _ hobj]
    refine congrArg some (StoredObject.ext rfl (funext fun name => ?_))
    simp only [setXattrs]
    cases hlook : (noted.filterMap fun attr => attr.2.map fun val => (attr.1, val)).lookup name with
    | some val =>
      obtain ⟨l₁, l₂, hl, -⟩ := lookup_eq_some_iff.1 hlook
      have hmem : (name, val) ∈
          noted.filterMap fun attr => attr.2.map fun val => (attr.1, val) := by
        rw [hl]
        simp
      obtain ⟨⟨name', val'⟩, hattr, hval⟩ := mem_filterMap.1 hmem
      obtain ⟨v, hv, heq⟩ := of_map hval
      cases heq
      rw [← h.noted_eq _ hattr]
      exact hv.symm
    | none =>
      have hno : ∀ val, (name, some val) ∉ noted := by
        intro val hmem
        rw [lookup_eq_none_iff] at hlook
        have := hlook (name, val) (mem_filterMap.2 ⟨_, hmem, rfl⟩)
        simp at this
      rw [none_or]
      by_cases hnone : (name, none) ∈ noted
      · rw [if_pos (List.mem_map.2 ⟨_, List.mem_filter.2 ⟨hnone, rfl⟩, rfl⟩)]
        exact h.noted_eq _ hnone
      have hkeys : name ∉ noted.map (·.1) := by
        rintro hin
        obtain ⟨⟨name', val⟩, hmem, rfl⟩ := List.mem_map.1 hin
        cases val with
        | none => exact hnone hmem
        | some val => exact hno val hmem
      rw [if_neg fun hin => hkeys ?_, h.kept name hkeys]
      obtain ⟨attr, hattr, rfl⟩ := List.mem_map.1 hin
      exact mem_map_of_mem (mem_of_mem_filter hattr)
  · refine store.applyAll_of_spares fun op hop => ?_
    rcases mem_append.1 hop with hop | hop
    · obtain ⟨attr, -, rfl⟩ := List.mem_map.1 hop
      exact fun heq => some_ne_none gen (congrArg Goid.generation heq)
    · rw [mem_singleton.1 hop]
      exact fun heq => some_ne_none gen (congrArg Goid.generation heq)

end Ceph.Osd
