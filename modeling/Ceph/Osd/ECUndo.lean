import Ceph.Osd.ECMeta
import Ceph.Osd.ShardUndo

/-!
# Undo records of an erasure coded write

`generate_transactions` fills in the undo records of the log entry; when the entry
turns out to be divergent, `PGBackend::rollback` visits them and undoes them in
reverse order.

An object that is removed or created by the operation is covered by one record.
After it nothing more is recorded, and the generator leaves the stash alone
(`generateData_closed`), so that undoing this record restores the object
(`rollback_deleted`, `rollback_created`).
-/

namespace Ceph.Osd

open IntervalMap StripeInfo Store List Option Gen ObjectModDesc

/-! ## Undoing the records -/

/-- The operations that undo `records`, those of later records first. -/
def undoAll (sinfo : StripeInfo) (hoid : Soid) (records : List ModOp) : Option (List StoreOp) :=
  records.foldlM (fun t op => (undo sinfo hoid op).map (· ++ t)) []

variable {sinfo : StripeInfo} {e : PgLogEntry Soid}

theorem rollback_eq (h : e.modDesc.canLocalRollback = true) :
    rollback sinfo e = undoAll sinfo e.soid e.modDesc.bl :=
  assert_bind h _

variable {records : List ModOp}

theorem undoAll_concat {hoid : Soid} {ops ops' : List StoreOp} {op : ModOp}
    (h : undoAll sinfo hoid records = some ops) (h' : undo sinfo hoid op = some ops') :
    undoAll sinfo hoid (records ++ [op]) = some (ops' ++ ops) := by
  rw [undoAll] at h ⊢
  rw [foldlM_append, h, bind_eq_bind, bind_some, foldlM_cons, h']
  rfl

/-- Records that ask for nothing in the store. -/
def Harmless (sinfo : StripeInfo) (hoid : Soid) (records : List ModOp) : Prop :=
  ∃ ops, undoAll sinfo hoid records = some ops ∧ ∀ store : Store, store.applyAll ops = store

/-- The log entry is `e` but for its snapshots and its undo records. -/
structure SameEntry (e e' : PgLogEntry Soid) : Prop where
  soid : e'.soid = e.soid
  version : e'.version = e.version

/-- The records of the entry can be added to. -/
structure PgLogEntry.Open (e : PgLogEntry Soid) : Prop where
  canLocalRollback : e.modDesc.canLocalRollback = true
  notCompleted : e.modDesc.rollbackInfoCompleted = false

/-- One record of the entry undoes everything. -/
structure PgLogEntry.Closed (e : PgLogEntry Soid) : Prop where
  canLocalRollback : e.modDesc.canLocalRollback = true
  completed : e.modDesc.rollbackInfoCompleted = true

theorem ObjectModDesc.record_of_closed (h : e.Closed) (op : ModOp) :
    e.modDesc.record op = e.modDesc := by
  rw [record, h.completed, Bool.or_true]
  rfl

theorem ObjectModDesc.recordLast_of_closed (h : e.Closed) (op : ModOp) :
    e.modDesc.recordLast op = e.modDesc := by
  rw [recordLast, h.completed, Bool.or_true]
  rfl

theorem ObjectModDesc.record_of_open (h : e.Open) (op : ModOp) :
    e.modDesc.record op = { e.modDesc with bl := e.modDesc.bl ++ [op] } := by
  exact if_neg (by simp [h.canLocalRollback, h.notCompleted])

theorem ObjectModDesc.recordLast_of_open (h : e.Open) (op : ModOp) : e.modDesc.recordLast op =
      { e.modDesc with bl := e.modDesc.bl ++ [op], rollbackInfoCompleted := true } := by
  exact if_neg (by simp [h.canLocalRollback, h.notCompleted])

theorem PgLogEntry.Open.close (h : e.Open) (op : ModOp) : ∃ e' : PgLogEntry Soid,
    e' = { e with modDesc := e.modDesc.recordLast op } ∧ e'.Closed ∧
      e'.modDesc.bl = e.modDesc.bl ++ [op] := by
  refine ⟨_, rfl, ?_⟩
  rw [recordLast_of_open h]
  exact ⟨⟨h.canLocalRollback, rfl⟩, rfl⟩

/-- The snapshots are noted first. -/
theorem noteSnaps_spec (sinfo : StripeInfo) {g : Gen} (hentry : g.entry = some e)
    (hmod : e.modDesc = {}) :
    ∃ e', noteSnaps g = { g with entry := some e' } ∧ SameEntry e e' ∧ e'.Open ∧
      Harmless sinfo e.soid e'.modDesc.bl := by
  rw [noteSnaps, hentry]
  cases g.op.updatedSnaps with
  | none =>
    have hsame : g = { g with entry := some e } := by rw [← hentry]
    exact ⟨e, hsame, ⟨rfl, rfl⟩, ⟨by rw [hmod], by rw [hmod]⟩, [], by rw [hmod]; rfl, fun _ => rfl⟩
  | some snaps =>
    refine ⟨_, rfl, ⟨rfl, rfl⟩, ⟨by rw [hmod]; rfl, by rw [hmod]; rfl⟩,
      [.setObjectSnapMapping e.soid snaps.1], by rw [hmod]; rfl, fun _ => rfl⟩

/-! ## Leaving the stash alone -/

/-- `g'` goes on from `g` on shard `s`: the operation and the log entry stay, and the
object `stash` is left alone. -/
structure Gen.Spares (s : ℕ) (stash : Goid) (g g' : Gen) : Prop where
  op : g'.op = g.op
  entry : g'.entry = g.entry
  rollbackExtents : g'.rollbackExtents = g.rollbackExtents
  adds : ∃ ops, g'.transactions s = g.transactions s ++ ops ∧ ∀ op ∈ ops, op.Spares stash

namespace Gen.Spares

variable {s : ℕ} {stash : Goid} {g g' g'' : Gen}

theorem refl (s : ℕ) (stash : Goid) (g : Gen) : g.Spares s stash g :=
  ⟨rfl, rfl, rfl, [], (append_nil _).symm, by simp⟩

theorem trans (h : g.Spares s stash g') (h' : g'.Spares s stash g'') : g.Spares s stash g'' := by
  obtain ⟨ops, hops, hs⟩ := h.adds
  obtain ⟨ops', hops', hs'⟩ := h'.adds
  refine ⟨h'.op.trans h.op, h'.entry.trans h.entry, h'.rollbackExtents.trans h.rollbackExtents,
    ops ++ ops', by rw [hops', hops, append_assoc], fun op hop => ?_⟩
  rcases mem_append.1 hop with hop | hop
  · exact hs op hop
  · exact hs' op hop

theorem emit (g : Gen) {ops : ℕ → List StoreOp} (h : ∀ op ∈ ops s, op.Spares stash) :
    g.Spares s stash (g.emit ops) :=
  ⟨rfl, rfl, rfl, ops s, rfl, h⟩

theorem emit_one (g : Gen) {op : StoreOp} (h : op.Spares stash) :
    g.Spares s stash (g.emit fun _ => [op]) :=
  .emit g fun _ hop => mem_singleton.1 hop ▸ h

end Gen.Spares

theorem stash_ne (oid o : Soid) (v : ℕ) : (⟨oid, some v⟩ : Goid) ≠ ⟨o, none⟩ := by simp

section Stash

variable {env : GenEnv} {s v : ℕ}

theorem initObject_spares {g g' : Gen} (h : initObject env g = some g') :
    g.Spares s ⟨env.oid, some v⟩ g' ∧ (g.op.initType = .none → g' = g) := by
  rw [initObject] at h
  cases hinit : g.op.initType with
  | none =>
    rw [hinit] at h
    cases h
    exact ⟨Spares.refl _ _ g, fun _ => rfl⟩
  | create =>
    rw [hinit] at h
    cases h
    exact ⟨Spares.emit_one g (stash_ne _ _ _), fun h => by cases h⟩
  | clone source =>
    rw [hinit] at h
    refine ⟨?_, fun h => by cases h⟩
    obtain ⟨shinfo, -, h⟩ := of_bind h
    have hemit : g.Spares s ⟨env.oid, some v⟩
        (g.emit fun _ => [.clone ⟨source, none⟩ ⟨env.oid, none⟩]) :=
      Spares.emit_one g (stash_ne _ _ _)
    simp only [emit] at h hemit
    split at h
    · obtain ⟨sobc, -, h⟩ := of_bind h
      cases h
      exact ⟨rfl, rfl, rfl, hemit.adds⟩
    · cases h
      exact ⟨rfl, rfl, rfl, hemit.adds⟩
  | rename source =>
    rw [hinit] at h
    refine ⟨?_, fun h => by cases h⟩
    obtain ⟨-, h⟩ := of_assert h
    obtain ⟨shinfo, -, h⟩ := of_bind h
    have hemit : g.Spares s ⟨env.oid, some v⟩
        (g.emit fun _ => [.collectionMoveRename ⟨source, none⟩ ⟨env.oid, none⟩]) :=
      Spares.emit_one g ⟨stash_ne _ _ _, stash_ne _ _ _⟩
    simp only [emit] at h hemit
    split at h
    · obtain ⟨-, h⟩ := of_assert h
      cases h
      exact ⟨rfl, rfl, rfl, hemit.adds⟩
    · cases h
      exact ⟨rfl, rfl, rfl, hemit.adds⟩

/-- One attribute: its removal, if asked for, and the note of its old value. -/
theorem updateAttr_eq_some {g g' : Gen} {attr : String × Option Buffer}
    (h : updateAttr env g attr = some g') :
    g'.op = g.op ∧ g'.entry = g.entry ∧ g'.hinfo = g.hinfo ∧
      g'.rollbackExtents = g.rollbackExtents ∧ (∀ s, g'.transactions s = g.transactions s ++
        if attr.2.isSome then [] else [.rmattr ⟨env.oid, none⟩ attr.1]) ∧
      ∀ obc, g.obc = some obc → g.entry.isSome → g'.obc = some (obc.update attr.1 attr.2) ∧
        g'.xattrRollback = g.xattrRollback.insertNew [(attr.1, obc.attrCache.lookup attr.1)] := by
  obtain ⟨name, val⟩ := attr
  rw [updateAttr] at h
  cases val with
  | none =>
    simp only [emit] at h
    cases hobc : g.obc with
    | none =>
      rw [hobc] at h
      obtain ⟨-, h⟩ := of_assert h
      cases h
      exact ⟨rfl, rfl, rfl, rfl, fun _ => rfl, fun obc hc => by cases hc⟩
    | some obc =>
      rw [hobc] at h
      cases h
      refine ⟨rfl, rfl, rfl, rfl, fun _ => rfl, fun obc' hc he => ?_⟩
      rw [some_inj.1 hc]
      exact ⟨rfl, if_pos he⟩
  | some bl =>
    cases hobc : g.obc with
    | none =>
      rw [hobc] at h
      obtain ⟨-, h⟩ := of_assert h
      cases h
      exact ⟨rfl, rfl, rfl, rfl, fun _ => (append_nil _).symm, fun obc hc => by cases hc⟩
    | some obc =>
      rw [hobc] at h
      cases h
      refine ⟨rfl, rfl, rfl, rfl, fun _ => (append_nil _).symm, fun obc' hc he => ?_⟩
      rw [some_inj.1 hc]
      exact ⟨rfl, if_pos he⟩

/-- The loop over the attributes. -/
theorem updateAttrs_foldlM_spares {attrs : List (String × Option Buffer)} {g g' : Gen}
    (h : attrs.foldlM (updateAttr env) g = some g') :
    g.Spares s ⟨env.oid, some v⟩ g' ∧ g'.hinfo = g.hinfo := by
  induction attrs generalizing g with
  | nil =>
    rw [← some_inj.1 h]
    exact ⟨Spares.refl _ _ g, rfl⟩
  | cons attr attrs ih =>
    obtain ⟨g₁, hg₁, h⟩ := of_bind h
    obtain ⟨hop, hentry, hhinfo, hroll, htrans, -⟩ := updateAttr_eq_some hg₁
    obtain ⟨hrest, hhinfo'⟩ := ih h
    refine ⟨Spares.trans ⟨hop, hentry, hroll, _, htrans s, fun op hmem => ?_⟩ hrest,
      hhinfo'.trans hhinfo⟩
    split at hmem
    · cases hmem
    · rw [mem_singleton.1 hmem]
      exact stash_ne _ _ _

theorem updateAttrs_eq_some {g g' : Gen} (h : updateAttrs env g = some g') :
    ∃ g₁, g.op.attrUpdates.foldlM (updateAttr env) g = some g₁ ∧
      (g' = g₁ ∧ g.op.attrUpdates = [] ∨ g' = g₁.emit fun _ => [.setattrs ⟨env.oid, none⟩
        (g.op.attrUpdates.filterMap fun attr => attr.2.map fun val => (attr.1, val))]) := by
  rw [updateAttrs] at h
  split at h
  next hnil =>
    rw [List.isEmpty_iff] at hnil
    rw [← some_inj.1 h, hnil]
    exact ⟨g, rfl, .inl ⟨rfl, rfl⟩⟩
  · obtain ⟨g₁, hg₁, h⟩ := of_bind h
    obtain ⟨-, h⟩ := of_assert h
    exact ⟨g₁, hg₁, .inr (some_inj.1 h).symm⟩

theorem updateAttrs_spares {g g' : Gen} (h : updateAttrs env g = some g') :
    g.Spares s ⟨env.oid, some v⟩ g' ∧ g'.hinfo = g.hinfo := by
  obtain ⟨g₁, hg₁, ⟨rfl, -⟩ | rfl⟩ := updateAttrs_eq_some h
  · exact updateAttrs_foldlM_spares hg₁
  · obtain ⟨hsp, hhinfo⟩ := updateAttrs_foldlM_spares hg₁
    exact ⟨hsp.trans (Spares.emit_one g₁ (stash_ne _ _ _)), hhinfo⟩

theorem setAllocHint_spares (env : GenEnv) (g : Gen) :
    g.Spares s ⟨env.oid, some v⟩ (setAllocHint env g) ∧ (setAllocHint env g).hinfo = g.hinfo := by
  rw [setAllocHint]
  cases g.op.allocHint with
  | none => exact ⟨Spares.refl _ _ g, rfl⟩
  | some hint => exact ⟨Spares.emit_one g trivial, rfl⟩

variable {flags : UInt32}

theorem encodeAndWrite_spares {g g' : Gen} {offset : ℕ} {bl : Buffer}
    (h : encodeAndWrite env offset bl flags g = some g') : g.Spares s ⟨env.oid, some v⟩ g' := by
  obtain ⟨-, -, -, -, -, -, -, -, -, -, rfl⟩ := encodeAndWrite_eq_some.1 h
  refine ⟨rfl, rfl, rfl, _, rfl, fun op hmem => ?_⟩
  rcases mem_append.1 hmem with hmem | hmem
  · split at hmem
    · rw [mem_singleton.1 hmem]
      trivial
    · cases hmem
  · rw [mem_singleton.1 hmem]
    exact stash_ne _ _ _

theorem appendExtent_eq_some {g g' : Gen} {e : Extent Buffer}
    (h : appendExtent env flags g e = some g') :
    env.sinfo.LogicalOffsetIsStripeAligned e.off ∧
      encodeAndWrite env e.off e.val flags g = some g' := by
  obtain ⟨h1, h⟩ := of_assert h
  obtain ⟨-, h⟩ := of_assert h
  exact ⟨h1, h⟩

theorem appendExtents_spares {extents : ExtentMap} {g g' : Gen}
    (h : extents.foldlM (appendExtent env flags) g = some g') :
    g.Spares s ⟨env.oid, some v⟩ g' := by
  induction extents generalizing g with
  | nil =>
    rw [← some_inj.1 h]
    exact Spares.refl _ _ g
  | cons e extents ih =>
    obtain ⟨g₁, hg₁, h⟩ := of_bind h
    exact (encodeAndWrite_spares (appendExtent_eq_some hg₁).2).trans (ih h)

/-- The variables after an extent was saved. -/
def extentSaved (env : GenEnv) (e : PgLogEntry Soid) (x : Extent Buffer) (g : Gen) : Gen :=
  { g with
    entry := some e
    rollbackExtents := g.rollbackExtents ++
      [(env.sinfo.logicalToPrevChunkOffset x.off, env.sinfo.logicalToPrevChunkOffset x.len)] }.emit
    fun _ => (if g.rollbackExtents.isEmpty then
        [StoreOp.touch ⟨env.oid, some e.version.version⟩] else []) ++
      [StoreOp.cloneRange ⟨env.oid, none⟩ ⟨env.oid, some e.version.version⟩
        (env.sinfo.logicalToPrevChunkOffset x.off) (env.sinfo.logicalToPrevChunkOffset x.len)
        (env.sinfo.logicalToPrevChunkOffset x.off)]

/-- What is asserted of an extent to overwrite, what is saved and what is written. -/
theorem overwriteExtent_eq_some {g g' : Gen} {after : ℕ} {x : Extent Buffer}
    (hentry : g.entry = some e) (h : overwriteExtent env after flags g x = some g') :
    x.stop ≤ after ∧ env.sinfo.LogicalOffsetIsStripeAligned x.off ∧
      env.sinfo.LogicalOffsetIsStripeAligned x.len ∧
      encodeAndWrite env x.off x.val flags (extentSaved env e x g) = some g' := by
  obtain ⟨h1, h⟩ := of_assert h
  obtain ⟨h2, h⟩ := of_assert h
  obtain ⟨h3, h⟩ := of_assert h
  refine ⟨h1, h2, h3, ?_⟩
  rwa [saveExtent, hentry, alignedToChunk_of_aligned h2, alignedToChunk_of_aligned h3] at h

/-- Every extent that is overwritten is recorded. -/
theorem overwriteExtents_recorded {extents : ExtentMap} {g g' : Gen} {after : ℕ}
    (hentry : g.entry.isSome) (h : extents.foldlM (overwriteExtent env after flags) g = some g') :
    g'.entry = g.entry ∧ g'.rollbackExtents.length = g.rollbackExtents.length + extents.length := by
  induction extents generalizing g with
  | nil =>
    cases h
    exact ⟨rfl, rfl⟩
  | cons x extents ih =>
    obtain ⟨g₁, hg₁, h⟩ := of_bind h
    obtain ⟨e, he⟩ := isSome_iff_exists.1 hentry
    obtain ⟨-, -, -, hwrite⟩ := overwriteExtent_eq_some he hg₁
    have hsp := encodeAndWrite_spares (s := 0) (v := 0) hwrite
    have hentry₁ : g₁.entry = g.entry := hsp.entry.trans he.symm
    obtain ⟨h1, h2⟩ := ih (hentry₁ ▸ hentry) h
    refine ⟨h1.trans hentry₁, ?_⟩
    rw [h2, hsp.rollbackExtents]
    simp only [extentSaved, emit, length_append, length_cons, length_nil]
    omega

theorem writeOut_eq_some {g g' : Gen} {a : Assembly} : writeOut env g a = some g' ↔
      ∃ toOverwrite, intersect blSplitMerge 0 a.appendAfter a.toWrite = some toOverwrite ∧
      ∃ g₁, toOverwrite.foldlM (overwriteExtent env a.appendAfter a.fadviseFlags) g = some g₁ ∧
      ∃ toAppend, intersect blSplitMerge a.appendAfter (uint64Max - a.appendAfter) a.toWrite =
        some toAppend ∧ ∃ g₂, toAppend.foldlM (appendExtent env a.fadviseFlags) g₁ = some g₂ ∧
      ∃ g₃, noteExtents env a.newSize g₂ = some g₃ ∧
        setHinfo env (noteAppend a.appendAfter toAppend g₃) = g' := by
  simp only [writeOut, bind_eq_bind, bind_eq_some_iff, Option.some.injEq]

theorem setHinfo_spares (env : GenEnv) (g : Gen) :
    g.Spares s ⟨env.oid, some v⟩ (setHinfo env g) := by
  rw [setHinfo]
  split
  · exact Spares.refl _ _ g
  · exact Spares.emit_one g (stash_ne _ _ _)

/-- An entry whose records are closed is left as it is. -/
theorem Gen.modDesc_of_closed {g : Gen} (hentry : g.entry = some e)
    {f : ObjectModDesc → ObjectModDesc} (hf : f e.modDesc = e.modDesc) : g.modDesc f = g := by
  have hsame : g = { g with entry := some e } := by rw [← hentry]
  rw [modDesc, hentry, map_some, hf]
  exact hsame.symm

/-- The second half of the generator, when one record undoes everything. -/
theorem generateData_closed {g g' : Gen} (hentry : g.entry = some e) (hclosed : e.Closed)
    (hroll : g.rollbackExtents = [])
    (hcut : g.op.isFreshObject ∨ g.hinfo.getTotalLogicalSize env.sinfo = 0) {read : ExtentMap}
    (h : (assemble env read g >>= fun p => writeOut env p.1 p.2) = some g') :
    g.Spares s ⟨env.oid, some v⟩ g' := by
  obtain ⟨⟨g₀, a⟩, hassemble, hwrite⟩ := of_bind h
  -- nothing is truncated
  have hg₀ : g₀ = g := by
    obtain ⟨⟨g₁, a₁⟩, hdown, hrest⟩ := of_bind hassemble
    obtain ⟨a₂, -, hrest⟩ := of_bind hrest
    obtain ⟨a₃, -, hrest⟩ := of_bind hrest
    cases hrest
    rw [truncateDown] at hdown
    split at hdown
    · exact (Prod.mk.inj (some_inj.1 hdown)).1.symm
    split at hdown
    next hlt =>
      obtain ⟨hfresh, -⟩ := of_assert hdown
      rcases hcut with hf | hz
      · exact absurd hf hfresh
      · rw [hz] at hlt
        exact absurd hlt (Nat.not_lt_zero _)
    · exact (Prod.mk.inj (some_inj.1 hdown)).1.symm
  subst hg₀
  obtain ⟨toOverwrite, -, g₁, hover, toAppend, -, g₂, happ, g₃, hnote, rfl⟩ :=
    writeOut_eq_some.1 hwrite
  obtain ⟨hentry₁, hlen⟩ := overwriteExtents_recorded (hentry ▸ rfl) hover
  rw [hentry] at hentry₁
  have hsp := appendExtents_spares (s := s) (v := v) happ
  -- an overwritten extent could not have been recorded
  obtain ⟨hnil, rfl⟩ : g₂.rollbackExtents = [] ∧ g₃ = g₂ := by
    rw [noteExtents, hsp.entry, hentry₁] at hnote
    simp only at hnote
    split at hnote
    · obtain ⟨desc, hdesc, -⟩ := of_bind hnote
      obtain ⟨-, hdesc⟩ := of_assert hdesc
      obtain ⟨hopen, -⟩ := of_assert hdesc
      exact absurd hclosed.completed hopen
    next hnil =>
      obtain ⟨-, hnote⟩ := of_assert hnote
      exact ⟨not_not.1 hnil, (some_inj.1 hnote).symm⟩
  obtain rfl : toOverwrite = [] := by
    rw [hsp.rollbackExtents] at hnil
    rw [hnil, hroll] at hlen
    exact length_eq_zero_iff.1 (by simpa using hlen.symm)
  obtain rfl : g₁ = g₀ := (some_inj.1 hover).symm
  have hsame : noteAppend a.appendAfter toAppend g₃ = g₃ := by
    rw [noteAppend]
    split
    · rfl
    · exact modDesc_of_closed (hsp.entry.trans hentry₁)
        (record_of_closed hclosed _)
  rw [hsame]
  exact hsp.trans (setHinfo_spares env g₃)

/-- The blocks of the first half, one after the other. -/
theorem generateMeta_eq_some {op : ObjectOperation} {obc : Option ObjectContext} {hinfo : HashInfo}
    {g : Gen} (hmod : e.modDesc = {}) (h : generateMeta env op (some e) obc hinfo = some g) :
    obc.isSome ∧ ∃ g₀ e₁ g₁ g₂ g₃, SameEntry e e₁ ∧ e₁.Open ∧
      Harmless env.sinfo e.soid e₁.modDesc.bl ∧ g₀.op = op ∧ g₀.entry = some e₁ ∧ g₀.obc = obc ∧
      g₀.hinfo = hinfo ∧ g₀.xattrRollback = [(getHinfoKey, some hinfo.encode)] ∧
      g₀.rollbackExtents = [] ∧ (∀ s, g₀.transactions s = []) ∧
      truncateToZero g₀ = some g₁ ∧ initObject env (noteCreate (deleteFirst env g₁)) = some g₂ ∧
      updateAttrs env g₂ = some g₃ ∧ setAllocHint env (noteAttrs g₃) = g := by
  obtain ⟨hobc, h⟩ := of_assert h
  obtain ⟨-, h⟩ := of_assert h
  obtain ⟨g₁, hg₁, h⟩ := of_bind h
  obtain ⟨g₂, hg₂, h⟩ := of_bind h
  obtain ⟨-, h⟩ := of_assert h
  obtain ⟨-, h⟩ := of_assert h
  obtain ⟨-, h⟩ := of_assert h
  obtain ⟨g₃, hg₃, h⟩ := of_bind h
  have htemp : ∀ g : Gen, (noteTemp env g).op = g.op ∧ (noteTemp env g).entry = g.entry ∧
      (noteTemp env g).obc = g.obc ∧ (noteTemp env g).hinfo = g.hinfo ∧
      (noteTemp env g).rollbackExtents = g.rollbackExtents ∧
      (noteTemp env g).transactions = g.transactions := by
    intro g
    rw [noteTemp]
    repeat' split
    all_goals exact ⟨rfl, rfl, rfl, rfl, rfl, rfl⟩
  obtain ⟨hop₀, hentry₀, hobc₀, hhinfo₀, hroll₀, htrans₀⟩ :=
    htemp { op := op, entry := some e, obc := obc, hinfo := hinfo }
  obtain ⟨e₁, hsnaps, hsame, hopen, hharm⟩ := noteSnaps_spec env.sinfo hentry₀ hmod
  rw [hsnaps] at hg₁
  exact ⟨hobc rfl, { noteTemp env { op := op, entry := some e, obc := obc, hinfo := hinfo } with
      entry := some e₁
      xattrRollback := [(getHinfoKey, some hinfo.encode)] },
    e₁, g₁, g₂, g₃, hsame, hopen, hharm, hop₀, rfl, hobc₀, hhinfo₀, rfl, hroll₀, fun s =>
    congrFun htrans₀ s, hg₁, hg₂, hg₃, some_inj.1 h⟩

/-- What turning a truncation to zero into a removal leaves as it was. -/
theorem truncateToZero_eq_some {g g' : Gen} (h : truncateToZero g = some g') :
    g'.entry = g.entry ∧ g'.hinfo = g.hinfo ∧ g'.rollbackExtents = g.rollbackExtents ∧
      g'.transactions = g.transactions ∧ (g' = g ∨ g'.op.deleteFirst = true) := by
  rw [truncateToZero] at h
  split at h
  · split at h
    · obtain ⟨-, h⟩ := of_assert h
      obtain ⟨-, h⟩ := of_assert h
      obtain ⟨-, h⟩ := of_assert h
      cases h
      exact ⟨rfl, rfl, rfl, rfl, .inr rfl⟩
    · cases h
      exact ⟨rfl, rfl, rfl, rfl, .inl rfl⟩
  · cases h
    exact ⟨rfl, rfl, rfl, rfl, .inl rfl⟩

/-- The rest of the first half, when one record undoes everything. -/
theorem generateMeta_closed {g g₂ g₃ : Gen} (hentry : g.entry = some e) (hclosed : e.Closed)
    (hcut : g.op.isFreshObject ∨ g.hinfo.getTotalLogicalSize env.sinfo = 0)
    (h₂ : initObject env g = some g₂) (h₃ : updateAttrs env g₂ = some g₃) :
    g.Spares s ⟨env.oid, some v⟩ (setAllocHint env (noteAttrs g₃)) ∧
      ((setAllocHint env (noteAttrs g₃)).op.isFreshObject ∨
        (setAllocHint env (noteAttrs g₃)).hinfo.getTotalLogicalSize env.sinfo = 0) := by
  obtain ⟨hsp₂, hinit⟩ := initObject_spares (s := s) (v := v) h₂
  obtain ⟨hsp₃, hhinfo₃⟩ := updateAttrs_spares (s := s) h₃
  have hattrs : noteAttrs g₃ = g₃ := by
    rw [noteAttrs]
    split
    · rfl
    · exact modDesc_of_closed (hsp₃.entry.trans (hsp₂.entry.trans hentry))
        (record_of_closed hclosed _)
  rw [hattrs]
  obtain ⟨hsp₄, hhinfo₄⟩ := setAllocHint_spares env g₃
  have hsp := (hsp₂.trans hsp₃).trans hsp₄
  refine ⟨hsp, ?_⟩
  rw [hsp.op, hhinfo₄, hhinfo₃]
  rcases hcut with hf | hz
  · exact .inl hf
  · by_cases hnone : g.op.initType = .none
    · rw [hinit hnone]
      exact .inr hz
    · exact .inl (by simpa [ObjectOperation.isFreshObject] using hnone)

variable {oid : Soid} (htemp : oid.isTemp = false) (hsoid : e.soid = oid) (hclosed : e.Closed)

include hsoid hclosed in
/-- Harmless records do nothing, so the last record decides. -/
theorem rollback_last {last : ModOp} (hbl : e.modDesc.bl = records ++ [last])
    (hharm : Harmless sinfo oid records) {ops : List StoreOp}
    (hops : undo sinfo oid last = some ops) :
    ∃ undo, rollback sinfo e = some undo ∧
      ∀ store : Store, store.applyAll undo = store.applyAll ops := by
  obtain ⟨ops₀, hops₀, hnothing⟩ := hharm
  refine ⟨_,
    by rw [rollback_eq hclosed.canLocalRollback, hsoid, hbl]; exact undoAll_concat hops₀ hops,
    fun store => ?_⟩
  rw [applyAll_append, hnothing]

variable (hharm : Harmless sinfo oid records) {store : Store} (hstash : store ⟨oid, some v⟩ = none)
  {ops : List StoreOp} (hops : ∀ op ∈ ops, op.Spares ⟨oid, some v⟩)
include htemp hsoid hclosed hharm hstash hops

/-- **An object that was removed comes back** from its stash. -/
theorem rollback_deleted (hbl : e.modDesc.bl = records ++ [.delete v]) :
    ∃ undo, rollback sinfo e = some undo ∧
      ((store.applyAll (.collectionMoveRename ⟨oid, none⟩ ⟨oid, some v⟩ :: ops)).applyAll undo)
        ⟨oid, none⟩ = store ⟨oid, none⟩ ∧
      ((store.applyAll (.collectionMoveRename ⟨oid, none⟩ ⟨oid, some v⟩ :: ops)).applyAll undo)
        ⟨oid, some v⟩ = none := by
  obtain ⟨undo, hundo, hlast⟩ := rollback_last hsoid hclosed hbl hharm
    (assert_bind (by simp [htemp]) _)
  refine ⟨undo, hundo, ?_⟩
  rw [hlast]
  -- what the stash holds when the undo begins
  have hkept : store.applyAll (.collectionMoveRename ⟨oid, none⟩ ⟨oid, some v⟩ :: ops)
      ⟨oid, some v⟩ = store ⟨oid, none⟩ := by
    rw [applyAll_cons, Store.applyAll_of_spares _ hops, apply, move]
    cases hobj : store ⟨oid, none⟩ with
    | none => exact hstash
    | some obj => exact set_self _ _ _
  obtain ⟨st, hst⟩ : ∃ st, st =
    store.applyAll (.collectionMoveRename ⟨oid, none⟩ ⟨oid, some v⟩ :: ops) := ⟨_, rfl⟩
  rw [← hst] at hkept ⊢
  have hremove : (st.set ⟨oid, none⟩ none) ⟨oid, some v⟩ = store ⟨oid, none⟩ := by
    rw [set_of_ne _ (stash_ne _ _ _), hkept]
  show (st.set ⟨oid, none⟩ none).move ⟨oid, some v⟩ ⟨oid, none⟩ ⟨oid, none⟩ = _ ∧
    (st.set ⟨oid, none⟩ none).move ⟨oid, some v⟩ ⟨oid, none⟩ ⟨oid, some v⟩ = _
  rw [move, hremove]
  cases hobj : store ⟨oid, none⟩ with
  | none =>
    rw [hobj] at hremove
    exact ⟨set_self _ _ _, hremove⟩
  | some obj =>
    refine ⟨set_self _ _ _, ?_⟩
    simp only
    rw [set_of_ne _ (stash_ne _ _ _)]
    exact set_self _ _ _

/-- **An object that was created is gone.** -/
theorem rollback_created (hbl : e.modDesc.bl = records ++ [.create]) :
    ∃ undo, rollback sinfo e = some undo ∧ ((store.applyAll ops).applyAll undo) ⟨oid, none⟩ = none ∧
      ((store.applyAll ops).applyAll undo) ⟨oid, some v⟩ = none := by
  obtain ⟨undo, hundo, hlast⟩ := rollback_last hsoid hclosed hbl hharm
    (assert_bind (by simp [htemp]) _)
  refine ⟨undo, hundo, ?_⟩
  rw [hlast]
  refine ⟨set_self _ _ _, ?_⟩
  show ((store.applyAll ops).set ⟨oid, none⟩ none) ⟨oid, some v⟩ = none
  rw [set_of_ne _ (stash_ne _ _ _), Store.applyAll_of_spares _ hops, hstash]

end Stash

end Ceph.Osd
