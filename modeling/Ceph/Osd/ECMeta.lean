import Ceph.Osd.ECWrite

/-!
# Everything but the data

The first half of `generate_transactions`, for operations built by `create`,
`write`, `zero` and `truncate` calls: the object is created, or removed and created
again when it is truncated to zero, and what is needed to undo that is recorded.
`MetaSpec` says what the second half finds.
-/

namespace Ceph.Osd

open IntervalMap StripeInfo List Option ObjectOperation

variable {env : GenEnv} (op : ObjectOperation)

/-- The object is removed and created again. -/
def ObjectOperation.recreates : Bool :=
  op.isNone && op.truncate.map (·.1) = some 0

/-- The truncation that is left to do. -/
def ObjectOperation.restTruncate : Option (ℕ × ℕ) :=
  if op.recreates then none else op.truncate

/-- The size that is left of the object before the data is looked at. -/
def ObjectOperation.restSize (size : ℕ) : ℕ :=
  if op.recreates then 0 else size

/-- What the first half of the generator leaves to the second. -/
structure MetaSpec (env : GenEnv) (op : ObjectOperation) (entry : Option (PgLogEntry Soid))
    (hinfo : HashInfo) (g : Gen) : Prop where
  updates : g.op.bufferUpdates = op.bufferUpdates
  truncate : g.op.truncate = op.restTruncate
  size : g.hinfo.getTotalLogicalSize env.sinfo = op.restSize (hinfo.getTotalLogicalSize env.sinfo)
  fits : g.hinfo.Fits env.ec
  entry : g.entry.isSome = entry.isSome
  rollbackExtents : g.rollbackExtents = []
  written : g.written = []
  rollable : 0 < g.hinfo.getTotalLogicalSize env.sinfo → g.Rollable
  fresh : 0 < g.hinfo.getTotalLogicalSize env.sinfo → g.op.isFreshObject = false
  left : ∀ s, bytesLeft env.sinfo env.oid (g.transactions s)
    (hinfo.getTotalLogicalSize env.sinfo) = op.restSize (hinfo.getTotalLogicalSize env.sinfo)

theorem noteTemp_keeps (env : GenEnv) (g : Gen) : ∃ g', noteTemp env g = g' ∧ g.Keeps env g' ∧
    g'.entry = g.entry ∧ g'.obc = g.obc := by
  refine ⟨_, rfl, ?_⟩
  rw [noteTemp]
  repeat' split
  all_goals exact ⟨⟨rfl, rfl, rfl, rfl, rfl, fun _ _ => rfl⟩, rfl, rfl⟩

variable {g : Gen}

theorem noteSnaps_eq (h : g.op.updatedSnaps = none) : noteSnaps g = g := by
  rw [noteSnaps, h]
  cases g.entry <;> rfl

theorem setAllocHint_eq (h : g.op.allocHint = none) : setAllocHint env g = g := by
  rw [setAllocHint, h]

theorem noteAttrs_keeps (env : GenEnv) (g : Gen) : g.Keeps env (noteAttrs g) := by
  rw [noteAttrs]
  split
  · exact Gen.Keeps.refl env g
  · exact (Gen.Keeps.refl env g).modDesc _

/-- Recording attributes leaves the records open. -/
theorem noteAttrs_rollable (h : g.Rollable) : (noteAttrs g).Rollable := by
  rw [noteAttrs]
  split
  · exact h
  · intro e he
    obtain ⟨e', he', rfl⟩ := of_map he
    obtain ⟨h1, h2⟩ := h e' he'
    exact ⟨(ObjectModDesc.record_canLocalRollback _ _).trans h1,
      (ObjectModDesc.record_rollbackInfoCompleted _ _).trans h2⟩

/-- The loop over the attributes, with their old values at hand. -/
theorem updateAttrs_loop (attrs : List (String × Option Buffer)) (hobc : g.obc.isSome)
    (hne : g.xattrRollback ≠ []) :
    ∃ g', attrs.foldlM (updateAttr env) g = some g' ∧ g.Keeps env g' ∧ g'.xattrRollback ≠ [] := by
  induction attrs generalizing g with
  | nil => exact ⟨g, rfl, Gen.Keeps.refl env g, hne⟩
  | cons attr attrs ih =>
    obtain ⟨obc, hobc⟩ := isSome_iff_exists.1 hobc
    obtain ⟨g₁, hg₁, hkeep, hobc₁, hne₁⟩ : ∃ g₁, updateAttr env g attr = some g₁ ∧
        g.Keeps env g₁ ∧ g₁.obc.isSome ∧ g₁.xattrRollback ≠ [] := by
      have hne' : ∀ more, g.xattrRollback.insertNew more ≠ [] := fun more h =>
        hne (append_eq_nil_iff.1 h).1
      obtain ⟨name, val⟩ := attr
      rw [updateAttr]
      cases val with
      | none =>
        have hk := (Gen.Keeps.refl env g).emit (fun _ => [.rmattr ⟨env.oid, none⟩ name])
          fun _ _ => rfl
        simp only [Gen.emit, hobc] at hk ⊢
        refine ⟨_, rfl, ⟨hk.op, hk.hinfo, hk.rollbackExtents, hk.written, hk.entry, hk.left⟩,
          rfl, ?_⟩
        split
        · exact hne' _
        · exact hne
      | some bl =>
        simp only [hobc]
        refine ⟨_, rfl, ⟨rfl, rfl, rfl, rfl, rfl, fun _ _ => rfl⟩, rfl, ?_⟩
        split
        · exact hne' _
        · exact hne
    obtain ⟨g', hg', hkeep', hne'⟩ := ih hobc₁ hne₁
    refine ⟨g', ?_, hkeep.trans hkeep', hne'⟩
    rwa [foldlM_cons, hg₁]

theorem updateAttrs_spec (env : GenEnv) (hobc : g.obc.isSome) (hne : g.xattrRollback ≠ []) :
    ∃ g', updateAttrs env g = some g' ∧ g.Keeps env g' := by
  rw [updateAttrs]
  split
  · exact ⟨g, rfl, Gen.Keeps.refl env g⟩
  · obtain ⟨g', hg', hkeep, hne'⟩ := updateAttrs_loop g.op.attrUpdates hobc hne
    refine ⟨g'.emit fun _ => [.setattrs ⟨env.oid, none⟩ (g.op.attrUpdates.filterMap fun attr =>
      attr.2.map fun val => (attr.1, val))], ?_, hkeep.emit _ fun _ _ => rfl⟩
    rw [hg']
    exact assert_bind hne' _

theorem truncateToZero_eq (h : g.op.recreates = false) : truncateToZero g = some g := by
  rw [truncateToZero]
  split
  next second htr =>
    have hnone : g.op.isNone = false := by
      simpa [recreates, htr] using h
    rw [if_neg (by simp [hnone])]
  · rfl

theorem deleteFirst_eq (h : g.op.deleteFirst = false) : deleteFirst env g = g := by
  rw [deleteFirst, h]
  rfl

theorem noteCreate_keeps (env : GenEnv) (g : Gen) :
    g.Keeps env (noteCreate g) ∧ (noteCreate g).obc = g.obc ∧
    (noteCreate g).xattrRollback = g.xattrRollback := by
  rw [noteCreate]
  split
  · exact ⟨(Gen.Keeps.refl env g).modDesc _, rfl, rfl⟩
  · exact ⟨Gen.Keeps.refl env g, rfl, rfl⟩

theorem initObject_spec (env : GenEnv) (h : g.op.initType = .none ∨ g.op.initType = .create) :
    ∃ g', initObject env g = some g' ∧ g.Keeps env g' ∧ g'.obc = g.obc ∧
      g'.xattrRollback = g.xattrRollback ∧ g'.entry = g.entry := by
  rw [initObject]
  rcases h with h | h
  · rw [h]
    exact ⟨g, rfl, Gen.Keeps.refl env g, rfl, rfl, rfl⟩
  · rw [h]
    exact ⟨_, rfl, (Gen.Keeps.refl env g).emit _ fun _ _ => rfl, rfl, rfl, rfl⟩

variable {op : ObjectOperation} {entry : Option (PgLogEntry Soid)} {obc : Option ObjectContext}
  {hinfo : HashInfo}

/-- The blocks of the first half, one after the other. -/
theorem generateMeta_eq (hobc : entry.isSome → obc.isSome)
    (htemp : entry.isNone → env.oid.isTemp) (hsnaps : op.updatedSnaps = none) {g₁ g₂ g₃ : Gen}
    (h₁ : truncateToZero
      { noteTemp env { op := op, entry := entry, obc := obc, hinfo := hinfo } with
      xattrRollback := [(getHinfoKey, some hinfo.encode)] } = some g₁)
    (h₂ : initObject env (noteCreate (deleteFirst env g₁)) = some g₂)
    (hclear : g₂.op.clearOmap = false) (hheader : g₂.op.omapHeader = none)
    (homap : g₂.op.omapUpdates = []) (hhint : g₂.op.allocHint = none)
    (h₃ : updateAttrs env g₂ = some g₃) (hkeep : g₃.op = g₂.op) :
    generateMeta env op entry obc hinfo = some (noteAttrs g₃) := by
  have hsnaps' : (noteTemp env { op := op, entry := entry, obc := obc, hinfo := hinfo
      }).op.updatedSnaps = none := by
    obtain ⟨g', hg', hk, -⟩ := noteTemp_keeps env _
    rwa [hg', hk.op]
  rw [generateMeta, assert_bind hobc, assert_bind htemp, noteSnaps_eq hsnaps']
  simp only
  rw [h₁]
  simp only [bind_eq_bind, bind_some]
  rw [h₂, bind_some, ← bind_eq_bind, assert_bind (by simp [hclear]),
    assert_bind hheader, assert_bind homap, h₃]
  exact congrArg some (setAllocHint_eq (by
    rw [(noteAttrs_keeps env g₃).op, hkeep, hhint]))

/-- A plain operation that does not truncate an existing object to zero. -/
theorem generateMeta_keep (hop : op.Plain) (hrec : op.recreates = false)
    (hobc : entry.isSome → obc.isSome) (htemp : entry.isNone → env.oid.isTemp)
    (hfits : hinfo.Fits env.ec) (hmod : ∀ e, entry = some e → e.modDesc = {})
    (hfresh : op.isFreshObject → hinfo.getTotalLogicalSize env.sinfo = 0) :
    ∃ g, generateMeta env op entry obc hinfo = some g ∧ MetaSpec env op entry hinfo g := by
  obtain ⟨g₀, hg₀, hk₀, hentry₀, hobc₀⟩ := noteTemp_keeps env
    { op := op, entry := entry, obc := obc, hinfo := hinfo }
  obtain ⟨g₁, hg₁⟩ : ∃ g₁ : Gen, g₁ = { g₀ with
    xattrRollback := [(getHinfoKey, some hinfo.encode)] } := ⟨_, rfl⟩
  have hop₁ : g₁.op = op := by rw [hg₁]; exact hk₀.op
  have hrun₁ : truncateToZero g₁ = some g₁ := truncateToZero_eq (hop₁ ▸ hrec)
  have hdel : deleteFirst env g₁ = g₁ := deleteFirst_eq (hop₁ ▸ hop.deleteFirst)
  obtain ⟨hkc, -⟩ := noteCreate_keeps env g₁
  obtain ⟨g₂, hrun₂, hk₂, -, -, hentry₂⟩ := initObject_spec env
    (by rw [hkc.op, hop₁]; exact hop.initType)
  have hop₂ : g₂.op = op := hk₂.op.trans (hkc.op.trans hop₁)
  have hrun₃ : updateAttrs env g₂ = some g₂ := by
    rw [updateAttrs, hop₂, hop.attrUpdates]
    rfl
  have hkeep := (hkc.trans hk₂).trans (noteAttrs_keeps env g₂)
  have hhinfo : (noteAttrs g₂).hinfo = hinfo := by
    rw [hkeep.hinfo, hg₁]
    exact hk₀.hinfo
  have hsize : op.restSize (hinfo.getTotalLogicalSize env.sinfo) =
      hinfo.getTotalLogicalSize env.sinfo := by
    rw [restSize, hrec]
    rfl
  have hnotfresh : 0 < hinfo.getTotalLogicalSize env.sinfo → op.isFreshObject = false := by
    intro h
    by_contra hf
    have := hfresh (by simpa using hf)
    omega
  refine ⟨noteAttrs g₂,
    generateMeta_eq hobc htemp hop.updatedSnaps (by rw [hg₀, ← hg₁]; exact hrun₁)
    (by rw [hdel]; exact hrun₂) (hop₂ ▸ hop.clearOmap) (hop₂ ▸ hop.omapHeader)
    (hop₂ ▸ hop.omapUpdates) (hop₂ ▸ hop.allocHint) hrun₃ rfl, ?_⟩
  constructor
  · rw [hkeep.op, hop₁]
  · rw [hkeep.op, hop₁, restTruncate, hrec]
    rfl
  · rw [hhinfo, hsize]
  · rwa [hhinfo]
  · rw [hkeep.entry, hg₁]
    exact hk₀.entry
  · rw [hkeep.rollbackExtents, hg₁]
    exact hk₀.rollbackExtents
  · rw [hkeep.written, hg₁]
    exact hk₀.written
  · -- an object with data was not created by this operation
    intro h
    rw [hhinfo] at h
    have hsame : noteCreate g₁ = g₁ := by
      rw [noteCreate, hop₁, hnotfresh h]
      rfl
    refine noteAttrs_rollable fun e he => ?_
    rw [hentry₂, hsame, hg₁] at he
    rw [hmod e (hentry₀.symm.trans he)]
    exact ⟨rfl, rfl⟩
  · intro h
    rw [hhinfo] at h
    rw [hkeep.op, hop₁]
    exact hnotfresh h
  · intro s
    rw [hkeep.left, hsize, hg₁]
    exact hk₀.left s _

/-- What stashing the object leaves. -/
theorem deleteFirst_spec (env : GenEnv) (hdel : g.op.deleteFirst = true) (hentry : g.entry.isSome) :
    (deleteFirst env g).op = { g.op with attrUpdates := g.op.attrUpdates.filter (·.2.isSome) } ∧
      (deleteFirst env g).hinfo = g.hinfo.clear ∧
      (deleteFirst env g).rollbackExtents = g.rollbackExtents ∧
      (deleteFirst env g).written = g.written ∧ (deleteFirst env g).entry.isSome ∧
      (deleteFirst env g).obc.isSome = g.obc.isSome ∧
      (g.xattrRollback ≠ [] → (deleteFirst env g).xattrRollback ≠ []) ∧
      ∀ s size, bytesLeft env.sinfo env.oid ((deleteFirst env g).transactions s) size = 0 := by
  obtain ⟨e, he⟩ := isSome_iff_exists.1 hentry
  rw [deleteFirst, if_pos hdel]
  simp only [he]
  refine ⟨rfl, rfl, rfl, rfl, rfl, ?_, fun h => ?_, fun s size => ?_⟩
  · exact isSome_map
  · cases hobc : g.obc with
    | none => exact h
    | some obc => exact fun hnil => h (append_eq_nil_iff.1 hnil).1
  · simp only [Gen.emit, Gen.modDesc, bytesLeft_append]
    exact if_pos rfl

/-- A truncation to zero, done by removing and creating the object. -/
theorem generateMeta_recreate (hop : op.Plain) (hnone : op.isNone) (htr : op.truncate = some (0, 0))
    (hentry : entry.isSome) (hobc : obc.isSome) (hfits : hinfo.Fits env.ec) :
    ∃ g, generateMeta env op entry obc hinfo = some g ∧ MetaSpec env op entry hinfo g := by
  have hrec : op.recreates = true := by
    rw [recreates, hnone, htr]
    rfl
  obtain ⟨g₀, hg₀, hk₀, hentry₀, hobc₀⟩ := noteTemp_keeps env
    { op := op, entry := entry, obc := obc, hinfo := hinfo }
  have hop₀ : g₀.op = op := hk₀.op
  have hentry₀' : g₀.entry.isSome := hk₀.entry.trans hentry
  have hobc₀' : g₀.obc.isSome := (congrArg Option.isSome hobc₀).trans hobc
  obtain ⟨c, hc⟩ := isSome_iff_exists.1 hobc₀'
  obtain ⟨g₁, hg₁⟩ : ∃ g₁ : Gen, g₁ = { g₀ with
    xattrRollback := [(getHinfoKey, some hinfo.encode)]
    op := { op with
      truncate := none
      deleteFirst := true
      initType := .create
      attrUpdates := OldAttrs.insertNew op.attrUpdates c.oldAttrs } } := ⟨_, rfl⟩
  have hrun₁ : truncateToZero { g₀ with xattrRollback := [(getHinfoKey, some hinfo.encode)] } =
      some g₁ := by
    rw [truncateToZero]
    simp only [hop₀, htr]
    rw [if_pos hnone, assert_bind trivial, assert_bind hentry₀', assert_bind hobc₀', hg₁]
    simp only [hc]
    rfl
  obtain ⟨hopd, hhinfod, hrolld, hwrittend, hentryd, hobcd, hxd, hleftd⟩ :=
    deleteFirst_spec env (g := g₁) (by rw [hg₁]) (by rw [hg₁]; exact hentry₀')
  obtain ⟨hkc, hobcc, hxc⟩ := noteCreate_keeps env (deleteFirst env g₁)
  obtain ⟨g₂, hrun₂, hk₂, hobc₂, hx₂, -⟩ := initObject_spec env
    (by rw [hkc.op, hopd, hg₁]; exact .inr rfl)
  have hop₂ : g₂.op = { g₁.op with
      attrUpdates := g₁.op.attrUpdates.filter (·.2.isSome) } := hk₂.op.trans (hkc.op.trans hopd)
  obtain ⟨g₃, hrun₃, hk₃⟩ := updateAttrs_spec env (by rw [hobc₂, hobcc, hobcd, hg₁]; exact hobc₀')
    (by rw [hx₂, hxc]; exact hxd (by rw [hg₁]; exact cons_ne_nil _ _))
  have hkeep := ((hkc.trans hk₂).trans hk₃).trans (noteAttrs_keeps env g₃)
  have hhinfo : (noteAttrs g₃).hinfo = hinfo.clear := by
    rw [hkeep.hinfo, hhinfod, hg₁]
    exact congrArg HashInfo.clear hk₀.hinfo
  have hzero : hinfo.clear.getTotalLogicalSize env.sinfo = 0 := Nat.zero_mul _
  refine ⟨noteAttrs g₃, generateMeta_eq (fun _ => hobc) (fun h => absurd hentry (by simpa using h))
    hop.updatedSnaps (by rw [hg₀]; exact hrun₁) hrun₂ (by rw [hop₂, hg₁]; exact hop.clearOmap)
    (by rw [hop₂, hg₁]; exact hop.omapHeader) (by rw [hop₂, hg₁]; exact hop.omapUpdates)
    (by rw [hop₂, hg₁]; exact hop.allocHint) hrun₃ hk₃.op, ?_⟩
  constructor
  · rw [hkeep.op, hopd, hg₁]
  · rw [hkeep.op, hopd, hg₁, restTruncate, hrec]
    rfl
  · rw [hhinfo, hzero, restSize, hrec]
    rfl
  · rw [hhinfo]
    exact hfits.clear
  · rw [hkeep.entry, hentryd, hentry]
  · rw [hkeep.rollbackExtents, hrolld, hg₁]
    exact hk₀.rollbackExtents
  · rw [hkeep.written, hwrittend, hg₁]
    exact hk₀.written
  · intro h
    rw [hhinfo, hzero] at h
    exact absurd h (lt_irrefl 0)
  · intro h
    rw [hhinfo, hzero] at h
    exact absurd h (lt_irrefl 0)
  · intro s
    rw [hkeep.left, hleftd, restSize, hrec]
    rfl

end Ceph.Osd
