import Ceph.Lib.SortedList
import Ceph.Osd.PGLog

/-!
# What becomes of divergent entries

`_merge_object_divergent_entries` decides between five cases and then acts.  The
decision for an object depends on the missing set only through the item of that
object, and acting on it changes no other item.  So the decisions can be taken
before any of them is carried out (`mergeDivergentEntries_eq`), and what becomes of
an object is read off its own decision (`Decision.lookup_applyAll`,
`Decision.callsFor_flatMap`).
-/

namespace Ceph.Osd

open List Option PgMissing MissingItem

variable {O : Type}

/-! ## Calls and entries of one object -/

/-- The object a call of the handler is about. -/
def HandlerCall.target : HandlerCall O → O
  | .rollback entry => entry.soid
  | .rollforward entry => entry.soid
  | .trim entry => entry.soid
  | .remove hoid => hoid
  | .tryStash hoid _ => hoid

variable {o : O}

section

variable [DecidableEq O]

/-- The entries of an object, in log order. -/
def entriesOf (o : O) (entries : List (PgLogEntry O)) : List (PgLogEntry O) :=
  entries.filter fun e => e.soid = o

/-- The calls that are about an object, in order. -/
def callsFor (o : O) (calls : List (HandlerCall O)) : List (HandlerCall O) :=
  calls.filter fun call => call.target = o

@[simp] theorem entriesOf_nil (o : O) : entriesOf o [] = [] := rfl

@[simp] theorem entriesOf_append (o : O) (a b : List (PgLogEntry O)) :
    entriesOf o (a ++ b) = entriesOf o a ++ entriesOf o b := filter_append ..

theorem mem_entriesOf {e : PgLogEntry O} {entries : List (PgLogEntry O)} :
    e ∈ entriesOf o entries ↔ e ∈ entries ∧ e.soid = o := by
  simp [entriesOf]

@[simp] theorem callsFor_nil (o : O) : callsFor o ([] : List (HandlerCall O)) = [] := rfl

@[simp] theorem callsFor_append (o : O) (a b : List (HandlerCall O)) :
    callsFor o (a ++ b) = callsFor o a ++ callsFor o b := filter_append ..

theorem callsFor_of_target {calls : List (HandlerCall O)} (h : ∀ call ∈ calls, call.target = o) :
    callsFor o calls = calls :=
  filter_eq_self.2 fun call hcall => by simp [h call hcall]

theorem callsFor_of_target_ne {o' : O} {calls : List (HandlerCall O)} (ho : o' ≠ o)
    (h : ∀ call ∈ calls, call.target = o') : callsFor o calls = [] :=
  List.filter_eq_nil_iff.2 fun call hcall => by simp [h call hcall, ho]

end

variable [LinearOrder O]

/-! ## The decision -/

/-- The cases of `_merge_object_divergent_entries`. -/
inductive DivergentCase where
  /-- The object is after `last_backfill`. -/
  | notBackfilled
  /-- 1) There is a more recent update. -/
  | moreRecent
  /-- 2) The first entry in the divergent sequence is a create. -/
  | created
  /-- 3) We are currently missing the object. -/
  | missing
  /-- 4) We can rollback all of the entries. -/
  | canRollback
  /-- 5) We cannot rollback at least 1 of the entries. -/
  | cannotRollback
  deriving DecidableEq

/-- All entries can be rolled back, and none is at or below the boundary. -/
def Rollable (boundary : EVersion) (entries : List (PgLogEntry O)) : Prop :=
  ∀ i ∈ entries, i.canRollback ∧ boundary < i.version

instance (boundary : EVersion) (entries : List (PgLogEntry O)) :
    Decidable (Rollable boundary entries) := inferInstanceAs (Decidable (∀ i ∈ entries, _))

variable (log : IndexedLog O)

/-- The entry of the index that makes an object a case 1. -/
def moreRecent (hoid : O) (front : PgLogEntry O) : Option (PgLogEntry O) :=
  (log.objects hoid).filter fun obj => front.version ≤ obj.version

/-- The case of an object without a more recent entry. -/
def oldCase (boundary : EVersion) (front : PgLogEntry O) (rest : List (PgLogEntry O))
    (item : Option MissingItem) : DivergentCase :=
  if front.priorVersion = 0 ∨ front.isClone then .created
  else if item.isSome then .missing
  else if Rollable boundary (front :: rest) then .canRollback
  else .cannotRollback

variable {item : Option MissingItem} {rest : List (PgLogEntry O)}

omit [LinearOrder O] in
theorem oldCase_eq_canRollback {boundary : EVersion} {front : PgLogEntry O} :
    oldCase boundary front rest item = .canRollback ↔
      (front.priorVersion ≠ 0 ∧ ¬ front.isClone) ∧ item = none ∧
        Rollable boundary (front :: rest) := by
  unfold oldCase
  rw [← not_or]
  split
  · simp [*]
  · cases item with
    | some item => simp
    | none =>
      simp only [isSome_none, Bool.false_eq_true, if_false]
      split <;> simp [*]

omit [LinearOrder O] in
theorem oldCase_congr {boundary boundary' : EVersion} {front : PgLogEntry O}
    (h : front.priorVersion ≠ 0 ∧ ¬ front.isClone → item = none →
      (Rollable boundary (front :: rest) ↔ Rollable boundary' (front :: rest))) :
    oldCase boundary front rest item = oldCase boundary' front rest item := by
  unfold oldCase
  by_cases hcr : front.priorVersion = 0 ∨ front.isClone
  · rw [if_pos hcr, if_pos hcr]
  · cases item with
    | some item => rfl
    | none => simp only [h (not_or.1 hcr) rfl]

variable (info : PgInfo O)

/-- Which case an object is, from its item in the missing set. -/
def divergentCase (boundary : EVersion) (hoid : O) (entries : List (PgLogEntry O))
    (item : Option MissingItem) : Option DivergentCase :=
  if info.lastBackfill < hoid then some .notBackfilled
  else
    match entries with
    | [] => none
    | front :: rest => do
      checkEntries hoid none (front :: rest)
      match moreRecent log hoid front with
      | some obj =>
        assert ((rest.getLastD front).version < obj.version)
        assert (item.map need = if obj.isUpdate then some obj.version else none)
        some .moreRecent
      | none => some (oldCase boundary front rest item)

/-- What the decision depends on. -/
theorem divergentCase_eq_some {log : IndexedLog O} {info : PgInfo O} {boundary : EVersion}
    {hoid : O} {entries : List (PgLogEntry O)} {kind : DivergentCase} :
    divergentCase log info boundary hoid entries item = some kind ↔
      (info.lastBackfill < hoid ∧ kind = .notBackfilled) ∨
      (hoid ≤ info.lastBackfill ∧ ∃ front rest, entries = front :: rest ∧
        checkEntries hoid none (front :: rest) = some () ∧
        ((∃ obj, moreRecent log hoid front = some obj ∧
            ((front :: rest).getLast (cons_ne_nil _ _)).version < obj.version ∧
            item.map need = (if obj.isUpdate then some obj.version else none) ∧
            kind = .moreRecent) ∨
          (moreRecent log hoid front = none ∧ kind = oldCase boundary front rest item))) := by
  unfold divergentCase
  by_cases hb : info.lastBackfill < hoid
  · rw [if_pos hb]
    constructor
    · exact fun h => .inl ⟨hb, (some_inj.1 h).symm⟩
    · rintro (⟨-, rfl⟩ | ⟨hle, -⟩)
      · rfl
      · exact absurd hb hle.not_gt
  cases entries with
  | nil => simp [hb]
  | cons front rest =>
    simp only [hb, false_and, false_or, not_lt.1 hb, true_and]
    constructor
    · intro h
      obtain ⟨u, hc, h⟩ := of_bind h
      refine ⟨front, rest, rfl, hc, ?_⟩
      cases hr : moreRecent log hoid front with
      | some obj =>
        rw [hr] at h
        obtain ⟨hlast, h⟩ := of_assert h
        obtain ⟨hneed, h⟩ := of_assert h
        rw [← getLast_eq_getLastD (cons_ne_nil _ _)] at hlast
        exact .inl ⟨obj, rfl, hlast, hneed, (some_inj.1 h).symm⟩
      | none =>
        rw [hr] at h
        exact .inr ⟨rfl, (some_inj.1 h).symm⟩
    · rintro ⟨front', rest', heq, hc, h⟩
      cases heq
      refine bind_eq_some_iff.2 ⟨(), hc, ?_⟩
      rcases h with ⟨obj, hr, hlast, hneed, rfl⟩ | ⟨hr, rfl⟩
      · rw [getLast_eq_getLastD] at hlast
        rw [hr]
        exact assert_bind_eq_some.2 ⟨hlast, assert_bind_eq_some.2 ⟨hneed, rfl⟩⟩
      · rw [hr]

/-- Whether the assertions hold does not depend on the boundary. -/
theorem isSome_divergentCase_congr {log : IndexedLog O} {info info' : PgInfo O}
    {boundary boundary' : EVersion} {hoid : O} {entries : List (PgLogEntry O)}
    (hlb : info'.lastBackfill = info.lastBackfill)
    (h : (divergentCase log info boundary hoid entries item).isSome) :
    (divergentCase log info' boundary' hoid entries item).isSome := by
  obtain ⟨kind, hkind⟩ := isSome_iff_exists.1 h
  refine isSome_iff_exists.2 ?_
  simp only [divergentCase_eq_some, hlb]
  rcases divergentCase_eq_some.1 hkind with ⟨hlt, -⟩ | ⟨hle, front, rest, hcons, hcheck, hcase⟩
  · exact ⟨_, .inl ⟨hlt, rfl⟩⟩
  · rcases hcase with ⟨obj, hobj, hlast, hneed, -⟩ | ⟨hrecent, -⟩
    · exact ⟨_, .inr ⟨hle, front, rest, hcons, hcheck, .inl ⟨obj, hobj, hlast, hneed, rfl⟩⟩⟩
    · exact ⟨_, .inr ⟨hle, front, rest, hcons, hcheck, .inr ⟨hrecent, rfl⟩⟩⟩

/-- A decision about an object, with what acting on it needs. -/
structure Decision (O : Type) where
  hoid : O
  entries : List (PgLogEntry O)
  kind : DivergentCase
  item : Option MissingItem

open Decision

namespace Decision

variable (d : Decision O)

/-- The version the object had before its divergent entries. -/
def prior : EVersion := (d.entries.head?.map (·.priorVersion)).getD 0

/-- `object_not_in_store` -/
def notInStore : Bool := d.item.isNone && (d.entries.getLast?.map (·.isDelete)).getD false

/-- What is done to the missing set. -/
def apply (missing : PgMissing O) : PgMissing O :=
  match d.kind with
  | .notBackfilled => missing
  | .moreRecent => missing.reviseHave d.hoid 0
  | .created => missing.rm d.hoid
  | .missing =>
    if d.item.map held = some d.prior then missing.rm d.hoid
    else missing.reviseNeed d.hoid d.prior
  | .canRollback => missing
  | .cannotRollback => missing.add d.hoid d.prior 0

/-- The calls that are made. -/
def calls : List (HandlerCall O) :=
  match d.kind with
  | .notBackfilled => []
  | .moreRecent => removeAndTrim d.hoid d.notInStore d.entries
  | .created => removeAndTrim d.hoid d.notInStore d.entries
  | .missing => d.entries.map .trim
  | .canRollback => d.entries.reverse.map .rollback
  | .cannotRollback => removeAndTrim d.hoid d.notInStore d.entries

/-- The item that is left. -/
def itemAfter : Option MissingItem :=
  match d.kind with
  | .notBackfilled => d.item
  | .moreRecent => d.item.map fun item => { item with held := 0 }
  | .created => none
  | .missing =>
    if d.item.map held = some d.prior then none
    else some ⟨d.prior, (d.item.map held).getD 0⟩
  | .canRollback => d.item
  | .cannotRollback => some ⟨d.prior, 0⟩

variable {d}

omit [LinearOrder O] in
theorem rollback_mem_calls {e : PgLogEntry O} :
    .rollback e ∈ d.calls ↔ d.kind = .canRollback ∧ e ∈ d.entries := by
  unfold calls removeAndTrim
  cases d.kind <;> cases d.notInStore <;> simp

theorem lookup_apply {missing : PgMissing O}
    (hitem : missing.items.lookup d.hoid = d.item) (o : O) : (d.apply missing).items.lookup o =
      if o = d.hoid then d.itemAfter else missing.items.lookup o := by
  unfold apply itemAfter
  cases d.kind with
  | notBackfilled =>
    by_cases ho : o = d.hoid
    · rw [if_pos ho, ho]; exact hitem
    · rw [if_neg ho]
  | moreRecent => rw [lookup_reviseHave, hitem]
  | created => exact lookup_rm ..
  | missing =>
    by_cases hheld : d.item.map held = some d.prior
    · simp only [if_pos hheld, lookup_rm]
    · simp only [if_neg hheld, lookup_reviseNeed, hitem]
  | canRollback =>
    by_cases ho : o = d.hoid
    · rw [if_pos ho, ho]; exact hitem
    · rw [if_neg ho]
  | cannotRollback => exact lookup_add ..

end Decision

/-- The decision about an object. -/
def decideObject (boundary : EVersion) (missing : PgMissing O) (object : O × List (PgLogEntry O)) :
    Option (Decision O) :=
  (divergentCase log info boundary object.1 object.2 (missing.items.lookup object.1)).map
    fun kind => ⟨object.1, object.2, kind, missing.items.lookup object.1⟩

/-- Deciding and acting is what `_merge_object_divergent_entries` does. -/
theorem mergeObjectDivergentEntries_eq (boundary : EVersion) (missing : PgMissing O) (hoid : O)
    (entries : List (PgLogEntry O)) :
    mergeObjectDivergentEntries log hoid entries info boundary missing =
      (decideObject log info boundary missing (hoid, entries)).map
        fun d => (d.apply missing, d.calls) := by
  unfold mergeObjectDivergentEntries decideObject divergentCase
  by_cases hb : info.lastBackfill < hoid
  · simp [hb, apply, calls]
  rw [if_neg hb, if_neg hb]
  cases entries with
  | nil => rfl
  | cons front rest =>
    dsimp only
    cases hc : checkEntries hoid none (front :: rest) with
    | none => rfl
    | some u =>
      simp only [bind_eq_bind, bind_some]
      change (match moreRecent log hoid front with | some obj => _ | none => _) = _
      cases hr : moreRecent log hoid front with
      | some obj =>
        dsimp only
        rw [← getLast_eq_getLastD (cons_ne_nil _ _)]
        by_cases hlast : ((front :: rest).getLast (cons_ne_nil _ _)).version < obj.version
        · cases hu : obj.isUpdate <;>
            cases hi : missing.items.lookup hoid <;>
              simp [assert, hlast, hi, isMissing, apply, calls,
                notInStore, List.getLast?_eq_some_getLast]
        · simp [assert, hlast]
      | none =>
        unfold oldCase
        by_cases hcr : front.priorVersion = 0 ∨ front.isClone
        · rw [if_pos hcr, if_pos hcr]
          simp [isMissing, apply, calls, notInStore, List.getLast?_eq_some_getLast]
        rw [if_neg hcr, if_neg hcr]
        cases hi : missing.items.lookup hoid with
        | some item =>
          simp [apply, calls, prior]
        | none =>
          by_cases hroll : Rollable boundary (front :: rest)
          · rw [if_pos (by exact hroll), if_pos hroll]
            rfl
          · rw [if_neg (by exact hroll), if_neg hroll]
            simp [hi, isMissing, apply, calls, prior, notInStore, List.getLast?_eq_some_getLast]

/-! ## All objects -/

variable (entries : List (PgLogEntry O))

theorem map_fst_splitByObject : (splitByObject entries).map Prod.fst =
      ((entries.map (·.soid)).dedup).insertionSort (· ≤ ·) := by
  rw [splitByObject, List.map_map]
  exact List.map_id _

theorem nodup_splitByObject : ((splitByObject entries).map Prod.fst).Nodup := by
  rw [map_fst_splitByObject, (perm_insertionSort _ _).nodup_iff]
  exact nodup_dedup _

theorem mem_splitByObject {entries es : List (PgLogEntry O)} :
    (o, es) ∈ splitByObject entries ↔ es = entriesOf o entries ∧ entriesOf o entries ≠ [] := by
  have hmem : o ∈ entries.map (·.soid) ↔ entriesOf o entries ≠ [] := by
    rw [entriesOf, Ne, List.filter_eq_nil_iff, List.mem_map]
    simp
  simp only [splitByObject, List.mem_map, List.mem_insertionSort, List.mem_dedup, Prod.mk.injEq]
  constructor
  · rintro ⟨o', ho', rfl, rfl⟩
    exact ⟨rfl, hmem.1 (List.mem_map.2 ho')⟩
  · rintro ⟨rfl, hne⟩
    exact ⟨o, List.mem_map.1 (hmem.2 hne), rfl, rfl⟩

/-- The decisions about all objects with divergent entries. -/
def decideAll (boundary : EVersion) (missing : PgMissing O) (entries : List (PgLogEntry O)) :
    Option (List (Decision O)) :=
  (splitByObject entries).mapM (decideObject log info boundary missing)

/-- Acting on decisions, one after the other. -/
def Decision.applyAll (ds : List (Decision O)) (missing : PgMissing O) : PgMissing O :=
  ds.foldl (fun missing d => d.apply missing) missing

variable {object : O × List (PgLogEntry O)}

theorem decideObject_congr {log : IndexedLog O} {info : PgInfo O} {boundary : EVersion}
    {m missing : PgMissing O} (h : m.items.lookup object.1 = missing.items.lookup object.1) :
    decideObject log info boundary m object = decideObject log info boundary missing object := by
  rw [decideObject, decideObject, h]

theorem decideObject_eq_some {log : IndexedLog O} {info : PgInfo O} {boundary : EVersion}
    {missing : PgMissing O} {d : Decision O}
    (h : decideObject log info boundary missing object = some d) :
    d.hoid = object.1 ∧ d.entries = object.2 ∧ d.item = missing.items.lookup object.1 ∧
      divergentCase log info boundary object.1 object.2 (missing.items.lookup object.1) =
        some d.kind := by
  obtain ⟨kind, hk, rfl⟩ := of_map h
  exact ⟨rfl, rfl, rfl, hk⟩

theorem mergeRound_eq (boundary : EVersion) (m : PgMissing O) (calls : List (HandlerCall O))
    (object : O × List (PgLogEntry O)) :
    mergeRound log info boundary (m, calls) object = (decideObject log info boundary m object).map
        fun d => (d.apply m, calls ++ d.calls) := by
  rw [mergeRound]
  simp only [mergeObjectDivergentEntries_eq]
  cases decideObject log info boundary m object <;> rfl

/-- **Decide first, act later.**  No action on an object changes the item another
decision is taken from. -/
theorem mergeDivergentEntries_eq (info : PgInfo O) (boundary : EVersion) (missing : PgMissing O) :
    mergeDivergentEntries log entries info boundary missing =
      (decideAll log info boundary missing entries).map
        fun ds => (applyAll ds missing, ds.flatMap calls) := by
  -- the items of the objects still to come are those of the start
  suffices h :
      ∀ (l : List (O × List (PgLogEntry O))) (m : PgMissing O) (calls : List (HandlerCall O)),
      (l.map Prod.fst).Nodup → (∀ o ∈ l.map Prod.fst, m.items.lookup o = missing.items.lookup o) →
      l.foldlM (mergeRound log info boundary) (m, calls) =
        (l.mapM (decideObject log info boundary missing)).map
        fun ds => (Decision.applyAll ds m, calls ++ ds.flatMap Decision.calls) by
    have := h (splitByObject entries) missing [] (nodup_splitByObject entries) fun _ _ => rfl
    simpa only [nil_append, mergeDivergentEntries, decideAll] using this
  intro l
  induction l with
  | nil => intro m calls _ _; simp [applyAll]
  | cons object l ih =>
    intro m calls hnodup hsame
    obtain ⟨ho, hnodup⟩ := nodup_cons.1 hnodup
    have hobj := hsame object.1 mem_cons_self
    rw [foldlM_cons, mapM_cons, mergeRound_eq, decideObject_congr hobj]
    cases hd : decideObject log info boundary missing object with
    | none => rfl
    | some d =>
      obtain ⟨hhoid, -, hitem, -⟩ := decideObject_eq_some hd
      simp only [map_some, bind_eq_bind, bind_some]
      rw [ih (d.apply m) (calls ++ d.calls) hnodup]
      · cases l.mapM (decideObject log info boundary missing) with
        | none => rfl
        | some ds => simp [applyAll]
      · intro o hmem
        have hne : o ≠ d.hoid := by
          rintro rfl
          exact ho (hhoid ▸ hmem)
        rw [lookup_apply (by rw [hhoid, hobj, hitem]), if_neg hne]
        exact hsame o (mem_cons_of_mem _ hmem)

theorem mergeDivergentEntries_nil (boundary : EVersion) (missing : PgMissing O) :
    mergeDivergentEntries log [] info boundary missing = some (missing, []) :=
  rfl

/-! ## What becomes of one object -/

variable {ds : List (Decision O)}

namespace Decision

omit [LinearOrder O] in
theorem target_calls {d : Decision O} (h : ∀ e ∈ d.entries, e.soid = d.hoid) :
    ∀ call ∈ d.calls, call.target = d.hoid := by
  have htrim : ∀ call ∈ d.entries.map HandlerCall.trim, call.target = d.hoid := by
    simp only [List.mem_map]
    rintro call ⟨e, he, rfl⟩
    exact h e he
  have hremove : ∀ call ∈ removeAndTrim d.hoid d.notInStore d.entries, call.target = d.hoid := by
    intro call hcall
    rcases mem_append.1 hcall with hcall | hcall
    · split at hcall
      · exact absurd hcall not_mem_nil
      · rw [mem_singleton.1 hcall]; rfl
    · exact htrim call hcall
  unfold calls
  cases d.kind with
  | notBackfilled => exact fun call hcall => absurd hcall not_mem_nil
  | moreRecent => exact hremove
  | created => exact hremove
  | missing => exact htrim
  | canRollback =>
    simp only [List.mem_map, List.mem_reverse]
    rintro call ⟨e, he, rfl⟩
    exact h e he
  | cannotRollback => exact hremove

omit [LinearOrder O] in
theorem hoid_ne_of_mem {d d' : Decision O} (hd' : d'.hoid ∉ ds.map hoid) (hd : d ∈ ds) :
    d.hoid ≠ d'.hoid :=
  fun h => hd' (h ▸ mem_map_of_mem hd)

/-- Acting on one decision leaves the items of the others. -/
theorem lookup_apply_of_mem {missing : PgMissing O} {d' : Decision O} (hd' : d'.hoid ∉ ds.map hoid)
    (hitem : ∀ d ∈ d' :: ds, missing.items.lookup d.hoid = d.item) :
    ∀ d ∈ ds, (d'.apply missing).items.lookup d.hoid = d.item := by
  intro d hd
  rw [lookup_apply (hitem d' mem_cons_self), if_neg (hoid_ne_of_mem hd' hd)]
  exact hitem d (mem_cons_of_mem _ hd)

/-- Only the objects of the decisions change, each to the item its own decision says. -/
theorem lookup_applyAll {missing : PgMissing O} (hnodup : (ds.map hoid).Nodup)
    (hitem : ∀ d ∈ ds, missing.items.lookup d.hoid = d.item) :
    (∀ o ∉ ds.map hoid, (applyAll ds missing).items.lookup o = missing.items.lookup o) ∧
      ∀ d ∈ ds, (applyAll ds missing).items.lookup d.hoid = d.itemAfter := by
  induction ds generalizing missing with
  | nil => exact ⟨fun _ _ => rfl, fun d hd => absurd hd not_mem_nil⟩
  | cons d' ds ih =>
    rw [map_cons, nodup_cons] at hnodup
    have happly := lookup_apply (hitem d' mem_cons_self)
    obtain ⟨hother, hown⟩ := ih hnodup.2 (lookup_apply_of_mem hnodup.1 hitem)
    refine ⟨fun o ho => ?_, fun d hd => ?_⟩
    · rw [map_cons, mem_cons, not_or] at ho
      exact (hother o ho.2).trans ((happly o).trans (if_neg ho.1))
    · rcases mem_cons.1 hd with rfl | hd
      · exact (hother d.hoid hnodup.1).trans ((happly d.hoid).trans (if_pos rfl))
      · exact hown d hd

/-- The calls about an object are those its own decision says. -/
theorem callsFor_flatMap (hnodup : (ds.map hoid).Nodup)
    (hsoid : ∀ d ∈ ds, ∀ e ∈ d.entries, e.soid = d.hoid) :
    (∀ o ∉ ds.map hoid, callsFor o (ds.flatMap calls) = []) ∧
      ∀ d ∈ ds, callsFor d.hoid (ds.flatMap calls) = d.calls := by
  induction ds with
  | nil => exact ⟨fun _ _ => rfl, fun d hd => absurd hd not_mem_nil⟩
  | cons d' ds ih =>
    rw [map_cons, nodup_cons] at hnodup
    have htarget := target_calls (hsoid d' mem_cons_self)
    obtain ⟨hother, hown⟩ := ih hnodup.2 fun d hd => hsoid d (mem_cons_of_mem d' hd)
    refine ⟨fun o ho => ?_, fun d hd => ?_⟩
    · rw [map_cons, mem_cons, not_or] at ho
      rw [flatMap_cons, callsFor_append, callsFor_of_target_ne (Ne.symm ho.1) htarget,
        hother o ho.2, append_nil]
    · rw [flatMap_cons, callsFor_append]
      rcases mem_cons.1 hd with rfl | hd
      · rw [callsFor_of_target htarget, hother d.hoid hnodup.1, append_nil]
      · rw [callsFor_of_target_ne (hoid_ne_of_mem hnodup.1 hd).symm htarget, nil_append, hown d hd]

end Decision

section Spec

variable {log : IndexedLog O} {info : PgInfo O} {boundary : EVersion} {missing : PgMissing O}
  {entries : List (PgLogEntry O)}

/-- The decisions are about the objects with divergent entries, each with all its
entries. -/
theorem decideAll_spec (h : decideAll log info boundary missing entries = some ds) :
    ds.map hoid = (splitByObject entries).map Prod.fst ∧
    (∀ d ∈ ds, d.entries = entriesOf d.hoid entries ∧ missing.items.lookup d.hoid = d.item ∧
      divergentCase log info boundary d.hoid (entriesOf d.hoid entries) d.item = some d.kind) ∧
    ∀ o, entriesOf o entries ≠ [] → ∃ d ∈ ds, d.hoid = o := by
  have h2 := Loop.forall₂_of_mapM h
  refine ⟨?_, ?_, ?_⟩
  · refine forall₂_eq_eq_eq ▸ ?_
    rw [forall₂_map_left_iff, forall₂_map_right_iff]
    exact h2.flip.imp fun _ _ hd => (decideObject_eq_some hd).1
  · intro d hd
    obtain ⟨⟨o, es⟩, hmem, hd⟩ := Loop.exists_left_of_forall₂ h2 hd
    obtain ⟨hhoid, hes, hitem, hcase⟩ := decideObject_eq_some hd
    obtain ⟨rfl, -⟩ := mem_splitByObject.1 hmem
    subst hhoid
    exact ⟨hes, hitem.symm, hitem ▸ hcase⟩
  · intro o ho
    obtain ⟨d, hd, hdec⟩ := Loop.exists_right_of_forall₂ h2 (mem_splitByObject.2 ⟨rfl, ho⟩)
    exact ⟨d, hd, (decideObject_eq_some hdec).1⟩

section

variable {missing' : PgMissing O} {calls : List (HandlerCall O)}
  (h : mergeDivergentEntries log entries info boundary missing = some (missing', calls))

include h

/-- An object without divergent entries is left alone. -/
theorem mergeDivergentEntries_of_nil (ho : entriesOf o entries = []) :
    missing'.items.lookup o = missing.items.lookup o ∧ callsFor o calls = [] := by
  rw [mergeDivergentEntries_eq] at h
  obtain ⟨ds, hds, h⟩ := of_map h
  cases h
  obtain ⟨hmap, hspec, -⟩ := decideAll_spec hds
  have hnot : o ∉ ds.map hoid := by
    rw [hmap, List.mem_map]
    rintro ⟨⟨o', es⟩, hmem, rfl⟩
    exact (mem_splitByObject.1 hmem).2 ho
  have hnodup : (ds.map hoid).Nodup := hmap ▸ nodup_splitByObject entries
  refine ⟨(lookup_applyAll hnodup fun d hd => (hspec d hd).2.1).1 o hnot,
    (callsFor_flatMap hnodup ?_).1 o hnot⟩
  intro d hd e he
  rw [(hspec d hd).1] at he
  exact (mem_entriesOf.1 he).2

/-- An object with divergent entries is left as its case says. -/
theorem mergeDivergentEntries_of_ne_nil (ho : entriesOf o entries ≠ []) :
    ∃ kind, divergentCase log info boundary o (entriesOf o entries) (missing.items.lookup o) =
        some kind ∧ missing'.items.lookup o =
        (⟨o, entriesOf o entries, kind, missing.items.lookup o⟩ : Decision O).itemAfter ∧
      callsFor o calls =
        (⟨o, entriesOf o entries, kind, missing.items.lookup o⟩ : Decision O).calls := by
  rw [mergeDivergentEntries_eq] at h
  obtain ⟨ds, hds, h⟩ := of_map h
  cases h
  obtain ⟨hmap, hspec, hex⟩ := decideAll_spec hds
  obtain ⟨d, hd, rfl⟩ := hex o ho
  have hnodup : (ds.map hoid).Nodup := hmap ▸ nodup_splitByObject entries
  obtain ⟨hentries, hitem, hcase⟩ := hspec d hd
  have heq : d = ⟨d.hoid, entriesOf d.hoid entries, d.kind, missing.items.lookup d.hoid⟩ := by
    rw [← hentries, hitem]
  refine ⟨d.kind, hitem ▸ hcase, ?_, ?_⟩
  · rw [← heq]
    exact (lookup_applyAll hnodup fun d hd => (hspec d hd).2.1).2 d hd
  · rw [← heq]
    refine (callsFor_flatMap hnodup ?_).2 d hd
    intro d hd e he
    rw [(hspec d hd).1] at he
    exact (mem_entriesOf.1 he).2

end

/-- Merging fails only where the assertions about an object fail. -/
theorem exists_mergeDivergentEntries (h : ∀ o, entriesOf o entries ≠ [] →
      (divergentCase log info boundary o (entriesOf o entries) (missing.items.lookup o)).isSome) :
    ∃ missing' calls,
      mergeDivergentEntries log entries info boundary missing = some (missing', calls) := by
  obtain ⟨ds, hds⟩ : ∃ ds, decideAll log info boundary missing entries = some ds := by
    refine Loop.exists_mapM ?_
    rintro ⟨o, es⟩ hmem
    obtain ⟨rfl, hne⟩ := mem_splitByObject.1 hmem
    rw [decideObject, isSome_map]
    exact h o hne
  exact ⟨_, _, by rw [mergeDivergentEntries_eq, hds]; rfl⟩

end Spec

end Ceph.Osd
