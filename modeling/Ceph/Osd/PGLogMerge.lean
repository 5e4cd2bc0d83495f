import Ceph.Osd.PGLogHistory

/-!
# Merging keeps log, missing set and store together

`merge_log` replaces the divergent end of a log by what the authoritative log has
there.  The store and the missing set have to follow: every object is stored at the
version the log says, or missing at that version.  The calls of the handler say what
happens to the store.

What becomes of an object is decided by its own entries, so the proof looks at one
object at a time: first at the new entries that are appended (`AppendedObject`), then
at its divergent ones (`objectOk_divergent_iff`).  Divergent entries that record an
error are taken for a creation, and they are what can go wrong.
-/

namespace Ceph.Osd

open List Option PGLog PgLog PgMissing IndexedLog Decision

variable {O : Type} [LinearOrder O]

/-! ## The store -/

/-- What a call of the handler makes of the version of its object in the store. -/
def HandlerCall.effect : HandlerCall O → Option EVersion → Option EVersion
  | .rollback e, v =>
    -- an error changed nothing, and what was created goes away
    if e.isError then v
    else if e.priorVersion = 0 ∨ e.isClone then none
    else some e.priorVersion
  | .rollforward _, v => v
  | .trim _, v => v
  | .remove _, _ => none
  | .tryStash _ _, _ => none

/-- The version of an object after calls that are about it. -/
def effects (calls : List (HandlerCall O)) (v : Option EVersion) : Option EVersion :=
  calls.foldl (fun v call => call.effect v) v

/-- The store after calls of the handler. -/
def applyCalls (stored : O → Option EVersion) (calls : List (HandlerCall O)) :
    O → Option EVersion :=
  calls.foldl (fun stored call =>
    Function.update stored call.target (call.effect (stored call.target))) stored

omit [LinearOrder O] in
@[simp] theorem effects_nil (v : Option EVersion) : effects ([] : List (HandlerCall O)) v = v := rfl

omit [LinearOrder O] in
theorem effects_append (a b : List (HandlerCall O)) (v : Option EVersion) :
    effects (a ++ b) v = effects b (effects a v) := foldl_append ..

/-- Only the calls about an object change it. -/
theorem applyCalls_eq (stored : O → Option EVersion) (calls : List (HandlerCall O)) (o : O) :
    applyCalls stored calls o = effects (callsFor o calls) (stored o) := by
  induction calls generalizing stored with
  | nil => rfl
  | cons call calls ih =>
    refine (ih _).trans ?_
    dsimp only
    by_cases ho : call.target = o
    · subst ho
      rw [Function.update_self, callsFor, callsFor, filter_cons_of_pos (by simp)]
      rfl
    · rw [Function.update_of_ne (Ne.symm ho), callsFor, callsFor,
        filter_cons_of_neg (by simpa using ho)]

section

omit [LinearOrder O]

theorem effects_of_forall {calls : List (HandlerCall O)}
    (h : ∀ call ∈ calls, ∀ v, call.effect v = v) (v : Option EVersion) : effects calls v = v := by
  induction calls with
  | nil => rfl
  | cons call calls ih =>
    change effects calls (call.effect v) = v
    rw [h call mem_cons_self]
    exact ih fun call' hcall' => h call' (mem_cons_of_mem _ hcall')

theorem effects_trim (entries : List (PgLogEntry O)) (v : Option EVersion) :
    effects (entries.map .trim) v = v := by
  refine effects_of_forall (fun call hcall v => ?_) v
  obtain ⟨e, -, rfl⟩ := mem_map.1 hcall
  rfl

theorem effects_rollForwardTo (log : IndexedLog O) (upTo : EVersion) (v : Option EVersion)
    (calls : List (HandlerCall O)) (hsub : calls ⊆ (log.rollForwardTo upTo).2) :
    effects calls v = v := by
  refine effects_of_forall (fun call hcall v => ?_) v
  obtain ⟨e, rfl⟩ := mem_rollForwardTo (hsub hcall)
  rfl

/-- An object that is not removed was not there. -/
theorem effects_removeAndTrim (o : O) {notInStore : Bool} (entries : List (PgLogEntry O))
    {v : Option EVersion} (h : notInStore → v = none) :
    effects (removeAndTrim o notInStore entries) v = none := by
  unfold removeAndTrim
  rw [effects_append, effects_trim]
  cases notInStore with
  | true => exact h rfl
  | false => rfl

/-- The oldest entry is rolled back last. -/
theorem effects_rollback {front : PgLogEntry O} {rest : List (PgLogEntry O)} (v : Option EVersion)
    (herr : front.isError = false) (hprior : front.priorVersion ≠ 0) (hclone : ¬ front.isClone) :
    effects ((front :: rest).reverse.map .rollback) v = some front.priorVersion := by
  simp [effects, HandlerCall.effect, herr, hprior, hclone]

end

/-! ## Consistency -/

/-- The object has the version it should have: it is stored at that version and not
missing, or missing at that version with the stored version as the one that is there.
An object that should not exist is neither stored nor missing. -/
def ObjectOk : Option EVersion → Option MissingItem → Option EVersion → Prop
  | some v, none, stored => stored = some v
  | some v, some item, stored =>
    item.need = v ∧ stored = if item.held = 0 then none else some item.held
  | none, none, stored => stored = none
  | none, some _, _ => False

/-- What is decided gives the object the version it should have. -/
def Decision.Settles (d : Decision O) (v stored : Option EVersion) : Prop :=
  ObjectOk v d.itemAfter (effects d.calls stored)

/-- The missing set and the store say the same as the log about all objects up to
`last_backfill`; objects without an entry have the version they had at the tail. -/
structure Consistent (base : O → Option EVersion) (log : PgLog O) (missing : PgMissing O)
    (stored : O → Option EVersion) (lastBackfill : O) : Prop where
  base_le : ∀ o v, base o = some v → v ≤ log.tail
  objectOk : ∀ o ≤ lastBackfill,
    ObjectOk (present base log.log o) (missing.items.lookup o) (stored o)

variable {missing : PgMissing O} {lastBackfill : O}

/-- Nothing is missing at a version after the head. -/
theorem Consistent.need_le {base : O → Option EVersion} {log : PgLog O}
    {stored : O → Option EVersion} (h : Consistent base log missing stored lastBackfill)
    (hist : History base log) {o : O} (ho : o ≤ lastBackfill) {item : MissingItem}
    (hitem : missing.items.lookup o = some item) :
    item.need ≤ log.head := by
  have hok := h.objectOk o ho
  rw [hitem] at hok
  cases hv : present base log.log o with
  | none => rw [hv] at hok; exact hok.elim
  | some v =>
    rw [hv] at hok
    exact hok.1 ▸ hist.present_le (List.Subset.refl _) hv

/-! ## Appending -/

section Append

variable {obase : O → Option EVersion} {olog : PgLog O} {old news pre post : List (PgLogEntry O)}
  {o : O} {e : PgLogEntry O} {item item' item'' : Option MissingItem}
  {stored stored' : Option EVersion}

/-- What appending entries makes of an object.  If it had the version it should have,
it still has; otherwise it is at least known to be missing. -/
structure AppendedObject (base : O → Option EVersion) (news : List (PgLogEntry O)) (o : O)
    (item : Option MissingItem) (stored : Option EVersion) (item' : Option MissingItem)
    (stored' : Option EVersion) : Prop where
  ok : ObjectOk (base o) item stored → ObjectOk (present base news o) item' stored'
  unchanged : newest news o = none → item' = item ∧ stored' = stored
  updated : ∀ n, newest news o = some n → n.isUpdate → item'.map MissingItem.need = some n.version
  deleted : ∀ n, newest news o = some n → ¬ n.isUpdate → item' = none ∧ stored' = none

theorem AppendedObject.nil (base : O → Option EVersion) (o : O) (item : Option MissingItem)
    (stored : Option EVersion) : AppendedObject base [] o item stored item stored :=
  ⟨id, fun _ => ⟨rfl, rfl⟩, nofun, nofun⟩

/-- Errors and entries of other objects change nothing. -/
theorem AppendedObject.concat_other {base : O → Option EVersion}
    (h : AppendedObject base pre o item stored item' stored')
    (he : ¬ (e.soid = o ∧ ¬ e.isError)) :
    AppendedObject base (pre ++ [e]) o item stored item' stored' := by
  have hnewest : newest (pre ++ [e]) o = newest pre o := by rw [newest_concat, if_neg he]
  refine ⟨?_, hnewest ▸ h.unchanged, hnewest ▸ h.updated, hnewest ▸ h.deleted⟩
  rw [present_concat, if_neg he]
  exact h.ok

/-- An update of an object that has the version the entry names. -/
theorem ObjectOk.update (hok : ObjectOk (present obase pre e.soid) item stored)
    (h : History obase olog) (hlog : olog.log = pre ++ e :: post) (herr : e.isError = false)
    {i : MissingItem} (hi : nextItem e item = some i) :
    ObjectOk (some e.version) (some i) stored := by
  refine ⟨nextItem_need hi, ?_⟩
  unfold nextItem at hi
  rcases h.prior_or_created hlog herr with ⟨hv, hcr⟩ | ⟨hv, hprior, hclone⟩
  · cases item with
    | some old => rw [hv] at hok; exact hok.elim
    | none =>
      rw [hv] at hok
      simp only [if_pos hcr, some.injEq] at hi
      subst hi
      exact hok
  · have hnot : ¬ (e.priorVersion = 0 ∨ e.isClone) := not_or.2 ⟨hprior, hclone⟩
    rw [hv] at hok
    cases item with
    | some old =>
      simp only [if_neg hnot, some.injEq] at hi
      subst hi
      exact hok.2
    | none =>
      simp only [if_neg hnot] at hi
      obtain ⟨-, hi⟩ := of_assert hi
      cases hi
      rwa [if_neg hprior]

/-- One event of the object. -/
theorem AppendedObject.concat (h : History obase olog) (hlog : olog.log = (old ++ pre) ++ e :: post)
    (hap : AppendedObject (present obase old) pre o item stored item' stored')
    (he : e.soid = o) (herr : e.isError = false) (hneed : ∀ i ∈ item', i.need < e.version)
    (hevent : eventItem e item' = some item'') :
    AppendedObject (present obase old) (pre ++ [e]) o item stored item''
      (if e.isDelete then none else stored') := by
  subst he
  have hown : e.soid = e.soid ∧ ¬ e.isError := ⟨rfl, by simp [herr]⟩
  have hnewest : newest (pre ++ [e]) e.soid = some e := by rw [newest_concat, if_pos hown]
  have hpresent : present (present obase old) (pre ++ [e]) e.soid =
      if e.isUpdate then some e.version else none := by rw [present_concat, if_pos hown]
  cases hu : e.isUpdate with
  | true =>
    have hdel : e.isDelete = false := by
      cases hd : e.isDelete with
      | false => rfl
      | true => rw [PgLogEntry.isUpdate_of_isDelete hd] at hu; cases hu
    rw [eventItem, if_pos hu] at hevent
    obtain ⟨i, hi, rfl⟩ := of_map hevent
    refine ⟨fun hok => ?_, fun hn => ?_, fun n hn _ => ?_, fun n hn hnot => ?_⟩
    · have hok := hap.ok hok
      rw [← present_append] at hok
      rw [hpresent, hu, hdel]
      exact hok.update h hlog herr hi
    · rw [hnewest] at hn; cases hn
    · rw [hnewest] at hn; cases hn
      exact congrArg some (nextItem_need hi)
    · rw [hnewest] at hn; cases hn
      exact absurd hu hnot
  | false =>
    have hdel := PgLogEntry.isDelete_of_not_isUpdate herr hu
    rw [eventItem, if_neg (by simp [hu]), if_pos hdel, some_inj] at hevent
    have hnone : item'' = none := by
      rw [← hevent, filter_eq_none_iff]
      intro i hi
      simpa using (hneed i hi).le
    rw [hnone, if_pos hdel]
    refine ⟨fun _ => ?_, fun hn => ?_, fun n hn hupd => ?_, fun n hn _ => ⟨rfl, rfl⟩⟩
    · rw [hpresent, hu]; rfl
    · rw [hnewest] at hn; cases hn
    · rw [hnewest] at hn; cases hn
      rw [hu] at hupd; cases hupd

omit [LinearOrder O] in
theorem eventItem_isSome (h : ¬ e.isBacklog) (item : Option MissingItem) :
    (eventItem e item).isSome := by
  unfold eventItem nextItem
  split
  · cases item with
    | some i => dsimp only; split <;> rfl
    | none =>
      dsimp only
      split
      · rfl
      · rw [assert_bind h]; rfl
  · split <;> rfl

variable {state : IndexedLog O × PgMissing O × List (HandlerCall O)}

theorem exists_appendLogEntry {mr : Bool} (hlt : state.1.head.Precedes e.version)
    (hb : ¬ e.isBacklog) :
    ∃ state', appendLogEntry lastBackfill mr state e = some state' := by
  obtain ⟨log', hadd⟩ := exists_add hlt.1 hlt.2
  have hevent : (state.2.1.addNextEvent e).isSome := by
    rw [addNextEvent_isSome]
    exact eventItem_isSome hb _
  obtain ⟨missing', hmissing⟩ := isSome_iff_exists.1 hevent
  unfold appendLogEntry
  dsimp only at hadd hmissing ⊢
  rw [hadd]
  simp only [bind_eq_bind, bind_some, hmissing]
  split <;> exact ⟨_, rfl⟩

omit [LinearOrder O] in
theorem effects_appendCalls (v : Option EVersion) :
    effects (appendCalls false e) v = if e.isDelete then none else v := by
  unfold appendCalls
  cases e.isDelete <;> rfl

omit [LinearOrder O] in
/-- What an event leaves missing was missing, or is the event. -/
theorem need_of_eventItem {i : MissingItem} (h : eventItem e item = some (some i)) :
    item = some i ∨ i.need = e.version := by
  unfold eventItem at h
  split at h
  · obtain ⟨i', hi', h⟩ := of_map h
    cases h
    exact .inr (nextItem_need hi')
  · split at h
    · exact .inl (filter_eq_some_iff.1 (some_inj.1 h)).1
    · exact .inl (some_inj.1 h)

/-- The state when the entries `pre` have been appended: the entries still to come are
after the head and after everything that is missing. -/
structure Appending (base : O → Option EVersion) (news : List (PgLogEntry O)) (lastBackfill : O)
    (missing : PgMissing O) (pre : List (PgLogEntry O))
    (state : IndexedLog O × PgMissing O × List (HandlerCall O)) : Prop where
  come : ∀ post, news = pre ++ post → ∀ e ∈ post, state.1.head.Precedes e.version ∧
    ∀ o ≤ lastBackfill, ∀ i ∈ state.2.1.items.lookup o, i.need < e.version
  objects : ∀ (stored : O → Option EVersion), ∀ o ≤ lastBackfill,
    AppendedObject base pre o (missing.items.lookup o) (stored o)
      (state.2.1.items.lookup o) (effects (callsFor o state.2.2) (stored o))

theorem Appending.step {p : PgLogEntry O} (h : History obase olog) (hlog : olog.log = old ++ news)
    (hnews : news = pre ++ p :: post)
    (hinv : Appending (present obase old) news lastBackfill missing pre state) :
    ∃ state', appendLogEntry lastBackfill false state p = some state' ∧
      Appending (present obase old) news lastBackfill missing (pre ++ [p]) state' := by
  obtain ⟨hcome, hobj⟩ := hinv
  have hsorted : news.Pairwise fun a b => a.version.Precedes b.version := by
    have := h.sorted
    rw [hlog] at this
    exact (pairwise_append.1 this).2.1
  have hp : p ∈ olog.log := by rw [hlog, hnews]; simp
  have hlog' : olog.log = (old ++ pre) ++ p :: post := by rw [hlog, hnews, append_assoc]
  obtain ⟨hlt, hneed'⟩ := hcome (p :: post) hnews p mem_cons_self
  obtain ⟨state', hstep⟩ : ∃ state', appendLogEntry lastBackfill false state p = some state' :=
    exists_appendLogEntry hlt (h.not_backlog p hp)
  obtain ⟨hadd, hcount, hnot⟩ := appendLogEntry_eq_some hstep
  obtain ⟨-, -, -, -, hheadEq, -⟩ := add_eq_some hadd
  have hafter : ∀ post', news = pre ++ [p] ++ post' →
      ∀ e ∈ post', p.version.Precedes e.version := by
    intro post' hpost' e he
    rw [hpost', append_assoc, pairwise_append] at hsorted
    exact (pairwise_append.1 hsorted.2.1).2.2 p (mem_singleton_self p) e he
  refine ⟨state', hstep, ⟨fun post' hpost' e he => ⟨?_, fun o ho i hi => ?_⟩,
    fun stored o ho => ?_⟩⟩
  · rw [hheadEq]
    exact hafter post' hpost' e he
  · have hold : ∀ i ∈ state.2.1.items.lookup o, i.need < e.version := fun i hi =>
      (hcome ([p] ++ post') (by rw [hpost', append_assoc]) e (mem_append_right _ he)).2 o ho i hi
    by_cases hc : Counts lastBackfill p
    · by_cases hne : o = p.soid
      · subst hne
        have hevent := lookup_addNextEvent (hcount hc).1
        rw [mem_def.1 hi] at hevent
        rcases need_of_eventItem hevent with hsame | hnew
        · exact hold i hsame
        · exact hnew ▸ (hafter post' hpost' e he).1
      · rw [lookup_addNextEvent_of_ne (hcount hc).1 hne] at hi
        exact hold i hi
    · rw [(hnot hc).1] at hi
      exact hold i hi
  · by_cases hc : Counts lastBackfill p
    · obtain ⟨hmissing, hcalls⟩ := hcount hc
      by_cases hne : p.soid = o
      · subst hne
        rw [hcalls, callsFor_append, callsFor_of_target target_appendCalls, effects_append,
          effects_appendCalls]
        exact .concat h hlog' (hobj stored p.soid ho) rfl (by simpa using hc.2)
          (fun i hi => hneed' p.soid ho i hi) (lookup_addNextEvent hmissing)
      · rw [lookup_addNextEvent_of_ne hmissing (Ne.symm hne), hcalls, callsFor_append,
          callsFor_of_target_ne hne target_appendCalls, append_nil]
        exact (hobj stored o ho).concat_other fun h => hne h.1
    · rw [(hnot hc).1, (hnot hc).2]
      refine (hobj stored o ho).concat_other ?_
      rintro ⟨rfl, herr⟩
      exact hc ⟨ho, herr⟩

/-- **Appending the end of a history.**  It succeeds, and every object is left as its
own entries say. -/
theorem exists_appendLogEntriesUpdateMissing {log : IndexedLog O} (h : History obase olog)
    (hlog : olog.log = old ++ news) (hhead : ∀ e ∈ news, log.head.Precedes e.version)
    (hneed : ∀ o ≤ lastBackfill, ∀ i ∈ missing.items.lookup o, ∀ e ∈ news, i.need < e.version) :
    ∃ log' missing' calls, appendLogEntriesUpdateMissing lastBackfill news false log missing =
        some (log', missing', calls) ∧ ∀ (stored : O → Option EVersion), ∀ o ≤ lastBackfill,
        AppendedObject (present obase old) news o (missing.items.lookup o) (stored o)
          (missing'.items.lookup o) (effects (callsFor o calls) (stored o)) := by
  have hinit : Appending (present obase old) news lastBackfill missing [] (log, missing, []) := by
    refine ⟨fun post hpost e he => ?_, fun stored o _ => .nil ..⟩
    subst hpost
    exact ⟨hhead e he, fun o ho i hi => hneed o ho i hi e he⟩
  obtain ⟨⟨log', missing', calls⟩, hrun, hinv⟩ :=
    Loop.foldlM_invariant (Appending (present obase old) news lastBackfill missing) hinit
      fun pre p post state hnews hinv => hinv.step h hlog hnews
  refine ⟨log', missing', calls, ?_, hinv.objects⟩
  unfold appendLogEntriesUpdateMissing
  rw [assert_bind_eq_some]
  exact ⟨fun e he => (hhead e (mem_of_mem_head? he)).1, hrun⟩

end Append

/-! ## Divergent entries -/

section Divergent

variable {base : O → Option EVersion} {log : PgLog O} {kept div news rest : List (PgLogEntry O)}
  {o : O} {front : PgLogEntry O} {item item' : Option MissingItem}
  {stored stored' : Option EVersion} {ilog : IndexedLog O} {info : PgInfo O} {boundary : EVersion}

/-- The divergent entries of an object that record errors do no harm: none of them is
directly followed by an entry with a prior version, and if the first one is an error,
the object does not exist at the divergence point or is written again after it. -/
structure HarmlessErrors (v : Option EVersion) (entries news : List (PgLogEntry O)) (o : O) :
    Prop where
  followed : ∀ x y, [x, y] <:+: entries → x.isError → y.priorVersion = 0
  first : ∀ e ∈ entries.head?, e.isError → v = none ∨ ∃ n ∈ news, n.soid = o ∧ ¬ n.isError

-- the object had the version it should have, and the new entries have been appended
variable (h : History base log) (hlog : log.log = kept ++ div)
  (hentries : entriesOf o div = front :: rest) (hok : ObjectOk (present base log.log o) item stored)
  (hap : AppendedObject (present base kept) news o item stored item' stored')

include hlog hentries in
theorem mem_of_entriesOf_eq_cons : front ∈ log.log := by
  rw [hlog]
  exact mem_append_right _
    (mem_entriesOf.1 (hentries ▸ mem_cons_self .. : front ∈ entriesOf o div)).1

include hlog hentries hok hap

/-- The object is not in the store if it is said not to be. -/
theorem stored_of_notInStore {kind : DivergentCase}
    (h : (⟨o, front :: rest, kind, item'⟩ : Decision O).notInStore) : stored' = none := by
  unfold notInStore at h
  rw [Bool.and_eq_true, isNone_iff_eq_none] at h
  obtain ⟨hitem, hdel⟩ := h
  dsimp only at hitem hdel
  cases hn : newest news o with
  | some n =>
    refine (hap.deleted n hn fun hu => ?_).2
    have := hap.updated n hn hu
    rw [hitem] at this
    cases this
  | none =>
    obtain ⟨hsame, hstored⟩ := hap.unchanged hn
    have hne : front :: rest ≠ [] := cons_ne_nil _ _
    have hlast : (entriesOf o log.log).getLast? = some ((front :: rest).getLast hne) := by
      rw [hlog, entriesOf_append, hentries, List.getLast?_append_of_ne_nil _ hne,
        List.getLast?_eq_some_getLast hne]
    rw [History.present_of_last_delete hlast hdel, ← hsame, hitem] at hok
    exact hstored.trans hok

include h

/-- An object that is written again. -/
theorem objectOk_moreRecent (hnew : ∀ n, newest news o = some n → log.head < n.version)
    (ho : o ≤ info.lastBackfill) (hrecent : moreRecent ilog o front = newest news o)
    (hcheck : checkEntries o none (front :: rest) = some ()) {n : PgLogEntry O}
    (hn : newest news o = some n) :
    divergentCase ilog info boundary o (front :: rest) item' = some .moreRecent ∧
      (⟨o, front :: rest, .moreRecent, item'⟩ : Decision O).Settles
        (present (present base kept) news o) stored' := by
  have hback : ((front :: rest).getLast (cons_ne_nil _ _)).version < n.version := by
    have hmem : (front :: rest).getLast (cons_ne_nil _ _) ∈ entriesOf o div := by
      rw [hentries]
      exact getLast_mem _
    refine ((h.le_head _ ?_).1).trans_lt (hnew n hn)
    rw [hlog]
    exact mem_append_right _ (mem_entriesOf.1 hmem).1
  have hstored :
      effects (⟨o, front :: rest, .moreRecent, item'⟩ : Decision O).calls stored' = none :=
    effects_removeAndTrim o _ (stored_of_notInStore hlog hentries hok hap)
  have hpresent : present (present base kept) news o =
      if n.isUpdate then some n.version else none := by rw [present, hn]
  rw [divergentCase_eq_some, Settles, hstored, hpresent]
  cases hu : n.isUpdate with
  | true =>
    have hneed := hap.updated n hn hu
    refine ⟨.inr ⟨ho, front, rest, rfl, hcheck, .inl ⟨n, hrecent.trans hn, hback, ?_, rfl⟩⟩, ?_⟩
    · rw [hneed, hu, if_pos rfl]
    · obtain ⟨i, rfl, hi⟩ := of_map hneed
      exact ⟨hi, rfl⟩
  | false =>
    have hitem := (hap.deleted n hn (by simp [hu])).1
    subst hitem
    refine ⟨.inr ⟨ho, front, rest, rfl, hcheck, .inl ⟨n, hrecent.trans hn, hback, ?_, rfl⟩⟩, rfl⟩
    rw [hu]
    rfl

/-- An object that is not, with a first divergent entry that is not an error or comes
before the object existed. -/
theorem objectOk_oldCase (hn : newest news o = none)
    (hfirst : front.isError → present base kept o = none) :
    (⟨o, front :: rest, oldCase boundary front rest item', item'⟩ : Decision O).Settles
      (present base kept o) stored' := by
  have hgone : ∀ kind, (⟨o, front :: rest, kind, item'⟩ : Decision O).notInStore → stored' = none :=
    fun _ => stored_of_notInStore hlog hentries hok hap
  obtain ⟨rfl, rfl⟩ := hap.unchanged hn
  have hcases : (present base kept o = none ∧ (front.priorVersion = 0 ∨ front.isClone)) ∨
      (present base kept o = some front.priorVersion ∧ front.isError = false ∧
        front.priorVersion ≠ 0 ∧ ¬ front.isClone) := by
    cases herr : front.isError with
    | true =>
      have hmem := mem_of_entriesOf_eq_cons hlog hentries
      exact .inl ⟨hfirst herr, .inl (h.error_prior front hmem herr)⟩
    | false =>
      rcases h.front_cases hlog hentries herr with hcr | ⟨hv, hprior, hclone⟩
      · exact .inl hcr
      · exact .inr ⟨hv, rfl, hprior, hclone⟩
  rcases hcases with ⟨hv, hcr⟩ | ⟨hv, herr, hprior, hclone⟩
  · -- 2) the object was created
    rw [hv, oldCase, if_pos hcr]
    exact effects_removeAndTrim o _ (hgone _)
  have hnot : ¬ (front.priorVersion = 0 ∨ front.isClone) := not_or.2 ⟨hprior, hclone⟩
  rw [hv, oldCase, if_neg hnot]
  cases item' with
  | some i =>
    -- 3) it is missing, and stays as it is in the store
    have hstored : stored' = if i.held = 0 then none else some i.held := by
      cases hp : present base log.log o with
      | none => rw [hp] at hok; exact hok.elim
      | some v => rw [hp] at hok; exact hok.2
    simp only [Settles, isSome_some, if_true, calls, effects_trim, itemAfter,
      prior, List.head?_cons, map_some, getD_some, some_inj]
    by_cases hheld : i.held = front.priorVersion
    · rw [if_pos hheld, hstored, hheld, if_neg hprior]
      exact rfl
    · rw [if_neg hheld]
      exact ⟨rfl, hstored⟩
  | none =>
    by_cases hroll : Rollable boundary (front :: rest)
    · -- 4) it is rolled back
      rw [if_pos hroll]
      exact effects_rollback stored' herr hprior hclone
    · -- 5) it is removed
      rw [if_neg hroll]
      exact ⟨rfl, effects_removeAndTrim o _ (hgone _)⟩

/-- **What becomes of an object with divergent entries.**  It ends up with the version
it should have, unless errors among its divergent entries do harm. -/
theorem objectOk_divergent_iff (hnew : ∀ n, newest news o = some n → log.head < n.version)
    (ho : o ≤ info.lastBackfill) (hrecent : moreRecent ilog o front = newest news o) :
    (∃ kind, divergentCase ilog info boundary o (front :: rest) item' = some kind ∧
      (⟨o, front :: rest, kind, item'⟩ : Decision O).Settles
        (present (present base kept) news o) stored') ↔
      HarmlessErrors (present base kept o) (front :: rest) news o := by
  have hcheck := hentries ▸ h.checkEntries_iff hlog
  have hwritten : (∃ n ∈ news, n.soid = o ∧ ¬ n.isError) ↔ newest news o ≠ none := by
    rw [Ne, newest_eq_none_iff]
    simp
  constructor
  · rintro ⟨kind, hkind, hafter⟩
    rcases divergentCase_eq_some.1 hkind with ⟨hlt, -⟩ | ⟨-, front', rest', hcons, hc, hcase⟩
    · exact absurd hlt ho.not_gt
    cases hcons
    refine ⟨hcheck.1 hc, fun e he herr => ?_⟩
    cases mem_some_iff.1 he
    rw [hwritten]
    by_contra hcon
    obtain ⟨hv, hn⟩ := not_or.1 hcon
    rw [not_not] at hn
    have hmem := mem_of_entriesOf_eq_cons hlog hentries
    rcases hcase with ⟨obj, hobj, -⟩ | ⟨-, rfl⟩
    · rw [hrecent, hn] at hobj
      cases hobj
    -- the error is taken for a creation, and the object is removed
    rw [present_eq_base hn, oldCase, if_pos (.inl (h.error_prior front hmem herr))] at hafter
    have hgone : effects (⟨o, front :: rest, .created, item'⟩ : Decision O).calls stored' = none :=
      effects_removeAndTrim o _ (stored_of_notInStore hlog hentries hok hap)
    rw [Settles, hgone] at hafter
    cases hp : present base kept o with
    | none => exact hv hp
    | some v => rw [hp] at hafter; cases hafter
  · intro hharm
    have hc := hcheck.2 hharm.followed
    cases hn : newest news o with
    | some n => exact ⟨_, objectOk_moreRecent h hlog hentries hok hap hnew ho hrecent hc hn⟩
    | none =>
      refine ⟨oldCase boundary front rest item', ?_, ?_⟩
      · exact divergentCase_eq_some.2
          (.inr ⟨ho, front, rest, rfl, hc, .inr ⟨hrecent.trans hn, rfl⟩⟩)
      · rw [present_eq_base hn]
        refine objectOk_oldCase h hlog hentries hok hap hn fun herr => ?_
        refine (hharm.first front rfl herr).resolve_right fun hw => ?_
        exact hwritten.1 hw hn

end Divergent

/-! ## `merge_log` up to the divergent entries -/

/-- `merge_log` up to `_merge_divergent_entries`, and how it finishes. -/
structure MergeSetup (pglog : PGLog O) (info : PgInfo O) (olog : PgLog O)
    (obase : O → Option EVersion) (d : EVersion) where
  log : IndexedLog O
  info' : PgInfo O
  boundary : EVersion
  missing : PgMissing O
  earlier : List (HandlerCall O)
  finish : PgMissing O × List (HandlerCall O) → Merged O
  mergeLog_eq : pglog.mergeLog olog info =
    (mergeDivergentEntries log (pglog.log.after d) info' boundary missing).map finish
  lastBackfill_eq : info'.lastBackfill = info.lastBackfill
  objects_eq : ∀ o, log.objects o =
    newest ((taken pglog.log.toPgLog olog ++ pglog.log.upTo d) ++ olog.after d) o
  appended : ∀ (stored : O → Option EVersion), ∀ o ≤ info.lastBackfill,
    AppendedObject (present obase (olog.upTo d)) (olog.after d) o (pglog.missing.items.lookup o)
      (stored o) (missing.items.lookup o) (effects (callsFor o earlier) (stored o))
  missing_finish : ∀ x, (finish x).pglog.missing = x.1
  calls_finish : ∀ x, (finish x).calls = earlier ++ x.2
  log_finish : ∀ x, (finish x).pglog.log.log =
    (taken pglog.log.toPgLog olog ++ pglog.log.upTo d) ++ olog.after d
  head_finish : ∀ x, (finish x).pglog.log.head = olog.head
  tail_finish : ∀ x, (finish x).pglog.log.tail = min olog.tail pglog.log.tail

omit [LinearOrder O] in
theorem option_eq_map {α β : Type*} {a : Option β} {b : Option α} {f : α → β}
    (h : ∀ r, a = some r ↔ ∃ x, b = some x ∧ r = f x) : a = b.map f := by
  ext r
  rw [h, map_eq_some_iff]
  exact exists_congr fun x => and_congr_right fun _ => eq_comm

section Setup

variable {base obase : O → Option EVersion} {pglog : PGLog O} {info : PgInfo O} {olog : PgLog O}
  {d cut : EVersion}

/-- A good cut can be made after the tail was extended, and takes off what is after the
divergence point. -/
theorem DivergeAt.cut_extended {log : PgLog O} (hdiv : DivergeAt base obase log olog d)
    (hwf : log.Wf) (howf : olog.Wf) (hgood : GoodCut log olog d cut) :
    (log.extended olog).CutOk cut ∧ (log.extended olog).divergent cut = log.after d ∧
      (log.extended olog).kept cut = taken log olog ++ log.upTo d := by
  have hok : (log.extended olog).CutOk cut := by
    refine ⟨(min_le_left _ _).trans hgood.otail_le, fun p hp => ?_⟩
    have hnum : cut.version < p.version.version := by simpa using mem_rtakeWhile_imp hp
    have hmem : p ∈ taken log olog ++ log.log := (rtakeWhile_suffix _ _).subset hp
    rcases mem_append.1 hmem with hmem | hmem
    · -- what extends the tail is not after it
      obtain ⟨htail, hmem, hle⟩ := (mem_taken howf).1 hmem
      have hnum' := ((hdiv.tail_cuts p hmem).resolve_right fun h => absurd hle h.1.not_ge).2
      have := hgood.tail_num_le htail
      omega
    · exact hgood.le.1.trans_lt ((hgood.lt_iff p hmem).1 hnum)
  refine ⟨hok, ?_, ?_⟩
  · rw [divergent_extended hgood.tail_le hok, divergent_eq_after hwf hgood.lt_iff]
  · rw [kept_extended hgood.tail_le hok, kept_eq_upTo hwf hgood.lt_iff]

omit [LinearOrder O] in
theorem PgLog.Wf.after_head {log : PgLog O} (hwf : log.Wf) : log.after log.head = [] := by
  refine eq_nil_iff_forall_not_mem.2 fun e he => ?_
  obtain ⟨hmem, hlt⟩ := mem_after.1 he
  exact absurd (hwf.le_head e hmem).1 hlt.not_ge

/-- The assertions at the start of `merge_log` hold. -/
theorem DivergeAt.overlap {log : PgLog O} (hdiv : DivergeAt base obase log olog d) :
    (¬ log.null ∨ olog.tail = 0) ∧ olog.tail ≤ log.head ∧ log.tail ≤ olog.head := by
  have hle : olog.tail ≤ log.head := hdiv.otail_le.1.trans hdiv.le_head
  refine ⟨?_, hle, ?_⟩
  · by_cases hnull : log.null
    · right
      unfold null at hnull
      have hzero : log.head ≤ 0 := by
        rw [EVersion.le_iff]
        simp only [Bool.and_eq_true, decide_eq_true_eq] at hnull
        omega
      exact EVersion.eq_zero_of_le (hle.trans hzero)
    · exact .inl hnull
  · exact hdiv.tail_le.1.trans hdiv.le_ohead

section

variable (h : pglog.log.Wf) (ho : olog.Wf) (hdiv : DivergeAt base obase pglog.log.toPgLog olog d)
  (hnewer : NewerAfter pglog.log.toPgLog olog d)

include h ho hdiv hnewer

theorem mergeSetup_behind (hlt : olog.head < pglog.log.head) :
    Nonempty (MergeSetup pglog info olog obase d) := by
  have hlog := mergeTail_log ⟨pglog, info, [], false⟩ olog
  obtain ⟨hmissing, hlb, -⟩ := mergeTail_keeps ⟨pglog, info, [], false⟩ olog
  obtain ⟨hnull, hover⟩ := hdiv.overlap
  obtain ⟨hok, hdivergent, hkept⟩ := hdiv.cut_extended h ho (hdiv.goodCut_head hnewer hlt.le)
  have hafter := hdiv.after_eq_nil hnewer ho hlt.le
  generalize hm : (mergeTail ⟨pglog, info, [], false⟩ olog).1 = m at hlog hmissing hlb
  refine ⟨
    { log := ofLog (m.pglog.log.rewound olog.head)
      info' := m.info.rewoundTo olog.head
      boundary := min olog.head m.pglog.log.canRollbackTo
      missing := pglog.missing
      earlier := []
      finish := fun x =>
        { pglog := { m.pglog.rewoundTo olog.head with missing := x.1 }
          info := m.info.rewoundTo olog.head, calls := x.2, dirty := true }
      mergeLog_eq := option_eq_map fun r => ?_
      lastBackfill_eq := by rw [PgInfo.lastBackfill_rewoundTo, hlb]
      objects_eq := fun o => ?_
      appended := fun stored o _ => by rw [hafter]; exact .nil ..
      missing_finish := fun _ => rfl
      calls_finish := fun _ => rfl
      log_finish := fun _ => ?_
      head_finish := fun _ => ?_
      tail_finish := fun _ => ?_ }⟩
  · rw [mergeLog_eq_some, hm]
    simp only [hlt, hlt.ne, hlt.not_gt, false_and, or_false, true_and]
    rw [and_iff_right hnull, and_iff_right hover, rewindDivergentLog_eq_some, hlog,
      hdivergent, hmissing, and_iff_right hok]
    constructor
    · rintro ⟨missing, calls, hmerge, rfl⟩
      exact ⟨(missing, calls), hmerge, rfl⟩
    · rintro ⟨⟨missing, calls⟩, hmerge, rfl⟩
      exact ⟨missing, calls, hmerge, rfl⟩
  · rw [indexed_ofLog, hafter, append_nil, ← hkept, ← hlog]
    rfl
  · rw [log_rewoundTo, hafter, append_nil, ← hkept, ← hlog]
    rfl
  · rw [log_rewoundTo]
    rfl
  · rw [log_rewoundTo]
    exact congrArg PgLog.tail hlog

theorem mergeSetup_equal (heq : olog.head = pglog.log.head) :
    Nonempty (MergeSetup pglog info olog obase d) := by
  have hlog := mergeTail_log ⟨pglog, info, [], false⟩ olog
  obtain ⟨hmissing, -, hcalls⟩ := mergeTail_keeps ⟨pglog, info, [], false⟩ olog
  obtain ⟨hnull, hover⟩ := hdiv.overlap
  have hafter := hdiv.after_eq_nil hnewer ho heq.le
  have hafter' : pglog.log.after d = [] := by
    rw [hdiv.eq_head hnewer heq.le, heq]
    exact h.after_head
  have hwhole : pglog.log.upTo d = pglog.log.log := by
    rw [← h.upTo_append_after d, hafter', append_nil]
  generalize hm : (mergeTail ⟨pglog, info, [], false⟩ olog).1 = m at hlog hmissing hcalls
  refine ⟨
    { log := ofLog m.pglog.log.toPgLog
      info' := info
      boundary := 0
      missing := pglog.missing
      earlier := []
      finish := fun x => { m with pglog := { m.pglog with missing := x.1 }, calls := x.2 }
      mergeLog_eq := option_eq_map fun r => ?_
      lastBackfill_eq := rfl
      objects_eq := fun o => ?_
      appended := fun stored o _ => by rw [hafter]; exact .nil ..
      missing_finish := fun _ => rfl
      calls_finish := fun _ => rfl
      log_finish := fun _ => ?_
      head_finish := fun _ => (congrArg head hlog).trans heq.symm
      tail_finish := fun _ => congrArg PgLog.tail hlog }⟩
  · rw [mergeLog_eq_some, hm, hafter', mergeDivergentEntries_nil]
    simp only [heq, lt_irrefl, false_and, or_false, false_or, true_and]
    rw [and_iff_right hnull, and_iff_right (heq ▸ hover)]
    simp only [some.injEq, exists_eq_left']
    dsimp only at hmissing hcalls
    rw [← hmissing, ← hcalls]
  · rw [indexed_ofLog, hafter, append_nil, hwhole]
    exact congrArg (fun l => newest l o) (congrArg PgLog.log hlog)
  · rw [hafter, append_nil, hwhole]
    exact congrArg PgLog.log hlog

end

section

variable (h : pglog.log.Wf) (ho : History obase olog)
  (hdiv : DivergeAt base obase pglog.log.toPgLog olog d)
  (hnewer : NewerAfter pglog.log.toPgLog olog d)
  (hneed : ∀ o ≤ info.lastBackfill, ∀ i ∈ pglog.missing.items.lookup o, i.need ≤ pglog.log.head)

include h ho hdiv hnewer hneed

theorem mergeSetup_ahead (hlt : pglog.log.head < olog.head) :
    Nonempty (MergeSetup pglog info olog obase d) := by
  have hlog := mergeTail_log ⟨pglog, info, [], false⟩ olog
  obtain ⟨hmissing, hlb, hcalls⟩ := mergeTail_keeps ⟨pglog, info, [], false⟩ olog
  obtain ⟨hnull, hover⟩ := hdiv.overlap
  have hgood := hdiv.goodCut_cutPoint hnewer h ho.toWf
  obtain ⟨hok, hdivergent, hkept⟩ := hdiv.cut_extended h ho.toWf hgood
  have hpoint := cutPoint_mergeTail info olog h.tail_le.1
  have hnews := hdiv.new_eq_after hnewer ho.toWf
  have hohead : (mergeTail ⟨pglog, info, [], false⟩ olog).2.head = olog.head := by
    rw [mergeTail_olog]
  obtain ⟨cut, hcut⟩ : ∃ cut, cut = (cutPoint pglog.log.head pglog.log.tail olog).1 := ⟨_, rfl⟩
  rw [← hcut] at hgood hok hdivergent hkept
  generalize hm : mergeTail ⟨pglog, info, [], false⟩ olog = mt
    at hlog hmissing hlb hcalls hpoint hohead
  obtain ⟨m, olog'⟩ := mt
  have hprec : ∀ e ∈ olog.after d, cut.Precedes e.version := by
    intro e he
    obtain ⟨hmem, hd⟩ := mem_after.1 he
    have hnum := (hdiv.ocuts.lt_iff hmem).2 hd
    exact ⟨hgood.le.1.trans_lt hd, hgood.le.2.trans_lt hnum⟩
  have hneed' : ∀ o ≤ info.lastBackfill, ∀ i ∈ pglog.missing.items.lookup o,
      ∀ e ∈ olog.after d, i.need < e.version := by
    intro o hle i hi e he
    obtain ⟨hmem, hd⟩ := mem_after.1 he
    exact (hneed o hle i hi).trans_lt (hnewer e hmem hd)
  obtain ⟨rolled, hrolled⟩ : ∃ rolled, rolled =
      (ofLog (m.pglog.log.rewound cut)).rollForwardTo cut := ⟨_, rfl⟩
  have hhead : rolled.1.head = cut := by rw [hrolled]; rfl
  obtain ⟨log', missing', appended, happend, hobjects⟩ := exists_appendLogEntriesUpdateMissing ho
    (ho.toWf.upTo_append_after d).symm (hhead.symm ▸ hprec) hneed'
  rw [← hlb] at happend
  have hlogs := appendLogEntriesUpdateMissing_log happend
  have hentries : rolled.1.log = taken pglog.log.toPgLog olog ++ pglog.log.upTo d := by
    rw [hrolled, ← hkept, ← hlog]
    rfl
  refine ⟨
    { log := log'
      info' := m.info
      boundary := log'.canRollbackTo
      missing := missing'
      earlier := rolled.2 ++ appended
      finish := fun x =>
        { pglog :=
            { m.pglog.markDirtyFrom cut with
              log := ({ log' with head := olog.head } : IndexedLog O).skipCanRollbackToToHead
              missing := x.1 }
          info := { m.info with lastUpdate := olog.head }
          calls := rolled.2 ++ appended ++ x.2
          dirty := true }
      mergeLog_eq := option_eq_map fun r => ?_
      lastBackfill_eq := hlb
      objects_eq := fun o => ?_
      appended := fun stored o hle => ?_
      missing_finish := fun _ => rfl
      calls_finish := fun _ => rfl
      log_finish := fun _ => hlogs.log_eq.trans (by rw [hentries])
      head_finish := fun _ => rfl
      tail_finish := fun _ => ?_ }⟩
  · rw [mergeLog_eq_some, hm]
    simp only [hlt, hlt.ne', hlt.not_gt, false_and, false_or, true_and]
    rw [and_iff_right hnull, and_iff_right hover, mergeHead_eq_some, hpoint, ← hcut, hnews,
      hmissing, hcalls, hohead, ← hrolled, hlog, hdivergent, and_iff_right hok]
    constructor
    · rintro ⟨log, missing, appended', missing'', merged, happend', hmerge, rfl⟩
      cases happend.symm.trans happend'
      exact ⟨(missing'', merged), hmerge, rfl⟩
    · rintro ⟨⟨missing'', merged⟩, hmerge, rfl⟩
      exact ⟨log', missing', appended, missing'', merged, happend, hmerge, rfl⟩
  · rw [hlogs.indexed, hlogs.log_eq, hentries]
    rw [hrolled]
    exact indexed_ofLog _
  · have hforward : effects (callsFor o rolled.2) (stored o) = stored o := by
      rw [hrolled]
      exact effects_rollForwardTo _ cut _ _ (filter_subset_self _)
    rw [callsFor_append, effects_append, hforward]
    exact hobjects stored o hle
  · exact hlogs.tail_eq.trans (hrolled ▸ congrArg PgLog.tail hlog)

theorem exists_mergeSetup : Nonempty (MergeSetup pglog info olog obase d) := by
  rcases lt_trichotomy olog.head pglog.log.head with hlt | heq | hgt
  · exact mergeSetup_behind h ho.toWf hdiv hnewer hlt
  · exact mergeSetup_equal h ho.toWf hdiv hnewer heq
  · exact mergeSetup_ahead h ho hdiv hnewer hneed hgt

end

end Setup

/-! ## The result -/

/-- The versions at the tail of the merged log. -/
def mergedBase (base obase : O → Option EVersion) (log olog : PgLog O) : O → Option EVersion :=
  if olog.tail < log.tail then obase else base

section Result

variable {base obase : O → Option EVersion} {pglog : PGLog O} {info : PgInfo O} {olog : PgLog O}
  {d : EVersion} {stored : O → Option EVersion}

theorem mergedBase_le {log : PgLog O} (h : History base log) (ho : History obase olog) (o : O)
    (v : EVersion) (hv : mergedBase base obase log olog o = some v) :
    v ≤ min olog.tail log.tail := by
  unfold mergedBase at hv
  split at hv <;> rename_i htail
  · rw [min_eq_left htail.le]
    exact (ho.base_le o v hv).1
  · rw [min_eq_right (not_lt.1 htail)]
    exact (h.base_le o v hv).1

/-- The kept part of the merged log says what the log said at the divergence point. -/
theorem present_mergedBase {log : PgLog O} (h : log.Wf) (ho : olog.Wf)
    (hdiv : DivergeAt base obase log olog d) (o : O) :
    present (mergedBase base obase log olog) (taken log olog ++ log.upTo d) o =
      present base (log.upTo d) o := by
  unfold mergedBase
  by_cases htail : olog.tail < log.tail
  · -- no entry of the log is as old as the tail of `olog`
    have hnil : log.upTo olog.tail = [] := by
      refine eq_nil_iff_forall_not_mem.2 fun e he => ?_
      obtain ⟨hmem, hle⟩ := mem_upTo.1 he
      exact absurd (htail.trans (h.tail_precedes e hmem).1) hle.not_gt
    rw [if_pos htail, hdiv.taken_append_upTo h ho, hnil, nil_append, hdiv.present_eq]
  · rw [if_neg htail, taken, if_neg htail, nil_append]

/-- An object with divergent entries, in a setup. -/
theorem MergeSetup.objectOk_iff (setup : MergeSetup pglog info olog obase d)
    (h : History base pglog.log.toPgLog) (ho : History obase olog)
    (hdiv : DivergeAt base obase pglog.log.toPgLog olog d)
    (hnewer : NewerAfter pglog.log.toPgLog olog d)
    (hcons : Consistent base pglog.log.toPgLog pglog.missing stored info.lastBackfill) {o : O}
    (hle : o ≤ info.lastBackfill) (hne : entriesOf o (pglog.log.after d) ≠ []) :
    (∃ kind, divergentCase setup.log setup.info' setup.boundary o (entriesOf o (pglog.log.after d))
        (setup.missing.items.lookup o) = some kind ∧
      Decision.Settles ⟨o, entriesOf o (pglog.log.after d), kind, setup.missing.items.lookup o⟩
        (present (present base (pglog.log.upTo d)) (olog.after d) o)
        (effects (callsFor o setup.earlier) (stored o))) ↔
      HarmlessErrors (present base (pglog.log.upTo d) o) (entriesOf o (pglog.log.after d))
        (olog.after d) o := by
  have hbase : present base (pglog.log.upTo d) = present obase (olog.upTo d) :=
    funext hdiv.present_eq
  have hnew : ∀ n ∈ olog.after d, pglog.log.head < n.version := by
    intro n hn
    obtain ⟨hmem, hd⟩ := mem_after.1 hn
    exact hnewer n hmem hd
  obtain ⟨front, rest, hentries⟩ := exists_cons_of_ne_nil hne
  have hfront : front ∈ pglog.log.after d :=
    (mem_entriesOf.1 (hentries ▸ mem_cons_self .. : front ∈ entriesOf o _)).1
  obtain ⟨hmem, hd⟩ := mem_after.1 hfront
  have hrecent : moreRecent setup.log o front = newest (olog.after d) o := by
    refine moreRecent_eq_newest (setup.objects_eq o) (fun e he => ?_) fun n hn => ?_
    · rw [hdiv.taken_append_upTo h.toWf ho.toWf] at he
      rcases mem_append.1 he with he | he
      · exact (((mem_upTo.1 he).2).trans hdiv.otail_le.1).trans_lt hd
      · exact (mem_upTo.1 he).2.trans_lt hd
    · exact ((h.le_head front hmem).1.trans_lt (hnew n hn)).le
  have hap := setup.appended stored o hle
  rw [← hbase] at hap
  rw [hentries]
  exact objectOk_divergent_iff h (h.upTo_append_after d).symm hentries (hcons.objectOk o hle) hap
    (fun n hn => hnew n (newest_eq_some hn).1)
    (setup.lastBackfill_eq ▸ hle) hrecent

/-- The entries of the merged log: what extends the tail, those of the log, and those of `olog`
that are newer. -/
theorem mem_mergeLog_log {r : Merged O} {e : PgLogEntry O} (h : pglog.log.Wf)
    (hrun : pglog.mergeLog olog info = some r) (he : e ∈ r.pglog.log.log) :
    e ∈ taken pglog.log.toPgLog olog ++ pglog.log.log ∨ pglog.log.head < e.version := by
  have hlog := mergeTail_log ⟨pglog, info, [], false⟩ olog
  have hpoint := cutPoint_mergeTail info olog h.tail_le.1
  have hkept : ∀ {cut}, e ∈ (mergeTail ⟨pglog, info, [], false⟩ olog).1.pglog.log.kept cut →
      e ∈ taken pglog.log.toPgLog olog ++ pglog.log.log := by
    intro cut hmem
    have hwhole := mem_append_left
      ((mergeTail ⟨pglog, info, [], false⟩ olog).1.pglog.log.divergent cut) hmem
    rwa [kept_append_divergent, hlog] at hwhole
  obtain ⟨-, -, ⟨-, hrewind⟩ | ⟨-, rfl⟩ | ⟨-, hahead⟩⟩ := mergeLog_eq_some.1 hrun
  · obtain ⟨-, missing, calls, -, rfl⟩ := rewindDivergentLog_eq_some.1 hrewind
    rw [log_rewoundTo] at he
    exact .inl (hkept he)
  · rw [hlog] at he
    exact .inl he
  · obtain ⟨-, log, missing, appended, missing', merged, happend, -, rfl⟩ :=
      mergeHead_eq_some.1 hahead
    have hlogs := (appendLogEntriesUpdateMissing_log happend).log_eq
    replace he : e ∈ log.log := he
    rw [hlogs, hpoint] at he
    rcases mem_append.1 he with he | he
    · exact .inl (hkept he)
    · exact .inr (by simpa using mem_rtakeWhile_imp he)

/-- What `olog` has after the divergence point cannot be older than the head of the log: it would
be missing in the merged log. -/
theorem newerAfter_of_mergeLog {r : Merged O} (h : pglog.log.Wf) (ho : olog.Wf)
    (hdiv : DivergeAt base obase pglog.log.toPgLog olog d)
    (hrun : pglog.mergeLog olog info = some r)
    (hlog : r.pglog.log.log = pglog.log.upTo olog.tail ++ olog.log) :
    NewerAfter pglog.log.toPgLog olog d := by
  intro e he hd
  have hmerged : e ∈ r.pglog.log.log := hlog ▸ mem_append_right _ he
  refine (mem_mergeLog_log h hrun hmerged).resolve_left fun hmem => ?_
  rcases mem_append.1 hmem with hmem | hmem
  · exact absurd ((mem_taken ho).1 hmem).2.2 (hdiv.tail_le.1.trans_lt hd).not_ge
  · exact hdiv.apart e he hd hmem

end Result

/-! ## A write that fails -/

/-- The creation of an object. -/
def creation : PgLogEntry ℕ :=
  { op := .modify, soid := 0, version := ⟨1, 1⟩, priorVersion := 0 }

/-- A log with the creation alone. -/
def creationLog : PgLog ℕ := { head := ⟨1, 1⟩, log := [creation] }

variable (failed : Bool) (epoch : Fin 4)

/-- A log with one more entry for the object: a write, or a write that failed. -/
def secondEntryLog : PgLog ℕ :=
  { head := ⟨epoch, 2⟩
    log := [creation,
      { op := if failed then .error else .modify, soid := 0, version := ⟨epoch, 2⟩,
        priorVersion := if failed then 0 else ⟨1, 1⟩ }] }

/-- The object in the store. -/
def storedObject (v : EVersion) (o : ℕ) : Option EVersion := if o = 0 then some v else none

theorem history_creationLog : History (fun _ => none) creationLog where
  sorted := by decide
  tail_precedes := by decide
  le_head := by decide
  tail_le := by decide
  base_le := by intro o v hv; cases hv
  not_backlog := by decide
  error_prior := by decide
  clone_first := by
    intro pre e post hlog hclone
    have hmem : e ∈ creationLog.log := by rw [hlog]; simp
    rw [mem_singleton.1 hmem] at hclone
    cases hclone
  prior_eq := by
    intro pre e post hlog _ _
    match pre, hlog with
    | [], hlog => cases hlog; rfl
    | [_], hlog => cases hlog
    | _ :: _ :: _, hlog => cases hlog

theorem history_secondEntryLog (hepoch : 1 ≤ epoch) :
    History (fun _ => none) (secondEntryLog failed epoch) where
  sorted := by decide +revert
  tail_precedes := by decide +revert
  le_head := by decide +revert
  tail_le := by decide +revert
  base_le := by intro o v hv; cases hv
  not_backlog := by decide +revert
  error_prior := by decide +revert
  clone_first := by
    intro pre e post hlog hclone
    have hmem : e ∈ (secondEntryLog failed epoch).log := by rw [hlog]; simp
    have hnone : ∀ failed epoch, ∀ e ∈ (secondEntryLog failed epoch).log, ¬ e.isClone := by decide
    exact absurd hclone (hnone _ _ e hmem)
  prior_eq := by
    intro pre e post hlog herr _
    match pre, hlog with
    | [], hlog => cases hlog; rfl
    | [_], hlog =>
      cases hlog
      cases failed with
      | false => rfl
      | true => exact absurd rfl herr
    | _ :: _ :: [], hlog => cases hlog
    | _ :: _ :: _ :: _, hlog => cases hlog

theorem mem_secondEntryLog_iff {e : PgLogEntry ℕ} (hepoch : 1 ≤ epoch)
    (hle : e.version ≤ ⟨1, 1⟩) : e ∈ (secondEntryLog failed epoch).log ↔ e = creation := by
  have hlater : ∀ epoch : Fin 4, 1 ≤ epoch → ¬ (⟨epoch, 2⟩ : EVersion) ≤ ⟨1, 1⟩ := by decide
  constructor
  · intro he
    rcases mem_cons.1 he with rfl | he
    · rfl
    · rw [mem_singleton.1 he] at hle
      exact absurd hle (hlater epoch hepoch)
  · rintro rfl
    exact mem_cons_self ..

theorem divergeAt_creation :
    DivergeAt (fun _ => none) (fun _ => none) (secondEntryLog failed 1) creationLog ⟨1, 1⟩ where
  cuts := by unfold Cuts; decide +revert
  ocuts := by unfold Cuts; decide
  tail_cuts := by unfold Cuts; decide +revert
  otail_cuts := by unfold Cuts; decide +revert
  tail_le := by decide +revert
  otail_le := by decide
  le_head := by decide +revert
  le_ohead := le_rfl
  ohead := .inl rfl
  shared := fun e _ _ hle => (mem_secondEntryLog_iff failed 1 le_rfl hle).trans mem_singleton.symm
  present_eq := by intro o; cases failed <;> rfl
  apart := by decide +revert

/-- Two writes in different epochs. -/
theorem divergeAt_writes : DivergeAt (fun _ => none) (fun _ => none) (secondEntryLog false 3)
    (secondEntryLog false 2) ⟨1, 1⟩ where
  cuts := by unfold Cuts; decide
  ocuts := by unfold Cuts; decide
  tail_cuts := by unfold Cuts; decide
  otail_cuts := by unfold Cuts; decide
  tail_le := by decide
  otail_le := by decide
  le_head := by decide
  le_ohead := by decide
  ohead := .inr (by decide)
  shared := fun e _ _ hle => (mem_secondEntryLog_iff false 3 (by decide) hle).trans
    (mem_secondEntryLog_iff false 2 (by decide) hle).symm
  present_eq := fun _ => rfl
  apart := by decide

/-- The info of the placement group with the object. -/
def objectInfo : PgInfo ℕ :=
  { lastUpdate := ⟨epoch, 2⟩, lastComplete := ⟨epoch, 2⟩, logTail := 0, lastBackfill := 0 }

theorem consistent_secondEntryLog : Consistent (fun _ => none) (secondEntryLog failed epoch) {}
      (storedObject (if failed then ⟨1, 1⟩ else ⟨epoch, 2⟩)) (objectInfo epoch).lastBackfill := by
  refine ⟨fun o v hv => (nomatch hv), fun o ho => ?_⟩
  obtain rfl : o = 0 := Nat.le_zero.1 ho
  cases failed <;> rfl

end Ceph.Osd
