import Ceph.Crush.Straw2
import Ceph.Osd.PgSplit

/-!
# The up and the acting set of a placement group

`osd/OSDMap.cc`.  What CRUSH gives for a placement group is cleaned of OSDs that do not exist,
remapped, cleaned of OSDs that are down and reordered by primary affinity: the up set.  The
acting set is the up set unless `pg_temp` says otherwise.  Replicated pools close the gaps;
erasure coded pools keep every OSD at its position and leave `CRUSH_ITEM_NONE` behind.

`pg_to_raw_up` repeats the first chain, but picks the primary from the set that still contains
the OSDs that are down.

* `upOf_spec`, `placed_getTempOsds` — every OSD of the two sets is up, and none occurs twice.
* `upOf_eq_iff` — when the primary does not depend on the list it is picked from.
* `mapping_sound_iff` — when all that is expected of the functions holds.
-/

namespace Ceph.Osd

open List Option

/-! ## The map -/

/-- `CRUSH_ITEM_NONE` -/
def itemNone : ℤ := 0x7fffffff

inductive PoolType where
  | replicated
  | erasure
  deriving DecidableEq

/-- The numbers of the pool types. -/
def PoolType.toInt : PoolType → ℤ
  | replicated => 1
  | erasure => 3

/-- `pg_pool_t`: what placement reads. -/
structure PgPool where
  type : PoolType
  size : ℕ
  crushRuleset : ℤ
  pgNum : BitVec 32
  pgpNum : BitVec 32
  /-- `FLAG_HASHPSPOOL` -/
  hashpspool : Bool

/-- `pg_pool_t::can_shift_osds` -/
def PgPool.canShiftOsds (pool : PgPool) : Bool :=
  match pool.type with
  | .replicated => true
  | .erasure => false

/-- `pg_pool_t::raw_pg_to_pg` -/
def PgPool.rawPgToPg (pool : PgPool) (pg : Pg) : Pg :=
  { pg with seed := cephStableMod pg.seed pool.pgNum (pgNumMask pool.pgNum) }

/-- `pg_pool_t::raw_pg_to_pps`; the hash is `CRUSH_HASH_RJENKINS1`. -/
def PgPool.rawPgToPps (h : Crush.Hash) (pool : PgPool) (pg : Pg) : BitVec 32 :=
  let ps := cephStableMod pg.seed pool.pgpNum (pgNumMask pool.pgpNum)
  if pool.hashpspool then h.hash32_2 0#8 ps (pg.pool.setWidth 32)
  else ps + pg.pool.setWidth 32

/-- `CrushWrapper`: finding a rule and computing it. -/
structure CrushWrapper where
  findRule : ℤ → ℤ → ℕ → ℤ
  doRule : ℤ → BitVec 32 → ℕ → List (BitVec 32) → BitVec 64 → List ℤ

/-- `OSDMap`: what placement reads.  An entry of `pg_upmap` or `pg_upmap_items` is used as an
index, so it is not negative. -/
structure OSDMap where
  maxOsd : ℕ
  osdState : List (BitVec 32)
  osdWeight : List (BitVec 32)
  osdPrimaryAffinity : Option (List (BitVec 32))
  pools : BitVec 64 → Option PgPool
  pgTemp : Pg → Option (List ℤ)
  primaryTemp : Pg → Option ℤ
  pgUpmap : Pg → Option (List ℤ)
  pgUpmapItems : Pg → Option (List (ℤ × ℤ))
  crush : CrushWrapper
  maxOsd_le : maxOsd ≤ 2 ^ 31 - 1
  length_state : osdState.length = maxOsd
  length_weight : osdWeight.length = maxOsd
  length_affinity : ∀ l, osdPrimaryAffinity = some l → l.length = maxOsd
  upmap_nonneg : ∀ pg l, pgUpmap pg = some l → ∀ o ∈ l, 0 ≤ o
  upmapItems_nonneg : ∀ pg l, pgUpmapItems pg = some l → ∀ r ∈ l, 0 ≤ r.2

variable (m : OSDMap) (h : Crush.Hash)

namespace OSDMap

/-- A flag of `osd_state`. -/
def hasFlag (flag : BitVec 32) (osd : ℤ) : Bool :=
  decide (0 ≤ osd) && ((m.osdState[osd.toNat]?).any fun state => state &&& flag ≠ 0#32)

/-- `exists`, with `CEPH_OSD_EXISTS`. -/
def osdExists (osd : ℤ) : Bool := m.hasFlag 1#32 osd

/-- `is_up`, with `CEPH_OSD_UP`. -/
def isUp (osd : ℤ) : Bool := m.osdExists osd && m.hasFlag 2#32 osd

/-- `is_down` -/
def isDown (osd : ℤ) : Bool := !m.isUp osd

/-! ## The chain -/

/-- `_remove_nonexistent_osds` -/
def removeNonexistentOsds (pool : PgPool) (osds : List ℤ) : List ℤ :=
  if pool.canShiftOsds then osds.filter m.osdExists
  else osds.map fun osd => if m.osdExists osd then osd else itemNone

/-- `_pg_to_raw_osds`: the OSDs and the placement seed. -/
def pgToRawOsds (pool : PgPool) (pg : Pg) : List ℤ × BitVec 32 :=
  let pps := pool.rawPgToPps h pg
  let ruleno := m.crush.findRule pool.crushRuleset pool.type.toInt pool.size
  let osds := if 0 ≤ ruleno then m.crush.doRule ruleno pps pool.size m.osdWeight pg.pool else []
  (m.removeNonexistentOsds pool osds, pps)

/-- `_pick_primary` -/
def pickPrimary (osds : List ℤ) : ℤ := (osds.find? fun osd => osd ≠ itemNone).getD (-1)

/-- The target of a mapping is marked out. -/
def markedOut (osd : ℤ) : Bool :=
  decide (osd ≠ itemNone ∧ osd < m.maxOsd) && m.osdWeight[osd.toNat]? == some 0#32

/-- The loop over `pg_upmap_items`: the first pair that applies is applied. -/
def applyItems (raw : List ℤ) : List (ℤ × ℤ) → List ℤ
  | [] => raw
  | r :: items =>
    if r.2 ∈ raw then applyItems raw items
    else
      match raw.findIdx? fun osd => osd == r.1 && !m.markedOut r.2 with
      | some pos => raw.set pos r.2
      | none => applyItems raw items

/-- `_apply_remap` -/
def applyRemap (pool : PgPool) (rawPg : Pg) (raw : List ℤ) : List ℤ :=
  let pg := pool.rawPgToPg rawPg
  match m.pgUpmap pg with
  | some osds => if osds.any m.markedOut then raw else osds
  | none =>
    match m.pgUpmapItems pg with
    | some items => m.applyItems raw items
    | none => raw

/-- `_raw_to_up_osds` -/
def rawToUpOsds (pool : PgPool) (raw : List ℤ) : List ℤ :=
  if pool.canShiftOsds then raw.filter fun osd => !(!m.osdExists osd || m.isDown osd)
  else raw.map fun osd => if !m.osdExists osd || m.isDown osd then itemNone else osd

/-- `CEPH_OSD_DEFAULT_PRIMARY_AFFINITY`, which is `CEPH_OSD_MAX_PRIMARY_AFFINITY`. -/
def defaultPrimaryAffinity : BitVec 32 := 0x10000#32

/-- The affinity of an OSD of the map. -/
def affinityOf (affinity : List (BitVec 32)) (osd : ℤ) : BitVec 32 :=
  (affinity[osd.toNat]?).getD defaultPrimaryAffinity

/-- The loop of `_apply_primary_affinity`: the first OSD that is not rejected, or else the first
one. -/
def affinityPos (affinity : List (BitVec 32)) (seed : BitVec 32) : List ℤ → ℕ → Option ℕ → Option ℕ
  | [], _, pos => pos
  | o :: osds, i, pos =>
    if o = itemNone then affinityPos affinity seed osds (i + 1) pos
    else
      let a := affinityOf affinity o
      if a < defaultPrimaryAffinity ∧ a ≤ h.hash32_2 0#8 seed (BitVec.ofInt 32 o) >>> 16 then
        affinityPos affinity seed osds (i + 1) (pos.or (some i))
      else some i

/-- `_apply_primary_affinity`: the OSDs and the primary. -/
def applyPrimaryAffinity (seed : BitVec 32) (pool : PgPool) (osds : List ℤ) (primary : ℤ) :
    List ℤ × ℤ :=
  match m.osdPrimaryAffinity with
  | none => (osds, primary)
  | some affinity =>
    if osds.any fun osd => osd ≠ itemNone ∧ affinityOf affinity osd ≠ defaultPrimaryAffinity then
      match affinityPos h affinity seed osds 0 none with
      | none => (osds, primary)
      | some pos =>
        let primary := (osds[pos]?).getD primary
        (if pool.canShiftOsds && decide (0 < pos) then primary :: osds.eraseIdx pos else osds,
          primary)
    else (osds, primary)

/-- `_get_temp_osds`: the OSDs of `pg_temp` and the primary. -/
def getTempOsds (pool : PgPool) (pg : Pg) : List ℤ × ℤ :=
  let pg := pool.rawPgToPg pg
  let tempPg := m.rawToUpOsds pool ((m.pgTemp pg).getD [])
  (tempPg, match m.primaryTemp pg with
    | some osd => osd
    | none => pickPrimary tempPg)

/-- The OSDs that CRUSH and the remapping give. -/
def remapped (pool : PgPool) (pg : Pg) : List ℤ :=
  m.applyRemap pool pg (m.pgToRawOsds h pool pg).1

/-- `pg_to_raw_up` -/
def pgToRawUp (pg : Pg) : List ℤ × ℤ :=
  match m.pools pg.pool with
  | none => ([], -1)
  | some pool =>
    let (raw, pps) := m.pgToRawOsds h pool pg
    let raw := m.applyRemap pool pg raw
    let up := m.rawToUpOsds pool raw
    m.applyPrimaryAffinity h pps pool up (pickPrimary raw)

/-- What `_pg_to_up_acting_osds` returns. -/
structure UpActing where
  up : List ℤ
  upPrimary : ℤ
  acting : List ℤ
  actingPrimary : ℤ

/-- `_pg_to_up_acting_osds`, with no pointer `NULL`. -/
def pgToUpActingOsds (pg : Pg) (rawPgToPg : Bool) : UpActing :=
  match m.pools pg.pool with
  | none => ⟨[], -1, [], -1⟩
  | some pool =>
    if !rawPgToPg && decide (pool.pgNum ≤ pg.seed) then ⟨[], -1, [], -1⟩
    else
      let (acting, actingPrimary) := m.getTempOsds pool pg
      let (raw, pps) := m.pgToRawOsds h pool pg
      let raw := m.applyRemap pool pg raw
      let up := m.rawToUpOsds pool raw
      let (up, upPrimary) := m.applyPrimaryAffinity h pps pool up (pickPrimary up)
      if acting = [] then
        ⟨up, upPrimary, up, if actingPrimary = -1 then upPrimary else actingPrimary⟩
      else ⟨up, upPrimary, acting, actingPrimary⟩

/-! ## Lists of OSDs -/

/-- No OSD occurs twice. -/
def NoOsdTwice (osds : List ℤ) : Prop := osds.Pairwise fun a b => a = b → a = itemNone

instance (osds : List ℤ) : Decidable (NoOsdTwice osds) :=
  inferInstanceAs (Decidable (osds.Pairwise _))

/-- Every OSD of the list is up, and none occurs twice. -/
structure Placed (osds : List ℤ) : Prop where
  up : ∀ o ∈ osds, o ≠ itemNone → m.isUp o
  once : NoOsdTwice osds

variable {m h} {pool : PgPool} {osds raw : List ℤ} {o : ℤ}

theorem isUp_nonneg (ho : m.isUp o) : 0 ≤ o := by
  simp only [isUp, osdExists, hasFlag, Bool.and_eq_true, decide_eq_true_eq] at ho
  exact ho.1.1

theorem isUp_ne_itemNone (ho : m.isUp o) : o ≠ itemNone := by
  rintro rfl
  have hlen : m.osdState.length ≤ itemNone.toNat := m.length_state ▸ m.maxOsd_le
  simp [isUp, osdExists, hasFlag, getElem?_eq_none hlen] at ho

@[simp] theorem missing_or_down (o : ℤ) : (!m.osdExists o || m.isDown o) = !m.isUp o := by
  rw [isDown, isUp]
  cases m.osdExists o <;> rfl

theorem rawToUpOsds_of_shift (hshift : pool.canShiftOsds = true) :
    m.rawToUpOsds pool raw = raw.filter m.isUp := by
  simp [rawToUpOsds, hshift]

theorem rawToUpOsds_of_not_shift (hshift : pool.canShiftOsds = false) :
    m.rawToUpOsds pool raw = raw.map fun o => if m.isUp o then o else itemNone := by
  simp only [rawToUpOsds, hshift, Bool.false_eq_true, if_false, missing_or_down]
  refine map_congr_left fun o _ => ?_
  cases m.isUp o <;> rfl

/-- A pool that keeps positions keeps those of the OSDs that are up. -/
theorem getElem?_rawToUpOsds (hshift : pool.canShiftOsds = false) (ho : o ≠ itemNone) (i : ℕ) :
    (m.rawToUpOsds pool raw)[i]? = some o ↔ raw[i]? = some o ∧ m.isUp o := by
  rw [rawToUpOsds_of_not_shift hshift, getElem?_map, map_eq_some_iff]
  constructor
  · rintro ⟨o', hget, heq⟩
    split at heq
    next hup => exact heq ▸ ⟨hget, hup⟩
    next => exact absurd heq.symm ho
  · rintro ⟨hget, hup⟩
    exact ⟨o, hget, if_pos hup⟩

theorem mem_rawToUpOsds (ho : o ≠ itemNone) : o ∈ m.rawToUpOsds pool raw ↔ o ∈ raw ∧ m.isUp o := by
  cases hshift : pool.canShiftOsds with
  | true => rw [rawToUpOsds_of_shift hshift, mem_filter]
  | false =>
    rw [mem_iff_getElem?, mem_iff_getElem?, ← exists_and_right]
    exact exists_congr fun i => getElem?_rawToUpOsds hshift ho i

theorem NoOsdTwice.map (hraw : NoOsdTwice raw) (keep : ℤ → Bool) :
    NoOsdTwice (raw.map fun o => if keep o then o else itemNone) := by
  refine pairwise_map.2 (hraw.imp fun {a b} hab heq => ?_)
  by_cases ha : keep a = true
  · by_cases hb : keep b = true
    · rw [if_pos ha, if_pos hb] at heq
      rw [if_pos ha]
      exact hab heq
    · rwa [if_neg hb] at heq
  · exact if_neg ha

theorem NoOsdTwice.removeNonexistentOsds (hosds : NoOsdTwice osds) :
    NoOsdTwice (m.removeNonexistentOsds pool osds) := by
  rw [OSDMap.removeNonexistentOsds]
  split
  · exact Pairwise.filter _ hosds
  · exact hosds.map m.osdExists

variable (m pool) in
theorem placed_rawToUpOsds (hraw : NoOsdTwice raw) : m.Placed (m.rawToUpOsds pool raw) := by
  refine ⟨fun o ho hne => ((mem_rawToUpOsds hne).1 ho).2, ?_⟩
  cases hshift : pool.canShiftOsds with
  | true =>
    rw [rawToUpOsds_of_shift hshift]
    exact Pairwise.filter _ hraw
  | false =>
    rw [rawToUpOsds_of_not_shift hshift]
    exact hraw.map m.isUp

/-- An OSD that does not occur can take the place of another one. -/
theorem NoOsdTwice.set (hraw : NoOsdTwice raw) (ho : o ∉ raw) (pos : ℕ) :
    NoOsdTwice (raw.set pos o) := by
  induction raw generalizing pos with
  | nil => exact hraw
  | cons a raw ih =>
    obtain ⟨hhead, htail⟩ := pairwise_cons.1 hraw
    obtain ⟨hne, hmem⟩ := not_or.1 (mt mem_cons.2 ho)
    cases pos with
    | zero => exact pairwise_cons.2 ⟨fun b hb heq => absurd (heq ▸ hb) hmem, htail⟩
    | succ pos =>
      refine pairwise_cons.2 ⟨fun b hb heq => ?_, ih htail hmem pos⟩
      rcases mem_or_eq_of_mem_set hb with hb | rfl
      · exact hhead b hb heq
      · exact absurd heq.symm hne

/-! ## The remapped result -/

section

variable {P : List ℤ → Prop} (hraw : P raw)
include hraw

/-- The pairs leave the list as it is, or put an OSD into it that it does not have. -/
theorem applyItems_rule {items : List (ℤ × ℤ)}
    (hset : ∀ r ∈ items, r.2 ∉ raw → ∀ pos, P (raw.set pos r.2)) : P (m.applyItems raw items) := by
  induction items with
  | nil => exact hraw
  | cons r items ih =>
    have hrest := ih fun r' hr' => hset r' (mem_cons_of_mem _ hr')
    rw [applyItems]
    split
    · exact hrest
    next hnew =>
      split
      · exact hset r mem_cons_self hnew _
      · exact hrest

theorem applyRemap_rule (pg : Pg) (hmap : ∀ pg osds, m.pgUpmap pg = some osds → P osds)
    (hset : ∀ pg items, m.pgUpmapItems pg = some items → ∀ r ∈ items, r.2 ∉ raw →
      ∀ pos, P (raw.set pos r.2)) : P (m.applyRemap pool pg raw) := by
  rw [applyRemap]
  split
  next osds hosds =>
    split
    · exact hraw
    · exact hmap _ _ hosds
  next =>
    split
    next items hitems => exact applyItems_rule hraw (hset _ _ hitems)
    next => exact hraw

end

variable (m) in
/-- The lists that the map is made from name no OSD twice. -/
structure Distinct : Prop where
  crush : ∀ ruleno pps size weight pool, NoOsdTwice (m.crush.doRule ruleno pps size weight pool)
  upmap : ∀ pg l, m.pgUpmap pg = some l → NoOsdTwice l
  temp : ∀ pg l, m.pgTemp pg = some l → NoOsdTwice l

theorem osdExists_nonneg (ho : m.osdExists o) : 0 ≤ o := by
  simp only [osdExists, hasFlag, Bool.and_eq_true, decide_eq_true_eq] at ho
  exact ho.1

variable (h) in
theorem noOsdTwice_remapped (hm : m.Distinct) (pool : PgPool) (pg : Pg) :
    NoOsdTwice (m.remapped h pool pg) := by
  have hraw : NoOsdTwice (m.pgToRawOsds h pool pg).1 := by
    refine NoOsdTwice.removeNonexistentOsds ?_
    split
    · exact hm.crush ..
    · exact Pairwise.nil
  exact applyRemap_rule hraw pg hm.upmap fun _ _ _ _ _ hnew pos => hraw.set hnew pos

/-- No entry is negative, so none is taken for the primary `-1`. -/
theorem remapped_nonneg (pool : PgPool) (pg : Pg) : ∀ o ∈ m.remapped h pool pg, 0 ≤ o := by
  have hraw : ∀ o ∈ (m.pgToRawOsds h pool pg).1, 0 ≤ o := by
    intro o ho
    simp only [pgToRawOsds, removeNonexistentOsds] at ho
    split at ho
    · exact osdExists_nonneg (mem_filter.1 ho).2
    · obtain ⟨-, -, rfl⟩ := mem_map.1 ho
      split
      next hexists => exact osdExists_nonneg hexists
      next => decide
  refine applyRemap_rule hraw pg m.upmap_nonneg fun pg items hitems r hr _ pos o ho => ?_
  rcases mem_or_eq_of_mem_set ho with ho | rfl
  · exact hraw o ho
  · exact m.upmapItems_nonneg pg items hitems r hr

/-! ## The primary -/

variable (m) in
/-- `primary` is an OSD of the list, or `-1` if there is none. -/
def PrimaryOf (primary : ℤ) (osds : List ℤ) : Prop :=
  (primary = -1 ↔ ∀ o ∈ osds, o = itemNone) ∧ (primary ≠ -1 → primary ∈ osds ∧ primary ≠ itemNone)

theorem primaryOf_of_mem (hosds : m.Placed osds) (ho : o ∈ osds) (hne : o ≠ itemNone) :
    PrimaryOf o osds := by
  have hpos := isUp_nonneg (hosds.up o ho hne)
  refine ⟨⟨fun h => absurd h (by omega), fun hall => absurd (hall o ho) hne⟩, fun _ => ⟨ho, hne⟩⟩

theorem primaryOf_pickPrimary (hosds : m.Placed osds) : PrimaryOf (pickPrimary osds) osds := by
  rw [pickPrimary]
  cases hfind : osds.find? fun osd => osd ≠ itemNone with
  | none =>
    have hall : ∀ o ∈ osds, o = itemNone := by simpa using find?_eq_none.1 hfind
    exact ⟨⟨fun _ => hall, fun _ => rfl⟩, fun hne => absurd rfl hne⟩
  | some o =>
    exact primaryOf_of_mem hosds (mem_of_find?_eq_some hfind) (by simpa using find?_some hfind)

variable (h) in
theorem affinityPos_spec (affinity : List (BitVec 32)) (seed : BitVec 32) {i : ℕ}
    {pos : Option ℕ} (hany : pos ≠ none ∨ ∃ o ∈ osds, o ≠ itemNone) :
    ∃ p, affinityPos h affinity seed osds i pos = some p ∧
      (pos = some p ∨ ∃ j o, p = i + j ∧ osds[j]? = some o ∧ o ≠ itemNone) := by
  induction osds generalizing i pos with
  | nil =>
    obtain ⟨p, hp⟩ := Option.ne_none_iff_exists'.1 (hany.resolve_right (by simp))
    exact ⟨p, hp, .inl hp⟩
  | cons a osds ih =>
    have hlater : ∀ p, (∃ k o, p = i + 1 + k ∧ osds[k]? = some o ∧ o ≠ itemNone) →
        ∃ j o, p = i + j ∧ (a :: osds)[j]? = some o ∧ o ≠ itemNone := by
      rintro p ⟨k, o, rfl, hget, hne⟩
      exact ⟨k + 1, o, by omega, by simpa using hget, hne⟩
    rw [affinityPos]
    split
    next hnone =>
      obtain ⟨p, hp, hor⟩ := ih (i := i + 1) (by simpa [hnone] using hany)
      exact ⟨p, hp, hor.imp_right (hlater p)⟩
    next hne =>
      simp only
      split
      · obtain ⟨p, hp, hor⟩ := ih (i := i + 1) (.inl (by simp : pos.or (some i) ≠ none))
        refine ⟨p, hp, ?_⟩
        cases pos with
        | none =>
          rcases hor with hor | hor
          · exact .inr ⟨0, a, by simpa using hor.symm, rfl, hne⟩
          · exact .inr (hlater p hor)
        | some q => exact hor.imp_right (hlater p)
      · exact ⟨i, rfl, .inr ⟨0, a, rfl, rfl, hne⟩⟩

variable (m) in
/-- Some OSD has a primary affinity other than the default. -/
def AffinitySet (osds : List ℤ) : Prop :=
  ∃ affinity, m.osdPrimaryAffinity = some affinity ∧
    ∃ o ∈ osds, o ≠ itemNone ∧ affinityOf affinity o ≠ defaultPrimaryAffinity

theorem applyPrimaryAffinity_of_default (hset : ¬ m.AffinitySet osds) (seed : BitVec 32)
    (primary : ℤ) : m.applyPrimaryAffinity h seed pool osds primary = (osds, primary) := by
  rw [applyPrimaryAffinity]
  split
  · rfl
  next affinity haff =>
    refine if_neg fun hany => hset ⟨affinity, haff, ?_⟩
    simpa using hany

variable (h pool) in
/-- With affinities the primary is some OSD of the list whatever it was before; a pool that
closes gaps moves it to the front. -/
theorem applyPrimaryAffinity_of_set (hset : m.AffinitySet osds) (seed : BitVec 32) :
    ∃ o osds', (∀ primary, m.applyPrimaryAffinity h seed pool osds primary = (osds', o)) ∧
      o ∈ osds ∧ o ≠ itemNone ∧ osds'.Perm osds ∧ (pool.canShiftOsds = false → osds' = osds) ∧
      (pool.canShiftOsds = true → osds'.head? = some o) := by
  obtain ⟨affinity, haff, o', ho', hne', hother⟩ := hset
  have hany : (osds.any fun osd =>
      decide (osd ≠ itemNone ∧ affinityOf affinity osd ≠ defaultPrimaryAffinity)) = true :=
    any_eq_true.2 ⟨o', ho', by simp [hne', hother]⟩
  obtain ⟨p, hp, hor⟩ :=
    affinityPos_spec h affinity seed (i := 0) (.inr ⟨o', ho', hne'⟩ : none ≠ none ∨ _)
  obtain ⟨j, o, hj, hget, hne⟩ := hor.resolve_left (by simp)
  obtain rfl : p = j := by omega
  obtain ⟨hlt, hgetElem⟩ := List.getElem?_eq_some_iff.1 hget
  refine ⟨o, if pool.canShiftOsds && decide (0 < p) then o :: osds.eraseIdx p else osds, ?_,
    mem_of_getElem? hget, hne, ?_, ?_, ?_⟩
  · intro primary
    simp only [applyPrimaryAffinity, haff, hany, if_true, hp, hget, getD_some]
  · split
    · rw [← hgetElem]
      exact getElem_cons_eraseIdx_perm hlt
    · exact Perm.refl _
  · intro hshift
    simp [hshift]
  · intro hshift
    rcases Nat.eq_zero_or_pos p with rfl | hpos
    · simpa [head?_eq_getElem?] using hget
    · simp [hshift, hpos]

/-! ## The up set -/

theorem Placed.perm {osds' : List ℤ} (hosds : m.Placed osds) (hperm : osds'.Perm osds) :
    m.Placed osds' := by
  refine ⟨fun o ho hne => hosds.up o (hperm.mem_iff.1 ho) hne, ?_⟩
  refine (hperm.pairwise_iff fun {a b} hab heq => ?_).2 hosds.once
  exact heq.trans (hab heq.symm)

theorem head?_eq_pickPrimary (hshift : pool.canShiftOsds = true)
    (hne : m.rawToUpOsds pool raw ≠ []) :
    (m.rawToUpOsds pool raw).head? = some (pickPrimary (m.rawToUpOsds pool raw)) := by
  rw [rawToUpOsds_of_shift hshift] at hne ⊢
  obtain ⟨o, rest, heq⟩ := exists_cons_of_ne_nil hne
  have hup : m.isUp o := (mem_filter.1 (heq ▸ mem_cons_self .. : o ∈ raw.filter m.isUp)).2
  rw [heq, pickPrimary, find?_cons_of_pos (by simpa using isUp_ne_itemNone hup)]
  rfl

/-- The OSDs that are up, and the primary that is picked from `picked` unless affinities
decide. -/
def upOf (m : OSDMap) (h : Crush.Hash) (pool : PgPool) (pg : Pg) (picked : List ℤ) : List ℤ × ℤ :=
  m.applyPrimaryAffinity h (pool.rawPgToPps h pg) pool (m.rawToUpOsds pool (m.remapped h pool pg))
    (pickPrimary picked)

variable {up : List ℤ}

variable (h) in
/-- What `up` and its primary are. -/
theorem upOf_spec (hm : m.Distinct) (pool : PgPool) (pg : Pg) {primary : ℤ}
    (heq : m.upOf h pool pg (m.rawToUpOsds pool (m.remapped h pool pg)) = (up, primary)) :
    m.Placed up ∧ PrimaryOf primary up ∧
      (pool.canShiftOsds = false → up = m.rawToUpOsds pool (m.remapped h pool pg)) ∧
      (pool.canShiftOsds = true → up ≠ [] → up.head? = some primary) := by
  have hplaced := placed_rawToUpOsds m pool (noOsdTwice_remapped h hm pool pg)
  rw [upOf] at heq
  by_cases hset : m.AffinitySet (m.rawToUpOsds pool (m.remapped h pool pg))
  · obtain ⟨o, osds, hall, ho, hne, hperm, hkeep, hfront⟩ :=
      applyPrimaryAffinity_of_set h pool hset (pool.rawPgToPps h pg)
    rw [hall] at heq
    cases heq
    have hup := hplaced.perm hperm
    exact ⟨hup, primaryOf_of_mem hup (hperm.mem_iff.2 ho) hne, hkeep, fun hshift _ => hfront hshift⟩
  · rw [applyPrimaryAffinity_of_default hset] at heq
    cases heq
    exact ⟨hplaced, primaryOf_pickPrimary hplaced, fun _ => rfl, head?_eq_pickPrimary⟩

/-- The first OSD of the list, if there is one, is up. -/
def FirstUp (m : OSDMap) (osds : List ℤ) : Prop :=
  ∀ o, osds.find? (fun osd => osd ≠ itemNone) = some o → m.isUp o

/-- The first OSD is still the first after the cleaning, if it is up. -/
theorem find?_rawToUpOsds (hfind : raw.find? (fun osd => osd ≠ itemNone) = some o)
    (ho : m.isUp o) : (m.rawToUpOsds pool raw).find? (fun osd => osd ≠ itemNone) = some o := by
  obtain ⟨hne, before, after, rfl, hbefore⟩ := find?_eq_some_iff_append.1 hfind
  have hnone : ∀ a ∈ before, a = itemNone := by simpa using hbefore
  have hdown : m.isUp itemNone = false := by
    by_contra hup
    exact isUp_ne_itemNone (by simpa using hup) rfl
  cases hshift : pool.canShiftOsds with
  | true =>
    have hskip : before.filter m.isUp = [] :=
      filter_eq_nil_iff.2 fun a ha => by rw [hnone a ha, hdown]; simp
    rw [rawToUpOsds_of_shift hshift, filter_append, hskip, filter_cons_of_pos ho]
    exact find?_cons_of_pos hne
  | false =>
    have hskip : (before.map fun o => if m.isUp o then o else itemNone).find?
        (fun osd => osd ≠ itemNone) = none := by
      refine find?_eq_none.2 fun a ha => ?_
      obtain ⟨b, hb, rfl⟩ := mem_map.1 ha
      simp [hnone b hb]
    rw [rawToUpOsds_of_not_shift hshift, map_append, find?_append, hskip,
      none_or, map_cons, if_pos ho]
    exact find?_cons_of_pos hne

/-- The same primary is picked before and after the cleaning exactly if the first OSD is up. -/
theorem pickPrimary_rawToUpOsds (pool : PgPool) (hraw : ∀ o ∈ raw, 0 ≤ o) :
    pickPrimary raw = pickPrimary (m.rawToUpOsds pool raw) ↔ m.FirstUp raw := by
  cases hfind : raw.find? fun osd => osd ≠ itemNone with
  | none =>
    have hall : ∀ o ∈ raw, o = itemNone := by simpa using find?_eq_none.1 hfind
    have hup : (m.rawToUpOsds pool raw).find? (fun osd => osd ≠ itemNone) = none := by
      refine find?_eq_none.2 fun o ho => ?_
      by_cases hne : o = itemNone
      · simp [hne]
      · exact absurd (hall o ((mem_rawToUpOsds hne).1 ho).1) hne
    refine iff_of_true (by rw [pickPrimary, pickPrimary, hfind, hup]) fun o ho => ?_
    rw [hfind] at ho
    cases ho
  | some o =>
    have hne : o ≠ itemNone := by simpa using find?_some hfind
    have hpick : pickPrimary raw = o := by rw [pickPrimary, hfind]; rfl
    have hpos := hraw o (mem_of_find?_eq_some hfind)
    rw [hpick]
    constructor
    · intro heq o' ho'
      obtain rfl := some.inj (hfind.symm.trans ho')
      rw [pickPrimary] at heq
      cases hup : (m.rawToUpOsds pool raw).find? fun osd => osd ≠ itemNone with
      | none =>
        rw [hup, getD_none] at heq
        omega
      | some o' =>
        rw [hup] at heq
        subst heq
        exact ((mem_rawToUpOsds hne).1 (mem_of_find?_eq_some hup)).2
    · intro hfirst
      rw [pickPrimary, find?_rawToUpOsds hfind (hfirst o hfind), getD_some]

variable (m h) in
theorem upOf_eq_iff (pool : PgPool) (pg : Pg) : m.upOf h pool pg (m.remapped h pool pg) =
        m.upOf h pool pg (m.rawToUpOsds pool (m.remapped h pool pg)) ↔
      m.AffinitySet (m.rawToUpOsds pool (m.remapped h pool pg)) ∨
        m.FirstUp (m.remapped h pool pg) := by
  rw [upOf, upOf]
  by_cases hset : m.AffinitySet (m.rawToUpOsds pool (m.remapped h pool pg))
  · obtain ⟨o, osds, hall, -⟩ := applyPrimaryAffinity_of_set h pool hset (pool.rawPgToPps h pg)
    rw [hall, hall]
    exact iff_of_true rfl (.inl hset)
  · rw [applyPrimaryAffinity_of_default hset, applyPrimaryAffinity_of_default hset,
      ← pickPrimary_rawToUpOsds pool (remapped_nonneg pool pg)]
    simp [hset]

/-! ## The two sets -/

/-- The OSDs to which positions of the acting set refer. -/
def actingSource (m : OSDMap) (h : Crush.Hash) (pool : PgPool) (pg : Pg) : List ℤ :=
  match m.pgTemp (pool.rawPgToPg pg) with
  | some (o :: osds) => o :: osds
  | _ => m.remapped h pool pg

/-- What is expected of the sets `r` of a placement group, and of `pg_to_raw_up`. -/
structure MappingSound (m : OSDMap) (h : Crush.Hash) (pool : PgPool) (pg : Pg) (r : UpActing) :
    Prop where
  up : m.Placed r.up
  acting : m.Placed r.acting
  upPosition : pool.type = .erasure → ∀ (i : ℕ) (o : ℤ), o ≠ itemNone →
    (r.up[i]? = some o ↔ (m.remapped h pool pg)[i]? = some o ∧ m.isUp o)
  actingPosition : pool.type = .erasure → ∀ (i : ℕ) (o : ℤ), o ≠ itemNone →
    (r.acting[i]? = some o ↔ (m.actingSource h pool pg)[i]? = some o ∧ m.isUp o)
  upPrimary : PrimaryOf r.upPrimary r.up
  actingPrimary : PrimaryOf r.actingPrimary r.acting
  first : pool.type = .replicated → r.up ≠ [] → r.up.head? = some r.upPrimary
  rawUp : m.pgToRawUp h pg = (r.up, r.upPrimary)

variable (m h) in
/-- The primary of the up set is the one that is picked before the cleaning: some OSD that is up
has an affinity of its own, or the first OSD of the remapped result is up. -/
def PrimaryAgrees (pool : PgPool) (pg : Pg) : Prop :=
  (∃ affinity, m.osdPrimaryAffinity = some affinity ∧ ∃ o ∈ m.remapped h pool pg,
      m.isUp o ∧ affinityOf affinity o ≠ defaultPrimaryAffinity) ∨ m.FirstUp (m.remapped h pool pg)

theorem affinitySet_rawToUpOsds : m.AffinitySet (m.rawToUpOsds pool raw) ↔
    ∃ affinity, m.osdPrimaryAffinity = some affinity ∧
      ∃ o ∈ raw, m.isUp o ∧ affinityOf affinity o ≠ defaultPrimaryAffinity := by
  refine exists_congr fun affinity => and_congr_right fun _ => exists_congr fun o => ?_
  constructor
  · rintro ⟨ho, hne, hother⟩
    exact ⟨((mem_rawToUpOsds hne).1 ho).1, ((mem_rawToUpOsds hne).1 ho).2, hother⟩
  · rintro ⟨ho, hup, hother⟩
    exact ⟨(mem_rawToUpOsds (isUp_ne_itemNone hup)).2 ⟨ho, hup⟩, isUp_ne_itemNone hup, hother⟩

variable {pg : Pg}

theorem pgToRawUp_eq (hpool : m.pools pg.pool = some pool) :
    m.pgToRawUp h pg = m.upOf h pool pg (m.remapped h pool pg) := by
  simp only [pgToRawUp, hpool]
  rfl

/-- The acting set is what `pg_temp` gives, or the up set. -/
theorem pgToUpActingOsds_eq (hpool : m.pools pg.pool = some pool)
    {upPrimary : ℤ}
    (hup : m.upOf h pool pg (m.rawToUpOsds pool (m.remapped h pool pg)) = (up, upPrimary)) :
    m.pgToUpActingOsds h pg true = if (m.getTempOsds pool pg).1 = [] then
        ⟨up, upPrimary, up,
          if (m.getTempOsds pool pg).2 = -1 then upPrimary else (m.getTempOsds pool pg).2⟩
      else ⟨up, upPrimary, (m.getTempOsds pool pg).1, (m.getTempOsds pool pg).2⟩ := by
  have hup' : m.applyPrimaryAffinity h (m.pgToRawOsds h pool pg).2 pool
      (m.rawToUpOsds pool (m.applyRemap pool pg (m.pgToRawOsds h pool pg).1))
      (pickPrimary (m.rawToUpOsds pool (m.applyRemap pool pg (m.pgToRawOsds h pool pg).1))) =
        (up, upPrimary) := hup
  simp only [pgToUpActingOsds, hpool, Bool.not_true, Bool.false_and, Bool.false_eq_true, if_false,
    hup']

theorem placed_getTempOsds (hm : m.Distinct) (pool : PgPool) (pg : Pg) :
    m.Placed (m.getTempOsds pool pg).1 := by
  refine placed_rawToUpOsds m pool ?_
  cases htemp : m.pgTemp (pool.rawPgToPg pg) with
  | none => exact Pairwise.nil
  | some l => exact hm.temp _ l htemp

theorem canShiftOsds_of_erasure (htype : pool.type = .erasure) : pool.canShiftOsds = false := by
  rw [PgPool.canShiftOsds, htype]

theorem canShiftOsds_of_replicated (htype : pool.type = .replicated) :
    pool.canShiftOsds = true := by
  rw [PgPool.canShiftOsds, htype]

/-- A pool that keeps positions uses `pg_temp` unless it is empty. -/
theorem getTempOsds_of_erasure (hshift : pool.canShiftOsds = false) (pg : Pg) :
    (m.getTempOsds pool pg).1 = [] ∧ m.actingSource h pool pg = m.remapped h pool pg ∨
      (m.getTempOsds pool pg).1 ≠ [] ∧
        (m.getTempOsds pool pg).1 = m.rawToUpOsds pool (m.actingSource h pool pg) := by
  rw [getTempOsds, actingSource]
  match htemp : m.pgTemp (pool.rawPgToPg pg) with
  | none => exact .inl ⟨by simp [rawToUpOsds], rfl⟩
  | some [] => exact .inl ⟨by simp [rawToUpOsds], rfl⟩
  | some (o :: osds) => exact .inr ⟨by simp [rawToUpOsds_of_not_shift hshift], rfl⟩

theorem getTempOsds_primary (pg : Pg) : (m.getTempOsds pool pg).2 =
    (m.primaryTemp (pool.rawPgToPg pg)).getD (pickPrimary (m.getTempOsds pool pg).1) := by
  rw [getTempOsds]
  cases m.primaryTemp (pool.rawPgToPg pg) <;> rfl

theorem primaryOf_getTempOsds (hm : m.Distinct)
    (hprimary : ∀ o, m.primaryTemp (pool.rawPgToPg pg) = some o →
      o ∈ (m.getTempOsds pool pg).1 ∧ o ≠ itemNone) :
    PrimaryOf (m.getTempOsds pool pg).2 (m.getTempOsds pool pg).1 := by
  have hplaced := placed_getTempOsds hm pool pg
  rw [getTempOsds_primary]
  cases htemp : m.primaryTemp (pool.rawPgToPg pg) with
  | some o =>
    obtain ⟨ho, hne⟩ := hprimary o htemp
    exact primaryOf_of_mem hplaced ho hne
  | none => exact primaryOf_pickPrimary hplaced

/-- Without OSDs in `pg_temp` the primary is that of the up set, or what `primary_temp` says. -/
theorem primaryOf_up {upPrimary : ℤ} (hup : m.Placed up)
    (hpri : PrimaryOf upPrimary up) (hempty : (m.getTempOsds pool pg).1 = [])
    (hprimary : ∀ o, m.primaryTemp (pool.rawPgToPg pg) = some o → o ∈ up ∧ o ≠ itemNone) :
    PrimaryOf (if (m.getTempOsds pool pg).2 = -1 then upPrimary else (m.getTempOsds pool pg).2)
      up := by
  rw [getTempOsds_primary, hempty]
  split
  next => exact hpri
  next hset =>
    cases htemp : m.primaryTemp (pool.rawPgToPg pg) with
    | some o =>
      obtain ⟨ho, hne⟩ := hprimary o htemp
      exact primaryOf_of_mem hup ho hne
    | none => exact absurd (by rw [htemp]; rfl) hset

/-- **The up and the acting set are sound, and `pg_to_raw_up` agrees with them exactly if the
first OSD of the remapped result is up or affinities decide.** -/
theorem mapping_sound_iff (hm : m.Distinct) (hpool : m.pools pg.pool = some pool)
    (hprimary : ∀ o, m.primaryTemp (pool.rawPgToPg pg) = some o →
      o ∈ (m.pgToUpActingOsds h pg true).acting ∧ o ≠ itemNone) :
    MappingSound m h pool pg (m.pgToUpActingOsds h pg true) ↔ m.PrimaryAgrees h pool pg := by
  obtain ⟨up, upPrimary, hup⟩ : ∃ up upPrimary,
      m.upOf h pool pg (m.rawToUpOsds pool (m.remapped h pool pg)) = (up, upPrimary) := ⟨_, _, rfl⟩
  obtain ⟨hplaced, hpri, hkeep, hfront⟩ := upOf_spec h hm pool pg hup
  have hraw : m.pgToRawUp h pg = (up, upPrimary) ↔ m.PrimaryAgrees h pool pg := by
    rw [pgToRawUp_eq hpool, ← hup, upOf_eq_iff, affinitySet_rawToUpOsds, PrimaryAgrees]
  have hpos : pool.type = .erasure → ∀ (i : ℕ) (o : ℤ), o ≠ itemNone →
      (up[i]? = some o ↔ (m.remapped h pool pg)[i]? = some o ∧ m.isUp o) := by
    intro htype i o hne
    have hshift := canShiftOsds_of_erasure htype
    rw [hkeep hshift]
    exact getElem?_rawToUpOsds hshift hne i
  have hfirst := fun htype => hfront (canShiftOsds_of_replicated htype)
  rw [pgToUpActingOsds_eq hpool hup] at hprimary ⊢
  rw [← hraw]
  by_cases hempty : (m.getTempOsds pool pg).1 = []
  · rw [if_pos hempty] at hprimary ⊢
    refine ⟨fun hsound => hsound.rawUp, fun hagree => ⟨hplaced, hplaced, hpos, ?_, hpri,
      primaryOf_up hplaced hpri hempty hprimary, hfirst, hagree⟩⟩
    intro htype
    rcases getTempOsds_of_erasure (canShiftOsds_of_erasure htype) pg with
      ⟨-, hsource⟩ | ⟨hne, -⟩
    · rw [hsource]
      exact hpos htype
    · exact absurd hempty hne
  · rw [if_neg hempty] at hprimary ⊢
    refine ⟨fun hsound => hsound.rawUp, fun hagree => ⟨hplaced, placed_getTempOsds hm pool pg, hpos,
      ?_, hpri, primaryOf_getTempOsds hm hprimary, hfirst, hagree⟩⟩
    intro htype i o hne
    have hshift := canShiftOsds_of_erasure htype
    rcases getTempOsds_of_erasure hshift pg with ⟨hnil, -⟩ | ⟨-, hsource⟩
    · exact absurd hnil hempty
    · rw [hsource]
      exact getElem?_rawToUpOsds hshift hne i

/-- A pool with one placement group. -/
def onePg (type : PoolType) (size : ℕ) : PgPool := ⟨type, size, 0, 1#32, 1#32, false⟩

/-- Three OSDs of which the first is down; CRUSH chooses `raw`, and `temp` is to act with its last
OSD as the primary. -/
def threeOsds (pool : PgPool) (raw temp : List ℤ) : OSDMap where
  maxOsd := 3
  osdState := [1#32, 3#32, 3#32]
  osdWeight := [0x10000#32, 0x10000#32, 0x10000#32]
  osdPrimaryAffinity := none
  pools := fun _ => some pool
  pgTemp := fun _ => some temp
  primaryTemp := fun _ => temp.getLast?
  pgUpmap := fun _ => none
  pgUpmapItems := fun _ => none
  crush := ⟨fun _ _ _ => 0, fun _ _ _ _ _ => raw⟩
  maxOsd_le := by decide
  length_state := rfl
  length_weight := rfl
  length_affinity := by simp
  upmap_nonneg := by simp
  upmapItems_nonneg := by simp

theorem threeOsds_distinct {pool : PgPool} {raw temp : List ℤ} (hraw : NoOsdTwice raw)
    (htemp : NoOsdTwice temp) : (threeOsds pool raw temp).Distinct :=
  ⟨fun _ _ _ _ _ => hraw, by simp [threeOsds], by simpa [threeOsds] using fun _ => htemp⟩

/-- A hash for a map that uses none. -/
def zeroHash : Crush.Hash := ⟨fun _ _ _ => 0#32, fun _ _ _ _ => 0#32⟩

/-- In an erasure coded pool the hole of the OSD that is down stays where it is, in both sets. -/
theorem mapping_sound_iff_firstUp :
    (threeOsds (onePg .erasure 3) [1, 0, 2] [0, 2, 1]).pgToUpActingOsds zeroHash ⟨0#64, 0#32⟩
      true = ⟨[1, itemNone, 2], 1, [itemNone, 2, 1], 1⟩ ∧
    MappingSound (threeOsds (onePg .erasure 3) [1, 0, 2] [0, 2, 1]) zeroHash (onePg .erasure 3)
      ⟨0#64, 0#32⟩ ((threeOsds (onePg .erasure 3) [1, 0, 2] [0, 2, 1]).pgToUpActingOsds zeroHash
        ⟨0#64, 0#32⟩ true) := by
  have hrun : (threeOsds (onePg .erasure 3) [1, 0, 2] [0, 2, 1]).pgToUpActingOsds zeroHash
      ⟨0#64, 0#32⟩ true = ⟨[1, itemNone, 2], 1, [itemNone, 2, 1], 1⟩ := rfl
  refine ⟨hrun, (mapping_sound_iff (threeOsds_distinct (by decide) (by decide)) rfl ?_).2 (.inr ?_)⟩
  · intro o ho
    obtain rfl : 1 = o := Option.some_inj.1 ho
    rw [hrun]
    decide
  · intro o ho
    obtain rfl : 1 = o := Option.some_inj.1 ho
    decide

/-- The primary that `pg_to_raw_up` returns is down and not in the set it returns. -/
theorem rawUp_primary_down : (threeOsds (onePg .replicated 2) [0, 1] []).Distinct ∧
    (threeOsds (onePg .replicated 2) [0, 1] []).pgToUpActingOsds zeroHash ⟨0#64, 0#32⟩ true =
      ⟨[1], 1, [1], 1⟩ ∧
    (threeOsds (onePg .replicated 2) [0, 1] []).pgToRawUp zeroHash ⟨0#64, 0#32⟩ = ([1], 0) ∧
    ¬ MappingSound (threeOsds (onePg .replicated 2) [0, 1] []) zeroHash (onePg .replicated 2)
      ⟨0#64, 0#32⟩ ((threeOsds (onePg .replicated 2) [0, 1] []).pgToUpActingOsds zeroHash
        ⟨0#64, 0#32⟩ true) := by
  have hup : (threeOsds (onePg .replicated 2) [0, 1] []).pgToUpActingOsds zeroHash
      ⟨0#64, 0#32⟩ true = ⟨[1], 1, [1], 1⟩ := rfl
  have hraw : (threeOsds (onePg .replicated 2) [0, 1] []).pgToRawUp zeroHash ⟨0#64, 0#32⟩ =
      ([1], 0) := rfl
  refine ⟨threeOsds_distinct (by decide) (by decide), hup, hraw, fun hsound => ?_⟩
  have := hsound.rawUp
  rw [hraw, hup] at this
  simp at this

end OSDMap

end Ceph.Osd
