import Ceph.Common.HObject
import Ceph.Osd.PGLogSteps

/-!
# Writing the log out

`write_log_and_missing` of `osd/PGLog.cc`.  The entries of the log and the missing
items are kept in the omap of one object of the store.  A write clears ranges of keys,
single keys, and then sets those in `km`; only what was marked dirty is written.

Values are what the stored bytes decode to.  The names of objects are a parameter,
`to_str()`, which keeps objects apart (`Common.HObject.toStr_injective`).  The keys of
the other parts of a placement group, which start with an underscore, and the debug copy
of the keys are left out.
-/

namespace Ceph.Osd

open List EVersion SortedList

variable {O : Type}

/-! ## Keys -/

/-- `eversion_t::get_key_name`: `%010u.%020llu`. -/
def EVersion.keyName (v : EVersion) : List Char :=
  numeral Nat.digitChar 10 10 v.epoch ++ '.' :: numeral Nat.digitChar 10 20 v.version

/-- The version is an `eversion_t`, and not the one that stands for the end of all. -/
structure EVersion.Proper (v : EVersion) : Prop where
  epoch_lt : v.epoch < 2 ^ 32
  version_lt : v.version < 2 ^ 64
  lt_max : v < max

/-- The key of a missing item. -/
def missingKey (toStr : O ↪ List Char) (oid : O) : List Char := "missing/".toList ++ toStr oid

/-- The keys that are read back as missing items. -/
def isMissingKey (key : List Char) : Bool := key.take 7 = "missing".toList

/-- The keys that are read back as log entries. -/
def isLogKey (key : List Char) : Bool :=
  !(key.head? = some '_' || key = "divergent_priors".toList || key = "can_rollback_to".toList ||
    key = "rollback_info_trimmed_to".toList || isMissingKey key)

/-! ## The omap -/

/-- What a value decodes to. -/
inductive OmapValue (O : Type) where
  | entry (e : PgLogEntry O)
  | item (oid : O) (item : MissingItem)
  | version (v : EVersion)

/-- The omap of the object that holds the log. -/
abbrev Omap (O : Type) := List Char → Option (OmapValue O)

/-- Operations of a transaction on that object. -/
inductive OmapOp where
  | touch
  | rmkeyrange (first last : List Char)
  | rmkeys (keys : List (List Char))

open OmapOp

def OmapOp.apply (omap : Omap O) : OmapOp → Omap O
  | .touch => omap
  | .rmkeyrange first last => fun key => if first ≤ key ∧ key < last then none else omap key
  | .rmkeys keys => fun key => if key ∈ keys then none else omap key

/-- `omap_setkeys` -/
def setkeys (omap : Omap O) (km : List (List Char × OmapValue O)) : Omap O :=
  km.foldl (fun omap kv => Function.update omap kv.1 (some kv.2)) omap

/-! ## `write_log_and_missing` -/

namespace PGLog

variable (pglog : PGLog O)

/-- `is_dirty()` -/
def isDirty [DecidableEq O] : Bool :=
  !pglog.touchedLog || pglog.dirtyTo ≠ 0 || pglog.dirtyFrom ≠ max ||
    pglog.writeoutFrom ≠ max || pglog.trimmed ≠ ∅ || pglog.missing.changed ≠ ∅

/-- `undirty()` -/
def undirty : PGLog O :=
  { pglog with
    dirtyTo := 0
    dirtyFrom := max
    touchedLog := true
    trimmed := ∅
    writeoutFrom := max
    missing := pglog.missing.flush }

/-- The entries that are written: from the front of the log, and from its end. -/
def writtenEntries : List (PgLogEntry O) :=
  (pglog.log.log.takeWhile fun p => p.version ≤ pglog.dirtyTo) ++
  (pglog.log.log.reverse.takeWhile fun p =>
    (pglog.dirtyFrom ≤ p.version || pglog.writeoutFrom ≤ p.version) && pglog.dirtyTo ≤ p.version)

variable [LinearOrder O] (toStr : O ↪ List Char)

/-- The keys that are removed one by one. -/
def toRemove : List (List Char) :=
  (ascending pglog.trimmed).map keyName ++
  (if pglog.clearDivergentPriors then ["divergent_priors".toList] else []) ++
  ((ascending pglog.missing.changed).filter fun oid => !pglog.missing.isMissing oid).map
    (missingKey toStr)

/-- The transaction of `_write_log_and_missing`. -/
def writeOps : List OmapOp :=
  (if pglog.touchedLog then [] else [.touch]) ++ (if pglog.dirtyTo ≠ 0 then
    [.rmkeyrange (keyName 0) pglog.dirtyTo.keyName] else []) ++
  (if pglog.dirtyTo ≠ max ∧ pglog.dirtyFrom ≠ max then
    [.rmkeyrange pglog.dirtyFrom.keyName max.keyName] else []) ++
  (if pglog.toRemove toStr ≠ [] then [.rmkeys (pglog.toRemove toStr)] else [])

/-- What `_write_log_and_missing` adds to `km`. -/
def writeKm (requireRollback : Bool) : List (List Char × OmapValue O) :=
  pglog.writtenEntries.map (fun p => (p.version.keyName, .entry p)) ++
  (ascending pglog.missing.changed).filterMap (fun oid =>
    (pglog.missing.items.lookup oid).map fun item => (missingKey toStr oid, .item oid item)) ++
  (if requireRollback then
    [("can_rollback_to".toList, .version pglog.log.canRollbackTo),
     ("rollback_info_trimmed_to".toList, .version pglog.log.rollbackInfoTrimmedTo)]
  else [])

/-- `write_log_and_missing`, with its transaction applied and then `km` set. -/
def writeLogAndMissing (requireRollback : Bool) (pglog : PGLog O) (omap : Omap O) :
    PGLog O × Omap O :=
  if pglog.isDirty then
    (pglog.undirty,
      setkeys ((pglog.writeOps toStr).foldl apply omap) (pglog.writeKm toStr requireRollback))
  else (pglog, omap)

end PGLog

/-! ## The order of the keys -/

theorem cmp_digitChar : ∀ i < 10, ∀ j < 10, cmp (Nat.digitChar i) (Nat.digitChar j) = cmp i j := by
  decide

/-- The version is an `eversion_t`. -/
def EVersion.Bounded (v : EVersion) : Prop := v.epoch < 2 ^ 32 ∧ v.version < 2 ^ 64

variable {v : EVersion}

theorem EVersion.Proper.bounded (h : v.Proper) : v.Bounded :=
  ⟨h.epoch_lt, h.version_lt⟩

theorem EVersion.bounded_zero : (0 : EVersion).Bounded := ⟨by decide, by decide⟩

theorem EVersion.bounded_max : max.Bounded := ⟨by decide, by decide⟩

section

variable {a b : EVersion} (ha : a.Bounded) (hb : b.Bounded)

include ha hb

theorem EVersion.keyName_lt_iff : a.keyName < b.keyName ↔ a < b := by
  have hepoch : ∀ {v : EVersion}, v.Bounded → v.epoch < 10 ^ 10 := fun h =>
    h.1.trans (by norm_num)
  have hversion : ∀ {v : EVersion}, v.Bounded → v.version < 10 ^ 20 := fun h =>
    h.2.trans (by norm_num)
  unfold keyName
  rw [append_lt_append_iff (by simp), numeral_lt_iff cmp_digitChar (hepoch ha) (hepoch hb),
    cons_lt_cons_iff, numeral_lt_iff cmp_digitChar (hversion ha) (hversion hb), lt_iff]
  constructor
  · rintro (h | ⟨h, h' | ⟨-, h'⟩⟩)
    · exact .inl h
    · exact absurd h' (lt_irrefl _)
    · exact .inr ⟨numeral_inj cmp_digitChar (hepoch ha) (hepoch hb) h, h'⟩
  · rintro (h | ⟨h, h'⟩)
    · exact .inl h
    · exact .inr ⟨by rw [h], .inr ⟨rfl, h'⟩⟩

theorem EVersion.keyName_inj (h : a.keyName = b.keyName) : a = b := by
  rcases lt_trichotomy a b with hlt | heq | hgt
  · exact absurd h ((keyName_lt_iff ha hb).2 hlt).ne
  · exact heq
  · exact absurd h.symm ((keyName_lt_iff hb ha).2 hgt).ne

theorem EVersion.keyName_le_iff : a.keyName ≤ b.keyName ↔ a ≤ b := by
  rw [← not_lt, ← not_lt, keyName_lt_iff hb ha]

end

/-! ## Kinds of keys -/

theorem EVersion.Bounded.exists_keyName (h : v.Bounded) :
    ∃ d < 10, ∃ rest, v.keyName = Nat.digitChar d :: rest := by
  have hlt := h.1
  exact ⟨v.epoch / 10 ^ 9, by omega, _, rfl⟩

/-- A key of a version begins with a digit, all others do not. -/
theorem isLogKey_keyName (h : v.Bounded) : isLogKey v.keyName := by
  obtain ⟨d, hd, rest, hkey⟩ := h.exists_keyName
  have hdigit : ∀ d < 10, Nat.digitChar d ≠ '_' ∧ Nat.digitChar d ≠ 'd' ∧ Nat.digitChar d ≠ 'c' ∧
      Nat.digitChar d ≠ 'r' ∧ Nat.digitChar d ≠ 'm' := by decide
  obtain ⟨hu, hdp, hc, hr, hm⟩ := hdigit d hd
  have hdivergent : "divergent_priors".toList = 'd' :: "ivergent_priors".toList := rfl
  have hcan : "can_rollback_to".toList = 'c' :: "an_rollback_to".toList := rfl
  have hinfo : "rollback_info_trimmed_to".toList = 'r' :: "ollback_info_trimmed_to".toList := rfl
  have hmissing : "missing".toList = 'm' :: "issing".toList := rfl
  rw [hkey, isLogKey, isMissingKey, hdivergent, hcan, hinfo, hmissing]
  simp [hu, hdp, hc, hr, hm]

theorem isMissingKey_missingKey (toStr : O ↪ List Char) (oid : O) :
    isMissingKey (missingKey toStr oid) := by
  unfold isMissingKey missingKey
  rw [take_append_of_le_length (by decide)]
  decide

theorem missingKey_inj (toStr : O ↪ List Char) {a b : O}
    (h : missingKey toStr a = missingKey toStr b) : a = b :=
  toStr.injective (append_cancel_left h)

variable {key : List Char}

theorem not_isLogKey_of_isMissingKey (h : isMissingKey key) : ¬ isLogKey key := by
  unfold isLogKey
  simp [h]

/-- Missing items lie after all versions. -/
theorem keyName_lt_of_isMissingKey (h : isMissingKey key) (hv : v.Bounded) : v.keyName < key := by
  obtain ⟨d, hd, rest, hkey⟩ := hv.exists_keyName
  unfold isMissingKey at h
  have hmissing : "missing".toList = 'm' :: "issing".toList := rfl
  have hdigit : ∀ d < 10, Nat.digitChar d < 'm' := by decide
  cases key with
  | nil => simp at h
  | cons ch key =>
    rw [hmissing] at h
    simp only [take_succ_cons, List.cons.injEq, decide_eq_true_eq] at h
    rw [hkey, h.1, cons_lt_cons_iff]
    exact .inl (hdigit d hd)

/-! ## What a write does to a key -/

/-- With one value for the key, it is set or left. -/
theorem setkeys_eq_some_iff {omap : Omap O} {km : List (List Char × OmapValue O)}
    {val : OmapValue O} (huniq : ∀ v v', (key, v) ∈ km → (key, v') ∈ km → v = v') :
    setkeys omap km key = some val ↔
      (key, val) ∈ km ∨ (∀ v, (key, v) ∉ km) ∧ omap key = some val := by
  induction km generalizing omap with
  | nil => simp [setkeys]
  | cons kv km ih =>
    obtain ⟨k, v⟩ := kv
    refine (ih fun v v' h h' => huniq v v' (mem_cons_of_mem _ h) (mem_cons_of_mem _ h')).trans ?_
    by_cases hk : key = k
    · subst hk
      simp only [Function.update_self, Option.some_inj]
      constructor
      · rintro (h | ⟨-, rfl⟩)
        · exact .inl (mem_cons_of_mem _ h)
        · exact .inl mem_cons_self
      · rintro (h | ⟨h, -⟩)
        · obtain rfl := huniq v val mem_cons_self h
          by_cases hlater : (key, v) ∈ km
          · exact .inl hlater
          · refine .inr ⟨fun v' h' => hlater ?_, rfl⟩
            rwa [huniq v v' mem_cons_self (mem_cons_of_mem _ h')]
        · exact absurd mem_cons_self (h v)
    · simp [hk]

variable [LinearOrder O] (toStr : O ↪ List Char)

namespace PGLog

/-- The key is removed before `km` is set. -/
def Removed (pglog : PGLog O) (key : List Char) : Prop :=
  (pglog.dirtyTo ≠ 0 ∧ keyName 0 ≤ key ∧ key < pglog.dirtyTo.keyName) ∨
  ((pglog.dirtyTo ≠ max ∧ pglog.dirtyFrom ≠ max) ∧
    pglog.dirtyFrom.keyName ≤ key ∧ key < max.keyName) ∨ key ∈ pglog.toRemove toStr

/-- The transaction leaves the keys that are not removed. -/
theorem foldl_writeOps (pglog : PGLog O) (omap : Omap O) (key : List Char) (val : OmapValue O) :
    (pglog.writeOps toStr).foldl apply omap key = some val ↔
      omap key = some val ∧ ¬ pglog.Removed toStr key := by
  have hrange : ∀ (p : Prop) [Decidable p] (first last : List Char) (omap : Omap O),
      (if p then [rmkeyrange first last] else []).foldl apply omap key = some val ↔
        omap key = some val ∧ ¬ (p ∧ first ≤ key ∧ key < last) := by
    intro p _ first last omap
    by_cases hp : p
    · rw [if_pos hp]
      change (if first ≤ key ∧ key < last then none else omap key) = some val ↔ _
      split <;> simp [*]
    · simp [hp]
  have htouch : ∀ omap : Omap O,
      (if pglog.touchedLog then [] else [touch]).foldl apply omap = omap := by
    intro omap
    split <;> rfl
  have hkeys : ∀ omap : Omap O,
      (if pglog.toRemove toStr ≠ [] then [rmkeys (pglog.toRemove toStr)] else []).foldl
        apply omap key = some val ↔ omap key = some val ∧ key ∉ pglog.toRemove toStr := by
    intro omap
    by_cases hnil : pglog.toRemove toStr = []
    · simp [hnil]
    · rw [if_pos hnil]
      change (if key ∈ pglog.toRemove toStr then none else omap key) = some val ↔ _
      split <;> simp [*]
  unfold writeOps Removed
  rw [foldl_append, foldl_append, foldl_append, hkeys, hrange, hrange, htouch]
  simp only [not_or, and_assoc]

end PGLog

end Ceph.Osd
