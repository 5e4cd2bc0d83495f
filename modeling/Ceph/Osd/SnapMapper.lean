import Ceph.Common.HObjectPrefix
import Ceph.Lib.PrefixScan
import Ceph.Lib.Loop

/-!
# The snap mapper

`SnapMapper` of `osd/SnapMapper.h` and `osd/SnapMapper.cc`.  It keeps two families of
keys in one map: from an object to the set of its snapshots, and from a snapshot and an
object to the object, so that the objects of a snapshot are found by the beginning of
their keys.

The map is shared with the mappers of other placement groups.  It is modelled as its
readers see it, with all transactions applied (`MapCacher` gives them this view).
Values are what the stored bytes decode to.
-/

namespace Ceph.Osd

open Ceph.Common

/-- `snapid_t` -/
abbrev SnapId := Fin (2 ^ 64)

/-- `-ENOENT` -/
def enoent : ℤ := -2

/-- What a value of the map decodes to: `object_snaps` or `Mapping`. -/
inductive SnapValue where
  | objectSnaps (oid : HObject) (snaps : Finset SnapId)
  | mapping (snap : SnapId) (hoid : HObject)
  deriving DecidableEq

/-- The map behind the mapper. -/
abbrev SnapStore := Finmap fun _ : List Char => SnapValue

/-- `MAPPING_PREFIX` -/
def mappingPrefix : List Char := "MAP_".toList

/-- `OBJECT_PREFIX` -/
def objectPrefix : List Char := "OBJ_".toList

/-- `get_prefix`: the snapshot is cast to `unsigned` and printed with sixteen digits. -/
def getPrefix (snap : SnapId) : List Char :=
  mappingPrefix ++ (upperHex 16 (snap.val % 2 ^ 32) ++ ['_'])

/-- `is_mapping` -/
def isMapping (toTest : List Char) : Bool := toTest.take mappingPrefix.length = mappingPrefix

/-- `shard_id_t::NO_SHARD` -/
def noShard : BitVec 8 := -1#8

/-- `make_shard_prefix` -/
def makeShardPrefix (shard : BitVec 8) : List Char :=
  if shard = noShard then []
  else '.' :: (Nat.toDigits 16 (shard.signExtend 32).toNat ++ ['_'])

/-- `SnapMapper`, of the objects of a placement group. -/
structure SnapMapper where
  maskBits : ℕ
  pattern : BitVec 32
  pool : BitVec 64
  shard : BitVec 8
  maskBits_lt : maskBits < 32

namespace SnapMapper

variable (m : SnapMapper)

/-- `shard_prefix` -/
def shardPrefix : List Char := makeShardPrefix m.shard

/-- `prefixes`, in order. -/
def prefixes : List (List Char) :=
  match getPrefixes m.maskBits m.pattern m.pool with
  | some prefixes => (prefixes.image (m.shardPrefix ++ ·)).sort (· ≤ ·)
  | none => []

/-- `check` -/
def check (hoid : HObject) : Bool := matchHash hoid.hash m.maskBits m.pattern

/-- `to_raw_key` -/
def toRawKey (snap : SnapId) (hoid : HObject) : List Char :=
  getPrefix snap ++ (m.shardPrefix ++ hoid.toStr)

/-- `to_object_key` -/
def toObjectKey (hoid : HObject) : List Char := objectPrefix ++ (m.shardPrefix ++ hoid.toStr)

variable (store : SnapStore)

/-- `remove_keys` -/
def removeKeys (keys : List (List Char)) : SnapStore :=
  keys.foldl (fun store key => store.erase key) store

variable (oid : HObject)

/-- `get_snaps`: the snapshots, or `none` for `-ENOENT`. -/
def getSnaps : Option (Option (Finset SnapId)) := do
  assert (m.check oid)
  match store.lookup (m.toObjectKey oid) with
  | none => some none
  | some (.objectSnaps _ snaps) => do
    assert (snaps ≠ ∅)
    some (some snaps)
  | some (.mapping _ _) => none

variable (snaps : Finset SnapId)

/-- `set_snaps` -/
def setSnaps : Option SnapStore := do
  assert (m.check oid)
  some (store.insert (m.toObjectKey oid) (.objectSnaps oid snaps))

/-- `clear_snaps` -/
def clearSnaps : Option SnapStore := do
  assert (m.check oid)
  some (store.erase (m.toObjectKey oid))

/-- The keys of an object and a set of its snapshots. -/
def rawKeys : List (List Char) :=
  (snaps.sort (· ≤ ·)).map fun snap => m.toRawKey snap oid

/-- `remove_oid` and `_remove_oid`, with the value that is returned. -/
def removeOid : Option (SnapStore × ℤ) := do
  assert (m.check oid)
  match ← m.getSnaps store oid with
  | none => some (store, enoent)
  | some snaps => do
    let store ← m.clearSnaps store oid
    some (removeKeys store (m.rawKeys oid snaps), 0)

/-- `update_snaps`, with the value that is returned. -/
def updateSnaps (newSnaps : Finset SnapId) (oldSnapsCheck : Option (Finset SnapId)) :
    Option (SnapStore × ℤ) := do
  assert (m.check oid)
  if newSnaps = ∅ then m.removeOid store oid
  else
    match ← m.getSnaps store oid with
    | none => some (store, enoent)
    | some snaps => do
      assert (oldSnapsCheck.all fun old => snaps = old)
      let store ← m.setSnaps store oid newSnaps
      some (removeKeys store (m.rawKeys oid (snaps \ newSnaps)), 0)

/-- `to_add` in `add_oid`.  The first value inserted under a key stays. -/
def toAdd (oid : HObject) (snaps : Finset SnapId) : SnapStore :=
  (snaps.sort (· ≤ ·)).foldl (fun toAdd snap =>
    if m.toRawKey snap oid ∈ toAdd then toAdd
    else toAdd.insert (m.toRawKey snap oid) (.mapping snap oid)) ∅

/-- `add_oid` -/
def addOid : Option SnapStore := do
  assert (m.check oid)
  let out ← m.getSnaps store oid
  assert (out = none)
  let store ← m.setSnaps store oid snaps
  some (m.toAdd oid snaps ∪ store)

/-- The inner loop of `get_next_objects_to_trim`, which is left when `n` objects are
found; with `r`. -/
def trimLoop (store : SnapStore) (snap : SnapId) (start : List Char) :
    ℕ → List Char → List HObject → Option (List HObject × ℤ)
  | 0, _, out => some (out, 0)
  | n + 1, pos, out =>
    match PrefixScan.next store pos with
    | none => some (out, enoent)
    | some (key, value) =>
      if key.take start.length ≠ start then some (out, 0)
      else do
        assert (isMapping key)
        match value with
        | .objectSnaps _ _ => none
        | .mapping snap' hoid => do
          assert (snap' = snap)
          assert (m.check hoid)
          trimLoop store snap start n key (out ++ [hoid])

/-- The outer loop. -/
def trimPrefixes (store : SnapStore) (snap : SnapId) (max : ℕ) :
    List (List Char) → List HObject → Option (List HObject)
  | [], out => some out
  | i :: prefixes, out =>
    if out.length < max then do
      let start := getPrefix snap ++ i
      let (out, r) ← m.trimLoop store snap start (max - out.length) start out
      if r = 0 then trimPrefixes store snap max prefixes out else some out
    else some out

/-- `get_next_objects_to_trim`, with the value that is returned. -/
def getNextObjectsToTrim (snap : SnapId) (max : ℕ) : Option (List HObject × ℤ) := do
  let out ← m.trimPrefixes store snap max m.prefixes []
  some (out, if out.length = 0 then enoent else 0)

end SnapMapper

/-- A call that changes the map. -/
inductive SnapCall where
  | addOid (oid : HObject) (snaps : Finset SnapId)
  | updateSnaps (oid : HObject) (newSnaps : Finset SnapId) (oldSnapsCheck : Option (Finset SnapId))
  | removeOid (oid : HObject)

/-- The map after a call. -/
def SnapCall.run (m : SnapMapper) (store : SnapStore) : SnapCall → Option SnapStore
  | .addOid oid snaps => m.addOid store oid snaps
  | .updateSnaps oid newSnaps oldSnapsCheck =>
    (m.updateSnaps store oid newSnaps oldSnapsCheck).map (·.1)
  | .removeOid oid => (m.removeOid store oid).map (·.1)

end Ceph.Osd
