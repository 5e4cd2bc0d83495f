import Ceph.ErasureCode.Base

/-!
# The object store of a shard

The operations of an `ObjectStore::Transaction` that the erasure coded backend
emits, and what they do to the objects of one shard.  The store itself is not
modelled further: each operation does what its name says.  An operation on an
object that is not there does nothing, except for `touch` and the writes, which
create it.
-/

namespace Ceph.Osd

open List

/-- The `hobject_t` of an object, as far as it is looked at. -/
structure Soid where
  pool : ℤ
  name : String
  deriving DecidableEq

/-- `is_temp()` -/
def Soid.isTemp (oid : Soid) : Bool := oid.pool ≤ -2 && oid.pool ≠ -(2 ^ 63)

/-- `ghobject_t`: an object, or (with a generation) what was stashed of it.  The
shard is that of the store. -/
structure Goid where
  hobj : Soid
  generation : Option ℕ := none
  deriving DecidableEq

/-! ## Contents -/

/-- `append_zero(n)` on an empty buffer. -/
def zeros (n : ℕ) : Buffer := replicate n 0

@[simp] theorem length_zeros (n : ℕ) : (zeros n).length = n := length_replicate

@[simp] theorem getD_zeros (n x : ℕ) : (zeros n).getD x 0 = 0 := by
  rw [zeros, getD_eq_getElem?_getD, getElem?_replicate]
  split <;> rfl

theorem getD_append (a b : Buffer) (x : ℕ) :
    (a ++ b).getD x 0 = if x < a.length then a.getD x 0 else b.getD (x - a.length) 0 := by
  by_cases h : x < a.length
  · rw [if_pos h, List.getD_append _ _ _ _ h]
  · rw [if_neg h, List.getD_append_right _ _ _ _ (by omega)]

variable (content : Buffer)

/-- The content cut or extended with zeros to `n` bytes. -/
def resize (n : ℕ) : Buffer := content.take n ++ zeros (n - content.length)

/-- The content with `bl` written at `off`. -/
def overwrite (off : ℕ) (bl : Buffer) : Buffer :=
  resize content off ++ bl ++ content.drop (off + bl.length)

theorem length_resize (n : ℕ) : (resize content n).length = n := by
  rw [resize, length_append, length_take, length_zeros]
  omega

theorem getD_resize (n x : ℕ) :
    (resize content n).getD x 0 = if x < n then content.getD x 0 else 0 := by
  rw [resize, getD_append, length_take, getD_zeros]
  by_cases hx : x < n
  · rw [if_pos hx]
    by_cases hl : x < content.length
    · rw [if_pos (by omega), getD_eq_getElem?_getD, getElem?_take_of_lt hx, getD_eq_getElem?_getD]
    · rw [if_neg (by omega), getD_eq_default _ _ (by omega)]
  · rw [if_neg (by omega), if_neg hx]

theorem length_overwrite (off : ℕ) (bl : Buffer) :
    (overwrite content off bl).length = max content.length (off + bl.length) := by
  rw [overwrite, length_append, length_append, length_resize, length_drop]
  omega

theorem getD_overwrite (off : ℕ) (bl : Buffer) (x : ℕ) : (overwrite content off bl).getD x 0 =
      if off ≤ x ∧ x < off + bl.length then bl.getD (x - off) 0 else content.getD x 0 := by
  rw [overwrite, getD_append, getD_append, length_append, length_resize, getD_resize]
  by_cases h1 : x < off
  · rw [if_pos (by omega), if_pos h1, if_pos h1, if_neg (by omega)]
  · by_cases h2 : x < off + bl.length
    · rw [if_pos h2, if_neg h1, if_pos (by omega)]
    · rw [if_neg h2, if_neg (by omega), getD_eq_getElem?_getD, getElem?_drop]
      congr 2
      omega

/-! ## Transactions -/

/-- An operation of an `ObjectStore::Transaction`. -/
inductive StoreOp where
  | touch (oid : Goid)
  | write (oid : Goid) (off len : ℕ) (bl : Buffer) (flags : UInt32)
  | truncate (oid : Goid) (size : ℕ)
  | remove (oid : Goid)
  | setattr (oid : Goid) (name : String) (val : Buffer)
  | setattrs (oid : Goid) (attrs : List (String × Buffer))
  | rmattr (oid : Goid) (name : String)
  | clone (oid noid : Goid)
  | cloneRange (oid noid : Goid) (srcoff srclen dstoff : ℕ)
  | collectionMoveRename (oldoid oid : Goid)
  | tryRename (oldoid oid : Goid)
  | setAllocHint (oid : Goid) (expectedObjectSize expectedWriteSize : ℕ) (flags : UInt32)
  /-- The snapshots of an object are kept by the snap mapper, in objects of its own. -/
  | setObjectSnapMapping (oid : Soid) (snaps : List ℕ)
  | clearObjectSnapMapping (oid : Soid)

/-- What a shard stores of an object. -/
@[ext] structure StoredObject where
  data : Buffer := []
  xattrs : String → Option Buffer := fun _ => none

/-- The objects of a shard. -/
abbrev Store : Type := Goid → Option StoredObject

namespace Store

variable (store : Store)

/-- Replace what is stored of an object. -/
def set (oid : Goid) (obj : Option StoredObject) : Store :=
  fun o => if o = oid then obj else store o

/-- Change an object that exists. -/
def modify (oid : Goid) (f : StoredObject → StoredObject) : Store :=
  store.set oid ((store oid).map f)

/-- Move an object that exists. -/
def move (oldoid oid : Goid) : Store :=
  match store oldoid with
  | some obj => (store.set oldoid none).set oid (some obj)
  | none => store

/-- The attributes `attrs` set over `xattrs`. -/
def setXattrs (xattrs : String → Option Buffer) (attrs : List (String × Buffer)) :
    String → Option Buffer :=
  fun name => (attrs.lookup name).or (xattrs name)

/-- What an operation does. -/
def apply : StoreOp → Store
  | .touch oid => store.set oid (some ((store oid).getD {}))
  | .write oid off _ bl _ =>
    let obj := (store oid).getD {}
    store.set oid (some { obj with data := overwrite obj.data off bl })
  | .truncate oid size => store.modify oid fun obj => { obj with data := resize obj.data size }
  | .remove oid => store.set oid none
  | .setattr oid name val =>
    store.modify oid fun obj => { obj with xattrs := setXattrs obj.xattrs [(name, val)] }
  | .setattrs oid attrs => store.modify oid fun obj =>
    { obj with xattrs := setXattrs obj.xattrs attrs }
  | .rmattr oid name => store.modify oid fun obj =>
    { obj with xattrs := fun n => if n = name then none else obj.xattrs n }
  | .clone oid noid =>
    match store oid with
    | some obj => store.set noid (some obj)
    | none => store
  | .cloneRange oid noid srcoff srclen dstoff =>
    match store oid with
    | some src =>
      let dst := (store noid).getD {}
      store.set noid (some { dst with
        data := overwrite dst.data dstoff ((src.data.drop srcoff).take srclen) })
    | none => store
  | .collectionMoveRename oldoid oid => store.move oldoid oid
  | .tryRename oldoid oid => store.move oldoid oid
  | .setAllocHint .. => store
  | .setObjectSnapMapping .. => store
  | .clearObjectSnapMapping _ => store

/-- What a transaction does. -/
def applyAll (ops : List StoreOp) : Store := ops.foldl apply store

@[simp] theorem applyAll_nil : store.applyAll [] = store := rfl

@[simp] theorem applyAll_cons (op : StoreOp) (ops : List StoreOp) :
    store.applyAll (op :: ops) = (store.apply op).applyAll ops := rfl

theorem applyAll_append (ops ops' : List StoreOp) :
    store.applyAll (ops ++ ops') = (store.applyAll ops).applyAll ops' :=
  foldl_append

@[simp] theorem set_self (oid : Goid) (obj : Option StoredObject) :
    (store.set oid obj) oid = obj :=
  if_pos rfl

theorem set_of_ne {oid oid' : Goid} (h : oid' ≠ oid) (obj : Option StoredObject) :
    (store.set oid obj) oid' = store oid' :=
  if_neg h

@[simp] theorem modify_self (oid : Goid) (f : StoredObject → StoredObject) :
    (store.modify oid f) oid = (store oid).map f :=
  if_pos rfl

theorem modify_of_ne {oid oid' : Goid} (h : oid' ≠ oid) (f : StoredObject → StoredObject) :
    (store.modify oid f) oid' = store oid' :=
  if_neg h

end Store

end Ceph.Osd
