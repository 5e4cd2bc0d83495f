import Ceph.Lib.IntervalMap
import Ceph.Osd.ObjectStore

/-!
# Object operations

`PGTransaction::ObjectOperation` of `osd/PGTransaction.h`, and the calls `create`,
`write`, `zero` and `truncate` that fold the requests of a client into one of
them.

What the calls are for is stated over the content of the object
(`Call.effect`): each call changes the content in its own way, and a transaction
applies its calls in order.  `Folded` says what of this an `ObjectOperation`
remembers, namely the last byte written at every offset, the lowest and the last
truncation; `build_folded` proves that the calls keep it.
-/

namespace Ceph.Osd

open IntervalMap List Option

/-- `std::numeric_limits<uint64_t>::max()` -/
def uint64Max : ℕ := 2 ^ 64 - 1

/-! ## Buffer updates -/

/-- `BufferUpdateType` -/
inductive BufferUpdate where
  | write (buffer : Buffer) (fadviseFlags : UInt32)
  | zero (len : ℕ)
  | cloneRange (source : Soid) (offset len : ℕ)
  deriving DecidableEq

open BufferUpdate

variable {a : BufferUpdate}

namespace BufferUpdate

def split (offset len : ℕ) : BufferUpdate → BufferUpdate
  | write buffer flags => write ((buffer.drop offset).take len) flags
  | zero _ => zero len
  | cloneRange source off _ => cloneRange source (off + offset) len

def length : BufferUpdate → ℕ
  | write buffer _ => buffer.length
  | zero len => len
  | cloneRange _ _ len => len

def canMerge : BufferUpdate → BufferUpdate → Bool
  | write _ flags, write _ flags' => flags = flags'
  | zero _, zero _ => true
  | _, _ => false

/-- `merge`, which is only called where `can_merge` holds. -/
def merge : BufferUpdate → BufferUpdate → BufferUpdate
  | write buffer flags, write buffer' _ => write (buffer ++ buffer') flags
  | zero len, zero len' => zero (len + len')
  | left, _ => left

/-- `SplitMerger` -/
def splitMerger : Splitter BufferUpdate where
  length := length
  split := split
  canMerge := canMerge
  merge := merge

/-- The byte an update puts at offset `i` of its extent.  Ranges to clone are
refused by the erasure coded backend. -/
def byte : BufferUpdate → ℕ → Byte
  | write buffer _, i => buffer.getD i 0
  | zero _, _ => 0
  | cloneRange .., _ => 0

/-- Not a range to clone. -/
def IsData : BufferUpdate → Prop
  | cloneRange .. => False
  | _ => True

theorem splitMerger_lawful : splitMerger.Lawful byte where
  length_split := by
    intro a o l h
    cases a with
    | write buffer flags =>
      simp only [splitMerger, split, length, length_take, length_drop] at *
      omega
    | zero len => rfl
    | cloneRange source off len => rfl
  at_split := by
    intro a o l i h hi
    cases a with
    | write buffer flags =>
      simp only [splitMerger, split, byte, getD_eq_getElem?_getD, getElem?_take_of_lt hi,
        getElem?_drop]
    | zero len => rfl
    | cloneRange source off len => rfl
  length_merge := by
    intro a b h
    cases a <;> cases b <;>
      simp_all [splitMerger, canMerge, merge, length]
  at_merge_left := by
    intro a b i h hi
    cases a with
    | write buffer flags =>
      cases b with
      | write buffer' flags' => exact List.getD_append _ _ _ _ hi
      | zero len => cases h
      | cloneRange source off len => cases h
    | zero len => cases b <;> rfl
    | cloneRange source off len => rfl
  at_merge_right := by
    intro a b i h hi
    cases a <;> cases b <;>
      simp_all [splitMerger, canMerge, merge, length, byte, getD_eq_getElem?_getD]

theorem IsData.split (h : a.IsData) (o l : ℕ) : (a.split o l).IsData := by
  cases a with
  | write buffer flags => trivial
  | zero len => trivial
  | cloneRange source off len => exact h

theorem IsData.merge {b : BufferUpdate} (ha : a.IsData) : (a.merge b).IsData := by
  cases a with
  | write buffer flags => cases b <;> trivial
  | zero len => cases b <;> trivial
  | cloneRange source off len => exact absurd ha id

end BufferUpdate

/-! ## Object operations -/

/-- `InitType` -/
inductive InitType where
  | none
  | create
  | clone (source : Soid)
  | rename (source : Soid)
  deriving DecidableEq

inductive OmapUpdateType where
  | remove
  | insert
  deriving DecidableEq

/-- `alloc_hint_t` -/
structure AllocHint where
  expectedObjectSize : ℕ
  expectedWriteSize : ℕ
  flags : UInt32
  deriving DecidableEq

/-- `PGTransaction::ObjectOperation`.  The keys of `attrUpdates` are distinct. -/
structure ObjectOperation where
  initType : InitType := .none
  deleteFirst : Bool := false
  clearOmap : Bool := false
  /-- The lowest and the last truncation. -/
  truncate : Option (ℕ × ℕ) := none
  attrUpdates : List (String × Option Buffer) := []
  omapUpdates : List (OmapUpdateType × Buffer) := []
  omapHeader : Option Buffer := none
  /-- The old and the new snapshots. -/
  updatedSnaps : Option (List ℕ × List ℕ) := none
  allocHint : Option AllocHint := none
  bufferUpdates : IntervalMap BufferUpdate := []

open ObjectOperation

namespace ObjectOperation

variable (op : ObjectOperation)

def isDelete : Bool := op.initType = .none && op.deleteFirst

def isNone : Bool := op.initType = .none && !op.deleteFirst

def isFreshObject : Bool := op.initType ≠ .none

def hasSource : Option Soid :=
  match op.initType with
  | .clone source => some source
  | .rename source => some source
  | .none => none
  | .create => none

end ObjectOperation

/-- A call on a `PGTransaction` for one object. -/
inductive Call where
  | create
  | write (off len : ℕ) (bl : Buffer) (fadviseFlags : UInt32)
  | zero (off len : ℕ)
  | truncate (off : ℕ)

namespace ObjectOperation

/-- `PGTransaction::create` -/
def create (op : ObjectOperation) : Option ObjectOperation := do
  assert (op.isNone ∨ op.isDelete)
  some { op with initType := .create }

/-- `PGTransaction::write` -/
def write (op : ObjectOperation) (off len : ℕ) (bl : Buffer) (fadviseFlags : UInt32) :
    Option ObjectOperation := do
  assert (¬ op.isDelete)
  assert (op.updatedSnaps = none)
  assert (0 < len)
  assert (len = bl.length)
  let updates ← IntervalMap.insert splitMerger off len (.write bl fadviseFlags) op.bufferUpdates
  some { op with bufferUpdates := updates }

/-- `PGTransaction::zero` -/
def zero (op : ObjectOperation) (off len : ℕ) : Option ObjectOperation := do
  assert (¬ op.isDelete)
  assert (op.updatedSnaps = none)
  let updates ← IntervalMap.insert splitMerger off len (.zero len) op.bufferUpdates
  some { op with bufferUpdates := updates }

/-- The new value of `truncate`. -/
def lowestAndLast (off : ℕ) : Option (ℕ × ℕ) → ℕ × ℕ
  | none => (off, off)
  | some (first, _) => if off < first then (off, off) else (first, off)

/-- `PGTransaction::truncate` -/
def truncateTo (op : ObjectOperation) (off : ℕ) : Option ObjectOperation := do
  assert (¬ op.isDelete)
  assert (op.updatedSnaps = none)
  some { op with
    bufferUpdates := erase splitMerger off (uint64Max - off) op.bufferUpdates
    truncate := some (lowestAndLast off op.truncate) }

def call (op : ObjectOperation) : Call → Option ObjectOperation
  | .create => op.create
  | .write off len bl fadviseFlags => op.write off len bl fadviseFlags
  | .zero off len => op.zero off len
  | .truncate off => op.truncateTo off

/-- The operation a sequence of calls on a new transaction folds into. -/
def build (calls : List Call) : Option ObjectOperation := calls.foldlM call {}

end ObjectOperation

/-! ## What the calls mean -/

/-- What a call does to the content of the object. -/
def Call.effect (content : Buffer) : Call → Buffer
  | .create => content
  | .write off _ bl _ => overwrite content off bl
  | .zero off len => overwrite content off (zeros len)
  | .truncate off => resize content off

/-- The content after a sequence of calls. -/
def contentAfter (calls : List Call) (content : Buffer) : Buffer := calls.foldl Call.effect content

/-- The offset up to which a call reaches. -/
def Call.reach : Call → ℕ
  | .create => 0
  | .write off len _ _ => off + len
  | .zero off len => off + len
  | .truncate off => off

/-! ## What an operation remembers of its calls -/

/-- Nothing but writes, truncations and a creation was asked for. -/
structure ObjectOperation.Plain (op : ObjectOperation) : Prop where
  initType : op.initType = .none ∨ op.initType = .create
  deleteFirst : op.deleteFirst = false
  clearOmap : op.clearOmap = false
  attrUpdates : op.attrUpdates = []
  omapUpdates : op.omapUpdates = []
  omapHeader : op.omapHeader = none
  updatedSnaps : op.updatedSnaps = none
  allocHint : op.allocHint = none

/-- The updates of an operation are disjoint data, and end where addresses do. -/
structure ObjectOperation.WF (op : ObjectOperation) (limit : ℕ) : Prop where
  updates : IntervalMap.WF splitMerger 0 op.bufferUpdates
  data : ∀ e ∈ op.bufferUpdates, e.val.IsData
  covered : ∀ x, Covered op.bufferUpdates x → x < limit
  truncated : ∀ first second, op.truncate = some (first, second) → first ≤ second ∧ second ≤ limit

namespace ObjectOperation

variable (op : ObjectOperation)

/-- The byte last written at `x`. -/
def update (x : ℕ) : Option Byte := get byte op.bufferUpdates x

/-- The size of the object before the updates: that of the last truncation. -/
def baseSize (size : ℕ) : ℕ :=
  match op.truncate with
  | none => size
  | some (_, second) => second

/-- What the truncations leave of the old byte at `x`. -/
def keptByte (old : Buffer) (x : ℕ) : Byte :=
  match op.truncate with
  | none => old.getD x 0
  | some (first, _) => if x < first then old.getD x 0 else 0

/-- The byte at `x` of an operation on `old`: the last one written, else what is
left of the old one. -/
def byteAt (old : Buffer) (x : ℕ) : Byte :=
  (op.update x).getD (op.keptByte old x)

theorem update_isSome_iff (x : ℕ) : (op.update x).isSome ↔ Covered op.bufferUpdates x :=
  get_isSome_iff _ _ _

end ObjectOperation

/-- An operation that holds all there is to know about the calls that turned the
content `old` into `content`. -/
structure Folded (limit : ℕ) (old : Buffer) (op : ObjectOperation) (content : Buffer) : Prop where
  plain : op.Plain
  wf : op.WF limit
  bytes : ∀ x, content.getD x 0 = op.byteAt old x
  covered_lt : ∀ x, Covered op.bufferUpdates x → x < content.length
  base_le : op.baseSize old.length ≤ content.length
  size : content.length = op.baseSize old.length ∨
    0 < content.length ∧ Covered op.bufferUpdates (content.length - 1)

namespace Folded

variable {limit : ℕ} {old content : Buffer} {op : ObjectOperation}

theorem empty (limit : ℕ) (old : Buffer) : Folded limit old {} old where
  plain := ⟨.inl rfl, rfl, rfl, rfl, rfl, rfl, rfl, rfl⟩
  wf := ⟨WF.nil 0, by simp, by simp [Covered], by simp⟩
  bytes := fun x => rfl
  covered_lt := by simp [Covered]
  base_le := le_rfl
  size := .inl rfl

/-- A write or a zero. -/
theorem insert (h : Folded limit old op content) {off : ℕ} {bl : Buffer}
    (hbl : 0 < bl.length) (ha : a.length = bl.length) (hdata : a.IsData)
    (hbyte : ∀ i, a.byte i = bl.getD i 0) (hlimit : off + bl.length ≤ limit)
    {updates : IntervalMap BufferUpdate}
    (hins : IntervalMap.insert splitMerger off bl.length a op.bufferUpdates = some updates) :
    Folded limit old { op with bufferUpdates := updates } (overwrite content off bl) := by
  obtain ⟨m', hm', hwf, hget⟩ := insert_spec splitMerger_lawful (.inl rfl)
    h.wf.updates off hbl (show splitMerger.length a = bl.length from ha)
  rw [hins, some_inj] at hm'
  subst hm'
  have hcov : ∀ x, Covered updates x ↔
      (off ≤ x ∧ x < off + bl.length) ∨ Covered op.bufferUpdates x := by
    intro x
    rw [← get_isSome_iff byte, ← get_isSome_iff byte op.bufferUpdates, hget x]
    by_cases hin : off ≤ x ∧ x < off + bl.length
    · simp [hin]
    · simp [hin]
  have hdata' := insert_forall (fun o l a ha => ha.split o l)
    (fun a b ha _ => ha.merge) h.wf.data hdata hins
  have hlen := length_overwrite content off bl
  refine ⟨⟨h.plain.1, h.plain.2, h.plain.3, h.plain.4, h.plain.5, h.plain.6, h.plain.7, h.plain.8⟩,
    ⟨hwf, hdata', fun x hx => ?_, h.wf.truncated⟩, fun x => ?_, fun x hx => ?_, ?_, ?_⟩
  · rcases (hcov x).1 hx with hx | hx
    · omega
    · exact h.wf.covered x hx
  · have hx := hget x
    rw [getD_overwrite]
    by_cases hin : off ≤ x ∧ x < off + bl.length
    · rw [if_pos hin] at hx ⊢
      rw [byteAt, update, hx, getD_some, hbyte]
    · rw [if_neg hin] at hx ⊢
      rw [h.bytes x, byteAt, byteAt, update, update, hx]
      rfl
  · rcases (hcov x).1 hx with hx | hx
    · omega
    · have := h.covered_lt x hx
      omega
  · rw [hlen]
    exact h.base_le.trans (le_max_left _ _)
  · rw [hlen]
    rcases le_or_gt (off + bl.length) content.length with hle | hlt
    · rw [max_eq_left hle]
      rcases h.size with heq | ⟨hpos, hc⟩
      · exact .inl heq
      · exact .inr ⟨hpos, (hcov _).2 (.inr hc)⟩
    · exact .inr ⟨by omega, (hcov _).2 (.inl (by omega))⟩

/-- A truncation. -/
theorem truncate (hmax : limit ≤ uint64Max) (h : Folded limit old op content) {off : ℕ}
    (hlimit : off ≤ limit) :
    Folded limit old { op with
      bufferUpdates := erase splitMerger off (uint64Max - off) op.bufferUpdates
      truncate := some (lowestAndLast off op.truncate) } (resize content off) := by
  have hget : ∀ x, get byte (erase splitMerger off (uint64Max - off) op.bufferUpdates) x =
      if off ≤ x then none else op.update x := by
    intro x
    rw [get_erase splitMerger_lawful (fun e he => (h.wf.updates.sized e he).2)]
    by_cases hx : off ≤ x
    · rw [if_pos hx]
      by_cases hx' : x < off + (uint64Max - off)
      · rw [if_pos ⟨hx, hx'⟩]
      · rw [if_neg (by omega), get_eq_none_iff_not_covered]
        intro hc
        have := h.wf.covered x hc
        omega
    · rw [if_neg (by omega), if_neg hx]
      rfl
  have hcov : ∀ x, Covered (erase splitMerger off (uint64Max - off) op.bufferUpdates) x ↔
      x < off ∧ Covered op.bufferUpdates x := by
    intro x
    rw [← get_isSome_iff byte, hget x]
    by_cases hx : off ≤ x
    · simp [hx]
    · simp [hx, op.update_isSome_iff, lt_of_not_ge hx]
  have htr : ∃ first, lowestAndLast off op.truncate = (first, off) ∧ first ≤ off ∧
      ∀ x < off, x < first ↔ ∀ p, op.truncate = some p → x < p.1 := by
    cases ht : op.truncate with
    | none => exact ⟨off, rfl, le_rfl, fun x hx => by simp [hx]⟩
    | some p =>
      obtain ⟨first, -⟩ := p
      by_cases hlt : off < first
      · exact ⟨off, if_pos hlt, le_rfl, fun x hx => by simp; omega⟩
      · exact ⟨first, if_neg hlt, by omega, fun x hx => by simp⟩
  obtain ⟨first, hfirst, hle, hlow⟩ := htr
  rw [hfirst]
  refine ⟨⟨h.plain.1, h.plain.2, h.plain.3, h.plain.4, h.plain.5, h.plain.6, h.plain.7, h.plain.8⟩,
    ⟨WF.erase splitMerger_lawful (by omega) h.wf.updates _ _,
      erase_forall (fun o l a ha => ha.split o l) h.wf.data _ _,
      fun x hx => h.wf.covered x ((hcov x).1 hx).2, ?_⟩, fun x => ?_, fun x hx => ?_, ?_, ?_⟩
  · rintro f s hfs
    cases hfs
    exact ⟨hle, hlimit⟩
  · have hkept : ∀ x < off, (if x < first then old.getD x 0 else 0) = op.keptByte old x := by
      intro x hx
      have hlow := hlow x hx
      rw [keptByte]
      cases ht : op.truncate with
      | none => rw [if_pos (hlow.2 (by simp [ht]))]
      | some p =>
        simp only [ht, some.injEq, forall_eq'] at hlow
        simp only [hlow]
    show (resize content off).getD x 0 = (get byte
      (erase splitMerger off (uint64Max - off) op.bufferUpdates) x).getD
        (if x < first then old.getD x 0 else 0)
    rw [getD_resize, hget x]
    by_cases hx : off ≤ x
    · rw [if_neg (by omega), if_pos hx, getD_none, if_neg (by omega)]
    · rw [if_pos (by omega), if_neg hx, h.bytes x, hkept x (by omega)]
      rfl
  · rw [length_resize]
    exact ((hcov x).1 hx).1
  · rw [length_resize]
    exact le_rfl
  · rw [length_resize]
    exact .inl rfl

/-- One call. -/
theorem call (hmax : limit ≤ uint64Max) (h : Folded limit old op content) {c : Call}
    (hlimit : c.reach ≤ limit) {op' : ObjectOperation} (hcall : op.call c = some op') :
    Folded limit old op' (c.effect content) := by
  cases c with
  | create =>
    obtain ⟨-, hop⟩ := of_assert hcall
    cases hop
    exact ⟨⟨.inr rfl, h.plain.2, h.plain.3, h.plain.4, h.plain.5, h.plain.6, h.plain.7,
      h.plain.8⟩, ⟨h.wf.updates, h.wf.data, h.wf.covered, h.wf.truncated⟩, h.bytes,
      h.covered_lt, h.base_le, h.size⟩
  | write off len bl flags =>
    obtain ⟨-, hcall⟩ := of_assert hcall
    obtain ⟨-, hcall⟩ := of_assert hcall
    obtain ⟨hpos, hcall⟩ := of_assert hcall
    obtain ⟨rfl, hcall⟩ := of_assert hcall
    obtain ⟨updates, hins, hop⟩ := of_bind hcall
    cases hop
    exact h.insert (a := .write bl flags) hpos rfl trivial (fun _ => rfl) hlimit hins
  | zero off len =>
    obtain ⟨-, hcall⟩ := of_assert hcall
    obtain ⟨-, hcall⟩ := of_assert hcall
    obtain ⟨updates, hins, hop⟩ := of_bind hcall
    cases hop
    have hlen : (zeros len).length = len := length_zeros len
    have hbyte : ∀ i, (zero len).byte i = (zeros len).getD i 0 :=
      fun i => (getD_zeros len i).symm
    refine h.insert (a := .zero len) ?_ hlen.symm trivial hbyte ?_ ?_
    · rw [hlen]
      exact (insert_eq_some hins).1
    · rwa [hlen]
    · rwa [hlen]
  | truncate off =>
    obtain ⟨-, hcall⟩ := of_assert hcall
    obtain ⟨-, hcall⟩ := of_assert hcall
    cases hcall
    exact h.truncate hmax hlimit

end Folded

/-- **The operation a transaction is folded into.**  It knows the content its calls
make of any old content. -/
theorem build_folded {limit : ℕ} (hmax : limit ≤ uint64Max) {calls : List Call}
    (hlimit : ∀ c ∈ calls, c.reach ≤ limit) {op : ObjectOperation}
    (hbuild : build calls = some op) (old : Buffer) :
    Folded limit old op (contentAfter calls old) := by
  suffices h : ∀ (op₀ : ObjectOperation) (content : Buffer), Folded limit old op₀ content →
      calls.foldlM call op₀ = some op →
      Folded limit old op (calls.foldl Call.effect content) from
    h {} old (Folded.empty limit old) hbuild
  clear hbuild
  induction calls with
  | nil =>
    intro op₀ content hinv hop
    cases hop
    exact hinv
  | cons c calls ih =>
    intro op₀ content hinv hop
    obtain ⟨op₁, hcall, hrest⟩ := of_bind hop
    exact ih (fun c' hc' => hlimit c' (mem_cons_of_mem _ hc')) op₁ _
      (hinv.call hmax (hlimit c mem_cons_self) hcall) hrest

end Ceph.Osd
