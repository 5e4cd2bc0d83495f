import Ceph.ErasureCode.OptLrc.Configs

/-!
# The Optimal-LRC plugin: encode, plan and decode

`encode_chunks`, `minimum_to_decode` and `decode_chunks` of
`ErasureCodeOptLrc.cc`.  A pointer to the bytes of a chunk is modelled by the
chunk's id, and the bytes live in one map, so that writing through `dst` is seen
by whoever holds the same pointer, as in the source.  A `blocksize` is an `int`
there: chunks are shorter than `2 ^ 31` bytes.
-/

namespace Ceph.OptLrc

open Jerasure

/-- The fields of `ErasureCodeOptLrc` the coding functions read, once `n`, `k`
and `r` are known not to be negative. -/
structure Codec where
  n : ℕ
  k : ℕ
  r : ℕ
  mapping : List ℕ

variable (c : Codec)

/-- The local group of chunk `i`. -/
def Codec.group (i : ℕ) : ℕ := i / (c.r + 1)

/-! ## Encoding -/

/-- The generator rows of the coding chunks, flattened for jerasure. -/
def codingMatrix (g : OptLRC) : List ℕ :=
  ((c.mapping.drop c.k).map fun i => (List.range c.k).map (g.entry i)).flatten

/-- `ErasureCodeOptLrc::optlrc_encode`. -/
def optlrcEncode [Jerasure] (data coding : List ℕ) (blocksize : ℕ) (bufs : ChunkMap) :
    Option ChunkMap := do
  let g ← configs c.n c.k c.r
  jerasureMatrixEncode c.k (c.n - c.k) (codingMatrix c g) data coding blocksize bufs

/-- `ErasureCodeOptLrc::encode_chunks`.  The array `chunks` has `n` slots, slot
`ind` pointing to the chunk `mapping[ind]`. -/
def encodeChunks [Jerasure] (encoded : ChunkMap) : Option ChunkMap := do
  if c.mapping.length > c.n then none
  let encoded : ChunkMap := fun i => if i ∈ c.mapping then some (encoded.at i) else encoded i
  let first ← encoded.begin c.n
  optlrcEncode c (c.mapping.take c.k) (c.mapping.drop c.k) first.length encoded

/-! ## What to read -/

/-- One turn of the loop of `minimum_to_decode` over the wanted erasures: the
groups seen to fail so far, `none` once one of them failed twice, and the chunks
to read. -/
def failedGroupsStep (available : Finset ℕ) (st : Option (Finset ℕ) × Finset ℕ) (it : ℕ) :
    Option (Finset ℕ) × Finset ℕ :=
  match st with
  | (none, minimum) => (none, minimum)
  | (some failedGroups, minimum) =>
    if c.group it ∈ failedGroups then (none, minimum)
    else
      let failedGroups := insert (c.group it) failedGroups
      (some failedGroups, minimum ∪ available.filter fun i => c.group i ∈ failedGroups)

/-- `ErasureCodeOptLrc::minimum_to_decode`.  The result is the return value and
the set left in `*minimum`. -/
def minimumToDecode (wantToRead available minimum : Finset ℕ) : Option (ℤ × Finset ℕ) := do
  let _ ← configs c.n c.k c.r
  let erasuresTotal := (Finset.range c.n).filter (· ∉ available)
  let erasuresWant := erasuresTotal.filter (· ∈ wantToRead)
  if erasuresWant = ∅ then
    some (0, wantToRead)
  else
    match ((List.range c.n).filter (· ∈ erasuresWant)).foldl (failedGroupsStep c available)
      (some ∅, minimum) with
    | (none, minimum) => some (-eio, minimum)
    | (some _, minimum) => some (0, (minimum ∪ wantToRead) \ erasuresTotal)

/-! ## Decoding -/

/-- One turn of the loop of `optlrc_decode_local`: the first mate met is copied
to `dst`, every further one is XORed into it.  The flag is `init`. -/
def decodeLocalStep [Jerasure] (loc : ℕ → Option ℕ) (locErased dst blocksize : ℕ)
    (st : Bool × ChunkMap) (i : ℕ) : Option (Bool × ChunkMap) :=
  if i ≠ locErased then do
    let src ← loc i
    let buf ← if st.1 then galoisRegionXor (st.2.at src) (st.2.at dst) blocksize
      else memcpy (st.2.at dst) (st.2.at src) blocksize
    some (true, Function.update st.2 dst (some buf))
  else some st

/-- `ErasureCodeOptLrc::optlrc_decode_local`: the chunks of the group other than
the erased one are XORed into its buffer.  `loc` holds the pointers collected by
the caller. -/
def optlrcDecodeLocal [Jerasure] (erased : ℕ) (loc : ℕ → Option ℕ) (groupSize blocksize : ℕ)
    (bufs : ChunkMap) : Option ChunkMap := do
  let locErased := erased % (c.r + 1)
  let dst ← loc locErased
  let (_, bufs) ← (List.range groupSize).foldlM (decodeLocalStep loc locErased dst blocksize)
    (false, bufs)
  some bufs

/-- The pointers to the members of `failedGroup` among the `n` chunks, by
position in the group, and how many there are. -/
def collectLocal (failedGroup : ℕ) (loc : ℕ → Option ℕ) : ℕ × (ℕ → Option ℕ) :=
  (List.range c.n).foldl (fun st i =>
    if c.group i = failedGroup then (st.1 + 1, Function.update st.2 (i % (c.r + 1)) (some i))
    else st) (0, loc)

/-- The chunks `decode_chunks` sets out to repair, in increasing order. -/
def erasedWanted (wantToRead : Finset ℕ) (chunks : ChunkMap) : List ℕ :=
  (List.range c.n).filter fun i => (chunks i).isNone ∧ i ∈ wantToRead

/-- One turn of the repair loop. -/
def repairOne [Jerasure] (blocksize : ℕ) (st : ℤ × (ℕ → Option ℕ) × ChunkMap) (erased : ℕ) :
    Option (ℤ × (ℕ → Option ℕ) × ChunkMap) := do
  let (groupSize, loc) := collectLocal c (c.group erased) st.2.1
  let decoded ← optlrcDecodeLocal c erased loc groupSize blocksize st.2.2
  some (st.1 - 1, loc, decoded)

/-- `ErasureCodeOptLrc::decode_chunks`. -/
def decodeChunks [Jerasure] (wantToRead : Finset ℕ) (chunks decoded : ChunkMap) :
    Option (ℤ × ChunkMap) := do
  let first ← chunks.begin c.n
  let _ ← configs c.n c.k c.r
  let erasures := erasedWanted c wantToRead chunks
  let (erasuresInit, _, decoded) ←
    erasures.foldlM (repairOne c first.length) ((erasures.length : ℤ), (fun _ => none), decoded)
  some (if erasuresInit > 0 then -eio else 0, decoded)

/-- `ErasureCode::decode` for this plugin. -/
def decode [Jerasure] (c : Codec) (fresh : ℕ → Buffer) (wantToRead : Finset ℕ) (chunks : ChunkMap) :
    Option (ℤ × ChunkMap) :=
  ErasureCode.decode c.n (decodeChunks c) fresh wantToRead chunks

end Ceph.OptLrc
