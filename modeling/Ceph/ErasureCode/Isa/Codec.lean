import Ceph.ErasureCode.Isa.TableCache
import Ceph.ErasureCode.Isa.XorOp
import Ceph.ErasureCode.Profile

/-!
# The ISA plugin: the codec

`ErasureCodeIsaDefault` as the source has it: `parse`, `prepare`, `isa_encode` and
`isa_decode`.  The chunks of a stripe are regions of memory, numbered from `0`: the
first `k` hold data (`data[i]` is chunk `i`), the others parity (`coding[i]` is chunk
`k + i`).  A pointer to a chunk is its number.  A `blocksize` is an `int` in the source:
chunks are shorter than `2 ^ 31` bytes.

What the plugin takes from the ISA-L library is a parameter, `IsaL`, with what is
assumed of it.
-/

namespace Ceph.Isa

open ErasureCode List

/-- The sum of the sources, each multiplied by its coefficient, byte by byte. -/
def dotProduct (len : ℕ) (coeff : List Byte) (src : List Buffer) : Buffer :=
  (range len).map fun x => (zipWith (fun c s => c * s.getD x 0) coeff src).sum

/-- The ISA-L library.  A matrix is generated row after row: a row does not depend on how
many follow, so `genMatrix` has no parameter for their number. -/
structure IsaL where
  /-- `gf_gen_rs_matrix` and `gf_gen_cauchy1_matrix` for `k` columns: row, column. -/
  genMatrix : EMatrix → ℕ → ℕ → ℕ → Byte
  /-- `gf_invert_matrix`, `none` if it returns a negative number. -/
  gfInvertMatrix : {n : ℕ} → Matrix (Fin n) (Fin n) Byte → Option (Matrix (Fin n) (Fin n) Byte)
  /-- `ec_init_tables` of rows of coefficients, into an array of slots. -/
  ecInitTables : List (List Byte) → Table → Table
  /-- `ec_encode_data` of `len`, `k`, `rows`, a table and the sources. -/
  ecEncodeData : ℕ → ℕ → ℕ → Table → List Buffer → Option (List Buffer)
  /-- The first `k` rows are the identity. -/
  systematic : ∀ t k i j, i < k → j < k → genMatrix t k i j = if i = j then 1 else 0
  /-- The first parity row of a Vandermonde matrix is all ones. -/
  vandermonde_ones : ∀ k j, j < k → genMatrix .kVandermonde k k j = 1
  invert : ∀ {n : ℕ} {b d : Matrix (Fin n) (Fin n) Byte}, gfInvertMatrix b = some d → d * b = 1
  invert_isSome : ∀ {n : ℕ} {b : Matrix (Fin n) (Fin n) Byte}, IsUnit b → (gfInvertMatrix b).isSome
  /-- A table begins with the coefficients, row after row. -/
  init_tables : ∀ rows gftbls, rows.flatten.map some <+: ecInitTables rows gftbls
  /-- The product of the rows that a table begins with and the sources. -/
  encode_data : ∀ {len k : ℕ} {rows : List (List Byte)} {tbls src}, (∀ r ∈ rows, r.length = k) →
    rows.flatten.map some <+: tbls →
    ecEncodeData len k rows.length tbls src = some (rows.map fun r => dotProduct len r src)

/-! ## `parse` -/

def DEFAULT_K : String := "7"

def DEFAULT_M : String := "3"

/-- What `parse` returns, the two numbers it sets, and the profile and the messages. -/
structure Parsed where
  err : ℤ
  k : ℤ
  m : ℤ
  profile : ErasureCodeProfile
  ss : String

/-- `k > 32` for a Vandermonde matrix. -/
def Parsed.limitK (p : Parsed) : Parsed :=
  if 32 < p.k then
    { p with
      ss := p.ss ++ "Vandermonde: m=" ++ toString p.m ++
        " should be less/equal than 32 : revert to k=32\n"
      k := 32
      err := -einval }
  else p

/-- `m > 4` for a Vandermonde matrix. -/
def Parsed.limitM (p : Parsed) : Parsed :=
  if 4 < p.m then
    { p with
      ss := p.ss ++ "Vandermonde: m=" ++ toString p.m ++
        " should be less than 5 to guarantee an MDS codec: revert to m=4\n"
      m := 4
      err := -einval }
  else p

/-- The `switch (m)` for a Vandermonde matrix. -/
def Parsed.limitKOfM (p : Parsed) : Parsed :=
  if p.m = 4 ∧ 21 < p.k then
    { p with
      ss := p.ss ++ "Vandermonde: k=" ++ toString p.k ++
        " should be less than 22 to guarantee an MDS codec with m=4: revert to k=21\n"
      k := 21
      err := -einval }
  else p

/-- The first part of `parse`, for both matrix types.  The call of `ErasureCode::parse` returns
`0` and changes nothing but `chunk_mapping`. -/
def parseParams (profile : ErasureCodeProfile) (ss : String) : Parsed :=
  let k := toInt "k" profile DEFAULT_K ss
  let m := toInt "m" k.profile DEFAULT_M k.ss
  let sane := sanityCheckK k.value
  ⟨bitOr (bitOr (bitOr 0 k.ret) m.ret) sane.1, k.value, m.value, m.profile, m.ss ++ sane.2⟩

/-- `ErasureCodeIsaDefault::parse`. -/
def parse (matrixtype : EMatrix) (profile : ErasureCodeProfile) (ss : String) : Parsed :=
  match matrixtype with
  | .kVandermonde => (parseParams profile ss).limitK.limitM.limitKOfM
  | .kCauchy => parseParams profile ss

/-! ## `prepare` -/

/-- `ErasureCodeIsaDefault` after `prepare`. -/
structure Codec where
  matrixtype : EMatrix
  k : ℕ
  m : ℕ
  encodeCoeff : ℕ → ℕ → Byte
  encodeTbls : Table

/-- An array of `n` slots that nobody has written. -/
def unwritten (n : ℕ) : Table := replicate n none

variable (lib : IsaL)

/-- The codec with the coefficients and the table `prepare` gives it. -/
def Codec.ofParams (matrixtype : EMatrix) (k m : ℕ) : Codec :=
  let coeff := lib.genMatrix matrixtype k
  let rows := (range m).map fun i => (range k).map (coeff (k + i))
  ⟨matrixtype, k, m, coeff, lib.ecInitTables rows (unwritten (tableLength k m))⟩

/-- `ErasureCodeIsaDefault::prepare`.  `k * (m + k) * 32` is computed in `int`. -/
def prepare (matrixtype : EMatrix) (k m : ℕ) : Option Codec := do
  assert (tableLength k m * 32 < 2 ^ 31)
  return Codec.ofParams lib matrixtype k m

/-! ## Encoding -/

/-- Chunk `i` gets new bytes. -/
def store (chunks : ℕ → Region) (i : ℕ) (bytes : Buffer) : ℕ → Region :=
  Function.update chunks i { chunks i with bytes := bytes }

/-- The chunks `ids` get new bytes. -/
def storeAll (chunks : ℕ → Region) (ids : List ℕ) (bytes : List Buffer) : ℕ → Region :=
  (ids.zip bytes).foldl (fun chunks p => store chunks p.1 p.2) chunks

variable (c : Codec)

/-- `ErasureCodeIsaDefault::isa_encode`. -/
def isaEncode (sse2 : Bool) (chunks : ℕ → Region) (blocksize : ℕ) : Option (ℕ → Region) :=
  let data := (range c.k).map chunks
  if c.m = 1 then (regionXor sse2 data (chunks c.k) blocksize).map (store chunks c.k)
  else
    (lib.ecEncodeData blocksize c.k c.m c.encodeTbls (data.map (·.bytes))).map
      (storeAll chunks ((range c.m).map (c.k + ·)))

/-! ## Decoding -/

/-- `recover_source` and `recover_target`, as far as they have been assigned (`r` and `s`
pointers): the others are null. -/
structure Recover where
  source : List ℕ := []
  target : List ℕ := []

/-- The body of the loop that assigns source and target buffers. -/
def Recover.step (st : Recover) (k m : ℕ) (erasures : List ℕ) (i : ℕ) : Recover :=
  if i ∉ erasures then
    if st.source.length < k then { st with source := st.source ++ [i] } else st
  else if st.target.length < m then { st with target := st.target ++ [i] }
  else st

/-- The loop that assigns source and target buffers, over the ids still to come. -/
def assignBuffers (k m : ℕ) (erasures : List ℕ) : List ℕ → Recover → Recover
  | [], st => st
  | i :: ids, st =>
    if st.source.length < k ∨ st.target.length < erasures.length then
      assignBuffers k m erasures ids (st.step k m erasures i)
    else st

/-- The first `n` entries of an array of pointers, none of which may be null. -/
def pointers (l : List ℕ) (n : ℕ) : Option (List ℕ) :=
  if n ≤ l.length then some (l.take n) else none

/-- `while (erasure_contains(erasures, r)) r++`, for at most `fuel` turns. -/
def skipErased (erasures : List ℕ) : ℕ → ℕ → ℕ
  | 0, r => r
  | fuel + 1, r => if r ∈ erasures then skipErased erasures fuel (r + 1) else r

/-- `decode_index` from `r` on, for `n` rows.  The inner loop passes each erased chunk at most
once. -/
def decodeIndex (erasures : List ℕ) : ℕ → ℕ → List ℕ
  | 0, _ => []
  | n + 1, r =>
    let r := skipErased erasures erasures.length r
    r :: decodeIndex erasures n (r + 1)

/-- The signature under which the table for `erasures` is cached. -/
abbrev signatureOf (k : ℕ) (erasures : List ℕ) : List Char :=
  erasureSignature (decodeIndex erasures k 0) erasures

/-- `b`: the rows of the chunks that are read. -/
def survivorMatrix (index : List ℕ) : Matrix (Fin c.k) (Fin c.k) Byte :=
  fun i j => c.encodeCoeff (index.getD i 0) j

/-- A row of `c`: how chunk `e` is computed from the chunks that are read, if `d` computes
the data from them. -/
def decodeRow (d : Matrix (Fin c.k) (Fin c.k) Byte) (e : ℕ) : List Byte :=
  (finRange c.k).map fun i =>
    if h : e < c.k then d ⟨e, h⟩ i
    else ((finRange c.k).map fun j => d j i * c.encodeCoeff e j).sum

/-- The table for the inverse `d`. -/
def decodeTbls (d : Matrix (Fin c.k) (Fin c.k) Byte) (erasures : List ℕ) : Table :=
  lib.ecInitTables (erasures.map (decodeRow c d)) (unwritten (tableLength c.k c.m))

/-- `region_xor(recover_source, recover_target[0], k, blocksize)`. -/
def recoverXor (sse2 : Bool) (st : Recover) (chunks : ℕ → Region) (blocksize : ℕ) :
    Option (ℕ → Region) := do
  let source ← pointers st.source c.k
  let target ← st.target.head?
  let bytes ← regionXor sse2 (source.map chunks) (chunks target) blocksize
  return store chunks target bytes

/-- `ec_encode_data(blocksize, k, nerrs, decode_tbls, recover_source, recover_target)`. -/
def recoverTable (nerrs : ℕ) (tbls : Table) (st : Recover) (chunks : ℕ → Region) (blocksize : ℕ) :
    Option (ℕ → Region) := do
  let source ← pointers st.source c.k
  let target ← pointers st.target nerrs
  let bytes ← lib.ecEncodeData blocksize c.k nerrs tbls (source.map fun i => (chunks i).bytes)
  return storeAll chunks target bytes

/-- The path of `isa_decode` that goes through a table, from the cache or a new one. -/
def decodeWithTable (c : Codec) (cache : TableCache) (erasures : List ℕ) (st : Recover)
    (chunks : ℕ → Region) (blocksize : ℕ) : Option (ℤ × TableCache × (ℕ → Region)) := do
  match ← cache.get (signatureOf c.k erasures) c.matrixtype c.k c.m with
  | (some tbls, cache) =>
    (recoverTable lib c erasures.length tbls st chunks blocksize).map (0, cache, ·)
  | (none, cache) =>
    match lib.gfInvertMatrix (survivorMatrix c (decodeIndex erasures c.k 0)) with
    | none => some (-1, cache, chunks)
    | some d =>
      let tbls := decodeTbls lib c d erasures
      let cache := cache.put (signatureOf c.k erasures) tbls c.matrixtype c.k c.m
      (recoverTable lib c erasures.length tbls st chunks blocksize).map (0, cache, ·)

/-- `ErasureCodeIsaDefault::isa_decode`: the return code, the cache and the chunks. -/
def isaDecode (c : Codec) (sse2 : Bool) (cache : TableCache) (erasures : List ℕ)
    (chunks : ℕ → Region) (blocksize : ℕ) : Option (ℤ × TableCache × (ℕ → Region)) :=
  let nerrs := erasures.length
  let st := assignBuffers c.k c.m erasures (range (c.k + c.m)) {}
  if c.m = 1 then do
    assert (1 = nerrs)
    (recoverXor c sse2 st chunks blocksize).map (0, cache, ·)
  else if c.matrixtype = .kVandermonde ∧ nerrs = 1 ∧ erasures.headD 0 < c.k + 1 then do
    assert (1 = st.target.length)
    assert (c.k = st.source.length)
    (recoverXor c sse2 st chunks blocksize).map (0, cache, ·)
  else if nerrs > c.m then some (-1, cache, chunks)
  else decodeWithTable lib c cache erasures st chunks blocksize

/-- `ErasureCodeIsa::decode_chunks`: `chunks` are the ids of the chunks at hand, all of them
`blocksize` bytes long. -/
def decodeChunks (c : Codec) (sse2 : Bool) (cache : TableCache) (chunks : Finset ℕ)
    (decoded : ℕ → Region) (blocksize : ℕ) : Option (ℤ × TableCache × (ℕ → Region)) := do
  let erasures := (range (c.k + c.m)).filter (· ∉ chunks)
  assert (0 < erasures.length)
  isaDecode lib c sse2 cache erasures decoded blocksize

end Ceph.Isa
