import Ceph.ErasureCode.Isa.Decode

/-!
# The ISA plugin: when decoding undoes encoding

* `Accepted` — the parameters `parse` accepts.  For a Cauchy matrix there is no upper
  limit on `k`.
* `Reachable.tableFor_of_signature` — **a cached table is the one that is asked for**,
  even if a codec with another `m` has stored it; only its length is that codec's.
* `decodeUndoesEncode_iff` — **decoding undoes encoding** on every path, exactly as
  long as neither of them leaves the arrays it works on.
-/

namespace Ceph.Isa

open ErasureCode List Option Codec

/-! ## Accepted parameters -/

/-- `parse` accepts a profile that sets `k` and `m`. -/
def Accepted (t : EMatrix) (k m : ℕ) : Prop :=
  ∃ profile ss, (parse t profile ss).err = 0 ∧ (parse t profile ss).k = k ∧
    (parse t profile ss).m = m

theorem neg_einval_ne_zero : -einval ≠ 0 := by decide

variable {p : Parsed}

namespace Parsed

theorem limitK_of_err (h : p.limitK.err = 0) : p.limitK = p ∧ p.k ≤ 32 := by
  rw [limitK] at h ⊢
  split_ifs at h ⊢ with hk
  · exact absurd h neg_einval_ne_zero
  · exact ⟨rfl, by omega⟩

theorem limitM_of_err (h : p.limitM.err = 0) : p.limitM = p := by
  rw [limitM] at h ⊢
  split_ifs at h ⊢ with hm
  · exact absurd h neg_einval_ne_zero
  · rfl

theorem limitKOfM_of_err (h : p.limitKOfM.err = 0) : p.limitKOfM = p := by
  rw [limitKOfM] at h ⊢
  split_ifs at h ⊢ with hm
  · exact absurd h neg_einval_ne_zero
  · rfl

theorem limits_of_err (h : p.limitK.limitM.limitKOfM.err = 0) :
    p.limitK.limitM.limitKOfM = p ∧ p.k ≤ 32 := by
  have hthird := limitKOfM_of_err h
  rw [hthird] at h ⊢
  have hsecond := limitM_of_err h
  rw [hsecond] at h ⊢
  exact limitK_of_err h

end Parsed

theorem bitOr_sanityCheckK {a k : ℤ} (h : bitOr a (sanityCheckK k).1 = 0) : 2 ≤ k := by
  by_contra hk
  rw [sanityCheckK, if_pos (by omega), bitOr, ← BitVec.toInt_zero, BitVec.toInt_inj] at h
  have hzero : BitVec.ofInt 32 (-einval) = 0#32 := (BitVec.or_eq_zero_iff.1 h).2
  exact absurd hzero (by decide)

/-- What `parse` accepts, the limits of a Vandermonde matrix have not changed. -/
theorem parse_of_err {t : EMatrix} {profile : ErasureCodeProfile} {ss : String}
    (h : (parse t profile ss).err = 0) :
    parse t profile ss = parseParams profile ss ∧
      (t = .kVandermonde → (parseParams profile ss).k ≤ 32) := by
  cases t with
  | kVandermonde =>
    obtain ⟨heq, hle⟩ := Parsed.limits_of_err h
    exact ⟨heq, fun _ => hle⟩
  | kCauchy => exact ⟨rfl, nofun⟩

theorem Accepted.two_le {t : EMatrix} {k m : ℕ} (h : Accepted t k m) : 2 ≤ k := by
  obtain ⟨profile, ss, herr, hk, -⟩ := h
  have heq := (parse_of_err herr).1
  rw [heq] at herr hk
  have hsane : 2 ≤ (parseParams profile ss).k := bitOr_sanityCheckK herr
  omega

theorem Accepted.le_of_vandermonde {k m : ℕ} (h : Accepted .kVandermonde k m) : k ≤ 32 := by
  obtain ⟨profile, ss, herr, hk, -⟩ := h
  obtain ⟨heq, hle⟩ := parse_of_err herr
  rw [heq] at hk
  have := hle rfl
  omega

/-! ## The cache -/

/-- The caches the process can have: tables are fetched, and tables that some decoding has
computed are stored, by codecs of any parameters and in any order. -/
inductive Reachable (lib : IsaL) : TableCache → Prop
  | empty : Reachable lib .empty
  | get {cache cache' : TableCache} {signature : List Char} {t : EMatrix} {k m : ℕ}
      {found : Option Table} : Reachable lib cache →
      cache.get signature t k m = some (found, cache') → Reachable lib cache'
  | put {cache : TableCache} {t : EMatrix} {k m : ℕ} {c : Codec} {erasures : List ℕ}
      {d : Matrix (Fin c.k) (Fin c.k) Byte} : Reachable lib cache → prepare lib t k m = some c →
      erasures.length ≤ c.m →
      lib.gfInvertMatrix (survivorMatrix c (decodeIndex erasures c.k 0)) = some d →
      Reachable lib (cache.put (signatureOf c.k erasures)
        (decodeTbls lib c d erasures) c.matrixtype c.k c.m)

/-- A table for the erased chunks `erasures` of a stripe with `k` data chunks. -/
def TableFor (lib : IsaL) (t : EMatrix) (k : ℕ) (erasures : List ℕ) (tbls : Table) : Prop :=
  ∃ m d, lib.gfInvertMatrix
      (survivorMatrix (ofParams lib t k m) (decodeIndex erasures k 0)) = some d ∧
    (erasures.map (decodeRow (ofParams lib t k m) d)).flatten.map some <+: tbls

variable {c : Codec}

theorem prepare_eq_some {lib : IsaL} {t : EMatrix} {k m : ℕ} :
    prepare lib t k m = some c ↔ tableLength k m * 32 < 2 ^ 31 ∧ c = ofParams lib t k m := by
  rw [prepare, assert_bind_eq_some]
  exact and_congr_right fun _ => ⟨fun h => (some.inj h).symm, fun h => congrArg some h.symm⟩

theorem length_flatten_decodeRow (c : Codec) (d : Matrix (Fin c.k) (Fin c.k) Byte)
    (erasures : List ℕ) : ((erasures.map (decodeRow c d)).flatten.map some).length =
      erasures.length * c.k := by
  have hlen : erasures.map (length ∘ decodeRow c d) = erasures.map fun _ => c.k :=
    List.map_congr_left fun e _ => length_decodeRow c d e
  rw [List.length_map, List.length_flatten, List.map_map, hlen, List.map_const', List.sum_replicate,
    smul_eq_mul]

variable {erasures : List ℕ} {d : Matrix (Fin c.k) (Fin c.k) Byte} {tbls : Table}

/-- The rows for at most `m` chunks fit into the part of a table that is copied. -/
theorem prefix_take_tableLength {m : ℕ} (hm : erasures.length ≤ m)
    (h : (erasures.map (decodeRow c d)).flatten.map some <+: tbls) :
    (erasures.map (decodeRow c d)).flatten.map some <+: tbls.take (tableLength c.k m) := by
  refine prefix_take_iff.2 ⟨h, ?_⟩
  rw [length_flatten_decodeRow, Nat.mul_comm]
  exact Nat.mul_le_mul_left _ (by omega)

theorem decodeTbls_rows (lib : IsaL) (c : Codec) (d : Matrix (Fin c.k) (Fin c.k) Byte)
    (erasures : List ℕ) :
    (erasures.map (decodeRow c d)).flatten.map some <+: decodeTbls lib c d erasures :=
  lib.init_tables ..

/-- Every table of the cache is the one its signature asks for. -/
theorem Reachable.tableFor {lib : IsaL} {cache : TableCache} (h : Reachable lib cache) {t : EMatrix}
    {sig : List Char} (hmap : (cache t).map sig = some tbls) :
    ∃ k erasures, sig = signatureOf k erasures ∧ TableFor lib t k erasures tbls := by
  induction h with
  | empty => cases hmap
  | get _ hget ih => exact ih (TableCache.map_of_get hget t ▸ hmap)
  | put _ hprepare hlen hinvert ih =>
    obtain ⟨-, rfl⟩ := prepare_eq_some.1 hprepare
    rcases TableCache.map_of_put hmap with ⟨rfl, rfl, rfl⟩ | hold
    · exact ⟨_, _, rfl, _, _, hinvert, prefix_take_tableLength hlen (decodeTbls_rows ..)⟩
    · exact ih hold

theorem length_decodeIndex (erasures : List ℕ) (n r : ℕ) :
    (decodeIndex erasures n r).length = n := by
  induction n generalizing r with
  | zero => rfl
  | succ n ih => rw [decodeIndex, length_cons, ih]

/-- **A cached table is a table for the chunks it is fetched for**, whoever stored it. -/
theorem Reachable.tableFor_of_signature {lib : IsaL} {cache : TableCache} (h : Reachable lib cache)
    {t : EMatrix} {k : ℕ} (hmap : (cache t).map (signatureOf k erasures) = some tbls) :
    TableFor lib t k erasures tbls := by
  obtain ⟨k', erasures', hsig, htable⟩ := h.tableFor hmap
  obtain ⟨hindex, rfl⟩ := erasureSignature_inj hsig
  have hk := congrArg length hindex
  rw [length_decodeIndex, length_decodeIndex] at hk
  rwa [hk]

/-! ## Encoding with XOR -/

/-- `region_xor` over the first `k + 1` chunks does not overrun `vbuf`. -/
def VbufFits (sse2 : Bool) (k blocksize : ℕ) (chunks : ℕ → Region) : Prop :=
  blocksize = 0 ∨ k ≤ vbufLength ∨ sse2 = false ∨
    ∃ i < k + 1, ¬ isAligned (chunks i).addr ecIsaVectorOpWordsize

theorem not_vbufFits {sse2 : Bool} {k blocksize : ℕ} {chunks : ℕ → Region} :
    ¬ VbufFits sse2 k blocksize chunks ↔ blocksize ≠ 0 ∧ vbufLength < k ∧ sse2 = true ∧
      ∀ i < k + 1, isAligned (chunks i).addr ecIsaVectorOpWordsize := by
  simp only [VbufFits, not_or, not_exists, not_and, not_not, not_le, Bool.not_eq_false, ne_eq]

theorem VbufFits.le {sse2 : Bool} {k blocksize : ℕ} {chunks : ℕ → Region}
    (h : VbufFits sse2 k blocksize chunks) (hsize : blocksize ≠ 0) (hsse : sse2 = true)
    (haligned : ∀ i < k + 1, isAligned (chunks i).addr ecIsaVectorOpWordsize) : k ≤ vbufLength := by
  rcases h with hz | hle | hno | ⟨i, hi, hne⟩
  · exact absurd hz hsize
  · exact hle
  · exact absurd (hsse.symm.trans hno) (by decide)
  · exact absurd (haligned i hi) hne

variable {st : Recover}

section

variable {lib : IsaL} {t : EMatrix} {k m : ℕ} {sse2 : Bool} {cache : TableCache}
  {stripe buffers encoded chunks : ℕ → Region} {blocksize : ℕ} {erased : Finset ℕ}

/-- With one parity the first `k + 1` chunks add up to zero. -/
theorem isaEncode_one (lib : IsaL) (t : EMatrix) (hk : 0 < k)
    (hlen : ∀ i < k + 1, (stripe i).bytes.length = blocksize)
    (hfit : VbufFits sse2 k blocksize stripe) :
    ∃ encoded, isaEncode lib (ofParams lib t k 1) sse2 stripe blocksize = some encoded ∧
      (∀ i < k + 1, (encoded i).bytes.length = blocksize) ∧
      ∀ x < blocksize, byteAt encoded x k = ∑ j : Fin k, byteAt encoded x j := by
  have hne : (range k).map stripe ≠ [] := by simpa using hk.ne'
  obtain ⟨bytes, hxor, hbytes, hsum⟩ : ∃ bytes, regionXor sse2 ((range k).map stripe) (stripe k)
      blocksize = some bytes ∧ _ :=
    exists_regionXor hne (hlen k (by omega))
      (forall_mem_map.2 fun i hi => hlen i (by have := mem_range.1 hi; omega))
      (fun hsize huse => by
        rw [List.length_map, length_range]
        refine hfit.le hsize huse.1 fun i hi => ?_
        rcases Nat.lt_succ_iff_lt_or_eq.1 hi with hlt | rfl
        · exact huse.2.1 _ (mem_map.2 ⟨i, mem_range.2 hlt, rfl⟩)
        · exact huse.2.2)
  refine ⟨store stripe k bytes, ?_, fun i hi => ?_, fun x hx => ?_⟩
  · exact congrArg (Option.map (store stripe k)) hxor
  · by_cases hik : i = k
    · rwa [hik, store_self]
    · rw [store_of_ne _ _ hik]
      exact hlen i hi
  · have hdata : ∀ j : Fin k, byteAt (store stripe k bytes) x j = byteAt stripe x j := fun j => by
      rw [byteAt, store_of_ne _ _ j.2.ne]
      rfl
    rw [Finset.sum_congr rfl fun j _ => hdata j, byteAt, store_self, hsum x hx, List.map_map,
      ← List.map_coe_finRange_eq_range, List.map_map]
    rfl

theorem isaEncode_one_eq_none (hfit : ¬ VbufFits sse2 k blocksize stripe) :
    isaEncode lib (ofParams lib t k 1) sse2 stripe blocksize = none := by
  obtain ⟨hsize, hlong, hsse, haligned⟩ := not_vbufFits.1 hfit
  have hnone : regionXor sse2 ((range k).map stripe) (stripe k) blocksize = none := by
    refine regionXor_eq_none hsize ⟨hsse, ?_, haligned k (by omega)⟩ (by simpa using hlong)
    exact forall_mem_map.2 fun i hi => haligned i (by have := mem_range.1 hi; omega)
  exact congrArg (Option.map (store stripe k)) hnone

/-! ## The paths of `isa_decode` -/

theorem isaDecode_of_one (hcard : erased.card ≤ 1) :
    isaDecode lib (ofParams lib t k 1) sse2 cache (erasuresOf (k + 1) erased) chunks blocksize =
      (assert (1 = (erasuresOf (k + 1) erased).length) >>= fun _ =>
        (recoverXor (ofParams lib t k 1) sse2
          ⟨sources k (k + 1) (erasuresOf (k + 1) erased), erasuresOf (k + 1) erased⟩ chunks
          blocksize).map (0, cache, ·)) := by
  rw [← assignBuffers_eq hcard]
  rfl

theorem isaDecode_of_vandermonde {e : ℕ} (hm : m ≠ 1) (he : e < k + 1)
    (hone : erasuresOf (k + m) erased = [e]) (hcard : erased.card ≤ m) :
    isaDecode lib (ofParams lib .kVandermonde k m) sse2 cache [e] chunks blocksize =
      (recoverXor (ofParams lib .kVandermonde k m) sse2 ⟨sources k (k + m) [e], [e]⟩ chunks
        blocksize).map (0, cache, ·) := by
  have hst := assignBuffers_eq (k := k) hcard
  have hcount := length_sources (k := k) hcard
  rw [hone] at hst hcount
  have hpath : isaDecode lib (ofParams lib .kVandermonde k m) sse2 cache [e] chunks blocksize =
      (assert (1 = (assignBuffers k m [e] (range (k + m)) {}).target.length) >>= fun _ =>
        assert (k = (assignBuffers k m [e] (range (k + m)) {}).source.length) >>= fun _ =>
          (recoverXor (ofParams lib .kVandermonde k m) sse2
            (assignBuffers k m [e] (range (k + m)) {}) chunks blocksize).map (0, cache, ·)) :=
    (if_neg hm).trans (if_pos ⟨rfl, rfl, he⟩)
  rw [hpath, hst]
  exact (assert_bind rfl _).trans (assert_bind hcount.symm _)

/-- Whether `isa_decode` goes through a table: neither of the two conditions for XOR holds. -/
def UsesTable (t : EMatrix) (k m : ℕ) (erased : Finset ℕ) : Prop :=
  m ≠ 1 ∧ ¬ (t = .kVandermonde ∧ ∃ e < k + 1, erased = {e})

theorem erasuresOf_eq_singleton {n e : ℕ} (hsub : erased ⊆ Finset.range n) :
    erasuresOf n erased = [e] ↔ erased = {e} := by
  have hmem : ∀ i, i ∈ erasuresOf n erased ↔ i ∈ erased := fun i => by
    rw [mem_erasuresOf]
    exact ⟨fun h => h.2, fun h => ⟨Finset.mem_range.1 (hsub h), h⟩⟩
  constructor
  · intro h
    ext i
    rw [← hmem, h, mem_singleton, Finset.mem_singleton]
  · intro h
    have hnodup : (erasuresOf n erased).Nodup := nodup_range.filter _
    refine perm_singleton.1 ((perm_ext_iff_of_nodup hnodup (nodup_singleton e)).2 ?_)
    intro i
    rw [hmem, h, mem_singleton, Finset.mem_singleton]

theorem isaDecode_of_usesTable (huse : UsesTable t k m erased)
    (hsub : erased ⊆ Finset.range (k + m)) (hcard : erased.card ≤ m) :
    isaDecode lib (ofParams lib t k m) sse2 cache (erasuresOf (k + m) erased) chunks blocksize =
      decodeWithTable lib (ofParams lib t k m) cache (erasuresOf (k + m) erased)
        ⟨sources k (k + m) (erasuresOf (k + m) erased), erasuresOf (k + m) erased⟩ chunks
        blocksize := by
  have hlong : ¬ (erasuresOf (k + m) erased).length > m := by
    have := length_erasuresOf_le (k + m) erased
    omega
  have hnot : ¬ (t = .kVandermonde ∧ (erasuresOf (k + m) erased).length = 1 ∧
      (erasuresOf (k + m) erased).headD 0 < k + 1) := by
    rintro ⟨ht, hone, he⟩
    obtain ⟨e, hE⟩ := length_eq_one_iff.1 hone
    rw [hE] at he
    exact huse.2 ⟨ht, e, he, (erasuresOf_eq_singleton hsub).1 hE⟩
  rw [← assignBuffers_eq hcard]
  exact (if_neg huse.1).trans ((if_neg hnot).trans (if_neg hlong))

/-- A stripe encoded with the generator matrix. -/
theorem encodes_withParities (hlen : ∀ i < k + m, (stripe i).bytes.length = blocksize) {i : ℕ}
    (hi : i < k + m) :
    Encodes (ofParams lib t k m) blocksize (byteAt stripe)
      (withParities lib t k m stripe blocksize) i where
  length := length_withParities hlen hi
  byte _ hx := byteAt_withParities hi hx
  systematic hik x _ := congrArg (fun r : Region => r.bytes.getD x 0) (withParities_of_lt hik)

theorem decodeWithTable_of_cached {cache' : TableCache}
    (h : cache.get (signatureOf c.k erasures) c.matrixtype c.k c.m = some (some tbls, cache')) :
    decodeWithTable lib c cache erasures st chunks blocksize =
      (recoverTable lib c erasures.length tbls st chunks blocksize).map (0, cache', ·) := by
  rw [decodeWithTable, h]
  rfl

theorem decodeWithTable_of_new
    (h : cache.get (signatureOf c.k erasures) c.matrixtype c.k c.m = some (none, cache))
    (hd : lib.gfInvertMatrix (survivorMatrix c (decodeIndex erasures c.k 0)) = some d) :
    decodeWithTable lib c cache erasures st chunks blocksize =
      (recoverTable lib c erasures.length (decodeTbls lib c d erasures) st chunks blocksize).map
        (0, cache.put (signatureOf c.k erasures) (decodeTbls lib c d erasures) c.matrixtype c.k c.m,
          ·) := by
  rw [decodeWithTable, h]
  simp only [bind_eq_bind, bind_some, hd]

theorem decodeWithTable_eq_none
    (h : cache.get (signatureOf c.k erasures) c.matrixtype c.k c.m = none) :
    decodeWithTable lib c cache erasures st chunks blocksize = none := by
  rw [decodeWithTable, h]
  rfl

/-- **The path through a table**, from the cache or a new one. -/
theorem decodeWithTable_eq (hcache : Reachable lib cache) (hsub : erased ⊆ Finset.range (k + m))
    (hcard : erased.card ≤ m)
    (hinv : IsUnit (survivorMatrix (ofParams lib t k m)
      (decodeIndex (erasuresOf (k + m) erased) k 0)))
    (hfits : LengthFits k m) (hlong : ∀ tbls,
      (cache t).map (signatureOf k (erasuresOf (k + m) erased)) = some tbls →
        tableLength k m ≤ tbls.length)
    (hlen : ∀ i < k + m, (stripe i).bytes.length = blocksize)
    (hchunks : ∀ i < k + m, i ∉ erased → (chunks i).bytes =
      (withParities lib t k m stripe blocksize i).bytes) :
    ∃ cache' out, decodeWithTable lib (ofParams lib t k m) cache (erasuresOf (k + m) erased)
        ⟨sources k (k + m) (erasuresOf (k + m) erased), erasuresOf (k + m) erased⟩ chunks
        blocksize = some (0, cache', out) ∧
      ∀ i ∈ erased, (out i).bytes = (withParities lib t k m stripe blocksize i).bytes := by
  have hcount := (length_erasuresOf_le (k + m) erased).trans hcard
  -- any table for these chunks will do
  have hrecover : ∀ tbls, TableFor lib t k (erasuresOf (k + m) erased) tbls →
      ∃ out, recoverTable lib (ofParams lib t k m) (erasuresOf (k + m) erased).length tbls
          ⟨sources k (k + m) (erasuresOf (k + m) erased), erasuresOf (k + m) erased⟩ chunks
          blocksize = some out ∧
        ∀ i ∈ erased, (out i).bytes = (withParities lib t k m stripe blocksize i).bytes := by
    rintro tbls ⟨m', d, hd, hprefix⟩
    have hinverse := lib.invert hd
    rw [decodeIndex_eq hcard] at hinverse
    have hread : ∀ i ∈ sources k (k + m) (erasuresOf (k + m) erased), i < k + m ∧ i ∉ erased :=
      fun i hi => by
        obtain ⟨hlt, hnot⟩ := mem_sources hi
        exact ⟨hlt, fun he => hnot (mem_erasuresOf.2 ⟨hlt, he⟩)⟩
    obtain ⟨out, hout, hbytes⟩ := recoverTable_eq (c := ofParams lib t k m) hinverse
      (length_sources hcard) hprefix (fun i hi => hchunks i (hread i hi).1 (hread i hi).2)
      (fun i hi => encodes_withParities hlen
        (hi.elim (fun h => (hread i h).1) fun h => (mem_erasuresOf.1 h).1))
    exact ⟨out, hout, fun i hi => hbytes i (mem_erasuresOf.2 ⟨Finset.mem_range.1 (hsub hi), hi⟩)⟩
  cases hmap : (cache t).map (signatureOf k (erasuresOf (k + m) erased)) with
  | none =>
    obtain ⟨d, hd⟩ := isSome_iff_exists.1 (lib.invert_isSome hinv)
    obtain ⟨out, hout, hbytes⟩ := hrecover (decodeTbls lib (ofParams lib t k m) d
      (erasuresOf (k + m) erased)) ⟨m, d, hd, decodeTbls_rows ..⟩
    exact ⟨_, out, (decodeWithTable_of_new (c := ofParams lib t k m)
      (TableCache.get_of_none k m hmap) hd).trans (congrArg (Option.map _) hout), hbytes⟩
  | some tbls =>
    obtain ⟨cache', hget⟩ := TableCache.get_of_some hmap hfits (hlong tbls hmap)
    obtain ⟨m', d, hd, hprefix⟩ := hcache.tableFor_of_signature hmap
    obtain ⟨out, hout, hbytes⟩ := hrecover _ ⟨m', d, hd, prefix_take_tableLength hcount hprefix⟩
    exact ⟨cache', out, (decodeWithTable_of_cached hget).trans (congrArg (Option.map _) hout),
      hbytes⟩

end

section

variable {lib : IsaL} {t : EMatrix} {k m : ℕ} {cache cache' : TableCache} (h : Reachable lib cache)
  (hc : prepare lib t k m = some c)

include h hc

theorem Reachable.decodeWithTable {chunks out : ℕ → Region} {blocksize : ℕ} {r : ℤ}
    (hlen : erasures.length ≤ c.m)
    (hrun : decodeWithTable lib c cache erasures st chunks blocksize = some (r, cache', out)) :
    Reachable lib cache' := by
  cases hget : cache.get (signatureOf c.k erasures) c.matrixtype c.k c.m with
  | none =>
    rw [decodeWithTable_eq_none hget] at hrun
    cases hrun
  | some found =>
    obtain ⟨tbls, fetched⟩ := found
    have hfetched := h.get hget
    unfold Isa.decodeWithTable at hrun
    rw [hget] at hrun
    cases tbls with
    | some tbls =>
      obtain ⟨out', -, heq⟩ := of_map hrun
      cases heq
      exact hfetched
    | none =>
      cases hd : lib.gfInvertMatrix (survivorMatrix c (decodeIndex erasures c.k 0)) with
      | none =>
        rw [hd] at hrun
        cases hrun
        exact hfetched
      | some d =>
        rw [hd] at hrun
        obtain ⟨out', -, heq⟩ := of_map hrun
        cases heq
        exact hfetched.put hc hlen hd

/-- A decoding leaves a cache the process can have. -/
theorem Reachable.isaDecode {sse2 : Bool} {chunks out : ℕ → Region} {blocksize : ℕ} {r : ℤ}
    (hrun : isaDecode lib c sse2 cache erasures chunks blocksize = some (r, cache', out)) :
    Reachable lib cache' := by
  simp only [Isa.isaDecode] at hrun
  split_ifs at hrun with hm hshort hlong
  · obtain ⟨out', -, heq⟩ := of_map (of_assert hrun).2
    cases heq
    exact h
  · obtain ⟨-, hrun⟩ := of_assert hrun
    obtain ⟨-, hrun⟩ := of_assert hrun
    obtain ⟨out', -, heq⟩ := of_map hrun
    cases heq
    exact h
  · cases hrun
    exact h
  · exact h.decodeWithTable hc (not_lt.1 hlong) hrun

end

/-- A decoding by a codec of the process. -/
structure Decoding where
  t : EMatrix
  k : ℕ
  m : ℕ
  sse2 : Bool
  erasures : List ℕ
  chunks : ℕ → Region
  blocksize : ℕ

/-- The cache after some decodings in a process that has just been started. -/
def runDecodings (lib : IsaL) (ds : List Decoding) : Option TableCache :=
  ds.foldlM (fun cache d => do
    let c ← prepare lib d.t d.k d.m
    let r ← isaDecode lib c d.sse2 cache d.erasures d.chunks d.blocksize
    return r.2.1) .empty

/-- **After any decodings the cache holds, under a signature, a table for the chunks the signature
stands for.** -/
theorem tableFor_of_runDecodings {lib : IsaL} {ds : List Decoding} {cache : TableCache}
    (hrun : runDecodings lib ds = some cache) {t : EMatrix} {sig : List Char} {tbls : Table}
    (hmap : (cache t).map sig = some tbls) :
    (∃ k erasures, sig = signatureOf k erasures) ∧
      ∀ k erasures, sig = signatureOf k erasures → TableFor lib t k erasures tbls := by
  have hreach : Reachable lib cache := by
    refine Loop.foldlM_some_invariant (fun _ cache => Reachable lib cache) hrun .empty ?_
    intro pre d post cache cache' _ hcache hstep
    obtain ⟨c, hc, hstep⟩ := of_bind hstep
    obtain ⟨r, hdecode, hr⟩ := of_bind hstep
    cases hr
    exact hcache.isaDecode hc hdecode
  obtain ⟨k, erasures, rfl, -⟩ := hreach.tableFor hmap
  refine ⟨⟨k, erasures, rfl⟩, fun k' erasures' hsig => ?_⟩
  exact hreach.tableFor_of_signature (hsig ▸ hmap)

/-! ## The round trip -/

/-- A stripe is encoded, the chunks of `erased` are lost, and `isa_decode` rebuilds them in the
buffers at hand. -/
def DecodeUndoesEncode (lib : IsaL) (t : EMatrix) (k m : ℕ) (sse2 : Bool) (cache : TableCache)
    (erased : Finset ℕ) (stripe buffers : ℕ → Region) (blocksize : ℕ) : Prop :=
  ∃ c encoded cache' out, prepare lib t k m = some c ∧
    isaEncode lib c sse2 stripe blocksize = some encoded ∧
    isaDecode lib c sse2 cache (erasuresOf (k + m) erased) (received erased encoded buffers)
      blocksize = some (0, cache', out) ∧ ∀ i ∈ erased, (out i).bytes = (encoded i).bytes

/-- What keeps encoding and decoding within the arrays they use. -/
structure WithinArrays (t : EMatrix) (k m : ℕ) (sse2 : Bool) (cache : TableCache)
    (erased : Finset ℕ) (stripe buffers : ℕ → Region) (blocksize : ℕ) : Prop where
  int_fits : tableLength k m * 32 < 2 ^ 31
  nonempty : m = 1 → erased.Nonempty
  encode_fits : m = 1 → VbufFits sse2 k blocksize stripe
  decode_fits : m = 1 → VbufFits sse2 k blocksize buffers
  cached_fits : UsesTable t k m erased →
    ∀ tbls, (cache t).map (signatureOf k (erasuresOf (k + m) erased)) = some tbls →
      tableLength k m ≤ tbls.length

section

variable {lib : IsaL} {t : EMatrix} {k m : ℕ} {sse2 : Bool} {cache : TableCache}
  {stripe buffers encoded chunks : ℕ → Region} {blocksize : ℕ} {erased : Finset ℕ}

theorem bytes_received_of_notMem {i : ℕ} (hi : i ∉ erased) :
    (received erased encoded buffers i).bytes = (encoded i).bytes :=
  if_neg hi

theorem length_received (hbuf : ∀ i < k + m, (buffers i).bytes.length = blocksize)
    {n : ℕ} (hn : n ≤ k + m) (henc : ∀ i < n, (encoded i).bytes.length = blocksize) :
    ∀ i < n, (received erased encoded buffers i).bytes.length = blocksize ∧
      (encoded i).bytes.length = blocksize := by
  intro i hi
  refine ⟨?_, henc i hi⟩
  unfold received
  split_ifs
  · exact hbuf i (by omega)
  · exact henc i hi

/-- XOR rebuilds the erased chunk `e` of an encoded stripe. -/
theorem recoverXor_received (lib : IsaL) (t : EMatrix) {e : ℕ} (hk : 0 < k) (hm : 1 ≤ m)
    (he : e < k + 1) (hbuf : ∀ i < k + m, (buffers i).bytes.length = blocksize)
    (henc : ∀ i < k + 1, (encoded i).bytes.length = blocksize)
    (hparity : ∀ x < blocksize, byteAt encoded x k = ∑ j : Fin k, byteAt encoded x j)
    (hfit : VbufFits sse2 k blocksize buffers) :
    ∃ out, recoverXor (ofParams lib t k m) sse2 ⟨sources k (k + m) [e], [e]⟩
        (received {e} encoded buffers) blocksize = some out ∧
          ∀ i ∈ ({e} : Finset ℕ), (out i).bytes = (encoded i).bytes := by
  obtain ⟨out, hout, hbytes⟩ := recoverXor_eq (show (ofParams lib t k m).k = k from rfl) hk hm he
    (length_received hbuf (by omega) henc)
    (fun i _ hne => bytes_received_of_notMem fun hi => hne (Finset.mem_singleton.1 hi)) hparity
    (fun hsize hsse haligned => hfit.le hsize hsse haligned)
  refine ⟨out, hout, fun i hi => ?_⟩
  rwa [Finset.mem_singleton.1 hi]

/-- With a Vandermonde matrix the first `k + 1` chunks add up to zero. -/
theorem byteAt_withParities_vandermonde (hm : 1 ≤ m) {x : ℕ} (hx : x < blocksize) :
    byteAt (withParities lib .kVandermonde k m stripe blocksize) x k =
      ∑ j : Fin k, byteAt (withParities lib .kVandermonde k m stripe blocksize) x j := by
  rw [byteAt_withParities (by omega) hx]
  refine Finset.sum_congr rfl fun j _ => ?_
  rw [lib.vandermonde_ones k j j.2, one_mul, byteAt, byteAt, withParities_of_lt j.2]

theorem decodeUndoesEncode_of_one (hk : 0 < k) (hsub : erased ⊆ Finset.range (k + 1))
    (hcard : erased.card ≤ 1) (hstripe : ∀ i < k + 1, (stripe i).bytes.length = blocksize)
    (hbuf : ∀ i < k + 1, (buffers i).bytes.length = blocksize)
    (h : WithinArrays t k 1 sse2 cache erased stripe buffers blocksize) :
    DecodeUndoesEncode lib t k 1 sse2 cache erased stripe buffers blocksize := by
  obtain ⟨e, rfl⟩ := Finset.card_eq_one.1 (le_antisymm hcard (Finset.card_pos.2 (h.nonempty rfl)))
  have he : e < k + 1 := Finset.mem_range.1 (Finset.singleton_subset_iff.1 hsub)
  obtain ⟨encoded, hencode, henc, hparity⟩ := isaEncode_one lib t hk hstripe (h.encode_fits rfl)
  obtain ⟨out, hout, hbytes⟩ := recoverXor_received lib t hk le_rfl he hbuf henc hparity
    (h.decode_fits rfl)
  refine ⟨_, encoded, cache, out, prepare_eq_some.2 ⟨h.int_fits, rfl⟩, hencode, ?_, hbytes⟩
  rw [isaDecode_of_one hcard, (erasuresOf_eq_singleton hsub).2 rfl]
  exact (assert_bind rfl _).trans (congrArg (Option.map _) hout)

theorem decodeUndoesEncode_of_vandermonde {e : ℕ} (hk : 0 < k) (hle : k ≤ vbufLength) (hm : m ≠ 1)
    (he : e < k + 1) (hcard : ({e} : Finset ℕ).card ≤ m)
    (hstripe : ∀ i < k + m, (stripe i).bytes.length = blocksize)
    (hbuf : ∀ i < k + m, (buffers i).bytes.length = blocksize)
    (hint : tableLength k m * 32 < 2 ^ 31) :
    DecodeUndoesEncode lib .kVandermonde k m sse2 cache {e} stripe buffers blocksize := by
  have hm1 : 1 ≤ m := by simpa using hcard
  have hone : erasuresOf (k + m) {e} = [e] :=
    (erasuresOf_eq_singleton (Finset.singleton_subset_iff.2 (Finset.mem_range.2 (by omega)))).2 rfl
  have hlen : ∀ i < k + 1, (withParities lib .kVandermonde k m stripe blocksize i).bytes.length =
      blocksize := fun i hi => length_withParities hstripe (by omega)
  have hfit : VbufFits sse2 k blocksize buffers := .inr (.inl hle)
  obtain ⟨out, hout, hbytes⟩ := recoverXor_received lib .kVandermonde hk hm1 he hbuf hlen
    (fun x hx => byteAt_withParities_vandermonde hm1 hx) hfit
  refine ⟨_, _, cache, out, prepare_eq_some.2 ⟨hint, rfl⟩, isaEncode_of_ne_one hm, ?_, hbytes⟩
  rw [hone, isaDecode_of_vandermonde hm he hone hcard, hout]
  rfl

theorem decodeUndoesEncode_of_usesTable (hcache : Reachable lib cache)
    (huse : UsesTable t k m erased) (hsub : erased ⊆ Finset.range (k + m)) (hcard : erased.card ≤ m)
    (hinv : IsUnit (survivorMatrix (ofParams lib t k m)
      (decodeIndex (erasuresOf (k + m) erased) k 0)))
    (hstripe : ∀ i < k + m, (stripe i).bytes.length = blocksize)
    (h : WithinArrays t k m sse2 cache erased stripe buffers blocksize) :
    DecodeUndoesEncode lib t k m sse2 cache erased stripe buffers blocksize := by
  have hchunks : ∀ i < k + m, i ∉ erased →
      (received erased (withParities lib t k m stripe blocksize) buffers i).bytes =
        (withParities lib t k m stripe blocksize i).bytes :=
    fun i _ hi => bytes_received_of_notMem hi
  obtain ⟨cache', out, hout, hbytes⟩ := decodeWithTable_eq hcache hsub hcard hinv h.int_fits
    (h.cached_fits huse) hstripe hchunks
  refine ⟨_, _, cache', out, prepare_eq_some.2 ⟨h.int_fits, rfl⟩, isaEncode_of_ne_one huse.1, ?_,
    hbytes⟩
  rw [isaDecode_of_usesTable huse hsub hcard, hout]

end

/-- **Decoding undoes encoding exactly as long as no array is overrun**, on every path. -/
theorem decodeUndoesEncode_iff (lib : IsaL) {t : EMatrix} {k m : ℕ} (hacc : Accepted t k m)
    {cache : TableCache} (hcache : Reachable lib cache) {erased : Finset ℕ}
    (hsub : erased ⊆ Finset.range (k + m)) (hcard : erased.card ≤ m)
    (hinv : IsUnit (survivorMatrix (Codec.ofParams lib t k m)
      (decodeIndex (erasuresOf (k + m) erased) k 0)))
    (sse2 : Bool) {stripe buffers : ℕ → Region} {blocksize : ℕ}
    (hstripe : ∀ i < k + m, (stripe i).bytes.length = blocksize)
    (hbuf : ∀ i < k + m, (buffers i).bytes.length = blocksize) :
    DecodeUndoesEncode lib t k m sse2 cache erased stripe buffers blocksize ↔
      WithinArrays t k m sse2 cache erased stripe buffers blocksize := by
  have hk : 0 < k := by
    have := hacc.two_le
    omega
  constructor
  · rintro ⟨c, encoded, cache', out, hprepare, hencode, hdecode, -⟩
    obtain ⟨hint, rfl⟩ := prepare_eq_some.1 hprepare
    refine ⟨hint, fun hm => ?_, fun hm => ?_, fun hm => ?_, fun huse tbls htbls => ?_⟩
    · subst hm
      rw [isaDecode_of_one hcard, assert_bind_eq_some] at hdecode
      obtain ⟨e, he⟩ := length_eq_one_iff.1 hdecode.1.symm
      exact ⟨e, (mem_erasuresOf.1 (he ▸ mem_singleton_self e)).2⟩
    · subst hm
      by_contra hfit
      rw [isaEncode_one_eq_none hfit] at hencode
      cases hencode
    · subst hm
      rw [isaDecode_of_one hcard, assert_bind_eq_some] at hdecode
      obtain ⟨e, he⟩ := length_eq_one_iff.1 hdecode.1.symm
      have hlt : e < k + 1 := (mem_erasuresOf.1 (he ▸ mem_singleton_self e)).1
      by_contra hfit
      obtain ⟨hsize, hlong, hsse, haligned⟩ := not_vbufFits.1 hfit
      have hreceived : ∀ i < k + 1,
          isAligned (received erased encoded buffers i).addr ecIsaVectorOpWordsize := haligned
      rw [he, recoverXor_eq_none (show (Codec.ofParams lib t k 1).k = k from rfl) le_rfl hlt hsize
        hsse hreceived hlong] at hdecode
      cases hdecode.2
    · by_contra hlong
      rw [isaDecode_of_usesTable huse hsub hcard,
        decodeWithTable_eq_none (TableCache.get_eq_none htbls (not_le.1 hlong))] at hdecode
      cases hdecode
  · intro h
    by_cases hm : m = 1
    · subst hm
      exact decodeUndoesEncode_of_one hk hsub hcard hstripe hbuf h
    · by_cases hshort : t = .kVandermonde ∧ ∃ e < k + 1, erased = {e}
      · obtain ⟨rfl, e, he, rfl⟩ := hshort
        exact decodeUndoesEncode_of_vandermonde hk (hacc.le_of_vandermonde.trans (by decide)) hm he
          hcard hstripe hbuf h.int_fits
      · exact decodeUndoesEncode_of_usesTable hcache ⟨hm, hshort⟩ hsub hcard hinv hstripe h

/-! ## Two runs -/

/-- The coefficients that a table begins with. -/
theorem getElem?_of_flatten_prefix {k i j : ℕ} {rows : List (List Byte)} {tbls : Table}
    (hrows : ∀ r ∈ rows, r.length = k) (h : rows.flatten.map some <+: tbls) {r : List Byte}
    (hr : rows[i]? = some r) (hj : j < k) : tbls[k * i + j]? = some r[j]? := by
  induction rows generalizing i tbls with
  | nil => cases hr
  | cons r' rows ih =>
    obtain ⟨hlen, htail⟩ := forall_mem_cons.1 hrows
    obtain ⟨-, rfl⟩ := h
    rw [flatten_cons, List.map_append, append_assoc]
    cases i with
    | zero =>
      obtain rfl : r' = r := some.inj hr
      rw [mul_zero, zero_add, getElem?_append_left (by rw [length_map]; omega),
        getElem?_map, getElem?_eq_getElem (by omega)]
      rfl
    | succ i =>
      rw [getElem?_append_right (by rw [length_map, Nat.mul_succ]; omega),
        length_map, hlen, Nat.mul_succ, show k * i + k + j - k = k * i + j by omega]
      exact ih htail (prefix_append _ _) hr

open Classical in
/-- ISA-L with the matrices it generates: powers of powers of `2`, and inverses of `i ^ j`. -/
noncomputable def isaL : IsaL where
  genMatrix
    | .kVandermonde, k, i, j =>
      if i < k then if i = j then 1 else 0 else (Byte.ofNat 2 ^ (i - k)) ^ j
    | .kCauchy, k, i, j => if i < k then if i = j then 1 else 0 else Byte.ofNat (i ^^^ j) ^ 254
  gfInvertMatrix b := if h : IsUnit b then some ↑(h.unit⁻¹) else none
  ecInitTables rows gftbls := rows.flatten.map some ++ gftbls.drop rows.flatten.length
  ecEncodeData len k n tbls src := some ((range n).map fun i =>
    dotProduct len ((range k).map fun j => (tbls[k * i + j]?).join.getD 0) src)
  systematic t k i j hi _ := by cases t <;> exact if_pos hi
  vandermonde_ones k j _ := by
    have hnot : ¬ k < k := lt_irrefl k
    simp only [if_neg hnot, Nat.sub_self, pow_zero, one_pow]
  invert {n b d} h := by
    by_cases hb : IsUnit b
    · rw [dif_pos hb, some.injEq] at h
      rw [← h]
      exact hb.unit.inv_mul
    · rw [dif_neg hb] at h
      cases h
  invert_isSome {n b} hb := by
    rw [dif_pos hb]
    rfl
  init_tables rows gftbls := prefix_append _ _
  encode_data {len k rows tbls src} hrows h := by
    congr 1
    refine ext_getElem (by simp) fun i hi hi' => ?_
    rw [length_map] at hi'
    have hlen := hrows _ (getElem_mem hi')
    rw [getElem_map, getElem_map, getElem_range]
    congr 1
    refine ext_getElem (by simp [hlen]) fun j hj hj' => ?_
    rw [getElem_map, getElem_range, getElem?_of_flatten_prefix hrows h (getElem?_eq_getElem hi')
      (by omega), getElem?_eq_getElem hj']
    rfl

/-- Chunks of `n` bytes at aligned addresses, the bytes of chunk `i` being `first + i`. -/
def filledChunks (n first : ℕ) : ℕ → Region :=
  fun i => ⟨64 * i, replicate n (Byte.ofNat (first + i))⟩

theorem isUnit_twoLost : IsUnit (survivorMatrix (Codec.ofParams isaL .kVandermonde 2 2)
    (decodeIndex (erasuresOf (2 + 2) {0, 1}) 2 0)) := by
  -- the rows `1 1` and `1 2`, whose determinant `3` has the inverse `0xf4`
  let d : Matrix (Fin 2) (Fin 2) Byte :=
    !![Byte.ofNat 0xf5, Byte.ofNat 0xf4; Byte.ofNat 0xf4, Byte.ofNat 0xf4]
  refine ⟨⟨_, d, ?_, ?_⟩, rfl⟩ <;>
    exact Matrix.ext fun i j => by fin_cases i <;> fin_cases j <;> decide +kernel

/-- Two data chunks and two parities, both data chunks lost: the matrix is inverted. -/
theorem decodeUndoesEncode_twoLost :
    WithinArrays .kVandermonde 2 2 true .empty {0, 1} (filledChunks 1 1) (filledChunks 1 9) 1 ∧
      DecodeUndoesEncode isaL .kVandermonde 2 2 true .empty {0, 1} (filledChunks 1 1)
        (filledChunks 1 9) 1 := by
  have hfits : WithinArrays .kVandermonde 2 2 true .empty {0, 1} (filledChunks 1 1)
      (filledChunks 1 9) 1 :=
    ⟨by decide, fun h => absurd h (by decide), fun h => absurd h (by decide),
      fun h => absurd h (by decide), nofun⟩
  have hacc : Accepted .kVandermonde 2 2 :=
    ⟨[("k", "2"), ("m", "2")], "", by decide +kernel, by decide +kernel, by decide +kernel⟩
  exact ⟨hfits, (decodeUndoesEncode_iff isaL hacc .empty (by decide) (by decide) isUnit_twoLost true
    (fun i _ => length_replicate ..) (fun i _ => length_replicate ..)).2 hfits⟩

/-- The decoding of the two lost chunks leaves a table for them in the cache. -/
theorem tableFor_twoLost : ∃ cache tbls, runDecodings isaL [⟨.kVandermonde, 2, 2, true, [0, 1],
      withParities isaL .kVandermonde 2 2 (filledChunks 1 1) 1, 1⟩] = some cache ∧
    (cache .kVandermonde).map (signatureOf 2 [0, 1]) = some tbls ∧
    TableFor isaL .kVandermonde 2 [0, 1] tbls := by
  have herased : erasuresOf (2 + 2) {0, 1} = [0, 1] := by decide
  have huse : UsesTable .kVandermonde 2 2 {0, 1} :=
    ⟨by decide, fun ⟨_, e, _, he⟩ => absurd (congrArg Finset.card he) (by simp)⟩
  obtain ⟨d, hd⟩ := isSome_iff_exists.1 (isaL.invert_isSome isUnit_twoLost)
  have hlen : ∀ i < 2 + 2, (filledChunks 1 1 i).bytes.length = 1 := fun i _ => length_replicate ..
  obtain ⟨cache, out, hdecode, -⟩ := decodeWithTable_eq .empty (by decide) (by decide)
    isUnit_twoLost (by decide) nofun hlen fun i _ _ => rfl
  have hrun : runDecodings isaL [⟨.kVandermonde, 2, 2, true, [0, 1],
      withParities isaL .kVandermonde 2 2 (filledChunks 1 1) 1, 1⟩] = some cache := by
    have hprepare : prepare isaL .kVandermonde 2 2 = some (ofParams isaL .kVandermonde 2 2) :=
      prepare_eq_some.2 ⟨by decide, rfl⟩
    simp only [runDecodings, foldlM_cons, foldlM_nil, hprepare, bind_eq_bind, bind_some]
    rw [← herased, isaDecode_of_usesTable huse (by decide) (by decide), hdecode]
    rfl
  rw [decodeWithTable_of_new (TableCache.get_of_none 2 2 rfl) hd, herased] at hdecode
  obtain ⟨out', -, heq⟩ := of_map hdecode
  cases heq
  have hmap : ((TableCache.empty.put (signatureOf 2 [0, 1])
      (decodeTbls isaL (ofParams isaL .kVandermonde 2 2) d [0, 1]) .kVandermonde 2 2)
      .kVandermonde).map (signatureOf 2 [0, 1]) = some ((decodeTbls isaL
        (ofParams isaL .kVandermonde 2 2) d [0, 1]).take (tableLength 2 2)) := by
    simp only [TableCache.put, Function.update_self]
  exact ⟨_, _, hrun, hmap, (tableFor_of_runDecodings hrun hmap).2 2 [0, 1] rfl⟩

/-- 257 data chunks and one parity: `isa_encode` overruns `vbuf`. -/
theorem isaEncode_overruns_vbuf : Accepted .kCauchy 257 1 ∧ Reachable isaL .empty ∧
      IsUnit (survivorMatrix (Codec.ofParams isaL .kCauchy 257 1)
        (decodeIndex (erasuresOf (257 + 1) {257}) 257 0)) ∧
      ¬ DecodeUndoesEncode isaL .kCauchy 257 1 true .empty {257} (filledChunks 64 0)
        (filledChunks 64 0) 64 := by
  have hindex : decodeIndex (erasuresOf (257 + 1) {257}) 257 0 = range 257 := by
    decide +kernel
  refine ⟨⟨[("k", "257"), ("m", "1")], "", by decide +kernel, by decide +kernel, by decide +kernel⟩,
    .empty, ?_, ?_⟩
  · rw [hindex]
    have hone : survivorMatrix (Codec.ofParams isaL .kCauchy 257 1) (range 257) = 1 := by
      refine Matrix.ext fun i j => ?_
      have hi : (range 257).getD i 0 = i := by
        rw [getD_eq_getElem _ _ (by rw [length_range]; exact i.2), getElem_range]
      rw [survivorMatrix, hi]
      refine (isaL.systematic .kCauchy 257 i j i.2 j.2).trans ?_
      simp only [Matrix.one_apply, Fin.ext_iff]
    rw [hone]
    exact isUnit_one
  · rintro ⟨c, encoded, -, -, hprepare, hencode, -⟩
    obtain ⟨-, rfl⟩ := prepare_eq_some.1 hprepare
    have hfit : ¬ VbufFits true 257 64 (filledChunks 64 0) :=
      not_vbufFits.2 ⟨by decide, by decide, rfl, fun i _ => isAligned_mul i⟩
    rw [isaEncode_one_eq_none hfit] at hencode
    cases hencode

end Ceph.Isa
