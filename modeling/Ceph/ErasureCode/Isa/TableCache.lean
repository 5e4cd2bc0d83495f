import Ceph.ErasureCode.Base

/-!
# The ISA plugin: `ErasureCodeIsaTableCache.cc`

The plugin keeps the decoding tables it has computed in one cache for each matrix
type, shared by all pools of the process, whatever their `k` and `m`.  A table is
found by its signature, which lists the rows that were inverted and the chunks that
are rebuilt.

* `erasureSignature_inj` — **a signature determines both lists**, and with the first one `k`.
* `TableCache.get`, `TableCache.put` — the two calls.  Fetching copies as many bytes
  as the caller's own `k` and `m` ask for, however long the stored table is.
* `cacheSafe_iff` — **what a run of calls returns and keeps**, for codecs that share the cache.
-/

namespace Ceph.Isa

open List Function

/-- `ErasureCodeIsa::eMatrix`. -/
inductive EMatrix where
  | kVandermonde
  | kCauchy
  deriving DecidableEq, Repr

/-! ## Signatures -/

/-- `snprintf(id, sizeof (id), "+%d", r)` with the sign as a parameter. -/
def signatureId (sign : Char) (r : ℕ) : List Char := sign :: Nat.toDigits 10 r

/-- `erasure_signature`, as `isa_decode` builds it. -/
def erasureSignature (decodeIndex erasures : List ℕ) : List Char :=
  decodeIndex.flatMap (signatureId '+') ++ erasures.flatMap (signatureId '-')

theorem toDigits_ten_inj {a b : ℕ} (h : Nat.toDigits 10 a = Nat.toDigits 10 b) : a = b := by
  have hvalue := congrArg (fun ds => Nat.ofDigitChars 10 ds 0) h
  simpa using hvalue

/-- A sequence of signed numbers, written one after the other. -/
def signedText (l : List (Char × ℕ)) : List Char := l.flatMap fun t => signatureId t.1 t.2

theorem takeWhile_isDigit_signedText {l : List (Char × ℕ)} (h : ∀ t ∈ l, t.1.isDigit = false) :
    (signedText l).takeWhile Char.isDigit = [] := by
  cases l with
  | nil => rfl
  | cons t l =>
    have hsign := h t mem_cons_self
    simp [signedText, signatureId, hsign]

/-- The numbers can be read back, since a sign is not a digit. -/
theorem signedText_inj {l l' : List (Char × ℕ)} (hl : ∀ t ∈ l, t.1.isDigit = false)
    (hl' : ∀ t ∈ l', t.1.isDigit = false) (h : signedText l = signedText l') : l = l' := by
  induction l generalizing l' with
  | nil =>
    cases l' with
    | nil => rfl
    | cons t l' => simp [signedText, signatureId] at h
  | cons t l ih =>
    cases l' with
    | nil => simp [signedText, signatureId] at h
    | cons t' l' =>
      obtain ⟨sign, n⟩ := t
      obtain ⟨sign', n'⟩ := t'
      obtain ⟨-, htail⟩ := forall_mem_cons.1 hl
      obtain ⟨-, htail'⟩ := forall_mem_cons.1 hl'
      obtain ⟨rfl, htext⟩ : sign = sign' ∧
          Nat.toDigits 10 n ++ signedText l = Nat.toDigits 10 n' ++ signedText l' := by
        simpa [signedText, signatureId] using h
      have hdigits := congrArg (takeWhile Char.isDigit) htext
      have hall : ∀ m, ∀ ch ∈ Nat.toDigits 10 m, ch.isDigit = true := fun m ch hch =>
        Nat.isDigit_of_mem_toDigits (by decide) (by decide) hch
      rw [takeWhile_append_of_pos (hall n), takeWhile_append_of_pos (hall n'),
        takeWhile_isDigit_signedText htail, takeWhile_isDigit_signedText htail', append_nil,
        append_nil] at hdigits
      rw [hdigits] at htext
      rw [toDigits_ten_inj hdigits, ih htail htail' (append_cancel_left htext)]

theorem erasureSignature_eq (decodeIndex erasures : List ℕ) :
    erasureSignature decodeIndex erasures =
      signedText (decodeIndex.map ('+', ·) ++ erasures.map ('-', ·)) := by
  simp [erasureSignature, signedText, flatMap_map]

/-- **A signature determines the rows and the chunks it was made of.** -/
theorem erasureSignature_inj {index index' erasures erasures' : List ℕ}
    (h : erasureSignature index erasures = erasureSignature index' erasures') :
    index = index' ∧ erasures = erasures' := by
  have hsigns : ∀ l l' : List ℕ, ∀ t ∈ l.map (('+', ·) : ℕ → Char × ℕ) ++ l'.map ('-', ·),
      t.1.isDigit = false := by
    intro l l' t ht
    simp only [mem_append, mem_map] at ht
    rcases ht with ⟨n, -, rfl⟩ | ⟨n, -, rfl⟩ <;> rfl
  rw [erasureSignature_eq, erasureSignature_eq] at h
  have htokens := signedText_inj (hsigns _ _) (hsigns _ _) h
  have hread : ∀ (sign : Char) (l : List ℕ) (sign' : Char),
      (l.map ((sign', ·) : ℕ → Char × ℕ)).filterMap (fun t => if t.1 = sign then some t.2 else none)
        = if sign' = sign then l else [] := by
    intro sign l sign'
    split_ifs with hs <;> simp [filterMap_map, hs]
  refine ⟨?_, ?_⟩
  · have hplus := congrArg
      (List.filterMap fun t : Char × ℕ => if t.1 = '+' then some t.2 else none) htokens
    simpa only [filterMap_append, hread, if_true, if_neg (show ('-' : Char) ≠ '+' by decide),
      append_nil] using hplus
  · have hminus := congrArg
      (List.filterMap fun t : Char × ℕ => if t.1 = '-' then some t.2 else none) htokens
    simpa only [filterMap_append, hread, if_true, if_neg (show ('+' : Char) ≠ '-' by decide),
      nil_append] using hminus

/-! ## The cache -/

/-- A decoding table: for each coefficient a slot, which stands for the 32 bytes
`ec_init_tables` expands it to.  A slot that nobody has written is `none`. -/
abbrev Table : Type := List (Option Byte)

/-- `lru_map_t` and `lru_list_t` of one matrix type. -/
structure LruTables where
  map : List Char → Option Table := fun _ => none
  lru : List (List Char) := []

/-- `decoding_tables` and `decoding_tables_lru`. -/
abbrev TableCache : Type := EMatrix → LruTables

/-- The cache of a plugin that has just been loaded. -/
def TableCache.empty : TableCache := fun _ => {}

/-- `decoding_tables_lru_length`. -/
def decodingTablesLruLength : ℕ := 2516

/-- How many slots a table has room for, `k * (m + k)`. -/
def tableLength (k m : ℕ) : ℕ := k * (m + k)

/-- The length of a table in bytes, `k * (m + k) * 32`, is an `int`. -/
def LengthFits (k m : ℕ) : Prop := tableLength k m * 32 < 2 ^ 31
  deriving Decidable

/-- `getDecodingTableFromCache`: the table, if there is one, and the cache with the signature
moved to the front of the list.  The copy has the length the caller's `k` and `m` give it; if
the stored table is shorter, the copy reads past its end, and the length may overflow. -/
def TableCache.get (c : TableCache) (signature : List Char) (matrixtype : EMatrix) (k m : ℕ) :
    Option (Option Table × TableCache) :=
  match (c matrixtype).map signature with
  | none => some (none, c)
  | some cachetable =>
    if LengthFits k m ∧ tableLength k m ≤ cachetable.length then
      some (some (cachetable.take (tableLength k m)), update c matrixtype
        { c matrixtype with lru := signature :: (c matrixtype).lru.erase signature })
    else none

/-- The shrinking of the list and the map in `putDecodingTableToCache`. -/
def LruTables.shrink (l : LruTables) : LruTables :=
  if decodingTablesLruLength ≤ l.lru.length then
    match l.lru.getLast? with
    | some back => { map := update l.map back none, lru := l.lru.dropLast }
    | none => l
  else l

/-- `putDecodingTableToCache`, by a codec whose table length fits.  The bytes of a buffer that is
used again are all written, so nothing depends on whether it is. -/
def TableCache.put (c : TableCache) (signature : List Char) (table : Table) (matrixtype : EMatrix)
    (k m : ℕ) : TableCache :=
  let l := (c matrixtype).shrink
  update c matrixtype
    { map := update l.map signature (some (table.take (tableLength k m)))
      lru := signature :: l.lru }

variable {c : TableCache} {signature : List Char} {t : EMatrix}

namespace TableCache

theorem get_of_none (k m : ℕ) (h : (c t).map signature = none) :
    c.get signature t k m = some (none, c) := by
  rw [get, h]

theorem get_of_some {k m : ℕ} {tbls : Table} (h : (c t).map signature = some tbls)
    (hfits : LengthFits k m) (hlen : tableLength k m ≤ tbls.length) :
    ∃ c', c.get signature t k m = some (some (tbls.take (tableLength k m)), c') := by
  rw [get, h]
  exact ⟨_, if_pos ⟨hfits, hlen⟩⟩

/-- A table shorter than the caller's is read past its end. -/
theorem get_eq_none {k m : ℕ} {tbls : Table} (h : (c t).map signature = some tbls)
    (hlen : tbls.length < tableLength k m) :
    c.get signature t k m = none := by
  rw [get, h]
  exact if_neg fun hle => not_le.2 hlen hle.2

/-- What a call for a table can do. -/
theorem get_cases {c' : TableCache} {k m : ℕ} {found : Option Table}
    (h : c.get signature t k m = some (found, c')) :
    c' = c ∨ ∃ tbls, (c t).map signature = some tbls ∧
      c' = update c t { c t with lru := signature :: (c t).lru.erase signature } := by
  rw [get] at h
  cases hmap : (c t).map signature with
  | none =>
    simp only [hmap, Option.some.injEq, Prod.mk.injEq] at h
    exact .inl h.2.symm
  | some tbls =>
    simp only [hmap] at h
    split_ifs at h with hlen
    simp only [Option.some.injEq, Prod.mk.injEq] at h
    exact .inr ⟨tbls, rfl, h.2.symm⟩

/-- Fetching changes no table. -/
theorem map_of_get {c' : TableCache} {k m : ℕ} {found : Option Table}
    (h : c.get signature t k m = some (found, c')) (t' : EMatrix) :
    (c' t').map = (c t').map := by
  obtain rfl | ⟨-, -, rfl⟩ := get_cases h
  · rfl
  · by_cases ht : t' = t
    · subst ht
      rw [update_self]
    · rw [update_of_ne ht]

end TableCache

theorem LruTables.map_of_shrink {l : LruTables} {table : Table}
    (h : l.shrink.map signature = some table) : l.map signature = some table := by
  rw [LruTables.shrink] at h
  split_ifs at h with hlen
  · cases hlast : l.lru.getLast? with
    | none => rwa [hlast] at h
    | some back =>
      simp only [hlast] at h
      by_cases hback : signature = back
      · rw [hback, update_self] at h
        cases h
      · rwa [update_of_ne hback] at h
  · exact h

/-- What the cache holds after a table has been stored: that table and older ones. -/
theorem TableCache.map_of_put {sig : List Char} {table tbl : Table} {t' : EMatrix} {k m : ℕ}
    (h : (c.put signature table t k m t').map sig = some tbl) :
    (t' = t ∧ sig = signature ∧ tbl = table.take (tableLength k m)) ∨
      (c t').map sig = some tbl := by
  unfold TableCache.put at h
  by_cases ht : t' = t
  · subst ht
    simp only [update_self] at h
    by_cases hsig : sig = signature
    · subst hsig
      rw [update_self, Option.some.injEq] at h
      exact .inl ⟨rfl, rfl, h.symm⟩
    · rw [update_of_ne hsig] at h
      exact .inr (LruTables.map_of_shrink h)
  · simp only [update_of_ne ht] at h
    exact .inr h

/-! ## Runs of calls -/

/-- A call of a codec, made under the mutex.  What is put has the length its `k` and `m` ask for. -/
inductive CacheCall where
  | get (signature : List Char) (t : EMatrix) (k m : ℕ)
  | put (signature : List Char) (t : EMatrix) (k m : ℕ) (table : Table)
      (full : table.length = tableLength k m)

/-- What was put last, for each entry by the codecs with each `k` and `m`. -/
abbrev Puts : Type := (List Char × EMatrix) × (ℕ × ℕ) → Option Table

namespace CacheCall

/-- The entry a call is about. -/
def key : CacheCall → List Char × EMatrix
  | get signature t _ _ => (signature, t)
  | put signature t _ _ _ _ => (signature, t)

/-- `k` and `m` of the caller. -/
def params : CacheCall → ℕ × ℕ
  | get _ _ k m => (k, m)
  | put _ _ k m _ _ => (k, m)

/-- What has been put last after a call. -/
def record (last : Puts) : CacheCall → Puts
  | get .. => last
  | put signature t k m table _ => update last ((signature, t), (k, m)) (some table)

end CacheCall

/-- What a call finds, and the cache after it. -/
def TableCache.call (c : TableCache) : CacheCall → Option (Option Table × TableCache)
  | .get signature t k m => c.get signature t k m
  | .put signature t k m table _ =>
    if LengthFits k m then some (none, c.put signature table t k m) else none

/-- List and map hold the same signatures, each once, and not too many. -/
structure LruTables.Consistent (l : LruTables) : Prop where
  nodup : l.lru.Nodup
  mem_iff : ∀ s, s ∈ l.lru ↔ (l.map s).isSome
  length_le : l.lru.length ≤ decodingTablesLruLength

/-- After every call lists and maps are consistent, and what is found was put last. -/
def CacheSafe (c : TableCache) (last : Puts) : List CacheCall → Prop
  | [] => True
  | call :: calls => ∃ found c', c.call call = some (found, c') ∧ (∀ t, (c' t).Consistent) ∧
      (∀ table ∈ found, last (call.key, call.params) = some table) ∧
        CacheSafe c' (call.record last) calls

/-- The signature that is put is new once room has been made for it. -/
def TableCache.PutsNew (c : TableCache) : CacheCall → Prop
  | .get .. => True
  | .put signature t _ _ _ _ => (c t).shrink.map signature = none

/-- Every signature that is put is new. -/
def AllNew (c : TableCache) : List CacheCall → Prop
  | [] => True
  | call :: calls =>
    c.PutsNew call ∧ ∀ found c', c.call call = some (found, c') → AllNew c' calls

theorem LruTables.Consistent.shrink {l : LruTables} (h : l.Consistent) :
    l.shrink.Consistent ∧ l.shrink.lru.length < decodingTablesLruLength := by
  rw [LruTables.shrink]
  split_ifs with hfull
  · have hne : l.lru ≠ [] := by
      rintro heq
      rw [heq] at hfull
      exact absurd hfull (by decide)
    obtain ⟨init, back, heq⟩ := (eq_nil_or_concat' l.lru).resolve_left hne
    have hnodup := h.nodup
    have hmem := h.mem_iff
    have hle := h.length_le
    rw [heq] at hnodup hmem hle
    simp only [heq, getLast?_concat, dropLast_concat]
    have hback : back ∉ init := fun hin => (nodup_append.1 hnodup).2.2 back hin back (by simp) rfl
    refine ⟨⟨(nodup_append.1 hnodup).1, fun s => ?_, ?_⟩, ?_⟩
    · by_cases hs : s = back
      · simp [hs, hback]
      · simp [hs, ← hmem]
    · simp only [length_append, length_singleton] at hle ⊢
      omega
    · simp only [length_append, length_singleton] at hle ⊢
      omega
  · exact ⟨h, not_le.1 hfull⟩

section Runs

variable {k m : ℕ} {last : Puts}

theorem consistent_get {found : Option Table} {c' : TableCache} (h : ∀ t', (c t').Consistent)
    (hget : c.get signature t k m = some (found, c')) (t' : EMatrix) : (c' t').Consistent := by
  obtain rfl | ⟨tbls, hmap, rfl⟩ := TableCache.get_cases hget
  · exact h t'
  · have hmem := ((h t).mem_iff signature).2 (by rw [hmap]; rfl)
    -- the signature moves to the front
    have hperm := (perm_cons_erase hmem).symm
    refine (forall_update_iff c fun _ l => l.Consistent).2 ⟨?_, fun t' _ => h t'⟩ t'
    exact ⟨hperm.nodup_iff.2 (h t).nodup, fun s => hperm.mem_iff.trans ((h t).mem_iff s),
      hperm.length_eq.trans_le (h t).length_le⟩

theorem consistent_put_iff {table : Table} (h : ∀ t', (c t').Consistent) :
    (∀ t', (c.put signature table t k m t').Consistent) ↔ (c t).shrink.map signature = none := by
  obtain ⟨hshrink, hlt⟩ := (h t).shrink
  have hnotMem : (c t).shrink.map signature = none ↔ signature ∉ (c t).shrink.lru := by
    rw [hshrink.mem_iff, Option.not_isSome_iff_eq_none]
  rw [TableCache.put, forall_update_iff c fun _ l => l.Consistent]
  constructor
  · rintro ⟨hput, -⟩
    exact hnotMem.2 (nodup_cons.1 hput.nodup).1
  · intro hnew
    refine ⟨⟨nodup_cons.2 ⟨hnotMem.1 hnew, hshrink.nodup⟩, fun s => ?_, hlt⟩, fun t' _ => h t'⟩
    by_cases hs : s = signature
    · simp [hs]
    · simp [hs, hshrink.mem_iff]

/-- The table of an entry was put last, with the parameters of the entry. -/
def Stored (params : List Char × EMatrix → ℕ × ℕ) (last : Puts) (c : TableCache) : Prop :=
  ∀ s t table, (c t).map s = some table →
    table.length = tableLength (params (s, t)).1 (params (s, t)).2 ∧
      last ((s, t), params (s, t)) = some table

variable {params : List Char × EMatrix → ℕ × ℕ} {call : CacheCall} {found : Option Table}
  {c' : TableCache}

theorem stored_call (h : Stored params last c) (hcall : call.params = params call.key)
    (hrun : c.call call = some (found, c')) : Stored params (call.record last) c' := by
  intro s' t' table' hmap
  cases call with
  | get s t k m =>
    rw [TableCache.map_of_get hrun] at hmap
    exact h s' t' table' hmap
  | put s t k m table full =>
    obtain ⟨-, heq⟩ := Option.ite_none_right_eq_some.1 hrun
    cases heq
    rw [CacheCall.record]
    by_cases hkey : (s, t) = (s', t')
    · cases hkey
      rw [← show (k, m) = params (s', t') from hcall, update_self]
      simp only [TableCache.put, update_self, take_of_length_le full.le, Option.some.injEq] at hmap
      exact hmap ▸ ⟨full, rfl⟩
    · rw [update_of_ne fun heq => hkey (congrArg Prod.fst heq).symm]
      refine h s' t' table' ((TableCache.map_of_put hmap).resolve_left ?_)
      exact fun heq => hkey (by rw [heq.1, heq.2.1])

theorem call_iff (h : ∀ t, (c t).Consistent) (hstored : Stored params last c)
    (hcall : call.params = params call.key) (hfits : LengthFits call.params.1 call.params.2) :
    (∃ found c', c.call call = some (found, c') ∧ (∀ t, (c' t).Consistent) ∧
      ∀ table ∈ found, last (call.key, call.params) = some table) ↔ c.PutsNew call := by
  cases call with
  | get s t k m =>
    refine iff_of_true ?_ trivial
    cases hmap : (c t).map s with
    | none => exact ⟨_, _, TableCache.get_of_none k m hmap, h, nofun⟩
    | some table =>
      -- what is stored was put with the parameters of the caller
      obtain ⟨hfull, hlast⟩ := hstored s t table hmap
      rw [← show (k, m) = params (s, t) from hcall] at hfull hlast
      obtain ⟨c', hget⟩ := TableCache.get_of_some hmap (show LengthFits k m from hfits) hfull.ge
      rw [take_of_length_le hfull.le] at hget
      exact ⟨_, c', hget, consistent_get h hget, fun _ htable => Option.some.inj htable ▸ hlast⟩
  | put s t k m table full =>
    have hput : c.call (.put s t k m table full) = some (none, c.put s table t k m) :=
      if_pos hfits
    simp only [hput, Option.some.injEq, Prod.mk.injEq]
    constructor
    · rintro ⟨-, -, ⟨-, rfl⟩, hc, -⟩
      exact (consistent_put_iff h).1 hc
    · exact fun hnew => ⟨_, _, ⟨rfl, rfl⟩, (consistent_put_iff h).2 hnew, nofun⟩

/-- The run lemma: induction on the calls, from any cache with the invariant. -/
theorem cacheSafe_of_stored {calls : List CacheCall} (h : ∀ t, (c t).Consistent)
    (hstored : Stored params last c) (huniform : ∀ call ∈ calls, call.params = params call.key)
    (hfits : ∀ call ∈ calls, LengthFits call.params.1 call.params.2) :
    CacheSafe c last calls ↔ AllNew c calls := by
  induction calls generalizing c last with
  | nil => exact Iff.rfl
  | cons call calls ih =>
    obtain ⟨hcall, huniform⟩ := forall_mem_cons.1 huniform
    obtain ⟨hfit, hfits⟩ := forall_mem_cons.1 hfits
    have hiff := call_iff h hstored hcall hfit
    constructor
    · rintro ⟨found, c', hrun, hc, hhit, hsafe⟩
      refine ⟨hiff.1 ⟨found, c', hrun, hc, hhit⟩, fun found' c₁ hrun' => ?_⟩
      cases hrun.symm.trans hrun'
      exact (ih hc (stored_call hstored hcall hrun) huniform hfits).1 hsafe
    · rintro ⟨hnew, hrest⟩
      obtain ⟨found, c', hrun, hc, hhit⟩ := hiff.2 hnew
      exact ⟨found, c', hrun, hc, hhit,
        (ih hc (stored_call hstored hcall hrun) huniform hfits).2 (hrest found c' hrun)⟩

/-- **The cache is sound** in a run in which a signature always comes with the same `k` and `m`,
and the length of its table is an `int`, exactly if no table is put for a signature the cache still
holds. -/
theorem cacheSafe_iff (params : List Char × EMatrix → ℕ × ℕ) {calls : List CacheCall}
    (huniform : ∀ call ∈ calls, call.params = params call.key)
    (hfits : ∀ call ∈ calls, LengthFits call.params.1 call.params.2) :
    CacheSafe .empty (fun _ => none) calls ↔ AllNew .empty calls :=
  cacheSafe_of_stored (fun _ => ⟨nodup_nil, by simp [TableCache.empty], zero_le⟩) nofun huniform
    hfits

/-- A codec with `k = 2` and `m = 1` and one with `k = m = 1` and another matrix type put a table
each; both find theirs, and a third signature is not found. -/
theorem cacheSafe_two_codecs : CacheSafe .empty (fun _ => none)
    [.put ['+', '0', '+', '1', '-', '2'] .kCauchy 2 1
      [some 1, some 2, some 3, some 4, none, none] rfl,
      .put ['+', '0', '-', '1'] .kVandermonde 1 1 [some 1, none] rfl,
      .get ['+', '0', '+', '1', '-', '2'] .kCauchy 2 1, .get ['+', '0', '-', '1'] .kVandermonde 1 1,
      .get ['+', '0', '-', '1'] .kCauchy 2 1] := by
  refine (cacheSafe_iff (fun key => if key.2 = .kCauchy then (2, 1) else (1, 1))
    (by simp [CacheCall.params, CacheCall.key]) (by simp [CacheCall.params]; decide)).2 ?_
  refine ⟨rfl, fun _ _ h => ?_⟩
  cases h
  refine ⟨rfl, fun _ _ _ => ?_⟩
  exact ⟨trivial, fun _ _ _ => ⟨trivial, fun _ _ _ => ⟨trivial, fun _ _ _ => trivial⟩⟩⟩

/-- Two threads that both miss put the signature twice; and a codec with another `m` reads past the
end of the table. -/
theorem not_cacheSafe_put_put : ¬ CacheSafe .empty (fun _ => none)
        [.put ['+', '0', '-', '1'] .kCauchy 1 1 [some 1, some 1] rfl,
          .put ['+', '0', '-', '1'] .kCauchy 1 1 [some 1, some 1] rfl] ∧
      ¬ CacheSafe .empty (fun _ => none)
        [.put ['+', '0', '-', '1'] .kCauchy 1 1 [some 1, some 1] rfl,
          .get ['+', '0', '-', '1'] .kCauchy 1 2] := by
  constructor <;> rintro ⟨-, -, ⟨⟩, -, -, found, c, hrun, hc, -⟩
  · cases hrun
    exact absurd (hc .kCauchy).nodup (by decide)
  · cases hrun

end Runs

end Ceph.Isa
