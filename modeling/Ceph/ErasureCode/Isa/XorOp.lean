import Ceph.ErasureCode.Base
import Ceph.Lib.Loop

/-!
# The ISA plugin: `xor_op.cc`

`region_xor` writes the XOR of several buffers into another one, in words of 64
or 16 bytes where the addresses allow it and byte by byte for the rest.

* `regionXor` — the function, with the three loops it chooses from.
* `regionXor_eq` — **every way of choosing gives the same bytes**, `xorRegions`;
  only the 64-byte loop can fail, on more sources than its table of 256 pointers holds
  (`regionXor_holdsXor_iff`).
-/

namespace Ceph.Isa

open List Option Nat

/-- A buffer of the process: where it starts and what it holds. -/
structure Region where
  addr : ℕ
  bytes : Buffer

/-- `EC_ISA_VECTOR_SSE2_WORDSIZE`. -/
def ecIsaVectorSse2Wordsize : ℕ := 64

/-- `EC_ISA_VECTOR_OP_WORDSIZE`, for a compiler with vector extensions. -/
def ecIsaVectorOpWordsize : ℕ := 16

/-- `is_aligned(POINTER, BYTE_COUNT)`. -/
def isAligned (pointer byteCount : ℕ) : Bool := pointer % byteCount = 0

/-- `byte_xor(cw, dw, cw + n)`. -/
def byteXor : Buffer → Buffer → ℕ → Option Buffer
  | _, dw, 0 => some dw
  | c :: cw, d :: dw, n + 1 => (byteXor cw dw n).map ((d + c) :: ·)
  | _, _, _ + 1 => none

/-- The loop of `vector_xor`, over `n` words of `ecIsaVectorOpWordsize` bytes. -/
def vectorWords : Buffer → Buffer → ℕ → Option Buffer
  | _, dw, 0 => some dw
  | cw, dw, n + 1 =>
    if ecIsaVectorOpWordsize ≤ cw.length ∧ ecIsaVectorOpWordsize ≤ dw.length then
      (vectorWords (cw.drop ecIsaVectorOpWordsize) (dw.drop ecIsaVectorOpWordsize) n).map
        (zipWith (· + ·) (dw.take ecIsaVectorOpWordsize) (cw.take ecIsaVectorOpWordsize) ++ ·)
    else none

/-- `vector_xor(cw, dw, cw + n)`, with the addresses it asserts to be aligned. -/
def vectorXor (cw dw : Region) (n : ℕ) : Option Buffer := do
  assert (isAligned cw.addr ecIsaVectorOpWordsize)
  assert (isAligned dw.addr ecIsaVectorOpWordsize)
  assert (isAligned (cw.addr + n * ecIsaVectorOpWordsize) ecIsaVectorOpWordsize)
  vectorWords cw.bytes dw.bytes n

variable (src : Buffer) (rest : List Buffer)

/-- The bytes of `src` and of all `rest` added up. -/
def xorRegions : Buffer :=
  rest.foldl (zipWith (· + ·)) src

/-- The loop of `region_sse2_xor`, over `n` words of `ecIsaVectorSse2Wordsize` bytes: the four
registers are loaded from the first source, added to from the others and stored. -/
def sse2Words : Buffer → List Buffer → Buffer → ℕ → Option Buffer
  | _, _, parity, 0 => some parity
  | src, rest, parity, n + 1 =>
    if ∀ b ∈ parity :: src :: rest, ecIsaVectorSse2Wordsize ≤ b.length then
      (sse2Words (src.drop ecIsaVectorSse2Wordsize)
          (rest.map (·.drop ecIsaVectorSse2Wordsize)) (parity.drop ecIsaVectorSse2Wordsize) n).map
        (xorRegions (src.take ecIsaVectorSse2Wordsize)
          (rest.map (·.take ecIsaVectorSse2Wordsize)) ++ ·)
    else none

/-- How many pointers `vbuf` of `region_sse2_xor` holds. -/
def vbufLength : ℕ := 256

/-- `region_sse2_xor`: the pointers are copied to `vbuf` before the loop. -/
def regionSse2Xor (parity : Buffer) (size : ℕ) : Option Buffer := do
  assert (size % ecIsaVectorSse2Wordsize = 0)
  -- one more and the copying runs past the end of `vbuf`
  assert (rest.length + 1 ≤ vbufLength)
  sse2Words src rest parity (size / ecIsaVectorSse2Wordsize)

/-- The part of `region_xor` that works in words, and how many bytes it leaves. -/
def xorWords (sse2 : Bool) (src : Region) (rest : List Region) (parity : Region) (size : ℕ) :
    Option (Buffer × ℕ) :=
  if (src :: rest).all (isAligned ·.addr ecIsaVectorOpWordsize) &&
      isAligned parity.addr ecIsaVectorOpWordsize then
    if sse2 then
      let regionSize := size / ecIsaVectorSse2Wordsize * ecIsaVectorSse2Wordsize
      (regionSse2Xor src.bytes (rest.map (·.bytes)) parity.bytes regionSize).map
        (·, size - regionSize)
    else
      let vectorWords := size / ecIsaVectorOpWordsize
      let vectorSize := vectorWords * ecIsaVectorOpWordsize
      ((memcpy parity.bytes src.bytes vectorSize).bind fun p =>
        rest.foldlM (fun p s => vectorXor s ⟨parity.addr, p⟩ vectorWords) p).map
          (·, size - vectorSize)
  else some (parity.bytes, size)

/-- The part of `region_xor` that works byte by byte, on the last `sizeLeft` bytes. -/
def xorTail (parity : Buffer) (size sizeLeft : ℕ) : Option Buffer :=
  if sizeLeft = 0 then some parity
  else
    let start := size - sizeLeft
    ((memcpy (parity.drop start) (src.drop start) sizeLeft).bind fun p =>
      rest.foldlM (fun p s => byteXor (s.drop start) p sizeLeft) p).map (parity.take start ++ ·)

/-- `region_xor`: what `parity` holds afterwards.  `sse2` is `ceph_arch_intel_sse2`. -/
def regionXor (sse2 : Bool) (src : List Region) (parity : Region) (size : ℕ) : Option Buffer :=
  if size = 0 then some parity.bytes
  else match src with
    | [] => some parity.bytes
    | [s] => memcpy parity.bytes s.bytes size
    | s :: rest => do
      let (p, sizeLeft) ← xorWords sse2 s rest parity size
      xorTail s.bytes (rest.map (·.bytes)) p size sizeLeft

/-! ## The loops -/

variable {n : ℕ}

theorem byteXor_of_length {cw dw : Buffer} (hc : cw.length = n) (hd : dw.length = n) :
    byteXor cw dw n = some (zipWith (· + ·) dw cw) := by
  induction n generalizing cw dw with
  | zero =>
    rw [length_eq_zero_iff] at hc hd
    rw [hc, hd]
    rfl
  | succ n ih =>
    obtain ⟨c, cw, rfl⟩ := exists_cons_of_length_eq_add_one hc
    obtain ⟨d, dw, rfl⟩ := exists_cons_of_length_eq_add_one hd
    rw [byteXor, ih (Nat.succ.inj hc) (Nat.succ.inj hd)]
    rfl

/-- Words of a buffer are added to the words of another, the rest of which stays. -/
theorem vectorWords_of_length {cw dw : Buffer} (hc : n * ecIsaVectorOpWordsize ≤ cw.length)
    (hd : n * ecIsaVectorOpWordsize ≤ dw.length) :
    vectorWords cw dw n = some (zipWith (· + ·) (dw.take (n * ecIsaVectorOpWordsize))
      (cw.take (n * ecIsaVectorOpWordsize)) ++ dw.drop (n * ecIsaVectorOpWordsize)) := by
  induction n generalizing cw dw with
  | zero => simp [vectorWords]
  | succ n ih =>
    rw [succ_mul, add_comm (n * _)] at hc hd ⊢
    rw [vectorWords, if_pos ⟨by omega, by omega⟩, ih (by rw [length_drop]; omega)
      (by rw [length_drop]; omega), map_some, take_add, take_add,
      zipWith_append (by rw [length_take, length_take]; omega), drop_drop, append_assoc]

theorem vectorXor_of_aligned {cw dw : Region} (hcw : isAligned cw.addr ecIsaVectorOpWordsize)
    (hdw : isAligned dw.addr ecIsaVectorOpWordsize) :
    vectorXor cw dw n = vectorWords cw.bytes dw.bytes n := by
  have hew : isAligned (cw.addr + n * ecIsaVectorOpWordsize) ecIsaVectorOpWordsize := by
    simpa [isAligned] using hcw
  rw [vectorXor, assert_bind hcw, assert_bind hdw, assert_bind hew]

/-! ## Sums of buffers -/

theorem take_xorRegions (n : ℕ) :
    (xorRegions src rest).take n = xorRegions (src.take n) (rest.map (·.take n)) := by
  induction rest generalizing src with
  | nil => rfl
  | cons b rest ih => exact (ih _).trans (by rw [take_zipWith]; rfl)

theorem drop_xorRegions (n : ℕ) :
    (xorRegions src rest).drop n = xorRegions (src.drop n) (rest.map (·.drop n)) := by
  induction rest generalizing src with
  | nil => rfl
  | cons b rest ih => exact (ih _).trans (by rw [drop_zipWith]; rfl)

section

variable {src : Buffer} {rest : List Buffer} (hsrc : src.length = n)
  (hrest : ∀ b ∈ rest, b.length = n)

include hsrc hrest

theorem length_xorRegions : (xorRegions src rest).length = n := by
  induction rest generalizing src with
  | nil => exact hsrc
  | cons b rest ih =>
    obtain ⟨hb, hrest⟩ := forall_mem_cons.1 hrest
    exact ih (by rw [length_zipWith, hsrc, hb, min_self]) hrest

/-- Byte by byte the buffers are added up. -/
theorem getElem?_xorRegions {x : ℕ} (hx : x < n) :
    (xorRegions src rest)[x]? = some (((src :: rest).map (·.getD x 0)).sum) := by
  induction rest generalizing src with
  | nil => simp [xorRegions, getD_eq_getElem?_getD, hsrc, hx]
  | cons b rest ih =>
    obtain ⟨hb, hrest⟩ := forall_mem_cons.1 hrest
    have hsum : (zipWith (· + ·) src b).length = n := by
      rw [length_zipWith, hsrc, hb, min_self]
    refine (ih hsum hrest).trans ?_
    have hhead : (zipWith (· + ·) src b).getD x 0 = src.getD x 0 + b.getD x 0 := by
      rw [getD_eq_getElem _ _ (by omega), getElem_zipWith,
        getD_eq_getElem _ _ (by omega), getD_eq_getElem _ _ (by omega)]
    rw [map_cons, sum_cons, hhead, map_cons, map_cons, sum_cons, sum_cons, add_assoc]

end

theorem sse2Words_of_length {src parity : Buffer} {rest : List Buffer}
    (hlen : ∀ b ∈ parity :: src :: rest, n * ecIsaVectorSse2Wordsize ≤ b.length) :
    sse2Words src rest parity n = some ((xorRegions src rest).take (n * ecIsaVectorSse2Wordsize) ++
      parity.drop (n * ecIsaVectorSse2Wordsize)) := by
  induction n generalizing src rest parity with
  | zero => simp [sse2Words]
  | succ n ih =>
    rw [succ_mul, add_comm (n * _)] at hlen ⊢
    rw [sse2Words, if_pos fun b hb => by have := hlen b hb; omega, ih, map_some,
      ← drop_xorRegions, ← take_xorRegions, take_add, drop_drop, append_assoc]
    intro b hb
    obtain ⟨b', hb', rfl⟩ : ∃ b' ∈ parity :: src :: rest, b = b'.drop ecIsaVectorSse2Wordsize := by
      simp only [List.mem_cons, List.mem_map] at hb ⊢
      rcases hb with rfl | rfl | ⟨b', hb', rfl⟩
      · exact ⟨parity, .inl rfl, rfl⟩
      · exact ⟨src, .inr (.inl rfl), rfl⟩
      · exact ⟨b', .inr (.inr hb'), rfl⟩
    have := hlen b' hb'
    rw [length_drop]
    omega

theorem regionSse2Xor_of_length {src parity : Buffer} {rest : List Buffer}
    (hcount : rest.length + 1 ≤ vbufLength)
    (hlen : ∀ b ∈ parity :: src :: rest, n * ecIsaVectorSse2Wordsize ≤ b.length) :
    regionSse2Xor src rest parity (n * ecIsaVectorSse2Wordsize) =
      some ((xorRegions src rest).take (n * ecIsaVectorSse2Wordsize) ++
        parity.drop (n * ecIsaVectorSse2Wordsize)) := by
  rw [regionSse2Xor, assert_bind (Nat.mul_mod_left ..), assert_bind hcount,
    Nat.mul_div_cancel _ (by decide), sse2Words_of_length hlen]

theorem foldlM_vectorXor {addr : ℕ} {rest : List Region} {p : Buffer}
    (haddr : isAligned addr ecIsaVectorOpWordsize)
    (hrest : ∀ s ∈ rest, isAligned s.addr ecIsaVectorOpWordsize ∧
      n * ecIsaVectorOpWordsize ≤ s.bytes.length)
    (hp : n * ecIsaVectorOpWordsize ≤ p.length) :
    rest.foldlM (fun p s => vectorXor s ⟨addr, p⟩ n) p =
      some ((xorRegions p (rest.map (·.bytes))).take (n * ecIsaVectorOpWordsize) ++
        p.drop (n * ecIsaVectorOpWordsize)) := by
  induction rest generalizing p with
  | nil => simp [xorRegions]
  | cons s rest ih =>
    obtain ⟨⟨hs, hslen⟩, hrest⟩ := forall_mem_cons.1 hrest
    have hlen : (zipWith (· + ·) (p.take (n * ecIsaVectorOpWordsize))
        (s.bytes.take (n * ecIsaVectorOpWordsize))).length = n * ecIsaVectorOpWordsize := by
      rw [length_zipWith, length_take, length_take]
      omega
    rw [foldlM_cons, vectorXor_of_aligned hs haddr, vectorWords_of_length hslen hp,
      bind_eq_bind, bind_some, ih hrest (by rw [length_append]; omega),
      take_xorRegions, take_left' hlen, drop_left' hlen, take_xorRegions]
    rfl

theorem foldlM_byteXor {start : ℕ} {rest : List Buffer} {p : Buffer}
    (hrest : ∀ s ∈ rest, s.length = start + n) (hp : p.length = n) :
    rest.foldlM (fun p s => byteXor (s.drop start) p n) p =
      some (xorRegions p (rest.map (·.drop start))) := by
  induction rest generalizing p with
  | nil => rfl
  | cons s rest ih =>
    obtain ⟨hs, hrest⟩ := forall_mem_cons.1 hrest
    have hdrop : (s.drop start).length = n := by rw [length_drop]; omega
    rw [foldlM_cons, byteXor_of_length hdrop hp, bind_eq_bind, bind_some,
      ih hrest (by rw [length_zipWith]; omega)]
    rfl

/-! ## The whole function -/

/-- Whether `region_xor` hands `src` to `region_sse2_xor`. -/
def UsesSse2 (sse2 : Bool) (src : List Region) (parity : Region) : Prop :=
  sse2 = true ∧ (∀ s ∈ src, isAligned s.addr ecIsaVectorOpWordsize) ∧
    isAligned parity.addr ecIsaVectorOpWordsize

section

variable {sse2 : Bool} {src parity : Region} {rest : List Region} {size : ℕ}

/-- The words are added up in a first part of `parity`. -/
theorem xorWords_eq (hlen : ∀ r ∈ parity :: src :: rest, r.bytes.length = size)
    (hfit : UsesSse2 sse2 (src :: rest) parity → (src :: rest).length ≤ vbufLength) :
    ∃ n ≤ size, xorWords sse2 src rest parity size = some
      ((xorRegions src.bytes (rest.map (·.bytes))).take n ++ parity.bytes.drop n, size - n) := by
  obtain ⟨hparity, hsrc, hrest⟩ : parity.bytes.length = size ∧ src.bytes.length = size ∧
      ∀ r ∈ rest, r.bytes.length = size := by simpa using hlen
  unfold xorWords
  by_cases haligned : ((src :: rest).all (isAligned ·.addr ecIsaVectorOpWordsize) &&
      isAligned parity.addr ecIsaVectorOpWordsize) = true
  · simp only [if_pos haligned]
    rw [Bool.and_eq_true, List.all_eq_true] at haligned
    cases sse2 with
    | true =>
      have hle : size / ecIsaVectorSse2Wordsize * ecIsaVectorSse2Wordsize ≤ size :=
        div_mul_le_self ..
      have hcount := hfit ⟨rfl, haligned⟩
      refine ⟨_, hle, ?_⟩
      rw [if_pos rfl, regionSse2Xor_of_length (by simpa using hcount)]
      · rfl
      · simpa [hparity, hsrc, hle] using fun r hr => (hrest r hr).symm ▸ hle
    | false =>
      have hle : size / ecIsaVectorOpWordsize * ecIsaVectorOpWordsize ≤ size :=
        div_mul_le_self ..
      have hcopied : (src.bytes.take (size / ecIsaVectorOpWordsize * ecIsaVectorOpWordsize)).length
          = size / ecIsaVectorOpWordsize * ecIsaVectorOpWordsize := by
        rw [length_take]
        omega
      refine ⟨_, hle, ?_⟩
      rw [if_neg (by decide), memcpy, if_pos ⟨by omega, by omega⟩, bind_some,
        foldlM_vectorXor haligned.2
          (fun s hs => ⟨haligned.1 s (mem_cons_of_mem _ hs), by rw [hrest s hs]; exact hle⟩)
          (by rw [length_append]; omega), take_xorRegions, take_left' hcopied,
        drop_left' hcopied, take_xorRegions]
      rfl
  · simp only [if_neg haligned]
    exact ⟨0, zero_le _, by simp⟩

/-- The last bytes are added up, the others stay. -/
theorem xorTail_eq {src p : Buffer} {rest : List Buffer} {size : ℕ} (hn : n ≤ size)
    (hp : p.length = size) (hsrc : src.length = size) (hrest : ∀ b ∈ rest, b.length = size) :
    xorTail src rest p size (size - n) = some (p.take n ++ (xorRegions src rest).drop n) := by
  rw [xorTail]
  by_cases hz : size - n = 0
  · have hlen := length_xorRegions hsrc hrest
    rw [if_pos hz, drop_of_length_le (by omega), append_nil, take_of_length_le (by omega)]
  · have hstart : size - (size - n) = n := by omega
    rw [if_neg hz]
    simp only [hstart]
    rw [memcpy_of_length (by rw [length_drop]; omega) (by rw [length_drop]; omega),
      bind_some, foldlM_byteXor (fun b hb => by rw [hrest b hb]; omega)
        (by rw [length_drop]; omega), ← drop_xorRegions]
    rfl

end

/-- **Every way of choosing the words gives the XOR of the sources**, as long as `vbuf` is not
overrun. -/
theorem regionXor_eq {sse2 : Bool} {src parity : Region} {rest : List Region} {size : ℕ}
    (hlen : ∀ r ∈ parity :: src :: rest, r.bytes.length = size)
    (hfit : size ≠ 0 → UsesSse2 sse2 (src :: rest) parity → (src :: rest).length ≤ vbufLength) :
    regionXor sse2 (src :: rest) parity size =
      some (xorRegions src.bytes (rest.map (·.bytes))) := by
  obtain ⟨hparity, hsrc, hrest⟩ : parity.bytes.length = size ∧ src.bytes.length = size ∧
      ∀ r ∈ rest, r.bytes.length = size := by simpa using hlen
  have hbytes : ∀ b ∈ rest.map (·.bytes), b.length = size := by simpa using hrest
  unfold regionXor
  by_cases hz : size = 0
  · have hall := length_xorRegions hsrc hbytes
    rw [hz, length_eq_zero_iff] at hparity hall
    rw [if_pos hz, hparity, hall]
  rw [if_neg hz]
  cases rest with
  | nil => exact memcpy_of_length hparity hsrc
  | cons r rest =>
    obtain ⟨n, hn, hwords⟩ := xorWords_eq hlen (hfit hz)
    have hall := length_xorRegions hsrc hbytes
    have htake : ((xorRegions src.bytes ((r :: rest).map (·.bytes))).take n).length = n := by
      rw [length_take]
      omega
    simp only [hwords, bind_eq_bind, bind_some]
    rw [xorTail_eq hn (by rw [length_append, length_drop]; omega) hsrc hbytes,
      take_left' htake, take_append_drop]

/-- More sources than `vbuf` holds: the copying of the pointers runs past its end. -/
theorem regionXor_eq_none {sse2 : Bool} {src : List Region} {parity : Region} {size : ℕ}
    (hsize : size ≠ 0) (huse : UsesSse2 sse2 src parity) (hcount : vbufLength < src.length) :
    regionXor sse2 src parity size = none := by
  obtain ⟨hsse, haligned, hparity⟩ := huse
  have hlong : 256 < src.length := hcount
  obtain ⟨s, r, rest, rfl⟩ : ∃ s r rest, src = s :: r :: rest := by
    match src, hlong with
    | s :: r :: rest, _ => exact ⟨s, r, rest, rfl⟩
  have hall : ((s :: r :: rest).all (isAligned ·.addr ecIsaVectorOpWordsize) &&
      isAligned parity.addr ecIsaVectorOpWordsize) = true := by
    rw [Bool.and_eq_true, List.all_eq_true]
    exact ⟨haligned, hparity⟩
  have hnot : ¬ ((r :: rest).map (·.bytes)).length + 1 ≤ vbufLength := by
    rw [length_map]
    exact not_le.2 hcount
  unfold regionXor xorWords
  rw [if_neg hsize]
  simp only [if_pos hall, if_pos hsse]
  rw [regionSse2Xor, assert_bind (Nat.mul_mod_left ..), assert_bind_of_not hnot]
  rfl

/-- What `region_xor` has to leave in `parity`: each byte is the XOR of the sources' bytes. -/
def HoldsXor (src : List Region) (size : ℕ) (out : Buffer) : Prop :=
  out.length = size ∧ ∀ x < size, out[x]? = some ((src.map (·.bytes.getD x 0)).sum)

/-- **`region_xor` computes the XOR of the sources**, on every path, unless the 64-byte loop gets
more sources than `vbuf` holds. -/
theorem regionXor_holdsXor_iff {sse2 : Bool} {src : List Region} {parity : Region} {size : ℕ}
    (hsrc : src ≠ []) (hlen : ∀ r ∈ parity :: src, r.bytes.length = size) :
    (∃ out, regionXor sse2 src parity size = some out ∧ HoldsXor src size out) ↔
      (size ≠ 0 → UsesSse2 sse2 src parity → src.length ≤ vbufLength) := by
  constructor
  · rintro ⟨out, hout, -⟩ hsize huse
    by_contra hlong
    rw [regionXor_eq_none hsize huse (not_le.1 hlong)] at hout
    cases hout
  · intro hfit
    obtain ⟨s, rest, rfl⟩ := exists_cons_of_ne_nil hsrc
    have hs : s.bytes.length = size := hlen s (by simp)
    have hrest : ∀ b ∈ rest.map (·.bytes), b.length = size := by
      simpa using fun r hr => hlen r (by simp [hr])
    refine ⟨_, regionXor_eq hlen hfit, length_xorRegions hs hrest, fun x hx => ?_⟩
    rw [getElem?_xorRegions hs hrest hx, map_cons, List.map_map, map_cons]
    rfl

/-- Three sources, one of them at an odd address. -/
theorem regionXor_holdsXor_three :
    ∃ out, regionXor true [⟨16, [1]⟩, ⟨33, [1]⟩, ⟨48, [0]⟩] ⟨64, [0]⟩ 1 = some out ∧
      HoldsXor [⟨16, [1]⟩, ⟨33, [1]⟩, ⟨48, [0]⟩] 1 out :=
  (regionXor_holdsXor_iff (by simp) (by simp)).2 fun _ _ => by decide

theorem isAligned_mul (i : ℕ) : isAligned (64 * i) ecIsaVectorOpWordsize := by
  rw [isAligned, ecIsaVectorOpWordsize, decide_eq_true_iff]
  omega

/-- 257 aligned sources of 64 bytes. -/
def manySources : List Region :=
  (range (vbufLength + 1)).map fun i => ⟨64 * (i + 1), replicate 64 (Byte.ofNat i)⟩

/-- For them there is no XOR, the pointers overrun `vbuf`. -/
theorem not_regionXor_holdsXor :
    ¬ ∃ out, regionXor true manySources ⟨0, replicate 64 0⟩ 64 = some out ∧
      HoldsXor manySources 64 out := by
  rintro ⟨out, hout, -⟩
  have haligned : ∀ s ∈ manySources, isAligned s.addr ecIsaVectorOpWordsize := by
    intro s hs
    obtain ⟨i, -, rfl⟩ := mem_map.1 hs
    exact isAligned_mul (i + 1)
  rw [regionXor_eq_none (by decide) ⟨rfl, haligned, rfl⟩ (by simp [manySources])] at hout
  cases hout

end Ceph.Isa
