import Ceph.Common.HObjectOrder
import Ceph.Lib.Loop

/-!
# The key of an object in BlueStore

`get_object_key` of `os/bluestore/BlueStore.cc` packs an object into a string, and
`get_key_object` reads it back, which the former asserts of every key that it makes.

* `decodeEscaped_escaped` — an escaped string is read back.
* `getObjectKey_eq` — the assertion holds, for objects with a normalised key.
* `getKeyObject_getObjectKey` — the key reads back as the object.

A `char` is signed, as on x86: a byte from 128 on compares as a negative number.
-/

namespace Ceph.Os

open Common List Char

/-! ## Encoding -/

/-- `_key_encode_u32` -/
def keyEncodeU32 (u : BitVec 32) : List Char := numeral ofNat 256 4 u.toNat

/-- `_key_encode_u64` -/
def keyEncodeU64 (u : BitVec 64) : List Char := numeral ofNat 256 8 u.toNat

@[simp] theorem length_keyEncodeU32 (u : BitVec 32) : (keyEncodeU32 u).length = 4 :=
  length_numeral ..

@[simp] theorem length_keyEncodeU64 (u : BitVec 64) : (keyEncodeU64 u).length = 8 :=
  length_numeral ..

/-- `_key_encode_shard` -/
def keyEncodeShard (shard : BitVec 8) : List Char := [ofNat (shard + 0x80#8).toNat]

@[simp] theorem length_keyEncodeShard (shard : BitVec 8) : (keyEncodeShard shard).length = 1 := rfl

/-- The value of a `char`. -/
def signedChar (ch : Char) : ℤ := if ch.toNat < 128 then ch.toNat else (ch.toNat : ℤ) - 256

/-- A digit of `%x`. -/
def lowerDigit (d : ℕ) : Char := ofNat (if d < 10 then 48 + d else 87 + d)

/-- `%02x`, of a byte. -/
def hexByte (n : ℕ) : List Char := [lowerDigit (n / 16), lowerDigit (n % 16)]

/-- What `append_escaped` appends for a character. -/
def escapeChar (ch : Char) : List Char :=
  if signedChar ch ≤ 0x23 then '#' :: hexByte ch.toNat
  else if 0x7e ≤ signedChar ch then '~' :: hexByte ch.toNat
  else [ch]

/-- `append_escaped` -/
def appendEscaped (s : List Char) : List Char := s.flatMap escapeChar ++ ['!']

/-- The key, before `get_object_key` has checked it. -/
def objectKey (oid : GHObject) : List Char :=
  keyEncodeShard oid.shardId ++ keyEncodeU64 (oid.hobj.pool + 0x8000000000000000#64) ++
    keyEncodeU32 oid.hobj.bitwiseKey ++ appendEscaped oid.hobj.nspace ++
    (if oid.hobj.key.length ≠ 0 then
      appendEscaped oid.hobj.key ++ match lexCmp oid.hobj.key oid.hobj.name with
        | .gt => '>' :: appendEscaped oid.hobj.name
        | .lt => '<' :: appendEscaped oid.hobj.name
        | .eq => ['=']
    else appendEscaped oid.hobj.name ++ ['=']) ++
    keyEncodeU64 oid.hobj.snap ++ keyEncodeU64 oid.generation ++ ['o']

/-! ## Decoding -/

/-- `_key_decode_u32`; it fails if it would read past the key. -/
def keyDecodeU32 (p : List Char) : Option (BitVec 32 × List Char) :=
  if 4 ≤ p.length then some (BitVec.ofNat 32 (ofNumeral toNat 256 (p.take 4)), p.drop 4)
  else none

/-- `_key_decode_u64` -/
def keyDecodeU64 (p : List Char) : Option (BitVec 64 × List Char) :=
  if 8 ≤ p.length then some (BitVec.ofNat 64 (ofNumeral toNat 256 (p.take 8)), p.drop 8)
  else none

/-- `_key_decode_shard` -/
def keyDecodeShard : List Char → Option (BitVec 8 × List Char)
  | [] => none
  | ch :: p => some (BitVec.ofNat 8 ch.toNat - 0x80#8, p)

/-- The value of a hexadecimal digit. -/
def hexValue (ch : Char) : Option ℕ :=
  if '0' ≤ ch ∧ ch ≤ '9' then some (ch.toNat - 48)
  else if 'a' ≤ ch ∧ ch ≤ 'f' then some (ch.toNat - 87)
  else if 'A' ≤ ch ∧ ch ≤ 'F' then some (ch.toNat - 55)
  else none

/-- `sscanf(p, "%2x", &hex)`, where no white space, sign or `0x` stands before the digits. -/
def scanHex (d₁ d₂ : Char) : Option ℕ :=
  match hexValue d₁, hexValue d₂ with
  | some a, some b => some (a * 16 + b)
  | some a, none => some a
  | none, _ => none

/-- `decode_escaped`: the string, and the key from its terminator on. -/
def decodeEscaped : List Char → Option (List Char × List Char)
  | [] => some ([], [])
  | ch :: p =>
    if ch = '\x00' ∨ ch = '!' then some ([], ch :: p)
    else if ch = '#' ∨ ch = '~' then
      match p with
      | d₁ :: d₂ :: p => do
          let hex ← scanHex d₁ d₂
          let (s, p) ← decodeEscaped p
          some (ofNat hex :: s, p)
      | _ => none
    else do
      let (s, p) ← decodeEscaped p
      some (ch :: s, p)

/-- `p += r + 1`, which passes the terminator. -/
def skipTerminator : List Char → Option (List Char)
  | [] => none
  | _ :: p => some p

/-- What follows the key or the name: the name and the key of the object. -/
def decodeName (k : List Char) : List Char → Option (Except ℤ (List Char × List Char × List Char))
  | [] => some (.error (-6))
  | ch :: p =>
    if ch = '=' then some (.ok (k, [], p))
    else if ch = '<' ∨ ch = '>' then
      match decodeEscaped p with
      | none => some (.error (-5))
      | some (name, p) => do
          let p ← skipTerminator p
          -- `set_key`
          some (.ok (name, if k = name then [] else k, p))
    else some (.error (-6))

/-- The end of a key. -/
def decodeSuffix (oid : GHObject) : List Char → Except ℤ GHObject
  | [] => .error (-7)
  | ch :: p =>
    if ch ≠ 'o' then .error (-7)
    else match p with
      | [] => .ok oid
      | ch :: _ => if ch = '\x00' then .ok oid else .error (-8)

/-- `get_key_object`; it fails where the code would read past the key. -/
def getKeyObject (key : List Char) : Option (Except ℤ GHObject) :=
  if key.length < 1 + 8 + 4 then some (.error (-1))
  else do
    let (shard, p) ← keyDecodeShard key
    let (pool, p) ← keyDecodeU64 p
    let (hash, p) ← keyDecodeU32 p
    match decodeEscaped p with
    | none => some (.error (-2))
    | some (nspace, p) => do
        let p ← skipTerminator p
        match decodeEscaped p with
        | none => some (.error (-3))
        | some (k, p) => do
            let p ← skipTerminator p
            match ← decodeName k p with
            | .error r => some (.error r)
            | .ok (name, key, p) => do
                let (snap, p) ← keyDecodeU64 p
                let (generation, p) ← keyDecodeU64 p
                let hobj : HObject :=
                  ⟨name, snap, reverseBits hash, pool - 0x8000000000000000#64, nspace, key⟩
                some (decodeSuffix ⟨hobj, generation, shard⟩ p)

/-- `get_object_key` -/
def getObjectKey (oid : GHObject) : Option (List Char) :=
  match getKeyObject (objectKey oid) with
  | some (.ok t) => do
      assert (t = oid)
      some (objectKey oid)
  | _ => none

/-! ## Strings -/

/-- A string of bytes. -/
def IsBytes (s : List Char) : Prop := ∀ ch ∈ s, ch.toNat < 256

instance : DecidablePred IsBytes := fun s => List.decidableBAll _ s

variable {ch : Char}

/-- The three kinds of bytes, in terms of their values. -/
theorem escapeChar_eq (h : ch.toNat < 256) :
    escapeChar ch = if ch.toNat ≤ 0x23 ∨ 0x80 ≤ ch.toNat then '#' :: hexByte ch.toNat
      else if 0x7e ≤ ch.toNat then '~' :: hexByte ch.toNat
      else [ch] := by
  rw [escapeChar, signedChar]
  split_ifs <;> first | rfl | omega

theorem scanHex_hexByte {n : ℕ} (h : n < 256) :
    scanHex (lowerDigit (n / 16)) (lowerDigit (n % 16)) = some n := by
  have hdigit : ∀ d < 16, hexValue (lowerDigit d) = some d := by decide
  rw [scanHex, hdigit _ (by omega), hdigit _ (by omega)]
  exact congrArg some (Nat.div_add_mod' n 16)

theorem decodeEscaped_hex {c d₁ d₂ : Char} (hc : c = '#' ∨ c = '~') (p : List Char) :
    decodeEscaped (c :: d₁ :: d₂ :: p) =
      (scanHex d₁ d₂).bind fun hex => (decodeEscaped p).map fun r => (ofNat hex :: r.1, r.2) := by
  have hne : ¬ (c = '\x00' ∨ c = '!') := by rcases hc with rfl | rfl <;> decide
  rw [decodeEscaped, if_neg hne, if_pos hc]
  cases decodeEscaped p <;> rfl

theorem decodeEscaped_plain (hend : ¬ (ch = '\x00' ∨ ch = '!'))
    (hhex : ¬ (ch = '#' ∨ ch = '~')) (p : List Char) :
    decodeEscaped (ch :: p) = (decodeEscaped p).map fun r => (ch :: r.1, r.2) := by
  conv_lhs => rw [decodeEscaped.eq_def]
  simp only [if_neg hend, if_neg hhex]
  cases decodeEscaped p <;> rfl

/-- An escaped character is read back. -/
theorem decodeEscaped_escapeChar (h : ch.toNat < 256) (p : List Char) :
    decodeEscaped (escapeChar ch ++ p) = (decodeEscaped p).map fun r => (ch :: r.1, r.2) := by
  have hhex : ∀ c, c = '#' ∨ c = '~' → decodeEscaped (c :: hexByte ch.toNat ++ p) =
      (decodeEscaped p).map fun r => (ch :: r.1, r.2) := by
    intro c hc
    rw [hexByte, cons_append, cons_append, singleton_append, decodeEscaped_hex hc,
      scanHex_hexByte h, Option.bind_some, ofNat_toNat]
  rw [escapeChar_eq h]
  split_ifs with h₁ h₂
  · exact hhex '#' (.inl rfl)
  · exact hhex '~' (.inr rfl)
  · have hne : ∀ c : Char, c.toNat ≤ 0x23 ∨ c.toNat = 0x7e → ch ≠ c := by
      rintro c hc rfl
      omega
    exact decodeEscaped_plain (not_or.2 ⟨hne _ (by decide), hne _ (by decide)⟩)
      (not_or.2 ⟨hne _ (by decide), hne _ (by decide)⟩) p

/-- An escaped string is read back. -/
theorem decodeEscaped_escaped {s : List Char} (hs : IsBytes s) (p : List Char) :
    decodeEscaped (appendEscaped s ++ p) = some (s, '!' :: p) := by
  rw [appendEscaped, append_assoc]
  induction s with
  | nil =>
    rw [decodeEscaped.eq_def]
    exact if_pos (.inr rfl)
  | cons ch s ih =>
    rw [flatMap_cons, append_assoc, decodeEscaped_escapeChar (hs ch mem_cons_self),
      ih fun c hc => hs c (mem_cons_of_mem _ hc)]
    rfl

/-! ## The round trip -/

theorem toNat_ofNat_byte {i : ℕ} (h : i < 256) : (ofNat i).toNat = i := by
  have hvalid : i.isValidChar := .inl (by omega)
  rw [ofNat, dif_pos hvalid]
  rfl

theorem keyDecodeU32_append (u : BitVec 32) (p : List Char) :
    keyDecodeU32 (keyEncodeU32 u ++ p) = some (u, p) := by
  have hval : ofNumeral toNat 256 (keyEncodeU32 u) = u.toNat :=
    ofNumeral_numeral (fun i hi => toNat_ofNat_byte hi) u.isLt
  rw [keyDecodeU32, take_left', hval, BitVec.ofNat_toNat]
  all_goals rfl

theorem keyDecodeU64_append (u : BitVec 64) (p : List Char) :
    keyDecodeU64 (keyEncodeU64 u ++ p) = some (u, p) := by
  have hval : ofNumeral toNat 256 (keyEncodeU64 u) = u.toNat :=
    ofNumeral_numeral (fun i hi => toNat_ofNat_byte hi) u.isLt
  rw [keyDecodeU64, take_left', hval, BitVec.ofNat_toNat]
  all_goals rfl

theorem keyDecodeShard_append (shard : BitVec 8) (p : List Char) :
    keyDecodeShard (keyEncodeShard shard ++ p) = some (shard, p) := by
  simp only [keyEncodeShard, singleton_append, keyDecodeShard]
  rw [toNat_ofNat_byte (BitVec.isLt _), BitVec.ofNat_toNat, BitVec.setWidth_eq,
    BitVec.add_sub_cancel]

/-- The strings of an object are bytes, and its key is not its name: `set_key` and the constructor
leave the key empty in that case. -/
structure WellNamed (oid : GHObject) : Prop where
  nspace : IsBytes oid.hobj.nspace
  key : IsBytes oid.hobj.key
  name : IsBytes oid.hobj.name
  normalised : oid.hobj.key = oid.hobj.name → oid.hobj.key = []

variable {oid : GHObject}

theorem WellNamed.effectiveKey (h : WellNamed oid) : IsBytes oid.hobj.effectiveKey := by
  rw [HObject.effectiveKey]
  split_ifs
  · exact h.key
  · exact h.name

/-- The character for a comparison of key and name. -/
def sign : Ordering → Char
  | .gt => '>'
  | .lt => '<'
  | .eq => '='

/-- What stands between the key and the name. -/
def separator (o : HObject) : Char := sign (lexCmp o.effectiveKey o.name)

/-- The end of a key, from the separator on. -/
def keyTail (oid : GHObject) : List Char :=
  separator oid.hobj :: ((if separator oid.hobj = '=' then [] else appendEscaped oid.hobj.name) ++
    (keyEncodeU64 oid.hobj.snap ++ (keyEncodeU64 oid.generation ++ ['o'])))

theorem separator_of_key_nil {o : HObject} (h : o.key = []) : separator o = '=' := by
  simp [separator, HObject.effectiveKey, h, sign]

theorem objectKey_eq (oid : GHObject) : objectKey oid = keyEncodeShard oid.shardId ++
      (keyEncodeU64 (oid.hobj.pool + 0x8000000000000000#64) ++
        (keyEncodeU32 oid.hobj.bitwiseKey ++ (appendEscaped oid.hobj.nspace ++
          (appendEscaped oid.hobj.effectiveKey ++ keyTail oid)))) := by
  by_cases hkey : oid.hobj.key = []
  · have heff : oid.hobj.effectiveKey = oid.hobj.name := by simp [HObject.effectiveKey, hkey]
    simp [objectKey, keyTail, separator_of_key_nil hkey, heff, hkey]
  · have hlen : oid.hobj.key.length ≠ 0 := fun h => hkey (eq_nil_of_length_eq_zero h)
    have heff : oid.hobj.effectiveKey = oid.hobj.key := if_pos hlen
    simp only [objectKey, keyTail, separator, heff, if_pos hlen]
    cases lexCmp oid.hobj.key oid.hobj.name <;> simp [sign]

/-- The separator tells whether a name follows. -/
theorem decodeName_keyTail (h : WellNamed oid) :
    decodeName oid.hobj.effectiveKey (keyTail oid) = some (.ok (oid.hobj.name, oid.hobj.key,
        keyEncodeU64 oid.hobj.snap ++ (keyEncodeU64 oid.generation ++ ['o']))) := by
  by_cases hkey : oid.hobj.key = []
  · have heff : oid.hobj.effectiveKey = oid.hobj.name := by simp [HObject.effectiveKey, hkey]
    rw [keyTail, separator_of_key_nil hkey, heff, hkey]
    rfl
  have hlen : oid.hobj.key.length ≠ 0 := fun h => hkey (eq_nil_of_length_eq_zero h)
  have heff : oid.hobj.effectiveKey = oid.hobj.key := if_pos hlen
  have hne : oid.hobj.key ≠ oid.hobj.name := fun heq => hkey (h.normalised heq)
  have hsep : separator oid.hobj = '<' ∨ separator oid.hobj = '>' := by
    rw [separator, heff]
    cases hcmp : lexCmp oid.hobj.key oid.hobj.name with
    | lt => exact .inl rfl
    | gt => exact .inr rfl
    | eq => exact absurd (lexCmp_eq_eq_iff.1 hcmp) hne
  have hsep' : separator oid.hobj ≠ '=' := by rcases hsep with h | h <;> rw [h] <;> decide
  rw [keyTail, if_neg hsep', decodeName, if_neg hsep', if_pos hsep, decodeEscaped_escaped h.name,
    heff]
  simp [skipTerminator, hne]

theorem getKeyObject_objectKey (h : WellNamed oid) :
    getKeyObject (objectKey oid) = some (.ok oid) := by
  rw [getKeyObject, objectKey_eq, keyDecodeShard_append]
  simp only [Option.bind_eq_bind, Option.bind_some, keyDecodeU64_append, keyDecodeU32_append,
    decodeEscaped_escaped h.nspace, decodeEscaped_escaped h.effectiveKey, skipTerminator,
    decodeName_keyTail h, HObject.bitwiseKey, reverseBits_reverseBits, BitVec.add_sub_cancel]
  rfl

/-- **The check of `get_object_key` succeeds.** -/
theorem getObjectKey_eq (h : WellNamed oid) : getObjectKey oid = some (objectKey oid) := by
  rw [getObjectKey, getKeyObject_objectKey h]
  exact assert_bind rfl _

/-- **The key of an object reads back as the object**, whatever bytes its strings hold. -/
theorem getKeyObject_getObjectKey (h : WellNamed oid) :
    ∃ key, getObjectKey oid = some key ∧ getKeyObject key = some (.ok oid) :=
  ⟨_, getObjectKey_eq h, getKeyObject_objectKey h⟩

/-- A terminator and a zero byte in the key, bytes that are negative as `char` in the name. -/
theorem getKeyObject_getObjectKey_bytes :
    ∃ key, getObjectKey ⟨⟨['~', 'ÿ'], 5, 7, -1, ['#'], ['!', '\x00']⟩, 3, 2⟩ = some key ∧
      getKeyObject key = some (.ok ⟨⟨['~', 'ÿ'], 5, 7, -1, ['#'], ['!', '\x00']⟩, 3, 2⟩) :=
  getKeyObject_getObjectKey ⟨by simp [IsBytes], by simp [IsBytes], by simp [IsBytes], by simp⟩

end Ceph.Os
