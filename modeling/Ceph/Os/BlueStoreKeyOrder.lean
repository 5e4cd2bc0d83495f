import Ceph.Os.BlueStoreKey

/-!
# The order of object keys

The store sorts keys as strings of unsigned bytes.  The fields of fixed width sort like
the objects, and so do escaped strings in which no byte from 128 on meets one from `'$'` to
127: the former are escaped like control characters, since `char` is signed.  The
characters `<` and `>` between key and name sort the other way round: the key with a
smaller name gets the larger one.

* `lexCmp_appendEscaped` — how escaped strings sort.
* `lexCmp_objectKey` — how keys sort.
* `objectKey_order_iff` — for which objects that is the order of the objects.
-/

namespace Ceph.Os

open Common List Ordering

/-! ## Escaped strings -/

/-- The place of a byte in the order of the escaped bytes. -/
def escapeRank (ch : Char) : ℕ :=
  if ch.toNat ≤ 0x23 ∨ 0x80 ≤ ch.toNat then ch.toNat else ch.toNat + 256

/-- The order of escaped strings. -/
def escapedCmp (s t : List Char) : Ordering := lexCmp (s.map escapeRank) (t.map escapeRank)

theorem cmp_char (a b : Char) : cmp a b = cmp a.toNat b.toNat := rfl

theorem escapeRank_injective {a b : Char} (ha : a.toNat < 256) (hb : b.toNat < 256)
    (h : escapeRank a = escapeRank b) : a = b := by
  rw [escapeRank, escapeRank] at h
  apply Char.toNat_inj.1
  split_ifs at h <;> omega

theorem lexCmp_hexByte {n m : ℕ} (hn : n < 256) (hm : m < 256) :
    lexCmp (hexByte n) (hexByte m) = cmp n m := by
  have hnum : ∀ k, hexByte k = numeral lowerDigit 16 2 k := fun k => by
    simp [hexByte, numeral]
  rw [hnum, hnum]
  exact lexCmp_numeral (by decide) hn hm

theorem lexCmp_cons_of_ne {a b : Char} (h : a ≠ b) (s t : List Char) :
    lexCmp (a :: s) (b :: t) = cmp a b := by
  have hne : cmp a b ≠ .eq := fun heq => h ((cmp_eq_eq_iff _ _).1 heq)
  rw [lexCmp_cons_cons]
  cases hcmp : cmp a b with
  | lt => rfl
  | gt => rfl
  | eq => exact absurd hcmp hne

/-- The first byte in which two strings differ decides. -/
theorem lexCmp_escapeChar {a b : Char} (ha : a.toNat < 256) (hb : b.toNat < 256) (hne : a ≠ b)
    (p q : List Char) :
    lexCmp (escapeChar a ++ p) (escapeChar b ++ q) = cmp (escapeRank a) (escapeRank b) := by
  have hval : a.toNat ≠ b.toNat := fun h => hne (Char.toNat_inj.1 h)
  -- two bytes that are escaped alike
  have hhex : ∀ c : Char, lexCmp (c :: hexByte a.toNat ++ p) (c :: hexByte b.toNat ++ q) =
      cmp a.toNat b.toNat := by
    intro c
    have hcmp : cmp a.toNat b.toNat ≠ .eq := fun h => hval ((cmp_eq_eq_iff _ _).1 h)
    rw [cons_append, cons_append, lexCmp_cons_cons, cmp_self_eq_eq,
      lexCmp_append (show (hexByte a.toNat).length = (hexByte b.toNat).length from rfl),
      lexCmp_hexByte ha hb]
    cases h : cmp a.toNat b.toNat with
    | lt => rfl
    | gt => rfl
    | eq => exact absurd h hcmp
  -- two bytes whose escapes begin differently
  have hhead : ∀ {c d : Char} {s t : List Char} {m n : ℕ},
      (c.toNat < d.toNat ∧ m < n ∨ d.toNat < c.toNat ∧ n < m) →
      lexCmp (c :: s) (d :: t) = cmp m n := by
    rintro c d s t m n (⟨hcd, hmn⟩ | ⟨hcd, hmn⟩)
    · rw [lexCmp_cons_of_ne (by rintro rfl; omega), cmp_char, (cmp_eq_lt_iff _ _).2 hcd,
        (cmp_eq_lt_iff _ _).2 hmn]
    · rw [lexCmp_cons_of_ne (by rintro rfl; omega), cmp_char, (cmp_eq_gt_iff _ _).2 hcd,
        (cmp_eq_gt_iff _ _).2 hmn]
  have hhash : '#'.toNat = 0x23 := rfl
  have htilde : '~'.toNat = 0x7e := rfl
  rw [escapeChar_eq ha, escapeChar_eq hb, escapeRank, escapeRank]
  split_ifs
  · exact hhex '#'
  · exact hhead (by omega)
  · exact hhead (by omega)
  · exact hhead (by omega)
  · rw [hhex '~', (add_left_strictMono).cmp_map_eq]
  · exact hhead (by omega)
  · exact hhead (by omega)
  · exact hhead (by omega)
  · exact hhead (by omega)

theorem exists_escapeChar_cons {ch : Char} (h : ch.toNat < 256) :
    ∃ c s, escapeChar ch = c :: s ∧ 0x21 < c.toNat := by
  rw [escapeChar_eq h]
  split_ifs
  · exact ⟨_, _, rfl, by decide⟩
  · exact ⟨_, _, rfl, by decide⟩
  · exact ⟨_, _, rfl, by omega⟩

/-- The terminator sorts before every escaped byte. -/
theorem cmp_terminator {c : Char} (h : 0x21 < c.toNat) : cmp '!' c = .lt :=
  (cmp_eq_lt_iff _ _).2 h

variable {s t : List Char}

/-- **Escaped strings sort byte by byte**, and what follows them decides if they are equal. -/
theorem lexCmp_appendEscaped (hs : IsBytes s) (ht : IsBytes t) (u v : List Char) :
    lexCmp (appendEscaped s ++ u) (appendEscaped t ++ v) = (escapedCmp s t).then (lexCmp u v) := by
  simp only [appendEscaped, append_assoc, singleton_append]
  induction s generalizing t with
  | nil =>
    cases t with
    | nil =>
      rfl
    | cons b t =>
      obtain ⟨c, r, hc, hlt⟩ := exists_escapeChar_cons (ht b mem_cons_self)
      rw [flatMap_nil, nil_append, flatMap_cons, hc, cons_append,
        cons_append, lexCmp_cons_cons, cmp_terminator hlt]
      rfl
  | cons a s ih =>
    have ha := hs a mem_cons_self
    cases t with
    | nil =>
      obtain ⟨c, r, hc, hlt⟩ := exists_escapeChar_cons ha
      rw [flatMap_nil, nil_append, flatMap_cons, hc, cons_append,
        cons_append, lexCmp_cons_cons, ← cmp_swap, cmp_terminator hlt]
      rfl
    | cons b t =>
      have hb := ht b mem_cons_self
      rw [flatMap_cons, flatMap_cons, append_assoc, append_assoc,
        escapedCmp, map_cons, map_cons, lexCmp_cons_cons]
      by_cases hab : a = b
      · subst hab
        rw [lexCmp_append rfl, lexCmp_self, cmp_self_eq_eq,
          ih (fun c hc => hs c (mem_cons_of_mem _ hc))
            (fun c hc => ht c (mem_cons_of_mem _ hc))]
        rfl
      · have hne : cmp (escapeRank a) (escapeRank b) ≠ .eq := fun h =>
          hab (escapeRank_injective ha hb ((cmp_eq_eq_iff _ _).1 h))
        rw [lexCmp_escapeChar ha hb hab]
        cases h : cmp (escapeRank a) (escapeRank b) with
        | lt => rfl
        | gt => rfl
        | eq => exact absurd h hne

/-! ## Where escaping keeps the order -/

/-- Two bytes that sort like their escapes: not one from 128 on and one from `'$'` to 127. -/
def Agree (a b : Char) : Prop :=
  ¬ (0x80 ≤ a.toNat ∧ 0x23 < b.toNat ∧ b.toNat < 0x80) ∧
    ¬ (0x80 ≤ b.toNat ∧ 0x23 < a.toNat ∧ a.toNat < 0x80)

/-- The bytes in which the strings differ first sort like their escapes. -/
def SameOrder : List Char → List Char → Prop
  | a :: s, b :: t => if a = b then SameOrder s t else Agree a b
  | _, _ => True

theorem cmp_escapeRank_iff {a b : Char} (ha : a.toNat < 256) (hb : b.toNat < 256) (hne : a ≠ b) :
    cmp (escapeRank a) (escapeRank b) = cmp a b ↔ Agree a b := by
  have hval : a.toNat ≠ b.toNat := fun h => hne (Char.toNat_inj.1 h)
  rw [cmp_char, Agree]
  rcases Nat.lt_or_gt_of_ne hval with hlt | hgt
  · rw [(cmp_eq_lt_iff _ _).2 hlt, cmp_eq_lt_iff, escapeRank, escapeRank]
    split_ifs <;> omega
  · rw [(cmp_eq_gt_iff _ _).2 hgt, cmp_eq_gt_iff, escapeRank, escapeRank]
    split_ifs <;> omega

theorem IsBytes.tail {ch : Char} (h : IsBytes (ch :: s)) : IsBytes s := fun c hc =>
  h c (mem_cons_of_mem _ hc)

theorem escapedCmp_eq_eq_iff (hs : IsBytes s) (ht : IsBytes t) : escapedCmp s t = .eq ↔ s = t := by
  rw [escapedCmp, lexCmp_eq_eq_iff]
  refine ⟨fun h => ?_, fun h => by rw [h]⟩
  induction s generalizing t with
  | nil => exact (map_eq_nil_iff.1 h.symm).symm
  | cons a s ih =>
    cases t with
    | nil => cases h
    | cons b t =>
      obtain ⟨hhead, htail⟩ := cons_eq_cons.1 h
      rw [escapeRank_injective (hs a mem_cons_self) (ht b mem_cons_self) hhead,
        ih hs.tail ht.tail htail]

/-- Equal first fields leave the comparison to the others. -/
theorem then_eq_then_iff {o o' x y : Ordering} {P : Prop} (h : o = .eq ↔ P) (h' : o' = .eq ↔ P) :
    o.then x = o'.then y ↔ o = o' ∧ (P → x = y) := by
  cases o <;> cases o' <;> simp_all

theorem escapedCmp_eq_lexCmp_iff (hs : IsBytes s) (ht : IsBytes t) :
    escapedCmp s t = lexCmp s t ↔ SameOrder s t := by
  induction s generalizing t with
  | nil => cases t <;> simp [escapedCmp, SameOrder]
  | cons a s ih =>
    cases t with
    | nil => simp [escapedCmp, SameOrder]
    | cons b t =>
      have ha := hs a mem_cons_self
      have hb := ht b mem_cons_self
      have hrank : cmp (escapeRank a) (escapeRank b) = .eq ↔ a = b := by
        rw [cmp_eq_eq_iff]
        exact ⟨escapeRank_injective ha hb, fun h => by rw [h]⟩
      have hrec := ih hs.tail ht.tail
      rw [escapedCmp] at hrec ⊢
      rw [map_cons, map_cons, lexCmp_cons_cons, lexCmp_cons_cons,
        then_eq_then_iff hrank (cmp_eq_eq_iff a b), hrec, SameOrder]
      by_cases hab : a = b
      · subst hab
        simp
      · rw [if_neg hab, cmp_escapeRank_iff ha hb hab]
        exact and_iff_left fun h => absurd h hab

/-! ## Keys -/

theorem lexCmp_keyEncodeU64 (u v : BitVec 64) :
    lexCmp (keyEncodeU64 u) (keyEncodeU64 v) = cmp u.toNat v.toNat := by
  refine lexCmp_numeral (fun i hi j hj => ?_) u.isLt v.isLt
  rw [cmp_char, toNat_ofNat_byte hi, toNat_ofNat_byte hj]

theorem lexCmp_keyEncodeU32 (u v : BitVec 32) :
    lexCmp (keyEncodeU32 u) (keyEncodeU32 v) = cmp u.toNat v.toNat := by
  refine lexCmp_numeral (fun i hi j hj => ?_) u.isLt v.isLt
  rw [cmp_char, toNat_ofNat_byte hi, toNat_ofNat_byte hj]

/-- Adding `2 ^ 63` turns the order of signed numbers into that of unsigned ones. -/
theorem cmp_add_pool (p q : BitVec 64) :
    cmp (p + 0x8000000000000000#64).toNat (q + 0x8000000000000000#64).toNat =
      cmp p.toInt q.toInt := by
  have hoff : ∀ x : BitVec 64, ((x + 0x8000000000000000#64).toNat : ℤ) = x.toInt + 2 ^ 63 := by
    intro x
    rw [BitVec.toInt_eq_toNat_cond, BitVec.toNat_add]
    simp only [BitVec.toNat_ofNat]
    split_ifs <;> omega
  rw [← Nat.strictMono_cast.cmp_map_eq (β := ℤ), hoff, hoff, (add_left_strictMono).cmp_map_eq]

theorem lexCmp_keyEncodeShard (s t : BitVec 8) :
    lexCmp (keyEncodeShard s) (keyEncodeShard t) = cmp s.toInt t.toInt := by
  have hoff : ∀ x : BitVec 8, ((x + 0x80#8).toNat : ℤ) = x.toInt + 2 ^ 7 := by
    intro x
    rw [BitVec.toInt_eq_toNat_cond, BitVec.toNat_add]
    simp only [BitVec.toNat_ofNat]
    split_ifs <;> omega
  rw [keyEncodeShard, keyEncodeShard, lexCmp_cons_cons, lexCmp_nil_nil, then_eq, cmp_char,
    toNat_ofNat_byte (BitVec.isLt _), toNat_ofNat_byte (BitVec.isLt _),
    ← Nat.strictMono_cast.cmp_map_eq (β := ℤ), hoff, hoff,
    (add_left_strictMono).cmp_map_eq]

section

variable {a b : GHObject}

/-- How the ends of two keys sort, if the effective keys are equal. -/
theorem lexCmp_keyTail (ha : WellNamed a) (hb : WellNamed b)
    (heff : a.hobj.effectiveKey = b.hobj.effectiveKey) :
    lexCmp (keyTail a) (keyTail b) = (cmp (separator a.hobj) (separator b.hobj)).then
        ((escapedCmp a.hobj.name b.hobj.name).then
          ((cmp a.hobj.snap.toNat b.hobj.snap.toNat).then
            (cmp a.generation.toNat b.generation.toNat))) := by
  have hend : lexCmp (keyEncodeU64 a.hobj.snap ++ (keyEncodeU64 a.generation ++ ['o']))
      (keyEncodeU64 b.hobj.snap ++ (keyEncodeU64 b.generation ++ ['o'])) =
        (cmp a.hobj.snap.toNat b.hobj.snap.toNat).then
          (cmp a.generation.toNat b.generation.toNat) := by
    rw [lexCmp_append (by simp), lexCmp_append (by simp), lexCmp_keyEncodeU64,
      lexCmp_keyEncodeU64, lexCmp_self, then_eq]
  rw [keyTail, keyTail]
  by_cases hsep : separator a.hobj = separator b.hobj
  · rw [lexCmp_cons_cons, hsep, cmp_self_eq_eq, eq_then, eq_then]
    by_cases heq : separator b.hobj = '='
    · have hname : a.hobj.name = b.hobj.name := by
        have hsign : ∀ o : HObject, separator o = '=' → o.effectiveKey = o.name := by
          intro o ho
          rw [separator] at ho
          cases hcmp : lexCmp o.effectiveKey o.name with
          | lt => simp [hcmp, sign] at ho
          | gt => simp [hcmp, sign] at ho
          | eq => exact lexCmp_eq_eq_iff.1 hcmp
        rw [← hsign _ (hsep.trans heq), ← hsign _ heq, heff]
      rw [if_pos heq, if_pos heq, nil_append, nil_append, hend,
        (escapedCmp_eq_eq_iff ha.name hb.name).2 hname, eq_then]
    · rw [if_neg heq, if_neg heq, lexCmp_appendEscaped ha.name hb.name, hend]
  · have hne : cmp (separator a.hobj) (separator b.hobj) ≠ .eq := fun h =>
      hsep ((cmp_eq_eq_iff _ _).1 h)
    rw [lexCmp_cons_of_ne hsep]
    cases h : cmp (separator a.hobj) (separator b.hobj) with
    | lt => rfl
    | gt => rfl
    | eq => exact absurd h hne

/-- **How keys sort.** -/
theorem lexCmp_objectKey (ha : WellNamed a) (hb : WellNamed b) :
    lexCmp (objectKey a) (objectKey b) = (cmp a.shardId.toInt b.shardId.toInt).then
        ((cmp a.hobj.pool.toInt b.hobj.pool.toInt).then
          ((cmp a.hobj.bitwiseKey.toNat b.hobj.bitwiseKey.toNat).then
            ((escapedCmp a.hobj.nspace b.hobj.nspace).then
              ((escapedCmp a.hobj.effectiveKey b.hobj.effectiveKey).then
                (lexCmp (keyTail a) (keyTail b)))))) := by
  rw [objectKey_eq, objectKey_eq,
    lexCmp_append (by simp), lexCmp_append (by simp), lexCmp_append (by simp),
    lexCmp_keyEncodeShard, lexCmp_keyEncodeU64, cmp_add_pool, lexCmp_keyEncodeU32,
    lexCmp_appendEscaped ha.nspace hb.nspace, lexCmp_appendEscaped ha.effectiveKey hb.effectiveKey]

/-- The characters `<`, `=` and `>` sort the names on different sides of a key the other way
round. -/
theorem cmp_sign_ne {k x y : List Char} (h : lexCmp k x ≠ lexCmp k y) :
    cmp (sign (lexCmp k x)) (sign (lexCmp k y)) ≠ lexCmp x y := by
  cases hx : lexCmp k x with
  | lt =>
    cases hy : lexCmp k y with
    | lt => exact absurd (hx.trans hy.symm) h
    | eq =>
      obtain rfl := lexCmp_eq_eq_iff.1 hy
      rw [lexCmp_eq_gt_iff.2 (lexCmp_eq_lt_iff.1 hx)]
      decide
    | gt =>
      rw [lexCmp_eq_gt_iff.2 ((lexCmp_eq_gt_iff.1 hy).trans (lexCmp_eq_lt_iff.1 hx))]
      decide
  | eq =>
    obtain rfl := lexCmp_eq_eq_iff.1 hx
    cases hy : lexCmp k y with
    | lt => decide
    | eq => exact absurd (hx.trans hy.symm) h
    | gt => decide
  | gt =>
    cases hy : lexCmp k y with
    | lt =>
      rw [lexCmp_eq_lt_iff.2 ((lexCmp_eq_gt_iff.1 hx).trans (lexCmp_eq_lt_iff.1 hy))]
      decide
    | eq =>
      obtain rfl := lexCmp_eq_eq_iff.1 hy
      rw [lexCmp_eq_lt_iff.2 (lexCmp_eq_gt_iff.1 hx)]
      decide
    | gt => exact absurd (hx.trans hy.symm) h

/-- Where keys of the same effective key sort like the names. -/
theorem names_order_iff (ha : WellNamed a) (hb : WellNamed b)
    (heff : a.hobj.effectiveKey = b.hobj.effectiveKey) (R : Ordering) :
    (cmp (separator a.hobj) (separator b.hobj)).then
          ((escapedCmp a.hobj.name b.hobj.name).then R) = (lexCmp a.hobj.name b.hobj.name).then R ↔
      a.hobj.name = b.hobj.name ∨
        lexCmp a.hobj.effectiveKey a.hobj.name = lexCmp b.hobj.effectiveKey b.hobj.name ∧
          SameOrder a.hobj.name b.hobj.name := by
  have hescaped := escapedCmp_eq_eq_iff ha.name hb.name
  by_cases hname : a.hobj.name = b.hobj.name
  · have hsep : separator a.hobj = separator b.hobj := by rw [separator, separator, heff, hname]
    rw [hsep, cmp_self_eq_eq, eq_then, hescaped.2 hname, hname, lexCmp_self]
    exact iff_of_true rfl (.inl rfl)
  rw [or_iff_right hname]
  by_cases hside : lexCmp a.hobj.effectiveKey a.hobj.name = lexCmp b.hobj.effectiveKey b.hobj.name
  · have hsep : separator a.hobj = separator b.hobj := by rw [separator, separator, hside]
    rw [hsep, cmp_self_eq_eq, eq_then, then_eq_then_iff hescaped lexCmp_eq_eq_iff,
      escapedCmp_eq_lexCmp_iff ha.name hb.name]
    exact ⟨fun h => ⟨hside, h.1⟩, fun h => ⟨h.2, fun h' => absurd h' hname⟩⟩
  rw [heff] at hside
  have hne : cmp (separator a.hobj) (separator b.hobj) ≠ lexCmp a.hobj.name b.hobj.name := by
    rw [separator, separator, heff]
    exact cmp_sign_ne hside
  have hsep : cmp (separator a.hobj) (separator b.hobj) = .eq ↔ False := by
    rw [iff_false, separator, separator, heff, cmp_eq_eq_iff]
    cases hx : lexCmp b.hobj.effectiveKey a.hobj.name <;>
      cases hy : lexCmp b.hobj.effectiveKey b.hobj.name <;> first | decide | simp_all
  rw [then_eq_then_iff hsep (by rw [lexCmp_eq_eq_iff, iff_false]; exact hname), heff]
  exact iff_of_false (fun h => hne h.1) (fun h => hside h.1)

/-- The condition under which two keys sort like the objects. -/
def KeysAgree (a b : GHObject) : Prop :=
  a.shardId = b.shardId → a.hobj.pool = b.hobj.pool → a.hobj.hash = b.hobj.hash →
    SameOrder a.hobj.nspace b.hobj.nspace ∧ (a.hobj.nspace = b.hobj.nspace →
        SameOrder a.hobj.effectiveKey b.hobj.effectiveKey ∧
          (a.hobj.effectiveKey = b.hobj.effectiveKey → a.hobj.name = b.hobj.name ∨
              -- the names lie on the same side of the key
              lexCmp a.hobj.effectiveKey a.hobj.name = lexCmp b.hobj.effectiveKey b.hobj.name ∧
                SameOrder a.hobj.name b.hobj.name))

end

/-- **Keys sort like objects** for these pairs of objects, and for no others. -/
theorem objectKey_order_iff {a b : GHObject} (ha : WellNamed a) (hb : WellNamed b) :
    ∃ k l, getObjectKey a = some k ∧ getObjectKey b = some l ∧
      (lexCmp k l = cmpGHObject a b ↔ KeysAgree a b) := by
  refine ⟨_, _, getObjectKey_eq ha, getObjectKey_eq hb, ?_⟩
  have hshard : cmp a.shardId.toInt b.shardId.toInt = .eq ↔ a.shardId = b.shardId := by
    rw [cmp_eq_eq_iff, BitVec.toInt_inj]
  have hpool : cmp a.hobj.pool.toInt b.hobj.pool.toInt = .eq ↔ a.hobj.pool = b.hobj.pool := by
    rw [cmp_eq_eq_iff, BitVec.toInt_inj]
  have hhash : cmp a.hobj.bitwiseKey.toNat b.hobj.bitwiseKey.toNat = .eq ↔
      a.hobj.hash = b.hobj.hash := by
    rw [cmp_eq_eq_iff, BitVec.toNat_inj]
    exact ⟨bitwiseKey_injective, fun h => by rw [HObject.bitwiseKey, HObject.bitwiseKey, h]⟩
  rw [lexCmp_objectKey ha hb, cmpGHObject, cmpHObject]
  simp only [Ordering.then_assoc]
  rw [then_eq_then_iff hshard hshard, then_eq_then_iff hpool hpool, then_eq_then_iff hhash hhash,
    then_eq_then_iff (escapedCmp_eq_eq_iff ha.nspace hb.nspace) lexCmp_eq_eq_iff,
    then_eq_then_iff (escapedCmp_eq_eq_iff ha.effectiveKey hb.effectiveKey) lexCmp_eq_eq_iff,
    escapedCmp_eq_lexCmp_iff ha.nspace hb.nspace,
    escapedCmp_eq_lexCmp_iff ha.effectiveKey hb.effectiveKey]
  simp only [true_and, KeysAgree]
  refine forall₃_congr fun _ _ _ => and_congr_right fun _ => forall_congr' fun _ =>
    and_congr_right fun _ => forall_congr' fun heff => ?_
  rw [lexCmp_keyTail ha hb heff]
  exact names_order_iff ha hb heff _

/-- An object with this name and key, the other fields zero. -/
def named (name key : List Char) : GHObject := ⟨⟨name, 0, 0, 0, [], key⟩, 0, 0⟩

theorem wellNamed_named (name key : List Char) (hname : IsBytes name) (hkey : IsBytes key)
    (h : key = name → key = []) : WellNamed (named name key) :=
  ⟨fun _ hch => absurd hch not_mem_nil, hkey, hname, h⟩

theorem objectKey_order_iff_letters : WellNamed (named ['a'] []) ∧ WellNamed (named ['b'] []) ∧
      ∃ k l, getObjectKey (named ['a'] []) = some k ∧ getObjectKey (named ['b'] []) = some l ∧
        (lexCmp k l = cmpGHObject (named ['a'] []) (named ['b'] []) ↔
          KeysAgree (named ['a'] []) (named ['b'] [])) :=
  have ha := wellNamed_named ['a'] [] (by decide) (by decide) (by decide)
  have hb := wellNamed_named ['b'] [] (by decide) (by decide) (by decide)
  ⟨ha, hb, objectKey_order_iff ha hb⟩

/-- A byte from 128 on sorts before a letter, and a key with a name below it after one with a name
above it. -/
theorem objectKey_misordered :
    (∃ k l, getObjectKey (named ['a'] []) = some k ∧ getObjectKey (named ['\x80'] []) = some l ∧
      lexCmp k l = .gt ∧ cmpGHObject (named ['a'] []) (named ['\x80'] []) = .lt) ∧
    ∃ k l, getObjectKey (named ['a'] ['k']) = some k ∧ getObjectKey (named ['z'] ['k']) = some l ∧
      lexCmp k l = .gt ∧ cmpGHObject (named ['a'] ['k']) (named ['z'] ['k']) = .lt := by
  have key : ∀ {name key : List Char}, IsBytes name → IsBytes key → (key = name → key = []) →
      getObjectKey (named name key) = some (objectKey (named name key)) :=
    fun hname hkey h => getObjectKey_eq (wellNamed_named _ _ hname hkey h)
  exact ⟨⟨_, _, key (by decide) (by decide) (by decide), key (by decide) (by decide) (by decide),
    by decide, by decide⟩, ⟨_, _, key (by decide) (by decide) (by decide),
    key (by decide) (by decide) (by decide), by decide, by decide⟩⟩

end Ceph.Os
