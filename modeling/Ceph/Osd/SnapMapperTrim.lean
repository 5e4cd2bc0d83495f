import Ceph.Osd.SnapMapperIndex

/-!
# Finding the objects of a snapshot

`get_next_objects_to_trim` looks through the keys that begin with what the snapshot is
printed as.  Snapshots that agree modulo 2³² are printed alike, so what it finds may
belong to another snapshot, and then an assertion fails; or the only record is gone that
would have shown an object.  `snapMapper_exact_iff` says for which runs of calls and
which snapshots this does not happen.
-/

namespace Ceph.Osd

open Ceph.Common List Option SnapCall PrefixScan SnapRecord SnapMapper

/-! ## The inner loop -/

section Loop

variable {m : SnapMapper} {store : SnapStore} {snap : SnapId} {start : List Char}

theorem take_eq_iff {start key : List Char} : key.take start.length = start ↔ start <+: key :=
  ⟨fun h => prefix_iff_eq_take.2 h.symm, fun h => (prefix_iff_eq_take.1 h).symm⟩

theorem isMapping_of_isPrefix {s : SnapId} {i key : List Char} (h : getPrefix s ++ i <+: key) :
    isMapping key := by
  obtain ⟨-, rfl⟩ := h
  simp [isMapping, getPrefix, mappingPrefix]

/-- What the keys that begin with `start` hold is of the snapshot. -/
def AllOf (m : SnapMapper) (store : SnapStore) (snap : SnapId) (start : List Char) : Prop :=
  ∀ key v, store.lookup key = some v → start <+: key → isMapping key ∧
    ∃ hoid, v = .mapping snap hoid ∧ m.check hoid

/-- The keys after `pos` that begin with `start`. -/
def keysAfter (store : SnapStore) (start pos : List Char) : Finset (List Char) :=
  store.keys.filter fun key => pos < key ∧ start <+: key

/-- What the loop adds from `pos` on, with what it returns: only what such keys hold, and
all of it if it was allowed more; an error says that it came to the last key of all. -/
structure TrimFound (store : SnapStore) (snap : SnapId) (start : List Char) (n : ℕ)
    (pos : List Char) (more : List HObject) (r : ℤ) : Prop where
  found : ∀ o ∈ more, ∃ key, store.lookup key = some (.mapping snap o) ∧ start <+: key
  length_le : more.length ≤ (keysAfter store start pos).card
  all : more.length < n → ∀ key v, store.lookup key = some v → pos < key → start <+: key →
    ∃ hoid ∈ more, v = .mapping snap hoid
  last : r ≠ 0 → ∃ last, (last = pos ∨ start <+: last) ∧
    ∀ key v, store.lookup key = some v → key ≤ last

theorem card_keysAfter {key pos : List Char} {v : SnapValue} (hv : store.lookup key = some v)
    (hlt : pos < key) (hpre : start <+: key) :
    (keysAfter store start key).card + 1 ≤ (keysAfter store start pos).card := by
  have hmem : key ∈ keysAfter store start pos :=
    Finset.mem_filter.2 ⟨mem_keys_iff.2 ⟨v, hv⟩, hlt, hpre⟩
  rw [← Finset.card_erase_add_one hmem]
  refine Nat.succ_le_succ (Finset.card_le_card fun k hk => ?_)
  obtain ⟨hk, hlt', hkpre⟩ := Finset.mem_filter.1 hk
  exact Finset.mem_erase.2 ⟨hlt'.ne', Finset.mem_filter.2 ⟨hk, hlt.trans hlt', hkpre⟩⟩

variable (m store snap) in
/-- The loop comes to its end if all keys are of the snapshot. -/
theorem trimLoop_gives (n : ℕ) {pos : List Char} (hpos : start ≤ pos) (out : List HObject) :
    Gives (AllOf m store snap start)
      (fun p => ∃ more, p.1 = out ++ more ∧ TrimFound store snap start n pos more p.2)
      (m.trimLoop store snap start n pos out) := by
  induction n generalizing pos out with
  | zero =>
    exact .some ⟨[], by simp, nofun, Nat.zero_le _, fun h => absurd h (lt_irrefl 0),
      fun h => absurd rfl h⟩
  | succ n ih =>
    unfold trimLoop
    cases hnext : next store pos with
    | none =>
      have hend := fun key v hv => next_eq_none hnext (k := key) (v := v) hv
      refine .some ⟨[], by simp, nofun, Nat.zero_le _, fun _ key v hv hlt => ?_,
        fun _ => ⟨pos, .inl rfl, hend⟩⟩
      exact absurd (hend key v hv) hlt.not_ge
    | some kv =>
      obtain ⟨key, v⟩ := kv
      obtain ⟨hv, hlt, hleast⟩ := next_eq_some hnext
      dsimp only
      by_cases hpre : start <+: key
      · rw [if_neg (not_not.2 (take_eq_iff.2 hpre))]
        refine (Gives.assert fun hall => (hall key v hv hpre).1).bind fun _ _ => ?_
        cases v with
        | objectSnaps oid snaps =>
          refine .none fun hall => ?_
          obtain ⟨-, hoid, heq, -⟩ := hall key _ hv hpre
          cases heq
        | mapping snap' hoid =>
          have hgood : AllOf m store snap start → snap' = snap ∧ m.check hoid := by
            intro hall
            obtain ⟨-, hoid', heq, hcheck⟩ := hall key _ hv hpre
            cases heq
            exact ⟨rfl, hcheck⟩
          refine (Gives.assert fun hall => (hgood hall).1).bind fun _ hsnap =>
            (Gives.assert fun hall => (hgood hall).2).bind fun _ _ =>
              (ih (hpos.trans hlt.le) (out ++ [hoid])).imp ?_
          subst hsnap
          rintro ⟨_, r⟩ ⟨more, rfl, hmore⟩
          have hcard := card_keysAfter hv hlt hpre
          refine ⟨hoid :: more, by simp, forall_mem_cons.2 ⟨⟨key, hv, hpre⟩, hmore.found⟩,
            (Nat.succ_le_succ hmore.length_le).trans hcard, fun hn key' v' hv' hlt' hpre' => ?_,
            fun hr => ?_⟩
          · rcases (hleast key' v' hv' hlt').eq_or_lt with rfl | hlt''
            · exact ⟨hoid, mem_cons_self, some_inj.1 (hv'.symm.trans hv)⟩
            · obtain ⟨hoid', hmem, heq⟩ :=
                hmore.all (Nat.lt_of_succ_lt_succ hn) key' v' hv' hlt'' hpre'
              exact ⟨hoid', mem_cons_of_mem _ hmem, heq⟩
          · obtain ⟨last, hlast, hle⟩ := hmore.last hr
            exact ⟨last, .inr (hlast.elim (fun heq => heq ▸ hpre) id), hle⟩
      · rw [if_pos fun h => hpre (take_eq_iff.1 h)]
        refine .some ⟨[], by simp, nofun, Nat.zero_le _, fun _ key' v' hv' hlt' hpre' => ?_,
          fun h => absurd rfl h⟩
        -- what comes next is beyond all keys that begin with `start`
        have hle := hleast key' v' hv' hlt'
        exact absurd (lt_of_not_isPrefix hpre' (hpos.trans hlt.le) hpre) hle.not_gt

end Loop

/-! ## The outer loop -/

section Outer

variable {m : SnapMapper} {store : SnapStore} {snap : SnapId} {prefixes : List (List Char)}

/-- The strings the search goes through are in order, and none begins with another. -/
def Apart (snap : SnapId) (prefixes : List (List Char)) : Prop :=
  prefixes.Pairwise fun i j => getPrefix snap ++ i < getPrefix snap ++ j ∧
    ¬ getPrefix snap ++ i <+: getPrefix snap ++ j

theorem trimPrefixes_gives (happart : Apart snap prefixes) {ok : Prop}
    (hall : ok → ∀ i ∈ prefixes, AllOf m store snap (getPrefix snap ++ i)) (max : ℕ)
    (out : List HObject) :
    Gives ok (fun out' => ∃ more, out' = out ++ more ∧
      (∀ o ∈ more, ∃ key, store.lookup key = some (.mapping snap o) ∧
        ∃ i ∈ prefixes, getPrefix snap ++ i <+: key) ∧
      more.length ≤ (prefixes.map fun i =>
        (keysAfter store (getPrefix snap ++ i) (getPrefix snap ++ i)).card).sum ∧
      (out'.length < max → ∀ i ∈ prefixes, ∀ key v, store.lookup key = some v →
        getPrefix snap ++ i < key → getPrefix snap ++ i <+: key →
        ∃ hoid ∈ more, v = .mapping snap hoid)) (m.trimPrefixes store snap max prefixes out) := by
  induction prefixes generalizing out with
  | nil => exact .some ⟨[], by simp, by simp, by simp, by simp⟩
  | cons i prefixes ih =>
    obtain ⟨hfirst, hrest⟩ := pairwise_cons.1 happart
    unfold trimPrefixes
    by_cases hlen : out.length < max
    · rw [if_pos hlen]
      have hloop := trimLoop_gives m store snap (max - out.length)
        (le_refl (getPrefix snap ++ i)) out
      refine Gives.bind ⟨fun hok => hloop.1 (hall hok i mem_cons_self), hloop.2⟩ ?_
      rintro ⟨_, r⟩ ⟨more, rfl, hmore⟩
      have hfirst_found : ∀ o ∈ more, ∃ key, store.lookup key = some (.mapping snap o) ∧
          ∃ j ∈ i :: prefixes, getPrefix snap ++ j <+: key := by
        intro o ho
        obtain ⟨key, hkey, hpre⟩ := hmore.found o ho
        exact ⟨key, hkey, i, mem_cons_self, hpre⟩
      have hcount := hmore.length_le
      rw [map_cons, sum_cons]
      dsimp only
      split_ifs with hr
      · refine (ih hrest (fun hok j hj => hall hok j (mem_cons_of_mem _ hj)) (out ++ more)).imp ?_
        rintro _ ⟨more', rfl, hfound', hcount', hall'⟩
        refine ⟨more ++ more', append_assoc .., fun o ho => ?_, ?_,
          fun hmax j hj key v hv hlt hpre => ?_⟩
        · rcases mem_append.1 ho with ho | ho
          · exact hfirst_found o ho
          · obtain ⟨key, hkey, j, hj, hpre⟩ := hfound' o ho
            exact ⟨key, hkey, j, mem_cons_of_mem _ hj, hpre⟩
        · rw [length_append]
          omega
        · rcases mem_cons.1 hj with rfl | hj
          · rw [length_append, length_append] at hmax
            obtain ⟨hoid, hmem, heq⟩ := hmore.all (by omega) key v hv hlt hpre
            exact ⟨hoid, mem_append_left _ hmem, heq⟩
          · obtain ⟨hoid, hmem, heq⟩ := hall' hmax j hj key v hv hlt hpre
            exact ⟨hoid, mem_append_right _ hmem, heq⟩
      · refine .some ⟨more, rfl, hfirst_found, by omega, fun hmax j hj key v hv hlt hpre => ?_⟩
        rcases mem_cons.1 hj with rfl | hj
        · rw [length_append] at hmax
          exact hmore.all (by omega) key v hv hlt hpre
        -- the last key the loop came to lies before those that begin with `j`
        obtain ⟨last, hlast, hle⟩ := hmore.last hr
        have hij := hfirst j hj
        have hlast_lt : last < getPrefix snap ++ j := by
          rcases hlast with rfl | hlast
          · exact hij.1
          · exact lt_of_not_isPrefix hlast hij.1.le hij.2
        exact absurd (hlast_lt.trans hlt) (hle key v hv).not_gt
    · rw [if_neg hlen]
      exact .some ⟨[], by simp, nofun, Nat.zero_le _, fun hmax => absurd hmax hlen⟩

end Outer

/-! ## What is found -/

variable {r : SnapRecord}

theorem SnapRecord.entry_eq_some {s t : SnapId} :
    r.entry s = some t ↔ (∀ u ∈ r.added, Alike s u → u ∈ r.current) ∧ t ∈ r.added ∧ Alike s t ∧
      ∀ u ∈ r.added, Alike s u → t ≤ u := by
  unfold entry
  by_cases hall : r.added.filter (Alike s ·) ⊆ r.current
  · rw [if_pos hall, SortedList.ascending, find?_sort]
    exact ⟨fun h => ⟨Represents.filter_subset_iff.1 hall, h⟩, fun h => h.2⟩
  · rw [if_neg hall]
    exact ⟨fun h => absurd h.symm (some_ne_none t),
      fun h => absurd (Represents.filter_subset_iff.2 h.1) hall⟩

theorem SnapRecord.exists_entry {s t : SnapId} (hall : ∀ u ∈ r.added, Alike s u → u ∈ r.current)
    (ht : t ∈ r.added) (halike : Alike s t) :
    ∃ u, r.entry s = some u := by
  unfold entry
  rw [if_pos (Represents.filter_subset_iff.2 hall)]
  refine isSome_iff_exists.1 (List.find?_isSome.2 ⟨t, SortedList.mem_ascending.2 ht, ?_⟩)
  exact decide_eq_true halike

/-- When the objects of a snapshot are found: whenever an object still has all the
snapshots printed like `s` it was added with, `s` is the smallest of them, and if an
object has `s` then some object still has all of them. -/
structure TrimSafe (spec : SnapSpec) (s : SnapId) : Prop where
  smallest : ∀ o r, spec o = some r → (∀ t ∈ r.added, Alike s t → t ∈ r.current) →
    ∀ t ∈ r.added, Alike s t → s ∈ r.added ∧ s ≤ t
  shown : ∀ o r, spec o = some r → s ∈ r.current →
    ∃ o' r', spec o' = some r' ∧ (∃ t ∈ r'.added, Alike s t) ∧
      ∀ t ∈ r'.added, Alike s t → t ∈ r'.current

/-- So it is if no other snapshot that is printed like `s` is used. -/
theorem TrimSafe.of_unlike {spec : SnapSpec} {s : SnapId}
    (hsub : ∀ o r, spec o = some r → r.current ⊆ r.added)
    (hunlike : ∀ o r, spec o = some r → ∀ t ∈ r.added, Alike s t → t = s) : TrimSafe spec s where
  smallest o r hr _ t ht halike := by
    obtain rfl := hunlike o r hr t ht halike
    exact ⟨ht, le_rfl⟩
  shown o r hr hs := by
    refine ⟨o, r, hr, ⟨s, hsub o r hr hs, rfl⟩, fun t ht halike => ?_⟩
    rwa [hunlike o r hr t ht halike]

/-- The same, of what is recorded. -/
theorem trimSafe_iff {spec : SnapSpec} {s : SnapId} :
    TrimSafe spec s ↔ (∀ o r t, spec o = some r → r.entry s = some t → t = s) ∧
      ∀ o r, spec o = some r → s ∈ r.current → ∃ o' r' t, spec o' = some r' ∧
        r'.entry s = some t := by
  constructor
  · rintro ⟨hsmall, hshown⟩
    refine ⟨fun o r t hr hentry => ?_, fun o r hr hs => ?_⟩
    · obtain ⟨hall, ht, halike, hleast⟩ := entry_eq_some.1 hentry
      obtain ⟨hs, hle⟩ := hsmall o r hr hall t ht halike
      exact (hleast s hs rfl).antisymm hle
    · obtain ⟨o', r', hr', ⟨t, ht, halike⟩, hall⟩ := hshown o r hr hs
      obtain ⟨u, hu⟩ := exists_entry hall ht halike
      exact ⟨o', r', u, hr', hu⟩
  · rintro ⟨hsame, hfound⟩
    refine ⟨fun o r hr hall t ht halike => ?_, fun o r hr hs => ?_⟩
    · obtain ⟨u, hu⟩ := exists_entry hall ht halike
      obtain rfl := hsame o r u hr hu
      obtain ⟨-, hmem, -, hleast⟩ := entry_eq_some.1 hu
      exact ⟨hmem, hleast t ht halike⟩
    · obtain ⟨o', r', t, hr', hentry⟩ := hfound o r hr hs
      obtain ⟨hall, ht, halike, -⟩ := entry_eq_some.1 hentry
      exact ⟨o', r', hr', ⟨t, ht, halike⟩, hall⟩

section Found

variable {m : SnapMapper} {store : SnapStore} {spec : SnapSpec} {s : SnapId}

/-- What the search comes to is recorded of an object under the key of the snapshot. -/
theorem Represents.of_isPrefix (h : Represents m store spec) {i key : List Char}
    (hi : i ∈ m.prefixes) {v : SnapValue} (hv : store.lookup key = some v)
    (hpre : getPrefix s ++ i <+: key) :
    ∃ o r t, spec o = some r ∧ r.entry s = some t ∧ v = .mapping t o := by
  obtain ⟨s', o, hpg, rfl⟩ := h.ours key v ⟨s, i, hi, hpre⟩ hv
  have hlen : (getPrefix s).length = (getPrefix s').length := by
    rw [length_getPrefix, length_getPrefix]
  have hsame : getPrefix s = getPrefix s' :=
    prefix_of_prefix_length_le ((prefix_append _ _).trans hpre) (prefix_append _ _)
      hlen.le |>.eq_of_length hlen
  have hkey : m.toRawKey s' o = m.toRawKey s o := by
    unfold toRawKey
    rw [hsame]
  rw [hkey, h.mappings o s hpg] at hv
  obtain ⟨r, hr, hentry⟩ := of_bind hv
  obtain ⟨t, ht, rfl⟩ := of_map hentry
  exact ⟨o, r, t, hr, ht, rfl⟩

/-- And it comes to all of them. -/
theorem Represents.exists_isPrefix (h : Represents m store spec) {o : HObject} {t : SnapId}
    (hr : spec o = some r) (ht : r.entry s = some t) :
    ∃ key, store.lookup key = some (.mapping t o) ∧
      ∃ i ∈ m.prefixes, getPrefix s ++ i < key ∧ getPrefix s ++ i <+: key := by
  have hpg := h.inPg o r hr
  obtain ⟨i, hi, hpre, hne⟩ := m.exists_prefix_toRawKey hpg s
  refine ⟨m.toRawKey s o, ?_, i, hi, (le_of_isPrefix hpre).lt_of_ne hne, hpre⟩
  rw [h.mappings o s hpg, hr, bind_some, ht]
  rfl

/-- The answer to a search is right: the objects have the snapshot, and none has it if
there is none. -/
structure TrimAnswer (spec : SnapSpec) (s : SnapId) (out : List HObject) (r : ℤ) : Prop where
  has : ∀ o ∈ out, ∃ rec, spec o = some rec ∧ s ∈ rec.current
  none_has : r = enoent → ∀ o rec, spec o = some rec → s ∉ rec.current

theorem Represents.trim_iff (h : Represents m store spec) :
    (∀ max > 0, ∃ out r, m.getNextObjectsToTrim store s max = some (out, r) ∧
      TrimAnswer spec s out r) ↔ TrimSafe spec s := by
  rw [trimSafe_iff]
  have happart : Apart s m.prefixes := m.prefixes_sorted s
  have hsame_of (hsame : ∀ o r t, spec o = some r → r.entry s = some t → t = s) :
      ∀ i ∈ m.prefixes, AllOf m store s (getPrefix s ++ i) := by
    intro i hi key v hv hpre
    obtain ⟨o, r, t, hr, ht, rfl⟩ := h.of_isPrefix hi hv hpre
    obtain rfl := hsame o r t hr ht
    exact ⟨isMapping_of_isPrefix hpre, o, rfl, (h.inPg o r hr).check⟩
  have hgives := fun max => trimPrefixes_gives happart hsame_of max []
  constructor
  · intro hexact
    have hsame : ∀ o r t, spec o = some r → r.entry s = some t → t = s := by
      obtain ⟨out, r, hrun, -⟩ := hexact ((m.prefixes.map fun i =>
        (keysAfter store (getPrefix s ++ i) (getPrefix s ++ i)).card).sum + 1) (Nat.succ_pos _)
      obtain ⟨out', hrun, -⟩ := of_bind hrun
      obtain ⟨_, rfl, -, hcount, hall⟩ := (hgives _).2 out' hrun
      intro o rec t hrec ht
      obtain ⟨key, hkey, i, hi, hlt, hpre⟩ := h.exists_isPrefix hrec ht
      obtain ⟨hoid, -, heq⟩ := hall (Nat.lt_succ_of_le hcount) i hi key _ hkey hlt hpre
      cases heq
      rfl
    refine ⟨hsame, fun o rec hrec hs => ?_⟩
    by_contra hnone
    obtain ⟨out, r, hrun, hanswer⟩ := hexact 1 Nat.one_pos
    obtain ⟨more, hrun, heq⟩ := of_bind hrun
    obtain ⟨_, rfl, hfound, -⟩ := (hgives 1).2 more hrun
    obtain rfl : more = [] := by
      refine eq_nil_iff_forall_not_mem.2 fun o' ho' => hnone ?_
      obtain ⟨key, hkey, i, hi, hpre⟩ := hfound o' ho'
      obtain ⟨o'', r'', t, hr'', ht, -⟩ := h.of_isPrefix hi hkey hpre
      exact ⟨o'', r'', t, hr'', ht⟩
    cases heq
    exact hanswer.none_has rfl o rec hrec hs
  · rintro ⟨hsame, hshown⟩ max hmax
    obtain ⟨more, hmore⟩ := isSome_iff_exists.1 ((hgives max).1 hsame)
    obtain ⟨_, rfl, hfound, -, hall⟩ := (hgives max).2 more hmore
    refine ⟨more, if more.length = 0 then enoent else 0, ?_, ?_, ?_⟩
    · unfold getNextObjectsToTrim
      rw [hmore]
      rfl
    · intro o ho
      obtain ⟨key, hkey, i, hi, hpre⟩ := hfound o ho
      obtain ⟨o', r, t, hr, ht, heq⟩ := h.of_isPrefix hi hkey hpre
      cases heq
      obtain ⟨hall, hmem, halike, -⟩ := entry_eq_some.1 ht
      exact ⟨r, hr, hall _ hmem halike⟩
    · intro henoent o rec hrec hs
      obtain ⟨o', r', t, hr', ht⟩ := hshown o rec hrec hs
      obtain ⟨key, hkey, i, hi, hlt, hpre⟩ := h.exists_isPrefix hr' ht
      have hnil : more = [] := by
        by_contra hne
        rw [if_neg (by simpa using hne)] at henoent
        exact absurd henoent (by decide)
      subst hnil
      obtain ⟨hoid, hmem, -⟩ := hall hmax i hi key _ hkey hlt hpre
      cases hmem

end Found

/-! ## Runs -/

/-- The calls of a run: on objects of the placement group, and as they may be made. -/
def AllFit (m : SnapMapper) : SnapSpec → List SnapCall → Prop
  | _, [] => True
  | spec, call :: calls => m.InPg call.oid ∧ call.Fits spec ∧ AllFit m (call.apply spec) calls

/-- The map holds nothing of the placement group. -/
structure Fresh (m : SnapMapper) (store : SnapStore) : Prop where
  objects : ∀ o, m.InPg o → store.lookup (m.toObjectKey o) = none
  ours : ∀ key, m.Ours key → store.lookup key = none

theorem Fresh.represents {m : SnapMapper} {store : SnapStore} (h : Fresh m store) :
    Represents m store fun _ => none where
  inPg _ _ hr := nomatch hr
  subset _ _ hr := nomatch hr
  objects o ho := h.objects o ho
  mappings o s ho := h.ours _ (m.ours_toRawKey ho s)
  ours key v hkey hv := by
    rw [h.ours key hkey] at hv
    cases hv

/-- What the snap mapper is for: the set of every object can be read, and a search for
`s` fails no assertion and gives a right answer, if it asks for at least one object. -/
structure SnapsExact (m : SnapMapper) (store : SnapStore) (spec : SnapSpec) (s : SnapId) :
    Prop where
  snaps_eq : ∀ o, m.InPg o → m.getSnaps store o = some ((spec o).map current)
  trim_eq : ∀ max > 0, ∃ out r, m.getNextObjectsToTrim store s max = some (out, r) ∧
    TrimAnswer spec s out r

section Runs

variable {m : SnapMapper} {store store' : SnapStore} {spec : SnapSpec} {calls : List SnapCall}

theorem SnapCall.represents_of_run {call : SnapCall} (h : Represents m store spec)
    (hpg : m.InPg call.oid) (hfits : call.Fits spec) (hrun : call.run m store = some store') :
    Represents m store' (call.apply spec) := by
  have hset : ∀ r ∈ spec call.oid, r.current ≠ ∅ := by
    intro r hr hempty
    rw [run_eq_none h hpg hr hempty] at hrun
    cases hrun
  obtain ⟨store'', hrun', h'⟩ := exists_run h hpg hfits hset
  rw [hrun] at hrun'
  cases hrun'
  exact h'

theorem represents_of_run (h : Represents m store spec) (hfit : AllFit m spec calls)
    (hrun : calls.foldlM (run m) store = some store') :
    Represents m store' (calls.foldl apply spec) := by
  induction calls generalizing store spec with
  | nil =>
    cases hrun
    exact h
  | cons call calls ih =>
    obtain ⟨hpg, hfits, hfit⟩ := hfit
    obtain ⟨store₁, hcall, hrun⟩ := of_bind hrun
    exact ih (represents_of_run h hpg hfits hcall) hfit hrun

/-- No object has the empty set. -/
def SnapSpec.NoneEmpty (spec : SnapSpec) : Prop := ∀ o r, spec o = some r → r.current ≠ ∅

/-- The call adds no object with the empty set. -/
def SnapCall.AddsSome (call : SnapCall) : Prop :=
  ∀ oid snaps, call = .addOid oid snaps → snaps ≠ ∅

theorem SnapCall.noneEmpty_apply {call : SnapCall} (h : spec.NoneEmpty) (hadds : call.AddsSome) :
    SnapSpec.NoneEmpty (call.apply spec) := by
  have hupdate : ∀ oid (new : Option SnapRecord), (∀ r ∈ new, r.current ≠ ∅) →
      SnapSpec.NoneEmpty (Function.update spec oid new) := by
    intro oid new hnew
    exact (Function.forall_update_iff spec fun _ new => ∀ r ∈ new, r.current ≠ ∅).2
      ⟨hnew, fun o _ => h o⟩
  cases call with
  | addOid oid snaps =>
    refine hupdate oid _ fun r hr => ?_
    cases hr
    exact hadds oid snaps rfl
  | updateSnaps oid newSnaps oldSnapsCheck =>
    refine hupdate oid _ fun r hr => ?_
    obtain ⟨r', -, hr⟩ := of_bind hr
    split at hr
    · cases hr
    · rename_i hnew
      cases hr
      exact hnew
  | removeOid oid => exact hupdate oid _ nofun

section

variable (h : Represents m store spec) (hfit : AllFit m spec calls)

include h hfit

theorem exists_run_of_addsSome (hset : spec.NoneEmpty) (hadds : ∀ call ∈ calls, call.AddsSome) :
    ∃ store', calls.foldlM (run m) store = some store' ∧
      SnapSpec.NoneEmpty (calls.foldl apply spec) := by
  induction calls generalizing store spec with
  | nil => exact ⟨store, rfl, hset⟩
  | cons call calls ih =>
    obtain ⟨hpg, hfits, hfit⟩ := hfit
    obtain ⟨store₁, hcall, h₁⟩ := exists_run h hpg hfits fun r hr => hset _ r hr
    have hset₁ := noneEmpty_apply hset (hadds call mem_cons_self)
    obtain ⟨store', hrun, hset'⟩ := ih h₁ hfit hset₁ fun c hc => hadds c (mem_cons_of_mem _ hc)
    refine ⟨store', ?_, hset'⟩
    rwa [foldlM_cons, hcall]

/-- An object with the empty set keeps it to the end of a run. -/
theorem stays_empty (hrun : calls.foldlM (run m) store = some store') {o : HObject}
    (hr : spec o = some r) (hempty : r.current = ∅) :
    calls.foldl apply spec o = some r := by
  induction calls generalizing store spec with
  | nil => exact hr
  | cons call calls ih =>
    obtain ⟨hpg, hfits, hfit⟩ := hfit
    obtain ⟨store₁, hcall, hrun⟩ := of_bind hrun
    have hne : o ≠ call.oid := by
      rintro rfl
      rw [run_eq_none h hpg hr hempty] at hcall
      cases hcall
    refine ih (SnapCall.represents_of_run h hpg hfits hcall) hfit hrun ?_
    exact (apply_of_ne hne spec).trans hr

theorem addsSome_of_noneEmpty (hrun : calls.foldlM (run m) store = some store')
    (hset : SnapSpec.NoneEmpty (calls.foldl apply spec)) :
    ∀ call ∈ calls, call.AddsSome := by
  induction calls generalizing store spec with
  | nil => exact nofun
  | cons call calls ih =>
    obtain ⟨hpg, hfits, hfit⟩ := hfit
    obtain ⟨store₁, hcall, hrest⟩ := of_bind hrun
    have h₁ := SnapCall.represents_of_run h hpg hfits hcall
    intro c hc
    rcases mem_cons.1 hc with rfl | hc
    · rintro oid snaps rfl hempty
      have hadded := apply_addOid_self spec oid snaps
      exact hset oid _ (stays_empty h₁ hfit hrest hadded hempty) hempty
    · exact ih h₁ hfit hrest hset c hc

end

/-- **The snap mapper finds exactly the objects of a snapshot** after a run of calls, and
no assertion fails, if and only if no object was added with the empty set and the
snapshots printed alike do not get in each other's way. -/
theorem snapMapper_exact_iff {m : SnapMapper} {store : SnapStore} (hfresh : Fresh m store)
    {calls : List SnapCall} (hfit : AllFit m (fun _ => none) calls) (s : SnapId) :
    (∃ store', calls.foldlM (SnapCall.run m) store = some store' ∧
      SnapsExact m store' (calls.foldl SnapCall.apply fun _ => none) s) ↔
    (∀ call ∈ calls, call.AddsSome) ∧ TrimSafe (calls.foldl SnapCall.apply fun _ => none) s := by
  have h := hfresh.represents
  constructor
  · rintro ⟨store', hrun, hsnaps, htrim⟩
    have h' := represents_of_run h hfit hrun
    refine ⟨addsSome_of_noneEmpty h hfit hrun fun o r hr hempty => ?_, h'.trim_iff.1 htrim⟩
    have hget := hsnaps o (h'.inPg o r hr)
    rw [h'.getSnaps_eq (h'.inPg o r hr), hr] at hget
    dsimp only at hget
    rw [if_pos hempty] at hget
    cases hget
  · rintro ⟨hadds, hsafe⟩
    obtain ⟨store', hrun, hset⟩ := exists_run_of_addsSome h hfit (nofun) hadds
    have h' := represents_of_run h hfit hrun
    refine ⟨store', hrun, fun o ho => ?_, h'.trim_iff.2 hsafe⟩
    rw [h'.getSnaps_eq ho]
    cases hr : calls.foldl SnapCall.apply (fun _ => none) o with
    | none => rfl
    | some r =>
      dsimp only
      rw [if_neg (hset o r hr)]
      rfl

end Runs

/-- The mapper of a pool with one placement group. -/
def wholePool : SnapMapper := ⟨0, 0#32, 1#64, noShard, by decide⟩

/-- A clone in that pool. -/
def clone (hash : BitVec 32) : HObject := ⟨['a'], 4#64, hash, 1#64, [], []⟩

theorem inPg_clone (hash : BitVec 32) : wholePool.InPg (clone hash) :=
  ⟨by simp [check, wholePool, matchHash], rfl⟩

theorem fresh_empty (m : SnapMapper) : Fresh m ∅ := ⟨fun _ _ => rfl, fun _ _ => rfl⟩

/-- A clone is added with two snapshots, and one of them is trimmed. -/
def addAndUpdate : List SnapCall :=
  [.addOid (clone 0) {1, 2}, .updateSnaps (clone 0) {2} (some {1, 2})]

theorem addAndUpdate_fit : AllFit wholePool (fun _ => none) addAndUpdate := by
  refine ⟨inPg_clone 0, rfl, inPg_clone 0, fun r hr => ?_, trivial⟩
  cases (apply_addOid_self ..).symm.trans hr
  exact ⟨by decide, fun _ old hold => some_inj.1 hold⟩

theorem addAndUpdate_trimSafe : TrimSafe (addAndUpdate.foldl apply fun _ => none) 2 := by
  have hrec : ∀ o r, addAndUpdate.foldl apply (fun _ => none) o = some r → r = ⟨{1, 2}, {2}⟩ := by
    intro o r hr
    by_cases ho : o = clone 0
    · subst ho
      exact (some_inj.1 hr).symm
    · unfold addAndUpdate at hr
      rw [foldl_cons, foldl_cons, foldl_nil, apply_of_ne ho, apply_of_ne ho] at hr
      cases hr
  refine .of_unlike (fun o r hr => ?_) fun o r hr t ht halike => ?_
  · rw [hrec o r hr]
    decide
  · rw [hrec o r hr] at ht
    simp only [Finset.mem_insert, Finset.mem_singleton] at ht
    rcases ht with rfl | rfl
    · exact absurd halike (by decide)
    · rfl

theorem snapMapper_exact_updated :
    ∃ store', addAndUpdate.foldlM (SnapCall.run wholePool) ∅ = some store' ∧
      SnapsExact wholePool store' (addAndUpdate.foldl SnapCall.apply fun _ => none) 2 := by
  refine (snapMapper_exact_iff (fresh_empty wholePool) addAndUpdate_fit 2).2
    ⟨fun call hcall => ?_, addAndUpdate_trimSafe⟩
  unfold addAndUpdate at hcall
  simp only [mem_cons, not_mem_nil, or_false] at hcall
  rcases hcall with rfl | rfl <;> intro oid snaps heq <;> cases heq
  decide

/-- Two clones of different snapshots that are printed alike. -/
def addTwo : List SnapCall := [.addOid (clone 0) {1}, .addOid (clone 1) {2 ^ 32 + 1}]

/-- Trimming the first snapshot fails an assertion. -/
theorem trim_fails_on_alike : AllFit wholePool (fun _ => none) addTwo ∧
    ¬ ∃ store', addTwo.foldlM (SnapCall.run wholePool) ∅ = some store' ∧
      SnapsExact wholePool store' (addTwo.foldl SnapCall.apply fun _ => none) 1 := by
  have hne : clone 1 ≠ (SnapCall.addOid (clone 0) {1}).oid := by decide
  have hnone := SnapCall.apply_of_ne hne fun _ => none
  refine ⟨⟨inPg_clone 0, rfl, inPg_clone 1, hnone, trivial⟩, ?_⟩
  rintro ⟨store, hrun, hexact⟩
  have htrim : ((addTwo.foldlM (SnapCall.run wholePool) ∅).map fun store =>
      wholePool.getNextObjectsToTrim store 1 2) = some none := by
    decide +kernel
  rw [hrun, map_some, some_inj] at htrim
  obtain ⟨out, r, hout, -⟩ := hexact.trim_eq 2 (by decide)
  rw [htrim] at hout
  cases hout

end Ceph.Osd
