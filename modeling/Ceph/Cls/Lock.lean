import Mathlib

/-!
# Advisory locks

The calls of `cls_lock` on one lock of an object.  Every call trims the lockers that have expired
by its clock, but only a call that succeeds stores what is left.

* `Holders`: what the calls that succeeded have granted, kept beside the object;
* `LockRun.tracks`: the lockers of the object that have not expired are the holders;
* `locks_exclude`: holders exclude each other, and `assert_locked` recognises them.
-/

namespace Ceph.Cls

open List Function

/-! ## The calls -/

/-- `utime_t`: seconds and nanoseconds. -/
abbrev Utime : Type := ℕ ×ₗ ℕ

/-- `operator+=`, on words of 32 bits.  The carry is computed from `nsec()`, which is a signed
`int`; the nanoseconds themselves are not signed. -/
def Utime.add (l r : Utime) : Utime :=
  let nsec := (ofLex l).2 + (ofLex r).2
  let carry := (Int.bmod nsec (2 ^ 32)).tdiv (10 ^ 9)
  toLex ((((ofLex l).1 + (ofLex r).1 + carry) % 2 ^ 32).toNat, nsec % 2 ^ 32 % 10 ^ 9)

/-- The sums of `operator+=` fit into its words. -/
def Fits (now duration : Utime) : Prop :=
  (ofLex now).2 + (ofLex duration).2 < 2 ^ 31 ∧ (ofLex now).1 + (ofLex duration).1 +
    ((ofLex now).2 + (ofLex duration).2) / 10 ^ 9 < 2 ^ 32
  deriving Decidable

/-- The time is zero, which stands for no expiration, or has not passed. -/
def Live (now expiration : Utime) : Prop := expiration = toLex (0, 0) ∨ ¬ expiration < now
  deriving Decidable

/-- `ClsLockType` -/
inductive LockType
  | none | exclusive | shared
  deriving DecidableEq

/-- The errors of the calls. -/
inductive LockError
  | einval | ebusy | eexist | enoent
  deriving DecidableEq

/-- `locker_id_t`: a client and its cookie. -/
abbrev LockerId (C : Type) : Type := C × String

/-- An entry of the map of lockers. -/
structure Locker (C : Type) where
  id : LockerId C
  expiration : Utime
  deriving DecidableEq

/-- `lock_info_t` -/
structure LockInfo (C : Type) where
  lockers : List (Locker C) := []
  lockType : LockType := .none
  tag : String := ""

variable {C : Type}

/-- The object, if it exists, and the attribute of the lock, if it is set. -/
abbrev LockObject (C : Type) : Type := Option (Option (LockInfo C))

/-- What is stored about the lock, or a lock without lockers. -/
def storedLock (obj : LockObject C) : LockInfo C := obj.join.getD {}

/-- `read_lock`: the lock without the lockers that have expired. -/
def LockInfo.trim (now : Utime) (linfo : LockInfo C) : LockInfo C :=
  { linfo with lockers := linfo.lockers.filter fun l => Live now l.expiration }

@[inherit_doc LockInfo.trim]
def readLock (now : Utime) : LockObject C → Except LockError (LockInfo C)
  | none => .error .enoent
  | some attr => .ok ((storedLock (some attr)).trim now)

/-- A duration of zero is no limit. -/
def expirationOf (now duration : Utime) : Utime :=
  if duration = toLex (0, 0) then toLex (0, 0) else now.add duration

section

variable [DecidableEq C]

section

variable (id newId : LockerId C) (now later : Utime) (lockType : LockType) (duration : Utime)
  (renew : Bool) (tag : String) (obj : LockObject C)

/-- `lock_obj`.  The clock is read once for trimming and once for the expiration. -/
def lockObj : Except LockError (LockObject C) :=
  if lockType = .none then .error .einval
  else
    -- the call may create the object
    let linfo := match readLock now obj with
      | .ok linfo => linfo
      | .error _ => {}
    let others := linfo.lockers.filter fun l => l.id ≠ id
    if linfo.lockers ≠ [] ∧ tag ≠ linfo.tag then .error .ebusy
    else if id ∈ linfo.lockers.map (·.id) ∧ ¬ renew then .error .eexist
    else if others ≠ [] ∧ (lockType = .exclusive ∨ linfo.lockType ≠ lockType) then .error .ebusy
    else .ok (some (some ⟨⟨id, expirationOf later duration⟩ :: others, lockType, tag⟩))

/-- `remove_lock` -/
def removeLock : Except LockError (LockObject C) := do
  let linfo ← readLock now obj
  if id ∈ linfo.lockers.map (·.id) then
    return some (some { linfo with lockers := linfo.lockers.filter fun l => l.id ≠ id })
  else throw .enoent

/-- The checks that `assert_locked` and `set_cookie` make, and the locker they find. -/
def checkLocked : Except LockError (LockInfo C × Locker C) := do
  if lockType = .none then throw .einval
  let linfo ← readLock now obj
  if linfo.lockers = [] ∨ linfo.lockType ≠ lockType ∨ linfo.tag ≠ tag then throw .ebusy
  match linfo.lockers.find? (·.id = id) with
  | none => throw .ebusy
  | some l => return (linfo, l)

/-- `assert_locked` -/
def assertLocked : Except LockError Unit := do
  let _ ← checkLocked id now lockType tag obj

/-- `set_cookie` -/
def setCookie : Except LockError (LockObject C) := do
  let (linfo, l) ← checkLocked id now lockType tag obj
  if newId ∈ linfo.lockers.map (·.id) then throw .ebusy
  return some (some { linfo with
    lockers := ⟨newId, l.expiration⟩ :: linfo.lockers.filter fun l => l.id ≠ id })

end

/-! ## Runs -/

/-- How long a grant lasts: the clock and the duration added up, whatever fits into a word. -/
def lastsUntil (now duration : Utime) : Utime :=
  if duration = toLex (0, 0) then toLex (0, 0)
  else toLex ((ofLex now).1 + (ofLex duration).1 + ((ofLex now).2 + (ofLex duration).2) / 10 ^ 9,
    ((ofLex now).2 + (ofLex duration).2) % 10 ^ 9)

/-- What a locker was granted. -/
structure Grant where
  lockType : LockType
  tag : String
  expiration : Utime

/-- Who holds the lock, by the answers of the calls. -/
abbrev Holders (C : Type) : Type := LockerId C → Option Grant

/-- The clock, which does not go back, the object and the holders after some calls whose durations
are admitted.  A call that fails changes nothing. -/
inductive LockRun (admitted : Utime → Utime → Prop) : Utime → LockObject C → Holders C → Prop
  | start (now : Utime) {obj : LockObject C} (h : obj.join = none) :
    LockRun admitted now obj fun _ => none
  | wait {now later obj held} (h : LockRun admitted now obj held) (hle : now ≤ later) :
    LockRun admitted later obj held
  | lock {now later obj held id lockType duration renew tag obj'}
    (h : LockRun admitted now obj held) (hle : now ≤ later) (hadm : admitted later duration)
    (hok : lockObj id now later lockType duration renew tag obj = .ok obj') :
    LockRun admitted later obj'
      (update held id (some ⟨lockType, tag, lastsUntil later duration⟩))
  -- `unlock` by the locker itself, or `break_lock` by anyone
  | remove {now obj held id obj'} (h : LockRun admitted now obj held)
    (hok : removeLock id now obj = .ok obj') : LockRun admitted now obj' (update held id none)
  | setCookie {now obj held client cookie newCookie lockType tag obj'}
    (h : LockRun admitted now obj held)
    (hok : setCookie (client, cookie) (client, newCookie) now lockType tag obj = .ok obj') :
    LockRun admitted now obj' (update (update held (client, cookie) none) (client, newCookie)
      (held (client, cookie)))

end

/-! ## The lockers are the holders -/

variable {now later : Utime} {linfo : LockInfo C} {obj obj' : LockObject C} {held : Holders C}
  {id : LockerId C} {lockType : LockType} {tag : String}

theorem Fits.expirationOf {duration : Utime} (h : Fits now duration) :
    expirationOf now duration = lastsUntil now duration := by
  obtain ⟨hnsec, hsec⟩ := h
  rw [Cls.expirationOf, lastsUntil, Utime.add]
  generalize (ofLex now).2 + (ofLex duration).2 = nsec at *
  have hcarry : (Int.bmod nsec (2 ^ 32)).tdiv (10 ^ 9) = (nsec / 10 ^ 9 : ℕ) := by
    rw [Int.bmod_eq_of_le (by omega) (by omega), Int.tdiv_eq_ediv_of_nonneg (by omega)]
    norm_cast
  have hsum : ((ofLex now).1 + (ofLex duration).1 + ((nsec / 10 ^ 9 : ℕ) : ℤ)) % 2 ^ 32 =
      ((ofLex now).1 + (ofLex duration).1 + nsec / 10 ^ 9 : ℕ) := by omega
  rw [hcarry, hsum, Int.toNat_natCast, Nat.mod_eq_of_lt (by omega : nsec < 2 ^ 32)]

theorem Live.mono {e : Utime} (h : Live later e) (hle : now ≤ later) : Live now e :=
  h.imp_right fun hnot hlt => hnot (hlt.trans_le hle)

/-- The lockers that have not expired are the holders, and one that is exclusive is alone. -/
structure Tracks (now : Utime) (linfo : LockInfo C) (held : Holders C) : Prop where
  held_iff : ∀ id g, Live now g.expiration → (held id = some g ↔
    ⟨id, g.expiration⟩ ∈ linfo.lockers ∧ g.lockType = linfo.lockType ∧ g.tag = linfo.tag)
  typed : ∀ id g, held id = some g → g.lockType ≠ .none
  alone : linfo.lockType = .exclusive → ∀ l ∈ linfo.lockers, ∀ l' ∈ linfo.lockers,
    Live now l.expiration → Live now l'.expiration → l.id = l'.id

theorem Tracks.mono (h : Tracks now linfo held) (hle : now ≤ later) : Tracks later linfo held :=
  ⟨fun id g hlive => h.held_iff id g (hlive.mono hle), h.typed,
    fun hex l hl l' hl' hlive hlive' => h.alone hex l hl l' hl' (hlive.mono hle) (hlive'.mono hle)⟩

theorem mem_trim {l : Locker C} :
    l ∈ (linfo.trim now).lockers ↔ l ∈ linfo.lockers ∧ Live now l.expiration := by
  simp [LockInfo.trim]

theorem Tracks.trim (h : Tracks now linfo held) : Tracks now (linfo.trim now) held := by
  refine ⟨fun id g hlive => ?_, h.typed,
    fun hex l hl l' hl' => h.alone hex l (mem_trim.1 hl).1 l' (mem_trim.1 hl').1⟩
  rw [h.held_iff id g hlive, mem_trim]
  exact and_congr_left' (and_iff_left hlive).symm

variable [DecidableEq C]

/-- What a successful `lock` has checked. -/
theorem lockObj_eq_ok {duration : Utime} {renew : Bool}
    (h : lockObj id now later lockType duration renew tag obj = .ok obj') :
    ∃ linfo : LockInfo C, linfo = (storedLock obj).trim now ∧ lockType ≠ .none ∧
      (linfo.lockers ≠ [] → tag = linfo.tag) ∧ ((linfo.lockers.filter fun l => l.id ≠ id) ≠ [] →
        lockType ≠ .exclusive ∧ linfo.lockType = lockType) ∧
      obj' = some (some ⟨⟨id, expirationOf later duration⟩ ::
        linfo.lockers.filter fun l => l.id ≠ id, lockType, tag⟩) := by
  have hread : (match readLock now obj with
      | .ok linfo => linfo
      | .error _ => {}) = (storedLock obj).trim now := by
    cases obj <;> rfl
  simp only [lockObj, hread] at h
  refine ⟨_, rfl, ?_⟩
  split_ifs at h with hnone htag hexists hbusy
  rw [not_and_or, not_not, not_not] at htag
  rw [not_and_or, not_not, not_or, not_not] at hbusy
  exact ⟨hnone, htag.resolve_left, hbusy.resolve_left, (Except.ok.inj h).symm⟩

theorem removeLock_eq_ok (h : removeLock id now obj = .ok obj') :
    obj' = some (some { (storedLock obj).trim now with
      lockers := ((storedLock obj).trim now).lockers.filter fun l => l.id ≠ id }) := by
  cases obj with
  | none => cases h
  | some attr =>
    simp only [removeLock, readLock, bind, Except.bind] at h
    split_ifs at h
    exact (Except.ok.inj h).symm

theorem checkLocked_eq_ok {l : Locker C} : checkLocked id now lockType tag obj = .ok (linfo, l) ↔
    lockType ≠ .none ∧ obj ≠ none ∧ linfo = (storedLock obj).trim now ∧
      linfo.lockType = lockType ∧ linfo.tag = tag ∧ linfo.lockers.find? (·.id = id) = some l := by
  by_cases hnone : lockType = .none
  · simp [checkLocked, hnone, bind, Except.bind, throw, throwThe, MonadExceptOf.throw]
  cases obj with
  | none => simp [checkLocked, hnone, readLock, bind, Except.bind]
  | some attr =>
    simp only [checkLocked, hnone, if_false, readLock, bind, Except.bind, pure, Except.pure, throw,
      throwThe, MonadExceptOf.throw]
    generalize (storedLock (some attr)).trim now = trimmed
    cases hfind : trimmed.lockers.find? (·.id = id) with
    | none => grind
    | some k => grind

theorem setCookie_eq_ok {newId : LockerId C}
    (h : setCookie id newId now lockType tag obj = .ok obj') :
    ∃ linfo l, checkLocked id now lockType tag obj = .ok (linfo, l) ∧
      newId ∉ linfo.lockers.map (·.id) ∧ obj' = some (some { linfo with
        lockers := ⟨newId, l.expiration⟩ :: linfo.lockers.filter fun l => l.id ≠ id }) := by
  rw [setCookie] at h
  cases hcheck : checkLocked id now lockType tag obj with
  | error err =>
    rw [hcheck] at h
    cases h
  | ok found =>
    simp only [hcheck, bind, Except.bind] at h
    split_ifs at h with hnew
    exact ⟨_, _, rfl, hnew, (Except.ok.inj h).symm⟩

/-! ## Every call keeps them in step -/

/-- A locker is added that the others tolerate. -/
theorem Tracks.insert {e : Utime} (h : Tracks now linfo held) (hle : now ≤ later)
    (hfresh : ∀ l ∈ linfo.lockers, l.id ≠ id) (hnone : lockType ≠ .none)
    (hothers : linfo.lockers ≠ [] →
      lockType ≠ .exclusive ∧ linfo.lockType = lockType ∧ linfo.tag = tag) :
    Tracks later ⟨⟨id, e⟩ :: linfo.lockers, lockType, tag⟩
      (update held id (some ⟨lockType, tag, e⟩)) := by
  refine ⟨fun id' g hlater => ?_, fun id' g hg => ?_, fun hex l hl l' hl' _ _ => ?_⟩
  · by_cases hid : id' = id
    · subst hid
      obtain ⟨-, -⟩ := g
      rw [update_self]
      grind
    · rw [update_of_ne hid, h.held_iff id' g (hlater.mono hle)]
      grind
  · have := h.typed id' g
    grind
  · have hnil : linfo.lockers = [] := by
      by_contra hne
      exact (hothers hne).1 hex
    rw [hnil] at hl hl'
    rw [mem_singleton.1 hl, mem_singleton.1 hl']

theorem Tracks.erase (h : Tracks now linfo held) (id : LockerId C) :
    Tracks now { linfo with lockers := linfo.lockers.filter fun l => l.id ≠ id }
      (update held id none) := by
  refine ⟨fun id' g hlive => ?_, fun id' g hg => ?_,
    fun hex l hl l' hl' => h.alone hex l (mem_filter.1 hl).1 l' (mem_filter.1 hl').1⟩
  · have := h.held_iff id' g hlive
    grind
  · have := h.typed id' g
    grind

theorem Tracks.lockObj {duration : Utime} {renew : Bool} (h : Tracks now (storedLock obj) held)
    (hle : now ≤ later) (hfits : Fits later duration)
    (hlock : lockObj id now later lockType duration renew tag obj = .ok obj') :
    Tracks later (storedLock obj')
      (update held id (some ⟨lockType, tag, lastsUntil later duration⟩)) := by
  obtain ⟨-, rfl, hnone, htag, hothers, rfl⟩ := lockObj_eq_ok hlock
  rw [hfits.expirationOf, ← update_idem (a := id) none _ held]
  refine (h.trim.erase id).insert hle (fun l hl => by simpa using (mem_filter.1 hl).2) hnone ?_
  exact fun hne => ⟨(hothers hne).1, (hothers hne).2, (htag fun hnil => hne (by simp [hnil])).symm⟩

theorem Tracks.setCookie {newId : LockerId C} (h : Tracks now (storedLock obj) held)
    (hset : setCookie id newId now lockType tag obj = .ok obj') :
    Tracks now (storedLock obj') (update (update held id none) newId (held id)) := by
  obtain ⟨linfo, l, hcheck, hnew, rfl⟩ := setCookie_eq_ok hset
  obtain ⟨hnone, -, rfl, rfl, rfl, hfind⟩ := checkLocked_eq_ok.1 hcheck
  have hl := mem_of_find?_eq_some hfind
  obtain rfl : l.id = id := by simpa using find?_some hfind
  rw [(h.trim.held_iff l.id ⟨_, _, l.expiration⟩ (mem_trim.1 hl).2).2 ⟨hl, rfl, rfl⟩]
  refine (h.trim.erase l.id).insert le_rfl (fun k hk hk' => hnew ?_) hnone fun hne => ⟨?_, rfl, rfl⟩
  · exact mem_map.2 ⟨k, (mem_filter.1 hk).1, hk'⟩
  · -- an exclusive locker is alone
    intro hex
    refine hne (filter_eq_nil_iff.2 fun k hk => ?_)
    simpa using h.trim.alone hex k hk l hl (mem_trim.1 hk).2 (mem_trim.1 hl).2

/-- Every call keeps the lockers and the holders in step. -/
theorem LockRun.tracks {clock : Utime} (h : LockRun Fits clock obj held) :
    Tracks clock (storedLock obj) held := by
  induction h with
  | start clock h =>
    rw [storedLock, h]
    exact ⟨fun _ _ _ => by simp, nofun, nofun⟩
  | wait h hle ih => exact ih.mono hle
  | lock h hle hfits hok ih => exact ih.lockObj hle hfits hok
  | remove h hok ih =>
    rw [removeLock_eq_ok hok]
    exact ih.trim.erase _
  | setCookie h hok ih => exact ih.setCookie hok

/-- The locker was granted the lock and has not expired. -/
def Holders.Holds (held : Holders C) (now : Utime) (id : LockerId C) (g : Grant) : Prop :=
  held id = some g ∧ Live now g.expiration

/-- **Advisory locks exclude each other.**  At every time after some calls whose expirations fit
into the words of a time, the lockers that have not expired are the holders; they share one type
and one tag, and an exclusive one is alone.  An exclusive lock is granted only if nobody else holds
it, and `assert_locked` succeeds for the holders. -/
theorem locks_exclude {clock : Utime} (h : LockRun Fits clock obj held) (now : Utime)
    (hnow : clock ≤ now) :
    (∀ l, l ∈ (storedLock obj).lockers ∧ Live now l.expiration ↔
      ∃ g, held.Holds now l.id g ∧ g.expiration = l.expiration) ∧
    (∀ id id' g g', held.Holds now id g → held.Holds now id' g' →
      g.lockType = g'.lockType ∧ g.tag = g'.tag ∧ (g.lockType = .exclusive → id = id')) ∧
    (∀ id later duration renew tag obj',
      lockObj id now later .exclusive duration renew tag obj = .ok obj' →
      ∀ id' ≠ id, ∀ g, ¬ held.Holds now id' g) ∧
    ∀ id lockType tag, assertLocked id now lockType tag obj = .ok () ↔
      ∃ e, held.Holds now id ⟨lockType, tag, e⟩ := by
  have htracks := h.tracks.mono hnow
  have hholds : ∀ {id g}, held.Holds now id g → ⟨id, g.expiration⟩ ∈ (storedLock obj).lockers ∧
      g.lockType = (storedLock obj).lockType ∧ g.tag = (storedLock obj).tag :=
    fun hg => (htracks.held_iff _ _ hg.2).1 hg.1
  refine ⟨fun l => ⟨fun ⟨hl, hlive⟩ => ?_, ?_⟩, fun id id' g g' hg hg' => ?_,
    fun id later duration renew tag obj' hlock id' hid g hg => ?_, fun id lockType tag => ?_⟩
  · exact ⟨⟨_, _, l.expiration⟩, ⟨(htracks.held_iff l.id _ hlive).2 ⟨hl, rfl, rfl⟩, hlive⟩, rfl⟩
  · obtain ⟨id, e⟩ := l
    rintro ⟨g, hg, rfl⟩
    exact ⟨(hholds hg).1, hg.2⟩
  · obtain ⟨hmem, htype, htag⟩ := hholds hg
    obtain ⟨hmem', htype', htag'⟩ := hholds hg'
    exact ⟨htype.trans htype'.symm, htag.trans htag'.symm,
      fun hex => htracks.alone (htype ▸ hex) _ hmem _ hmem' hg.2 hg'.2⟩
  · obtain ⟨linfo, rfl, -, -, hothers, -⟩ := lockObj_eq_ok hlock
    have hmem := mem_trim.2 ⟨(hholds hg).1, hg.2⟩
    exact (hothers (ne_nil_of_mem (mem_filter.2 ⟨hmem, decide_eq_true hid⟩))).1 rfl
  · have hcheck : assertLocked id now lockType tag obj = .ok () ↔
        ∃ linfo l, checkLocked id now lockType tag obj = .ok (linfo, l) := by
      rw [assertLocked]
      cases checkLocked id now lockType tag obj with
      | error err => simp [bind, Except.bind]
      | ok found => exact ⟨fun _ => ⟨_, _, rfl⟩, fun _ => rfl⟩
    simp only [hcheck, checkLocked_eq_ok]
    constructor
    · rintro ⟨_, l, -, -, rfl, rfl, rfl, hfind⟩
      obtain ⟨hl, hlive⟩ := mem_trim.1 (mem_of_find?_eq_some hfind)
      have hid : l.id = id := by simpa using find?_some hfind
      exact ⟨l.expiration, hid ▸ (htracks.held_iff _ _ hlive).2 ⟨hl, rfl, rfl⟩, hlive⟩
    · rintro ⟨e, hg⟩
      obtain ⟨hmem, htype, htag⟩ := hholds hg
      have hsome : obj ≠ none := by
        rintro rfl
        cases hmem
      obtain ⟨l, hl⟩ : ∃ l, ((storedLock obj).trim now).lockers.find? (·.id = id) = some l :=
        Option.isSome_iff_exists.1 (find?_isSome.2 ⟨_, mem_trim.2 ⟨hmem, hg.2⟩, by simp⟩)
      exact ⟨_, l, htracks.typed _ _ hg.1, hsome, rfl, htype.symm, htag.symm, hl⟩

/-- Client 1 has the lock alone until second 11; then clients 2 and 3 share it, and client 3
changes its cookie.  In second 14 these two are the holders, whom no exclusive lock displaces. -/
theorem locks_exclude_three : ∃ (obj : LockObject ℕ) (held : Holders ℕ),
    LockRun Fits (toLex (13, 0)) obj held ∧
    (∀ id g, held.Holds (toLex (14, 0)) id g → g.lockType = .shared ∧ g.tag = "t") ∧
    (∃ e, held.Holds (toLex (14, 0)) (2, "c") ⟨.shared, "t", e⟩) ∧
    (∃ e, held.Holds (toLex (14, 0)) (3, "d") ⟨.shared, "t", e⟩) ∧
    (∀ e, ¬ held.Holds (toLex (14, 0)) (3, "c") ⟨.shared, "t", e⟩) ∧
    ∀ obj', lockObj (1, "c") (toLex (14, 0)) (toLex (14, 0)) .exclusive (toLex (5, 0)) false "t"
      obj ≠ .ok obj' := by
  have hone : lockObj ((1, "c") : LockerId ℕ) (toLex (1, 0)) (toLex (1, 0)) .exclusive
    (toLex (10, 0)) false "s" none = .ok _ := rfl
  have hrun := ((LockRun.start (toLex (1, 0)) rfl).lock le_rfl (by decide : Fits _ _) hone).wait
    (by decide : _ ≤ toLex (12, 0))
  have hshared := (hrun.lock le_rfl (by decide) (rfl : lockObj (2, "c") _ (toLex (12, 0)) .shared
    (toLex (0, 0)) false "t" _ = .ok _)).lock (by decide) (by decide)
    (rfl : lockObj (3, "c") _ (toLex (13, 0)) .shared (toLex (5, 0)) false "t" _ = .ok _)
  have hend := hshared.setCookie
    (rfl : setCookie (3, "c") (3, "d") _ .shared "t" _ = .ok _)
  obtain ⟨-, hshare, hexcl, hassert⟩ := locks_exclude hend (toLex (14, 0)) (by decide)
  have htwo' := (hassert (2, "c") .shared "t").1 rfl
  refine ⟨_, _, hend, fun id g hg => ?_, htwo', (hassert (3, "d") .shared "t").1 rfl, ?_, ?_⟩
  · obtain ⟨e, he⟩ := htwo'
    exact ⟨(hshare _ _ _ _ hg he).1, (hshare _ _ _ _ hg he).2.1⟩
  · exact fun e he => nomatch (hassert (3, "c") .shared "t").2 ⟨e, he⟩
  · obtain ⟨e, he⟩ := htwo'
    exact fun obj' hok => hexcl _ _ _ _ _ _ hok (2, "c") (by decide) _ he

/-- A lock for 4294967295 seconds, the longest duration, is stored as expired a second ago: the
next client is granted the exclusive lock while the first still holds it. -/
theorem long_lock_expired : ∃ (obj : LockObject ℕ) (held : Holders ℕ),
    LockRun (fun _ _ => True) (toLex (1500000000, 0)) obj held ∧
    held.Holds (toLex (1500000000, 0)) (1, "c")
      ⟨.exclusive, "t", toLex (5794967295, 0)⟩ ∧
    ∃ obj', lockObj (2, "c") (toLex (1500000000, 0)) (toLex (1500000000, 0)) .exclusive
      (toLex (0, 0)) false "t" obj = .ok obj' := by
  have hstored : expirationOf (toLex (1500000000, 0)) (toLex (4294967295, 0)) =
    toLex (1499999999, 0) := by decide +kernel
  have hone : lockObj ((1, "c") : LockerId ℕ) (toLex (1500000000, 0)) (toLex (1500000000, 0))
    .exclusive (toLex (4294967295, 0)) false "t" none = .ok (some (some ⟨[⟨(1, "c"), _⟩], _, _⟩)) :=
    rfl
  rw [hstored] at hone
  refine ⟨_, _, (LockRun.start _ rfl).lock le_rfl trivial hone, ⟨rfl, ?_⟩, _, rfl⟩
  decide +kernel

end Ceph.Cls
