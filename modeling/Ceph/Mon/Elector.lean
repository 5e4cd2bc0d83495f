import Mathlib
import Ceph.Lib.Loop
import Ceph.Lib.Network

/-!
# The monitors' leader election

`Elector` and the parts of `Monitor` it works with.  Monitors are numbered by rank; a
lower rank wins.  A monitor that starts an election proposes itself to all others and
collects acknowledgements; a monitor that hears a proposal of a better rank defers to it.
With all acknowledgements in, or with a majority of them when the timer expires, it
declares victory and tells its quorum.

* `Monitor` — one monitor's election state; `start`, `defer`, `expire`, `victory`,
  `handlePropose`, `handleAck`, `handleVictory`, `dispatch` as the code has them.
* `elector` — the monitors of one fixed map over a network.
* `elector_keeps` — what holds of every monitor and every message of every run.
-/

namespace Ceph.Mon

open Loop Option

/-! ## Messages and state -/

/-- `elector_features_t`: cluster features and monitor features, one bit each. -/
structure Features where
  clusterFeatures : BitVec 64
  monFeatures : BitVec 64
  deriving DecidableEq

/-- What is fixed in a run with one monitor map: what each monitor's code supports, the
features of each connection (of the peer, seen by the first), what the map requires, and
`CEPH_FEATURES_ALL`. -/
structure Cluster (n : ℕ) where
  supported : Fin n → BitVec 64
  connection : Fin n → Fin n → BitVec 64
  requiredMonFeatures : BitVec 64
  featuresAll : BitVec 64

/-- `MMonElection`, by its `op`. -/
inductive Message (n : ℕ) where
  | propose (epoch : ℕ) (monFeatures : BitVec 64)
  | ack (epoch : ℕ) (monFeatures : BitVec 64)
  | nak (epoch : ℕ) (quorumFeatures monFeatures : BitVec 64)
  | victory (epoch : ℕ) (quorum : Finset (Fin n)) (features : Features)
  deriving DecidableEq

inductive MonState where
  | probing
  | synchronizing
  | electing
  | leader
  | peon
  | shutdown
  deriving DecidableEq

/-- A monitor and its elector.  Epochs are unsigned numbers of 32 bits, odd while an
election is on.  `electionEpoch` is the epoch in the store, `leaderAcked` is empty where
the code has -1, `won` records the epochs the monitor declared victory with. -/
structure Monitor (n : ℕ) where
  epoch : ℕ
  participating : Bool
  electingMe : Bool
  ackedMe : Fin n → Option Features
  leaderAcked : Option (Fin n)
  expireEvent : Bool
  electionEpoch : ℕ
  state : MonState
  quorum : Finset (Fin n)
  leader : Option (Fin n)
  quorumFeatures : Features
  hasEverJoined : Bool
  requiredFeatures : BitVec 64
  won : List ℕ
  deriving DecidableEq

open Monitor

/-- A monitor's messages with their receivers. -/
abbrev Out (n : ℕ) := List (Fin n × Message n)

variable {n : ℕ}

/-- `mon_feature_t::contains_all`. -/
def containsAll (features other : BitVec 64) : Bool := features &&& other == other

/-- The test for a missing cluster feature. -/
def lacksFeatures (required features : BitVec 64) : Bool :=
  (required ^^^ features) &&& required != 0

/-- `epoch + 1` in 32 bits. -/
def nextEpoch (epoch : ℕ) : ℕ := (epoch + 1) % 2 ^ 32

/-! ## Epochs -/

variable (s : Monitor n)

/-- `Elector::init`. -/
def Monitor.init : Monitor n :=
  { s with epoch := if s.electionEpoch = 0 then 1 else s.electionEpoch }

/-- `Monitor::_reset` and the state both ways into an election set. -/
def Monitor.joinElection : Monitor n := { s with quorum := ∅, state := .electing }

/-- `Elector::bump_epoch`. -/
def Monitor.bumpEpoch (e : ℕ) : Option (Monitor n) := do
  assert (s.epoch ≤ e)
  some { { s with epoch := e, electionEpoch := e }.joinElection with
    electingMe := false, ackedMe := fun _ => none }

/-! ## Starting an election, deferring, winning -/

/-- A message to every other monitor. -/
def bcast (me : Fin n) (m : Message n) : Out n :=
  ((List.finRange n).filter fun i => i ≠ me).map fun i => (i, m)

variable (c : Cluster n)

namespace Monitor

/-- The state `start` leaves, once the epoch is that of an election. -/
def elect (me : Fin n) (s : Monitor n) : Monitor n :=
  { s with
    electingMe := true
    ackedMe := Function.update (fun _ => none) me (some ⟨c.featuresAll, c.supported me⟩)
    leaderAcked := none
    expireEvent := true }

/-- `acked_me.clear()`. -/
def clearAcks : Monitor n := { s with ackedMe := fun _ => none }

/-- An odd epoch: an election cycle. -/
def bumpToOdd : Option (Monitor n) :=
  if s.epoch % 2 = 0 then s.bumpEpoch (nextEpoch s.epoch) else some s

/-- `Elector::start`. -/
def start (me : Fin n) (s : Monitor n) : Option (Monitor n × Out n) :=
  if s.participating then do
    let s ← s.clearAcks.init.bumpToOdd
    some (s.elect c me, bcast me (.propose s.epoch (c.supported me)))
  else some (s, [])

/-- `Monitor::start_election`. -/
def startElection (me : Fin n) (s : Monitor n) :
    Option (Monitor n × Out n) := s.joinElection.start c me

/-- `Elector::defer`. -/
def defer (me who : Fin n) (s : Monitor n) : Monitor n × Out n :=
  ({ s with
      ackedMe := if s.electingMe then fun _ => none else s.ackedMe
      electingMe := false
      leaderAcked := some who
      expireEvent := true }, [(who, .ack s.epoch (c.supported me))])

/-- The monitors that acknowledged, this one included. -/
def acked : Finset (Fin n) :=
  Finset.univ.filter fun i => (s.ackedMe i).isSome

/-- The features all members of the quorum have. -/
def commonFeatures (me : Fin n) (s : Monitor n) : Features :=
  (List.finRange n).foldl
    (fun acc i => match s.ackedMe i with
      | some f => ⟨acc.clusterFeatures &&& f.clusterFeatures, acc.monFeatures &&& f.monFeatures⟩
      | none => acc)
    ⟨c.featuresAll, c.supported me⟩

/-- `Monitor::win_election`. -/
def winElection (me : Fin n) (quorum : Finset (Fin n)) (features : Features)
    (s : Monitor n) : Option (Monitor n) := do
  assert (s.state = .electing)
  some { s with
    state := .leader, leader := some me, quorum := quorum, quorumFeatures := features
    won := s.epoch :: s.won }

/-- `Elector::victory`. -/
def victory (c : Cluster n) (me : Fin n) (s : Monitor n) : Option (Monitor n × Out n) := do
  let features := s.commonFeatures c me
  let quorum := s.acked
  assert (s.epoch % 2 = 1)
  let s ← { s with leaderAcked := none, electingMe := false, expireEvent := false }.bumpEpoch
    (nextEpoch s.epoch)
  let won ← s.winElection me quorum features
  some (won, ((List.finRange n).filter fun i => i ∈ quorum ∧ i ≠ me).map fun i =>
    (i, .victory s.epoch quorum features))

/-- `Monitor::win_standalone_election`. -/
def winStandaloneElection (me : Fin n) (s : Monitor n) : Option (Monitor n × Out n) := do
  let s ← s.init.bumpEpoch (nextEpoch s.init.epoch)
  let s ← s.winElection me {me} ⟨c.featuresAll, c.supported me⟩
  some (s, [])

/-- `Monitor::bootstrap`, with the rank unchanged. -/
def bootstrap (me : Fin n) (s : Monitor n) : Option (Monitor n × Out n) :=
  let s := { s with state := .probing, quorum := ∅ }
  if n = 1 then s.winStandaloneElection c me else some (s, [])

/-- `Elector::expire`. -/
def expire (me : Fin n) (s : Monitor n) : Option (Monitor n × Out n) :=
  if s.electingMe ∧ n / 2 < s.acked.card then s.victory c me
  else if s.hasEverJoined then s.start c me
  else s.bootstrap c me

/-! ## Messages -/

/-- `Elector::nak_old_peer`. -/
def nakOldPeer (src : Fin n) (epoch : ℕ) (s : Monitor n) :
    Fin n × Message n := (src, .nak epoch s.requiredFeatures c.requiredMonFeatures)

end Monitor

variable (me src : Fin n)

/-- The end of `handle_propose`: who would win, the proposer or this monitor. -/
def Monitor.weigh (s : Monitor n) : Option (Monitor n × Out n) :=
  if me < src then
    match s.leaderAcked with
    | some l => do
        assert (l < src)
        some (s, [])
    | none => if s.electingMe then some (s, []) else s.startElection c me
  else
    match s.leaderAcked with
    | some l => if src < l ∨ l = src then some (s.defer c me src) else some (s, [])
    | none => some (s.defer c me src)

/-- `Elector::handle_propose`. -/
def Monitor.handlePropose (epoch : ℕ) (monFeatures : BitVec 64) (s : Monitor n) :
    Option (Monitor n × Out n) := do
  assert (epoch % 2 = 1)
  if lacksFeatures s.requiredFeatures (c.connection me src) then
    some (s, [s.nakOldPeer c src epoch])
  else if !containsAll monFeatures c.requiredMonFeatures then
    -- the code sends the nak here and goes on to the comparison of ranks
    let r ← s.weigh c me src
    some (r.1, s.nakOldPeer c src epoch :: r.2)
  else if s.epoch < epoch then
    let s ← s.bumpEpoch epoch
    s.weigh c me src
  else if epoch < s.epoch then
    if s.epoch % 2 = 0 ∧ src ∉ s.quorum then
      let r ← s.startElection c me
      let r' ← r.1.weigh c me src
      some (r'.1, r.2 ++ r'.2)
    else some (s, [])
  else s.weigh c me src

/-- The state with `src` among those that acknowledged. -/
def Monitor.countAck (monFeatures : BitVec 64) (s : Monitor n) : Monitor n :=
  { s with ackedMe := Function.update s.ackedMe src (some ⟨c.connection me src, monFeatures⟩) }

/-- `Elector::handle_ack`. -/
def Monitor.handleAck (epoch : ℕ) (monFeatures : BitVec 64) (s : Monitor n) :
    Option (Monitor n × Out n) := do
  assert (epoch % 2 = 1)
  if s.epoch < epoch then
    let s ← s.bumpEpoch epoch
    s.start c me
  else
    assert (epoch = s.epoch)
    if lacksFeatures s.requiredFeatures (c.connection me src) then some (s, [])
    else if !containsAll monFeatures c.requiredMonFeatures then some (s, [])
    else if s.electingMe then
      let s := s.countAck c me src monFeatures
      if s.acked.card = n then s.victory c me else some (s, [])
    else
      assert s.leaderAcked.isSome
      some (s, [])

/-- `Monitor::lose_election`. -/
def Monitor.loseElection (quorum : Finset (Fin n)) (l : Fin n) (features : Features)
    (s : Monitor n) : Monitor n :=
  { s with state := .peon, leader := some l, quorum := quorum, quorumFeatures := features }

/-- `Elector::handle_victory`. -/
def Monitor.handleVictory (epoch : ℕ) (quorum : Finset (Fin n)) (features : Features)
    (s : Monitor n) : Option (Monitor n × Out n) := do
  assert (src < me)
  assert (epoch % 2 = 0)
  let s := { s with leaderAcked := none }
  if epoch ≠ nextEpoch s.epoch then
    let s ← s.bumpEpoch epoch
    s.start c me
  else
    let s ← s.bumpEpoch epoch
    some ({ s.loseElection quorum src features with expireEvent := false }, [])

/-- `Elector::dispatch`, for a message of the same monitor map.  A monitor that gets a
nak exits. -/
def Monitor.dispatch (m : Message n) (s : Monitor n) : Option (Monitor n × Out n) :=
  if s.participating then
    match m with
    | .propose epoch monFeatures => s.handlePropose c me src epoch monFeatures
    | .ack epoch monFeatures =>
      if epoch < s.epoch then some (s, []) else s.handleAck c me src epoch monFeatures
    | .victory epoch quorum features =>
      if epoch < s.epoch then some (s, []) else s.handleVictory c me src epoch quorum features
    | .nak epoch _ _ => if epoch < s.epoch then some (s, []) else none
  else some (s, [])

/-! ## The monitors of one map -/

/-- What the rest of the monitor calls: an election, as after a probe; the commands
`quorum enter` and `quorum exit`; a new start of the monitor; a synchronization; the
expired timer; the first quorum the monitor was part of; a change of the features it
requires. -/
inductive Call where
  | startElection
  | quorumEnter
  | quorumExit
  | bootstrap
  | syncStart
  | expire
  | joined
  | require (features : BitVec 64)
  deriving DecidableEq

namespace Monitor

/-- A call, for a monitor that runs. -/
def perform (me : Fin n) (s : Monitor n) : Call → Option (Monitor n × Out n)
  | .startElection => s.startElection c me
  | .quorumEnter => { s with participating := true }.startElection c me
  | .quorumExit => do
      let r ← s.startElection c me
      some ({ r.1 with participating := false }, r.2)
  | .bootstrap => s.bootstrap c me
  | .syncStart => some ({ s with state := .synchronizing }, [])
  | .expire =>
    if s.expireEvent then { s with expireEvent := false }.expire c me else some (s, [])
  | .joined => some ({ s with hasEverJoined := true }, [])
  | .require features => some ({ s with requiredFeatures := features }, [])

/-- A monitor whose assertion failed, or that exited, is down from then on. -/
def settle : Option (Monitor n × Out n) → Monitor n × Out n
  | some r => r
  | none => ({ s with state := .shutdown }, [])

/-- `Monitor::dispatch_op` for an election message. -/
def receive (m : Message n) (s : Monitor n) : Monitor n × Out n :=
  if s.state = .probing ∨ s.state = .synchronizing ∨ s.state = .shutdown then (s, [])
  else s.settle (s.dispatch c me src m)

/-- A call from the monitor's surroundings. -/
def call (me : Fin n) (k : Call) (s : Monitor n) : Monitor n × Out n :=
  if s.state = .shutdown then (s, []) else s.settle (s.perform c me k)

/-- A monitor as it is constructed, on its store. -/
structure Fresh (s : Monitor n) : Prop where
  epoch : s.epoch = 0
  participating : s.participating = true
  electingMe : s.electingMe = false
  ackedMe : s.ackedMe = fun _ => none
  leaderAcked : s.leaderAcked = none
  expireEvent : s.expireEvent = false
  electionEpoch : s.electionEpoch < 2 ^ 32
  state : s.state = .probing
  quorum : s.quorum = ∅
  won : s.won = []

/-- A monitor on an empty store. -/
def fresh (n : ℕ) : Monitor n where
  epoch := 0
  participating := true
  electingMe := false
  ackedMe := fun _ => none
  leaderAcked := none
  expireEvent := false
  electionEpoch := 0
  state := .probing
  quorum := ∅
  leader := none
  quorumFeatures := ⟨0, 0⟩
  hasEverJoined := false
  requiredFeatures := 0
  won := []

theorem fresh_fresh (n : ℕ) : (fresh n).Fresh :=
  ⟨rfl, rfl, rfl, rfl, rfl, rfl, Nat.two_pow_pos 32, rfl, rfl, rfl⟩

end Monitor

/-- The monitors of a map of `n`. -/
def elector : Network.Protocol (Fin n) (Monitor n) (Message n) Call where
  initial := fun _ s => s.Fresh
  receive := receive c
  call := fun i k => call c i k

/-! ## Invariants -/

/-- A monitor that election messages reach. -/
def Monitor.Active : Prop :=
  ¬ (s.state = .probing ∨ s.state = .synchronizing ∨ s.state = .shutdown)

/-- What holds of every monitor at every time: it defers to better ranks only, worse ranks
acknowledge it, epochs have 32 bits, and it wins only where the ranks from its own on are
a majority. -/
structure Monitor.Base (me : Fin n) (s : Monitor n) : Prop where
  leaderAcked_le : ∀ l, s.leaderAcked = some l → l ≤ me
  le_acked : ∀ i, (s.ackedMe i).isSome → me ≤ i
  epoch_lt : s.epoch < 2 ^ 32
  electionEpoch_lt : s.electionEpoch < 2 ^ 32
  won : s.won ≠ [] → n / 2 < n - me

/-- A monitor that takes part in elections works with the epoch of its store. -/
structure Monitor.Sound (me : Fin n) (s : Monitor n) : Prop extends s.Base me where
  loaded : s.Active → s.participating = true → s.epoch = s.init.epoch

/-- What holds of every message from `src` to `dst`. -/
def Message.Sound (src dst : Fin n) : Message n → Prop
  | .propose epoch _ => src ≠ dst ∧ epoch % 2 = 1 ∧ epoch < 2 ^ 32
  | .ack epoch _ => src ≠ dst ∧ dst ≤ src ∧ epoch < 2 ^ 32
  | .nak _ _ _ => src ≠ dst
  | .victory epoch _ _ => src ≠ dst ∧ epoch < 2 ^ 32

/-- A result whose state and messages are sound. -/
def SoundResult (me : Fin n) (r : Monitor n × Out n) : Prop :=
  r.1.Sound me ∧ ∀ p ∈ r.2, p.2.Sound me p.1

variable {c : Cluster n} {me src : Fin n} {s s' : Monitor n} {r : Monitor n × Out n} {e : ℕ}

theorem Monitor.Fresh.sound (h : s.Fresh) : s.Sound me where
  leaderAcked_le := by simp [h.leaderAcked]
  le_acked := by simp [h.ackedMe]
  epoch_lt := by simp [h.epoch]
  electionEpoch_lt := h.electionEpoch
  won := by simp [h.won]
  loaded := fun hact => absurd (.inl h.state) hact

/-- What a monitor's other fields hold does not matter. -/
theorem Monitor.Base.of_eq (hb : s.Base me) (hl : s'.leaderAcked = s.leaderAcked)
    (ha : s'.ackedMe = s.ackedMe) (he : s'.epoch = s.epoch)
    (hee : s'.electionEpoch = s.electionEpoch) (hw : s'.won = s.won) : s'.Base me :=
  ⟨hl ▸ hb.leaderAcked_le, ha ▸ hb.le_acked, he ▸ hb.epoch_lt, hee ▸ hb.electionEpoch_lt,
    hw ▸ hb.won⟩

theorem nextEpoch_lt (e : ℕ) : nextEpoch e < 2 ^ 32 := Nat.mod_lt _ (by norm_num)

theorem Monitor.init_pos (s : Monitor n) : 0 < s.init.epoch := by
  simp only [init]
  split_ifs with h
  · exact Nat.one_pos
  · exact Nat.pos_of_ne_zero h

theorem Monitor.Base.init (h : s.Base me) : s.init.Base me := by
  refine ⟨h.leaderAcked_le, h.le_acked, ?_, h.electionEpoch_lt, h.won⟩
  simp only [Monitor.init]
  split_ifs
  · norm_num
  · exact h.electionEpoch_lt

/-- **What `bump_epoch` does.** -/
theorem Monitor.bumpEpoch_eq_some : s.bumpEpoch e = some s' ↔ s.epoch ≤ e ∧
    s' = { s with
      epoch := e, electionEpoch := e, quorum := ∅, state := .electing, electingMe := false
      ackedMe := fun _ => none } := by
  rw [bumpEpoch, assert_bind_eq_some, some_inj, eq_comm]
  rfl

theorem Monitor.Base.bumpEpoch (h : s.Base me) (he : e < 2 ^ 32) (hpos : 0 < s.epoch ∨ 0 < e)
    (hb : s.bumpEpoch e = some s') : s'.Sound me := by
  obtain ⟨hle, rfl⟩ := Monitor.bumpEpoch_eq_some.1 hb
  refine ⟨⟨h.leaderAcked_le, by simp, he, he, h.won⟩, fun _ _ => ?_⟩
  have hne : e ≠ 0 := by omega
  simp [Monitor.init, hne]

theorem Monitor.Sound.elect (h : s.Sound me) : (s.elect c me).Sound me := by
  refine ⟨⟨by simp [Monitor.elect], fun i hi => ?_, h.epoch_lt, h.electionEpoch_lt, h.won⟩,
    h.loaded⟩
  by_cases him : i = me
  · exact him.ge
  · simp [Monitor.elect, him] at hi

theorem bcast_sound (hodd : e % 2 = 1) (hlt : e < 2 ^ 32) (f : BitVec 64) :
    ∀ p ∈ bcast me (.propose e f), p.2.Sound me p.1 := by
  intro p hp
  simp only [bcast, List.mem_map, List.mem_filter, decide_eq_true_eq] at hp
  obtain ⟨i, ⟨-, hne⟩, rfl⟩ := hp
  exact ⟨fun h => hne h.symm, hodd, hlt⟩

namespace Monitor

/-- The epoch an election starts with: that of the store, or the odd one after it. -/
def startEpoch (s : Monitor n) : ℕ :=
  if s.init.epoch % 2 = 0 then s.init.epoch + 1 else s.init.epoch

/-- What `start` leaves when it starts an election. -/
structure Started (me : Fin n) (s s' : Monitor n) : Prop where
  sound : s'.Sound me
  epoch : s'.epoch = s.startEpoch
  odd : s'.epoch % 2 = 1
  electingMe : s'.electingMe = true
  leaderAcked : s'.leaderAcked = none

theorem Base.clearAcks (hb : s.Base me) : s.clearAcks.Base me :=
  ⟨hb.leaderAcked_le, by simp [Monitor.clearAcks], hb.epoch_lt, hb.electionEpoch_lt, hb.won⟩

theorem bumpToOdd_spec (hs : s.Sound me) (hpos : 0 < s.epoch) :
    ∃ s', s.bumpToOdd = some s' ∧ s'.Sound me ∧ s'.epoch % 2 = 1 ∧
      s'.epoch = if s.epoch % 2 = 0 then s.epoch + 1 else s.epoch := by
  unfold bumpToOdd
  split_ifs with heven
  · -- the epoch after an even one of 32 bits does not wrap
    have hnext : nextEpoch s.epoch = s.epoch + 1 :=
      Nat.mod_eq_of_lt (by have := hs.epoch_lt; omega)
    obtain ⟨s', hs'⟩ : ∃ s', s.bumpEpoch (nextEpoch s.epoch) = some s' :=
      ⟨_, bumpEpoch_eq_some.2 ⟨by rw [hnext]; exact Nat.le_succ _, rfl⟩⟩
    have hepoch : s'.epoch = s.epoch + 1 := by
      obtain ⟨-, rfl⟩ := bumpEpoch_eq_some.1 hs'
      exact hnext
    exact ⟨s', hs', hs.toBase.bumpEpoch (nextEpoch_lt _) (.inl hpos) hs', by omega, hepoch⟩
  · exact ⟨s, rfl, hs, by omega, rfl⟩

/-- **What `start` does**: the monitor proposes itself to all others. -/
theorem start_spec (c : Cluster n) (hp : s.participating = true) (hb : s.Base me) :
    ∃ s', s.start c me = some (s', bcast me (.propose s'.epoch (c.supported me))) ∧
      s.Started me s' := by
  have hsound : s.clearAcks.init.Sound me := ⟨hb.clearAcks.init, fun _ _ => rfl⟩
  obtain ⟨s₁, hs₁, hsound₁, hodd, hepoch⟩ := bumpToOdd_spec hsound (init_pos _)
  refine ⟨s₁.elect c me, ?_, hsound₁.elect, hepoch, hodd, rfl, rfl⟩
  rw [start, if_pos hp, hs₁]
  rfl

theorem start_of_not (hp : s.participating = false) : s.start c me = some (s, []) := by
  rw [start, hp]
  rfl

theorem Base.start (hb : s.Base me) (h : s.start c me = some r) : SoundResult me r := by
  by_cases hp : s.participating = true
  · obtain ⟨s', hs', hst⟩ := start_spec c hp hb
    rw [hs'] at h
    cases h
    exact ⟨hst.sound, bcast_sound hst.odd hst.sound.epoch_lt _⟩
  · rw [Bool.not_eq_true] at hp
    rw [start_of_not hp] at h
    cases h
    exact ⟨⟨hb, fun _ hpart => by simp [hp] at hpart⟩, by simp⟩

theorem Base.joinElection (hb : s.Base me) : s.joinElection.Base me :=
  hb.of_eq rfl rfl rfl rfl rfl

theorem Base.startElection (hb : s.Base me) (h : s.startElection c me = some r) :
    SoundResult me r := hb.joinElection.start h

theorem Sound.defer (hs : s.Sound me) (hle : src ≤ me) (hne : me ≠ src) :
    SoundResult me (s.defer c me src) := by
  refine ⟨⟨⟨?_, fun i hi => ?_, hs.epoch_lt, hs.electionEpoch_lt, hs.won⟩, hs.loaded⟩, ?_⟩
  · rintro l hl
    exact some_inj.1 hl ▸ hle
  · simp only [Monitor.defer] at hi
    split_ifs at hi
    · simp at hi
    · exact hs.le_acked i hi
  · simp only [Monitor.defer, List.mem_singleton, forall_eq]
    exact ⟨hne, hle, hs.epoch_lt⟩

/-- The monitor has not deferred to a better rank than `src`. -/
def Yields (src : Fin n) (s : Monitor n) : Prop := ∀ l ∈ s.leaderAcked, src ≤ l

instance (src : Fin n) (s : Monitor n) : Decidable (s.Yields src) :=
  inferInstanceAs (Decidable (∀ l ∈ s.leaderAcked, src ≤ l))

/-- **What the comparison of ranks does**; its assertion never fails. -/
theorem weigh_eq (hl : ∀ l, s.leaderAcked = some l → l ≤ me) : s.weigh c me src = if me < src then
        if s.leaderAcked = none ∧ s.electingMe = false then s.startElection c me else some (s, [])
      else if s.Yields src then some (s.defer c me src) else some (s, []) := by
  obtain hacked | ⟨l, hacked⟩ := eq_none_or_eq_some s.leaderAcked
  · cases helect : s.electingMe <;> simp [weigh, Yields, hacked, helect]
  · by_cases hlt : me < src
    · simp [weigh, hacked, hlt, assert_bind ((hl l hacked).trans_lt hlt)]
    · simp [weigh, Yields, hacked, hlt, le_iff_lt_or_eq, eq_comm]

theorem Sound.weigh (hs : s.Sound me) (hne : src ≠ me) (h : s.weigh c me src = some r) :
    SoundResult me r := by
  have hstay : SoundResult me (s, []) := ⟨hs, by simp⟩
  rw [weigh_eq hs.leaderAcked_le] at h
  split_ifs at h with hlt
  · exact hs.toBase.startElection h
  · exact some_inj.1 h ▸ hstay
  · exact some_inj.1 h ▸ hs.defer (not_lt.1 hlt) hne.symm
  · exact some_inj.1 h ▸ hstay

theorem Sound.handlePropose {f : BitVec 64} (hs : s.Sound me) (hne : src ≠ me)
    (hlt : e < 2 ^ 32) (h : s.handlePropose c me src e f = some r) : SoundResult me r := by
  have hnak : (s.nakOldPeer c src e).2.Sound me (s.nakOldPeer c src e).1 := hne.symm
  obtain ⟨-, h⟩ := of_assert h
  split_ifs at h
  · exact some_inj.1 h ▸ ⟨hs, by simpa using hnak⟩
  · obtain ⟨r', hr', h⟩ := of_bind h
    obtain ⟨hs', hout⟩ := hs.weigh hne hr'
    exact some_inj.1 h ▸ ⟨hs', by simpa using ⟨hnak, fun a b hab => hout (a, b) hab⟩⟩
  · obtain ⟨s', hs', h⟩ := of_bind h
    exact (hs.toBase.bumpEpoch hlt (.inr (by omega)) hs').weigh hne h
  · obtain ⟨r₁, hr₁, h⟩ := of_bind h
    obtain ⟨r₂, hr₂, h⟩ := of_bind h
    obtain ⟨hs₁, hout₁⟩ := hs.toBase.startElection hr₁
    obtain ⟨hs₂, hout₂⟩ := hs₁.weigh hne hr₂
    refine some_inj.1 h ▸ ⟨hs₂, fun p hp => ?_⟩
    exact (List.mem_append.1 hp).elim (hout₁ p) (hout₂ p)
  · exact some_inj.1 h ▸ ⟨hs, by simp⟩
  · exact hs.weigh hne h

end Monitor

variable {quorum : Finset (Fin n)}

namespace Monitor

theorem winElection_eq_some {features : Features} :
    s.winElection me quorum features = some s' ↔ s.state = .electing ∧
      s' = { s with
        state := .leader, leader := some me, quorum := quorum, quorumFeatures := features
        won := s.epoch :: s.won } := by
  rw [winElection, assert_bind_eq_some, some_inj, eq_comm (b := s')]

/-- Acknowledgements of more than half of the monitors come from the ranks from `me` on. -/
theorem Base.majority (hb : s.Base me) (h : n / 2 < s.acked.card) : n / 2 < n - me := by
  have hsub : s.acked ⊆ Finset.Ici me := by
    intro i hi
    exact Finset.mem_Ici.2 (hb.le_acked i (Finset.mem_filter.1 hi).2)
  have hcard := Finset.card_le_card hsub
  rw [Fin.card_Ici] at hcard
  omega

theorem Base.victory (hb : s.Base me) (hmaj : n / 2 < s.acked.card)
    (h : s.victory c me = some r) : SoundResult me r := by
  obtain ⟨hodd, h⟩ := of_assert h
  obtain ⟨s₁, hs₁, h⟩ := of_bind h
  obtain ⟨s₂, hs₂, h⟩ := of_bind h
  have hb₀ : Base me
      { s with leaderAcked := none, electingMe := false, expireEvent := false } :=
    ⟨by simp, hb.le_acked, hb.epoch_lt, hb.electionEpoch_lt, hb.won⟩
  have hsound := hb₀.bumpEpoch (nextEpoch_lt _) (.inl (by dsimp only; omega)) hs₁
  obtain ⟨-, rfl⟩ := winElection_eq_some.1 hs₂
  refine some_inj.1 h ▸ ⟨⟨⟨hsound.leaderAcked_le, hsound.le_acked, hsound.epoch_lt,
    hsound.electionEpoch_lt, fun _ => hb.majority hmaj⟩, fun _ => hsound.loaded ?_⟩, ?_⟩
  · obtain ⟨-, rfl⟩ := bumpEpoch_eq_some.1 hs₁
    simp [Active]
  · intro p hp
    simp only [List.mem_map, List.mem_filter, decide_eq_true_eq] at hp
    obtain ⟨i, ⟨-, -, hne⟩, rfl⟩ := hp
    exact ⟨hne.symm, hsound.epoch_lt⟩

theorem Base.bootstrap (hb : s.Base me) (h : s.bootstrap c me = some r) : SoundResult me r := by
  have hb₀ : Base me { s with state := .probing, quorum := ∅ } :=
    hb.of_eq rfl rfl rfl rfl rfl
  unfold Monitor.bootstrap at h
  split_ifs at h with hn
  · obtain ⟨s₁, hs₁, h⟩ := of_bind h
    obtain ⟨s₂, hs₂, h⟩ := of_bind h
    have hsound := hb₀.init.bumpEpoch (nextEpoch_lt _) (.inl (init_pos _)) hs₁
    obtain ⟨-, rfl⟩ := winElection_eq_some.1 hs₂
    refine some_inj.1 h ▸ ⟨⟨⟨hsound.leaderAcked_le, hsound.le_acked, hsound.epoch_lt,
      hsound.electionEpoch_lt, fun _ => by omega⟩, fun _ => hsound.loaded ?_⟩, by simp⟩
    obtain ⟨-, rfl⟩ := bumpEpoch_eq_some.1 hs₁
    simp [Active]
  · exact some_inj.1 h ▸ ⟨⟨hb₀, fun hact => absurd (.inl rfl) hact⟩, by simp⟩

theorem Base.expire (hb : s.Base me) (h : s.expire c me = some r) : SoundResult me r := by
  unfold Monitor.expire at h
  split_ifs at h with hwin
  · exact hb.victory hwin.2 h
  · exact hb.start h
  · exact hb.bootstrap h

end Monitor

section

variable (hs : s.Sound me)

include hs

namespace Monitor

theorem Sound.countAck (hle : me ≤ src) (f : BitVec 64) : (s.countAck c me src f).Sound me := by
  refine ⟨⟨hs.leaderAcked_le, fun i hi => ?_, hs.epoch_lt, hs.electionEpoch_lt, hs.won⟩, hs.loaded⟩
  by_cases him : i = src
  · exact him ▸ hle
  · exact hs.le_acked i (by simpa [Monitor.countAck, him] using hi)

theorem Sound.handleAck {f : BitVec 64} (hle : me ≤ src) (hlt : e < 2 ^ 32)
    (h : s.handleAck c me src e f = some r) : SoundResult me r := by
  have hstay : SoundResult me (s, []) := ⟨hs, by simp⟩
  have hcount := hs.countAck (c := c) hle f
  obtain ⟨-, h⟩ := of_assert h
  by_cases hnew : s.epoch < e
  · rw [if_pos hnew] at h
    obtain ⟨s', hs', h⟩ := of_bind h
    exact (hs.toBase.bumpEpoch hlt (.inr (by omega)) hs').start h
  rw [if_neg hnew] at h
  obtain ⟨-, h⟩ := of_assert h
  dsimp only at h
  split_ifs at h with _ _ _ hall
  · exact some_inj.1 h ▸ hstay
  · exact some_inj.1 h ▸ hstay
  · exact hcount.toBase.victory (by omega) h
  · exact some_inj.1 h ▸ ⟨hcount, by simp⟩
  · obtain ⟨-, h⟩ := of_assert h
    exact some_inj.1 h ▸ hstay

theorem Sound.handleVictory {f : Features} (hlt : e < 2 ^ 32)
    (hpos : 0 < s.epoch) (h : s.handleVictory c me src e quorum f = some r) : SoundResult me r := by
  obtain ⟨-, h⟩ := of_assert h
  obtain ⟨-, h⟩ := of_assert h
  have hb₀ : Base me { s with leaderAcked := none } :=
    ⟨by simp, hs.le_acked, hs.epoch_lt, hs.electionEpoch_lt, hs.won⟩
  dsimp only at h
  split_ifs at h
  · obtain ⟨s', hs', h⟩ := of_bind h
    exact (hb₀.bumpEpoch hlt (.inl hpos) hs').start h
  · obtain ⟨s', hs', h⟩ := of_bind h
    have hsound := hb₀.bumpEpoch hlt (.inl hpos) hs'
    refine some_inj.1 h ▸ ⟨⟨hsound.toBase.of_eq rfl rfl rfl rfl rfl,
      fun _ => hsound.loaded ?_⟩, by simp⟩
    obtain ⟨-, rfl⟩ := bumpEpoch_eq_some.1 hs'
    simp [Active]

theorem Sound.dispatch {m : Message n} (hact : s.Active) (hm : m.Sound src me)
    (h : s.dispatch c me src m = some r) : SoundResult me r := by
  have hstay : SoundResult me (s, []) := ⟨hs, by simp⟩
  unfold Monitor.dispatch at h
  by_cases hp : s.participating = true
  · rw [if_pos hp] at h
    cases m with
    | propose e f => exact hs.handlePropose hm.1 hm.2.2 h
    | ack e f =>
      dsimp only at h
      split_ifs at h
      · exact some_inj.1 h ▸ hstay
      · exact hs.handleAck hm.2.1 hm.2.2 h
    | nak e f g =>
      dsimp only at h
      split_ifs at h
      exact some_inj.1 h ▸ hstay
    | victory e q f =>
      dsimp only at h
      split_ifs at h
      · exact some_inj.1 h ▸ hstay
      · exact hs.handleVictory hm.2 (hs.loaded hact hp ▸ s.init_pos) h
  · rw [if_neg hp] at h
    exact some_inj.1 h ▸ hstay

theorem Sound.perform {k : Call} (h : s.perform c me k = some r) : SoundResult me r := by
  have hb := hs.toBase
  cases k with
  | startElection => exact hb.startElection h
  | quorumEnter =>
    have hb' : Base me { s with participating := true } :=
      hb.of_eq rfl rfl rfl rfl rfl
    exact hb'.startElection h
  | quorumExit =>
    obtain ⟨r', hr', h⟩ := of_bind h
    obtain ⟨hs', hout⟩ := hb.startElection hr'
    exact some_inj.1 h ▸ ⟨⟨hs'.toBase.of_eq rfl rfl rfl rfl rfl,
      fun _ hp => absurd hp (by simp)⟩, hout⟩
  | bootstrap => exact hb.bootstrap h
  | syncStart =>
    exact some_inj.1 h ▸ ⟨⟨hb.of_eq rfl rfl rfl rfl rfl,
      fun hact => absurd (.inr (.inl rfl)) hact⟩, by simp⟩
  | expire =>
    simp only [Monitor.perform] at h
    split_ifs at h
    · have hb' : Base me { s with expireEvent := false } :=
        hb.of_eq rfl rfl rfl rfl rfl
      exact hb'.expire h
    · exact some_inj.1 h ▸ ⟨hs, by simp⟩
  | joined =>
    exact some_inj.1 h ▸ ⟨⟨hb.of_eq rfl rfl rfl rfl rfl, hs.loaded⟩, by simp⟩
  | require f =>
    exact some_inj.1 h ▸ ⟨⟨hb.of_eq rfl rfl rfl rfl rfl, hs.loaded⟩, by simp⟩

theorem Sound.settle {o : Option (Monitor n × Out n)}
    (h : ∀ r, o = some r → SoundResult me r) : SoundResult me (s.settle o) := by
  cases o with
  | none =>
    exact ⟨⟨hs.toBase.of_eq rfl rfl rfl rfl rfl, fun hact => absurd (.inr (.inr rfl)) hact⟩,
      by simp [Monitor.settle]⟩
  | some r => exact h r rfl

end Monitor

end

/-- **Every monitor and every message of every run is sound.** -/
theorem elector_keeps (c : Cluster n) : Network.Keeps (elector c) Sound Message.Sound where
  initial := fun _ _ h => h.sound
  call := by
    intro i k s hs
    show SoundResult i (s.call c i k)
    unfold call
    split_ifs
    · exact ⟨hs, by simp⟩
    · exact hs.settle fun r hr => hs.perform hr
  receive := by
    intro i src m s hs hm
    show SoundResult i (s.receive c i src m)
    unfold receive
    split_ifs with hact
    · exact ⟨hs, by simp⟩
    · exact hs.settle fun r hr => hs.dispatch hact hm hr

end Ceph.Mon
