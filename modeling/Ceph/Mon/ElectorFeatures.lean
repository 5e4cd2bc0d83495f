import Ceph.Mon.Elector

/-!
# Acknowledgements and required features

A monitor should acknowledge a proposer only when the proposer has all features the
monitor requires, and with the epoch of the proposal; a proposal that lacks a required
feature should change nothing.  `handle_propose` refuses such a proposal with a nak, but
returns after it only when a cluster feature is missing; and a proposal of an old epoch
that makes it call a new election is acknowledged in the new epoch.

* `Conforms` — what should happen when a message is delivered.
* `Slips` — the deliveries at which it does not.
-/

namespace Ceph.Mon

open Loop List Option Monitor

variable {n : ℕ} {c : Cluster n} {me src : Fin n} {s s' : Monitor n} {r : Monitor n × Out n} {e : ℕ}
  {f : BitVec 64}

/-! ## Features -/

/-- `features` has every feature of `required`. -/
def HasAll (features required : BitVec 64) : Prop :=
  ∀ b < 64, required.getLsbD b = true → features.getLsbD b = true

theorem lacksFeatures_eq_false {features required : BitVec 64} :
    lacksFeatures required features = false ↔ HasAll features required := by
  have hzero : lacksFeatures required features = false ↔
      (required ^^^ features) &&& required = 0 := by simp [lacksFeatures]
  rw [hzero, BitVec.eq_of_getLsbD_eq_iff]
  refine forall₂_congr fun b hb => ?_
  cases h₁ : required.getLsbD b <;> cases h₂ : features.getLsbD b <;> simp [h₁, h₂]

theorem containsAll_eq_true {features required : BitVec 64} :
    containsAll features required = true ↔ HasAll features required := by
  rw [containsAll, beq_iff_eq, BitVec.eq_of_getLsbD_eq_iff]
  refine forall₂_congr fun b hb => ?_
  cases h₁ : required.getLsbD b <;> cases h₂ : features.getLsbD b <;> simp [h₁, h₂]

/-- The proposer behind `src` has all the features that this monitor requires. -/
def Qualified (c : Cluster n) (me src : Fin n) (s : Monitor n) (monFeatures : BitVec 64) : Prop :=
  HasAll (c.connection me src) s.requiredFeatures ∧ HasAll monFeatures c.requiredMonFeatures

/-! ## What should happen and where it does not -/

/-- No acknowledgement among the messages. -/
def NoAck (out : Out n) : Prop := ∀ p ∈ out, ∀ e f, p.2 ≠ .ack e f

/-- What the delivery of a message should do: an acknowledgement answers a proposal of a
qualified proposer, with the proposal's epoch, and a proposal of a proposer that is not
qualified leaves the monitor as it was. -/
structure Conforms (c : Cluster n) (me src : Fin n) (m : Message n) (s : Monitor n) : Prop where
  acks : ∀ p ∈ (s.receive c me src m).2, ∀ e' f', p.2 = .ack e' f' →
    ∃ f, m = .propose e' f ∧ p.1 = src ∧ Qualified c me src s f
  unchanged : ∀ e f, m = .propose e f → ¬ Qualified c me src s f → (s.receive c me src m).1 = s

/-- The comparison of ranks does something. -/
def Monitor.Reacts (me src : Fin n) (s : Monitor n) : Prop :=
  if me < src then s.leaderAcked = none ∧ s.electingMe = false else s.Yields src

/-- A proposal that has the cluster features is delivered to a monitor that takes part, and
either it lacks a monitor feature while the comparison of ranks, which follows all the same,
does something; or it is an old one from a better rank outside the quorum that makes the
monitor call a new election. -/
def Slips (c : Cluster n) (me src : Fin n) (s : Monitor n) (e : ℕ) (f : BitVec 64) : Prop :=
  s.Active ∧ s.participating = true ∧ HasAll (c.connection me src) s.requiredFeatures ∧
    (¬ HasAll f c.requiredMonFeatures ∧ s.Reacts me src ∨
      HasAll f c.requiredMonFeatures ∧ e < s.epoch ∧ s.epoch % 2 = 0 ∧ src ∉ s.quorum ∧ src < me)

/-! ## Who sends acknowledgements -/

theorem noAck_nil : NoAck ([] : Out n) := by simp [NoAck]

theorem noAck_bcast (me : Fin n) (e : ℕ) (f : BitVec 64) : NoAck (bcast me (.propose e f)) := by
  intro p hp
  obtain ⟨i, -, rfl⟩ := mem_map.1 hp
  simp

namespace Monitor

theorem start_noAck (h : s.start c me = some r) : NoAck r.2 := by
  unfold start at h
  split_ifs at h
  · obtain ⟨s', -, h⟩ := of_bind h
    exact some_inj.1 h ▸ noAck_bcast _ _ _
  · exact some_inj.1 h ▸ noAck_nil

theorem victory_noAck (h : s.victory c me = some r) : NoAck r.2 := by
  obtain ⟨-, h⟩ := of_assert h
  obtain ⟨s₁, -, h⟩ := of_bind h
  obtain ⟨s₂, -, h⟩ := of_bind h
  refine some_inj.1 h ▸ fun p hp => ?_
  obtain ⟨i, -, rfl⟩ := mem_map.1 hp
  simp

theorem bootstrap_noAck (h : s.bootstrap c me = some r) : NoAck r.2 := by
  unfold bootstrap at h
  split_ifs at h
  · obtain ⟨s₁, -, h⟩ := of_bind h
    obtain ⟨s₂, -, h⟩ := of_bind h
    exact some_inj.1 h ▸ noAck_nil
  · exact some_inj.1 h ▸ noAck_nil

theorem expire_noAck (h : s.expire c me = some r) : NoAck r.2 := by
  unfold expire at h
  split_ifs at h
  · exact victory_noAck h
  · exact start_noAck h
  · exact bootstrap_noAck h

theorem perform_noAck {k : Call} (h : s.perform c me k = some r) : NoAck r.2 := by
  cases k with
  | startElection => exact start_noAck h
  | quorumEnter =>
    have h : startElection c me { s with participating := true } = some r := h
    exact start_noAck h
  | quorumExit =>
    obtain ⟨r', hr', h⟩ := of_bind h
    have hno : NoAck r'.2 := start_noAck hr'
    exact some_inj.1 h ▸ hno
  | bootstrap => exact bootstrap_noAck h
  | expire =>
    simp only [perform] at h
    split_ifs at h
    · exact expire_noAck h
    · exact some_inj.1 h ▸ noAck_nil
  | syncStart => exact some_inj.1 h ▸ noAck_nil
  | joined => exact some_inj.1 h ▸ noAck_nil
  | require f => exact some_inj.1 h ▸ noAck_nil

theorem settle_noAck {o : Option (Monitor n × Out n)} (h : ∀ r, o = some r → NoAck r.2) :
    NoAck (s.settle o).2 := by
  cases o with
  | none => exact noAck_nil
  | some r => exact h r rfl

/-- Calls send no acknowledgement. -/
theorem call_noAck (c : Cluster n) (me : Fin n) (k : Call) (s : Monitor n) :
    NoAck (s.call c me k).2 := by
  unfold call
  split_ifs
  · exact noAck_nil
  · exact settle_noAck fun r hr => perform_noAck hr

theorem handleAck_noAck (h : s.handleAck c me src e f = some r) : NoAck r.2 := by
  obtain ⟨-, h⟩ := of_assert h
  by_cases hnew : s.epoch < e
  · rw [if_pos hnew] at h
    obtain ⟨s', -, h⟩ := of_bind h
    exact start_noAck h
  rw [if_neg hnew] at h
  obtain ⟨-, h⟩ := of_assert h
  dsimp only at h
  split_ifs at h
  · exact some_inj.1 h ▸ noAck_nil
  · exact some_inj.1 h ▸ noAck_nil
  · exact victory_noAck h
  · exact some_inj.1 h ▸ noAck_nil
  · obtain ⟨-, h⟩ := of_assert h
    exact some_inj.1 h ▸ noAck_nil

theorem handleVictory_noAck {quorum : Finset (Fin n)} {g : Features}
    (h : s.handleVictory c me src e quorum g = some r) : NoAck r.2 := by
  obtain ⟨-, h⟩ := of_assert h
  obtain ⟨-, h⟩ := of_assert h
  dsimp only at h
  split_ifs at h
  · obtain ⟨s', -, h⟩ := of_bind h
    exact start_noAck h
  · obtain ⟨s', -, h⟩ := of_bind h
    exact some_inj.1 h ▸ noAck_nil

variable (c me src s) in
/-- Only proposals are acknowledged. -/
theorem receive_noAck {m : Message n} (hm : ∀ e f, m ≠ .propose e f) :
    NoAck (s.receive c me src m).2 := by
  unfold receive
  split_ifs
  · exact noAck_nil
  refine settle_noAck fun r h => ?_
  unfold dispatch at h
  split_ifs at h
  · cases m with
    | propose e f => exact absurd rfl (hm e f)
    | ack e f =>
      dsimp only at h
      split_ifs at h
      · exact some_inj.1 h ▸ noAck_nil
      · exact handleAck_noAck h
    | nak e f g =>
      dsimp only at h
      split_ifs at h
      exact some_inj.1 h ▸ noAck_nil
    | victory e q g =>
      dsimp only at h
      split_ifs at h
      · exact some_inj.1 h ▸ noAck_nil
      · exact handleVictory_noAck h
  · exact some_inj.1 h ▸ noAck_nil

/-- The comparison of ranks acknowledges the proposer only, in the current epoch. -/
theorem weigh_acks (hl : ∀ l, s.leaderAcked = some l → l ≤ me)
    (h : s.weigh c me src = some r) {p : Fin n × Message n} (hp : p ∈ r.2) (hack : p.2 = .ack e f) :
    p.1 = src ∧ e = s.epoch := by
  rw [weigh_eq hl] at h
  split_ifs at h
  · exact absurd hack (start_noAck h p hp e f)
  · cases h
    simp at hp
  · cases h
    simp only [defer, mem_singleton] at hp
    subst hp
    obtain ⟨rfl, -⟩ : s.epoch = e ∧ _ := by simpa using hack
    exact ⟨rfl, rfl⟩
  · cases h
    simp at hp

end Monitor

/-! ## Deliveries -/

variable (c me src e f) in
/-- A proposal to a monitor that does not take part changes nothing. -/
theorem receive_propose_of_not (h : ¬ (s.Active ∧ s.participating = true)) :
    s.receive c me src (.propose e f) = (s, []) := by
  by_cases hact : s.Active
  · have hp : s.participating = false := by simpa [hact] using h
    rw [receive, if_neg hact, dispatch, hp]
    rfl
  · exact if_pos (not_not.1 hact)

variable (c me src f) in
/-- A proposal to a monitor that takes part is handled. -/
theorem receive_propose (hact : s.Active) (hp : s.participating = true) (hodd : e % 2 = 1) :
    s.receive c me src (.propose e f) = s.settle (
      if lacksFeatures s.requiredFeatures (c.connection me src) then
        some (s, [s.nakOldPeer c src e])
      else if !containsAll f c.requiredMonFeatures then
        (s.weigh c me src).map fun r => (r.1, s.nakOldPeer c src e :: r.2)
      else if s.epoch < e then s.bumpEpoch e >>= fun s => s.weigh c me src
      else if e < s.epoch then
        if s.epoch % 2 = 0 ∧ src ∉ s.quorum then
          s.startElection c me >>= fun r =>
            (r.1.weigh c me src).map fun r' => (r'.1, r.2 ++ r'.2)
        else some (s, [])
      else s.weigh c me src) := by
  rw [receive, if_neg hact, dispatch, if_pos hp, handlePropose, assert_bind hodd]
  simp only [map_eq_bind]
  rfl

/-- A delivery without acknowledgement that leaves the monitor as it was. -/
theorem conforms_of_unchanged {m : Message n} (h : (s.receive c me src m).1 = s)
    (hno : NoAck (s.receive c me src m).2) : Conforms c me src m s :=
  ⟨fun p hp e' f' hack => absurd hack (hno p hp e' f'), fun _ _ _ _ => h⟩

/-- A proposal that is only refused. -/
theorem conforms_of_nak (h : s.receive c me src (.propose e f) = (s, [s.nakOldPeer c src e])) :
    Conforms c me src (.propose e f) s :=
  conforms_of_unchanged (by rw [h]) (by rw [h]; simp [NoAck, nakOldPeer])

/-- Acknowledgements of a qualified proposer in its own epoch. -/
theorem conforms_of_weigh (hq : Qualified c me src s f)
    (h : s.receive c me src (.propose e f) = s.settle (s'.weigh c me src)) (he : s'.epoch = e)
    (hl : ∀ l, s'.leaderAcked = some l → l ≤ me) : Conforms c me src (.propose e f) s := by
  refine ⟨fun p hp e' f' hack => ?_, fun e₁ f₁ hm hnot => ?_⟩
  · rw [h] at hp
    cases hw : s'.weigh c me src with
    | none =>
      rw [hw] at hp
      simp [settle] at hp
    | some r =>
      rw [hw] at hp
      obtain ⟨hsrc, rfl⟩ := weigh_acks hl hw hp hack
      exact ⟨f, by rw [he], hsrc, hq⟩
  · obtain ⟨-, rfl⟩ : e = e₁ ∧ f = f₁ := by simpa using hm
    exact absurd hq hnot

/-- A proposal that lacks a monitor feature slips exactly when the comparison of ranks, which
follows the nak, does something. -/
theorem conforms_of_lacking (hs : s.Sound me) (hact : s.Active) (hp : s.participating = true)
    (hodd : e % 2 = 1) (hcl : HasAll (c.connection me src) s.requiredFeatures)
    (hmon : ¬ HasAll f c.requiredMonFeatures) :
    Conforms c me src (.propose e f) s ↔ ¬ s.Reacts me src := by
  have hnot : ¬ Qualified c me src s f := fun h => hmon h.2
  have hrec := receive_propose c me src f hact hp hodd
  rw [lacksFeatures_eq_false.2 hcl, Bool.eq_false_iff.2 fun h => hmon (containsAll_eq_true.1 h),
    weigh_eq hs.leaderAcked_le] at hrec
  unfold Reacts
  by_cases hlt : me < src
  · rw [if_pos hlt]
    rw [if_pos hlt] at hrec
    by_cases hstart : s.leaderAcked = none ∧ s.electingMe = false
    · -- an election is started: the monitor was not electing itself before
      obtain ⟨s', hs', hst⟩ := start_spec c (s := s.joinElection) hp hs.toBase.joinElection
      rw [if_pos hstart, startElection, hs'] at hrec
      refine ⟨fun h => ?_, fun h => absurd hstart h⟩
      have hsame := h.unchanged e f rfl hnot
      rw [hrec] at hsame
      have helect := hst.electingMe
      rw [show s' = s from hsame, hstart.2] at helect
      exact absurd helect (by decide)
    · rw [if_neg hstart] at hrec
      exact iff_of_true (conforms_of_nak hrec) hstart
  · rw [if_neg hlt]
    rw [if_neg hlt] at hrec
    by_cases hyield : s.Yields src
    · refine iff_of_false (fun h => ?_) (not_not.2 hyield)
      rw [if_pos hyield] at hrec
      obtain ⟨f', hm, -, hq⟩ := h.acks (src, .ack s.epoch (c.supported me))
        (by rw [hrec]; simp [settle, defer]) _ _ rfl
      obtain ⟨-, rfl⟩ : e = s.epoch ∧ f = f' := by simpa using hm
      exact hnot hq
    · rw [if_neg hyield] at hrec
      exact iff_of_true (conforms_of_nak hrec) hyield

/-- A proposal of a qualified proposer slips exactly when it is an old one that makes the
monitor call an election and then defer. -/
theorem conforms_of_qualified (hs : s.Sound me) (hact : s.Active) (hp : s.participating = true)
    (hodd : e % 2 = 1) (hne : src ≠ me) (hq : Qualified c me src s f) :
    Conforms c me src (.propose e f) s ↔
      ¬ (e < s.epoch ∧ s.epoch % 2 = 0 ∧ src ∉ s.quorum ∧ src < me) := by
  have hrec := receive_propose c me src f hact hp hodd
  rw [lacksFeatures_eq_false.2 hq.1, containsAll_eq_true.2 hq.2] at hrec
  simp only [Bool.false_eq_true, if_false, Bool.not_true] at hrec
  rcases lt_trichotomy s.epoch e with hlt | heq | hgt
  · refine iff_of_true ?_ (by omega)
    obtain ⟨s', hs'⟩ : ∃ s', s.bumpEpoch e = some s' :=
      ⟨_, bumpEpoch_eq_some.2 ⟨hlt.le, rfl⟩⟩
    rw [if_pos hlt, hs'] at hrec
    obtain ⟨-, rfl⟩ := bumpEpoch_eq_some.1 hs'
    exact conforms_of_weigh hq hrec rfl hs.leaderAcked_le
  · rw [if_neg heq.not_lt, if_neg heq.not_gt] at hrec
    exact iff_of_true (conforms_of_weigh hq hrec heq hs.leaderAcked_le) (by omega)
  rw [if_neg hgt.not_gt, if_pos hgt] at hrec
  by_cases hcall : s.epoch % 2 = 0 ∧ src ∉ s.quorum
  · obtain ⟨s', hs', hst⟩ := start_spec c (s := s.joinElection) hp hs.toBase.joinElection
    rw [if_pos hcall, startElection, hs', bind_eq_bind, bind_some,
      weigh_eq hst.sound.leaderAcked_le] at hrec
    by_cases hlt : me < src
    · rw [if_pos hlt, if_neg (by simp [hst.electingMe])] at hrec
      refine iff_of_true ⟨fun p hp e' f' hack => ?_, fun e₁ f₁ hm hnot => ?_⟩
        fun h => hlt.not_gt h.2.2.2
      · rw [hrec] at hp
        have hno := noAck_bcast me s'.epoch (c.supported me)
        exact absurd hack (hno p (by simpa [settle] using hp) e' f')
      · obtain ⟨-, rfl⟩ : e = e₁ ∧ f = f₁ := by simpa using hm
        exact absurd hq hnot
    · -- the answer carries the epoch of the new election
      have hyield : s'.Yields src := by simp [Yields, hst.leaderAcked]
      rw [if_neg hlt, if_pos hyield] at hrec
      refine iff_of_false (fun h => ?_)
        (not_not.2 ⟨hgt, hcall.1, hcall.2, lt_of_le_of_ne (not_lt.1 hlt) hne⟩)
      obtain ⟨f', hm, -⟩ := h.acks (src, .ack s'.epoch (c.supported me))
        (by rw [hrec]; simp [settle, defer]) _ _ rfl
      obtain ⟨hepoch, -⟩ : e = s'.epoch ∧ f = f' := by simpa using hm
      have hload : s.epoch = s.init.epoch := hs.loaded hact hp
      have hstart : s'.epoch = s.init.epoch + 1 := by
        rw [hst.epoch]
        exact if_pos (hload ▸ hcall.1)
      omega
  · rw [if_neg hcall] at hrec
    refine iff_of_true (conforms_of_unchanged (by rw [hrec]; rfl) (by rw [hrec]; exact noAck_nil))
      fun h => hcall ⟨h.2.1, h.2.2.1⟩

/-- A delivered proposal does what it should exactly when it does not slip. -/
theorem conforms_propose_iff (hs : s.Sound me) (hodd : e % 2 = 1) (hne : src ≠ me) :
    Conforms c me src (.propose e f) s ↔ ¬ Slips c me src s e f := by
  unfold Slips
  by_cases hpart : s.Active ∧ s.participating = true
  · obtain ⟨hact, hp⟩ := hpart
    by_cases hcl : HasAll (c.connection me src) s.requiredFeatures
    · by_cases hmon : HasAll f c.requiredMonFeatures
      · rw [conforms_of_qualified hs hact hp hodd hne ⟨hcl, hmon⟩]
        simp [hact, hp, hcl, hmon]
      · rw [conforms_of_lacking hs hact hp hodd hcl hmon]
        simp [hact, hp, hcl, hmon]
    · have hrec := receive_propose c me src f hact hp hodd
      rw [if_pos (by simpa using mt lacksFeatures_eq_false.1 hcl)] at hrec
      exact iff_of_true (conforms_of_nak hrec) fun h => hcl h.2.2.1
  · have hrec := receive_propose_of_not c me src e f hpart
    exact iff_of_true (conforms_of_unchanged (by rw [hrec]) (by rw [hrec]; exact noAck_nil))
      fun h => hpart ⟨h.1, h.2.1⟩

/-- **Acknowledgements and required features.**  In every run, calls send no acknowledgement,
and the delivery of a message does what it should unless it is a proposal that slips. -/
theorem conforms_iff {w : Network.World (Fin n) (Monitor n) (Message n)}
    (h : Network.Reachable (elector c) w) :
    (∀ i k, NoAck ((w.nodes i).call c i k).2) ∧ ∀ src dst m rest, w.net src dst = m :: rest →
      (Conforms c dst src m (w.nodes dst) ↔
        ∀ e f, m = .propose e f → ¬ Slips c dst src (w.nodes dst) e f) := by
  obtain ⟨hsound, hmsg⟩ := h.invariant (elector_keeps c)
  refine ⟨fun i k => Monitor.call_noAck c i k _, fun src dst m rest hnet => ?_⟩
  have hm := hmsg src dst m (by rw [hnet]; exact mem_cons_self)
  by_cases hpropose : ∃ e f, m = .propose e f
  · obtain ⟨e, f, rfl⟩ := hpropose
    rw [conforms_propose_iff (hsound dst) hm.2.1 hm.1]
    simp
  · have hnot : ∀ e f, m ≠ .propose e f := fun e f hef => hpropose ⟨e, f, hef⟩
    have hno := Monitor.receive_noAck c dst src (w.nodes dst) hnot
    exact iff_of_true ⟨fun p hp e' f' hack => absurd hack (hno p hp e' f'),
      fun e f hef => absurd hef (hnot e f)⟩ fun e f hef => absurd hef (hnot e f)

/-! ## A peer without the monitor feature -/

/-- Two monitors of a map that requires a feature the first one does not have. -/
def oldPeer : Cluster 2 where
  supported := fun i => if i = 0 then 0 else 1
  connection := fun _ _ => 0
  requiredMonFeatures := 1
  featuresAll := 0

/-- Both have started an election. -/
def bothStarted : Network.World (Fin 2) (Monitor 2) (Message 2) :=
  let w : Network.World (Fin 2) (Monitor 2) (Message 2) :=
    { nodes := fun _ => fresh 2, net := fun _ _ => [] }
  let w := w.act 1 ((w.nodes 1).call oldPeer 1 .startElection)
  w.act 0 ((w.nodes 0).call oldPeer 0 .startElection)

theorem bothStarted_reachable : Network.Reachable (elector oldPeer) bothStarted :=
  .step (.step (.init (fun _ => fresh 2) fun _ => fresh_fresh 2)
    (.call _ 1 Call.startElection)) (.call _ 0 Call.startElection)

theorem bothStarted_net : bothStarted.net 0 1 = [.propose 1 0] := by decide

/-- The second acknowledges the first all the same. -/
theorem oldPeer_acked : Network.Reachable (elector oldPeer) bothStarted ∧
    bothStarted.net 0 1 = [.propose 1 0] ∧ ¬ Qualified oldPeer 1 0 (bothStarted.nodes 1) 0 ∧
    ((bothStarted.nodes 1).receive oldPeer 1 0 (.propose 1 0)).2
      = [(0, .nak 1 0 1), (0, .ack 1 1)] ∧
    ¬ Conforms oldPeer 1 0 (.propose 1 0) (bothStarted.nodes 1) := by
  have hnot : ¬ Qualified oldPeer 1 0 (bothStarted.nodes 1) 0 :=
    fun h => absurd (h.2 0 (by decide) (by decide)) (by decide)
  have hout : ((bothStarted.nodes 1).receive oldPeer 1 0 (.propose 1 0)).2
      = [(0, .nak 1 0 1), (0, .ack 1 1)] := by decide +kernel
  refine ⟨bothStarted_reachable, bothStarted_net, hnot, hout, fun h => ?_⟩
  obtain ⟨f, hm, -, hq⟩ := h.acks (0, .ack 1 1) (by rw [hout]; simp) 1 1 rfl
  obtain ⟨-, rfl⟩ : (1 : ℕ) = 1 ∧ 0 = f := by simpa using hm
  exact hnot hq

theorem conforms_iff_bothStarted : Network.Reachable (elector oldPeer) bothStarted ∧
    (Conforms oldPeer 1 0 (.propose 1 0) (bothStarted.nodes 1) ↔
      ∀ e f, (Message.propose 1 0 : Message 2) = .propose e f →
        ¬ Slips oldPeer 1 0 (bothStarted.nodes 1) e f) :=
  ⟨bothStarted_reachable,
    (conforms_iff bothStarted_reachable).2 0 1 (.propose 1 0) [] bothStarted_net⟩

end Ceph.Mon
