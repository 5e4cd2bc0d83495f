import Ceph.Mon.Elector

/-!
# Who wins an epoch

A monitor acknowledges again when a better rank proposes itself in the same epoch, and the
candidate that it acknowledged first keeps the acknowledgement.  With three or more
monitors two candidates can so reach a majority in one epoch; with two, only the better
rank can win at all.

* `exists_two_winners` — a run in which the ranks 0 and 1 win the same epoch.
-/

namespace Ceph.Mon

open Loop Network List Function Monitor

variable {n : ℕ}

/-! ## The run -/

/-- Monitors that support and require nothing. -/
def plain (n : ℕ) : Cluster n where
  supported := fun _ => 0
  connection := fun _ _ => 0
  requiredMonFeatures := 0
  featuresAll := 0

/-- A candidate of epoch 1 that `acks` acknowledged. -/
def candidate (me : Fin n) (acks : Finset (Fin n)) : Monitor n :=
  { fresh n with
    epoch := 1
    state := .electing
    electingMe := true
    ackedMe := fun i => if i = me ∨ i ∈ acks then some ⟨0, 0⟩ else none
    expireEvent := true }

/-- What every monitor proposes. -/
def proposal : Message n := .propose 1 0

theorem fresh_startElection (me : Fin n) :
    (fresh n).call (plain n) me .startElection = (candidate me ∅, bcast me proposal) := by
  simp [call, perform, settle, startElection, start,
    bumpToOdd, init, clearAcks, joinElection, elect,
    fresh, candidate, proposal, plain]
  funext i
  by_cases hi : i = me <;> simp [hi]

theorem bcast_filter (me d : Fin n) (m : Message n) :
    ((bcast me m).filter fun p => p.1 = d).map Prod.snd = if d = me then [] else [m] := by
  have hone : (finRange n).filter (fun i => i = d) = [d] := by
    rw [show (fun i => decide (i = d)) = (· == d) from rfl, filter_beq,
      count_eq_one_of_mem (nodup_finRange n) (mem_finRange d)]
    rfl
  have hswap : ((finRange n).filter fun i => i ≠ me).filter (fun i => i = d)
      = [d].filter fun i => i ≠ me := by
    rw [← hone, filter_filter, filter_filter]
    exact filter_congr fun i _ => Bool.and_comm _ _
  rw [bcast, filter_map, map_map]
  show map (fun _ => m) (((finRange n).filter fun i => i ≠ me).filter (fun i => i = d)) = _
  rw [hswap]
  by_cases hd : d = me <;> simp [hd]

/-- The world in which every monitor has started an election. -/
theorem all_started (k : ℕ) (hk : k ≤ n) : ∃ w, Reachable (elector (plain n)) w ∧
      (∀ i, w.nodes i = if i < k then candidate i ∅ else fresh n) ∧
      ∀ s d, w.net s d = if s < k ∧ d ≠ s then [proposal] else [] := by
  induction k with
  | zero =>
    refine ⟨_, .init (fun _ => fresh n) fun _ => fresh_fresh n, ?_, ?_⟩ <;> simp
  | succ k ih =>
    obtain ⟨w, hr, hnodes, hnet⟩ := ih (by omega)
    let me : Fin n := ⟨k, hk⟩
    have hme : w.nodes me = fresh n := by rw [hnodes, if_neg (lt_irrefl k)]
    have hcall : (elector (plain n)).call me .startElection (w.nodes me)
        = (candidate me ∅, bcast me proposal) := by
      rw [hme]
      exact fresh_startElection me
    refine ⟨_, .step hr (.call w me .startElection), fun i => ?_, fun s d => ?_⟩
    · rw [hcall]
      by_cases hi : i = me
      · subst hi
        simp [World.act, me]
      · have hne : (i : ℕ) ≠ k := fun h => hi (Fin.ext h)
        have hlt : (i : ℕ) < k ↔ (i : ℕ) < k + 1 := by omega
        simp only [World.act, update_of_ne hi, hnodes, hlt]
    · rw [hcall]
      by_cases hs : s = me
      · subst hs
        simp [World.act, post, bcast_filter, hnet, me]
      · have hne : (s : ℕ) ≠ k := fun h => hs (Fin.ext h)
        have hlt : (s : ℕ) < k ↔ (s : ℕ) < k + 1 := by omega
        simp only [World.act, post, if_neg hs, hnet, hlt]

/-- How every monitor acknowledges. -/
def acknowledgement : Message n := .ack 1 0

/-- A candidate that has deferred to `who`. -/
def deferred (me who : Fin n) : Monitor n :=
  { candidate me ∅ with electingMe := false, ackedMe := fun _ => none, leaderAcked := some who }

section

variable {j x y : Fin n} {acks : Finset (Fin n)}

section

attribute [local simp] receive dispatch handlePropose assert lacksFeatures containsAll weigh settle
  candidate plain proposal fresh

theorem candidate_defers (h : x < j) : (candidate j ∅).receive (plain n) j x proposal
    = (deferred j x, [(x, acknowledgement)]) := by
  simp [defer, deferred, acknowledgement, h.not_gt]

/-- A monitor that has acknowledged one candidate acknowledges a better one too. -/
theorem deferred_defers (h : x < j) (hxy : x < y) : (deferred j y).receive (plain n) j x proposal
    = (deferred j x, [(x, acknowledgement)]) := by
  simp [defer, deferred, acknowledgement, h.not_gt, hxy]

theorem candidate_stays (h : x < j) : (candidate x acks).receive (plain n) x j proposal
    = (candidate x acks, []) := by
  simp [h]

end

theorem candidate_acked : (candidate x acks).acked = insert x acks := by
  ext i
  by_cases hi : i = x ∨ i ∈ acks <;> simp [acked, candidate, hi]

theorem candidate_countAck :
    (candidate x acks).countAck (plain n) x j 0 = candidate x (insert j acks) := by
  have hack : update (candidate x acks).ackedMe j (some ⟨0, 0⟩)
      = (candidate x (insert j acks)).ackedMe := by
    funext i
    by_cases hi : i = j
    · simp [candidate, hi]
    · simp [candidate, hi]
  rw [countAck, show (plain n).connection x j = 0 from rfl, hack]
  rfl

/-- As long as one is missing, acknowledgements are counted. -/
theorem candidate_counts (hyx : y ≠ x) (hyj : y ≠ j) (hy : y ∉ acks) :
    (candidate x acks).receive (plain n) x j acknowledgement
      = (candidate x (insert j acks), []) := by
  have hcard : ((candidate x acks).countAck (plain n) x j 0).acked.card ≠ n := by
    rw [candidate_countAck, candidate_acked]
    intro h
    have huniv := Finset.eq_univ_of_card _ (h.trans (Fintype.card_fin n).symm)
    have hmem : y ∈ insert x (insert j acks) := huniv ▸ Finset.mem_univ y
    simp [hyx, hyj, hy] at hmem
  have hlacks : lacksFeatures (candidate x acks).requiredFeatures ((plain n).connection x j)
      = false := (by decide : lacksFeatures 0 0 = false)
  have hcontains : containsAll 0 (plain n).requiredMonFeatures = true :=
    (by decide : containsAll 0 0 = true)
  have hack : (candidate x acks).handleAck (plain n) x j 1 0
      = some (candidate x (insert j acks), []) := by
    rw [handleAck, assert_bind rfl, if_neg (show ¬ (candidate x acks).epoch < 1 from lt_irrefl 1),
      assert_bind (show 1 = (candidate x acks).epoch from rfl), hlacks, hcontains,
      if_neg nofun, if_neg (show ¬ (!true) = true by decide),
      if_pos (show (candidate x acks).electingMe = true from rfl)]
    simp only [if_neg hcard]
    rw [candidate_countAck]
  rw [receive, acknowledgement, dispatch, hack]
  rfl

/-- A candidate with a majority wins when its timer expires. -/
theorem candidate_wins (h : n / 2 < (insert x acks).card) :
    ((candidate x acks).call (plain n) x .expire).1.state = .leader ∧
      ((candidate x acks).call (plain n) x .expire).1.won = [2] := by
  have hexpire : expire (plain n) x { candidate x acks with expireEvent := false }
      = victory (plain n) x { candidate x acks with expireEvent := false } :=
    if_pos ⟨rfl, by rw [← candidate_acked] at h; exact h⟩
  have hcall : (candidate x acks).call (plain n) x .expire = (candidate x acks).settle
      (victory (plain n) x { candidate x acks with expireEvent := false }) := by
    rw [← hexpire]
    rfl
  rw [hcall]
  exact ⟨rfl, rfl⟩

/-- A candidate polls a monitor that defers to it: three deliveries. -/
theorem poll {w : World (Fin n) (Monitor n) (Message n)} (hr : Reachable (elector (plain n)) w)
    (hxj : x < j) (hyx : y ≠ x) (hyj : y ≠ j) (hy : y ∉ acks) (hx : w.nodes x = candidate x acks)
    (hj : (w.nodes j).receive (plain n) j x proposal = (deferred j x, [(x, acknowledgement)]))
    (hto : w.net x j = [proposal]) (hback : w.net j x = [proposal]) :
    ∃ w', Reachable (elector (plain n)) w' ∧ w'.nodes x = candidate x (insert j acks) ∧
      w'.nodes j = deferred j x ∧ (∀ i, i ≠ x → i ≠ j → w'.nodes i = w.nodes i) ∧
      ∀ s d, ¬ (s = x ∧ d = j) → ¬ (s = j ∧ d = x) → w'.net s d = w.net s d := by
  have hne : x ≠ j := hxj.ne
  obtain ⟨w₁, hr₁, hn₁, hnet₁⟩ := hr.deliver hto hj
  have hx₁ : w₁.nodes x = candidate x acks := by rw [hn₁, update_of_ne hne, hx]
  have hback₁ : w₁.net j x = [proposal, acknowledgement] := by
    simp [hnet₁, post, leave, hback, hne.symm]
  obtain ⟨w₂, hr₂, hn₂, hnet₂⟩ := hr₁.deliver hback₁
    (show receive (plain n) x j proposal (w₁.nodes x) = (candidate x acks, []) by
      rw [hx₁, candidate_stays hxj])
  have hback₂ : w₂.net j x = [acknowledgement] := by simp [hnet₂, post, leave, hne.symm]
  obtain ⟨w₃, hr₃, hn₃, hnet₃⟩ := hr₂.deliver hback₂
    (show receive (plain n) x j acknowledgement (w₂.nodes x) = (candidate x (insert j acks), []) by
      rw [hn₂, update_self, candidate_counts hyx hyj hy])
  refine ⟨w₃, hr₃, by rw [hn₃, update_self], ?_, fun i hix hij => ?_, fun s d hsd hds => ?_⟩
  · rw [hn₃, update_of_ne hne.symm, hn₂, update_of_ne hne.symm, hn₁, update_self]
  · rw [hn₃, update_of_ne hix, hn₂, update_of_ne hix, hn₁, update_of_ne hij]
  · rw [hnet₃, hnet₂, hnet₁]
    by_cases hs : s = j
    · have hd : d ≠ x := fun h => hds ⟨hs, h⟩
      simp [post, leave, hs, hd, hd.symm, hne.symm]
    · by_cases hsx : s = x
      · have hd : d ≠ j := fun h => hsd ⟨hsx, h⟩
        simp [post, leave, hsx, hd, hne]
      · simp [post, leave, hs, hsx]

end

/-- The ranks below `k` from 2 on have acknowledged 0 and 1; the others have only proposed. -/
structure Polled (k : ℕ) (w : World (Fin n) (Monitor n) (Message n)) : Prop where
  reachable : Reachable (elector (plain n)) w
  candidates : ∀ x : Fin n, (x : ℕ) < 2 →
    w.nodes x = candidate x (Finset.univ.filter fun i => 2 ≤ (i : ℕ) ∧ (i : ℕ) < k)
  waiting : ∀ j : Fin n, 2 ≤ (j : ℕ) → k ≤ j → w.nodes j = candidate j ∅
  channels : ∀ x j : Fin n, (x : ℕ) < 2 → 2 ≤ (j : ℕ) → k ≤ j →
    w.net x j = [proposal] ∧ w.net j x = [proposal]

theorem exists_polled (k : ℕ) (hk : 2 ≤ k) (hkn : k ≤ n) :
    ∃ w : World (Fin n) (Monitor n) (Message n), Polled k w := by
  induction k, hk using Nat.le_induction with
  | base =>
    obtain ⟨w, hr, hnodes, hnet⟩ := all_started n le_rfl
    refine ⟨w, hr, fun x hx => ?_, fun j hj _ => ?_, fun x j hx hj _ => ?_⟩
    · rw [hnodes, if_pos x.2]
      congr 1
      refine (Finset.filter_eq_empty_iff.2 fun i _ h => ?_).symm
      omega
    · rw [hnodes, if_pos j.2]
    · have hne : j ≠ x := fun h => by omega
      exact ⟨by rw [hnet, if_pos ⟨x.2, hne⟩], by rw [hnet, if_pos ⟨j.2, hne.symm⟩]⟩
  | succ k hk ih =>
    obtain ⟨w, hr, hcand, hwait, hchan⟩ := ih (by omega)
    let j : Fin n := ⟨k, hkn⟩
    let a : Fin n := ⟨0, by omega⟩
    let b : Fin n := ⟨1, by omega⟩
    have hinsert : insert j (Finset.univ.filter fun i : Fin n => 2 ≤ (i : ℕ) ∧ (i : ℕ) < k)
        = Finset.univ.filter fun i : Fin n => 2 ≤ (i : ℕ) ∧ (i : ℕ) < k + 1 := by
      ext i
      simp only [Finset.mem_insert, Finset.mem_filter, Finset.mem_univ, true_and, Fin.ext_iff, j]
      omega
    have hab : a ≠ b := by simp [a, b]
    have haj : a < j := Fin.lt_def.2 (by simp only [a, j]; omega)
    have hbj : b < j := Fin.lt_def.2 (by simp only [b, j]; omega)
    have hwaits := hwait j (by simpa using hk) le_rfl
    have hchanA := hchan a j (by simp [a]) (by simpa using hk) le_rfl
    have hchanB := hchan b j (by simp [b]) (by simpa using hk) le_rfl
    -- first the monitor acknowledges 1, then 0
    obtain ⟨w₁, hr₁, hb₁, hj₁, hnodes₁, hnet₁⟩ := poll hr hbj hab haj.ne (by simp [a])
      (hcand b (by simp [b])) (by rw [hwaits, candidate_defers hbj]) hchanB.1 hchanB.2
    obtain ⟨w₂, hr₂, ha₂, -, hnodes₂, hnet₂⟩ := poll hr₁ haj hab.symm hbj.ne
      (by simp [b]) ((hnodes₁ a hab haj.ne).trans (hcand a (by simp [a])))
      (by rw [hj₁, deferred_defers haj (Fin.lt_def.2 (by simp [a, b]))])
      (by rw [hnet₁ a j (by simp [hab]) (by simp [haj.ne]), hchanA.1])
      (by rw [hnet₁ j a (by simp [hbj.ne']) (by simp [hab]), hchanA.2])
    refine ⟨w₂, hr₂, fun x hx => ?_, fun i hi hki => ?_, fun x i hx hi hki => ?_⟩
    · rcases (by omega : (x : ℕ) = 0 ∨ (x : ℕ) = 1) with hx | hx
      · obtain rfl : x = a := Fin.ext hx
        rw [ha₂, hinsert]
      · obtain rfl : x = b := Fin.ext hx
        rw [hnodes₂ b hab.symm hbj.ne, hb₁, hinsert]
    · have hia : i ≠ a := fun h => by simp [h, a] at hi
      have hib : i ≠ b := fun h => by simp [h, b] at hi
      have hij : i ≠ j := fun h => by simp [h, j] at hki
      rw [hnodes₂ i hia hij, hnodes₁ i hib hij, hwait i hi (by omega)]
    · have hij : i ≠ j := fun h => by simp [h, j] at hki
      have hxj : x ≠ j := fun h => by omega
      obtain ⟨hto, hback⟩ := hchan x i hx hi (by omega)
      rw [hnet₂ x i (by simp [hij]) (by simp [hxj]), hnet₁ x i (by simp [hij]) (by simp [hxj]),
        hnet₂ i x (by simp [hxj]) (by simp [hij]), hnet₁ i x (by simp [hxj]) (by simp [hij])]
      exact ⟨hto, hback⟩

/-- **Two winners**: with three or more monitors the ranks 0 and 1 can win the same epoch. -/
theorem exists_two_winners (hn : 3 ≤ n) : ∃ w, Reachable (elector (plain n)) w ∧
      ∀ x : Fin n, (x : ℕ) < 2 → (w.nodes x).state = .leader ∧ (w.nodes x).won = [2] := by
  obtain ⟨w, hr, hcand, -⟩ := exists_polled n (by omega) le_rfl
  let a : Fin n := ⟨0, by omega⟩
  let b : Fin n := ⟨1, by omega⟩
  have hab : a ≠ b := by simp [a, b]
  have hmajority : ∀ x : Fin n, (x : ℕ) < 2 → n / 2 <
      (insert x (Finset.univ.filter fun i : Fin n => 2 ≤ (i : ℕ) ∧ (i : ℕ) < n)).card := by
    intro x hx
    -- everyone but the other candidate
    have hsub : Finset.univ.erase (⟨1 - x, by omega⟩ : Fin n) ⊆
        insert x (Finset.univ.filter fun i : Fin n => 2 ≤ (i : ℕ) ∧ (i : ℕ) < n) := by
      intro i hi
      simp only [Finset.mem_erase, Finset.mem_insert, Finset.mem_filter, Finset.mem_univ, true_and,
        and_true, ne_eq, Fin.ext_iff] at hi ⊢
      omega
    have hcard := Finset.card_le_card hsub
    rw [Finset.card_erase_of_mem (Finset.mem_univ _), Finset.card_univ, Fintype.card_fin] at hcard
    omega
  refine ⟨_, .step (.step hr (.call w a Call.expire)) (.call _ b Call.expire), fun x hx => ?_⟩
  have hwins := candidate_wins (hmajority x hx)
  rw [← hcand x hx] at hwins
  rcases (by omega : (x : ℕ) = 0 ∨ (x : ℕ) = 1) with hx | hx
  · obtain rfl : x = a := Fin.ext hx
    simpa [World.act, elector, update_of_ne hab] using hwins
  · obtain rfl : x = b := Fin.ext hx
    simpa [World.act, elector, update_of_ne hab.symm] using hwins

/-- **One winner for each epoch** is what maps of at most two monitors give. -/
theorem unique_winner_iff (n : ℕ) :
    (∀ (c : Cluster n) (w : World (Fin n) (Monitor n) (Message n)), Reachable (elector c) w →
      ∀ i j e, e ∈ (w.nodes i).won → e ∈ (w.nodes j).won → i = j) ↔ n ≤ 2 := by
  constructor
  · intro h
    by_contra hn
    obtain ⟨w, hr, hwin⟩ := exists_two_winners (n := n) (by omega)
    have heq := h (plain n) w hr ⟨0, by omega⟩ ⟨1, by omega⟩ 2 (by simp [(hwin _ _).2])
      (by simp [(hwin _ _).2])
    simp at heq
  · intro hn c w hr i j e hi hj
    have hsound := (hr.invariant (elector_keeps c)).1
    have hwi := (hsound i).won (ne_nil_of_mem hi)
    have hwj := (hsound j).won (ne_nil_of_mem hj)
    apply Fin.ext
    omega

/-- Three monitors, and two leaders of the same epoch at the same time. -/
theorem two_leaders_of_three : ∃ w, Reachable (elector (plain 3)) w ∧
    (w.nodes 0).state = .leader ∧ (w.nodes 1).state = .leader ∧
    2 ∈ (w.nodes 0).won ∧ 2 ∈ (w.nodes 1).won := by
  obtain ⟨w, hr, hwin⟩ := exists_two_winners le_rfl
  obtain ⟨h₀, hwon₀⟩ := hwin 0 (by decide)
  obtain ⟨h₁, hwon₁⟩ := hwin 1 (by decide)
  exact ⟨w, hr, h₀, h₁, by simp [hwon₀], by simp [hwon₁]⟩

/-- **Only the better half leads.**  Whatever is called and delivered, no monitor of the worse half
wins an epoch, and a monitor defers to better ranks only. -/
theorem worse_half_never_wins {c : Cluster n} {w : World (Fin n) (Monitor n) (Message n)}
    (hr : Reachable (elector c) w) (i : Fin n) :
    (n - n / 2 ≤ i → (w.nodes i).won = []) ∧ ∀ l, (w.nodes i).leaderAcked = some l → l ≤ i := by
  have hsound := (hr.invariant (elector_keeps c)).1 i
  refine ⟨fun hi => by_contra fun hwon => ?_, hsound.leaderAcked_le⟩
  have := hsound.won hwon
  omega

theorem worse_half_never_wins_three : ∃ w, Reachable (elector (plain 3)) w ∧
    (w.nodes 0).won = [2] ∧ (w.nodes 2).won = [] := by
  obtain ⟨w, hr, hwin⟩ := exists_two_winners le_rfl
  exact ⟨w, hr, (hwin 0 (by decide)).2, (worse_half_never_wins hr 2).1 (by decide)⟩

end Ceph.Mon
