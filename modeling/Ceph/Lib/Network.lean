import Mathlib.Data.List.Basic

/-!
# Processes over an asynchronous network

A network of processes with one channel for each ordered pair of them.  A channel
delivers in order, after any delay, and may lose what it carries; a process acts when
a message arrives or when its surroundings call it.

* `Step`, `Reachable` — the steps of the network and the worlds they lead to.
* `Reachable.invariant` — what every process keeps about its own state and guarantees
  for every message it sends, given the same of the messages it receives, holds in
  every reachable world.
-/

namespace Ceph.Network

variable {ι S M C : Type}

/-- The processes' states and the messages in flight from each one to each other,
oldest first. -/
structure World (ι S M : Type) where
  nodes : ι → S
  net : ι → ι → List M

/-- What a process does: with a message (receiver, sender, message) and with a call.
The messages it sends come with their receivers. -/
structure Protocol (ι S M C : Type) where
  initial : ι → S → Prop
  receive : ι → ι → M → S → S × List (ι × M)
  call : ι → C → S → S × List (ι × M)

variable [DecidableEq ι]

/-- The channels after `src` sent `out`. -/
def post (src : ι) (out : List (ι × M)) (net : ι → ι → List M) : ι → ι → List M := fun s d =>
  if s = src then net s d ++ (out.filter fun p => p.1 = d).map Prod.snd else net s d

/-- The channels with `rest` left in the one from `src` to `dst`. -/
def leave (src dst : ι) (rest : List M) (net : ι → ι → List M) : ι → ι → List M := fun s d =>
  if s = src ∧ d = dst then rest else net s d

/-- The world after process `i` moved to the state and sent the messages of `r`. -/
def World.act (w : World ι S M) (i : ι) (r : S × List (ι × M)) : World ι S M where
  nodes := Function.update w.nodes i r.1
  net := post i r.2 w.net

/-- The world with `rest` left in the channel from `src` to `dst`. -/
def World.leave (w : World ι S M) (src dst : ι) (rest : List M) : World ι S M :=
  { w with net := Network.leave src dst rest w.net }

/-- One step: a call, a delivery, or a loss. -/
inductive Step (P : Protocol ι S M C) : World ι S M → World ι S M → Prop
  | call (w : World ι S M) (i : ι) (c : C) : Step P w (w.act i (P.call i c (w.nodes i)))
  | deliver (w : World ι S M) {src dst : ι} {m : M} {rest : List M}
      (h : w.net src dst = m :: rest) :
      Step P w ((w.leave src dst rest).act dst (P.receive dst src m (w.nodes dst)))
  | lose (w : World ι S M) {src dst : ι} {m : M} {rest : List M}
      (h : w.net src dst = m :: rest) : Step P w (w.leave src dst rest)

/-- The worlds that runs of the protocol lead to. -/
inductive Reachable (P : Protocol ι S M C) : World ι S M → Prop
  | init (nodes : ι → S) (h : ∀ i, P.initial i (nodes i)) :
      Reachable P { nodes := nodes, net := fun _ _ => [] }
  | step {w w' : World ι S M} (h : Reachable P w) (hs : Step P w w') : Reachable P w'

/-! ## Channels -/

variable {net : ι → ι → List M}

theorem mem_post {src s d : ι} {out : List (ι × M)} {m : M} (h : m ∈ post src out net s d) :
    m ∈ net s d ∨ (s = src ∧ (d, m) ∈ out) := by
  unfold post at h
  split_ifs at h with hs
  · rcases List.mem_append.1 h with h | h
    · exact .inl h
    · obtain ⟨⟨d', m'⟩, hmem, rfl⟩ := List.mem_map.1 h
      obtain ⟨hout, hd⟩ := List.mem_filter.1 hmem
      exact .inr ⟨hs, of_decide_eq_true hd ▸ hout⟩
  · exact .inl h

theorem mem_leave {src dst s d : ι} {m₀ m : M} {rest : List M} (hnet : net src dst = m₀ :: rest)
    (h : m ∈ leave src dst rest net s d) : m ∈ net s d := by
  unfold leave at h
  split_ifs at h with hs
  · rw [hs.1, hs.2, hnet]
    exact List.mem_cons_of_mem _ h
  · exact h

/-- A delivery, and what it leaves everywhere else. -/
theorem Reachable.deliver {P : Protocol ι S M C} {w : World ι S M} (h : Reachable P w)
    {src dst : ι} {m : M} {rest : List M} (hnet : w.net src dst = m :: rest) {s : S}
    {out : List (ι × M)} (hrec : P.receive dst src m (w.nodes dst) = (s, out)) :
    ∃ w', Reachable P w' ∧ w'.nodes = Function.update w.nodes dst s ∧
      w'.net = post dst out (leave src dst rest w.net) :=
  ⟨_, .step h (.deliver w hnet), by rw [hrec]; rfl, by rw [hrec]; rfl⟩

/-! ## Invariants -/

/-- What each process knows of its state, and what it guarantees for each message
(sender, receiver, message). -/
structure Keeps (P : Protocol ι S M C) (I : ι → S → Prop) (J : ι → ι → M → Prop) : Prop where
  initial : ∀ i s, P.initial i s → I i s
  call : ∀ i c s, I i s → I i (P.call i c s).1 ∧ ∀ p ∈ (P.call i c s).2, J i p.1 p.2
  receive : ∀ i src m s, I i s → J src i m →
    I i (P.receive i src m s).1 ∧ ∀ p ∈ (P.receive i src m s).2, J i p.1 p.2

variable {P : Protocol ι S M C} {I : ι → S → Prop} {J : ι → ι → M → Prop} {w w' : World ι S M}

theorem act_keeps {i : ι} {r : S × List (ι × M)} (hI : ∀ j, I j (w.nodes j))
    (hJ : ∀ s d, ∀ m ∈ w.net s d, J s d m) (hr : I i r.1) (hout : ∀ p ∈ r.2, J i p.1 p.2) :
    (∀ j, I j ((w.act i r).nodes j)) ∧ ∀ s d, ∀ m ∈ (w.act i r).net s d, J s d m := by
  refine ⟨(Function.forall_update_iff _ I).2 ⟨hr, fun j _ => hI j⟩, fun s d m hm => ?_⟩
  · rcases mem_post hm with hold | ⟨rfl, hnew⟩
    · exact hJ s d m hold
    · exact hout (d, m) hnew

/-- **Local invariants and message guarantees hold in every reachable world.** -/
theorem Reachable.invariant (hkeep : Keeps P I J) (h : Reachable P w) :
    (∀ i, I i (w.nodes i)) ∧ ∀ s d, ∀ m ∈ w.net s d, J s d m := by
  induction h with
  | init nodes hinit => exact ⟨fun i => hkeep.initial i _ (hinit i), by simp⟩
  | step h hs ih =>
    obtain ⟨hI, hJ⟩ := ih
    cases hs with
    | call i c =>
      obtain ⟨hi, hout⟩ := hkeep.call i c _ (hI i)
      exact act_keeps hI hJ hi hout
    | deliver hnet =>
      rename_i w src dst m rest
      have hm : J src dst m := hJ src dst m (by rw [hnet]; exact List.mem_cons_self)
      obtain ⟨hi, hout⟩ := hkeep.receive dst src m _ (hI dst) hm
      exact act_keeps hI (fun s d m' hm' => hJ s d m' (mem_leave hnet hm')) hi hout
    | lose hnet => exact ⟨hI, fun s d m' hm' => hJ s d m' (mem_leave hnet hm')⟩

end Ceph.Network
