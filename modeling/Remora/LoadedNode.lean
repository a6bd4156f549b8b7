import Remora.Network
import Remora.NodeCompletion
import Mathlib.Tactic.FinCases

/-!
# A node and its clients

The clients of a load generator submit transactions over their connections, and the consensus of a
primary node receives them one by one from the one channel of its server. A step is one of the
network, or of the node, or it moves a transaction from one to the other (`step`).

The network is the environment of the node in which only what the clients sent arrives
(`Joined`). So what is known of a node that receives something, and of a network that delivers what
is sent, holds of both together : everything the clients submit is executed
(`executes_workload`).
-/

namespace Remora

open Function

/-- The node, and what the clients submit over each connection. -/
structure LoadedNode (ι τ ω : Type) where
  node : PrimaryNode τ ω
  serialize : RemoraTransaction τ → List UInt8
  deserialize : List UInt8 → Option (RemoraTransaction τ)
  transactions : ι → List (RemoraTransaction τ)

namespace LoadedNode

variable {ι τ ω : Type}

structure State (ι τ ω : Type) where
  network : Network.State ι (RemoraTransaction τ)
  node : PrimaryNode.State τ ω

inductive Event (ι τ : Type)
  | network (e : Network.Event ι)
  /-- The consensus receives a transaction from the server. -/
  | arrive
  | node (e : PrimaryNode.Event τ)

variable (L : LoadedNode ι τ ω)

/-- The capacity of `tx_transactions`. -/
def clientChannelSize : ℕ := 1000000

/-- The connections of the clients to the server of the node. -/
def network : Network ι (RemoraTransaction τ) where
  serialize := L.serialize
  deserialize := L.deserialize
  messages := L.transactions
  outgoingSize := clientChannelSize
  incomingSize := L.node.channelSize

def State.init : State ι τ ω where
  network := Network.State.init L.network
  node := PrimaryNode.State.init L.node

/-- To the node nothing comes from elsewhere. -/
def isArrive : PrimaryNode.Event τ → Bool
  | .consensus (.arrive _) => true
  | _ => false

variable [DecidableEq ι]

def step (s : State ι τ ω) : Event ι τ → Option (State ι τ ω)
  | .network e =>
    if e = .receive then none
    else (Network.step L.network s.network e).map fun n => { s with network := n }
  | .arrive => do
    let (_, t) ← s.network.incoming[s.network.received]?
    let network ← Network.step L.network s.network .receive
    let node ← PrimaryNode.step L.node s.node (.consensus (.arrive t))
    pure ⟨network, node⟩
  | .node e =>
    if isArrive e then none
    else (PrimaryNode.step L.node s.node e).map fun n => { s with node := n }

/-- Every interleaving of the clients, the network, the node and its proxies. -/
def system : Transition.System (State ι τ ω) (Event ι τ) where
  init s := s = State.init L
  step := step L

/-! ## Steps -/

/-- What a step does. -/
inductive StepCase (s : State ι τ ω) : Event ι τ → State ι τ ω → Prop
  | network {e : Network.Event ι} {n : Network.State ι (RemoraTransaction τ)} :
      e ≠ .receive → Network.step L.network s.network e = some n →
      StepCase s (.network e) { s with network := n }
  | arrive {i : ι} {t : RemoraTransaction τ} {n : Network.State ι (RemoraTransaction τ)}
      {d : PrimaryNode.State τ ω} : s.network.incoming[s.network.received]? = some (i, t) →
      Network.step L.network s.network .receive = some n →
      PrimaryNode.step L.node s.node (.consensus (.arrive t)) = some d → StepCase s .arrive ⟨n, d⟩
  | node {e : PrimaryNode.Event τ} {d : PrimaryNode.State τ ω} : isArrive e = false →
      PrimaryNode.step L.node s.node e = some d → StepCase s (.node e) { s with node := d }

variable {L} {s s' : State ι τ ω} {e : Event ι τ}

theorem step_cases (h : step L s e = some s') : StepCase L s e s' := by
  cases e with
  | network e =>
    obtain ⟨hreceive, h⟩ := Option.ite_none_left_eq_some.mp h
    obtain ⟨n, hn, rfl⟩ := Option.map_eq_some_iff.mp h
    exact .network hreceive hn
  | arrive =>
    obtain ⟨⟨i, t⟩, ht, h⟩ := Option.bind_eq_some_iff.mp h
    obtain ⟨n, hn, h⟩ := Option.bind_eq_some_iff.mp h
    obtain ⟨d, hd, h⟩ := Option.bind_eq_some_iff.mp h
    obtain rfl := Option.some.inj h
    exact .arrive ht hn hd
  | node e =>
    obtain ⟨harrive, h⟩ := Option.ite_none_left_eq_some.mp h
    obtain ⟨d, hd, rfl⟩ := Option.map_eq_some_iff.mp h
    exact .node (by simpa using harrive) hd

/-! ## The two parts -/

/-- The peers are workers, no connection fails, and the schedulers plan for connected proxies. -/
def Orderly (L : LoadedNode ι τ ω) (_ : State ι τ ω) : Event ι τ → Prop
  | .network e => e.isOwn = true
  | .arrive => True
  | .node e => ∀ d p, e = .deployment (.forwarder (.plan d p)) → p ∈ L.node.connections

/-- The events of the clients, the network, the node and its proxies, without new plans. -/
def isOwn (s : State ι τ ω) : Event ι τ → Bool
  | .network e => e.isOwn
  | .arrive => true
  | .node e => PrimaryNode.isOwn s.node e

omit [DecidableEq ι] in
theorem orderly_of_own (he : isOwn s e = true) : Orderly L s e := by
  cases e with
  | network e => exact he
  | arrive => trivial
  | node e =>
    rintro d p rfl
    simp [isOwn, PrimaryNode.isOwn, Deployment.Event.isOwn,
      SharedObjTxnForwarder.Event.isOwn] at he

/-- What the system does by itself is orderly. -/
theorem reachable_of_own (hs : (system L).ReachableVia (Orderly L) s)
    (h : Relation.ReflTransGen (flip ((system L).Next fun s e => isOwn s e = true)) s s') :
    (system L).ReachableVia (Orderly L) s' := by
  induction h with
  | refl => exact hs
  | tail _ hnext ih =>
    obtain ⟨e, he, hstep⟩ := hnext
    exact ih.step (orderly_of_own he) hstep

/-- What the clients submit satisfies `P`, has a shared object and a digest of its own, and can be
sent. -/
structure Submits [Fintype ι] (L : LoadedNode ι τ ω) (P : RemoraTransaction τ → Prop) : Prop where
  encodes : ∀ i, L.network.Encodes i
  all : ∀ i, ∀ t ∈ L.transactions i, P t ∧ t.sharedObjects ≠ []
  nodup : (L.network.workload.map RemoraTransaction.digest).Nodup

/-- Both parts do what they do alone, and the node has received what the server received. -/
structure Joined (L : LoadedNode ι τ ω) (P : RemoraTransaction τ → Prop) (s : State ι τ ω) :
    Prop where
  network : (Network.system L.network).ReachableVia (fun _ e => e.isOwn = true) s.network
  node : (PrimaryNode.system L.node).ReachableVia (PrimaryNode.Admitted P L.node) s.node
  received : s.node.consensus.received =
    (s.network.incoming.map Prod.snd).take s.network.received

theorem Joined.init {P : RemoraTransaction τ → Prop} : Joined L P (State.init L) :=
  ⟨.init rfl, .init rfl, rfl⟩

section Finite

variable [Fintype ι] {P : RemoraTransaction τ → Prop}

omit [DecidableEq ι] in
theorem Submits.of_mem (hL : L.Submits P) {t : RemoraTransaction τ}
    (ht : t ∈ L.network.workload) : P t ∧ t.sharedObjects ≠ [] := by
  obtain ⟨i, -, hi⟩ := Multiset.mem_sum.mp ht
  exact hL.all i t hi

/-- The next transaction is a new one. -/
theorem Joined.admitted (hL : L.Submits P) (h : Joined L P s) {i : ι} {t : RemoraTransaction τ}
    (ht : s.network.incoming[s.network.received]? = some (i, t)) :
    PrimaryNode.Admitted P L.node s.node (.consensus (.arrive t)) := by
  have hget : (s.network.incoming.map Prod.snd)[s.network.received]? = some t := by
    rw [List.getElem?_map, ht]
    rfl
  have hle := Network.incoming_le hL.encodes h.network
  obtain ⟨hP, hshared⟩ := hL.of_mem (Multiset.mem_of_le hle (List.mem_of_getElem? hget))
  refine ⟨hP, hshared, fun hmem => ?_⟩
  have hnodup : ((s.network.incoming.map Prod.snd).map RemoraTransaction.digest).Nodup :=
    Multiset.coe_nodup.mp (Multiset.nodup_of_le (Multiset.map_le_map hle) hL.nodup)
  -- It comes after what is received.
  rw [h.received, List.map_take] at hmem
  rw [← List.take_append_drop s.network.received ((s.network.incoming.map Prod.snd).map _),
    List.nodup_append'] at hnodup
  refine hnodup.2.2 hmem (List.mem_of_getElem? (i := 0) ?_)
  rw [List.getElem?_drop, Nat.add_zero, List.getElem?_map, hget]
  rfl

theorem Joined.step (hL : L.Submits P) (h : Joined L P s) (he : Orderly L s e)
    (hs : LoadedNode.step L s e = some s') : Joined L P s' := by
  have hle := Network.received_le (h.network.mono fun _ _ _ => trivial)
  cases step_cases hs with
  | @network e n hreceive hn =>
    obtain ⟨⟨more, hincoming⟩, hreceived⟩ := Network.incoming_of_step hn
    refine ⟨h.network.step he hn, h.node, ?_⟩
    rw [if_neg hreceive, Nat.add_zero] at hreceived
    rw [h.received, hreceived, ← hincoming, List.map_append,
      List.take_append_of_le_length (by simpa using hle)]
  | @arrive i t n d ht hn hd =>
    refine ⟨h.network.step (e := .receive) rfl hn, h.node.step (h.admitted hL ht) hd, ?_⟩
    cases PrimaryNode.step_cases hd with
    | consensus _ hc =>
      cases Network.step_cases hn with
      | receive hlt =>
        simp only [(MockConsensus.received_of_step hc).1, h.received, List.take_add_one,
          List.getElem?_map, ht]
        rfl
  | @node e d harrive hd =>
    refine ⟨h.network, h.node.step ?_ hd, ?_⟩
    · unfold PrimaryNode.Admitted
      split
      · simp [isArrive] at harrive
      · exact he _ _ rfl
      · trivial
    · rw [← h.received]
      cases PrimaryNode.step_cases hd with
      | @consensus e' c _ hc =>
        rw [(MockConsensus.received_of_step hc).1]
        cases e' with
        | arrive t => simp [isArrive] at harrive
        | _ => exact List.append_nil _
      | _ => rfl

theorem joined_of_reachable (hL : L.Submits P)
    (h : (system L).ReachableVia (Orderly L) s) : Joined L P s :=
  h.invariant (I := Joined L P) (by rintro _ rfl; exact .init)
    fun _ _ _ _ hI he hs => hI.step hL he hs

/-! ## At rest -/

/-- What is left to do in the network, and then in the node. -/
noncomputable def remaining (L : LoadedNode ι τ ω) (s : State ι τ ω) :
    ℕ × (ℕ × ℕ × ℕ) × (ℕ × ℕ × ℕ) :=
  (Network.work L.network s.network, PrimaryNode.remaining L.node s.node)

theorem remaining_lt (hn : 0 < L.node.numWorkers)
    (hr : (PrimaryNode.system L.node).Reachable s.node) (he : isOwn s e = true)
    (hs : step L s e = some s') : Prod.Lex (· < ·)
      (Prod.Lex Deployment.Less Deployment.Less) (remaining L s') (remaining L s) := by
  cases step_cases hs with
  | network _ hn => exact .left _ _ (Network.work_lt he hn)
  | arrive _ hn _ => exact .left _ _ (Network.work_lt rfl hn)
  | node _ hd => exact .right _ (PrimaryNode.remaining_lt hn hr he hd)

theorem acc_own (hn : 0 < L.node.numWorkers) (hL : L.Submits P) (h : Joined L P s) :
    Acc ((system L).Next fun s e => isOwn s e = true) s := by
  refine Transition.System.acc_of_decreases
    (WellFounded.prod_lex Nat.lt_wfRel.wf
      (WellFounded.prod_lex Deployment.wellFounded_less Deployment.wellFounded_less))
    (I := Joined L P) (μ := remaining L) ?_ ?_ h
  · rintro s s' hI ⟨e, he, hs⟩
    exact hI.step hL (orderly_of_own he) hs
  · rintro s s' hI ⟨e, he, hs⟩
    exact remaining_lt hn (hI.node.mono fun _ _ _ => trivial) he hs

/-- Where nothing moves, everything submitted is received, assigned and executed. -/
theorem done_of_rest (hD : (L.node.deployment s.node.assigned).DoneAtRest)
    (hsize : 0 < L.node.channelSize) (hL : L.Submits P) (h : Joined L P s)
    (hrest : ∀ e, isOwn s e = true → step L s e = none) :
    (s.node.assigned : Multiset (RemoraTransaction τ)) = L.network.workload ∧
      Deployment.Done (L.node.deployment s.node.assigned) s.node.deployment := by
  have hnode : ∀ e, PrimaryNode.isOwn s.node e = true →
      PrimaryNode.step L.node s.node e = none := by
    intro e he
    have harrive : isArrive e = false := by
      unfold isArrive
      split
      · simp [PrimaryNode.isOwn, MockConsensus.isOwn] at he
      · rfl
    simpa [step, harrive] using hrest (.node e) he
  obtain ⟨hperm, hdone⟩ := PrimaryNode.done_of_rest hD hsize h.node hnode
  have hreceived : Network.step L.network s.network .receive = none := by
    by_contra hsome
    obtain ⟨n, hn⟩ := Option.ne_none_iff_exists'.mp hsome
    cases Network.step_cases hn with
    | receive hlt =>
      obtain ⟨d, hd⟩ := Option.isSome_iff_exists.mp (PrimaryNode.isSome_arrive_of_rest
        hD hsize h.node hnode s.network.incoming[s.network.received].2)
      have hnone := hrest .arrive rfl
      simp [step, List.getElem?_eq_getElem hlt, hn, hd] at hnone
  have hnetwork : ∀ e, e.isOwn = true → Network.step L.network s.network e = none := by
    intro e he
    by_cases hreceive : e = .receive
    · exact hreceive ▸ hreceived
    · simpa [step, hreceive] using hrest (.network e) he
  have hall : s.network.received = s.network.incoming.length := by
    refine (Network.received_le (h.network.mono fun _ _ _ => trivial)).antisymm ?_
    simpa [Network.step] using hreceived
  have hincoming :=
    Network.incoming_of_rest hL.encodes h.network (by decide : 0 < clientChannelSize)
    hsize hnetwork
  refine ⟨?_, hdone⟩
  rw [← hincoming, Multiset.coe_eq_coe]
  have hlen : s.node.consensus.received = s.network.incoming.map Prod.snd := by
    rw [h.received, hall, List.take_of_length_le (by simp)]
  exact hlen ▸ hperm

/-- Whatever the clients have submitted, and in whatever order they, the network, the node and the
proxies go on, they come to rest, and then the transactions are assigned in a sequence of all that
were to be submitted, and executed. -/
def Executes (L : LoadedNode ι τ ω) : Prop :=
  ∀ s, (system L).ReachableVia (Orderly L) s →
    Acc ((system L).Next fun s e => isOwn s e = true) s ∧
    ∀ s', Relation.ReflTransGen (flip ((system L).Next fun s e => isOwn s e = true)) s s' →
      (∀ e, isOwn s' e = true → step L s' e = none) →
        (s'.node.assigned : Multiset (RemoraTransaction τ)) = L.network.workload ∧
          Deployment.Done (L.node.deployment s'.node.assigned) s'.node.deployment

/-- It is enough that each sequence of such transactions is executed. -/
theorem executes (hD : ∀ txns, PrimaryNode.Received P txns →
      (L.node.deployment txns).DoneAtRest)
    (hC : Deployment.SetUp (L.node.deployment []).primary) (hsize : 0 < L.node.channelSize)
    (hL : L.Submits P) : L.Executes := by
  refine fun s hs => ⟨acc_own hC.numWorkers hL (joined_of_reachable hL hs),
    fun s' hsteps hrest => ?_⟩
  have hjoined := joined_of_reachable hL (reachable_of_own hs hsteps)
  have hW := PrimaryNode.wired_of_reachable (hjoined.node.mono fun _ _ _ => trivial)
  have hassigned := (PrimaryNode.received_of_reachable hjoined.node).of_subperm hW.assigned_subperm
  exact done_of_rest (hD _ hassigned) hsize hL hjoined hrest

end Finite

/-- Two clients of `PrimaryNode.pairs`, with a transaction each. The frame of a transaction is its
digest. -/
def twoClients : LoadedNode (Fin 2) Unit FakeObject where
  node := PrimaryNode.pairs
  serialize t := [UInt8.ofNat t.digest]
  deserialize f := f.head?.map fun d => .new () d.toNat [.sharedMoveObject 7] 1 1
  transactions i := [.new () (11 + i) [.sharedMoveObject 7] 1 1]

end LoadedNode

end Remora
