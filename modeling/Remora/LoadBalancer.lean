import Remora.OwnershipHints
import Remora.Proxy

/-!
# The load balancer

The load balancer splits every committed batch into the transactions without shared
objects and the others. The owned forwarder sends the first ones out round robin, the
shared forwarder the second ones, and in `PrimaryPreSeparation` the stateless forwarder
sends verification requests. The three choose the kind of a message on their own, and
`handle_primary_message` panics on a kind it does not expect in its mode.

The shared and the stateless forwarder go by the mode. The owned forwarder goes by a
`LoadBalancingPolicy`, which is fixed to `RoundRobin` whatever the mode is, and sends
`StatelessTxn` and `Txn` even to proxies that accept nothing but `CombinedTxn`
(`same_protocol_iff`).
-/

namespace Remora

open Function ForwardAction

variable {τ ω : Type}

/-- How the owned forwarder distributes transactions. -/
inductive LoadBalancingPolicy
  | RoundRobin
  | Zeus
  | Dedicated
  | Combined
  | TwoTier
  | LocalityLoad
  deriving DecidableEq, Repr

namespace OwnedObjTxnForwarder

/-- The messages for one transaction, whose turn is at `idx`. `none` : a panic, as a
dedicated proxy is not connected or the policy is not implemented. -/
def forwardOwnedTxn (policy : LoadBalancingPolicy) (connections : List ProxyId) (idx : ProxyId)
    (t : RemoraTransaction τ) : Option (List (ProxyId × PrimaryToProxyMessage τ)) :=
  match policy with
  | .RoundRobin | .Zeus =>
    if idx ∈ connections then
      some [(idx, .statelessTxn (makeVerificationRequest t)), (idx, .txn t idx [])]
    else some []
  | .Combined => if idx ∈ connections then some [(idx, .combinedTxn t idx [])] else some []
  | .Dedicated =>
    if 0 ∈ connections ∧ 1 ∈ connections then
      some [(0, .statelessTxn (makeVerificationRequest t)), (1, .txn t 0 [])]
    else none
  | .TwoTier | .LocalityLoad => none

/-- The messages for transactions that take turns from `start` on. -/
def forwardOwnedTxns (policy : LoadBalancingPolicy) (connections : List ProxyId) :
    ℕ → List (RemoraTransaction τ) → Option (List (ProxyId × PrimaryToProxyMessage τ))
  | _, [] => some []
  | start, t :: ts => do
    let msgs ← forwardOwnedTxn policy connections (start % connections.length) t
    let rest ← forwardOwnedTxns policy connections (start + 1) ts
    some (msgs ++ rest)

/-- The index for the next batch, and the messages for this one, in some order. -/
def forwardOwnedTxnsInParallel (policy : LoadBalancingPolicy) (connections : List ProxyId)
    (index : ℕ) (txns : List (RemoraTransaction τ)) :
    Option (ℕ × List (ProxyId × PrimaryToProxyMessage τ)) :=
  if connections.length = 0 then some (index, [])
  else (forwardOwnedTxns policy connections index txns).map fun msgs =>
    ((index + txns.length) % connections.length, msgs)

/-- The messages for the batches received. -/
def processOwnedTxns (policy : LoadBalancingPolicy) (connections : List ProxyId) :
    ℕ → List (List (RemoraTransaction τ)) → Option (List (ProxyId × PrimaryToProxyMessage τ))
  | _, [] => some []
  | index, txns :: batches => do
    let (index', msgs) ← forwardOwnedTxnsInParallel policy connections index txns
    let rest ← processOwnedTxns policy connections index' batches
    some (msgs ++ rest)

end OwnedObjTxnForwarder

open OwnedObjTxnForwarder

/-- What the load balancer is configured with, and the batches committed. -/
structure LoadBalancer (τ : Type) where
  mode : SeparationMode
  policy : PreConsensusSchedulingPolicy
  connections : List ProxyId
  numWorkers : ℕ
  bufferSize : ℕ
  batches : List (List (RemoraTransaction τ))
  nodup : connections.Nodup

namespace LoadBalancer

variable (L : LoadBalancer τ)

/-- The owned-only transactions of each batch that has some. -/
def ownedBatches : List (List (RemoraTransaction τ)) :=
  (L.batches.map fun b => b.filter fun t => t.sharedObjects.isEmpty).filter (!·.isEmpty)

/-- The shared-object transactions, in the order they were committed. -/
def sharedTxns : List (RemoraTransaction τ) :=
  L.batches.flatMap fun b => b.filter fun t => !t.sharedObjects.isEmpty

/-- `initialize_processors` sets the owned forwarder to `RoundRobin`, from index 0. -/
def ownedMessages : Option (List (ProxyId × PrimaryToProxyMessage τ)) :=
  processOwnedTxns .RoundRobin L.connections 0 L.ownedBatches

/-- The shared forwarder. -/
def primary : Primary τ where
  mode := L.mode
  policy := L.policy
  connections := L.connections
  numWorkers := L.numWorkers
  bufferSize := L.bufferSize
  txns := L.sharedTxns
  nodup := L.nodup

/-- `msg` may be sent to the connected proxy `p`. -/
inductive Sends (p : ProxyId) (msg : PrimaryToProxyMessage τ) : Prop
  | owned {msgs : List (ProxyId × PrimaryToProxyMessage τ)} :
      L.ownedMessages = some msgs → (p, msg) ∈ msgs → Sends p msg
  | shared {s : SharedObjTxnForwarder.State τ} {id : MessageId} :
      (SharedObjTxnForwarder.system L.primary).Reachable s →
      s.context.sent id = some (p, msg) → p ∈ L.connections → Sends p msg

/-! ## The owned forwarder -/

/-- All owned-only transactions, in the order of their turns. -/
def ownedTxns : List (RemoraTransaction τ) :=
  L.ownedBatches.flatten

/-- Round robin never panics, and the `k`-th transaction has its turn at `k` modulo the
number of proxies. -/
theorem mem_forwardOwnedTxns (connections : List ProxyId) (start : ℕ)
    (txns : List (RemoraTransaction τ)) :
    ∃ msgs, forwardOwnedTxns .RoundRobin connections start txns = some msgs ∧
      ∀ p msg, (p, msg) ∈ msgs ↔ ∃ k t, txns[k]? = some t ∧ p ∈ connections ∧
        p = (start + k) % connections.length ∧
        (msg = .statelessTxn (makeVerificationRequest t) ∨ msg = .txn t p []) := by
  induction txns generalizing start with
  | nil => exact ⟨[], rfl, by simp⟩
  | cons t ts ih =>
    obtain ⟨rest, hrest, hmem⟩ := ih (start + 1)
    have hone : ∃ msgs, forwardOwnedTxn .RoundRobin connections (start % connections.length) t =
        some msgs ∧ ∀ p msg, (p, msg) ∈ msgs ↔ p ∈ connections ∧
          p = start % connections.length ∧
          (msg = .statelessTxn (makeVerificationRequest t) ∨ msg = .txn t p []) := by
      simp only [forwardOwnedTxn]
      split_ifs with h
      · refine ⟨_, rfl, fun p msg => ?_⟩
        simp only [List.mem_cons, Prod.mk.injEq, List.not_mem_nil, or_false]
        constructor
        · rintro (⟨rfl, rfl⟩ | ⟨rfl, rfl⟩)
          · exact ⟨h, rfl, Or.inl rfl⟩
          · exact ⟨h, rfl, Or.inr rfl⟩
        · rintro ⟨-, rfl, rfl | rfl⟩
          · exact Or.inl ⟨rfl, rfl⟩
          · exact Or.inr ⟨rfl, rfl⟩
      · refine ⟨_, rfl, fun p msg => ⟨fun hm => by simp at hm, ?_⟩⟩
        rintro ⟨hp, rfl, -⟩
        exact absurd hp h
    obtain ⟨msgs, hmsgs, hone⟩ := hone
    refine ⟨msgs ++ rest, by simp [forwardOwnedTxns, hmsgs, hrest], fun p msg => ?_⟩
    rw [List.mem_append, hone, hmem]
    constructor
    · rintro (⟨hp, hidx, hm⟩ | ⟨k, t', hk, hp, hidx, hm⟩)
      · exact ⟨0, t, rfl, hp, hidx, hm⟩
      · exact ⟨k + 1, t', hk, hp, by rw [hidx]; congr 1; omega, hm⟩
    · rintro ⟨k, t', hk, hp, hidx, hm⟩
      cases k with
      | zero =>
        obtain rfl := Option.some.inj hk
        exact Or.inl ⟨hp, hidx, hm⟩
      | succ k => exact Or.inr ⟨k, t', hk, hp, by rw [hidx]; congr 1; omega, hm⟩

theorem mem_processOwnedTxns (connections : List ProxyId) (total : ℕ)
    (batches : List (List (RemoraTransaction τ))) :
    ∃ msgs, processOwnedTxns .RoundRobin connections (total % connections.length) batches =
      some msgs ∧ ∀ p msg, (p, msg) ∈ msgs ↔ ∃ k t, batches.flatten[k]? = some t ∧
        p ∈ connections ∧ p = (total + k) % connections.length ∧
        (msg = .statelessTxn (makeVerificationRequest t) ∨ msg = .txn t p []) := by
  induction batches generalizing total with
  | nil => exact ⟨[], rfl, by simp⟩
  | cons txns batches ih =>
    by_cases hn : connections.length = 0
    · obtain ⟨rest, hrest, hmem⟩ := ih total
      have hnil : connections = [] := List.length_eq_zero_iff.mp hn
      refine ⟨rest, ?_, fun p msg => ?_⟩
      · simp [processOwnedTxns, forwardOwnedTxnsInParallel, hn] at hrest ⊢
        exact hrest
      rw [hmem]
      simp [hnil]
    · obtain ⟨msgs, hmsgs, hone⟩ :=
        mem_forwardOwnedTxns connections (total % connections.length) txns
      obtain ⟨rest, hrest, hmem⟩ := ih (total + txns.length)
      refine ⟨msgs ++ rest, ?_, fun p msg => ?_⟩
      · simp [processOwnedTxns, forwardOwnedTxnsInParallel, hn, hmsgs, hrest]
      · rw [List.mem_append, hone, hmem, List.flatten_cons]
        constructor
        · rintro (⟨k, t, hk, hp, hidx, hm⟩ | ⟨k, t, hk, hp, hidx, hm⟩)
          · obtain ⟨hlt, -⟩ := List.getElem?_eq_some_iff.mp hk
            exact ⟨k, t, by rw [List.getElem?_append_left hlt, hk], hp, by simpa using hidx, hm⟩
          · refine ⟨txns.length + k, t, ?_, hp, by rw [hidx, Nat.add_assoc], hm⟩
            rw [List.getElem?_append_right (by omega), Nat.add_sub_cancel_left, hk]
        · rintro ⟨k, t, hk, hp, hidx, hm⟩
          rcases Nat.lt_or_ge k txns.length with hlt | hge
          · rw [List.getElem?_append_left hlt] at hk
            exact Or.inl ⟨k, t, hk, hp, by simpa using hidx, hm⟩
          · rw [List.getElem?_append_right hge] at hk
            exact Or.inr ⟨k - txns.length, t, hk, hp, by rw [hidx]; congr 1; omega, hm⟩

/-! ## The protocol -/

theorem isSome_handlePrimaryMessage {mode : SeparationMode} {p : ProxyId}
    {msg : PrimaryToProxyMessage τ} :
    (Cluster.handlePrimaryMessage mode p msg : Option (List (ProxyAction ω))).isSome ↔
      match msg with
      | .statelessTxn _ | .txn _ _ _ => mode.isPrimarySeparation = true
      | .combinedTxn _ _ _ => mode.isPrimarySeparation = false := by
  cases msg <;> simp only [Cluster.handlePrimaryMessage] <;> split_ifs <;> simp_all

/-- What the shared and the stateless forwarder send is accepted in every mode. -/
theorem accepted_of_sent {C : Primary τ} {s : SharedObjTxnForwarder.State τ}
    (hs : (SharedObjTxnForwarder.system C).Reachable s) {id : MessageId} {p : ProxyId}
    {msg : PrimaryToProxyMessage τ} (h : s.context.sent id = some (p, msg)) :
    (Cluster.handlePrimaryMessage C.mode p msg : Option (List (ProxyAction ω))).isSome := by
  rw [isSome_handlePrimaryMessage]
  cases id with
  | stateless n =>
    obtain ⟨hmode, r, rfl⟩ := SharedObjTxnForwarder.statelessTxn_of_sent hs h
    exact hmode
  | stateful i =>
    obtain ⟨-, -, t, -, rfl⟩ :=
      (SharedObjTxnForwarder.hints_of_reachable hs).sent_eq_some h
    cases hmode : C.mode.isPrimarySeparation <;> simp [statefulMessage, hmode]

/-- Every message the three forwarders send to a connected proxy is one that
`handle_primary_message` accepts in the mode they share, if and only if the primary
separates stateless work, or no owned-only transaction has its turn at a connected
proxy. The `k`-th owned-only transaction has its turn at `k` modulo the number of
proxies, so for proxies numbered from 0 the second condition says that no owned-only
transaction is committed, or no proxy is connected. -/
theorem same_protocol_iff (L : LoadBalancer τ) :
    (∀ p msg, L.Sends p msg →
      (Cluster.handlePrimaryMessage L.mode p msg : Option (List (ProxyAction ω))).isSome) ↔
    L.mode.isPrimarySeparation = true ∨
      ∀ k < L.ownedTxns.length, k % L.connections.length ∉ L.connections := by
  obtain ⟨msgs, hmsgs, hmem⟩ := mem_processOwnedTxns L.connections 0 L.ownedBatches
  rw [Nat.zero_mod] at hmsgs
  constructor
  · intro haccept
    by_contra hcond
    simp only [not_or, Bool.not_eq_true, not_forall, not_not] at hcond
    obtain ⟨hmode, k, hk, hconn⟩ := hcond
    have hsent : (k % L.connections.length, .txn L.ownedTxns[k] (k % L.connections.length) []) ∈
        msgs := by
      rw [hmem]
      refine ⟨k, L.ownedTxns[k], ?_, hconn, by rw [Nat.zero_add], Or.inr rfl⟩
      exact List.getElem?_eq_getElem hk
    have := isSome_handlePrimaryMessage.mp (haccept _ _ (.owned hmsgs hsent))
    simp [hmode] at this
  · rintro hcond p msg (⟨hmsgs', hm⟩ | ⟨hs, hsent, -⟩)
    · obtain rfl := Option.some.inj (hmsgs.symm.trans hmsgs')
      obtain ⟨k, t, hk, hp, hidx, hm⟩ := (hmem p msg).mp hm
      rcases hcond with hmode | hnone
      · rw [isSome_handlePrimaryMessage]
        rcases hm with rfl | rfl <;> exact hmode
      · obtain ⟨hlt, -⟩ := List.getElem?_eq_some_iff.mp hk
        rw [hidx, Nat.zero_add] at hp
        exact absurd hp (hnone k hlt)
    · exact accepted_of_sent hs hsent

/-- The default mode, one proxy, and one transaction on an owned object. -/
def oneOwned : LoadBalancer Unit where
  mode := .NoSeparation
  policy := .RSDS
  connections := [0]
  numWorkers := 16
  bufferSize := 1
  batches := [[.new () 10 [.immOrOwnedMoveObject 7] 1 1]]
  nodup := by decide

/-- Its verification request is sent, and the proxy panics on it. -/
theorem unexpected_message :
    ∃ p msg, oneOwned.Sends p msg ∧
      (Cluster.handlePrimaryMessage oneOwned.mode p msg :
        Option (List (ProxyAction FakeObject))) = none := by
  have hsent : oneOwned.ownedMessages = some [(0, .statelessTxn ⟨10, 1⟩),
      (0, .txn (.new () 10 [.immOrOwnedMoveObject 7] 1 1) 0 [])] := rfl
  exact ⟨0, .statelessTxn ⟨10, 1⟩, .owned hsent List.mem_cons_self, rfl⟩

end LoadBalancer

end Remora
