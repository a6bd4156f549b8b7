import Remora.Deployment

/-!
# The rendezvous of the proxies

The dependency controllers of all proxies together are one rendezvous. A version is produced
by the task of its producer, and consumed at the same proxy by the task of its consumer. If the
two are at different proxies, the request of the consumer takes it where it was produced, and
the reply produces it where it is consumed.

Where a transaction goes is not known from the beginning. `protocol` is stated for places
`loc` that are fixed in advance, and holds of a run for all places that agree with where the
transactions were sent (`protocol_inv`).
-/

namespace Remora

open Function Rendezvous VersionedDependencyController Program

variable {τ ω : Type}

namespace Cluster

theorem tag_eq_get {p p' : ProxyId} {a : Action ObjectVersion} {k : ObjectVersion} :
    tag p a = .get (p', k) ↔ p = p' ∧ a = .get k := by
  cases a <;> simp [tag]

theorem tag_eq_wait {p p' : ProxyId} {a : Action ObjectVersion} {k : ObjectVersion} :
    tag p a = .wait (p', k) ↔ p = p' ∧ a = .wait k := by
  cases a <;> simp [tag]

theorem tag_eq_remove {p p' : ProxyId} {a : Action ObjectVersion} {k : ObjectVersion} :
    tag p a = .remove (p', k) ↔ p = p' ∧ a = .remove k := by
  cases a <;> simp [tag]

theorem tag_eq_notify {p p' : ProxyId} {a : Action ObjectVersion} {k : ObjectVersion} :
    tag p a = .notify (p', k) ↔ p = p' ∧ a = .notify k := by
  cases a <;> simp [tag]

theorem tag_injective (p : ProxyId) : Injective (tag p) := by
  intro a b h
  cases a <;> cases b <;> simp_all [tag]

theorem rank_tag (p : ProxyId) (a : Action ObjectVersion) : (tag p a).rank = a.rank := by
  cases a <;> rfl

end Cluster

namespace Deployment

open ProxyAction
open Cluster (tag tag_eq_get tag_eq_wait tag_eq_remove tag_eq_notify depOf RunStep Past spawned
  spawn)

/-! ## Producers and consumers at the proxies -/

section Protocol

variable (txns : List (RemoraTransaction τ)) (loc : ℕ → ProxyId)

/-- The proxy a state comes from that `j` asks for. -/
def source (j : ℕ) (k : ObjectVersion) : Option ProxyId :=
  if k ∈ required txns j then
    (producerOf txns k).bind fun i => if loc i ≠ loc j then some (loc i) else none
  else none

/-- What each thread does at the dependency controllers. -/
def dependencies : ThreadId → List (Action (ProxyId × ObjectVersion))
  | .message (.stateful i) => (dependencyProgram (required txns i)).map (tag (loc i))
  | .request (.stateful j) k =>
    match source txns loc j k with
    | some q => [.get (q, k), .wait (q, k), .remove (q, k)]
    | none => []
  | .reply (.stateful j) k =>
    if (source txns loc j k).isSome then [.get (loc j, k), .notify (loc j, k)] else []
  | _ => []

/-- The thread that notifies at `p` : the producer, or the reply to its consumer. -/
def notifier : ProxyId × ObjectVersion → Option ThreadId := fun (p, k) =>
  (producerOf txns k).bind fun i =>
    if loc i = p then some (.message (.stateful i))
    else (consumerOf txns k).bind fun j =>
      if loc j = p then some (.reply (.stateful j) k) else none

/-- The thread that waits at `p` : the consumer, or its request to the producer. -/
def waiter : ProxyId × ObjectVersion → Option ThreadId := fun (p, k) =>
  (consumerOf txns k).bind fun j =>
    if loc j = p then some (.message (.stateful j))
    else (producerOf txns k).bind fun i =>
      if loc i = p then some (.request (.stateful j) k) else none

variable {txns loc}

theorem source_eq_some {j : ℕ} {k : ObjectVersion} {q : ProxyId} :
    source txns loc j k = some q ↔
      k ∈ required txns j ∧ ∃ i, Produces txns i k ∧ loc i = q ∧ q ≠ loc j := by
  simp only [source, Option.ite_none_right_eq_some, Option.bind_eq_some_iff, producerOf_eq_some,
    Option.some.injEq]
  constructor
  · rintro ⟨hk, i, hi, hne, rfl⟩
    exact ⟨hk, i, hi, rfl, hne⟩
  · rintro ⟨hk, i, hi, rfl, hne⟩
    exact ⟨hk, i, hi, hne, rfl⟩

theorem isSome_source {j : ℕ} {k : ObjectVersion} :
    (source txns loc j k).isSome ↔
      k ∈ required txns j ∧ ∃ i, Produces txns i k ∧ loc i ≠ loc j := by
  rw [Option.isSome_iff_exists]
  constructor
  · rintro ⟨q, hq⟩
    obtain ⟨hk, i, hi, rfl, hne⟩ := source_eq_some.mp hq
    exact ⟨hk, i, hi, hne⟩
  · rintro ⟨hk, i, hi, hne⟩
    exact ⟨loc i, source_eq_some.mpr ⟨hk, i, hi, rfl, hne⟩⟩

theorem initialVersion_lt_of_produces {i : ℕ} {k : ObjectVersion} (h : Produces txns i k) :
    initialVersion < k.2 := by
  rw [(produces_iff.mp h).2]
  exact initialVersion_lt_produced i

theorem notifier_eq_message {p : ProxyId} {k : ObjectVersion} {i : ℕ} :
    notifier txns loc (p, k) = some (.message (.stateful i)) ↔ Produces txns i k ∧ loc i = p := by
  simp only [notifier, Option.bind_eq_some_iff, producerOf_eq_some]
  constructor
  · rintro ⟨i', hi, h⟩
    split_ifs at h with hp
    · obtain rfl : i' = i := by simpa using h
      exact ⟨hi, hp⟩
    · obtain ⟨j, -, h⟩ := Option.bind_eq_some_iff.mp h
      split_ifs at h
      simp at h
  · rintro ⟨hi, hp⟩
    exact ⟨i, hi, by rw [if_pos hp]⟩

theorem waiter_eq_message {p : ProxyId} {k : ObjectVersion} {j : ℕ} :
    waiter txns loc (p, k) = some (.message (.stateful j)) ↔
      (k ∈ required txns j ∧ initialVersion < k.2) ∧ loc j = p := by
  simp only [waiter, Option.bind_eq_some_iff, consumerOf_eq_some]
  constructor
  · rintro ⟨j', hj, h⟩
    split_ifs at h with hp
    · obtain rfl : j' = j := by simpa using h
      exact ⟨hj, hp⟩
    · obtain ⟨i, -, h⟩ := Option.bind_eq_some_iff.mp h
      split_ifs at h
      simp at h
  · rintro ⟨hj, hp⟩
    exact ⟨j, hj, by rw [if_pos hp]⟩

theorem notifier_eq_reply {p : ProxyId} {k k' : ObjectVersion} {m : MessageId} :
    notifier txns loc (p, k) = some (.reply m k') ↔
      k' = k ∧ ∃ j, m = .stateful j ∧ loc j = p ∧ (source txns loc j k).isSome := by
  simp only [notifier, Option.bind_eq_some_iff, producerOf_eq_some, isSome_source]
  constructor
  · rintro ⟨i, hi, h⟩
    split_ifs at h with hp
    · simp at h
    · obtain ⟨j, hj, h⟩ := Option.bind_eq_some_iff.mp h
      split_ifs at h with hp'
      obtain ⟨rfl, rfl⟩ := ThreadId.reply.inj (Option.some.inj h)
      exact ⟨rfl, j, rfl, hp', (consumerOf_eq_some.mp hj).1, i, hi, fun he => hp (he.trans hp')⟩
  · rintro ⟨rfl, j, rfl, hp, hk, i, hi, hne⟩
    refine ⟨i, hi, ?_⟩
    rw [if_neg (hp ▸ hne),
      consumerOf_eq_some.mpr ⟨hk, initialVersion_lt_of_produces hi⟩]
    simp [hp]

theorem waiter_eq_request {p : ProxyId} {k k' : ObjectVersion} {m : MessageId} :
    waiter txns loc (p, k) = some (.request m k') ↔
      k' = k ∧ ∃ j, m = .stateful j ∧ source txns loc j k = some p := by
  simp only [waiter, Option.bind_eq_some_iff, consumerOf_eq_some, source_eq_some]
  constructor
  · rintro ⟨j, ⟨hk, -⟩, h⟩
    split_ifs at h with hp
    · simp at h
    · obtain ⟨i, hi, h⟩ := Option.bind_eq_some_iff.mp h
      split_ifs at h with hp'
      obtain ⟨rfl, rfl⟩ := ThreadId.request.inj (Option.some.inj h)
      exact ⟨rfl, j, rfl, hk, i, producerOf_eq_some.mp hi, hp', fun he => hp he.symm⟩
  · rintro ⟨rfl, j, rfl, hk, i, hi, rfl, hne⟩
    refine ⟨j, ⟨hk, initialVersion_lt_of_produces hi⟩, ?_⟩
    rw [if_neg hne.symm, producerOf_eq_some.mpr hi]
    simp

/-- No other thread notifies or waits. -/
theorem notifier_cases {x : ProxyId × ObjectVersion} {t : ThreadId}
    (h : notifier txns loc x = some t) :
    (∃ i, t = .message (.stateful i)) ∨ ∃ j, t = .reply (.stateful j) x.2 := by
  obtain ⟨i, -, h⟩ := Option.bind_eq_some_iff.mp h
  split_ifs at h
  · exact Or.inl ⟨i, (Option.some.inj h).symm⟩
  · obtain ⟨j, -, h⟩ := Option.bind_eq_some_iff.mp h
    split_ifs at h
    exact Or.inr ⟨j, (Option.some.inj h).symm⟩

theorem waiter_cases {x : ProxyId × ObjectVersion} {t : ThreadId}
    (h : waiter txns loc x = some t) :
    (∃ j, t = .message (.stateful j)) ∨ ∃ j, t = .request (.stateful j) x.2 := by
  obtain ⟨j, -, h⟩ := Option.bind_eq_some_iff.mp h
  split_ifs at h
  · exact Or.inl ⟨j, (Option.some.inj h).symm⟩
  · obtain ⟨i, -, h⟩ := Option.bind_eq_some_iff.mp h
    split_ifs at h
    exact Or.inr ⟨j, (Option.some.inj h).symm⟩

theorem mem_dependencies_request {m : MessageId} {k : ObjectVersion}
    {a : Action (ProxyId × ObjectVersion)} :
    a ∈ dependencies txns loc (.request m k) ↔ ∃ j q, m = .stateful j ∧
      source txns loc j k = some q ∧ (a = .get (q, k) ∨ a = .wait (q, k) ∨ a = .remove (q, k)) := by
  cases m with
  | stateless n => simp [dependencies]
  | stateful j =>
    cases hs : source txns loc j k with
    | none => simp [dependencies, hs]
    | some q => simp [dependencies, hs]

theorem mem_dependencies_reply {m : MessageId} {k : ObjectVersion}
    {a : Action (ProxyId × ObjectVersion)} :
    a ∈ dependencies txns loc (.reply m k) ↔ ∃ j, m = .stateful j ∧
      (source txns loc j k).isSome ∧ (a = .get (loc j, k) ∨ a = .notify (loc j, k)) := by
  cases m with
  | stateless n => simp [dependencies]
  | stateful j => simp [dependencies]

theorem mem_dependencies_message {m : MessageId} {a : Action (ProxyId × ObjectVersion)} :
    a ∈ dependencies txns loc (.message m) ↔ ∃ i b, m = .stateful i ∧
      b ∈ dependencyProgram (required txns i) ∧ tag (loc i) b = a := by
  cases m with
  | stateless n => simp [dependencies]
  | stateful i => simp [dependencies]

/-- A thread with a program is a message, a request or a reply. -/
theorem dependencies_cases {t : ThreadId} {a : Action (ProxyId × ObjectVersion)}
    (h : a ∈ dependencies txns loc t) :
    (∃ i b, t = .message (.stateful i) ∧ b ∈ dependencyProgram (required txns i) ∧
      tag (loc i) b = a) ∨
    (∃ j k q, t = .request (.stateful j) k ∧ source txns loc j k = some q ∧
      (a = .get (q, k) ∨ a = .wait (q, k) ∨ a = .remove (q, k))) ∨
    (∃ j k, t = .reply (.stateful j) k ∧ (source txns loc j k).isSome ∧
      (a = .get (loc j, k) ∨ a = .notify (loc j, k))) := by
  cases t with
  | message m =>
    obtain ⟨i, b, rfl, hb, hab⟩ := mem_dependencies_message.mp h
    exact Or.inl ⟨i, b, rfl, hb, hab⟩
  | request m k =>
    obtain ⟨j, q, rfl, hq, ha⟩ := mem_dependencies_request.mp h
    exact Or.inr (Or.inl ⟨j, k, q, rfl, hq, ha⟩)
  | reply m k =>
    obtain ⟨j, rfl, hq, ha⟩ := mem_dependencies_reply.mp h
    exact Or.inr (Or.inr ⟨j, k, rfl, hq, ha⟩)
  | verify m | statelessRequest m | statelessReply m => simp [dependencies] at h

theorem nodup_dependencies (t : ThreadId) : (dependencies txns loc t).Nodup := by
  cases t with
  | message m =>
    cases m with
    | stateless n => simp [dependencies]
    | stateful i =>
      refine (nodup_dependencyProgram (initialVersion_le_of_mem txns i) ?_).map
        (Cluster.tag_injective (loc i))
      rw [map_fst_required]
      exact nodup_accessed i
  | request m k =>
    cases m with
    | stateless n => simp [dependencies]
    | stateful j => cases hs : source txns loc j k <;> simp [dependencies, hs]
  | reply m k =>
    cases m with
    | stateless n => simp [dependencies]
    | stateful j => by_cases hs : (source txns loc j k).isSome <;> simp [dependencies, hs]
  | verify m | statelessRequest m | statelessReply m => simp [dependencies]

theorem ordered_dependencies (t : ThreadId) :
    Program.Ordered Action.rank (dependencies txns loc t) := by
  cases t with
  | message m =>
    cases m with
    | stateless n => simp [dependencies, Program.Ordered]
    | stateful i =>
      refine List.pairwise_map.mpr ?_
      simp only [Cluster.rank_tag]
      exact ordered_dependencyProgram (initialVersion_le_of_mem txns i)
  | request m k =>
    cases m with
    | stateless n => simp [dependencies, Program.Ordered]
    | stateful j => cases hs : source txns loc j k <;> simp [dependencies, hs, Program.Ordered]
  | reply m k =>
    cases m with
    | stateless n => simp [dependencies, Program.Ordered]
    | stateful j =>
      by_cases hs : (source txns loc j k).isSome <;> simp [dependencies, hs, Program.Ordered]
  | verify m | statelessRequest m | statelessReply m => simp [dependencies, Program.Ordered]

variable (txns loc)

/-- Each version has one notifier and one waiter at each proxy. -/
def protocol : Protocol (ProxyId × ObjectVersion) ThreadId where
  prog := dependencies txns loc
  producer := notifier txns loc
  consumer := waiter txns loc
  nodup := nodup_dependencies
  ordered := ordered_dependencies
  get_role {t x} h := by
    obtain ⟨p, k⟩ := x
    rcases dependencies_cases h with ⟨i, b, rfl, hb, hab⟩ | ⟨j, k', q, rfl, hq, ha⟩ |
      ⟨j, k', rfl, hq, ha⟩
    · obtain ⟨rfl, rfl⟩ := tag_eq_get.mp hab
      rw [get_mem_dependencyProgram (initialVersion_le_of_mem txns i), mem_map_fst_required] at hb
      exact hb.symm.imp (fun h => notifier_eq_message.mpr ⟨h, rfl⟩)
        fun h => waiter_eq_message.mpr ⟨h, rfl⟩
    · obtain ⟨rfl, rfl⟩ : p = q ∧ k = k' := by simpa using ha
      exact Or.inr (waiter_eq_request.mpr ⟨rfl, j, rfl, hq⟩)
    · obtain ⟨rfl, rfl⟩ : p = loc j ∧ k = k' := by simpa using ha
      exact Or.inl (notifier_eq_reply.mpr ⟨rfl, j, rfl, rfl, hq⟩)
  wait_role {t x} h := by
    obtain ⟨p, k⟩ := x
    rcases dependencies_cases h with ⟨i, b, rfl, hb, hab⟩ | ⟨j, k', q, rfl, hq, ha⟩ |
      ⟨j, k', rfl, hq, ha⟩
    · obtain ⟨rfl, rfl⟩ := tag_eq_wait.mp hab
      rw [wait_mem_dependencyProgram (initialVersion_le_of_mem txns i)] at hb
      exact waiter_eq_message.mpr ⟨hb, rfl⟩
    · obtain ⟨rfl, rfl⟩ : p = q ∧ k = k' := by simpa using ha
      exact waiter_eq_request.mpr ⟨rfl, j, rfl, hq⟩
    · simp at ha
  remove_role {t x} h := by
    obtain ⟨p, k⟩ := x
    rcases dependencies_cases h with ⟨i, b, rfl, hb, hab⟩ | ⟨j, k', q, rfl, hq, ha⟩ |
      ⟨j, k', rfl, hq, ha⟩
    · obtain ⟨rfl, rfl⟩ := tag_eq_remove.mp hab
      rw [remove_mem_dependencyProgram (initialVersion_le_of_mem txns i)] at hb
      rcases Nat.lt_or_ge initialVersion k.2 with hk | hk
      · exact Or.inl (waiter_eq_message.mpr ⟨⟨hb, hk⟩, rfl⟩)
      · exact Or.inr ⟨by simp [notifier, producerOf_eq_none_of_le hk],
          by simp [waiter, consumerOf_eq_none_of_le hk]⟩
    · obtain ⟨rfl, rfl⟩ : p = q ∧ k = k' := by simpa using ha
      exact Or.inl (waiter_eq_request.mpr ⟨rfl, j, rfl, hq⟩)
    · simp at ha
  notify_role {t x} h := by
    obtain ⟨p, k⟩ := x
    rcases dependencies_cases h with ⟨i, b, rfl, hb, hab⟩ | ⟨j, k', q, rfl, hq, ha⟩ |
      ⟨j, k', rfl, hq, ha⟩
    · obtain ⟨rfl, rfl⟩ := tag_eq_notify.mp hab
      rw [notify_mem_dependencyProgram (initialVersion_le_of_mem txns i),
        mem_map_fst_required] at hb
      exact notifier_eq_message.mpr ⟨hb, rfl⟩
    · simp at ha
    · obtain ⟨rfl, rfl⟩ : p = loc j ∧ k = k' := by simpa using ha
      exact notifier_eq_reply.mpr ⟨rfl, j, rfl, rfl, hq⟩
  producer_prog {t x} h := by
    obtain ⟨p, k⟩ := x
    rcases notifier_cases h with ⟨i, rfl⟩ | ⟨j, rfl⟩
    · obtain ⟨hi, rfl⟩ := notifier_eq_message.mp h
      have hi := (mem_map_fst_required txns).mpr hi
      exact ⟨mem_dependencies_message.mpr ⟨i, .get k, rfl,
          (get_mem_dependencyProgram (initialVersion_le_of_mem txns i)).mpr (Or.inr hi), rfl⟩,
        mem_dependencies_message.mpr ⟨i, .notify k, rfl,
          (notify_mem_dependencyProgram (initialVersion_le_of_mem txns i)).mpr hi, rfl⟩⟩
    · obtain ⟨-, j', hj, rfl, hs⟩ := notifier_eq_reply.mp h
      obtain rfl : j = j' := MessageId.stateful.inj hj
      exact ⟨mem_dependencies_reply.mpr ⟨j, rfl, hs, Or.inl rfl⟩,
        mem_dependencies_reply.mpr ⟨j, rfl, hs, Or.inr rfl⟩⟩
  consumer_prog {t x} h := by
    obtain ⟨p, k⟩ := x
    rcases waiter_cases h with ⟨j, rfl⟩ | ⟨j, rfl⟩
    · obtain ⟨hj, rfl⟩ := waiter_eq_message.mp h
      exact ⟨mem_dependencies_message.mpr ⟨j, .get k, rfl,
          (get_mem_dependencyProgram (initialVersion_le_of_mem txns j)).mpr (Or.inl hj), rfl⟩,
        mem_dependencies_message.mpr ⟨j, .wait k, rfl,
          (wait_mem_dependencyProgram (initialVersion_le_of_mem txns j)).mpr hj, rfl⟩,
        mem_dependencies_message.mpr ⟨j, .remove k, rfl,
          (remove_mem_dependencyProgram (initialVersion_le_of_mem txns j)).mpr hj.1, rfl⟩⟩
    · obtain ⟨-, j', hj, hs⟩ := waiter_eq_request.mp h
      obtain rfl : j = j' := MessageId.stateful.inj hj
      exact ⟨mem_dependencies_request.mpr ⟨j, p, rfl, hs, Or.inl rfl⟩,
        mem_dependencies_request.mpr ⟨j, p, rfl, hs, Or.inr (Or.inl rfl)⟩,
        mem_dependencies_request.mpr ⟨j, p, rfl, hs, Or.inr (Or.inr rfl)⟩⟩
  distinct {t x} hp hc := by
    obtain ⟨p, k⟩ := x
    rcases notifier_cases hp with ⟨i, rfl⟩ | ⟨j, rfl⟩
    · have hlt := lastAccess_of_produces (waiter_eq_message.mp hc).1.1
        (notifier_eq_message.mp hp).1
      exact absurd hlt.1 (Nat.lt_irrefl _)
    · rcases waiter_cases hc with ⟨i, hi⟩ | ⟨i, hi⟩ <;> simp at hi

/-! ## The threads as agents -/

/-- The action is the panic of a handler. -/
def isPanic : ProxyAction ω → Bool
  | .panic => true
  | _ => false

/-- What a thread holds and has to do at the controllers. A thread that is not there yet has
not started, and one that panics never will. -/
def agent (s : Cluster.State τ ω) (t : ThreadId) : Agent (ProxyId × ObjectVersion) :=
  if isStateful t then
    match s.threads t with
    | some th =>
      if th.todo.any isPanic then ⟨fun _ => none, dependencies txns loc t⟩
      else ⟨th.held, (th.todo.filterMap depOf).map (tag th.proxy)⟩
    | none => ⟨fun _ => none, dependencies txns loc t⟩
  else ⟨fun _ => none, []⟩

end Protocol

/-- The places agree with where the transactions were sent. -/
def Places (loc : ℕ → ProxyId) (f : SharedObjTxnForwarder.State τ) : Prop :=
  ∀ ⦃i p⦄, SharedObjTxnForwarder.forwardedTo f i = some p → loc i = p

theorem exists_places (f : SharedObjTxnForwarder.State τ) : ∃ loc, Places loc f :=
  ⟨fun i => (SharedObjTxnForwarder.forwardedTo f i).getD 0, fun _ _ h => by simp [h]⟩

section Agent

variable {D : Deployment τ ω} {s s' : State τ ω} {loc : ℕ → ProxyId}

theorem agent_of_none {c : Cluster.State τ ω} {t : ThreadId} (h : c.threads t = none) :
    agent D.primary.txns loc c t = ⟨fun _ => none, dependencies D.primary.txns loc t⟩ := by
  unfold agent
  split_ifs with hs
  · rw [h]
  · cases t with
    | message m =>
      cases m with
      | stateless n => rfl
      | stateful i => simp [isStateful] at hs
    | request m k | reply m k => simp [isStateful] at hs
    | verify m | statelessRequest m | statelessReply m => rfl

theorem agent_congr {c c' : Cluster.State τ ω} {t : ThreadId} (h : c'.threads t = c.threads t) :
    agent D.primary.txns loc c' t = agent D.primary.txns loc c t := by
  unfold agent
  rw [h]

theorem agent_of_some {c : Cluster.State τ ω} {t : ThreadId} {th : Thread τ ω}
    (ht : isStateful t = true) (h : c.threads t = some th) (hp : th.todo.any isPanic = false) :
    agent D.primary.txns loc c t = ⟨th.held, (th.todo.filterMap depOf).map (tag th.proxy)⟩ := by
  simp [agent, ht, h, hp]

theorem agent_of_plain {c : Cluster.State τ ω} {t : ThreadId} (ht : isStateful t = false) :
    agent D.primary.txns loc c t = ⟨fun _ => none, []⟩ := by
  simp [agent, ht]

/-- Only the reply without the object panics. -/
theorem MessageOf.not_panic {i : ℕ} {th : Thread τ ω} {f : SharedObjTxnForwarder.State τ}
    (h : MessageOf D f i th) : th.todo.any isPanic = false := by
  obtain ⟨t, stateless, states, hs, -, -, hsuffix⟩ := h
  rw [List.any_eq_false]
  intro a ha
  have := (hs.staged D.primary.mode).lt a (hsuffix.subset ha)
  cases a <;> simp_all [isPanic, Cluster.rank]

theorem RequestOf.not_panic {j : ℕ} {k : ObjectVersion} {p : ProxyId} {th : Thread τ ω}
    (h : RequestOf D s j k p th) : th.todo.any isPanic = false := by
  rw [List.any_eq_false]
  intro a ha
  have := h.todo.2.subset ha
  cases a <;> simp_all [isPanic]

theorem ReplyOf.not_panic {j : ℕ} {k : ObjectVersion} {th : Thread τ ω} (h : ReplyOf D s j k th)
    {b : Action ObjectVersion} (hb : dep b ∈ th.todo) : th.todo.any isPanic = false := by
  rcases h.todo with hsub | ⟨x, -, hsub⟩
  · simpa using hsub.subset hb
  · rw [List.any_eq_false]
    intro a ha
    have := hsub.subset ha
    cases a <;> simp_all [isPanic]

/-- A thread at a controller does not panic. -/
theorem Follows.not_panic (h : Follows D s) {t : ThreadId} {th : Thread τ ω}
    (ht : s.cluster.threads t = some th) {b : Action ObjectVersion} (hb : dep b ∈ th.todo) :
    isStateful t = true ∧ th.todo.any isPanic = false := by
  by_cases hs : isStateful t = false
  · simpa [isPlain] using h.plain hs ht _ hb
  · refine ⟨by simpa using hs, ?_⟩
    cases t with
    | message m =>
      cases m with
      | stateless n => simp [isStateful] at hs
      | stateful i => exact (h.message ht).not_panic
    | request m k =>
      obtain ⟨j, p, -, hr⟩ := h.request ht
      exact hr.not_panic
    | reply m k =>
      obtain ⟨j, -, hr⟩ := h.reply ht
      exact hr.not_panic hb
    | verify m | statelessRequest m | statelessReply m => simp [isStateful] at hs

/-- A new thread is one that has not started. -/
theorem agent_message (hloc : Places loc s.forwarder) {i : ℕ} {p : ProxyId}
    {t : RemoraTransaction τ} {stateless : ProxyId} {states : RequiredStates}
    (hs : Sent D s.forwarder i p t stateless states) {c : Cluster.State τ ω}
    (hc : c.threads (.message (.stateful i)) = some (spawn p t.digest (some t)
      ⟨none, none, false⟩ (Cluster.messageProgram D.primary.mode t p stateless states))) :
    agent D.primary.txns loc c (.message (.stateful i)) =
      ⟨fun _ => none, dependencies D.primary.txns loc (.message (.stateful i))⟩ := by
  rw [agent_of_some rfl hc]
  · simp only [spawn, Cluster.filterMap_depOf_messageProgram, hs.keys, dependencies,
      hloc hs.forwardedTo]
  · rw [List.any_eq_false]
    intro a ha
    have := (hs.staged D.primary.mode).lt a ha
    cases a <;> simp_all [isPanic, Cluster.rank]

theorem source_of_hint (hloc : Places loc s.forwarder) {j : ℕ} {p q : ProxyId}
    {t : RemoraTransaction τ} {stateless : ProxyId} {states : RequiredStates} {k : ObjectVersion}
    (hs : Sent D s.forwarder j p t stateless states) (hk : (k, some q) ∈ states) :
    source D.primary.txns loc j k = some q := by
  obtain ⟨-, hne, i, hi, hq⟩ := hs.producer_of_hint hk
  exact source_eq_some.mpr ⟨hs.mem_required hk, i, hi, hloc hq, hloc hs.forwardedTo ▸ hne⟩

theorem agent_request (hloc : Places loc s.forwarder) {j : ℕ} {p q : ProxyId}
    {t : RemoraTransaction τ} {stateless : ProxyId} {states : RequiredStates} {k : ObjectVersion}
    (hs : Sent D s.forwarder j p t stateless states) (hk : (k, some q) ∈ states)
    {c : Cluster.State τ ω} {d : TransactionDigest}
    (hc : c.threads (.request (.stateful j) k) = some (spawn q d none ⟨none, none, false⟩
      (Cluster.handleStatefulRequest p k [k]))) :
    agent D.primary.txns loc c (.request (.stateful j) k) =
      ⟨fun _ => none, dependencies D.primary.txns loc (.request (.stateful j) k)⟩ := by
  rw [Cluster.handleStatefulRequest_eq p (hs.producer_of_hint hk).1] at hc
  rw [agent_of_some rfl hc (by simp [spawn, isPanic])]
  simp only [spawn, dependencies, source_of_hint hloc hs hk]
  rfl

theorem agent_reply (hloc : Places loc s.forwarder) {j : ℕ} {p : ProxyId} {k : ObjectVersion}
    {y : Thread τ ω} (hy : RequestOf D s j k p y) {c : Cluster.State τ ω} {d : TransactionDigest}
    (hc : c.threads (.reply (.stateful j) k) = some (spawn p d none ⟨none, none, false⟩
      (Cluster.handleStatefulReply D.executor.version y.objects))) :
    agent D.primary.txns loc c (.reply (.stateful j) k) =
      ⟨fun _ => none, dependencies D.primary.txns loc (.reply (.stateful j) k)⟩ := by
  obtain ⟨t, stateless, states, hs, hk⟩ := hy.sent
  rcases hy.objects with hnil | ⟨x, hx, hv⟩
  · rw [hnil, Cluster.handleStatefulReply_nil] at hc
    simp [agent, isStateful, hc, spawn, isPanic]
  · have h0 : 0 < D.executor.version x := by
      rw [hv]
      exact (Nat.zero_le _).trans_lt hy.todo.1
    rw [hx, Cluster.handleStatefulReply_singleton h0, hv] at hc
    rw [agent_of_some rfl hc (by simp [spawn, isPanic])]
    simp only [spawn, dependencies, source_of_hint hloc hs hk, hloc hs.forwardedTo,
      Option.isSome_some, if_true]
    rfl

/-! ## Every interleaving -/

section Run

variable {t : ThreadId} {th th' : Thread τ ω} {a : ProxyAction ω} {rest : List (ProxyAction ω)}

/-- An action away from the controllers changes no agent. -/
theorem agent_run (h : Follows D s) (hloc : Places loc s.forwarder)
    (hrun : RunStep D.cluster s.cluster s'.cluster t th th' a rest) (ha : ∀ b, a ≠ dep b)
    (u : ThreadId) :
    agent D.primary.txns loc s'.cluster u = agent D.primary.txns loc s.cluster u := by
  have hframe := Cluster.perform_frame hrun.perform
  by_cases hu : isStateful u = false
  · rw [agent_of_plain hu, agent_of_plain hu]
  replace hu : isStateful u = true := by simpa using hu
  rcases eq_or_ne u t with rfl | hne
  · have hp : isPanic a = false := by
      cases a with
      | panic => simpa [Cluster.perform] using hrun.perform
      | _ => rfl
    have hd : depOf a = none := by
      cases a with
      | dep b => exact absurd rfl (ha b)
      | _ => rfl
    simp [agent, hu, hrun.self, hrun.thread, hrun.todo, hp, hd,
      (hframe.deps ha).2, hframe.proxy]
  · by_cases hsp : ∃ x, spawned D.cluster t th a = some (u, x)
    · obtain ⟨x, hsp⟩ := hsp
      have hnone : s.cluster.threads u = none := by
        by_contra hsome
        exact h.not_spawned hrun hu (Option.isSome_iff_ne_none.mpr hsome) x hsp
      have hnew : s'.cluster.threads u = some x := by
        rw [hrun.threads, update_of_ne hne, hsp]
        simp [Cluster.addThread]
      rw [agent_of_none hnone]
      cases u with
      | message m => exact absurd hsp (Cluster.spawned_ne_message m x)
      | request m k =>
        obtain ⟨q, rfl, rfl, -, rfl⟩ := spawned_request hsp
        have hmem : sendRequest q k ∈ th.todo := hrun.head_mem
        obtain ⟨j, rfl⟩ := h.sender_of_sendRequest hrun.thread hmem
        obtain ⟨txn, stateless, states, hs, -, -, hsuffix⟩ := h.message hrun.thread
        exact agent_request hloc hs
          (Cluster.sendRequest_mem_messageProgram.mp (hsuffix.subset hmem)) hnew
      | reply m k =>
        obtain ⟨q, rfl, rfl, -, rfl⟩ := spawned_reply hsp
        obtain ⟨j, rfl, hreq⟩ := h.sender_of_sendReply hrun.thread
          hrun.head_mem
        exact agent_reply hloc hreq hnew
      | verify m | statelessRequest m | statelessReply m => simp [isStateful] at hu
    · exact agent_congr (hrun.threads_of_ne hne fun x hx => hsp ⟨x, hx⟩)

/-- An action at a controller is one of its agent. -/
theorem agent_run_dep (loc : ℕ → ProxyId) (h : Follows D s) {b : Action ObjectVersion}
    (hrun : RunStep D.cluster s.cluster s'.cluster t th th' (dep b) rest) :
    ∃ held rest', (agent D.primary.txns loc s.cluster t).todo = tag th.proxy b :: rest' ∧
      (tag th.proxy b).perform s.cluster.resources.deps
        (agent D.primary.txns loc s.cluster t).held = some (s'.cluster.resources.deps, held) ∧
      agent D.primary.txns loc s'.cluster =
        Protocol.after (agent D.primary.txns loc s.cluster) t held rest' := by
  obtain ⟨hs, hp⟩ := h.not_panic hrun.thread (b := b) hrun.head_mem
  obtain ⟨⟨T, held⟩, hperf, hX⟩ := Option.map_eq_some_iff.mp hrun.perform
  obtain ⟨hR, rfl⟩ := Prod.mk.inj hX
  have hp' : rest.any isPanic = false := by
    rw [hrun.todo] at hp
    simpa [isPanic] using hp
  refine ⟨held, (rest.filterMap depOf).map (tag th.proxy), ?_, ?_, ?_⟩
  · rw [agent_of_some hs hrun.thread hp, hrun.todo]
    simp [depOf]
  · rw [agent_of_some hs hrun.thread hp, hperf, ← hR]
  · funext u
    rcases eq_or_ne u t with rfl | hne
    · rw [agent_of_some hs hrun.self hp']
      simp [Protocol.after]
    · rw [agent_congr (hrun.threads_of_ne hne (by simp [spawned]))]
      simp [Protocol.after, hne]

end Run

theorem Places.of_step {e : Event} (hr : (system D).Reachable s) (hs : step D s e = some s')
    (hloc : Places loc s'.forwarder) : Places loc s.forwarder := by
  intro i p hp
  obtain ⟨x, hx, rfl⟩ := Option.map_eq_some_iff.mp hp
  refine hloc ?_
  rcases step_cases hs with ⟨e', hf, -⟩ | ⟨-, -, -, -, -, hf⟩ | ⟨-, -, -, -, -, -, -, hf⟩
  · rw [SharedObjTxnForwarder.forwardedTo,
      SharedObjTxnForwarder.sent_of_sent (reachable_forwarder hr) hf hx]
    rfl
  · rw [hf, SharedObjTxnForwarder.forwardedTo, hx]
    rfl
  · rw [hf, SharedObjTxnForwarder.forwardedTo, hx]
    rfl

/-- The proxies' controllers keep the rendezvous. -/
theorem protocol_inv (hr : (system D).Reachable s) (hloc : Places loc s.forwarder) :
    (protocol D.primary.txns loc).Inv (agent D.primary.txns loc s.cluster)
      s.cluster.resources.deps := by
  revert hloc
  refine hr.invariant (I := fun s => Places loc s.forwarder → (protocol D.primary.txns loc).Inv
    (agent D.primary.txns loc s.cluster) s.cluster.resources.deps) ?_ ?_
  · rintro s rfl -
    exact Protocol.Inv.init fun t => agent_of_none rfl
  · intro s e s' hr hI hs hloc
    have hloc' := hloc.of_step hr hs
    have hI := hI hloc'
    have hF := follows_of_reachable hr
    rcases step_cases hs with ⟨e', -, hc⟩ | ⟨m, p, msg, hsent, ha, -⟩ |
      ⟨t, th, th', a, rest, -, hrun, -⟩
    · rwa [hc]
    · obtain ⟨hnone, -, -, hres, -⟩ := Cluster.arrive_eq_some ha
      have hsame : agent D.primary.txns loc s'.cluster = agent D.primary.txns loc s.cluster := by
        funext u
        rcases eq_or_ne u (.message m) with rfl | hu
        · cases m with
          | stateless n => rw [agent_of_plain rfl, agent_of_plain rfl]
          | stateful i =>
            obtain ⟨t, stateless, states, hsent, hnew⟩ :=
              Follows.spawn_of_arrive (reachable_forwarder hr) hsent ha
            rw [agent_message hloc' hsent hnew, agent_of_none hnone]
        · exact agent_congr (Cluster.threads_of_arrive_of_ne ha hu)
      rwa [hsame, hres]
    · by_cases hdep : ∃ b, a = dep b
      · obtain ⟨b, rfl⟩ := hdep
        obtain ⟨held, rest', htodo, hperf, hafter⟩ := agent_run_dep loc hF hrun
        rw [hafter]
        exact hI.step htodo hperf
      · have hdep : ∀ b, a ≠ dep b := fun b hb => hdep ⟨b, hb⟩
        rw [funext (agent_run hF hloc' hrun hdep),
          ((Cluster.perform_frame hrun.perform).deps hdep).1]
        exact hI

end Agent

end Deployment

end Remora
