import Remora.Types
import Mathlib.Logic.Function.Basic

/-!
# The oneshot dependency controller

`OneshotDependencyController` connects the task that verifies a transaction with the one
that executes it, by a oneshot channel under the transaction's digest. Whoever comes first
creates the channel and leaves the other end in the map.

Channels are numbers. A channel holds a value once its sender has sent one. A receiver
whose sender was dropped never gets a value and panics when it is awaited : here it waits
for good. The value sent to a receiver that was dropped is never read.

A method of the controller is one atomic operation on its map. `Gate` is the controllers
of all proxies and the channels, and `GateAction` what the threads of a proxy do with them.
-/

namespace Remora

open Function

/-- The ends of a channel that wait in the map. -/
structure TaskHandle where
  rx : Option ℕ
  tx : Option ℕ
  deriving DecidableEq, Repr

abbrev TaskEntry := Option TaskHandle

/-- `obj_task_map`. -/
abbrev ObjectTaskMap := TransactionDigest → Option TaskEntry

namespace OneshotDependencyController

variable (M : ObjectTaskMap) (channel : ℕ) (d : TransactionDigest)

/-- The map with a new channel's sender. Its receiver is returned. -/
def setRemoteDependency : ObjectTaskMap :=
  update M d (some (some ⟨none, some channel⟩))

/-- The sender : the one in the map, or that of a new channel. -/
def setLocalDependency : ObjectTaskMap × ℕ :=
  match M d with
  | some (some ⟨rx, some tx⟩) => (update M d (some (some ⟨rx, none⟩)), tx)
  | _ => (update M d (some (some ⟨some channel, none⟩)), channel)

/-- The receiver in the map, or that of a new channel if there is no entry. -/
def getDependency : ObjectTaskMap × Option ℕ :=
  match M d with
  | some (some ⟨rx, some tx⟩) => (update M d (some (some ⟨none, some tx⟩)), rx)
  | some (some ⟨rx, none⟩) => (update M d none, rx)
  | some none => (M, none)
  | none => (update M d (some (some ⟨none, some channel⟩)), some channel)

def removeDependency : ObjectTaskMap :=
  update M d none

/-- The sender in the map. -/
def takeSignal : ObjectTaskMap × Option ℕ :=
  match M d with
  | some (some ⟨some rx, tx⟩) => (update M d (some (some ⟨some rx, none⟩)), tx)
  | some (some ⟨none, tx⟩) => (update M d none, tx)
  | some none => (M, none)
  | none => (M, none)

end OneshotDependencyController

open OneshotDependencyController

/-- The controllers, the values in the channels, and the digests for which some call of
`verify_transaction` has returned true. Channels from `fresh` on have not been created. -/
structure Gate where
  controllers : ProxyId → ObjectTaskMap
  values : ℕ → Option Bool
  fresh : ℕ
  verified : TransactionDigest → Bool

def Gate.empty : Gate :=
  ⟨fun _ _ => none, fun _ => none, 0, fun _ => false⟩

/-- The ends of channels a thread holds, and the result it knows. -/
structure Gate.Locals where
  rx : Option ℕ
  tx : Option ℕ
  verdict : Bool
  deriving DecidableEq, Repr

/-- One atomic operation of a thread, on the entry of its digest. -/
inductive GateAction
  | setLocalDependency
  | setRemoteDependency
  | getDependency
  /-- The `unwrap` of the receiver. -/
  | unwrapReceiver
  | takeSignal
  | removeDependency
  /-- `remove_dependency` of a task that has awaited a receiver. -/
  | removeAwaited
  /-- `verify_transaction` returns. -/
  | verifyTransaction
  /-- The result is sent, if the thread has a sender. -/
  | send
  /-- The receiver is awaited. A task without one takes the transaction as verified. -/
  | await
  deriving DecidableEq, Repr

namespace GateAction

/-- What an action does at the controller of `p`, for the digest `d`. `none` : the thread
waits, or has panicked. -/
def perform (p : ProxyId) (d : TransactionDigest) (outcome : Bool) (G : Gate)
    (l : Gate.Locals) : GateAction → Option (Gate × Gate.Locals)
  | setLocalDependency =>
    let (M, tx) := OneshotDependencyController.setLocalDependency (G.controllers p) G.fresh d
    some ({ G with controllers := update G.controllers p M, fresh := G.fresh + 1 },
      { l with tx := some tx })
  | setRemoteDependency =>
    let M := OneshotDependencyController.setRemoteDependency (G.controllers p) G.fresh d
    some ({ G with controllers := update G.controllers p M, fresh := G.fresh + 1 },
      { l with rx := some G.fresh })
  | getDependency =>
    let (M, rx) := OneshotDependencyController.getDependency (G.controllers p) G.fresh d
    some ({ G with controllers := update G.controllers p M, fresh := G.fresh + 1 },
      { l with rx := rx })
  | unwrapReceiver => if l.rx.isSome then some (G, l) else none
  | takeSignal =>
    let (M, tx) := OneshotDependencyController.takeSignal (G.controllers p) d
    some ({ G with controllers := update G.controllers p M }, { l with tx := tx })
  | removeDependency =>
    let M := OneshotDependencyController.removeDependency (G.controllers p) d
    some ({ G with controllers := update G.controllers p M }, l)
  | removeAwaited =>
    if l.rx.isSome then
      let M := OneshotDependencyController.removeDependency (G.controllers p) d
      some ({ G with controllers := update G.controllers p M }, l)
    else some (G, l)
  | verifyTransaction =>
    some ({ G with verified := update G.verified d (G.verified d || outcome) },
      { l with verdict := outcome })
  | send =>
    match l.tx with
    | some c => some ({ G with values := update G.values c (some l.verdict) },
        { l with tx := none })
    | none => some (G, l)
  | await =>
    match l.rx with
    | some c => (G.values c).map fun v => (G, { l with verdict := v })
    | none => some (G, { l with verdict := true })

end GateAction

/-! ## The ends of the channels -/

/-- An end of the channel `c` waits in the map for `d`. -/
def ObjectTaskMap.Holds (M : ObjectTaskMap) (d : TransactionDigest) (c : ℕ) : Prop :=
  ∃ h, M d = some (some h) ∧ (h.rx = some c ∨ h.tx = some c)

/-- The thread holds an end of the channel `c`. -/
def Gate.Locals.Holds (l : Gate.Locals) (c : ℕ) : Prop :=
  l.rx = some c ∨ l.tx = some c

namespace OneshotDependencyController

variable {M : ObjectTaskMap} {channel c : ℕ} {d d' : TransactionDigest}

theorem holds_update {e : Option TaskEntry} (h : ObjectTaskMap.Holds (update M d e) d' c)
    (he : ∀ x, e = some (some x) → x.rx = some c ∨ x.tx = some c → M.Holds d c ∨ c = channel) :
    M.Holds d' c ∨ (d' = d ∧ c = channel) := by
  obtain ⟨x, hx, hc⟩ := h
  rcases eq_or_ne d' d with rfl | hd
  · rw [update_self] at hx
    exact (he x hx hc).imp id fun h => ⟨rfl, h⟩
  · rw [update_of_ne hd] at hx
    exact Or.inl ⟨x, hx, hc⟩

theorem holds_setRemoteDependency (h : (setRemoteDependency M channel d).Holds d' c) :
    M.Holds d' c ∨ (d' = d ∧ c = channel) := by
  refine holds_update h ?_
  rintro x hx hc
  obtain rfl := Option.some.inj (Option.some.inj hx)
  simp_all

theorem holds_setLocalDependency (M : ObjectTaskMap) (channel : ℕ) (d d' : TransactionDigest)
    (c : ℕ) :
    ((setLocalDependency M channel d).1.Holds d' c → M.Holds d' c ∨ (d' = d ∧ c = channel)) ∧
      ((setLocalDependency M channel d).2 = c → M.Holds d c ∨ c = channel) := by
  unfold setLocalDependency
  split
  · rename_i rx tx hM
    refine ⟨fun h => holds_update h fun x hx hc => Or.inl ⟨_, hM, ?_⟩, ?_⟩
    · obtain rfl := Option.some.inj (Option.some.inj hx)
      simp_all
    · rintro rfl
      exact Or.inl ⟨_, hM, Or.inr rfl⟩
  · refine ⟨fun h => holds_update h fun x hx hc => Or.inr ?_, fun h => Or.inr h.symm⟩
    obtain rfl := Option.some.inj (Option.some.inj hx)
    simp_all

theorem holds_getDependency (M : ObjectTaskMap) (channel : ℕ) (d d' : TransactionDigest) (c : ℕ) :
    ((getDependency M channel d).1.Holds d' c → M.Holds d' c ∨ (d' = d ∧ c = channel)) ∧
      ((getDependency M channel d).2 = some c → M.Holds d c ∨ c = channel) := by
  unfold getDependency
  split
  · rename_i rx tx hM
    refine ⟨fun h => holds_update h fun x hx hc => Or.inl ⟨_, hM, ?_⟩,
      fun h => Or.inl ⟨_, hM, Or.inl h⟩⟩
    obtain rfl := Option.some.inj (Option.some.inj hx)
    simp_all
  · rename_i rx hM
    exact ⟨fun h => holds_update h (by simp), fun h => Or.inl ⟨_, hM, Or.inl h⟩⟩
  · exact ⟨Or.inl, by simp⟩
  · refine ⟨fun h => holds_update h fun x hx hc => Or.inr ?_, fun h => Or.inr (by simp_all)⟩
    obtain rfl := Option.some.inj (Option.some.inj hx)
    simp_all

theorem holds_removeDependency (h : (removeDependency M d).Holds d' c) : M.Holds d' c := by
  obtain ⟨x, hx, hc⟩ := h
  rcases eq_or_ne d' d with rfl | hd
  · simp [removeDependency] at hx
  · exact ⟨x, by simpa [removeDependency, hd] using hx, hc⟩

theorem holds_takeSignal (M : ObjectTaskMap) (d d' : TransactionDigest) (c : ℕ) :
    ((takeSignal M d).1.Holds d' c → M.Holds d' c) ∧
      ((takeSignal M d).2 = some c → M.Holds d c) := by
  unfold takeSignal
  split
  · rename_i rx tx hM
    refine ⟨?_, fun h => ⟨_, hM, Or.inr h⟩⟩
    rintro ⟨x, hx, hc⟩
    rcases eq_or_ne d' d with rfl | hd
    · obtain rfl : (⟨some rx, none⟩ : TaskHandle) = x := by simpa using hx
      exact ⟨_, hM, by simp_all⟩
    · exact ⟨x, by simpa [hd] using hx, hc⟩
  · rename_i tx hM
    exact ⟨fun h => holds_removeDependency h, fun h => ⟨_, hM, Or.inr h⟩⟩
  · exact ⟨id, by simp⟩
  · exact ⟨id, by simp⟩

end OneshotDependencyController

namespace GateAction

variable {p p' : ProxyId} {d d' : TransactionDigest} {outcome : Bool} {G G' : Gate}
  {l l' : Gate.Locals} {g : GateAction} {c : ℕ}

/-- Where the ends of channels come from : the map, the thread, or a new channel. -/
structure Ends (p : ProxyId) (d : TransactionDigest) (G G' : Gate) (l l' : Gate.Locals) :
    Prop where
  le : G.fresh ≤ G'.fresh
  map : ∀ {p' d' c}, (G'.controllers p').Holds d' c → (G.controllers p').Holds d' c ∨
    (p' = p ∧ d' = d ∧ c = G.fresh ∧ G.fresh < G'.fresh)
  thread : ∀ {c}, l'.Holds c → l.Holds c ∨ (G.controllers p).Holds d c ∨
    (c = G.fresh ∧ G.fresh < G'.fresh)

/-- An action that replaces the map of `p`. -/
theorem Ends.of_update {M : ObjectTaskMap} {n : ℕ} {values : ℕ → Option Bool}
    {verified : TransactionDigest → Bool} (hle : G.fresh ≤ n)
    (hmap : ∀ {d' c}, M.Holds d' c → (G.controllers p).Holds d' c ∨
      (d' = d ∧ c = G.fresh ∧ G.fresh < n))
    (hthread : ∀ {c}, l'.Holds c → l.Holds c ∨ (G.controllers p).Holds d c ∨
      (c = G.fresh ∧ G.fresh < n)) :
    Ends p d G ⟨update G.controllers p M, values, n, verified⟩ l l' where
  le := hle
  map {p' d' c} h := by
    rcases eq_or_ne p' p with rfl | hp
    · simp only [update_self] at h
      exact (hmap h).imp id fun h => ⟨rfl, h⟩
    · simp only [update_of_ne hp] at h
      exact Or.inl h
  thread := hthread

/-- An action that leaves the maps alone. -/
theorem Ends.of_controllers (hc : G'.controllers = G.controllers) (hf : G'.fresh = G.fresh)
    (hl : ∀ c, l'.Holds c → l.Holds c) : Ends p d G G' l l' where
  le := hf.ge
  map h := Or.inl (hc ▸ h)
  thread h := Or.inl (hl _ h)

theorem ends_of_perform (h : perform p d outcome G l g = some (G', l')) : Ends p d G G' l l' := by
  cases g with
  | setLocalDependency =>
    obtain ⟨rfl, rfl⟩ := Prod.mk.inj (Option.some.inj h)
    have hs := holds_setLocalDependency (G.controllers p) G.fresh d
    refine Ends.of_update (Nat.le_succ _) (fun h => ?_) fun {c} h => ?_
    · simpa using (hs _ _).1 h
    · rcases h with h | h
      · exact Or.inl (Or.inl h)
      · exact Or.inr (by simpa using (hs d c).2 (Option.some.inj h))
  | setRemoteDependency =>
    obtain ⟨rfl, rfl⟩ := Prod.mk.inj (Option.some.inj h)
    refine Ends.of_update (Nat.le_succ _) (fun h => ?_) fun {c} h => ?_
    · simpa using holds_setRemoteDependency h
    · rcases h with h | h
      · exact Or.inr (Or.inr ⟨(Option.some.inj h).symm, Nat.lt_succ_self _⟩)
      · exact Or.inl (Or.inr h)
  | getDependency =>
    obtain ⟨rfl, rfl⟩ := Prod.mk.inj (Option.some.inj h)
    have hs := holds_getDependency (G.controllers p) G.fresh d
    refine Ends.of_update (Nat.le_succ _) (fun h => ?_) fun {c} h => ?_
    · simpa using (hs _ _).1 h
    · rcases h with h | h
      · exact Or.inr (by simpa using (hs d c).2 h)
      · exact Or.inl (Or.inr h)
  | unwrapReceiver =>
    simp only [perform] at h
    split_ifs at h
    obtain ⟨rfl, rfl⟩ := Prod.mk.inj (Option.some.inj h)
    exact Ends.of_controllers rfl rfl fun _ h => h
  | takeSignal =>
    obtain ⟨rfl, rfl⟩ := Prod.mk.inj (Option.some.inj h)
    refine Ends.of_update le_rfl (fun h => Or.inl ((holds_takeSignal _ d _ _).1 h)) fun {c} h => ?_
    rcases h with h | h
    · exact Or.inl (Or.inl h)
    · exact Or.inr (Or.inl ((holds_takeSignal _ d d _).2 h))
  | removeDependency =>
    obtain ⟨rfl, rfl⟩ := Prod.mk.inj (Option.some.inj h)
    exact Ends.of_update le_rfl (fun h => Or.inl (holds_removeDependency h)) Or.inl
  | removeAwaited =>
    simp only [perform] at h
    split_ifs at h <;> obtain ⟨rfl, rfl⟩ := Prod.mk.inj (Option.some.inj h)
    · exact Ends.of_update le_rfl (fun h => Or.inl (holds_removeDependency h)) Or.inl
    · exact Ends.of_controllers rfl rfl fun _ h => h
  | verifyTransaction =>
    obtain ⟨rfl, rfl⟩ := Prod.mk.inj (Option.some.inj h)
    exact Ends.of_controllers rfl rfl fun _ h => h
  | send =>
    simp only [perform] at h
    split at h <;> obtain ⟨rfl, rfl⟩ := Prod.mk.inj (Option.some.inj h)
    · exact Ends.of_controllers rfl rfl fun _ h => Or.inl (by simpa [Gate.Locals.Holds] using h)
    · exact Ends.of_controllers rfl rfl fun _ h => h
  | await =>
    simp only [perform] at h
    split at h
    · obtain ⟨v, -, h⟩ := Option.map_eq_some_iff.mp h
      obtain ⟨rfl, rfl⟩ := Prod.mk.inj h
      exact Ends.of_controllers rfl rfl fun _ h => h
    · obtain ⟨rfl, rfl⟩ := Prod.mk.inj (Option.some.inj h)
      exact Ends.of_controllers rfl rfl fun _ h => h

/-- An action is about one entry. -/
theorem controllers_of_perform (h : perform p d outcome G l g = some (G', l'))
    (hne : p' ≠ p ∨ d' ≠ d) : G'.controllers p' d' = G.controllers p' d' := by
  have hM : ∀ M : ObjectTaskMap, (∀ d' ≠ d, M d' = G.controllers p d') →
      update G.controllers p M p' d' = G.controllers p' d' := by
    intro M hM
    rcases eq_or_ne p' p with rfl | hp
    · rw [update_self]
      exact hM d' (hne.resolve_left (by simp))
    · rw [update_of_ne hp]
  cases g with
  | setLocalDependency =>
    obtain ⟨rfl, rfl⟩ := Prod.mk.inj (Option.some.inj h)
    refine hM _ fun d' hd => ?_
    split <;> exact update_of_ne hd _ _
  | setRemoteDependency | removeDependency =>
    obtain ⟨rfl, rfl⟩ := Prod.mk.inj (Option.some.inj h)
    exact hM _ fun d' hd => update_of_ne hd _ _
  | getDependency =>
    obtain ⟨rfl, rfl⟩ := Prod.mk.inj (Option.some.inj h)
    refine hM _ fun d' hd => ?_
    split <;> first | exact update_of_ne hd _ _ | rfl
  | takeSignal =>
    obtain ⟨rfl, rfl⟩ := Prod.mk.inj (Option.some.inj h)
    refine hM _ fun d' hd => ?_
    split <;> first | exact update_of_ne hd _ _ | rfl
  | removeAwaited =>
    simp only [perform] at h
    split_ifs at h <;> obtain ⟨rfl, rfl⟩ := Prod.mk.inj (Option.some.inj h)
    · exact hM _ fun d' hd => update_of_ne hd _ _
    · rfl
  | unwrapReceiver =>
    simp only [perform] at h
    split_ifs at h
    obtain ⟨rfl, rfl⟩ := Prod.mk.inj (Option.some.inj h)
    rfl
  | verifyTransaction =>
    obtain ⟨rfl, rfl⟩ := Prod.mk.inj (Option.some.inj h)
    rfl
  | send =>
    simp only [perform] at h
    split at h <;> obtain ⟨rfl, rfl⟩ := Prod.mk.inj (Option.some.inj h) <;> rfl
  | await =>
    simp only [perform] at h
    split at h
    · obtain ⟨v, -, h⟩ := Option.map_eq_some_iff.mp h
      obtain ⟨rfl, rfl⟩ := Prod.mk.inj h
      rfl
    · obtain ⟨rfl, rfl⟩ := Prod.mk.inj (Option.some.inj h)
      rfl

/-- Only a sender puts a value into its channel. -/
theorem values_of_perform (h : perform p d outcome G l g = some (G', l')) (c : ℕ) :
    G'.values c = G.values c ∨
      (g = .send ∧ l.tx = some c ∧ G'.values c = some l.verdict) := by
  cases g with
  | send =>
    simp only [perform] at h
    split at h <;> obtain ⟨rfl, rfl⟩ := Prod.mk.inj (Option.some.inj h)
    · rename_i c' htx
      rcases eq_or_ne c c' with rfl | hc
      · exact Or.inr ⟨rfl, htx, update_self _ _ _⟩
      · exact Or.inl (update_of_ne hc _ _)
    · exact Or.inl rfl
  | unwrapReceiver | removeAwaited =>
    simp only [perform] at h
    split_ifs at h <;> obtain ⟨rfl, rfl⟩ := Prod.mk.inj (Option.some.inj h) <;> exact Or.inl rfl
  | await =>
    simp only [perform] at h
    split at h
    · obtain ⟨v, -, h⟩ := Option.map_eq_some_iff.mp h
      obtain ⟨rfl, rfl⟩ := Prod.mk.inj h
      exact Or.inl rfl
    · obtain ⟨rfl, rfl⟩ := Prod.mk.inj (Option.some.inj h)
      exact Or.inl rfl
  | _ =>
    obtain ⟨rfl, rfl⟩ := Prod.mk.inj (Option.some.inj h)
    exact Or.inl rfl

end GateAction

end Remora
