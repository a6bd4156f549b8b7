import Remora.ForwardingOrder
import Remora.Proxy

/-!
# The program of a stateful transaction

What a proxy does with the message of a shared-object transaction, from its arrival to the
result : it verifies or asks for the result of the verification, asks for the states other
proxies have, gets its handles, waits, checks its inputs, executes, and notifies. The phases
come in this order (`staged_messageProgram`), and at the dependency controller the program is
`dependencyProgram` of the versions the transaction requires.
-/

namespace Remora

open Rendezvous VersionedDependencyController Program

variable {τ ω : Type}

namespace Cluster

open ProxyAction

/-- The phase of an action in the program of a message. -/
def rank : ProxyAction ω → ℕ
  | .take _ => 0
  | .gate .setLocalDependency => 1
  | .spawnVerify => 2
  | .gate .getDependency | .sendStatelessRequest _ => 3
  | .gate .setRemoteDependency => 4
  | .sendRequest _ _ => 5
  | .yield _ => 6
  | .dep (.get _) => 7
  | .gate _ => 8
  | .dep (.wait _) => 9
  | .dep (.remove _) => 10
  | .begin => 11
  | .check _ => 12
  | .execute => 13
  | .read _ => 14
  | .commit _ => 15
  | .dep (.notify _) => 16
  | .sendResult => 17
  | .panic | .sendStatelessReply _ | .sendReply _ _ | .readState _ | .commitNew _ _ => 18

/-- The action at the dependency controller. -/
def depOf : ProxyAction ω → Option (Action ObjectVersion)
  | dep a => some a
  | _ => none

/-- The stateless part of a combined message. -/
def statelessPart (mode : SeparationMode) : List (ProxyAction ω) :=
  if mode.isProxySeparation && !mode.isPrimarySeparation then processStatelessTransaction else []

/-- The program of the message that carries a transaction to `p`. -/
def messageProgram (mode : SeparationMode) (t : RemoraTransaction τ) (p stateless : ProxyId)
    (states : RequiredStates) : List (ProxyAction ω) :=
  [take .primary] ++ statelessPart mode ++ processStatefulTransaction mode p t
    (if mode.isPrimarySeparation then stateless else p) states

theorem primaryMessage_statefulMessage (mode : SeparationMode) (t : RemoraTransaction τ)
    (p stateless : ProxyId) (states : RequiredStates) :
    primaryMessage (ω := ω) mode p (statefulMessage mode t p stateless states) =
      messageProgram mode t p stateless states := by
  cases mode <;> rfl

section Order

variable (mode : SeparationMode) (t : RemoraTransaction τ) (p stateless : ProxyId)
  (states : RequiredStates)

theorem staged_one {a : ProxyAction ω} {r : ℕ} (h : rank a = r) : Staged rank r (r + 1) [a] :=
  h ▸ Staged.singleton a

theorem staged_statelessPart : Staged rank 1 3 (statelessPart (ω := ω) mode) := by
  unfold statelessPart
  split_ifs
  · exact (staged_one (r := 1) rfl).append (staged_one (r := 2) rfl) (by omega) (by omega)
  · exact Staged.nil

theorem staged_statelessHandle : Staged rank 3 5 (statelessHandle (ω := ω) mode p stateless) := by
  unfold statelessHandle
  split_ifs
  · exact (staged_one (r := 3) rfl).weaken (by omega) (by omega)
  · exact (staged_one (r := 3) rfl).append (staged_one (r := 4) rfl) (by omega) (by omega)
  · exact Staged.nil

theorem staged_statefulRequests : Staged rank 5 6 (statefulRequests (ω := ω) states) :=
  Staged.of_const fun a ha => by
    obtain ⟨x, -, hx⟩ := List.mem_filterMap.mp ha
    obtain ⟨q, -, rfl⟩ := Option.map_eq_some_iff.mp hx
    rfl

theorem staged_statelessVerified : Staged rank 8 9 (statelessVerified (ω := ω) mode) := by
  unfold statelessVerified
  split_ifs
  · exact Staged.of_const fun a ha => by
      rcases List.mem_cons.mp ha with rfl | ha
      · rfl
      · rw [List.mem_singleton.mp ha]
        rfl
  · exact staged_one rfl

theorem staged_executeTransaction : Staged rank 11 16 (executeTransaction (ω := ω) t) := by
  have hchecks : Staged rank 12 13
      (if t.inputs.any InputObjectKind.isShared then t.inputs.map (check (ω := ω)) else []) := by
    split_ifs
    · exact Staged.map check _ fun _ => rfl
    · exact Staged.nil
  have hreads : Staged rank 14 15 (t.inputs.map fun x => ProxyAction.read (ω := ω) x.objectId) :=
    Staged.map (fun x : InputObjectKind => ProxyAction.read x.objectId) _ fun _ => rfl
  have hcommits : Staged rank 15 16 (t.outputIds.map (commit (ω := ω))) :=
    Staged.map commit _ fun _ => rfl
  exact ((((staged_one (r := 11) rfl).append hchecks (by omega) (by omega)).append
    (staged_one (r := 13) rfl) (by omega) (by omega)).append hreads (by omega)
    (by omega)).append hcommits (by omega) (by omega)

variable {states}

theorem staged_spawnStatefulTxn (h2 : ∀ k ∈ states.map Prod.fst, initialVersion ≤ k.2) :
    Staged rank 7 18 (spawnStatefulTxn (ω := ω) mode t states) := by
  have hactions : Staged rank 7 8 ((handlesOf (states.map Prod.fst)).actions.map (dep (ω := ω))) :=
    Staged.of_const fun a ha => by
      obtain ⟨b, hb, rfl⟩ := List.mem_map.mp ha
      obtain ⟨k, -, ⟨-, rfl⟩ | rfl⟩ := (mem_handlesOf_actions h2).mp hb <;> rfl
  have hwaits : Staged rank 9 10 ((handlesOf (states.map Prod.fst)).prior.map
      (dep (ω := ω) ∘ .wait)) := Staged.map (dep ∘ .wait) _ fun _ => rfl
  have hremoves : Staged rank 10 11 ((removeDependency (states.map Prod.fst)).map (dep (ω := ω))) :=
    Staged.of_const fun a ha => by
      obtain ⟨b, hb, rfl⟩ := List.mem_map.mp ha
      obtain ⟨k, -, rfl⟩ := List.mem_map.mp hb
      rfl
  have hnotifies : Staged rank 16 17 ((handlesOf (states.map Prod.fst)).next.map
      (dep (ω := ω) ∘ .notify)) := Staged.map (dep ∘ .notify) _ fun _ => rfl
  exact (((((hactions.append (staged_statelessVerified mode) (by omega) (by omega)).append hwaits
    (by omega) (by omega)).append hremoves (by omega) (by omega)).append
    (staged_executeTransaction t) (by omega) (by omega)).append hnotifies (by omega)
    (by omega)).append (staged_one (r := 17) rfl) (by omega) (by omega)

/-- The phases of a message that is taken. -/
theorem staged_tail (h2 : ∀ k ∈ states.map Prod.fst, initialVersion ≤ k.2) :
    Staged rank 1 18 (statelessPart (ω := ω) mode ++ processStatefulTransaction mode p t
      (if mode.isPrimarySeparation then stateless else p) states) := by
  have hprocess : Staged rank 3 18 (processStatefulTransaction (ω := ω) mode p t
      (if mode.isPrimarySeparation then stateless else p) states) :=
    (((staged_statelessHandle mode p _).append (staged_statefulRequests states) (by omega)
      (by omega)).append (staged_one (r := 6) rfl) (by omega) (by omega)).append
      (staged_spawnStatefulTxn mode t h2) (by omega) (by omega)
  exact (staged_statelessPart mode).append hprocess (by omega) (by omega)

/-- The phases of a message. -/
theorem staged_messageProgram (h2 : ∀ k ∈ states.map Prod.fst, initialVersion ≤ k.2) :
    Staged rank 0 18 (messageProgram (ω := ω) mode t p stateless states) := by
  rw [messageProgram, List.append_assoc]
  exact (staged_one (r := 0) rfl).append (staged_tail mode t p stateless h2) (by omega)
    (by omega)

end Order

/-! What a program contains. -/

section Members

variable {mode : SeparationMode} {t : RemoraTransaction τ} {p stateless : ProxyId}
  {states : RequiredStates}

theorem filterMap_map_eq_nil {α β γ : Type} (g : β → Option γ) (f : α → β) (l : List α)
    (h : ∀ a, g (f a) = none) : (l.map f).filterMap g = [] := by
  rw [List.filterMap_map]
  exact List.filterMap_eq_nil_iff.mpr fun a _ => h a

theorem filterMap_depOf_map (l : List (Action ObjectVersion)) :
    (l.map (dep (ω := ω))).filterMap depOf = l := by
  induction l with
  | nil => rfl
  | cons a l ih => simpa [depOf] using ih

theorem filterMap_depOf_executeTransaction :
    (executeTransaction (ω := ω) t).filterMap depOf = [] := by
  refine List.filterMap_eq_nil_iff.mpr fun a ha => ?_
  by_cases hs : t.inputs.any InputObjectKind.isShared <;>
    simp only [executeTransaction, hs, List.mem_append, List.mem_map, List.mem_singleton] at ha <;>
    grind [depOf]

theorem filterMap_depOf_statelessVerified :
    (statelessVerified (ω := ω) mode).filterMap depOf = [] := by
  unfold statelessVerified
  split_ifs <;> rfl

theorem filterMap_depOf_spawnStatefulTxn :
    (spawnStatefulTxn (ω := ω) mode t states).filterMap depOf =
      dependencyProgram (states.map Prod.fst) := by
  have hdep : ∀ (f : ObjectVersion → Action ObjectVersion) (l : List ObjectVersion),
      (l.map (dep (ω := ω) ∘ f)).filterMap depOf = l.map f := fun f l => by
    rw [← List.map_map, filterMap_depOf_map]
  simp only [spawnStatefulTxn, dependencyProgram, List.filterMap_append, hdep,
    filterMap_depOf_map, filterMap_depOf_executeTransaction, filterMap_depOf_statelessVerified,
    List.append_nil]
  exact List.append_nil _

/-- At the dependency controller it is the program of a task. -/
theorem filterMap_depOf_messageProgram (mode : SeparationMode) (t : RemoraTransaction τ)
    (p stateless : ProxyId) (states : RequiredStates) :
    (messageProgram (ω := ω) mode t p stateless states).filterMap depOf =
      dependencyProgram (states.map Prod.fst) := by
  have hnone : ∀ a : ProxyAction ω, rank a ≤ 6 → depOf a = none := by
    intro a ha
    rcases a with _ | _ | _ | (_ | _ | _ | _) | _ <;> simp_all [rank, depOf]
  have h1 := (staged_statelessPart (ω := ω) mode).filterMap_eq_nil fun a _ h => hnone a (by omega)
  have h2 := (staged_statelessHandle (ω := ω) mode p
    (if mode.isPrimarySeparation then stateless else p)).filterMap_eq_nil fun a _ h =>
      hnone a (by omega)
  have h3 := (staged_statefulRequests (ω := ω) states).filterMap_eq_nil fun a _ h =>
    hnone a (by omega)
  simp only [messageProgram, processStatefulTransaction, List.filterMap_append, h1, h2, h3,
    filterMap_depOf_spawnStatefulTxn]
  rfl

theorem dep_mem_messageProgram {a : Action ObjectVersion} :
    dep a ∈ messageProgram (ω := ω) mode t p stateless states ↔
      a ∈ dependencyProgram (states.map Prod.fst) := by
  rw [← filterMap_depOf_messageProgram (ω := ω) mode t p stateless, List.mem_filterMap]
  constructor
  · exact fun h => ⟨_, h, rfl⟩
  · rintro ⟨b, hb, hab⟩
    cases b <;> simp_all [depOf]

/-- An action of the execution belongs to its part of the program. -/
theorem mem_messageProgram_of_rank {a : ProxyAction ω} (hlo : 11 ≤ rank a) (hhi : rank a < 16) :
    a ∈ messageProgram mode t p stateless states ↔ a ∈ executeTransaction t := by
  have hhandle := (staged_statelessHandle (ω := ω) mode p
    (if mode.isPrimarySeparation then stateless else p)).lt a
  have hpart := (staged_statelessPart (ω := ω) mode).lt a
  have hrequests := (staged_statefulRequests (ω := ω) states).lt a
  have hverified := (staged_statelessVerified (ω := ω) mode).lt a
  have hdep : ∀ b, a ≠ dep b := by
    rintro (k | k | k | k) rfl <;> simp [rank] at hlo hhi
  simp only [messageProgram, processStatefulTransaction, spawnStatefulTxn, List.mem_append,
    List.mem_map, List.mem_singleton, Function.comp_apply]
  constructor
  · rintro ((rfl | h) | ((h | h) | rfl) | (((((⟨b, -, rfl⟩ | h) | ⟨b, -, rfl⟩) | ⟨b, -, rfl⟩) | h) |
      ⟨b, -, rfl⟩) | rfl)
    · simp [rank] at hlo
    · have := hpart h
      omega
    · have := hhandle h
      omega
    · have := hrequests h
      omega
    · simp [rank] at hlo
    · exact absurd rfl (hdep _)
    · have := hverified h
      omega
    · exact absurd rfl (hdep _)
    · exact absurd rfl (hdep _)
    · exact h
    · exact absurd rfl (hdep _)
    · simp [rank] at hhi
  · exact fun h => Or.inr (Or.inr (Or.inl (Or.inl (Or.inr h))))

theorem begin_mem_messageProgram : begin ∈ messageProgram (ω := ω) mode t p stateless states := by
  rw [mem_messageProgram_of_rank (by simp [rank]) (by simp [rank])]
  simp [executeTransaction]

theorem sendResult_mem_messageProgram :
    sendResult ∈ messageProgram (ω := ω) mode t p stateless states := by
  simp [messageProgram, processStatefulTransaction, spawnStatefulTxn]

theorem execute_mem_messageProgram :
    execute ∈ messageProgram (ω := ω) mode t p stateless states := by
  rw [mem_messageProgram_of_rank (by simp [rank]) (by simp [rank])]
  simp [executeTransaction]

theorem check_mem_messageProgram {x : InputObjectKind} :
    check x ∈ messageProgram (ω := ω) mode t p stateless states ↔
      x ∈ t.inputs ∧ t.inputs.any InputObjectKind.isShared := by
  rw [mem_messageProgram_of_rank (by simp [rank]) (by simp [rank])]
  by_cases hs : t.inputs.any InputObjectKind.isShared <;> simp [executeTransaction, hs]

theorem read_mem_messageProgram {o : ObjectID} :
    ProxyAction.read o ∈ messageProgram (ω := ω) mode t p stateless states ↔ o ∈ t.outputIds := by
  rw [mem_messageProgram_of_rank (by simp [rank]) (by simp [rank]), t.mem_outputIds]
  by_cases hs : t.inputs.any InputObjectKind.isShared <;> simp [executeTransaction, hs]

theorem commit_mem_messageProgram {o : ObjectID} :
    commit o ∈ messageProgram (ω := ω) mode t p stateless states ↔ o ∈ t.outputIds := by
  rw [mem_messageProgram_of_rank (by simp [rank]) (by simp [rank])]
  by_cases hs : t.inputs.any InputObjectKind.isShared <;> simp [executeTransaction, hs]

/-- The handler is taken first, and given back. -/
theorem take_cons_messageProgram (h2 : ∀ k ∈ states.map Prod.fst, initialVersion ≤ k.2)
    {h : Handler} {rest : List (ProxyAction ω)}
    (hs : take h :: rest <:+ messageProgram mode t p stateless states) :
    (∀ h', take h' ∉ rest) ∧ yield h ∈ rest := by
  have hrank : ∀ {h'}, take h' ∉ statelessPart (ω := ω) mode ++ processStatefulTransaction mode p t
      (if mode.isPrimarySeparation then stateless else p) states := by
    intro h' hm
    have := (staged_tail mode t p stateless h2).le _ hm
    simp [rank] at this
  rw [messageProgram, List.append_assoc, List.singleton_append, List.suffix_cons_iff] at hs
  rcases hs with hs | hs
  · obtain ⟨hh, rfl⟩ := List.cons.inj hs
    obtain rfl := take.inj hh
    exact ⟨fun h' => hrank, by simp [processStatefulTransaction]⟩
  · exact absurd (hs.subset List.mem_cons_self) hrank

theorem notMem_messageProgram_of_rank (h2 : ∀ k ∈ states.map Prod.fst, initialVersion ≤ k.2)
    {a : ProxyAction ω} (ha : rank a = 18) :
    a ∉ messageProgram mode t p stateless states := fun h => by
  have := (staged_messageProgram mode t p stateless h2).lt a h
  omega

theorem sendRequest_mem_messageProgram {q : ProxyId} {k : ObjectVersion} :
    sendRequest q k ∈ messageProgram (ω := ω) mode t p stateless states ↔
      (k, some q) ∈ states := by
  have hhandle := (staged_statelessHandle (ω := ω) mode p
    (if mode.isPrimarySeparation then stateless else p)).lt (sendRequest q k)
  have hpart := (staged_statelessPart (ω := ω) mode).lt (sendRequest q k)
  have hverified := (staged_statelessVerified (ω := ω) mode).le (sendRequest q k)
  have hexec := (staged_executeTransaction (ω := ω) t).le (sendRequest q k)
  simp only [rank] at hhandle hpart hverified hexec
  have hrequests : sendRequest q k ∈ statefulRequests (ω := ω) states ↔ (k, some q) ∈ states := by
    simp only [statefulRequests, List.mem_filterMap]
    constructor
    · rintro ⟨⟨k', q'⟩, hm, hx⟩
      obtain ⟨q'', hq, hx⟩ := Option.map_eq_some_iff.mp hx
      obtain ⟨rfl, rfl⟩ := sendRequest.inj hx
      obtain rfl : q' = some q'' := hq
      exact hm
    · exact fun hm => ⟨_, hm, rfl⟩
  rw [← hrequests]
  simp only [messageProgram, processStatefulTransaction, spawnStatefulTxn, List.mem_append,
    List.mem_map, List.mem_singleton, Function.comp_apply]
  constructor
  · rintro ((h | h) | ((h | h) | h) | (((((⟨b, -, h⟩ | h) | ⟨b, -, h⟩) | ⟨b, -, h⟩) | h) |
      ⟨b, -, h⟩) | h)
    · cases h
    · have := hpart h
      omega
    · have := hhandle h
      omega
    · exact h
    · cases h
    · cases h
    · have := hverified h
      omega
    · cases h
    · cases h
    · have := hexec h
      omega
    · cases h
    · cases h
  · exact fun h => Or.inr (Or.inl (Or.inl (Or.inr h)))

/-- The state an action asks for. -/
def requestOf : ProxyAction ω → Option ObjectVersion
  | sendRequest _ k => some k
  | _ => none

theorem filterMap_requestOf_messageProgram :
    (messageProgram (ω := ω) mode t p stateless states).filterMap requestOf =
      (states.filter fun s => s.2.isSome).map Prod.fst := by
  have hnone : ∀ a : ProxyAction ω, rank a ≠ 5 → requestOf a = none := by
    intro a ha
    cases a <;> simp_all [rank, requestOf]
  have h1 := (staged_statelessPart (ω := ω) mode).filterMap_eq_nil fun a _ h => hnone a (by omega)
  have h2 := (staged_statelessHandle (ω := ω) mode p
    (if mode.isPrimarySeparation then stateless else p)).filterMap_eq_nil fun a _ h =>
      hnone a (by omega)
  have h3 := (staged_statelessVerified (ω := ω) mode).filterMap_eq_nil fun a h _ =>
    hnone a (by omega)
  have h4 := (staged_executeTransaction (ω := ω) t).filterMap_eq_nil fun a h _ =>
    hnone a (by omega)
  have hrequests : (statefulRequests (ω := ω) states).filterMap requestOf =
      (states.filter fun s => s.2.isSome).map Prod.fst := by
    rw [statefulRequests, List.filterMap_filterMap]
    induction states with
    | nil => rfl
    | cons s states ih =>
      obtain ⟨k, q⟩ := s
      cases q <;> simpa [requestOf] using ih
  simp only [messageProgram, processStatefulTransaction, spawnStatefulTxn, List.filterMap_append,
    h1, h2, h3, h4, hrequests]
  rw [filterMap_map_eq_nil requestOf dep _ fun _ => rfl,
    filterMap_map_eq_nil requestOf (dep ∘ .wait) _ fun _ => rfl,
    filterMap_map_eq_nil requestOf dep _ fun _ => rfl,
    filterMap_map_eq_nil requestOf (dep ∘ .notify) _ fun _ => rfl]
  simp [List.filterMap_cons, requestOf]

/-- A state is asked for once. -/
theorem sendRequest_notMem_of_cons {q : ProxyId} {k : ObjectVersion}
    {rest : List (ProxyAction ω)} (hn : (states.map Prod.fst).Nodup)
    (hs : sendRequest q k :: rest <:+ messageProgram mode t p stateless states) :
    ∀ q', sendRequest q' k ∉ rest := by
  intro q' hm
  have hsuffix := suffix_filterMap requestOf hs
  rw [filterMap_requestOf_messageProgram] at hsuffix
  have hnodup := (hn.sublist (List.filter_sublist.map _)).sublist hsuffix.sublist
  refine (List.nodup_cons.mp hnodup).1 ?_
  exact List.mem_filterMap.mpr ⟨_, hm, rfl⟩

/-- The object an action commits. -/
def commitOf : ProxyAction ω → Option ObjectID
  | commit o => some o
  | _ => none

theorem filterMap_commitOf_executeTransaction :
    (executeTransaction (ω := ω) t).filterMap commitOf = t.outputIds := by
  have hcommits : (t.outputIds.map (commit (ω := ω))).filterMap commitOf = t.outputIds := by
    induction t.outputIds with
    | nil => rfl
    | cons o l ih => simpa [commitOf] using ih
  have hchecks : (if t.inputs.any InputObjectKind.isShared then t.inputs.map (check (ω := ω))
      else []).filterMap commitOf = [] := by
    split_ifs
    · exact filterMap_map_eq_nil commitOf check _ fun _ => rfl
    · rfl
  simp only [executeTransaction, List.filterMap_append, hchecks, hcommits]
  rw [filterMap_map_eq_nil commitOf (fun x : InputObjectKind => ProxyAction.read x.objectId) _
    fun _ => rfl]
  simp [List.filterMap_cons, commitOf]

theorem filterMap_commitOf_messageProgram :
    (messageProgram (ω := ω) mode t p stateless states).filterMap commitOf = t.outputIds := by
  have hnone : ∀ a : ProxyAction ω, rank a ≠ 15 → commitOf a = none := by
    intro a ha
    cases a <;> simp_all [rank, commitOf]
  have h1 := (staged_statelessPart (ω := ω) mode).filterMap_eq_nil fun a _ h => hnone a (by omega)
  have h2 := (staged_statelessHandle (ω := ω) mode p
    (if mode.isPrimarySeparation then stateless else p)).filterMap_eq_nil fun a _ h =>
      hnone a (by omega)
  have h3 := (staged_statefulRequests (ω := ω) states).filterMap_eq_nil fun a _ h =>
    hnone a (by omega)
  have h4 := (staged_statelessVerified (ω := ω) mode).filterMap_eq_nil fun a _ h =>
    hnone a (by omega)
  have h5 (l : List (Action ObjectVersion)) : (l.map (dep (ω := ω))).filterMap commitOf = [] :=
    filterMap_map_eq_nil commitOf dep l fun _ => rfl
  simp only [messageProgram, processStatefulTransaction, spawnStatefulTxn, List.filterMap_append,
    ← List.map_map, h1, h2, h3, h4, h5, filterMap_commitOf_executeTransaction]
  simp [List.filterMap_cons, commitOf]

/-- An object is committed once. -/
theorem commit_notMem_of_cons {o : ObjectID} {rest : List (ProxyAction ω)}
    (hs : commit o :: rest <:+ messageProgram mode t p stateless states) : commit o ∉ rest := by
  intro hm
  have hsuffix := suffix_filterMap commitOf hs
  rw [filterMap_commitOf_messageProgram] at hsuffix
  refine (List.nodup_cons.mp (t.nodup_outputIds.sublist hsuffix.sublist)).1 ?_
  exact List.mem_filterMap.mpr ⟨_, hm, rfl⟩

end Members

/-! ## Requests and replies -/

theorem handleStatefulRequest_eq (requester : ProxyId) {k : ObjectVersion}
    (hk : initialVersion < k.2) :
    handleStatefulRequest (ω := ω) requester k [k] = [take .proxy, dep (.get k), yield .proxy,
      dep (.wait k), dep (.remove k), readState k, sendReply requester k] := by
  simp [handleStatefulRequest, getPriorDependencyAndUpdate, calculateNextVersion, removeDependency,
    hk]

theorem handleStatefulReply_nil (version : ω → SequenceNumber) :
    handleStatefulReply version [] = [take .proxy, panic] := rfl

theorem handleStatefulReply_singleton {version : ω → SequenceNumber} {o : ObjectID} {x : ω}
    (hx : 0 < version x) :
    handleStatefulReply version [(o, x)] = [take .proxy, dep (.get (o, version x)), yield .proxy,
      commitNew o x, dep (.notify (o, version x))] := by
  have hadd : version x - 1 + 1 = version x := Nat.sub_add_cancel hx
  have hmock : mockedStates version [(o, x)] = some [(o, version x - 1)] := by
    simp [mockedStates, oneBefore, Nat.ne_of_gt hx]
  simp [handleStatefulReply, hmock, getPriorDependencyAndUpdate, calculateNextVersion, hadd]

end Cluster

end Remora
