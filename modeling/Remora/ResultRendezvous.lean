import Remora.ResultThreads

/-!
# Where a result is handed over

A result is handed over at the entry of its digest. At the verifier the verification meets
its consumer, in either order (`Meeting`) : the stateful task, or the request of another proxy.
At the executor, if it is another proxy, the reply meets the stateful task (`Homecoming`),
provided that the task has made the entry.
-/

namespace Remora

namespace Cluster

open Function ProxyAction GateAction

variable {τ ω : Type} {K : Cluster τ ω} {s s' : State τ ω}

/-! ## At the verifier

The verification and its consumer meet at the entry of the digest, in either order. -/

section Meeting

variable (D : Sending)

/-- The result is on its way into the channel `c`, or there. -/
def Pending (s : State τ ω) (c : ℕ) : Prop :=
  (∃ x, s.threads D.verification = some x ∧ x.gate.tx = some c ∧ spawnVerify ∈ x.todo) ∨
  (∃ x, s.threads D.verifyTask = some x ∧ x.gate.tx = some c ∧ gate GateAction.send ∈ x.todo) ∨
  s.resources.gate.values c ≠ none

/-- How far the two have come. -/
inductive Meeting (s : State τ ω) : Prop
  | idle (verification : ¬Past s D.verification (gate setLocalDependency))
      (consumer : ¬Past s D.consumer (gate getDependency))
      (entry : s.resources.gate.controllers D.verifier D.digest = none)
  | made (c : ℕ) (verification : Past s D.verification (gate setLocalDependency))
      (consumer : ¬Past s D.consumer (gate getDependency))
      (entry : s.resources.gate.controllers D.verifier D.digest = some (some ⟨some c, none⟩))
      (pending : Pending D s c)
  | asked (c : ℕ) (x : Thread τ ω) (verification : ¬Past s D.verification (gate setLocalDependency))
      (consumer : s.threads D.consumer = some x) (past : gate getDependency ∉ x.todo)
      (rx : x.gate.rx = some c)
      (entry : s.resources.gate.controllers D.verifier D.digest = some (some ⟨none, some c⟩))
      (value : s.resources.gate.values c = none) (await : gate await ∈ x.todo)
  | met (c : ℕ) (x : Thread τ ω) (verification : Past s D.verification (gate setLocalDependency))
      (consumer : s.threads D.consumer = some x) (past : gate getDependency ∉ x.todo)
      (rx : x.gate.rx = some c) (pending : Pending D s c)

variable {D} {δ : ℕ → ProxyId × TransactionDigest} {t : ThreadId} {th th' : Thread τ ω}
  {a : ProxyAction ω} {rest : List (ProxyAction ω)}

/-- The threads that take part. -/
def Sending.Local (D : Sending) (t : ThreadId) : Prop :=
  t = D.verification ∨ t = D.verifyTask ∨ t = D.consumer

theorem Sending.mine_consumer : D.Mine D.consumer := by
  unfold Sending.consumer
  split_ifs <;> exact Or.inr rfl

theorem Sending.getDependency_mem_consumer :
    gate getDependency ∈ D.program (ω := ω) D.consumer := by
  unfold Sending.consumer
  split_ifs with h <;> simp [Sending.execution, Sending.request, Sending.program, h]

theorem Sending.Local.mine (h : D.Local t) : D.Mine t := by
  rcases h with rfl | rfl | rfl
  · exact Or.inl rfl
  · exact Or.inl rfl
  · exact Sending.mine_consumer

theorem Sending.Local.program_ne_nil (h : D.Local t) : D.program (ω := ω) t ≠ [] := by
  rcases h with rfl | rfl | rfl
  · simp [Sending.verification, Sending.program]
  · simp [Sending.verifyTask, Sending.program]
  · exact List.ne_nil_of_mem Sending.getDependency_mem_consumer

theorem Sending.proxyOf_of_local (h : D.Local t) : D.proxyOf t = D.verifier := by
  rcases h with rfl | rfl | rfl
  · rfl
  · rfl
  · unfold Sending.consumer
    split_ifs with h
    · exact h.symm
    · rfl

theorem Pending.still {c : ℕ} (hp : Pending D s c) (hQ : Still D δ D.Local D.verifier s s')
    (hc : δ c = (D.verifier, D.digest)) : Pending D s' c := by
  rcases hp with ⟨x, hx, htx, hm⟩ | ⟨x, hx, htx, hm⟩ | hv
  · obtain ⟨y, hy, hview, hgate⟩ := hQ.old (Or.inl rfl) hx
    exact Or.inl ⟨y, hy, hgate ▸ htx, by rwa [← mem_gateView rfl, hview, mem_gateView rfl]⟩
  · obtain ⟨y, hy, hview, hgate⟩ := hQ.old (Or.inr (Or.inl rfl)) hx
    exact Or.inr (Or.inl ⟨y, hy, hgate ▸ htx, by rwa [← mem_gateView rfl, hview, mem_gateView rfl]⟩)
  · exact Or.inr (Or.inr (by rwa [hQ.values c hc]))

/-- A step that is none of theirs. -/
theorem Meeting.still (hM : Meeting D s) (hS : Shape K D s) (hO : Owned δ s)
    (hQ : Still D δ D.Local D.verifier s s') : Meeting D s' := by
  have hA : Past s' D.verification (gate setLocalDependency) ↔
      Past s D.verification (gate setLocalDependency) :=
    hQ.past (Or.inl rfl) rfl (by simp [Sending.verification, Sending.program])
  have hC : Past s' D.consumer (gate getDependency) ↔ Past s D.consumer (gate getDependency) :=
    hQ.past (Or.inr (Or.inr rfl)) rfl Sending.getDependency_mem_consumer
  cases hM with
  | idle verification consumer entry =>
    exact .idle (hA.not.mpr verification) (hC.not.mpr consumer) (hQ.entry.trans entry)
  | made c verification consumer entry pending =>
    exact .made c (hA.mpr verification) (hC.not.mpr consumer) (hQ.entry.trans entry)
      (pending.still hQ (hO.map ⟨_, entry, Or.inl rfl⟩).2)
  | asked c x verification consumer past rx entry value await =>
    obtain ⟨y, hy, hview, hgate⟩ := hQ.old (Or.inr (Or.inr rfl)) consumer
    refine .asked c y (hA.not.mpr verification) hy ?_ (hgate ▸ rx) (hQ.entry.trans entry) ?_ ?_
    · rwa [← mem_gateView rfl, hview, mem_gateView rfl]
    · rw [hQ.values c (hO.map ⟨_, entry, Or.inr rfl⟩).2, value]
    · rwa [← mem_gateView rfl, hview, mem_gateView rfl]
  | met c x verification consumer past rx pending =>
    obtain ⟨y, hy, hview, hgate⟩ := hQ.old (Or.inr (Or.inr rfl)) consumer
    refine .met c y (hA.mpr verification) hy ?_ (hgate ▸ rx) ?_
    · rwa [← mem_gateView rfl, hview, mem_gateView rfl]
    · have hlocal : D.Local D.consumer := Or.inr (Or.inr rfl)
      refine pending.still hQ ?_
      rw [(hO.thread consumer (Or.inl rx)).2, (hS.digest consumer).mpr hlocal.mine,
        hS.proxy consumer hlocal.mine hlocal.program_ne_nil, Sending.proxyOf_of_local hlocal]

/-! Their own steps. -/

theorem RunStep.values_ne_none (h : RunStep K s s' t th th' a rest) {c : ℕ}
    (hc : s.resources.gate.values c ≠ none) : s'.resources.gate.values c ≠ none := by
  rcases h.values c with hv | ⟨-, -, hv⟩ <;> simp [hv, hc]

theorem Sending.consumer_ne : D.consumer ≠ D.verification ∧ D.consumer ≠ D.verifyTask := by
  unfold Sending.consumer
  split_ifs <;> simp [Sending.execution, Sending.request, Sending.verification, Sending.verifyTask]

/-- The verification registers. -/
theorem Meeting.register (hM : Meeting D s) (hS : Shape K D s)
    (h : RunStep K s s' D.verification th th' (gate setLocalDependency) rest)
    (hrest : gateView rest = [spawnVerify]) : Meeting D s' := by
  have hp : th.proxy = D.verifier := hS.proxy h.thread (Or.inl rfl)
    (by simp [Sending.verification, Sending.program])
  have hd : th.digest = D.digest := (hS.digest h.thread).mpr (Or.inl rfl)
  have hpast : Past s' D.verification (gate setLocalDependency) :=
    ⟨_, h.self, by rw [← mem_gateView rfl, hrest]; simp⟩
  have hspawn : spawnVerify ∈ rest := by rw [← mem_gateView rfl, hrest]; simp
  have hconsumer : s'.threads D.consumer = s.threads D.consumer :=
    h.threads_of_ne_gate Sending.consumer_ne.1
  obtain ⟨l, hg, rfl⟩ := h.gate
  obtain ⟨hG, hl⟩ := Prod.mk.inj (Option.some.inj hg)
  cases hM with
  | idle _ consumer entry =>
    refine .made s.resources.gate.fresh hpast (fun hc => consumer ((past_congr hconsumer).mp hc))
      ?_ (Or.inl ⟨_, h.self, ?_, hspawn⟩)
    · simp [← hG, hp, hd, entry]
    · simp [← hl, hp, hd, entry]
  | made _ verification => exact absurd verification h.not_past
  | asked c x _ consumer past rx entry =>
    refine .met c x hpast (hconsumer.trans consumer) past rx (Or.inl ⟨_, h.self, ?_, hspawn⟩)
    simp [← hl, hp, hd, entry]
  | met _ _ verification => exact absurd verification h.not_past

/-- It hands its sender on to its task. -/
theorem Meeting.spawnTask (hM : Meeting D s) (hS : Shape K D s)
    (h : RunStep K s s' D.verification th th' spawnVerify rest) (hrest : gateView rest = []) :
    Meeting D s' := by
  have hpast : Past s D.verification (gate setLocalDependency) := by
    refine ⟨th, h.thread, ?_⟩
    rw [← mem_gateView rfl, h.todo, gateView, List.filter_cons_of_pos rfl, ← gateView, hrest]
    simp
  have hpast' := h.past_of_past (spawned_ne_message _) hpast
  have hconsumer : s'.threads D.consumer = s.threads D.consumer := by
    refine h.threads_of_ne Sending.consumer_ne.1 fun x hx => ?_
    exact Sending.consumer_ne.2 (Prod.mk.inj (Option.some.inj hx)).1.symm
  have htask : s'.threads D.verifyTask = some (spawn th.proxy th.digest none
      ⟨none, th.gate.tx, false⟩ Cluster.verifyTask) := by
    rw [h.threads, update_of_ne (by simp [Sending.verifyTask, Sending.verification])]
    exact update_self _ _ _
  have hgate : s'.resources.gate = s.resources.gate := (perform_frame h.perform).gate (by simp)
  have hpending : ∀ {c}, Pending D s c → Pending D s' c := by
    rintro c (⟨x, hx, htx, -⟩ | ⟨x, hx, -⟩ | hv)
    · obtain rfl := Option.some.inj (hx.symm.trans h.thread)
      exact Or.inr (Or.inl ⟨_, htask, htx, by simp [spawn, Cluster.verifyTask]⟩)
    · exact absurd (hS.verify (by simp [hx])) h.not_past
    · exact Or.inr (Or.inr (hgate ▸ hv))
  cases hM with
  | idle verification => exact absurd hpast verification
  | made c _ consumer entry pending =>
    exact .made c hpast' (fun hc => consumer ((past_congr hconsumer).mp hc)) (hgate ▸ entry)
      (hpending pending)
  | asked _ _ verification => exact absurd hpast verification
  | met c x _ consumer past rx pending =>
    exact .met c x hpast' (hconsumer.trans consumer) past rx (hpending pending)

/-- The task verifies, and sends the result. -/
theorem Meeting.runTask {g : GateAction} (hM : Meeting D s) (hS : Shape K D s)
    (h : RunStep K s s' D.verifyTask th th' (.gate g) rest)
    (hg : (g = .verifyTransaction ∧ gate GateAction.send ∈ rest) ∨ g = .send) : Meeting D s' := by
  have hpast : Past s D.verification (gate GateAction.setLocalDependency) := by
    obtain ⟨x, hx, hnot⟩ := hS.verify (by simp [h.thread])
    have hview := hS.view hx (Or.inl rfl)
    refine ⟨x, hx, fun hm => hnot ?_⟩
    rw [← mem_gateView rfl] at hm ⊢
    simp only [Sending.verification, Sending.program, List.suffix_cons_iff,
      List.suffix_nil] at hview
    rcases hview with hview | hview | hview <;> simp_all
  have hverification : s'.threads D.verification = s.threads D.verification :=
    h.threads_of_ne_gate (by simp [Sending.verification, Sending.verifyTask])
  have hconsumer : s'.threads D.consumer = s.threads D.consumer :=
    h.threads_of_ne_gate Sending.consumer_ne.2
  have hentry : s'.resources.gate.controllers = s.resources.gate.controllers := by
    obtain ⟨l, hperform, -⟩ := h.gate
    rcases hg with ⟨rfl, -⟩ | rfl
    · obtain ⟨hG, -⟩ := Prod.mk.inj (Option.some.inj hperform)
      rw [← hG]
    · simp only [GateAction.perform] at hperform
      split at hperform <;> obtain ⟨hG, -⟩ := Prod.mk.inj (Option.some.inj hperform) <;> rw [← hG]
  have hpending : ∀ {c}, Pending D s c → Pending D s' c := by
    rintro c (⟨x, hx, htx, hm⟩ | ⟨x, hx, htx, -⟩ | hv)
    · exact Or.inl ⟨x, hverification.trans hx, htx, hm⟩
    · obtain rfl := Option.some.inj (hx.symm.trans h.thread)
      obtain ⟨l, hperform, rfl⟩ := h.gate
      rcases hg with ⟨rfl, hm⟩ | rfl
      · obtain ⟨-, hl⟩ := Prod.mk.inj (Option.some.inj hperform)
        exact Or.inr (Or.inl ⟨_, h.self, by rw [← hl]; exact htx, hm⟩)
      · simp only [GateAction.perform, htx] at hperform
        obtain ⟨hG, -⟩ := Prod.mk.inj (Option.some.inj hperform)
        exact Or.inr (Or.inr (by simp [← hG]))
    · exact Or.inr (Or.inr (h.values_ne_none hv))
  cases hM with
  | idle verification => exact absurd hpast verification
  | made c _ consumer entry pending =>
    exact .made c ((past_congr hverification).mpr hpast)
      (fun hc => consumer ((past_congr hconsumer).mp hc)) (by rw [hentry, entry])
      (hpending pending)
  | asked _ _ verification => exact absurd hpast verification
  | met c x _ consumer past rx pending =>
    exact .met c x ((past_congr hverification).mpr hpast) (hconsumer.trans consumer) past rx
      (hpending pending)

/-- The verification's side of a step of the consumer. -/
theorem Pending.consumer {c : ℕ} (hp : Pending D s c)
    (h : RunStep K s s' D.consumer th th' a rest)
    (hs : ∀ x, Cluster.spawned K D.consumer th a ≠ some (D.verifyTask, x)) : Pending D s' c := by
  rcases hp with ⟨x, hx, htx, hm⟩ | ⟨x, hx, htx, hm⟩ | hv
  · have := h.threads_of_ne Sending.consumer_ne.1.symm (spawned_ne_message _)
    exact Or.inl ⟨x, this.trans hx, htx, hm⟩
  · have := h.threads_of_ne Sending.consumer_ne.2.symm hs
    exact Or.inr (Or.inl ⟨x, this.trans hx, htx, hm⟩)
  · exact Or.inr (Or.inr (h.values_ne_none hv))

/-- The consumer looks up its receiver. -/
theorem Meeting.lookUp (hM : Meeting D s) (hS : Shape K D s) (hO : Owned δ s)
    (h : RunStep K s s' D.consumer th th' (gate getDependency) rest)
    (hget : gate getDependency ∉ rest) (hawait : gate GateAction.await ∈ rest) : Meeting D s' := by
  have hlocal : D.Local D.consumer := Or.inr (Or.inr rfl)
  have hp : th.proxy = D.verifier :=
    (hS.proxy h.thread hlocal.mine hlocal.program_ne_nil).trans (Sending.proxyOf_of_local hlocal)
  have hd : th.digest = D.digest := (hS.digest h.thread).mpr hlocal.mine
  have hverification : s'.threads D.verification = s.threads D.verification :=
    h.threads_of_ne_gate Sending.consumer_ne.1.symm
  obtain ⟨l, hg, rfl⟩ := h.gate
  obtain ⟨hG, hl⟩ := Prod.mk.inj (Option.some.inj hg)
  cases hM with
  | idle verification _ entry =>
    refine .asked s.resources.gate.fresh _
      (fun hc => verification ((past_congr hverification).mp hc))
      h.self hget ?_ ?_ ?_ hawait
    · simp [← hl, hp, hd, entry]
    · simp [← hG, hp, hd, entry]
    · rw [← hG]
      by_contra hv
      exact absurd (hO.value hv) (Nat.lt_irrefl _)
  | made c verification _ entry pending =>
    refine .met c _ ((past_congr hverification).mpr verification) h.self hget ?_
      (pending.consumer h (by simp [Cluster.spawned]))
    simp [← hl, hp, hd, entry]
  | asked _ _ _ consumer past => exact absurd ⟨_, consumer, past⟩ h.not_past
  | met _ _ _ consumer past => exact absurd ⟨_, consumer, past⟩ h.not_past

/-- Whatever it does afterwards. -/
theorem Meeting.consume (hM : Meeting D s) (h : RunStep K s s' D.consumer th th' a rest)
    (hs : ∀ x, Cluster.spawned K D.consumer th a ≠ some (D.verifyTask, x))
    (hget : gate getDependency ∉ th.todo)
    (ha : a = gate unwrapReceiver ∧ gate GateAction.await ∈ rest ∨ a = gate GateAction.await ∨
      (gate GateAction.await ∉ th.todo ∧ a ≠ gate setRemoteDependency)) : Meeting D s' := by
  have hverification : s'.threads D.verification = s.threads D.verification :=
    h.threads_of_ne Sending.consumer_ne.1.symm (spawned_ne_message _)
  have hget' : gate getDependency ∉ rest := by
    rw [h.todo] at hget
    exact List.not_mem_of_not_mem_cons hget
  have hrx : th'.gate.rx = th.gate.rx := by
    refine h.results.rx ?_ ?_
    · rintro rfl
      exact hget h.head_mem
    · rintro rfl
      rcases ha with ⟨heq, -⟩ | heq | ⟨-, hne⟩
      · cases heq
      · cases heq
      · exact hne rfl
  cases hM with
  | idle _ consumer => exact absurd ⟨th, h.thread, hget⟩ consumer
  | made _ _ consumer => exact absurd ⟨th, h.thread, hget⟩ consumer
  | asked c x verification consumer past rx entry value await =>
    obtain rfl := Option.some.inj (consumer.symm.trans h.thread)
    rcases ha with ⟨rfl, hm⟩ | rfl | ⟨hnot, -⟩
    · obtain ⟨l, hperform, -⟩ := h.gate
      simp only [GateAction.perform, rx, Option.isSome_some, if_true] at hperform
      obtain ⟨hG, -⟩ := Prod.mk.inj (Option.some.inj hperform)
      exact .asked c _ (fun hc => verification ((past_congr hverification).mp hc)) h.self hget'
        (hrx.trans rx) (hG ▸ entry) (hG ▸ value) hm
    · obtain ⟨l, hperform, -⟩ := h.gate
      simp [GateAction.perform, rx, value] at hperform
    · exact absurd await hnot
  | met c x verification consumer past rx pending =>
    obtain rfl := Option.some.inj (consumer.symm.trans h.thread)
    exact .met c _ ((past_congr hverification).mpr verification) h.self hget' (hrx.trans rx)
      (pending.consumer h hs)

/-- The other threads of the digest are at the other proxy. -/
theorem Sending.remote_of_not_local (ht : D.Mine t) (hprog : D.program (ω := ω) t ≠ [])
    (hl : ¬D.Local t) : D.verifier ≠ D.executor ∧ (t = D.execution ∨ t = D.reply) := by
  rcases t with (n | n) | (n | n) | _ | _ | (n | n) | (n | n) <;>
    simp [Sending.program, Sending.Mine, ThreadId.messageId, Sending.Local, Sending.consumer,
      Sending.execution, Sending.request, Sending.reply, Sending.verification,
      Sending.verifyTask] at hprog ht hl ⊢ <;> grind

theorem Sending.proxyOf_remote (h : t = D.execution ∨ t = D.reply) :
    D.proxyOf t = D.executor := by
  rcases h with rfl | rfl <;> rfl

/-- The consumer's own steps, at one proxy or as a request. -/
theorem Meeting.run_consumer (hmode : K.mode.isPrimarySeparation = true) (hM : Meeting D s)
    (hS : Shape K D s) (hO : Owned δ s) (h : RunStep K s s' D.consumer th th' a rest)
    (ha : isGate a = true) : Meeting D s' := by
  have hmine := Sending.mine_consumer (D := D)
  have hsuffix := hS.cons_suffix h hmine ha
  have hview : gateView th.todo = a :: gateView rest := by
    rw [h.todo, gateView, List.filter_cons_of_pos ha, gateView]
  have hprogram : D.program (ω := ω) D.consumer =
        [gate getDependency, gate GateAction.await, gate removeAwaited] ∨
      D.program (ω := ω) D.consumer = [gate getDependency, gate unwrapReceiver,
        gate GateAction.await, gate GateAction.removeDependency,
        sendStatelessReply D.executor] := by
    by_cases hx : D.verifier = D.executor
    · exact Or.inl (by simp [Sending.consumer, Sending.execution, Sending.program, hx])
    · exact Or.inr (by simp [Sending.consumer, Sending.request, Sending.program, hx])
  have hnot : ∀ {b}, isGate b = true → b ∉ a :: gateView rest → b ∉ th.todo :=
    fun hb hm => by rwa [← mem_gateView hb, hview]
  rcases hprogram with hprogram | hprogram <;>
    simp only [hprogram, List.suffix_cons_iff, List.suffix_nil, List.cons.injEq, reduceCtorEq,
      or_false] at hsuffix
  · rcases hsuffix with ⟨rfl, hrest⟩ | ⟨rfl, hrest⟩ | ⟨rfl, hrest⟩
    · exact hM.lookUp hS hO h (by rw [← mem_gateView rfl, hrest]; simp)
        (by rw [← mem_gateView rfl, hrest]; simp)
    · exact hM.consume h (by simp [Cluster.spawned]) (hnot rfl (by simp [hrest]))
        (Or.inr (Or.inl rfl))
    · exact hM.consume h (by simp [Cluster.spawned]) (hnot rfl (by simp [hrest]))
        (Or.inr (Or.inr ⟨hnot rfl (by simp [hrest]), by simp⟩))
  · rcases hsuffix with ⟨rfl, hrest⟩ | ⟨rfl, hrest⟩ | ⟨rfl, hrest⟩ | ⟨rfl, hrest⟩ | ⟨rfl, hrest⟩
    · exact hM.lookUp hS hO h (by rw [← mem_gateView rfl, hrest]; simp)
        (by rw [← mem_gateView rfl, hrest]; simp)
    · exact hM.consume h (by simp [Cluster.spawned]) (hnot rfl (by simp [hrest]))
        (Or.inl ⟨rfl, by rw [← mem_gateView rfl, hrest]; simp⟩)
    · exact hM.consume h (by simp [Cluster.spawned]) (hnot rfl (by simp [hrest]))
        (Or.inr (Or.inl rfl))
    · exact hM.consume h (by simp [Cluster.spawned]) (hnot rfl (by simp [hrest]))
        (Or.inr (Or.inr ⟨hnot rfl (by simp [hrest]), by simp⟩))
    · refine hM.consume h (fun x hx => ?_) (hnot rfl (by simp [hrest]))
        (Or.inr (Or.inr ⟨hnot rfl (by simp [hrest]), by simp⟩))
      rcases (hS.spawned hmode h hmine ha hx).2.2 with ⟨hx, -⟩ | ⟨hx, -⟩ | ⟨-, -, hx⟩ <;> cases hx

theorem Meeting.run (hmode : K.mode.isPrimarySeparation = true) (hM : Meeting D s)
    (hS : Shape K D s) (hO : Owned δ s) (h : RunStep K s s' t th th' a rest) : Meeting D s' := by
  by_cases hq : ¬D.Mine t ∨ isGate a = false
  · exact hM.still hS hO ((hS.quiet_run hO h hq).still fun _ ht => ⟨ht.mine, ht.program_ne_nil⟩)
  obtain ⟨hmine, ha⟩ : D.Mine t ∧ isGate a = true := by simpa using hq
  have hsuffix := hS.cons_suffix h hmine ha
  have hprog : D.program (ω := ω) t ≠ [] := List.ne_nil_of_mem (Program.mem_of_cons_suffix hsuffix)
  by_cases hlocal : D.Local t
  · rcases hlocal with rfl | rfl | rfl
    · simp only [Sending.verification, Sending.program, List.suffix_cons_iff, List.suffix_nil,
        List.cons.injEq, reduceCtorEq, or_false] at hsuffix
      rcases hsuffix with ⟨rfl, hrest⟩ | ⟨rfl, hrest⟩
      · exact hM.register hS h hrest
      · exact hM.spawnTask hS h hrest
    · simp only [Sending.verifyTask, Sending.program, List.suffix_cons_iff, List.suffix_nil,
        List.cons.injEq, reduceCtorEq, or_false] at hsuffix
      rcases hsuffix with ⟨rfl, hrest⟩ | ⟨rfl, hrest⟩
      · exact hM.runTask hS h (Or.inl ⟨rfl, by rw [← mem_gateView rfl, hrest]; simp⟩)
      · exact hM.runTask hS h (Or.inr rfl)
    · exact hM.run_consumer hmode hS hO h ha
  · obtain ⟨hne, hremote⟩ := Sending.remote_of_not_local hmine hprog hlocal
    have hproxy := (hS.proxy h.thread hmine hprog).trans (Sending.proxyOf_remote hremote)
    refine hM.still hS hO (hS.still hmode hO h hmine ha hlocal (hproxy ▸ hne.symm) ?_)
    intro u x hu hx
    rcases (hS.spawned hmode h hmine ha hx).2.2 with ⟨-, rfl, -⟩ | ⟨-, -, rfl⟩ | ⟨-, rfl, -⟩
    · exact absurd (Or.inl rfl) hlocal
    · exact hS.request_of_spawned hmode h hmine ha hne hx
    · rcases hremote with hr | hr <;> cases hr

end Meeting

/-! ## At the executor

The reply and the stateful task meet at the entry the task makes. -/

section Homecoming

variable (D : Sending)

/-- How far they have come. -/
inductive Homecoming (s : State τ ω) : Prop
  | idle (execution : ¬Past s D.execution (gate setRemoteDependency))
      (reply : ¬Past s D.reply (gate takeSignal))
      (entry : s.resources.gate.controllers D.executor D.digest = none)
  | waiting (c : ℕ) (x : Thread τ ω) (execution : s.threads D.execution = some x)
      (past : gate setRemoteDependency ∉ x.todo) (rx : x.gate.rx = some c)
      (await : gate await ∈ x.todo) (reply : ¬Past s D.reply (gate takeSignal))
      (entry : s.resources.gate.controllers D.executor D.digest = some (some ⟨none, some c⟩))
      (value : s.resources.gate.values c = none)
  | taken (c : ℕ) (x y : Thread τ ω) (execution : s.threads D.execution = some x)
      (past : gate setRemoteDependency ∉ x.todo) (rx : x.gate.rx = some c)
      (reply : s.threads D.reply = some y) (signal : gate takeSignal ∉ y.todo)
      (tx : y.gate.tx = some c) (send : gate GateAction.send ∈ y.todo)
  | sent (c : ℕ) (x : Thread τ ω) (execution : s.threads D.execution = some x)
      (past : gate setRemoteDependency ∉ x.todo) (rx : x.gate.rx = some c)
      (value : s.resources.gate.values c ≠ none)

variable {D} {δ : ℕ → ProxyId × TransactionDigest} {t : ThreadId} {th th' : Thread τ ω}
  {a : ProxyAction ω} {rest : List (ProxyAction ω)}

def Sending.Remote (D : Sending) (t : ThreadId) : Prop :=
  t = D.execution ∨ t = D.reply

theorem Sending.Remote.mine (h : D.Remote t) : D.Mine t := by
  rcases h with rfl | rfl <;> exact Or.inr rfl

theorem Sending.Remote.program_ne_nil (h : D.Remote t) (hne : D.verifier ≠ D.executor) :
    D.program (ω := ω) t ≠ [] := by
  rcases h with rfl | rfl <;> simp [Sending.execution, Sending.reply, Sending.program, hne]

/-- A step that is none of theirs. -/
theorem Homecoming.still (hH : Homecoming D s) (hne : D.verifier ≠ D.executor)
    (hS : Shape K D s) (hO : Owned δ s) (hQ : Still D δ D.Remote D.executor s s') :
    Homecoming D s' := by
  have hB : Past s' D.execution (gate setRemoteDependency) ↔
      Past s D.execution (gate setRemoteDependency) :=
    hQ.past (Or.inl rfl) rfl (by simp [Sending.execution, Sending.program, hne])
  have hP : Past s' D.reply (gate takeSignal) ↔ Past s D.reply (gate takeSignal) :=
    hQ.past (Or.inr rfl) rfl (by simp [Sending.reply, Sending.program, hne])
  cases hH with
  | idle execution reply entry =>
    exact .idle (hB.not.mpr execution) (hP.not.mpr reply) (hQ.entry.trans entry)
  | waiting c x execution past rx await reply entry value =>
    obtain ⟨y, hy, hview, hgate⟩ := hQ.old (Or.inl rfl) execution
    refine .waiting c y hy ?_ (hgate ▸ rx) ?_ (hP.not.mpr reply) (hQ.entry.trans entry) ?_
    · rwa [← mem_gateView rfl, hview, mem_gateView rfl]
    · rwa [← mem_gateView rfl, hview, mem_gateView rfl]
    · rw [hQ.values c (hO.map ⟨_, entry, Or.inr rfl⟩).2, value]
  | taken c x y execution past rx reply signal tx send =>
    obtain ⟨x', hx', hview, hgate⟩ := hQ.old (Or.inl rfl) execution
    obtain ⟨y', hy', hview', hgate'⟩ := hQ.old (Or.inr rfl) reply
    refine .taken c x' y' hx' ?_ (hgate ▸ rx) hy' ?_ (hgate' ▸ tx) ?_
    · rwa [← mem_gateView rfl, hview, mem_gateView rfl]
    · rwa [← mem_gateView rfl, hview', mem_gateView rfl]
    · rwa [← mem_gateView rfl, hview', mem_gateView rfl]
  | sent c x execution past rx value =>
    obtain ⟨y, hy, hview, hgate⟩ := hQ.old (Or.inl rfl) execution
    refine .sent c y hy ?_ (hgate ▸ rx) ?_
    · rwa [← mem_gateView rfl, hview, mem_gateView rfl]
    · have hremote : D.Remote D.execution := Or.inl rfl
      rwa [hQ.values c]
      rw [(hO.thread execution (Or.inl rx)).2, (hS.digest execution).mpr hremote.mine,
        hS.proxy execution hremote.mine (hremote.program_ne_nil hne)]
      rfl

/-! Their own steps. -/

/-- The task asks for the result. -/
theorem Homecoming.request (hH : Homecoming D s)
    (h : RunStep K s s' D.execution th th' (sendStatelessRequest D.verifier) rest)
    (hset : gate setRemoteDependency ∈ rest) : Homecoming D s' := by
  have hnot : ∀ {x}, s.threads D.execution = some x → gate setRemoteDependency ∈ x.todo := by
    intro x hx
    obtain rfl := Option.some.inj (hx.symm.trans h.thread)
    exact h.mem_of_mem hset
  have hgate : s'.resources.gate = s.resources.gate := (perform_frame h.perform).gate (by simp)
  have hreply : s'.threads D.reply = s.threads D.reply := by
    refine h.threads_of_ne (by simp [Sending.reply, Sending.execution]) fun x hx => ?_
    simp only [Cluster.spawned, Cluster.send] at hx
    split_ifs at hx
    cases (Prod.mk.inj (Option.some.inj hx)).1
  cases hH with
  | idle execution reply entry =>
    refine .idle ?_ (fun hp => reply ((past_congr hreply).mp hp)) (hgate ▸ entry)
    rintro ⟨x, hx, hm⟩
    obtain rfl := Option.some.inj (hx.symm.trans h.self)
    exact hm hset
  | waiting c x execution past => exact absurd (hnot execution) past
  | taken c x y execution past => exact absurd (hnot execution) past
  | sent c x execution past => exact absurd (hnot execution) past

/-- It makes the entry for the reply. -/
theorem Homecoming.register (hH : Homecoming D s) (hne : D.verifier ≠ D.executor)
    (hS : Shape K D s) (hO : Owned δ s)
    (h : RunStep K s s' D.execution th th' (gate setRemoteDependency) rest)
    (hset : gate setRemoteDependency ∉ rest) (hawait : gate GateAction.await ∈ rest) :
    Homecoming D s' := by
  have hremote : D.Remote D.execution := Or.inl rfl
  have hp : th.proxy = D.executor :=
    hS.proxy h.thread hremote.mine (hremote.program_ne_nil hne)
  have hd : th.digest = D.digest := (hS.digest h.thread).mpr hremote.mine
  have hreply : s'.threads D.reply = s.threads D.reply :=
    h.threads_of_ne_gate (by simp [Sending.reply, Sending.execution])
  obtain ⟨l, hg, rfl⟩ := h.gate
  obtain ⟨hG, hl⟩ := Prod.mk.inj (Option.some.inj hg)
  cases hH with
  | idle _ reply entry =>
    refine .waiting s.resources.gate.fresh _ h.self hset ?_ hawait
      (fun hc => reply ((past_congr hreply).mp hc)) ?_ ?_
    · simp [← hl]
    · simp [← hG, hp, hd, OneshotDependencyController.setRemoteDependency]
    · rw [← hG]
      by_contra hv
      exact absurd (hO.value hv) (Nat.lt_irrefl _)
  | waiting _ _ execution past => exact absurd ⟨_, execution, past⟩ h.not_past
  | taken _ _ _ execution past => exact absurd ⟨_, execution, past⟩ h.not_past
  | sent _ _ execution past => exact absurd ⟨_, execution, past⟩ h.not_past

/-- It awaits the result, and goes on. -/
theorem Homecoming.resume {g : GateAction} (hH : Homecoming D s)
    (h : RunStep K s s' D.execution th th' (.gate g) rest)
    (hset : gate setRemoteDependency ∉ th.todo)
    (hg : g = .await ∨ (g = .removeAwaited ∧ gate GateAction.await ∉ th.todo)) :
    Homecoming D s' := by
  have hreply : s'.threads D.reply = s.threads D.reply :=
    h.threads_of_ne_gate (by simp [Sending.reply, Sending.execution])
  have hset' : gate setRemoteDependency ∉ rest := by
    rw [h.todo] at hset
    exact List.not_mem_of_not_mem_cons hset
  have hrx : th'.gate.rx = th.gate.rx := by
    refine h.results.rx ?_ ?_ <;> rintro heq <;> rcases hg with rfl | ⟨rfl, -⟩ <;> cases heq
  cases hH with
  | idle execution => exact absurd ⟨th, h.thread, hset⟩ execution
  | waiting c x execution past rx await reply entry value =>
    obtain rfl := Option.some.inj (execution.symm.trans h.thread)
    rcases hg with rfl | ⟨-, hnot⟩
    · obtain ⟨l, hperform, -⟩ := h.gate
      simp [GateAction.perform, rx, value] at hperform
    · exact absurd await hnot
  | taken c x y execution past rx reply signal tx send =>
    obtain rfl := Option.some.inj (execution.symm.trans h.thread)
    exact .taken c _ y h.self hset' (hrx.trans rx) (hreply.trans reply) signal tx send
  | sent c x execution past rx value =>
    obtain rfl := Option.some.inj (execution.symm.trans h.thread)
    exact .sent c _ h.self hset' (hrx.trans rx) (h.values_ne_none value)

/-- The reply takes the sender out of the entry, which is there. -/
theorem Homecoming.signal (hH : Homecoming D s) (hne : D.verifier ≠ D.executor)
    (hS : Shape K D s) (h : RunStep K s s' D.reply th th' (gate takeSignal) rest)
    (hsignal : gate takeSignal ∉ rest) (hsend : gate GateAction.send ∈ rest)
    (hentry : (s.resources.gate.controllers th.proxy th.digest).isSome) : Homecoming D s' := by
  have hremote : D.Remote D.reply := Or.inr rfl
  have hp : th.proxy = D.executor :=
    hS.proxy h.thread hremote.mine (hremote.program_ne_nil hne)
  have hd : th.digest = D.digest := (hS.digest h.thread).mpr hremote.mine
  have hexecution : s'.threads D.execution = s.threads D.execution :=
    h.threads_of_ne_gate (by simp [Sending.reply, Sending.execution])
  cases hH with
  | idle _ _ entry => simp [hp, hd, entry] at hentry
  | waiting c x execution past rx await reply entry =>
    obtain ⟨l, hg, rfl⟩ := h.gate
    obtain ⟨-, hl⟩ := Prod.mk.inj (Option.some.inj hg)
    refine .taken c x _ (hexecution.trans execution) past rx h.self hsignal ?_ hsend
    simp [← hl, hp, hd, entry]
  | taken _ _ _ _ _ _ reply signal => exact absurd ⟨_, reply, signal⟩ h.not_past
  | sent c x execution past rx value =>
    exact .sent c x (hexecution.trans execution) past rx (h.values_ne_none value)

/-- It sends the result, and deletes the entry. -/
theorem Homecoming.deliver {g : GateAction} (hH : Homecoming D s)
    (h : RunStep K s s' D.reply th th' (.gate g) rest) (hsignal : gate takeSignal ∉ th.todo)
    (hg : g = .send ∨ gate GateAction.send ∉ th.todo) : Homecoming D s' := by
  have hexecution : s'.threads D.execution = s.threads D.execution :=
    h.threads_of_ne_gate (by simp [Sending.reply, Sending.execution])
  cases hH with
  | idle _ reply => exact absurd ⟨_, h.thread, hsignal⟩ reply
  | waiting _ _ _ _ _ _ reply => exact absurd ⟨_, h.thread, hsignal⟩ reply
  | taken c x y execution past rx reply signal tx send =>
    obtain rfl := Option.some.inj (reply.symm.trans h.thread)
    rcases hg with rfl | hnot
    · obtain ⟨l, hperform, -⟩ := h.gate
      simp only [GateAction.perform, tx] at hperform
      obtain ⟨hG, -⟩ := Prod.mk.inj (Option.some.inj hperform)
      exact .sent c x (hexecution.trans execution) past rx (by simp [← hG])
    · exact absurd send hnot
  | sent c x execution past rx value =>
    exact .sent c x (hexecution.trans execution) past rx (h.values_ne_none value)

theorem Homecoming.run (hmode : K.mode.isPrimarySeparation = true) (hH : Homecoming D s)
    (hne : D.verifier ≠ D.executor) (hS : Shape K D s) (hO : Owned δ s)
    (h : RunStep K s s' t th th' a rest)
    (hentry : t = D.reply → a = gate takeSignal →
      (s.resources.gate.controllers th.proxy th.digest).isSome) : Homecoming D s' := by
  by_cases hq : ¬D.Mine t ∨ isGate a = false
  · exact hH.still hne hS hO
      ((hS.quiet_run hO h hq).still fun _ ht => ⟨ht.mine, ht.program_ne_nil hne⟩)
  obtain ⟨hmine, ha⟩ : D.Mine t ∧ isGate a = true := by simpa using hq
  have hsuffix := hS.cons_suffix h hmine ha
  have hview : gateView th.todo = a :: gateView rest := by
    rw [h.todo, gateView, List.filter_cons_of_pos ha, gateView]
  have hnot : ∀ {b}, isGate b = true → b ∉ a :: gateView rest → b ∉ th.todo :=
    fun hb hm => by rwa [← mem_gateView hb, hview]
  by_cases hremote : D.Remote t
  · rcases hremote with rfl | rfl
    · simp only [Sending.execution, Sending.program, if_neg hne, List.suffix_cons_iff,
        List.suffix_nil, List.cons.injEq, reduceCtorEq, or_false] at hsuffix
      rcases hsuffix with ⟨rfl, hrest⟩ | ⟨rfl, hrest⟩ | ⟨rfl, hrest⟩ | ⟨rfl, hrest⟩
      · exact hH.request h (by rw [← mem_gateView rfl, hrest]; simp)
      · exact hH.register hne hS hO h (by rw [← mem_gateView rfl, hrest]; simp)
          (by rw [← mem_gateView rfl, hrest]; simp)
      · exact hH.resume h (hnot rfl (by simp [hrest])) (Or.inl rfl)
      · exact hH.resume h (hnot rfl (by simp [hrest])) (Or.inr ⟨rfl, hnot rfl (by simp [hrest])⟩)
    · simp only [Sending.reply, Sending.program, if_neg hne, List.suffix_cons_iff,
        List.suffix_nil, List.cons.injEq, reduceCtorEq, or_false] at hsuffix
      rcases hsuffix with ⟨rfl, hrest⟩ | ⟨rfl, hrest⟩ | ⟨rfl, hrest⟩
      · exact hH.signal hne hS h (by rw [← mem_gateView rfl, hrest]; simp)
          (by rw [← mem_gateView rfl, hrest]; simp) (hentry rfl rfl)
      · exact hH.deliver h (hnot rfl (by simp [hrest])) (Or.inl rfl)
      · exact hH.deliver h (hnot rfl (by simp [hrest])) (Or.inr (hnot rfl (by simp [hrest])))
  · have hprog : D.program (ω := ω) t ≠ [] :=
      List.ne_nil_of_mem (Program.mem_of_cons_suffix hsuffix)
    have hlocal : D.Local t := by
      by_contra hl
      exact hremote (Sending.remote_of_not_local hmine hprog hl).2
    have hproxy := (hS.proxy h.thread hmine hprog).trans (Sending.proxyOf_of_local hlocal)
    refine hH.still hne hS hO (hS.still hmode hO h hmine ha hremote (hproxy ▸ hne) ?_)
    intro u x hu hx
    rcases (hS.spawned hmode h hmine ha hx).2.2 with ⟨-, -, rfl, -⟩ | ⟨-, rfl, -⟩ | ⟨-, -, rfl⟩
    · rcases hu with hu | hu <;> cases hu
    · exact absurd (Or.inl rfl) hremote
    · exact hS.reply_of_spawned hmode h hmine ha hne hx

end Homecoming

end Cluster

end Remora
