import Remora.StatefulProgram

/-!
# The transfer of states

A proxy serves a request for states by reading them from its store : a state that is missing
there, or found at another version, is left out of the reply (`replyObjects`). The proxy that
has asked commits what it gets, and wakes up whoever waits for it. It does not know what it
asked for, so it takes each object as the output of a transaction on the version before it,
and asks the controller for the handles of that transaction's outputs, whose version is one
more than the largest of all the versions it is given.

The two fit together for one object. `performAll` is a thread that runs by itself.
`Processed` says what should become of a reply : the thread runs to its end, every object is
committed, and the handles signalled are those of the objects at their versions
(`Delivered`). `state_transfer_iff` says for which requests and stores this is so.
-/

namespace Remora

open Function Rendezvous VersionedDependencyController

variable {τ ω : Type}

namespace Cluster

open ProxyAction

variable (K : Cluster τ ω)

/-- The thread `t` performs the actions one after the other, and nobody else does anything. -/
def performAll (t : ThreadId) :
    List (ProxyAction ω) → Resources ω → Thread τ ω → Option (Resources ω × Thread τ ω)
  | [], R, th => some (R, th)
  | a :: rest, R, th => (perform K t R th a).bind fun (R', th') => performAll t rest R' th'

/-! ## The reply -/

/-- What the task of `handle_stateful_request` has read, one requested state after the other. -/
def readStates (version : ω → SequenceNumber) (store : ObjectID → Option ω) :
    List ObjectVersion → List (ObjectID × ω) → List (ObjectID × ω)
  | [], objects => objects
  | k :: states, objects =>
    match store k.1 with
    | some x =>
      readStates version store states
        (if version x = k.2 then insertObject k.1 x objects else objects)
    | none => readStates version store states objects

/-- The reply to a request for `states` when the store is `store`. `none` : the handler panics
on an empty request. -/
def replyObjects (version : ω → SequenceNumber) (store : ObjectID → Option ω)
    (states : List ObjectVersion) : Option (List (ObjectID × ω)) :=
  (getPriorDependencyAndUpdate states false true).map fun _ => readStates version store states []

/-- The states of a request that the store has at the requested version. -/
def availableStates (version : ω → SequenceNumber) (store : ObjectID → Option ω)
    (states : List ObjectVersion) : List ObjectVersion :=
  states.filter fun k => decide ((store k.1).map version = some k.2)

variable {K} {version : ω → SequenceNumber} {store : ObjectID → Option ω}
  {states : List ObjectVersion} {objects : List (ObjectID × ω)}

theorem performAll_append {t : ThreadId} (l₁ l₂ : List (ProxyAction ω)) {R : Resources ω}
    {th : Thread τ ω} : performAll K t (l₁ ++ l₂) R th =
      (performAll K t l₁ R th).bind fun (R', th') => performAll K t l₂ R' th' := by
  induction l₁ generalizing R th with
  | nil => rfl
  | cons a l₁ ih =>
    simp only [List.cons_append, performAll, Option.bind_assoc]
    exact congrArg _ (funext fun _ => ih)

/-- The loop of the task reads what `readStates` says. -/
theorem performAll_readState {t : ThreadId} {R : Resources ω} {th : Thread τ ω} :
    performAll K t (states.map readState) R th =
      some (R, { th with
        objects := readStates K.executor.version (R.stores th.proxy) states th.objects }) := by
  induction states generalizing th with
  | nil => rfl
  | cons k states ih =>
    simp only [List.map_cons, performAll, perform, readStates]
    cases R.stores th.proxy k.1 with
    | none => exact ih
    | some x =>
      dsimp only
      split_ifs
      · exact ih
      · exact ih

theorem mem_insertObject {o : ObjectID} {x : ω} (h : ∀ y, (o, y) ∈ objects → y = x)
    (b : ObjectID × ω) : b ∈ insertObject o x objects ↔ b = (o, x) ∨ b ∈ objects := by
  induction objects with
  | nil => simp [insertObject]
  | cons c objects ih =>
    obtain ⟨o', x'⟩ := c
    simp only [insertObject]
    split_ifs with hlt heq
    · simp
    · subst heq
      obtain rfl := h x' List.mem_cons_self
      simp
    · rw [List.mem_cons, List.mem_cons, ih fun y hy => h y (List.mem_cons_of_mem _ hy)]
      exact or_left_comm

theorem mem_readStates (h : ∀ o y, (o, y) ∈ objects → store o = some y) {o : ObjectID} {x : ω} :
    (o, x) ∈ readStates version store states objects ↔
      ((o, version x) ∈ states ∧ store o = some x) ∨ (o, x) ∈ objects := by
  induction states generalizing objects with
  | nil => simp [readStates]
  | cons k states ih =>
    obtain ⟨o', v⟩ := k
    rw [readStates, List.mem_cons]
    cases hs : store o' with
    | none =>
      rw [ih h]
      refine or_congr_left (and_congr_left fun hx => (or_iff_right fun he => ?_).symm)
      obtain ⟨rfl, -⟩ := Prod.mk.inj he
      simp [hs] at hx
    | some y =>
      dsimp only
      split_ifs with hv
      · have hy : ∀ z, (o', z) ∈ objects → z = y := fun z hz =>
          Option.some.inj ((h o' z hz).symm.trans hs)
        rw [ih fun o z hz => ?_, mem_insertObject hy]
        · constructor
          · rintro (⟨hm, hx⟩ | he | hm)
            · exact Or.inl ⟨Or.inr hm, hx⟩
            · obtain ⟨rfl, rfl⟩ := Prod.mk.inj he
              exact Or.inl ⟨Or.inl (by rw [hv]), hs⟩
            · exact Or.inr hm
          · rintro (⟨he | hm, hx⟩ | hm)
            · obtain ⟨rfl, -⟩ := Prod.mk.inj he
              obtain rfl := Option.some.inj (hs.symm.trans hx)
              exact Or.inr (Or.inl rfl)
            · exact Or.inl ⟨hm, hx⟩
            · exact Or.inr (Or.inr hm)
        · rcases (mem_insertObject hy _).mp hz with he | hm
          · obtain ⟨rfl, rfl⟩ := Prod.mk.inj he
            exact hs
          · exact h o z hm
      · rw [ih h]
        refine or_congr_left (and_congr_left fun hx => (or_iff_right fun he => hv ?_).symm)
        obtain ⟨rfl, hvx⟩ := Prod.mk.inj he
        rw [← hvx, Option.some.inj (hs.symm.trans hx)]

/-- A reply holds the available states. -/
theorem mem_replyObjects (h : replyObjects version store states = some objects) {o : ObjectID}
    {x : ω} : (o, x) ∈ objects ↔
      (o, version x) ∈ availableStates version store states ∧ store o = some x := by
  obtain ⟨-, -, rfl⟩ := Option.map_eq_some_iff.mp h
  rw [mem_readStates (by simp)]
  simp only [availableStates, List.mem_filter, List.not_mem_nil, or_false, decide_eq_true_eq]
  refine and_congr_left fun hx => (and_iff_left ?_).symm
  rw [hx]
  rfl

/-- What each of the actions preserves, all of them preserve. -/
theorem performAll_invariant {t : ThreadId} {I : Resources ω → Thread τ ω → Prop}
    {l : List (ProxyAction ω)} {R R' : Resources ω} {th th' : Thread τ ω}
    (hstep : ∀ a ∈ l, ∀ {R R' th th'}, perform K t R th a = some (R', th') → I R th → I R' th')
    (h : performAll K t l R th = some (R', th')) (hI : I R th) : I R' th' := by
  induction l generalizing R th with
  | nil =>
    obtain ⟨rfl, rfl⟩ := Prod.mk.inj (Option.some.inj h)
    exact hI
  | cons a l ih =>
    obtain ⟨⟨R₁, th₁⟩, hp, h⟩ := Option.bind_eq_some_iff.mp h
    exact ih (fun b hb => hstep b (List.mem_cons_of_mem _ hb)) h
      (hstep a List.mem_cons_self hp hI)

/-- The thread of a request ends with the objects of `replyObjects`, and sends these. -/
theorem replyObjects_of_performAll {t : ThreadId} {requester p : ProxyId} {k : ObjectVersion}
    {d : TransactionDigest} {todo : List (ProxyAction ω)} {R R' : Resources ω}
    {th' : Thread τ ω} (h : performAll K t (handleStatefulRequest requester k states) R
      (spawn p d none ⟨none, none, false⟩ todo) = some (R', th')) :
    replyObjects K.executor.version (R.stores p) states = some th'.objects := by
  unfold handleStatefulRequest at h
  cases hh : getPriorDependencyAndUpdate states false true with
  | none =>
    rw [hh] at h
    obtain ⟨x, -, hpanic⟩ := Option.bind_eq_some_iff.mp h
    exact absurd hpanic (by simp [performAll, perform])
  | some handles =>
    rw [hh] at h
    simp only [performAll_append _ [sendReply requester k],
      performAll_append _ (states.map readState)] at h
    obtain ⟨⟨R₂, th₂⟩, h, hsend⟩ := Option.bind_eq_some_iff.mp h
    obtain ⟨⟨R₁, th₁⟩, hbefore, hread⟩ := Option.bind_eq_some_iff.mp h
    obtain ⟨hs, hproxy, hobjects⟩ : R₁.stores = R.stores ∧ th₁.proxy = p ∧ th₁.objects = [] := by
      refine performAll_invariant (I := fun R₁ th₁ =>
        R₁.stores = R.stores ∧ th₁.proxy = p ∧ th₁.objects = []) ?_ hbefore ⟨rfl, rfl, rfl⟩
      intro a ha R₁ R₂ th₁ th₂ hp hI
      have hF := perform_frame hp
      simp only [List.mem_append, List.mem_singleton, List.mem_map, comp_apply] at ha
      have hquiet : writes a = false ∧ ∀ k, a ≠ readState k := by
        rcases ha with (((rfl | ⟨b, -, rfl⟩) | rfl) | ⟨b, -, rfl⟩) | ⟨b, -, rfl⟩ <;>
          exact ⟨rfl, by simp⟩
      exact ⟨(hF.stores hquiet.1).trans hI.1, hF.proxy.trans hI.2.1,
        (hF.objects hquiet.2).trans hI.2.2⟩
    rw [performAll_readState] at hread
    obtain ⟨-, rfl⟩ := Prod.mk.inj (Option.some.inj hread)
    obtain ⟨-, rfl⟩ := Prod.mk.inj (Option.some.inj hsend)
    simp only [replyObjects, hh, Option.map_some, hs, hproxy, hobjects]

/-! ## The handles of the reply -/

section Handles

variable {t : ThreadId} {R R' R'' : Resources ω} {th th' th'' : Thread τ ω}
  {ks ks' : List ObjectVersion}

/-- A handle that was not created yet holds no permit. -/
def Unissued (T : Table (ProxyId × ObjectVersion)) : Prop :=
  ∀ h, T.fresh ≤ h → T.permit h = false

/-- The thread holds the handle registered under the key. -/
def Registered (R : Resources ω) (th : Thread τ ω) (k : ObjectVersion) : Prop :=
  ∃ h, R.deps.entry (th.proxy, k) = some h ∧ th.held (th.proxy, k) = some h

/-- The thread has got the handles of `ks`. -/
structure Gets (ks : List ObjectVersion) (R R' : Resources ω) (th th' : Thread τ ω) : Prop where
  proxy : th'.proxy = th.proxy
  stores : R'.stores = R.stores
  permit : R'.deps.permit = R.deps.permit
  unissued : Unissued R'.deps
  registered : ∀ k, Registered R th k ∨ k ∈ ks → Registered R' th' k
  entry : ∀ k ∉ ks, R'.deps.entry (th.proxy, k) = R.deps.entry (th.proxy, k)

theorem Gets.nil (h : Unissued R.deps) : Gets [] R R th th where
  proxy := rfl
  stores := rfl
  permit := rfl
  unissued := h
  registered _ hk := hk.resolve_right List.not_mem_nil
  entry _ _ := rfl

theorem Gets.append (h : Gets ks R R' th th') (h' : Gets ks' R' R'' th' th'') :
    Gets (ks ++ ks') R R'' th th'' where
  proxy := h'.proxy.trans h.proxy
  stores := h'.stores.trans h.stores
  permit := h'.permit.trans h.permit
  unissued := h'.unissued
  registered k hk := by
    rw [List.mem_append, ← or_assoc] at hk
    exact h'.registered k (hk.imp_left (h.registered k))
  entry k hk := by
    rw [List.mem_append, not_or] at hk
    have he := h'.entry k hk.2
    rw [h.proxy] at he
    exact he.trans (h.entry k hk.1)

theorem Gets.single (k : ObjectVersion) (th : Thread τ ω) (hR : Unissued R.deps) :
    ∃ R' th', perform K t R th (dep (.get k)) = some (R', th') ∧ Gets [k] R R' th th' := by
  cases he : R.deps.entry (th.proxy, k) with
  | some h =>
    have hget : perform K t R th (dep (.get k)) =
        some (R, { th with held := update th.held (th.proxy, k) (some h) }) := by
      simp [perform, tag, Action.perform, he]
    refine ⟨_, _, hget, rfl, rfl, rfl, hR, fun k' hk' => ?_, fun _ _ => rfl⟩
    rw [List.mem_singleton] at hk'
    by_cases hkk : k' = k
    · subst hkk
      exact ⟨h, he, update_self ..⟩
    · obtain ⟨x, hx, hheld⟩ := hk'.resolve_right hkk
      have hne : (th.proxy, k') ≠ (th.proxy, k) := by simpa using hkk
      exact ⟨x, hx, (update_of_ne hne ..).trans hheld⟩
  | none =>
    have hpermit : update R.deps.permit R.deps.fresh false = R.deps.permit := by
      rw [← hR _ le_rfl, update_eq_self]
    have hget : perform K t R th (dep (.get k)) =
        some ({ R with deps := ⟨update R.deps.entry (th.proxy, k) (some R.deps.fresh),
            update R.deps.permit R.deps.fresh false, R.deps.fresh + 1⟩ },
          { th with held := update th.held (th.proxy, k) (some R.deps.fresh) }) := by
      simp [perform, tag, Action.perform, he]
    refine ⟨_, _, hget, rfl, rfl, hpermit, fun h hh => ?_, fun k' hk' => ?_, fun k' hk' => ?_⟩
    · exact (congrFun hpermit h).trans (hR h (Nat.le_of_succ_le hh))
    · rw [List.mem_singleton] at hk'
      by_cases hkk : k' = k
      · subst hkk
        exact ⟨R.deps.fresh, update_self .., update_self ..⟩
      · obtain ⟨x, hx, hheld⟩ := hk'.resolve_right hkk
        have hne : (th.proxy, k') ≠ (th.proxy, k) := by simpa using hkk
        exact ⟨x, (update_of_ne hne ..).trans hx, (update_of_ne hne ..).trans hheld⟩
    · exact update_of_ne (by simpa using hk') ..

theorem performAll_get (ks : List ObjectVersion) (th : Thread τ ω) (hR : Unissued R.deps) :
    ∃ R' th', performAll K t (ks.map (dep ∘ .get)) R th = some (R', th') ∧
      Gets ks R R' th th' := by
  induction ks generalizing R th with
  | nil => exact ⟨R, th, rfl, Gets.nil hR⟩
  | cons k ks ih =>
    obtain ⟨R₁, th₁, h₁, hget⟩ := Gets.single (K := K) (t := t) k th hR
    obtain ⟨R₂, th₂, h₂, hgets⟩ := ih th₁ hget.unissued
    refine ⟨R₂, th₂, ?_, hget.append hgets⟩
    simp only [List.map_cons, performAll, comp_apply, h₁, Option.bind_some]
    exact h₂

theorem performAll_commitNew :
    performAll K t (objects.map fun o => commitNew o.1 o.2) R th = some ({ R with
      stores := update R.stores th.proxy (commitObjects (R.stores th.proxy) objects) }, th) := by
  induction objects generalizing R with
  | nil => simp [performAll, commitObjects]
  | cons o objects ih =>
    simp only [List.map_cons, performAll, perform, Option.bind_some, ih, update_self,
      update_idem]
    rfl

/-- The handles of `ks` are signalled, the others are left alone. -/
structure Signals (ks : List ObjectVersion) (th : Thread τ ω) (R R' : Resources ω) : Prop where
  stores : R'.stores = R.stores
  entry : R'.deps.entry = R.deps.entry
  signalled : ∀ h, R.deps.permit h = true ∨ (∃ k ∈ ks, th.held (th.proxy, k) = some h) →
    R'.deps.permit h = true
  others : ∀ h, (∀ k ∈ ks, th.held (th.proxy, k) ≠ some h) →
    R'.deps.permit h = R.deps.permit h

theorem performAll_notify (R : Resources ω) (hks : ∀ k ∈ ks, ∃ h, th.held (th.proxy, k) = some h) :
    ∃ R', performAll K t (ks.map (dep ∘ .notify)) R th = some (R', th) ∧ Signals ks th R R' := by
  induction ks generalizing R with
  | nil =>
    exact ⟨R, rfl, rfl, rfl, fun h hh => hh.resolve_right (by simp), fun _ _ => rfl⟩
  | cons k ks ih =>
    obtain ⟨x, hx⟩ := hks k List.mem_cons_self
    have hstep : perform K t R th (dep (.notify k)) = some ({ R with
        deps := { R.deps with permit := update R.deps.permit x true } }, th) := by
      simp [perform, tag, Action.perform, hx]
    obtain ⟨R', h', hS⟩ := ih { R with
      deps := { R.deps with permit := update R.deps.permit x true } }
      fun k hk => hks k (List.mem_cons_of_mem _ hk)
    refine ⟨R', ?_, hS.stores, hS.entry, fun h hh => hS.signalled h ?_, fun h hh => ?_⟩
    · simp only [List.map_cons, performAll, comp_apply, hstep, Option.bind_some]
      exact h'
    · by_cases hhx : h = x
      · exact Or.inl (hhx ▸ update_self ..)
      · refine hh.imp (fun hp => (update_of_ne hhx ..).trans hp) ?_
        rintro ⟨k', hk', hheld⟩
        rcases List.mem_cons.mp hk' with rfl | hk'
        · exact absurd (Option.some.inj (hheld.symm.trans hx)) hhx
        · exact ⟨k', hk', hheld⟩
    · have hhx : h ≠ x := fun he => hh k List.mem_cons_self (he ▸ hx)
      exact (hS.others h fun k' hk' => hh k' (List.mem_cons_of_mem _ hk')).trans
        (update_of_ne hhx ..)

end Handles

/-! ## The transfer -/

section Transfer

variable {t : ThreadId} {p : ProxyId} {d : TransactionDigest} {R R' : Resources ω}
  {th : Thread τ ω} {ks : List ObjectVersion} {v : SequenceNumber}

/-- The message handler of `p` is free, and no handle has a permit before it is created. -/
structure Ready (p : ProxyId) (R : Resources ω) : Prop where
  free : R.busy p .proxy = false
  unissued : Unissued R.deps

/-- What the reply `objects` should lead to at `p` : they are committed, and of the handles
exactly those registered under the objects at their versions are signalled. -/
structure Delivered (version : ω → SequenceNumber) (p : ProxyId) (objects : List (ObjectID × ω))
    (R R' : Resources ω) : Prop where
  committed : ∀ o x, (o, x) ∈ objects → R'.stores p o = some x
  signalled : ∀ o x, (o, x) ∈ objects →
    ∃ h, R'.deps.entry (p, (o, version x)) = some h ∧ R'.deps.permit h = true
  others : ∀ h, (∀ o x, (o, x) ∈ objects → R'.deps.entry (p, (o, version x)) ≠ some h) →
    R'.deps.permit h = R.deps.permit h

variable (K) in
/-- The reply is processed to its end, without a panic. -/
def Processed (t : ThreadId) (p : ProxyId) (d : TransactionDigest) (R : Resources ω)
    (objects : List (ObjectID × ω)) : Prop :=
  ∃ R' th', performAll K t (handleStatefulReply K.executor.version objects) R
    (spawn (τ := τ) p d none ⟨none, none, false⟩ []) = some (R', th') ∧
      Delivered K.executor.version p objects R R'

variable (K) in
/-- A reply to the request for `states` is built, and whoever gets it processes it. -/
def StateTransfer (states : List ObjectVersion) (store : ObjectID → Option ω) : Prop :=
  ∃ objects, replyObjects K.executor.version store states = some objects ∧
    ∀ t p d R, Ready p R → Processed K t p d R objects

theorem mockedStates_eq_some : mockedStates version objects = some ks ↔
    (∀ o ∈ objects, version o.2 ≠ 0) ∧ ks = objects.map fun o => (o.1, version o.2 - 1) := by
  unfold mockedStates
  induction objects generalizing ks with
  | nil => simp [eq_comm]
  | cons o objects ih =>
    rw [List.mapM_cons]
    by_cases ho : version o.2 = 0
    · simp [oneBefore, ho]
    · cases hm : objects.mapM fun o => (oneBefore (version o.2)).map fun v => (o.1, v) with
      | none =>
        refine iff_of_false (by simp [oneBefore, ho]) fun h => ?_
        simpa [hm] using ih.mpr ⟨fun o' ho' => h.1 o' (List.mem_cons_of_mem _ ho'), rfl⟩
      | some ks' =>
        obtain ⟨hall, rfl⟩ := ih.mp hm
        simp only [oneBefore, if_neg ho, List.forall_mem_cons, and_iff_right ho,
          and_iff_right hall, List.map_cons]
        exact Option.some_inj.trans eq_comm

theorem handleStatefulReply_eq (hm : mockedStates version objects = some ks)
    (hv : calculateNextVersion ks = some v) :
    handleStatefulReply version objects = [take .proxy] ++
      (ks.map fun k => (k.1, v)).map (dep ∘ .get) ++ [yield .proxy] ++
      (objects.map fun o => commitNew o.1 o.2) ++
      (ks.map fun k => (k.1, v)).map (dep ∘ .notify) := by
  have hget : getPriorDependencyAndUpdate ks true false =
      some ⟨(ks.map fun k => (k.1, v)).map .get, [], ks.map fun k => (k.1, v)⟩ := by
    simp [getPriorDependencyAndUpdate, hv, ← List.map_eq_flatMap]
  simp only [handleStatefulReply, hm, hget, Option.bind_some, List.map_map]
  rfl

/-- A reply with a next version is processed, and signals its objects at that version. -/
theorem performAll_handleStatefulReply (th : Thread τ ω) (hR : Ready th.proxy R)
    (hobjects : ∀ o x, (o, x) ∈ objects → store o = some x)
    (hm : mockedStates K.executor.version objects = some ks)
    (hv : calculateNextVersion ks = some v) :
    ∃ R' th', performAll K t (handleStatefulReply K.executor.version objects) R th =
        some (R', th') ∧
      (∀ o x, (o, x) ∈ objects → R'.stores th.proxy o = some x) ∧
      (∀ o x, (o, x) ∈ objects → ∃ h, R'.deps.entry (th.proxy, (o, v)) = some h ∧
        R'.deps.permit h = true) ∧
      (∀ h, (∀ o x, (o, x) ∈ objects → R'.deps.entry (th.proxy, (o, v)) ≠ some h) →
        R'.deps.permit h = R.deps.permit h) ∧
      ∀ k, k.2 ≠ v → R'.deps.entry (th.proxy, k) = R.deps.entry (th.proxy, k) := by
  obtain ⟨-, rfl⟩ := mockedStates_eq_some.mp hm
  have hmem : ∀ k, k ∈ (objects.map fun o => (o.1, K.executor.version o.2 - 1)).map
      (fun k => (k.1, v)) ↔ ∃ x, (k.1, x) ∈ objects ∧ k.2 = v := by
    rintro ⟨o, w⟩
    simp only [List.map_map, List.mem_map, comp_apply, Prod.mk.injEq]
    constructor
    · rintro ⟨⟨o', x⟩, hx, rfl, rfl⟩
      exact ⟨x, hx, rfl⟩
    · rintro ⟨x, hx, rfl⟩
      exact ⟨(o, x), hx, rfl, rfl⟩
  rw [handleStatefulReply_eq hm hv]
  set keys := (objects.map fun o => (o.1, K.executor.version o.2 - 1)).map fun k => (k.1, v)
  let R₀ : Resources ω := { R with
    busy := update R.busy th.proxy (update (R.busy th.proxy) .proxy true) }
  obtain ⟨R₁, th₁, hget, hG⟩ :=
    performAll_get (K := K) (t := t) (R := R₀) keys th hR.unissued
  let R₂ : Resources ω := { R₁ with
    busy := update R₁.busy th₁.proxy (update (R₁.busy th₁.proxy) .proxy false)
    stores := update R₁.stores th₁.proxy (commitObjects (R₁.stores th₁.proxy) objects) }
  have hheld : ∀ k ∈ keys, ∃ h, th₁.held (th₁.proxy, k) = some h := fun k hk =>
    (hG.registered k (Or.inr hk)).imp fun _ h => h.2
  obtain ⟨R₃, hnotify, hS⟩ := performAll_notify (K := K) (t := t) R₂ hheld
  have hkey : ∀ k ∈ keys, ∃ h, R₃.deps.entry (th.proxy, k) = some h ∧
      th₁.held (th₁.proxy, k) = some h := fun k hk => by
    obtain ⟨h, he, hh⟩ := hG.registered k (Or.inr hk)
    exact ⟨h, hS.entry ▸ hG.proxy ▸ he, hh⟩
  refine ⟨R₃, th₁, ?_, fun o x hx => ?_, fun o x hx => ?_, fun h hh => ?_, fun k hk => ?_⟩
  · have htake : performAll K t [take .proxy] R th = some (R₀, th) := by
      simp [performAll, perform, hR.free, R₀]
    have hyield : performAll K t [yield .proxy] R₁ th₁ = some ({ R₁ with
        busy := update R₁.busy th₁.proxy (update (R₁.busy th₁.proxy) .proxy false) }, th₁) := rfl
    simp only [performAll_append, htake, hget, hyield, performAll_commitNew, Option.bind_some]
    exact hnotify
  · rw [hS.stores, ← hG.proxy]
    exact (congrFun (update_self ..) o).trans (commitObjects_of_mem hobjects hx)
  · have hk := (hmem (o, v)).mpr ⟨x, hx, rfl⟩
    obtain ⟨h, he, hh⟩ := hkey _ hk
    exact ⟨h, he, hS.signalled h (Or.inr ⟨_, hk, hh⟩)⟩
  · have hothers : ∀ k ∈ keys, th₁.held (th₁.proxy, k) ≠ some h := fun k hk heq => by
      obtain ⟨x, hx, hkv⟩ := (hmem k).mp hk
      obtain ⟨h', he, hheld⟩ := hkey k hk
      obtain rfl := Option.some.inj (hheld.symm.trans heq)
      exact hh k.1 x hx (hkv ▸ he)
    exact (hS.others h hothers).trans (congrFun hG.permit h)
  · rw [hS.entry]
    exact hG.entry k fun hm => hk ((hmem k).mp hm).choose_spec.2

/-- A panic in the handler ends it. -/
theorem not_processed_of_panic (h : (mockedStates K.executor.version objects).bind
      (fun ks => getPriorDependencyAndUpdate ks true false) = none) :
    ¬Processed K t p d R objects := by
  rintro ⟨R', th', hrun, -⟩
  rw [handleStatefulReply, h] at hrun
  unfold performAll at hrun
  obtain ⟨x, -, hpanic⟩ := Option.bind_eq_some_iff.mp hrun
  exact absurd hpanic (by simp [performAll, perform])

/-- Nothing is registered yet, and no message is being handled. -/
def Resources.init (stores : ProxyId → ObjectID → Option ω) : Resources ω :=
  ⟨fun _ _ => false, Table.empty, Gate.empty, stores⟩

theorem ready_init (stores : ProxyId → ObjectID → Option ω) : Ready p (Resources.init stores) :=
  ⟨rfl, fun _ _ => rfl⟩

theorem calculateNextVersion_of_const (hne : ks ≠ []) (h : ∀ k ∈ ks, k.2 = v) :
    calculateNextVersion ks = some (v + 1) := by
  have hmap : ks.map Prod.snd = List.replicate ks.length v :=
    List.eq_replicate_iff.mpr ⟨List.length_map _, fun w hw => by
      obtain ⟨k, hk, rfl⟩ := List.mem_map.mp hw
      exact h k hk⟩
  have hpos : 0 < ks.length := List.length_pos_iff.mpr hne
  simp [calculateNextVersion, hmap, List.max?_replicate_of_pos hpos]

/-- With nothing registered, a reply is processed as it should be only if it has objects, all
at one version. -/
theorem versions_of_processed {stores : ProxyId → ObjectID → Option ω}
    (hobjects : ∀ o x, (o, x) ∈ objects → store o = some x)
    (h : Processed K t p d (Resources.init stores) objects) :
    objects ≠ [] ∧ ∃ v ≠ 0, ∀ o x, (o, x) ∈ objects → K.executor.version x = v := by
  cases hm : mockedStates K.executor.version objects with
  | none => exact absurd h (not_processed_of_panic (by simp [hm]))
  | some ks =>
    cases hv : calculateNextVersion ks with
    | none =>
      exact absurd h (not_processed_of_panic (by simp [hm, getPriorDependencyAndUpdate, hv]))
    | some v =>
      obtain ⟨hpos, rfl⟩ := mockedStates_eq_some.mp hm
      obtain ⟨R', th', hrun, hD⟩ := h
      obtain ⟨R'', th'', hrun', -, -, -, hentry⟩ := performAll_handleStatefulReply
        (spawn (τ := τ) p d none ⟨none, none, false⟩ []) (ready_init stores) hobjects hm hv
      obtain ⟨rfl, rfl⟩ := Prod.mk.inj (Option.some.inj (hrun.symm.trans hrun'))
      have hversion : ∀ o x, (o, x) ∈ objects → K.executor.version x = v := by
        intro o x hx
        obtain ⟨h, he, -⟩ := hD.signalled o x hx
        by_contra hne
        have hnone : R'.deps.entry (p, (o, K.executor.version x)) = none := hentry _ hne
        exact absurd (he.symm.trans hnone) (by simp)
      have hne : objects ≠ [] := by
        rintro rfl
        simp [calculateNextVersion] at hv
      obtain ⟨⟨o, x⟩, hx⟩ := List.exists_mem_of_ne_nil _ hne
      exact ⟨hne, v, hversion o x hx ▸ hpos _ hx, hversion⟩

/-- A reply whose objects have one version is processed as it should be. -/
theorem processed_of_versions (hobjects : ∀ o x, (o, x) ∈ objects → store o = some x)
    (hne : objects ≠ []) (hpos : v ≠ 0)
    (hversion : ∀ o x, (o, x) ∈ objects → K.executor.version x = v) (hR : Ready p R) :
    Processed K t p d R objects := by
  have hm : mockedStates K.executor.version objects = _ :=
    mockedStates_eq_some.mpr ⟨fun o ho => hversion o.1 o.2 ho ▸ hpos, rfl⟩
  have hnil : (objects.map fun o => (o.1, K.executor.version o.2 - 1)) ≠ [] := by simpa using hne
  have hv := calculateNextVersion_of_const (v := v - 1) hnil fun k hk => by
    obtain ⟨o, ho, rfl⟩ := List.mem_map.mp hk
    rw [hversion o.1 o.2 ho]
  rw [Nat.sub_add_cancel (Nat.pos_of_ne_zero hpos)] at hv
  obtain ⟨R', th', hrun, hcommitted, hsignalled, hothers, -⟩ := performAll_handleStatefulReply
    (t := t) (spawn (τ := τ) p d none ⟨none, none, false⟩ []) hR hobjects hm hv
  refine ⟨R', th', hrun, hcommitted, fun o x hx => ?_, fun h hh => hothers h fun o x hx => ?_⟩
  · rw [hversion o x hx]
    exact hsignalled o x hx
  · rw [← hversion o x hx]
    exact hh o x hx

/-- The transfer works if some of the requested states are there, all at one version, and
only then. -/
theorem state_transfer_iff : StateTransfer K states store ↔
    availableStates K.executor.version store states ≠ [] ∧
      ∃ v ≠ 0, ∀ k ∈ availableStates K.executor.version store states, k.2 = v := by
  cases hreply : replyObjects K.executor.version store states with
  | none =>
    have hnil : states = [] := by
      by_contra hne
      rw [replyObjects, Option.map_eq_none_iff] at hreply
      simp [getPriorDependencyAndUpdate, calculateNextVersion, hne] at hreply
    refine iff_of_false ?_ ?_
    · rintro ⟨objects, h, -⟩
      simp [hreply] at h
    · simp [hnil, availableStates]
  | some objects =>
    have hmem : ∀ o x, (o, x) ∈ objects ↔
        (o, K.executor.version x) ∈ availableStates K.executor.version store states ∧
          store o = some x := fun o x => mem_replyObjects hreply
    have havail : ∀ k ∈ availableStates K.executor.version store states,
        ∃ x, (k.1, x) ∈ objects ∧ K.executor.version x = k.2 := by
      intro k hk
      obtain ⟨x, hx, hv⟩ := Option.map_eq_some_iff.mp (by simpa using (List.mem_filter.mp hk).2)
      exact ⟨x, (hmem _ _).mpr ⟨hv ▸ hk, hx⟩, hv⟩
    have hobjects : ∀ o x, (o, x) ∈ objects → store o = some x := fun o x hx =>
      ((hmem o x).mp hx).2
    have htransfer : StateTransfer K states store ↔
        objects ≠ [] ∧ ∃ v ≠ 0, ∀ o x, (o, x) ∈ objects → K.executor.version x = v := by
      simp only [StateTransfer, hreply, Option.some.injEq, exists_eq_left']
      constructor
      · exact fun h => versions_of_processed hobjects
          (h (.message (.stateful 0)) 0 0 _ (ready_init fun _ => store))
      · rintro ⟨hne, v, hpos, hversion⟩ t p d R hR
        exact processed_of_versions hobjects hne hpos hversion hR
    rw [htransfer]
    refine and_congr ?_ (exists_congr fun v => and_congr_right fun _ => ?_)
    · simp only [ne_eq, List.eq_nil_iff_forall_not_mem, not_forall, not_not]
      constructor
      · rintro ⟨⟨o, x⟩, hx⟩
        exact ⟨_, ((hmem o x).mp hx).1⟩
      · rintro ⟨k, hk⟩
        obtain ⟨x, hx, -⟩ := havail k hk
        exact ⟨_, hx⟩
    · constructor
      · intro h k hk
        obtain ⟨x, hx, hv⟩ := havail k hk
        rw [← hv, h _ _ hx]
      · intro h o x hx
        exact h _ ((hmem o x).mp hx).1

/-- A cluster that runs the Fake executor, with every transaction verified. -/
def fakeCluster : Cluster Unit FakeObject :=
  ⟨.NoSeparation, [0, 1], fakeExecutor Unit, fun _ => true⟩

/-- A store whose object 0 is at version 2, as the transaction that was to write version 3 was
skipped. -/
def skippedStore (o : ObjectID) : Option FakeObject :=
  if o = 0 then some ⟨0, 2, 10, .shared 2⟩ else none

/-- Asked for version 3, the owner replies with no objects, and the requester panics. -/
theorem empty_reply_not_processed :
    replyObjects fakeCluster.executor.version skippedStore [(0, 3)] = some [] ∧
      ¬StateTransfer fakeCluster [(0, 3)] skippedStore := by
  refine ⟨by decide, ?_⟩
  rintro ⟨objects, hreply, hall⟩
  have hnil : objects = [] := Option.some.inj (hreply.symm.trans (by decide))
  subst hnil
  exact not_processed_of_panic (by simp [mockedStates, getPriorDependencyAndUpdate,
    calculateNextVersion]) (hall (.message (.stateful 0)) 0 0 _ (ready_init fun _ => skippedStore))

end Transfer

end Cluster

end Remora
