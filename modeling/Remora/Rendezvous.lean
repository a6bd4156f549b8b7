import Remora.Program
import Mathlib.Data.List.Nodup
import Mathlib.Data.List.Basic

/-!
# Rendezvous through a table of one-permit handles

A table maps keys to handles. `get` returns the handle of a key and creates it if the
key has none, `remove` deletes the key, `notify` stores the handle's one permit and
`wait` takes it. Two threads that meet at a key, a producer that notifies and a consumer
that waits, hold the same handle only if neither finds the key deleted and created again.

`Protocol` is the discipline under which this never happens : each key has at most one
producer and one consumer, both get the handle before they use it, and the consumer
deletes the key only after its wait. `Inv` is what every interleaving of such threads
keeps (`Inv.step`) : the parties of a key hold one handle, no other key shares it, and
its permit is there exactly between the notify and the wait. A consumer past its wait
has been notified (`Inv.notified_of_woken`), and a notified consumer is never blocked
(`Inv.wait_enabled`).
-/

set_option linter.unusedSectionVars false

namespace Rendezvous

open Function

variable {K Θ : Type*}

/-- One atomic operation on the table. -/
inductive Action (K : Type*)
  | get (k : K)
  | wait (k : K)
  | remove (k : K)
  | notify (k : K)
  deriving DecidableEq, Repr

namespace Action

/-- The key an action is about. -/
def key : Action K → K
  | get k | wait k | remove k | notify k => k

/-- The phase of an action : handles first, then waits, deletions, and notifications. -/
def rank : Action K → ℕ
  | get _ => 0
  | wait _ => 1
  | remove _ => 2
  | notify _ => 3

@[simp] theorem rank_get (k : K) : (get k).rank = 0 := rfl

@[simp] theorem rank_wait (k : K) : (wait k).rank = 1 := rfl

@[simp] theorem rank_remove (k : K) : (remove k).rank = 2 := rfl

@[simp] theorem rank_notify (k : K) : (notify k).rank = 3 := rfl

end Action

/-- The handle of each key, and which handles hold a permit. Handles from `fresh` on have
not been created. -/
structure Table (K : Type*) where
  entry : K → Option ℕ
  permit : ℕ → Bool
  fresh : ℕ

/-- No key has a handle. -/
def Table.empty : Table K :=
  ⟨fun _ => none, fun _ => false, 0⟩

variable [DecidableEq K]

/-- Perform an action with the handles `held`, by key. `none` : the action is blocked, a
wait without a permit, or has no handle to work on. -/
def Action.perform (T : Table K) (held : K → Option ℕ) :
    Action K → Option (Table K × (K → Option ℕ))
  | .get k =>
    match T.entry k with
    | some h => some (T, update held k (some h))
    | none => some (⟨update T.entry k (some T.fresh), update T.permit T.fresh false,
        T.fresh + 1⟩, update held k (some T.fresh))
  | .wait k =>
    (held k).bind fun h =>
      if T.permit h then some ({ T with permit := update T.permit h false }, held) else none
  | .remove k => some ({ T with entry := update T.entry k none }, held)
  | .notify k =>
    (held k).map fun h => ({ T with permit := update T.permit h true }, held)

/-- A thread gets the handle of a key by its `get`. -/
theorem Action.held_eq {T T' : Table K} {held held' : K → Option ℕ} {a : Action K}
    (h : a.perform T held = some (T', held')) {k : K} (hk : a ≠ .get k) : held' k = held k := by
  cases a with
  | get k' =>
    have hne : k ≠ k' := fun he => hk (he ▸ rfl)
    simp only [Action.perform] at h
    split at h <;> obtain ⟨-, rfl⟩ := Prod.mk.inj (Option.some.inj h) <;> simp [hne]
  | wait k' =>
    obtain ⟨x, -, h⟩ := Option.bind_eq_some_iff.mp h
    obtain ⟨-, h⟩ := Option.ite_none_right_eq_some.mp h
    obtain ⟨-, rfl⟩ := Prod.mk.inj (Option.some.inj h)
    rfl
  | remove k' =>
    obtain ⟨-, rfl⟩ := Prod.mk.inj (Option.some.inj h)
    rfl
  | notify k' =>
    obtain ⟨x, -, h⟩ := Option.map_eq_some_iff.mp h
    obtain ⟨-, rfl⟩ := Prod.mk.inj h
    rfl

/-- The handles a thread holds, and the actions it has not taken yet. -/
structure Agent (K : Type*) where
  held : K → Option ℕ
  todo : List (Action K)

/-- Programs in which each key has at most one producer and one consumer. A key without
parties may still be deleted. -/
structure Protocol (K Θ : Type*) where
  prog : Θ → List (Action K)
  producer : K → Option Θ
  consumer : K → Option Θ
  nodup : ∀ t, (prog t).Nodup
  ordered : ∀ t, Program.Ordered Action.rank (prog t)
  get_role : ∀ {t k}, .get k ∈ prog t → producer k = some t ∨ consumer k = some t
  wait_role : ∀ {t k}, .wait k ∈ prog t → consumer k = some t
  remove_role : ∀ {t k}, .remove k ∈ prog t →
    consumer k = some t ∨ (producer k = none ∧ consumer k = none)
  notify_role : ∀ {t k}, .notify k ∈ prog t → producer k = some t
  producer_prog : ∀ {t k}, producer k = some t → .get k ∈ prog t ∧ .notify k ∈ prog t
  consumer_prog : ∀ {t k}, consumer k = some t →
    .get k ∈ prog t ∧ .wait k ∈ prog t ∧ .remove k ∈ prog t
  distinct : ∀ {t k}, producer k = some t → consumer k ≠ some t

namespace Protocol

variable (P : Protocol K Θ) (A : Θ → Agent K)

/-- `t` is the producer or the consumer of `k`. -/
def Party (t : Θ) (k : K) : Prop :=
  P.producer k = some t ∨ P.consumer k = some t

/-- A party of `k` holds the handle `h`. -/
def Holds (k : K) (h : ℕ) : Prop :=
  ∃ t, P.Party t k ∧ (A t).held k = some h

/-- The producer of `k` has notified. -/
def Notified (k : K) : Prop :=
  ∃ t, P.producer k = some t ∧ .notify k ∉ (A t).todo

/-- The consumer of `k` is past its wait. -/
def Woken (k : K) : Prop :=
  ∃ t, P.consumer k = some t ∧ .wait k ∉ (A t).todo

/-- The consumer of `k` has deleted the key. -/
def Removed (k : K) : Prop :=
  ∃ t, P.consumer k = some t ∧ .remove k ∉ (A t).todo

/-- What every interleaving keeps. -/
structure Inv (T : Table K) : Prop where
  suffix : ∀ t, (A t).todo <:+ P.prog t
  held_none : ∀ {t k}, .get k ∈ (A t).todo → (A t).held k = none
  held_some : ∀ {t k}, .get k ∈ P.prog t → .get k ∉ (A t).todo → (A t).held k ≠ none
  lt_fresh : ∀ {k h}, P.Holds A k h → h < T.fresh
  agree : ∀ {k h h'}, P.Holds A k h → P.Holds A k h' → h = h'
  inj : ∀ {k k' h}, P.Holds A k h → P.Holds A k' h → k = k'
  entry : ∀ {k h}, T.entry k = some h ↔ P.Holds A k h ∧ ¬P.Removed A k
  permit : ∀ {k h}, P.Holds A k h → (T.permit h = true ↔ P.Notified A k ∧ ¬P.Woken A k)
  notified_of_woken : ∀ {k}, P.Woken A k → P.Notified A k

variable {P A} {T T' : Table K} {t : Θ} {a : Action K} {rest : List (Action K)}
  {held' : K → Option ℕ}

/-- Nobody has started. -/
theorem Inv.init (h : ∀ t, A t = ⟨fun _ => none, P.prog t⟩) : P.Inv A Table.empty where
  suffix t := by simp [h]
  held_none := by simp [h]
  held_some := by intro t k hk hk'; simp [h, hk] at hk'
  lt_fresh := by rintro k x ⟨t, -, ht⟩; simp [h] at ht
  agree := by rintro k x y ⟨t, -, ht⟩; simp [h] at ht
  inj := by rintro k k' x ⟨t, -, ht⟩; simp [h] at ht
  entry := by
    intro k x
    refine ⟨fun hx => by simp [Table.empty] at hx, ?_⟩
    rintro ⟨⟨t, -, ht⟩, -⟩
    simp [h] at ht
  permit := by rintro k x ⟨t, -, ht⟩; simp [h] at ht
  notified_of_woken := by
    rintro k ⟨t, ht, hw⟩
    simp [h, (P.consumer_prog ht).2.1] at hw

namespace Inv

variable (hI : P.Inv A T)
include hI

/-- A thread is past a key's deletion only after its wait. -/
theorem woken_of_removed {k : K} (h : P.Removed A k) : P.Woken A k := by
  obtain ⟨t, ht, hr⟩ := h
  exact ⟨t, ht, Program.done_of_done (P.ordered t) (hI.suffix t) (P.consumer_prog ht).2.2 hr
    (by simp)⟩

/-- The producer holds its handle once it has notified. -/
theorem holds_of_notified {k : K} (h : P.Notified A k) : ∃ x, P.Holds A k x := by
  obtain ⟨t, ht, hn⟩ := h
  have hg := Program.done_of_done (a := .get k) (P.ordered t) (hI.suffix t)
    (P.producer_prog ht).2 hn (by simp)
  obtain ⟨x, hx⟩ := Option.ne_none_iff_exists'.mp (hI.held_some (P.producer_prog ht).1 hg)
  exact ⟨x, t, Or.inl ht, hx⟩

/-- A party that has not asked for its handle yet meets a key that is still there. -/
theorem not_removed_of_get_mem {k : K} (hp : P.Party t k) (hg : .get k ∈ (A t).todo) :
    ¬P.Removed A k := by
  intro hr
  rcases hp with hp | hp
  · obtain ⟨t', ht', hn⟩ := hI.notified_of_woken (hI.woken_of_removed hr)
    obtain rfl : t' = t := Option.some.inj (ht'.symm.trans hp)
    exact Program.done_of_done (P.ordered t') (hI.suffix t') (P.producer_prog hp).2 hn
      (by simp) hg
  · obtain ⟨t', ht', hn⟩ := hr
    obtain rfl : t' = t := Option.some.inj (ht'.symm.trans hp)
    exact Program.done_of_done (P.ordered t') (hI.suffix t') (P.consumer_prog hp).2.2 hn
      (by simp) hg

/-- A thread at a later action than its `get` holds the handle. -/
theorem held_of_head {k : K} (ht : (A t).todo = a :: rest) (hg : .get k ∈ P.prog t)
    (ha : 0 < a.rank) : ∃ h, (A t).held k = some h := by
  refine Option.ne_none_iff_exists'.mp (hI.held_some hg fun hm => ?_)
  have : a.rank ≤ (Action.get k).rank :=
    Program.Ordered.head_le (ht ▸ (P.ordered t).suffix (hI.suffix t)) (ht ▸ hm)
  exact absurd (Nat.lt_of_lt_of_le ha this) (Nat.lt_irrefl 0)

/-- A notified consumer at its wait is not blocked. -/
theorem wait_enabled {k : K} (ht : (A t).todo = .wait k :: rest) (hn : P.Notified A k) :
    ((Action.wait k).perform T (A t).held).isSome := by
  have hw : .wait k ∈ P.prog t := Program.mem_of_cons_suffix (ht ▸ hI.suffix t)
  have hc := P.wait_role hw
  obtain ⟨h, hh⟩ := hI.held_of_head ht (P.consumer_prog hc).1 (by simp)
  have hp := (hI.permit ⟨t, Or.inr hc, hh⟩).mpr ⟨hn, ?_⟩
  · simp [Action.perform, hh, hp]
  · rintro ⟨t', ht', hm⟩
    obtain rfl : t' = t := Option.some.inj (ht'.symm.trans hc)
    exact hm (by simp [ht])

/-- Every action but a wait is enabled. -/
theorem enabled_of_not_wait (ht : (A t).todo = a :: rest) (ha : ∀ k, a ≠ .wait k) :
    (a.perform T (A t).held).isSome := by
  have hm : a ∈ P.prog t := Program.mem_of_cons_suffix (ht ▸ hI.suffix t)
  cases a with
  | get k => simp only [Action.perform]; split <;> rfl
  | wait k => exact absurd rfl (ha k)
  | remove k => rfl
  | notify k =>
    obtain ⟨h, hh⟩ := hI.held_of_head ht (P.producer_prog (P.notify_role hm)).1
      (by simp)
    simp [Action.perform, hh]

end Inv

/-! ## One step

`t` takes its next action `a` and keeps the actions `rest` and the handles `held'`. Of
the four things said about a key, an action changes one. -/

section Step

variable [DecidableEq Θ]

/-- The agents once `t` is left with `held'` and `rest`. -/
def after (A : Θ → Agent K) (t : Θ) (held' : K → Option ℕ) (rest : List (Action K)) :
    Θ → Agent K :=
  update A t ⟨held', rest⟩

theorem mem_todo_after (ht : (A t).todo = a :: rest) {b : Action K} (hb : b ≠ a) (u : Θ) :
    b ∈ (after A t held' rest u).todo ↔ b ∈ (A u).todo := by
  rcases eq_or_ne u t with rfl | hu
  · simp [after, ht, hb]
  · simp [after, hu]

theorem notified_after (ht : (A t).todo = a :: rest) {k : K} (ha : a ≠ .notify k) :
    P.Notified (after A t held' rest) k ↔ P.Notified A k := by
  simp only [Notified, mem_todo_after ht ha.symm]

theorem woken_after (ht : (A t).todo = a :: rest) {k : K} (ha : a ≠ .wait k) :
    P.Woken (after A t held' rest) k ↔ P.Woken A k := by
  simp only [Woken, mem_todo_after ht ha.symm]

theorem removed_after (ht : (A t).todo = a :: rest) {k : K} (ha : a ≠ .remove k) :
    P.Removed (after A t held' rest) k ↔ P.Removed A k := by
  simp only [Removed, mem_todo_after ht ha.symm]

theorem held_after {k : K} (hk : held' k = (A t).held k) (u : Θ) :
    (after A t held' rest u).held k = (A u).held k := by
  rcases eq_or_ne u t with rfl | hu
  · simp [after, hk]
  · simp [after, hu]

theorem holds_after {k : K} (hk : held' k = (A t).held k) {h : ℕ} :
    P.Holds (after A t held' rest) k h ↔ P.Holds A k h := by
  simp only [Holds, held_after hk]

/-- The next action, once taken, is not left. -/
theorem Inv.notMem_after (hI : P.Inv A T) (ht : (A t).todo = a :: rest) :
    a ∉ (after A t held' rest t).todo := by
  simpa [after] using Program.notMem_of_cons_suffix (P.nodup t) (ht ▸ hI.suffix t)

theorem Inv.suffix_after (hI : P.Inv A T) (ht : (A t).todo = a :: rest) (u : Θ) :
    (after A t held' rest u).todo <:+ P.prog u := by
  rcases eq_or_ne u t with rfl | hu
  · simpa [after] using Program.suffix_of_cons (ht ▸ hI.suffix u)
  · simpa [after, hu] using hI.suffix u

/-- An action that leaves the handles as they are keeps what is said of them. -/
theorem Inv.held_after_iff (hI : P.Inv A T) (ht : (A t).todo = a :: rest)
    (hg : ∀ k, a ≠ .get k) (u : Θ) (k : K) :
    (.get k ∈ (after A t (A t).held rest u).todo →
      (after A t (A t).held rest u).held k = none) ∧
    (.get k ∈ P.prog u → .get k ∉ (after A t (A t).held rest u).todo →
      (after A t (A t).held rest u).held k ≠ none) := by
  rw [mem_todo_after ht (hg k).symm, held_after rfl]
  exact ⟨hI.held_none, hI.held_some⟩

/-- What an action that leaves the handles as they are has to keep. -/
theorem Inv.after_of_held (hI : P.Inv A T) (ht : (A t).todo = a :: rest)
    (hg : ∀ k, a ≠ .get k) (hfresh : T'.fresh = T.fresh)
    (hentry : ∀ {k h}, T'.entry k = some h ↔
      P.Holds A k h ∧ ¬P.Removed (after A t (A t).held rest) k)
    (hpermit : ∀ {k h}, P.Holds A k h → (T'.permit h = true ↔
      P.Notified (after A t (A t).held rest) k ∧ ¬P.Woken (after A t (A t).held rest) k))
    (hwoken : ∀ {k}, P.Woken (after A t (A t).held rest) k →
      P.Notified (after A t (A t).held rest) k) :
    P.Inv (after A t (A t).held rest) T' where
  suffix := hI.suffix_after ht
  held_none := (hI.held_after_iff ht hg _ _).1
  held_some := (hI.held_after_iff ht hg _ _).2
  lt_fresh hx := hfresh ▸ hI.lt_fresh ((holds_after rfl).mp hx)
  agree hx hy := hI.agree ((holds_after rfl).mp hx) ((holds_after rfl).mp hy)
  inj hx hy := hI.inj ((holds_after rfl).mp hx) ((holds_after rfl).mp hy)
  entry := by
    intro k h
    rw [holds_after rfl]
    exact hentry
  permit hx := hpermit ((holds_after rfl).mp hx)
  notified_of_woken := hwoken

/-! ### Getting a handle -/

/-- What a `get` of `k` leaves in the table `T'` : the handle `h`, which no other key shares
and every party of `k` that holds one holds. -/
structure Got (P : Protocol K Θ) (A : Θ → Agent K) (T T' : Table K) (k : K) (h : ℕ) : Prop where
  only : ∀ {h'}, P.Holds A k h' → h' = h
  unshared : ∀ {k'}, P.Holds A k' h → k' = k
  lt_fresh : h < T'.fresh
  fresh_le : T.fresh ≤ T'.fresh
  entry : T'.entry k = some h
  entry_ne : ∀ {k'}, k' ≠ k → T'.entry k' = T.entry k'
  permit : T'.permit h = true ↔ P.Notified A k ∧ ¬P.Woken A k
  permit_ne : ∀ {k' x}, k' ≠ k → P.Holds A k' x → T'.permit x = T.permit x

/-- The handle is found in the table, or it is a fresh one and no party holds any. -/
theorem Inv.got (hI : P.Inv A T) {k : K} {held : K → Option ℕ} (hrem : ¬P.Removed A k)
    (hs : (Action.get k).perform T held = some (T', held')) :
    ∃ h, held' = update held k (some h) ∧ Got P A T T' k h := by
  simp only [Action.perform] at hs
  split at hs
  · rename_i h he
    obtain ⟨rfl, rfl⟩ := Prod.mk.inj (Option.some.inj hs)
    have hown := (hI.entry.mp he).1
    exact ⟨h, rfl, fun hx => hI.agree hx hown, fun hx => hI.inj hx hown, hI.lt_fresh hown,
      Nat.le_refl _, he, fun _ => rfl, hI.permit hown, fun _ _ => rfl⟩
  · rename_i he
    obtain ⟨rfl, rfl⟩ := Prod.mk.inj (Option.some.inj hs)
    have hno : ∀ h', ¬P.Holds A k h' := fun h' hh' => by
      simpa [he] using hI.entry.mpr ⟨hh', hrem⟩
    have hnot : ¬P.Notified A k := fun hn => (hI.holds_of_notified hn).elim hno
    refine ⟨T.fresh, rfl, fun hx => absurd hx (hno _), fun hx => ?_, Nat.lt_succ_self _,
      Nat.le_succ _, by simp, fun hne => by simp [hne], by simp [hnot], fun _ hx => ?_⟩
    · exact absurd (hI.lt_fresh hx) (Nat.lt_irrefl _)
    · simp [Nat.ne_of_lt (hI.lt_fresh hx)]

theorem Got.holds_after_iff {k : K} {h h' : ℕ} (hG : Got P A T T' k h) (hparty : P.Party t k) :
    P.Holds (after A t (update (A t).held k (some h)) rest) k h' ↔ h' = h := by
  constructor
  · rintro ⟨u, hu, hh⟩
    rcases eq_or_ne u t with rfl | hut
    · simpa [after, eq_comm] using hh
    · exact hG.only ⟨u, hu, by simpa [after, hut] using hh⟩
  · rintro rfl
    exact ⟨t, hparty, by simp [after]⟩

theorem Inv.held_after_get (hI : P.Inv A T) {k : K} (ht : (A t).todo = .get k :: rest) (h : ℕ)
    (u : Θ) (k' : K) :
    (.get k' ∈ (after A t (update (A t).held k (some h)) rest u).todo →
      (after A t (update (A t).held k (some h)) rest u).held k' = none) ∧
    (.get k' ∈ P.prog u → .get k' ∉ (after A t (update (A t).held k (some h)) rest u).todo →
      (after A t (update (A t).held k (some h)) rest u).held k' ≠ none) := by
  rcases eq_or_ne k' k with rfl | hne
  · rcases eq_or_ne u t with rfl | hu
    · exact ⟨fun hg => absurd hg (hI.notMem_after ht), fun _ _ => by simp [after]⟩
    · simp only [after, update_of_ne hu]
      exact ⟨hI.held_none, hI.held_some⟩
  · rw [mem_todo_after ht (by simpa using hne), held_after (by simp [hne])]
    exact ⟨hI.held_none, hI.held_some⟩

theorem Inv.step_get (hI : P.Inv A T) {k : K} (ht : (A t).todo = .get k :: rest)
    (hs : (Action.get k).perform T (A t).held = some (T', held')) :
    P.Inv (after A t held' rest) T' := by
  have hmem : .get k ∈ (A t).todo := by simp [ht]
  have hparty : P.Party t k := P.get_role ((hI.suffix t).subset hmem)
  have hrem := hI.not_removed_of_get_mem hparty hmem
  obtain ⟨h, rfl, hG⟩ := hI.got hrem hs
  have hself : ∀ {h'}, P.Holds (after A t (update (A t).held k (some h)) rest) k h' ↔ h' = h :=
    hG.holds_after_iff hparty
  have hother : ∀ {k' h'}, k' ≠ k →
      (P.Holds (after A t (update (A t).held k (some h)) rest) k' h' ↔ P.Holds A k' h') :=
    fun hne => holds_after (by simp [hne])
  refine ⟨hI.suffix_after ht, fun {u k'} => (hI.held_after_get ht h u k').1,
    fun {u k'} => (hI.held_after_get ht h u k').2, fun {k' x} hx => ?_, fun {k' x y} hx hy => ?_,
    fun {k₁ k₂ x} h₁ h₂ => ?_, fun {k' x} => ?_, fun {k' x} hx => ?_, fun {k'} hw => ?_⟩
  · rcases eq_or_ne k' k with rfl | hk'
    · exact hself.mp hx ▸ hG.lt_fresh
    · exact Nat.lt_of_lt_of_le (hI.lt_fresh ((hother hk').mp hx)) hG.fresh_le
  · rcases eq_or_ne k' k with rfl | hk'
    · rw [hself.mp hx, hself.mp hy]
    · exact hI.agree ((hother hk').mp hx) ((hother hk').mp hy)
  · rcases eq_or_ne k₁ k with rfl | hk₁
    · obtain rfl := hself.mp h₁
      rcases eq_or_ne k₂ k₁ with rfl | hk₂
      · rfl
      · exact (hG.unshared ((hother hk₂).mp h₂)).symm
    · rcases eq_or_ne k₂ k with rfl | hk₂
      · obtain rfl := hself.mp h₂
        exact hG.unshared ((hother hk₁).mp h₁)
      · exact hI.inj ((hother hk₁).mp h₁) ((hother hk₂).mp h₂)
  · rw [removed_after ht (by simp)]
    rcases eq_or_ne k' k with rfl | hk'
    · simp [hself, hG.entry, hrem, eq_comm]
    · rw [hother hk', ← hI.entry, hG.entry_ne hk']
  · rw [notified_after ht (by simp), woken_after ht (by simp)]
    rcases eq_or_ne k' k with rfl | hk'
    · exact hself.mp hx ▸ hG.permit
    · have hx := (hother hk').mp hx
      rw [hG.permit_ne hk' hx]
      exact hI.permit hx
  · rw [notified_after ht (by simp)]
    exact hI.notified_of_woken ((woken_after ht (by simp)).mp hw)

/-! ### Waiting, deleting and notifying -/

theorem Inv.step_wait (hI : P.Inv A T) {k : K} (ht : (A t).todo = .wait k :: rest)
    (hs : (Action.wait k).perform T (A t).held = some (T', held')) :
    P.Inv (after A t held' rest) T' := by
  have hc : P.consumer k = some t :=
    P.wait_role ((hI.suffix t).subset (by simp [ht]))
  obtain ⟨h, hh, hs⟩ := Option.bind_eq_some_iff.mp hs
  obtain ⟨hp, hs⟩ := (Option.ite_none_right_eq_some).mp hs
  obtain ⟨rfl, rfl⟩ := Prod.mk.inj (Option.some.inj hs)
  have hown : P.Holds A k h := ⟨t, Or.inr hc, hh⟩
  obtain ⟨hn, -⟩ := (hI.permit hown).mp hp
  refine hI.after_of_held ht (by simp) rfl (fun {k' x} => ?_) (fun {k' x} hx => ?_)
    fun {k'} hw => ?_
  · rw [removed_after ht (by simp)]
    exact hI.entry
  · rw [notified_after ht (by simp)]
    rcases eq_or_ne k' k with rfl | hk'
    · have hw : P.Woken (after A t (A t).held rest) k' := ⟨t, hc, hI.notMem_after ht⟩
      obtain rfl := hI.agree hx hown
      simp [hw]
    · have hne : x ≠ h := fun he => hk' (hI.inj hx (he ▸ hown))
      rw [woken_after ht (by simpa using hk'.symm), ← hI.permit hx]
      simp [hne]
  · rw [notified_after ht (by simp)]
    rcases eq_or_ne k' k with rfl | hk'
    · exact hn
    · exact hI.notified_of_woken ((woken_after ht (by simpa using hk'.symm)).mp hw)

theorem Inv.step_remove (hI : P.Inv A T) {k : K} (ht : (A t).todo = .remove k :: rest)
    (hs : (Action.remove k).perform T (A t).held = some (T', held')) :
    P.Inv (after A t held' rest) T' := by
  have hc : P.consumer k = some t ∨ (P.producer k = none ∧ P.consumer k = none) :=
    P.remove_role ((hI.suffix t).subset (by simp [ht]))
  obtain ⟨rfl, rfl⟩ := Prod.mk.inj (Option.some.inj hs)
  refine hI.after_of_held ht (by simp) rfl (fun {k' x} => ?_) (fun {k' x} hx => ?_)
    fun {k'} hw => ?_
  · rcases eq_or_ne k' k with rfl | hk'
    · have hno : ¬(P.Holds A k' x ∧ ¬P.Removed (after A t (A t).held rest) k') := by
        rintro ⟨⟨u, hu, -⟩, hr⟩
        rcases hc with hc | ⟨hp, hc⟩
        · exact hr ⟨t, hc, hI.notMem_after ht⟩
        · rcases hu with hu | hu
          · simp [hp] at hu
          · simp [hc] at hu
      simpa using hno
    · rw [removed_after ht (by simpa using hk'.symm), ← hI.entry]
      simp [hk']
  · rw [notified_after ht (by simp), woken_after ht (by simp)]
    exact hI.permit hx
  · rw [notified_after ht (by simp)]
    exact hI.notified_of_woken ((woken_after ht (by simp)).mp hw)

theorem Inv.step_notify (hI : P.Inv A T) {k : K} (ht : (A t).todo = .notify k :: rest)
    (hs : (Action.notify k).perform T (A t).held = some (T', held')) :
    P.Inv (after A t held' rest) T' := by
  have hp : P.producer k = some t :=
    P.notify_role ((hI.suffix t).subset (by simp [ht]))
  obtain ⟨h, hh, hs⟩ := Option.map_eq_some_iff.mp hs
  obtain ⟨rfl, rfl⟩ := Prod.mk.inj hs
  have hown : P.Holds A k h := ⟨t, Or.inl hp, hh⟩
  -- the consumer cannot have got past its wait before this notification
  have hnw : ¬P.Woken A k := by
    intro hw
    obtain ⟨t', ht', hn⟩ := hI.notified_of_woken hw
    obtain rfl : t' = t := Option.some.inj (ht'.symm.trans hp)
    exact hn (by simp [ht])
  refine hI.after_of_held ht (by simp) rfl (fun {k' x} => ?_) (fun {k' x} hx => ?_)
    fun {k'} hw => ?_
  · rw [removed_after ht (by simp)]
    exact hI.entry
  · rw [woken_after ht (by simp)]
    rcases eq_or_ne k' k with rfl | hk'
    · have hn : P.Notified (after A t (A t).held rest) k' := ⟨t, hp, hI.notMem_after ht⟩
      obtain rfl := hI.agree hx hown
      simp [hn, hnw]
    · have hne : x ≠ h := fun he => hk' (hI.inj hx (he ▸ hown))
      rw [notified_after ht (by simpa using hk'.symm), ← hI.permit hx]
      simp [hne]
  · have hw := (woken_after ht (by simp)).mp hw
    rcases eq_or_ne k' k with rfl | hk'
    · exact absurd hw hnw
    · exact (notified_after ht (by simpa using hk'.symm)).mpr (hI.notified_of_woken hw)

/-- Every action of every thread keeps the invariant. -/
theorem Inv.step (hI : P.Inv A T) (ht : (A t).todo = a :: rest)
    (hs : a.perform T (A t).held = some (T', held')) : P.Inv (after A t held' rest) T' := by
  cases a with
  | get k => exact hI.step_get ht hs
  | wait k => exact hI.step_wait ht hs
  | remove k => exact hI.step_remove ht hs
  | notify k => exact hI.step_notify ht hs

end Step

end Protocol

end Rendezvous
