import Mathlib.Data.List.Basic
import Mathlib.Order.Nat
import Mathlib.Tactic.Common

/-!
# Straight-line programs

A thread is the list of the actions it still has to take, a suffix of its program. The
actions of a program come in phases, and `Ordered rank` says that no action is followed
by one of an earlier phase. What a thread has done is then read off what it has not :
an action outside the remaining suffix is done, and with it every action of an earlier
phase (`done_of_done`).

A program is put together from its phases with `Staged`, an ordered list whose ranks lie
in an interval. Inside a phase, `Before prog a b` says that `b` is left as long as `a` is.
-/

namespace Program

variable {α : Type*} {rank : α → ℕ} {prog todo : List α} {a b : α}

/-- No action is followed by one of a smaller rank. -/
def Ordered (rank : α → ℕ) (prog : List α) : Prop :=
  prog.Pairwise fun a b => rank a ≤ rank b

theorem Ordered.suffix (h : Ordered rank prog) (hs : todo <:+ prog) : Ordered rank todo :=
  h.sublist hs.sublist

/-- What is left starts at the rank of the next action. -/
theorem Ordered.head_le (h : Ordered rank (a :: todo)) (hb : b ∈ a :: todo) :
    rank a ≤ rank b := by
  rcases List.mem_cons.mp hb with rfl | hb
  · exact Nat.le_refl _
  · exact (List.pairwise_cons.mp h).1 b hb

/-- An action of a later phase is done only after every action of an earlier one. -/
theorem done_of_done (h : Ordered rank prog) (hs : todo <:+ prog) (hb : b ∈ prog)
    (hb' : b ∉ todo) (hab : rank a < rank b) : a ∉ todo := by
  obtain ⟨pre, rfl⟩ := hs
  intro ha
  have hb : b ∈ pre := (List.mem_append.mp hb).resolve_right hb'
  have := (List.pairwise_append.mp h).2.2 b hb a ha
  omega

/-- As long as an action of an earlier phase is left, so is every later one. -/
theorem mem_of_mem (h : Ordered rank prog) (hs : todo <:+ prog) (hb : b ∈ prog)
    (ha : a ∈ todo) (hab : rank a < rank b) : b ∈ todo := by
  by_contra hb'
  exact done_of_done h hs hb hb' hab ha

theorem suffix_of_cons (hs : a :: todo <:+ prog) : todo <:+ prog :=
  (List.suffix_cons a todo).trans hs

theorem mem_of_cons_suffix (hs : a :: todo <:+ prog) : a ∈ prog :=
  hs.subset List.mem_cons_self

/-- The next action is not taken twice. -/
theorem notMem_of_cons_suffix (hn : prog.Nodup) (hs : a :: todo <:+ prog) : a ∉ todo :=
  (List.nodup_cons.mp (hn.sublist hs.sublist)).1

/-! ## Phases -/

/-- Ordered, with ranks from `lo` up to `hi`, exclusive. -/
structure Staged (rank : α → ℕ) (lo hi : ℕ) (prog : List α) : Prop where
  ordered : Ordered rank prog
  le : ∀ a ∈ prog, lo ≤ rank a
  lt : ∀ a ∈ prog, rank a < hi

namespace Staged

variable {lo mid hi r : ℕ} {l₁ l₂ : List α}

theorem of_const (h : ∀ a ∈ prog, rank a = r) : Staged rank r (r + 1) prog where
  ordered := List.pairwise_of_forall_mem_list fun a ha b hb => by rw [h a ha, h b hb]
  le a ha := (h a ha).ge
  lt a ha := by rw [h a ha]; exact Nat.lt_succ_self r

theorem map {β : Type*} (f : β → α) (l : List β) (h : ∀ b, rank (f b) = r) :
    Staged rank r (r + 1) (l.map f) :=
  of_const fun a ha => by
    obtain ⟨b, -, rfl⟩ := List.mem_map.mp ha
    exact h b

theorem singleton (a : α) : Staged rank (rank a) (rank a + 1) [a] :=
  of_const fun b hb => by rw [List.mem_singleton.mp hb]

theorem nil : Staged rank lo hi ([] : List α) :=
  ⟨List.Pairwise.nil, by simp, by simp⟩

theorem weaken {lo' hi' : ℕ} (h : Staged rank lo hi prog) (hlo : lo' ≤ lo) (hhi : hi ≤ hi') :
    Staged rank lo' hi' prog :=
  ⟨h.ordered, fun a ha => hlo.trans (h.le a ha), fun a ha => (h.lt a ha).trans_le hhi⟩

theorem append (h₁ : Staged rank lo mid l₁) (h₂ : Staged rank mid hi l₂) (hlo : lo ≤ mid)
    (hhi : mid ≤ hi) : Staged rank lo hi (l₁ ++ l₂) where
  ordered := List.pairwise_append.mpr ⟨h₁.ordered, h₂.ordered, fun a ha b hb =>
    (h₁.lt a ha).le.trans (h₂.le b hb)⟩
  le a ha := (List.mem_append.mp ha).elim (h₁.le a) fun h => hlo.trans (h₂.le a h)
  lt a ha := (List.mem_append.mp ha).elim (fun h => (h₁.lt a h).trans_le hhi) (h₂.lt a)

/-- A phase has nothing that is found at other ranks only. -/
theorem filterMap_eq_nil {β : Type*} {f : α → Option β} (h : Staged rank lo hi prog)
    (hf : ∀ a, lo ≤ rank a → rank a < hi → f a = none) : prog.filterMap f = [] :=
  List.filterMap_eq_nil_iff.mpr fun a ha => hf a (h.le a ha) (h.lt a ha)

/-- Phases without repetition make a program without repetition. -/
theorem nodup_append (h₁ : Staged rank lo mid l₁) (h₂ : Staged rank mid hi l₂)
    (hn₁ : l₁.Nodup) (hn₂ : l₂.Nodup) : (l₁ ++ l₂).Nodup := by
  refine List.nodup_append.mpr ⟨hn₁, hn₂, ?_⟩
  rintro a ha b hb rfl
  exact absurd ((h₁.lt a ha).trans_le (h₂.le a hb)) (Nat.lt_irrefl _)

end Staged

/-! ## Inside a phase -/

/-- A suffix of two parts starts in the second part, or in the first one. -/
theorem suffix_append_cases {l₁ l₂ : List α} (h : todo <:+ l₁ ++ l₂) :
    todo <:+ l₂ ∨ ∃ todo', todo = todo' ++ l₂ ∧ todo' <:+ l₁ := by
  obtain ⟨pre, h⟩ := h
  rcases List.append_eq_append_iff.mp h with ⟨r, rfl, rfl⟩ | ⟨r, rfl, rfl⟩
  · exact Or.inr ⟨r, rfl, List.suffix_append _ _⟩
  · exact Or.inl (List.suffix_append _ _)

/-- As long as `a` is left, so is `b`. -/
def Before (prog : List α) (a b : α) : Prop :=
  ∀ todo, todo <:+ prog → a ∈ todo → b ∈ todo

namespace Before

variable {l₁ l₂ : List α}

theorem append_left (h : Before l₁ a b) (ha : a ∉ l₂) : Before (l₁ ++ l₂) a b := by
  intro todo hs hm
  rcases suffix_append_cases hs with hs | ⟨todo', rfl, hs'⟩
  · exact absurd (hs.subset hm) ha
  · exact List.mem_append_left _ (h todo' hs' ((List.mem_append.mp hm).resolve_right ha))

theorem append_right (h : Before l₂ a b) (ha : a ∉ l₁) : Before (l₁ ++ l₂) a b := by
  intro todo hs hm
  rcases suffix_append_cases hs with hs | ⟨todo', rfl, hs'⟩
  · exact h todo hs hm
  · have hm : a ∈ l₂ := (List.mem_append.mp hm).resolve_left fun h' => ha (hs'.subset h')
    exact List.mem_append_right _ (h l₂ List.suffix_rfl hm)

/-- A loop whose body for `k` takes `a` before `b`, and takes `a` for no other key. -/
theorem flatMap {κ : Type*} {f : κ → List α} {k : κ} (h : Before (f k) a b)
    (ha : ∀ k', k' ≠ k → a ∉ f k') (ks : List κ) : Before (ks.flatMap f) a b := by
  induction ks with
  | nil =>
    intro todo hs hm
    simp [List.suffix_nil.mp hs] at hm
  | cons k' ks ih =>
    rw [List.flatMap_cons]
    intro todo hs hm
    rcases suffix_append_cases hs with hs | ⟨todo', rfl, hs'⟩
    · exact ih todo hs hm
    · rcases List.mem_append.mp hm with hm | hm
      · obtain rfl : k' = k := by
          by_contra hne
          exact ha k' hne (hs'.subset hm)
        exact List.mem_append_left _ (h todo' hs' hm)
      · exact List.mem_append_right _ (ih _ List.suffix_rfl hm)

end Before

theorem suffix_filterMap {β : Type*} (f : α → Option β) (hs : todo <:+ prog) :
    todo.filterMap f <:+ prog.filterMap f := by
  obtain ⟨pre, rfl⟩ := hs
  rw [List.filterMap_append]
  exact List.suffix_append _ _

end Program
