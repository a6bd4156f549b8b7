import Mathlib.Data.List.Nodup
import Mathlib.Data.List.Perm.Basic
import Mathlib.Logic.Relation
import Mathlib.Tactic.Common

/-!
# Search with a stack

The components of a graph by an explicit stack and a set of visited nodes. A node is marked when
it is pushed, so that it is pushed once, and it belongs to the component when it is popped. A node
that is not marked after the components before it starts the next one.

The graph is any function from nodes to neighbors. If neighbors are mutual and stay among the
nodes, as many pops as there are nodes are enough, the components make up the nodes, each node
once, and a component is everything that can be reached from any of its nodes
(`components_eq_some`).
-/

namespace StackSearch

open Relation

variable {α : Type*} [DecidableEq α]

/-- The nodes marked, and those of them that wait on the stack. -/
structure Frontier (α : Type*) where
  visited : List α
  stack : List α

/-- A node that is not marked yet is marked and pushed. -/
def push (F : Frontier α) (v : α) : Frontier α :=
  if v ∈ F.visited then F else ⟨v :: F.visited, v :: F.stack⟩

/-- The search from the nodes on the stack. `none` : more than `fuel` nodes are popped. -/
def search (neighbors : α → List α) : ℕ → Frontier α → List α → Option (List α × List α)
  | _, ⟨visited, []⟩, component => some (visited, component)
  | 0, ⟨_, _ :: _⟩, _ => none
  | fuel + 1, ⟨visited, v :: stack⟩, component =>
    search neighbors fuel ((neighbors v).foldl push ⟨visited, stack⟩) (component ++ [v])

/-- The components of the nodes that are left, after those found before. -/
def componentsFrom (neighbors : α → List α) (fuel : ℕ) :
    List α → List α → List (List α) → Option (List (List α))
  | [], _, components => some components
  | v :: nodes, visited, components =>
    if v ∈ visited then componentsFrom neighbors fuel nodes visited components
    else (search neighbors fuel ⟨v :: visited, [v]⟩ []).bind fun (visited, component) =>
      componentsFrom neighbors fuel nodes visited (components ++ [component])

/-- The components of a graph with these nodes. -/
def components (neighbors : α → List α) (nodes : List α) : Option (List (List α)) :=
  componentsFrom neighbors nodes.length nodes [] []

/-- `v` is reached from `u`. -/
abbrev Reaches (neighbors : α → List α) : α → α → Prop :=
  ReflTransGen fun u v => v ∈ neighbors u

/-! ## Pushing -/

section Push

variable {F : Frontier α} {l : List α} {u : α}

/-- New marks are on the stack. -/
theorem exists_foldl_push (l : List α) (F : Frontier α) :
    ∃ new, (l.foldl push F).visited = new ++ F.visited ∧
      (l.foldl push F).stack = new ++ F.stack ∧ ∀ u ∈ new, u ∈ l := by
  induction l generalizing F with
  | nil => exact ⟨[], rfl, rfl, by simp⟩
  | cons v l ih =>
    obtain ⟨new, hvisited, hstack, hnew⟩ := ih (push F v)
    rw [List.foldl_cons, hvisited, hstack]
    unfold push
    split_ifs with hv
    · exact ⟨new, rfl, rfl, fun u hu => List.mem_cons_of_mem v (hnew u hu)⟩
    · refine ⟨new ++ [v], by simp, by simp, fun u hu => ?_⟩
      rcases List.mem_append.mp hu with hu | hu
      · exact List.mem_cons_of_mem v (hnew u hu)
      · exact List.mem_cons.mpr (Or.inl (List.mem_singleton.mp hu))

theorem nodup_foldl_push (l : List α) (h : F.visited.Nodup) : (l.foldl push F).visited.Nodup := by
  induction l generalizing F with
  | nil => exact h
  | cons v l ih =>
    refine ih ?_
    unfold push
    split_ifs with hv
    · exact h
    · exact List.nodup_cons.mpr ⟨hv, h⟩

theorem subset_foldl_push (l : List α) (F : Frontier α) :
    l ⊆ (l.foldl push F).visited := by
  induction l generalizing F with
  | nil => exact List.nil_subset _
  | cons v l ih =>
    obtain ⟨new, hvisited, -, -⟩ := exists_foldl_push l (push F v)
    refine List.cons_subset.mpr ⟨?_, ih _⟩
    rw [List.foldl_cons, hvisited]
    refine List.mem_append_right new ?_
    unfold push
    split_ifs with hv
    · exact hv
    · exact List.mem_cons_self

end Push

/-! ## One component -/

variable {neighbors : α → List α} {nodes : List α}

/-- The search from the node `r`, when the nodes `found` were marked before. -/
structure Searching (neighbors : α → List α) (nodes found : List α) (r : α) (F : Frontier α)
    (component : List α) : Prop where
  visited : F.visited.Perm (F.stack ++ component ++ found)
  nodup : F.visited.Nodup
  subset : F.visited ⊆ nodes
  root : r ∈ F.stack ++ component
  reached : ∀ u ∈ F.stack ++ component, Reaches neighbors r u
  expanded : ∀ u ∈ component, neighbors u ⊆ F.visited

section Search

variable {found component : List α} {r : α} {F : Frontier α}

/-- One pop. -/
theorem Searching.pop {v : α} {visited stack : List α}
    (hclosed : ∀ u ∈ nodes, neighbors u ⊆ nodes)
    (h : Searching neighbors nodes found r ⟨visited, v :: stack⟩ component) :
    Searching neighbors nodes found r ((neighbors v).foldl push ⟨visited, stack⟩)
      (component ++ [v]) := by
  obtain ⟨new, hvisited, hstack, hnew⟩ := exists_foldl_push (neighbors v) ⟨visited, stack⟩
  have hv : v ∈ visited := h.visited.mem_iff.mpr (by simp)
  refine ⟨?_, nodup_foldl_push _ h.nodup, ?_, ?_, ?_, ?_⟩
  · rw [hvisited, hstack]
    refine (h.visited.append_left new).trans (List.perm_iff_count.mpr fun u => ?_)
    simp only [List.cons_append, List.count_append, List.count_cons, List.count_nil]
    omega
  · rw [hvisited]
    exact List.append_subset.mpr ⟨fun u hu => hclosed v (h.subset hv) (hnew u hu), h.subset⟩
  · have := h.root
    rw [hstack]
    simp only [List.mem_append, List.mem_cons, List.not_mem_nil, or_false] at this ⊢
    tauto
  · intro u hu
    have hr : Reaches neighbors r v := h.reached v (by simp)
    rw [hstack] at hu
    simp only [List.mem_append, List.mem_cons, List.not_mem_nil, or_false] at hu
    rcases hu with (hu | hu) | hu | rfl
    · exact hr.tail (hnew u hu)
    · exact h.reached u (by simp [hu])
    · exact h.reached u (by simp [hu])
    · exact hr
  · intro u hu
    rcases List.mem_append.mp hu with hu | hu
    · rw [hvisited]
      exact List.Subset.trans (h.expanded u hu) (List.subset_append_right new visited)
    · rw [List.mem_singleton.mp hu]
      exact subset_foldl_push _ _

/-- With enough fuel the stack is worked off. -/
theorem search_eq_some (hclosed : ∀ u ∈ nodes, neighbors u ⊆ nodes) {fuel : ℕ}
    (h : Searching neighbors nodes found r F component)
    (hfuel : nodes.length ≤ fuel + component.length + found.length) :
    ∃ visited component', search neighbors fuel F component = some (visited, component') ∧
      Searching neighbors nodes found r ⟨visited, []⟩ component' := by
  induction fuel generalizing F component with
  | zero =>
    obtain ⟨visited, _ | ⟨v, stack⟩⟩ := F
    · exact ⟨visited, component, rfl, h⟩
    · have hlength := h.visited.length_eq
      have hle : visited.length ≤ nodes.length :=
        (List.subperm_of_subset h.nodup h.subset).length_le
      simp only [List.length_append, List.length_cons] at hlength
      omega
  | succ fuel ih =>
    obtain ⟨visited, _ | ⟨v, stack⟩⟩ := F
    · exact ⟨visited, component, rfl, h⟩
    · refine ih (h.pop hclosed) ?_
      rw [List.length_append, List.length_singleton]
      omega

/-- The component of a node that is not among those found, if these are closed. -/
theorem search_root (hmutual : ∀ u v, v ∈ neighbors u → u ∈ neighbors v)
    (hclosed : ∀ u ∈ nodes, neighbors u ⊆ nodes) (hr : r ∈ nodes) (hfound : found ⊆ nodes)
    (hnodup : (r :: found).Nodup) (hends : ∀ u ∈ found, neighbors u ⊆ found) :
    ∃ visited component, search neighbors nodes.length ⟨r :: found, [r]⟩ [] =
        some (visited, component) ∧ visited.Perm (component ++ found) ∧ visited.Nodup ∧
      visited ⊆ nodes ∧ ∀ u, u ∈ component ↔ Reaches neighbors r u := by
  have hstart : Searching neighbors nodes found r ⟨r :: found, [r]⟩ [] :=
    ⟨by simp, hnodup, List.cons_subset.mpr ⟨hr, hfound⟩, by simp,
      fun u hu => by simp at hu; rw [hu], by simp⟩
  have hfuel : nodes.length ≤ nodes.length + ([] : List α).length + found.length := by omega
  obtain ⟨visited, component, hsearch, h⟩ := search_eq_some hclosed hstart hfuel
  refine ⟨visited, component, hsearch, by simpa using h.visited, h.nodup, h.subset, fun u =>
    ⟨fun hu => h.reached u (by simpa using hu), fun hu => ?_⟩⟩
  have hdisjoint : ∀ u ∈ component, u ∉ found := by
    have := h.visited.nodup_iff.mp h.nodup
    simp only [List.nil_append, List.nodup_append] at this
    exact fun u hu hu' => this.2.2 u hu u hu' rfl
  induction hu with
  | refl => simpa using h.root
  | @tail v w _ hvw hv =>
    -- A neighbor of the component that was found before would have brought it along.
    have hw : w ∈ component ++ found := by
      simpa using h.visited.mem_iff.mp (h.expanded v hv hvw)
    rcases List.mem_append.mp hw with hw | hw
    · exact hw
    · exact absurd (hends w hw (hmutual v w hvw)) (hdisjoint v hv)

end Search

/-! ## All components -/

omit [DecidableEq α] in
theorem Reaches.symm (hmutual : ∀ u v, v ∈ neighbors u → u ∈ neighbors v) {u v : α}
    (h : Reaches neighbors u v) : Reaches neighbors v u := by
  induction h with
  | refl => exact ReflTransGen.refl
  | tail _ hvw ih => exact ReflTransGen.head (hmutual _ _ hvw) ih

/-- What is known of the components found so far. -/
structure Found (neighbors : α → List α) (nodes visited : List α) (components : List (List α)) :
    Prop where
  perm : components.flatten.Perm visited
  nodup : visited.Nodup
  subset : visited ⊆ nodes
  classes : ∀ c ∈ components, ∀ u ∈ c, ∀ v, v ∈ c ↔ Reaches neighbors u v

omit [DecidableEq α] in
theorem Found.ends {visited : List α} {components : List (List α)}
    (h : Found neighbors nodes visited components) {u : α} (hu : u ∈ visited) :
    neighbors u ⊆ visited := by
  intro v hv
  obtain ⟨c, hc, huc⟩ := List.mem_flatten.mp (h.perm.mem_iff.mpr hu)
  exact h.perm.mem_iff.mp (List.mem_flatten.mpr
    ⟨c, hc, (h.classes c hc u huc v).mpr (ReflTransGen.single hv)⟩)

section Components

variable (hmutual : ∀ u v, v ∈ neighbors u → u ∈ neighbors v)
  (hclosed : ∀ u ∈ nodes, neighbors u ⊆ nodes)
include hmutual hclosed

theorem componentsFrom_eq_some {left visited : List α} {found : List (List α)}
    (hleft : left ⊆ nodes) (h : Found neighbors nodes visited found) :
    ∃ visited' found', componentsFrom neighbors nodes.length left visited found = some found' ∧
      Found neighbors nodes visited' found' ∧ visited ⊆ visited' ∧ left ⊆ visited' := by
  induction left generalizing visited found with
  | nil => exact ⟨visited, found, rfl, h, List.Subset.refl _, List.nil_subset _⟩
  | cons r left ih =>
    obtain ⟨hr, hleft⟩ := List.cons_subset.mp hleft
    unfold componentsFrom
    split_ifs with hvisited
    · obtain ⟨visited', found', heq, h', hsub, hsub'⟩ := ih hleft h
      exact ⟨visited', found', heq, h', hsub, List.cons_subset.mpr ⟨hsub hvisited, hsub'⟩⟩
    · obtain ⟨marked, c, hsearch, hperm, hnodup, hsubset, hc⟩ := search_root hmutual hclosed hr
        h.subset (List.nodup_cons.mpr ⟨hvisited, h.nodup⟩) fun u hu => h.ends hu
      have hfound : Found neighbors nodes marked (found ++ [c]) := by
        refine ⟨?_, hnodup, hsubset, fun d hd u hu v => ?_⟩
        · rw [List.flatten_append, List.flatten_singleton]
          exact ((h.perm.append_right c).trans List.perm_append_comm).trans hperm.symm
        · rcases List.mem_append.mp hd with hd | hd
          · exact h.classes d hd u hu v
          · obtain rfl := List.mem_singleton.mp hd
            have hru := (hc u).mp hu
            exact (hc v).trans ⟨fun hrv => (Reaches.symm hmutual hru).trans hrv, hru.trans⟩
      obtain ⟨visited', found', heq, h', hsub, hsub'⟩ := ih hleft hfound
      have hmarked : ∀ u, u ∈ c ∨ u ∈ visited → u ∈ visited' := fun u hu =>
        hsub (hperm.mem_iff.mpr (List.mem_append.mpr hu))
      refine ⟨visited', found', by rw [hsearch]; exact heq, h', fun u hu => hmarked u (Or.inr hu),
        List.cons_subset.mpr ⟨hmarked r (Or.inl ((hc r).mpr ReflTransGen.refl)), hsub'⟩⟩

/-- The components of a graph partition its nodes into what can be reached from each other. -/
theorem components_eq_some (hnodup : nodes.Nodup) :
    ∃ found, components neighbors nodes = some found ∧ found.flatten.Perm nodes ∧
      ∀ c ∈ found, ∀ u ∈ c, ∀ v, v ∈ c ↔ Reaches neighbors u v := by
  have hstart : Found neighbors nodes [] [] :=
    ⟨List.Perm.refl _, List.nodup_nil, List.nil_subset _, by simp⟩
  obtain ⟨visited, found, heq, h, -, hsub⟩ :=
    componentsFrom_eq_some hmutual hclosed (List.Subset.refl nodes) hstart
  refine ⟨found, heq, h.perm.trans ?_, h.classes⟩
  exact (List.perm_ext_iff_of_nodup h.nodup hnodup).mpr fun u =>
    ⟨fun hu => h.subset hu, fun hu => hsub hu⟩

end Components

end StackSearch
