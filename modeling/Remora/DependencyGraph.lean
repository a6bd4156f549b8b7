import Remora.StackSearch
import Remora.Types
import Mathlib.Data.List.Induction

/-!
# Dependency graphs

The scheduler looks at a batch of transactions before consensus orders it. A node of the
dependency graph is a position in the batch, and a transaction that accesses a shared object gets
an edge from the last one before it that does. The subgraphs the scheduler places as a whole are
the components of this graph, found by a search that follows edges both ways.

Two transactions conflict if they share a shared object. Edges join conflicting transactions only,
and all accessors of an object are linked by the chain of its accesses (`Links`), so that the
subgraphs are the classes of the batch under chains of conflicts
(`subgraphs_are_conflict_classes`).

The graph type comes from petgraph. All that is used of its iterator over neighbors is that it
returns the other ends of the edges of a node (`Petgraph`).
-/

namespace Remora

open Function Relation

variable {τ : Type}

/-- A graph whose nodes are numbered in the order they are added. -/
structure DiGraph where
  nodes : List TransactionDigest
  edges : List (ℕ × ℕ)
  deriving DecidableEq, Repr

namespace DiGraph

def empty : DiGraph := ⟨[], []⟩

/-- The graph with one more node, and the index of the node. -/
def addNode (g : DiGraph) (weight : TransactionDigest) : DiGraph × ℕ :=
  ({ g with nodes := g.nodes ++ [weight] }, g.nodes.length)

def addEdge (g : DiGraph) (a b : ℕ) : DiGraph :=
  { g with edges := g.edges ++ [(a, b)] }

def nodeIndices (g : DiGraph) : List ℕ :=
  List.range g.nodes.length

/-- The nodes are ends of one edge. -/
def Incident (g : DiGraph) (u v : ℕ) : Prop :=
  (u, v) ∈ g.edges ∨ (v, u) ∈ g.edges

end DiGraph

/-- The iterator `neighbors_undirected` : in some order, and with repetitions or without, it
returns the other ends of the edges of a node. -/
structure Petgraph where
  neighborsUndirected : DiGraph → ℕ → List ℕ
  mem_neighborsUndirected : ∀ g u v, v ∈ neighborsUndirected g u ↔ g.Incident u v

/-- The edges that leave the node, then the edges that enter it, the last ones first. -/
def petgraph : Petgraph where
  neighborsUndirected g u :=
    ((g.edges.filter fun e => e.1 = u).reverse.map Prod.snd) ++
      (g.edges.filter fun e => e.2 = u ∧ e.1 ≠ u).reverse.map Prod.fst
  mem_neighborsUndirected g u v := by
    have hout : (∃ e ∈ g.edges, e.1 = u ∧ e.2 = v) ↔ (u, v) ∈ g.edges := by simp
    have hin : (∃ e ∈ g.edges, (e.2 = u ∧ e.1 ≠ u) ∧ e.1 = v) ↔ (v, u) ∈ g.edges ∧ v ≠ u := by
      simp [and_assoc, and_comm]
    simp only [DiGraph.Incident, List.mem_append, List.mem_map, List.mem_reverse, List.mem_filter,
      decide_eq_true_eq, and_assoc]
    rw [hout]
    simp only [← and_assoc] at hin ⊢
    rw [hin]
    rcases eq_or_ne v u with rfl | hne
    · simp
    · simp [hne]

/-! ## The graph of a batch -/

/-- The variables of the loop over a batch. -/
structure GraphBuilder where
  graph : DiGraph
  digestToNode : TransactionDigest → Option ℕ
  objectToLastAccessor : ObjectID → Option ℕ

/-- The node accesses an object. -/
def accessObject (node : ℕ) (b : GraphBuilder) (o : ObjectID) : GraphBuilder where
  graph :=
    match b.objectToLastAccessor o with
    | some priorNode => b.graph.addEdge priorNode node
    | none => b.graph
  digestToNode := b.digestToNode
  objectToLastAccessor := update b.objectToLastAccessor o (some node)

def addTransaction (b : GraphBuilder) (tx : RemoraTransaction τ) : GraphBuilder :=
  let (graph, node) := b.graph.addNode tx.digest
  tx.sharedObjectIds.foldl (accessObject node)
    { b with graph := graph, digestToNode := update b.digestToNode tx.digest (some node) }

def buildDependencyGraph (transactions : List (RemoraTransaction τ)) :
    DiGraph × (TransactionDigest → Option ℕ) :=
  let b := transactions.foldl addTransaction ⟨.empty, fun _ => none, fun _ => none⟩
  (b.graph, b.digestToNode)

/-- `find_all_subgraphs`, by `StackSearch.components`. -/
def findAllSubgraphs (I : Petgraph) (graph : DiGraph) : Option (List (List ℕ)) :=
  StackSearch.components (I.neighborsUndirected graph) graph.nodeIndices

/-! ## Conflicts -/

/-- The transaction at position `i` accesses the shared object. -/
def AccessesAt (transactions : List (RemoraTransaction τ)) (i : ℕ) (o : ObjectID) : Prop :=
  ∃ tx, transactions[i]? = some tx ∧ o ∈ tx.sharedObjectIds

/-- The transactions at the two positions share a shared object. -/
def Conflict (transactions : List (RemoraTransaction τ)) (i j : ℕ) : Prop :=
  ∃ o, AccessesAt transactions i o ∧ AccessesAt transactions j o

/-- The positions are linked by a chain of transactions, consecutive ones of which conflict. -/
def Linked (transactions : List (RemoraTransaction τ)) : ℕ → ℕ → Prop :=
  ReflTransGen (Conflict transactions)

/-- The graph links the accessors of every object, when `A` tells what was accessed. -/
structure Links (A : ℕ → ObjectID → Prop) (b : GraphBuilder) : Prop where
  conflict : ∀ u v, (u, v) ∈ b.graph.edges → ∃ o, A u o ∧ A v o
  last : ∀ o u, b.objectToLastAccessor o = some u → A u o
  linked : ∀ o u, A u o →
    ∃ v, b.objectToLastAccessor o = some v ∧ ReflTransGen b.graph.Incident u v

namespace Links

variable {A : ℕ → ObjectID → Prop} {b : GraphBuilder} {node : ℕ}

theorem access (h : Links A b) (o : ObjectID) :
    Links (fun u o' => A u o' ∨ u = node ∧ o' = o) (accessObject node b o) := by
  have hmono : ∀ u v, b.graph.Incident u v → (accessObject node b o).graph.Incident u v := by
    intro u v huv
    unfold accessObject
    cases b.objectToLastAccessor o with
    | none => exact huv
    | some prior => exact huv.imp (List.mem_append_left _) (List.mem_append_left _)
  refine ⟨fun u v huv => ?_, fun o' u hu => ?_, fun o' u hu => ?_⟩
  · cases hlast : b.objectToLastAccessor o with
    | none =>
      simp only [accessObject, hlast] at huv
      obtain ⟨o', hu, hv⟩ := h.conflict u v huv
      exact ⟨o', Or.inl hu, Or.inl hv⟩
    | some prior =>
      simp only [accessObject, hlast, DiGraph.addEdge, List.mem_append, List.mem_singleton,
        Prod.mk.injEq] at huv
      rcases huv with huv | ⟨rfl, rfl⟩
      · obtain ⟨o', hu, hv⟩ := h.conflict u v huv
        exact ⟨o', Or.inl hu, Or.inl hv⟩
      · exact ⟨o, Or.inl (h.last o u hlast), Or.inr ⟨rfl, rfl⟩⟩
  · simp only [accessObject, update_apply] at hu
    split_ifs at hu with ho
    · exact Or.inr ⟨(Option.some.inj hu).symm, ho⟩
    · exact Or.inl (h.last o' u hu)
  · rcases eq_or_ne o' o with rfl | ho
    · refine ⟨node, by simp [accessObject], ?_⟩
      rcases hu with hu | ⟨rfl, -⟩
      · -- The last accessor so far gets an edge to this one.
        obtain ⟨prior, hlast, hpath⟩ := h.linked o' u hu
        refine (ReflTransGen.mono hmono _ _ hpath).tail (Or.inl ?_)
        simp [accessObject, hlast, DiGraph.addEdge]
      · exact ReflTransGen.refl
    · obtain ⟨v, hlast, hpath⟩ := h.linked o' u (hu.resolve_right fun h => ho h.2)
      exact ⟨v, by simp [accessObject, ho, hlast], ReflTransGen.mono hmono _ _ hpath⟩

theorem accesses (h : Links A b) (os : List ObjectID) :
    Links (fun u o => A u o ∨ u = node ∧ o ∈ os) (os.foldl (accessObject node) b) := by
  induction os generalizing A b with
  | nil => simpa using h
  | cons o os ih =>
    have haccess : Links _ (accessObject node b o) := h.access o
    simpa only [List.foldl_cons, List.mem_cons, or_assoc, ← and_or_left] using ih haccess

theorem addTransaction (h : Links A b) (tx : RemoraTransaction τ) :
    Links (fun u o => A u o ∨ u = b.graph.nodes.length ∧ o ∈ tx.sharedObjectIds)
      (addTransaction b tx) := by
  have hnode : Links A { b with
      graph := (b.graph.addNode tx.digest).1
      digestToNode := update b.digestToNode tx.digest (some b.graph.nodes.length) } :=
    ⟨h.conflict, h.last, h.linked⟩
  exact hnode.accesses tx.sharedObjectIds

theorem congr {A' : ℕ → ObjectID → Prop} (h : Links A b) (hA : ∀ u o, A' u o ↔ A u o) :
    Links A' b := by
  rwa [show A' = A from funext fun u => funext fun o => propext (hA u o)]

end Links

theorem nodes_accesses (node : ℕ) (os : List ObjectID) (b : GraphBuilder) :
    (os.foldl (accessObject node) b).graph.nodes = b.graph.nodes := by
  induction os generalizing b with
  | nil => rfl
  | cons o os ih =>
    rw [List.foldl_cons, ih]
    unfold accessObject
    cases b.objectToLastAccessor o <;> rfl

theorem accessesAt_append_singleton (l : List (RemoraTransaction τ)) (tx : RemoraTransaction τ)
    (i : ℕ) (o : ObjectID) : AccessesAt (l ++ [tx]) i o ↔
      AccessesAt l i o ∨ i = l.length ∧ o ∈ tx.sharedObjectIds := by
  unfold AccessesAt
  rcases Nat.lt_trichotomy i l.length with hi | rfl | hi
  · simp [List.getElem?_append_left hi, hi.ne]
  · simp
  · have hnone : (l ++ [tx])[i]? = none := List.getElem?_eq_none (by simp; omega)
    simp [hnone, List.getElem?_eq_none (Nat.le_of_lt hi), Nat.ne_of_gt hi]

/-- The graph of a batch has its transactions as nodes, and links what conflicts. -/
theorem links_buildDependencyGraph (transactions : List (RemoraTransaction τ)) :
    ∃ b, buildDependencyGraph transactions = (b.graph, b.digestToNode) ∧
      b.graph.nodes = transactions.map RemoraTransaction.digest ∧
      Links (AccessesAt transactions) b := by
  refine ⟨_, rfl, ?_⟩
  induction transactions using List.reverseRecOn with
  | nil => exact ⟨rfl, by simp [DiGraph.empty], by simp, by simp [AccessesAt]⟩
  | append_singleton l tx ih =>
    obtain ⟨hnodes, hlinks⟩ := ih
    rw [List.foldl_append, List.foldl_cons, List.foldl_nil]
    refine ⟨by simp [addTransaction, nodes_accesses, DiGraph.addNode, hnodes], ?_⟩
    refine (hlinks.addTransaction tx).congr fun i o => ?_
    rw [accessesAt_append_singleton, hnodes, List.length_map]

theorem Conflict.lt_length {transactions : List (RemoraTransaction τ)} {i j : ℕ}
    (h : Conflict transactions i j) : i < transactions.length ∧ j < transactions.length := by
  obtain ⟨o, ⟨tx, hi, -⟩, ⟨tx', hj, -⟩⟩ := h
  exact ⟨(List.getElem?_eq_some_iff.mp hi).1, (List.getElem?_eq_some_iff.mp hj).1⟩

theorem Conflict.symm {transactions : List (RemoraTransaction τ)} {i j : ℕ}
    (h : Conflict transactions i j) : Conflict transactions j i := by
  obtain ⟨o, hi, hj⟩ := h
  exact ⟨o, hj, hi⟩

/-- Paths in the graph are chains of conflicts. -/
theorem reaches_iff_linked (I : Petgraph) (transactions : List (RemoraTransaction τ)) (i j : ℕ) :
    StackSearch.Reaches (I.neighborsUndirected (buildDependencyGraph transactions).1) i j ↔
      Linked transactions i j := by
  obtain ⟨b, hb, -, hlinks⟩ := links_buildDependencyGraph transactions
  simp only [hb, StackSearch.Reaches, I.mem_neighborsUndirected]
  have hsymm : ∀ {u v}, ReflTransGen b.graph.Incident u v → ReflTransGen b.graph.Incident v u := by
    intro u v h
    induction h with
    | refl => exact ReflTransGen.refl
    | tail _ hvw ih => exact ReflTransGen.head hvw.symm ih
  constructor
  · refine ReflTransGen.mono (fun u v huv => ?_) i j
    rcases huv with huv | huv
    · exact hlinks.conflict u v huv
    · exact (hlinks.conflict v u huv).imp fun o h => h.symm
  · intro h
    induction h with
    | refl => exact ReflTransGen.refl
    | tail _ hvw ih =>
      obtain ⟨o, hv, hw⟩ := hvw
      obtain ⟨last, hlast, hpath⟩ := hlinks.linked o _ hv
      obtain ⟨last', hlast', hpath'⟩ := hlinks.linked o _ hw
      obtain rfl := Option.some.inj (hlast.symm.trans hlast')
      exact (ih.trans hpath).trans (hsymm hpath')

/-- The subgraphs of a batch have each position once, and a subgraph is everything linked to any
of its positions. -/
theorem findAllSubgraphs_eq_some (I : Petgraph) (transactions : List (RemoraTransaction τ)) :
    ∃ subgraphs, findAllSubgraphs I (buildDependencyGraph transactions).1 = some subgraphs ∧
      subgraphs.flatten.Perm (List.range transactions.length) ∧
      ∀ c ∈ subgraphs, ∀ i ∈ c, ∀ j, j ∈ c ↔ Linked transactions i j := by
  obtain ⟨b, hb, hnodes, hlinks⟩ := links_buildDependencyGraph transactions
  have hlength : b.graph.nodes.length = transactions.length := by rw [hnodes, List.length_map]
  have hmutual : ∀ u v, v ∈ I.neighborsUndirected b.graph u → u ∈ I.neighborsUndirected b.graph v :=
    fun u v huv => (I.mem_neighborsUndirected _ _ _).mpr
      ((I.mem_neighborsUndirected _ _ _).mp huv).symm
  have hclosed : ∀ u ∈ b.graph.nodeIndices,
      I.neighborsUndirected b.graph u ⊆ b.graph.nodeIndices := by
    intro u _ v huv
    rw [DiGraph.nodeIndices, List.mem_range, hlength]
    rcases (I.mem_neighborsUndirected _ _ _).mp huv with huv | huv
    · exact (Conflict.lt_length (hlinks.conflict u v huv)).2
    · exact (Conflict.lt_length (hlinks.conflict v u huv)).1
  obtain ⟨subgraphs, heq, hperm, hclasses⟩ :=
    StackSearch.components_eq_some hmutual hclosed List.nodup_range
  refine ⟨subgraphs, by rw [hb]; exact heq, by rwa [DiGraph.nodeIndices, hlength] at hperm,
    fun c hc i hi j => ?_⟩
  rw [hclasses c hc i hi j, ← reaches_iff_linked I, hb]

/-- Each position of a batch is in one subgraph, once, and two positions are in the same subgraph
if and only if a chain of conflicts links them. -/
theorem subgraphs_are_conflict_classes (I : Petgraph) (transactions : List (RemoraTransaction τ)) :
    ∃ subgraphs, findAllSubgraphs I (buildDependencyGraph transactions).1 = some subgraphs ∧
      subgraphs.flatten.Perm (List.range transactions.length) ∧
      ∀ i < transactions.length, ∀ j < transactions.length,
        (∃ c ∈ subgraphs, i ∈ c ∧ j ∈ c) ↔ Linked transactions i j := by
  obtain ⟨subgraphs, heq, hperm, hclasses⟩ := findAllSubgraphs_eq_some I transactions
  refine ⟨subgraphs, heq, hperm, fun i hi j _ => ⟨?_, fun h => ?_⟩⟩
  · rintro ⟨c, hc, hic, hjc⟩
    exact (hclasses c hc i hic j).mp hjc
  · have hmem : i ∈ subgraphs.flatten := hperm.mem_iff.mpr (List.mem_range.mpr hi)
    obtain ⟨c, hc, hic⟩ := List.mem_flatten.mp hmem
    exact ⟨c, hc, hic, (hclasses c hc i hic j).mpr h⟩

/-- Four transactions, of which the first and the last are linked through the third. -/
def linkedThrough : List (RemoraTransaction Unit) :=
  [.new () 10 [.sharedMoveObject 1] 0 0, .new () 11 [.sharedMoveObject 3] 0 0,
    .new () 12 [.sharedMoveObject 1, .sharedMoveObject 2] 0 0,
    .new () 13 [.sharedMoveObject 2] 0 0]

theorem subgraphs_are_conflict_classes_linked_through :
    findAllSubgraphs petgraph (buildDependencyGraph linkedThrough).1 = some [[0, 2, 3], [1]] ∧
      Linked linkedThrough 0 3 ∧ ¬ Linked linkedThrough 0 1 := by
  have hsubgraphs : findAllSubgraphs petgraph (buildDependencyGraph linkedThrough).1 =
      some [[0, 2, 3], [1]] := by decide
  obtain ⟨subgraphs, heq, -, hiff⟩ := subgraphs_are_conflict_classes petgraph linkedThrough
  obtain rfl : subgraphs = [[0, 2, 3], [1]] := Option.some.inj (heq.symm.trans hsubgraphs)
  refine ⟨hsubgraphs, (hiff 0 (by decide) 3 (by decide)).mp (by decide), fun h => ?_⟩
  exact absurd ((hiff 0 (by decide) 1 (by decide)).mpr h) (by decide)

end Remora
