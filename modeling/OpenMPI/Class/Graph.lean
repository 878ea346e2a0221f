import Mathlib.Data.Int.Notation
import Mathlib.Data.List.Basic

/-!
# Graphs

`opal_graph_t` has an adjacency list for each of its vertices, with the edges that start there.  A
vertex and an edge are objects, which are the same if their addresses are.  A function has no result
where it reads what a null pointer points to, or takes an object out of a list it is not in or puts
one into a second list.
-/

namespace OpenMPI.Class

structure GraphEdge (V : Type) where
  address : ℕ
  start : V
  endVertex : V
  deriving DecidableEq, Repr

structure AdjacencyList (V : Type) where
  vertex : V
  edges : List (GraphEdge V) := []
  deriving DecidableEq, Repr

def AdjacencyList.ofVertex {V : Type} (vertex : V) : AdjacencyList V := { vertex }

structure Graph (V : Type) where
  adjacencyList : List (AdjacencyList V) := []
  numberOfVertices : ℤ := 0
  numberOfEdges : ℤ := 0
  deriving DecidableEq, Repr

namespace Graph

variable {V : Type} [DecidableEq V]

def hasVertex (g : Graph V) (vertex : V) : Bool := g.adjacencyList.any fun l => l.vertex = vertex

def edges (g : Graph V) : List (GraphEdge V) := g.adjacencyList.flatMap AdjacencyList.edges

def hasEdge (g : Graph V) (edge : GraphEdge V) : Bool :=
  g.edges.any fun e => e.address = edge.address

def addVertex (g : Graph V) (vertex : V) : Graph V :=
  if g.hasVertex vertex then g
  else
    { g with
      adjacencyList := g.adjacencyList ++ [.ofVertex vertex]
      numberOfVertices := g.numberOfVertices + 1 }

def addEdge (g : Graph V) (edge : GraphEdge V) : Option (Bool × Graph V) :=
  let startFound := g.hasVertex edge.start
  let endFound := g.hasVertex edge.endVertex
  if startFound = false ∧ endFound = false then some (false, g)
  -- `start_aj_list` is null
  else if startFound = false then none
  else if g.hasEdge edge then none
  else
    some (true, { g with
      adjacencyList := g.adjacencyList.map fun l =>
        if l.vertex = edge.start then { l with edges := l.edges ++ [edge] } else l
      numberOfEdges := g.numberOfEdges + 1 })

def removeEdge (g : Graph V) (edge : GraphEdge V) : Option (Graph V) :=
  if g.hasEdge edge then
    some { g with
      adjacencyList := g.adjacencyList.map fun l =>
        { l with edges := l.edges.filter fun e => e.address ≠ edge.address }
      numberOfEdges := g.numberOfEdges - 1 }
  else none

def deleteAllEdgesConcededToVertex (g : Graph V) (vertex : V) : Graph V :=
  { g with
    adjacencyList := g.adjacencyList.map fun l =>
      { l with edges := l.edges.filter fun e => e.endVertex ≠ vertex } }

def removeVertex (g : Graph V) (vertex : V) : Option (Graph V) :=
  if g.hasVertex vertex then
    let g := { g with adjacencyList := g.adjacencyList.filter fun l => l.vertex ≠ vertex }
    let g := g.deleteAllEdgesConcededToVertex vertex
    some { g with numberOfVertices := g.numberOfVertices - 1 }
  else none

inductive Call (V : Type)
  | addVertex (vertex : V)
  | addEdge (edge : GraphEdge V)
  | removeEdge (edge : GraphEdge V)
  | removeVertex (vertex : V)
  deriving DecidableEq, Repr

/-- What a call returns, `OPAL_ERROR` being false, and the graph after it. -/
def call (g : Graph V) : Call V → Option (Bool × Graph V)
  | .addVertex vertex => some (true, g.addVertex vertex)
  | .addEdge edge => g.addEdge edge
  | .removeEdge edge => (g.removeEdge edge).map (true, ·)
  | .removeVertex vertex => (g.removeVertex vertex).map (true, ·)

def run (calls : List (Call V)) : Option (Graph V) :=
  calls.foldlM (fun g c => (g.call c).map Prod.snd) {}

end Graph

end OpenMPI.Class

/-!
## Distances in graphs

`opal_graph_adjacent`, `opal_graph_dijkstra` and `opal_graph_spf`.  The weights of the edges are a parameter, and so is what `qsort` does
with items that compare as equal.
-/

namespace OpenMPI.Class

def distanceInfinity : UInt32 := 0x7fffffff

structure VertexDistance (V : Type) where
  vertex : V
  weight : UInt32
  deriving DecidableEq, Repr

structure Qsort (V : Type) where
  sort : List (VertexDistance V) → List (VertexDistance V)
  perm : ∀ l, (sort l).Perm l
  sorted : ∀ l, (sort l).Pairwise fun p q => p.weight ≤ q.weight

namespace Graph

variable {V : Type} [DecidableEq V] (weight : GraphEdge V → UInt32) (qsort : Qsort V) (g : Graph V)

def edgesFrom (vertex : V) : List (GraphEdge V) :=
  ((g.adjacencyList.find? fun l => l.vertex = vertex).map AdjacencyList.edges).getD []

def adjacent (vertex1 vertex2 : V) : UInt32 :=
  if g.hasVertex vertex1 = false then distanceInfinity
  else if g.hasVertex vertex2 = false then distanceInfinity
  else if vertex1 = vertex2 then 0
  else
    match (g.edgesFrom vertex1).find? fun edge => edge.endVertex = vertex2 with
    | some edge => weight edge
    | none => distanceInfinity

/-- The distance of an item in the queue, looked at from the first one. -/
def relax (current item : VertexDistance V) : VertexDistance V :=
  let weight := g.adjacent weight current.vertex item.vertex
  if current.weight + weight < item.weight then { item with weight := weight + current.weight } else item

/-- The loop over the queue, which has so many items: all items in the order they leave it. -/
def dijkstraLoop : ℕ → List (VertexDistance V) → List (VertexDistance V)
  | 0, queue => queue
  | _, [] => []
  | n + 1, current :: queue => current :: dijkstraLoop n (qsort.sort (queue.map (g.relax weight current)))

def settled (vertex : V) : List (VertexDistance V) :=
  let queue := g.adjacencyList.map fun l => ⟨l.vertex, if l.vertex = vertex then 0 else distanceInfinity⟩
  g.dijkstraLoop weight qsort queue.length (qsort.sort queue)

/-- `opal_graph_dijkstra`: what is appended to `distance_array`, and what is returned. -/
def dijkstra (vertex : V) : List (VertexDistance V) × ℤ :=
  if g.hasVertex vertex = false then ([], 0)
  else (((g.settled weight qsort vertex).drop 1).take (g.numberOfVertices - 1).toNat, g.numberOfVertices - 1)

def spf (vertex1 vertex2 : V) : UInt32 :=
  if g.hasVertex vertex1 = false then distanceInfinity
  else if g.hasVertex vertex2 = false then distanceInfinity
  else
    let (distanceArray, items) := g.dijkstra weight qsort vertex1
    match (distanceArray.take items.toNat).find? fun item => item.vertex = vertex2 with
    | some item => item.weight
    | none => distanceInfinity

end Graph

end OpenMPI.Class
