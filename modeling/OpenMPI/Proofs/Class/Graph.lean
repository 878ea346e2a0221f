import Mathlib.Data.List.Flatten
import Mathlib.Data.List.Nodup
import Mathlib.Data.List.Perm.Basic
import OpenMPI.Class.Graph
import OpenMPI.Lib.Run

/-!
# The books of a graph

`number_of_edges` counts the edges stored, whose ends are vertices of the graph, after calls that are
`Careful`: an edge is only added between two vertices or where it has neither, and a vertex is only
removed without edges.
-/

namespace OpenMPI.Class

open List

namespace Graph

variable {V : Type} [DecidableEq V] {g g' : Graph V} {edge : GraphEdge V} {vertex : V}

structure Kept (g : Graph V) : Prop where
  numberOfVertices : g.numberOfVertices = g.adjacencyList.length
  numberOfEdges : g.numberOfEdges = g.edges.length
  ends : ∀ e ∈ g.edges, g.hasVertex e.start ∧ g.hasVertex e.endVertex
  starts : ∀ l ∈ g.adjacencyList, ∀ e ∈ l.edges, e.start = l.vertex
  vertices : (g.adjacencyList.map AdjacencyList.vertex).Nodup
  addresses : (g.edges.map GraphEdge.address).Nodup

def Careful (g : Graph V) : Call V → Prop
  | .addVertex _ => True
  | .addEdge edge =>
    g.hasVertex edge.start = g.hasVertex edge.endVertex ∧
      (g.hasVertex edge.start = true → g.hasEdge edge = false)
  | .removeEdge edge => g.hasEdge edge = true
  | .removeVertex vertex =>
    g.hasVertex vertex = true ∧ ∀ e ∈ g.edges, e.start ≠ vertex ∧ e.endVertex ≠ vertex

/-- The call keeps the books, and adds no edge that is not between two vertices. -/
def Ok (g : Graph V) (c : Call V) : Prop :=
  ∃ r g', g.call c = some (r, g') ∧ Kept g' ∧
    ∀ edge, c = .addEdge edge → ¬(g.hasVertex edge.start ∧ g.hasVertex edge.endVertex) →
      r = false ∧ g' = g

theorem hasVertex_iff : g.hasVertex vertex = true ↔
    vertex ∈ g.adjacencyList.map AdjacencyList.vertex := by
  simp [hasVertex]

omit [DecidableEq V] in
theorem hasEdge_iff : g.hasEdge edge = true ↔ edge.address ∈ g.edges.map GraphEdge.address := by
  simp [hasEdge]

theorem Kept.addVertex (h : Kept g) (vertex : V) : Kept (g.addVertex vertex) := by
  unfold Graph.addVertex
  split_ifs with hin
  · exact h
  · have hedges : (g.adjacencyList ++ [AdjacencyList.ofVertex vertex]).flatMap AdjacencyList.edges
        = g.edges := by
      simp [edges, AdjacencyList.ofVertex]
    have hmono {v : V} (hv : g.hasVertex v = true) :
        ({ g with
          adjacencyList := g.adjacencyList ++ [.ofVertex vertex]
          numberOfVertices := g.numberOfVertices + 1 } : Graph V).hasVertex v = true := by
      rw [hasVertex_iff] at hv ⊢
      rw [map_append]
      exact mem_append_left _ hv
    refine ⟨?_, ?_, fun e he => ?_, fun l hl e he => ?_, ?_, ?_⟩
    · simp [h.numberOfVertices]
    · rw [h.numberOfEdges, ← hedges]
      rfl
    · have := h.ends e (hedges ▸ he)
      exact ⟨hmono this.1, hmono this.2⟩
    · rcases mem_append.mp hl with hl | hl
      · exact h.starts l hl e he
      · rw [mem_singleton.mp hl] at he
        cases he
    · rw [map_append, map_cons, map_nil, nodup_append]
      refine ⟨h.vertices, by simp, fun v hv w hw heq => ?_⟩
      rw [mem_singleton.mp hw] at heq
      rw [heq] at hv
      exact hin (hasVertex_iff.mpr hv)
    · have := h.addresses
      rw [← hedges] at this
      exact this

omit [DecidableEq V] in
theorem flatMap_filter_edges (l : List (AdjacencyList V)) (p : GraphEdge V → Bool) :
    (l.map fun a => { a with edges := a.edges.filter p }).flatMap AdjacencyList.edges
      = (l.flatMap AdjacencyList.edges).filter p := by
  induction l with
  | nil => rfl
  | cons a l ih =>
    rw [map_cons, flatMap_cons, flatMap_cons, filter_append, ih]

theorem edges_removeVertex (h : Kept g) (vertex : V) :
    (((g.adjacencyList.filter fun l => l.vertex ≠ vertex).map fun l =>
      { l with edges := l.edges.filter fun e => e.endVertex ≠ vertex }).flatMap AdjacencyList.edges)
      = g.edges.filter fun e => e.start ≠ vertex ∧ e.endVertex ≠ vertex := by
  rw [flatMap_filter_edges]
  have hstarts := h.starts
  unfold edges
  generalize g.adjacencyList = lists at hstarts
  induction lists with
  | nil => rfl
  | cons a lists ih =>
    have ih := ih fun l hl => hstarts l (mem_cons_of_mem _ hl)
    have ha := hstarts a mem_cons_self
    rw [flatMap_cons, filter_append, ← ih, filter_cons]
    split_ifs with hv
    · rw [flatMap_cons, filter_append]
      congr 1
      refine filter_congr fun e he => ?_
      simp [ha e he, show a.vertex ≠ vertex by simpa using hv]
    · have : a.edges.filter (fun e => decide (e.start ≠ vertex ∧ e.endVertex ≠ vertex)) = [] := by
        rw [filter_eq_nil_iff]
        intro e he
        simp [ha e he, show a.vertex = vertex by simpa using hv]
      rw [this, nil_append]

theorem length_filter_ne {α β : Type} [DecidableEq β] {f : α → β} {l : List α} {b : β}
    (hnodup : (l.map f).Nodup) (hmem : b ∈ l.map f) :
    (l.filter fun a => f a ≠ b).length + 1 = l.length := by
  have hmap : (l.filter fun a => f a ≠ b).map f = (l.map f).erase b := by
    rw [hnodup.erase_eq_filter, filter_map]
    congr 1
    refine filter_congr fun a _ => ?_
    by_cases ha : f a = b <;> simp [ha]
  have hlen := congrArg List.length hmap
  rw [length_map, length_erase_of_mem hmem, length_map] at hlen
  have hpos := length_pos_of_mem hmem
  rw [length_map] at hpos
  omega

def without (g : Graph V) (vertex : V) : Graph V where
  adjacencyList := (g.adjacencyList.filter fun l => l.vertex ≠ vertex).map fun l =>
    { l with edges := l.edges.filter fun e => e.endVertex ≠ vertex }
  numberOfVertices := g.numberOfVertices - 1
  numberOfEdges := g.numberOfEdges

theorem removeVertex_eq (hin : g.hasVertex vertex = true) :
    g.removeVertex vertex = some (g.without vertex) := by
  rw [removeVertex, if_pos hin]
  rfl

theorem vertices_without (g : Graph V) (vertex : V) :
    (g.without vertex).adjacencyList.map AdjacencyList.vertex
      = (g.adjacencyList.map AdjacencyList.vertex).filter fun v => v ≠ vertex := by
  rw [without, map_map, filter_map]
  rfl

theorem Kept.without (h : Kept g) (hin : g.hasVertex vertex = true)
    (hfree : ∀ e ∈ g.edges, e.start ≠ vertex ∧ e.endVertex ≠ vertex) : Kept (g.without vertex) := by
  have hvertices := g.vertices_without vertex
  have hedges : (g.without vertex).edges = g.edges := by
    rw [show (g.without vertex).edges = _ from edges_removeVertex h vertex, filter_eq_self]
    intro e he
    simpa using hfree e he
  have hmono {v : V} (hv : g.hasVertex v = true) (hne : v ≠ vertex) :
      (g.without vertex).hasVertex v = true := by
    rw [hasVertex_iff, hvertices, mem_filter]
    exact ⟨hasVertex_iff.mp hv, by simpa using hne⟩
  refine ⟨?_, ?_, fun e he => ?_, fun l hl e he => ?_, ?_, ?_⟩
  · have := length_filter_ne h.vertices (hasVertex_iff.mp hin)
    simp only [Graph.without, length_map, h.numberOfVertices]
    omega
  · rw [hedges]
    exact h.numberOfEdges
  · rw [hedges] at he
    have := h.ends e he
    have hne := hfree e he
    exact ⟨hmono this.1 hne.1, hmono this.2 hne.2⟩
  · obtain ⟨l', hl', rfl⟩ := mem_map.mp hl
    exact h.starts l' (mem_filter.mp hl').1 e (mem_filter.mp he).1
  · rw [hvertices]
    exact h.vertices.filter _
  · rw [hedges]
    exact h.addresses

theorem not_kept_without (h : Kept g) {e : GraphEdge V} (he : e ∈ g.edges)
    (hend : e.start = vertex ∨ e.endVertex = vertex) : ¬Kept (g.without vertex) := by
  intro hkept
  have hcount := hkept.numberOfEdges
  rw [show (g.without vertex).edges = _ from edges_removeVertex h vertex,
    show (g.without vertex).numberOfEdges = g.numberOfEdges from rfl, h.numberOfEdges] at hcount
  have hlen : (g.edges.filter fun e => e.start ≠ vertex ∧ e.endVertex ≠ vertex).length < g.edges.length := by
    rw [length_filter_lt_length_iff_exists]
    refine ⟨e, he, ?_⟩
    rcases hend with hend | hend <;> simp [hend]
  omega

theorem flatMap_edges_perm {l : List (AdjacencyList V)}
    (hnodup : (l.map AdjacencyList.vertex).Nodup)
    (hin : edge.start ∈ l.map AdjacencyList.vertex) :
    ((l.map fun a => if a.vertex = edge.start then { a with edges := a.edges ++ [edge] } else a)
      |>.flatMap AdjacencyList.edges).Perm (edge :: l.flatMap AdjacencyList.edges) := by
  induction l with
  | nil => simp at hin
  | cons a l ih =>
    rw [map_cons, nodup_cons] at hnodup
    rw [map_cons, flatMap_cons, flatMap_cons]
    by_cases ha : a.vertex = edge.start
    · rw [if_pos ha]
      have hrest : (l.map fun a =>
          if a.vertex = edge.start then { a with edges := a.edges ++ [edge] } else a) = l := by
        refine (map_congr_left fun b hb => ?_).trans (map_id l)
        rw [if_neg]
        · rfl
        · intro heq
          exact hnodup.1 (ha ▸ heq ▸ mem_map_of_mem hb)
      rw [hrest, append_assoc, singleton_append]
      exact perm_middle
    · rw [if_neg ha]
      have hin' : edge.start ∈ l.map AdjacencyList.vertex := by
        rcases mem_cons.mp (map_cons ▸ hin) with heq | hmem
        · exact absurd heq.symm ha
        · exact hmem
      exact ((ih hnodup.2 hin').append_left a.edges).trans perm_middle

theorem Kept.addEdge (h : Kept g) (hstart : g.hasVertex edge.start = true)
    (hend : g.hasVertex edge.endVertex = true) (hnew : g.hasEdge edge = false) :
    ∃ g', g.addEdge edge = some (true, g') ∧ Kept g' := by
  refine ⟨_, by rw [Graph.addEdge, if_neg (by simp [hstart]), if_neg (by simp [hstart]),
    if_neg (by simp [hnew])], ?_⟩
  have hperm := flatMap_edges_perm h.vertices (hasVertex_iff.mp hstart)
  have hvertices : (g.adjacencyList.map fun a =>
      if a.vertex = edge.start then { a with edges := a.edges ++ [edge] } else a).map
        AdjacencyList.vertex = g.adjacencyList.map AdjacencyList.vertex := by
    rw [map_map]
    refine map_congr_left fun a _ => ?_
    simp only [Function.comp_apply]
    split_ifs <;> rfl
  have hsame (v : V) : ({ g with
      adjacencyList := g.adjacencyList.map fun a =>
        if a.vertex = edge.start then { a with edges := a.edges ++ [edge] } else a
      numberOfEdges := g.numberOfEdges + 1 } : Graph V).hasVertex v = true ↔
        g.hasVertex v = true := by
    rw [hasVertex_iff, hasVertex_iff, hvertices]
  refine ⟨?_, ?_, fun e he => ?_, fun l hl e he => ?_, ?_, ?_⟩
  · simp [h.numberOfVertices]
  · show g.numberOfEdges + 1 = _
    rw [edges, hperm.length_eq, h.numberOfEdges]
    simp [edges]
  · rw [hsame, hsame]
    rcases mem_cons.mp (hperm.mem_iff.mp he) with rfl | he
    · exact ⟨hstart, hend⟩
    · exact h.ends e he
  · obtain ⟨l', hl', rfl⟩ := mem_map.mp hl
    split_ifs at he ⊢ with heq
    · rcases mem_append.mp he with he | he
      · exact h.starts l' hl' e he
      · rw [mem_singleton.mp he]
        exact heq.symm
    · exact h.starts l' hl' e he
  · rw [hvertices]
    exact h.vertices
  · rw [edges, (hperm.map _).nodup_iff, map_cons, nodup_cons]
    refine ⟨?_, h.addresses⟩
    intro hmem
    rw [hasEdge_iff.mpr hmem] at hnew
    cases hnew

theorem Kept.removeEdge (h : Kept g) (hin : g.hasEdge edge = true) :
    ∃ g', g.removeEdge edge = some g' ∧ Kept g' := by
  refine ⟨_, by rw [Graph.removeEdge, if_pos hin], ?_⟩
  have hedges := flatMap_filter_edges g.adjacencyList fun e => e.address ≠ edge.address
  have hvertices : (g.adjacencyList.map fun l =>
      { l with edges := l.edges.filter fun e => e.address ≠ edge.address }).map
        AdjacencyList.vertex = g.adjacencyList.map AdjacencyList.vertex := by
    rw [map_map]
    rfl
  refine ⟨?_, ?_, fun e he => ?_, fun l hl e he => ?_, ?_, ?_⟩
  · simp [h.numberOfVertices]
  · have := length_filter_ne h.addresses (hasEdge_iff.mp hin)
    rw [edges, hedges, h.numberOfEdges]
    simp only [edges] at *
    omega
  · rw [hasVertex_iff, hasVertex_iff, hvertices, ← hasVertex_iff, ← hasVertex_iff]
    rw [edges, hedges] at he
    exact h.ends e (mem_filter.mp he).1
  · obtain ⟨l', hl', rfl⟩ := mem_map.mp hl
    exact h.starts l' hl' e (mem_filter.mp he).1
  · rw [hvertices]
    exact h.vertices
  · rw [edges, hedges]
    exact h.addresses.sublist (List.filter_sublist.map _)

theorem ok_addEdge_iff (h : Kept g) (edge : GraphEdge V) :
    Ok g (.addEdge edge) ↔ Careful g (.addEdge edge) := by
  rcases hstart : g.hasVertex edge.start <;> rcases hend : g.hasVertex edge.endVertex
  · have hcall : g.call (.addEdge edge) = some (false, g) := by
      simp [call, Graph.addEdge, hstart, hend]
    refine iff_of_true ⟨false, g, hcall, h, fun _ _ _ => ⟨rfl, rfl⟩⟩ ?_
    simp [Careful, hstart, hend]
  · refine iff_of_false ?_ (by simp [Careful, hstart, hend])
    rintro ⟨r, g', hcall, -⟩
    simp [call, Graph.addEdge, hstart, hend] at hcall
  · refine iff_of_false ?_ (by simp [Careful, hstart, hend])
    rintro ⟨r, g', hcall, -, hfail⟩
    obtain ⟨rfl, -⟩ := hfail edge rfl (by simp [hend])
    rcases hhas : g.hasEdge edge <;> simp [call, Graph.addEdge, hstart, hhas] at hcall
  · rcases hhas : g.hasEdge edge
    · obtain ⟨g', hcall, hkept⟩ := h.addEdge hstart hend hhas
      refine iff_of_true ⟨true, g', hcall, hkept, fun _ heq hnot => ?_⟩ ?_
      · cases heq
        exact absurd ⟨hstart, hend⟩ hnot
      · simp [Careful, hstart, hend, hhas]
    · refine iff_of_false ?_ (by simp [Careful, hstart, hhas])
      rintro ⟨r, g', hcall, -⟩
      simp [call, Graph.addEdge, hstart, hhas] at hcall

theorem ok_removeVertex_iff (h : Kept g) (vertex : V) :
    Ok g (.removeVertex vertex) ↔ Careful g (.removeVertex vertex) := by
  rcases hin : g.hasVertex vertex
  · refine iff_of_false ?_ (by simp [Careful, hin])
    rintro ⟨r, g', hcall, -⟩
    simp [call, Graph.removeVertex, hin] at hcall
  · have hcall : g.call (.removeVertex vertex) = some (true, g.without vertex) := by
      rw [call, removeVertex_eq hin]
      rfl
    constructor
    · rintro ⟨r, g', hcall', hkept, -⟩
      rw [hcall, Option.some.injEq, Prod.mk.injEq] at hcall'
      obtain ⟨-, rfl⟩ := hcall'
      refine ⟨hin, fun e he => ⟨fun hs => ?_, fun ht => ?_⟩⟩
      · exact not_kept_without h he (.inl hs) hkept
      · exact not_kept_without h he (.inr ht) hkept
    · exact fun hcareful => ⟨true, _, hcall, h.without hin hcareful.2, fun _ heq => by cases heq⟩

theorem ok_iff (h : Kept g) (c : Call V) : Ok g c ↔ Careful g c := by
  cases c with
  | addVertex vertex =>
    exact iff_of_true ⟨true, _, rfl, h.addVertex vertex, fun _ heq => by cases heq⟩ trivial
  | addEdge edge => exact ok_addEdge_iff h edge
  | removeEdge edge =>
    rcases hin : g.hasEdge edge
    · refine iff_of_false ?_ (by simp [Careful, hin])
      rintro ⟨r, g', hcall, -⟩
      simp [call, Graph.removeEdge, hin] at hcall
    · obtain ⟨g', hg', hkept⟩ := h.removeEdge hin
      refine iff_of_true ⟨true, g', ?_, hkept, fun _ heq => by cases heq⟩ hin
      rw [call, hg']
      rfl
  | removeVertex vertex => exact ok_removeVertex_iff h vertex

theorem run_concat (calls : List (Call V)) (c : Call V) :
    run (calls ++ [c]) = (run calls).bind fun g => (g.call c).map Prod.snd := by
  rw [run, foldlM_append]
  cases h : run calls <;> simp [run] at h <;> simp [h]

theorem Kept.nil : Kept ({} : Graph V) :=
  ⟨rfl, rfl, by simp [edges], by simp, nodup_nil, nodup_nil⟩

/-- The calls after those before them keep the books, if and only if each of them is careful. -/
theorem run_ok_iff (calls : List (Call V)) :
    (∀ before c, before ++ [c] <+: calls → ∀ g, run before = some g → Ok g c) ↔
      ∀ before c, before ++ [c] <+: calls → ∀ g, run before = some g → Careful g c := by
  refine Lib.calls_iff (P := fun calls => ∃ g, run calls = some g ∧ Kept g) ⟨{}, rfl, .nil⟩ ?_ ?_ calls
  · rintro before c ⟨g, hg, hkept⟩ hcareful
    obtain ⟨r, g', hcall, hkept', -⟩ := (ok_iff hkept c).mpr (hcareful g hg)
    refine ⟨g', ?_, hkept'⟩
    rw [run_concat, hg, Option.bind_some, hcall]
    rfl
  · rintro before c ⟨g, hg, hkept⟩
    constructor
    all_goals
      intro h g' hg'
      obtain rfl : g = g' := Option.some.inj (hg.symm.trans hg')
    · exact (ok_iff hkept c).mp (h g hg)
    · exact (ok_iff hkept c).mpr (h g hg)

/-- After the vertex of an edge is removed, the edge is still counted. -/
theorem run_not_ok : ¬∀ calls : List (Call ℕ), ∀ before c, before ++ [c] <+: calls →
    ∀ g, run before = some g → Ok g c := by
  intro h
  obtain ⟨r, g', hcall, hkept, -⟩ :=
    h [.addVertex 1, .addVertex 2, .addEdge ⟨0, 1, 2⟩, .removeVertex 2]
      [.addVertex 1, .addVertex 2, .addEdge ⟨0, 1, 2⟩] (.removeVertex 2) prefix_rfl _ rfl
  obtain ⟨-, rfl⟩ := Prod.mk.inj (Option.some.inj hcall)
  exact absurd hkept.numberOfEdges (by decide)

end Graph

end OpenMPI.Class
