import OpenMPI.Lib.ShortestPath
import OpenMPI.Proofs.Class.Graph

/-!
# Distances over first edges

The loop over the queue settles the vertices in the order of their distances, where between two vertices there is one step only: the first of
their edges in the adjacency list.  So the distances are right where a shortest path has first edges only, and a vertex has none to itself
(`shortestPaths_iff`).
-/

namespace OpenMPI.Class

open List

namespace Graph

open Lib (Walk Trail Light IsDistance Settling Relaxes)

variable {V : Type} [DecidableEq V] {g g' : Graph V} {vertex u v : V}

structure Listed (g : Graph V) : Prop where
  count : g.numberOfVertices = g.adjacencyList.length
  vertices : (g.adjacencyList.map AdjacencyList.vertex).Nodup

omit [DecidableEq V] in
theorem Listed.of_map (h : Listed g) {f : AdjacencyList V → AdjacencyList V} (hf : ∀ l, (f l).vertex = l.vertex)
    (hlist : g'.adjacencyList = g.adjacencyList.map f) (hcount : g'.numberOfVertices = g.numberOfVertices) : Listed g' where
  count := by rw [hcount, hlist, length_map, h.count]
  vertices := by
    have hvertices : g.adjacencyList.map (AdjacencyList.vertex ∘ f) = g.adjacencyList.map AdjacencyList.vertex :=
      map_congr_left fun l _ => hf l
    rw [hlist, map_map, hvertices]
    exact h.vertices

theorem Listed.addVertex (h : Listed g) (vertex : V) : Listed (g.addVertex vertex) := by
  unfold Graph.addVertex
  split_ifs with hin
  · exact h
  · refine ⟨by simp [h.count], ?_⟩
    have hvertices : (g.adjacencyList ++ [AdjacencyList.ofVertex vertex]).map AdjacencyList.vertex =
        g.adjacencyList.map AdjacencyList.vertex ++ [vertex] := by
      simp [AdjacencyList.ofVertex]
    rw [hvertices]
    refine List.Nodup.append h.vertices (nodup_singleton vertex) ?_
    rw [disjoint_singleton]
    exact fun hmem => hin (hasVertex_iff.mpr hmem)

theorem Listed.call (h : Listed g) {c : Call V} {r : Bool} (hcall : g.call c = some (r, g')) : Listed g' := by
  cases c with
  | addVertex vertex =>
    obtain ⟨-, rfl⟩ := Prod.mk.inj (Option.some.inj hcall)
    exact h.addVertex vertex
  | addEdge edge =>
    unfold Graph.call Graph.addEdge at hcall
    dsimp only at hcall
    split_ifs at hcall
    · obtain ⟨-, rfl⟩ := Prod.mk.inj (Option.some.inj hcall)
      exact h
    · obtain ⟨-, rfl⟩ := Prod.mk.inj (Option.some.inj hcall)
      refine h.of_map (fun l => ?_) rfl rfl
      split_ifs
      · rfl
      · rfl
  | removeEdge edge =>
    unfold Graph.call Graph.removeEdge at hcall
    dsimp only at hcall
    split_ifs at hcall
    · obtain ⟨-, rfl⟩ := Prod.mk.inj (Option.some.inj hcall)
      refine h.of_map (fun l => ?_) rfl rfl
      rfl
    · cases hcall
  | removeVertex vertex =>
    by_cases hin : g.hasVertex vertex = true
    · unfold Graph.call at hcall
      dsimp only at hcall
      rw [removeVertex_eq hin] at hcall
      obtain ⟨-, rfl⟩ := Prod.mk.inj (Option.some.inj hcall)
      have hlen := length_filter_ne h.vertices (hasVertex_iff.mp hin)
      refine ⟨?_, ?_⟩
      · simp only [Graph.without, length_map, h.count]
        omega
      · rw [vertices_without]
        exact h.vertices.filter _
    · unfold Graph.call Graph.removeVertex at hcall
      dsimp only at hcall
      rw [if_neg hin] at hcall
      cases hcall

theorem listed_of_run {calls : List (Call V)} : ∀ {g : Graph V}, run calls = some g → Listed g := by
  induction calls using List.reverseRecOn with
  | nil =>
    rintro g ⟨⟩
    exact ⟨rfl, nodup_nil⟩
  | append_singleton calls c ih =>
    intro g hg
    rw [run_concat] at hg
    obtain ⟨g₀, hg₀, hcall⟩ := Option.bind_eq_some_iff.mp hg
    obtain ⟨⟨r, g₁⟩, hstep, heq⟩ := Option.map_eq_some_iff.mp hcall
    exact heq ▸ (ih hg₀).call hstep

variable {weight : GraphEdge V → UInt32} {qsort : Qsort V} {w n : ℕ}

def EdgeStep (weight : GraphEdge V → UInt32) (g : Graph V) (u v : V) (w : ℕ) : Prop :=
  g.hasVertex v = true ∧ ∃ edge ∈ g.edgesFrom u, edge.endVertex = v ∧ (weight edge).toNat = w

def FirstStep (weight : GraphEdge V → UInt32) (g : Graph V) (u v : V) (w : ℕ) : Prop :=
  g.hasVertex v = true ∧ u ≠ v ∧ ∃ edge, ((g.edgesFrom u).find? fun edge => edge.endVertex = v) = some edge ∧ (weight edge).toNat = w

theorem FirstStep.edgeStep (h : FirstStep weight g u v w) : EdgeStep weight g u v w := by
  obtain ⟨hv, -, edge, hfind, hw⟩ := h
  exact ⟨hv, edge, mem_of_find?_eq_some hfind, by simpa using find?_some hfind, hw⟩

theorem EdgeStep.start (h : EdgeStep weight g u v w) : g.hasVertex u = true := by
  obtain ⟨-, edge, hmem, -⟩ := h
  unfold edgesFrom at hmem
  cases hfind : g.adjacencyList.find? fun l => l.vertex = u with
  | none =>
    rw [hfind] at hmem
    cases hmem
  | some l =>
    have heq : l.vertex = u := by simpa using find?_some hfind
    exact hasVertex_iff.mpr (mem_map.mpr ⟨l, mem_of_find?_eq_some hfind, heq⟩)

abbrev Finite (weight : GraphEdge V → UInt32) (g : Graph V) : Prop := Light (EdgeStep weight g) distanceInfinity.toNat

theorem Finite.first (h : Finite weight g) : Light (FirstStep weight g) distanceInfinity.toNat :=
  Light.mono (fun _ _ _ hstep => hstep.edgeStep) h

def pair (p : VertexDistance V) : V × ℕ := (p.vertex, p.weight.toNat)

def unpair (p : V × ℕ) : VertexDistance V := ⟨p.1, UInt32.ofNat p.2⟩

omit [DecidableEq V] in
theorem unpair_pair (p : VertexDistance V) : unpair (pair p) = p := by simp [unpair, pair]

theorem toNat_infinity : distanceInfinity.toNat = 2147483647 := rfl

theorem adjacent_of_none (hu : g.hasVertex u = true) (hv : g.hasVertex v = true) (hne : u ≠ v)
    (hfind : ((g.edgesFrom u).find? fun edge => edge.endVertex = v) = none) : g.adjacent weight u v = distanceInfinity := by
  rw [adjacent, if_neg (by simp [hu]), if_neg (by simp [hv]), if_neg hne, hfind]

theorem adjacent_of_some (hu : g.hasVertex u = true) (hv : g.hasVertex v = true) (hne : u ≠ v) {edge : GraphEdge V}
    (hfind : ((g.edgesFrom u).find? fun edge => edge.endVertex = v) = some edge) : g.adjacent weight u v = weight edge := by
  rw [adjacent, if_neg (by simp [hu]), if_neg (by simp [hv]), if_neg hne, hfind]

theorem relaxes (hlight : Light (FirstStep weight g) distanceInfinity.toNat) {current item : VertexDistance V}
    (hcurrent : g.hasVertex current.vertex = true) (hitem : g.hasVertex item.vertex = true) (hne : current.vertex ≠ item.vertex)
    (hc : current.weight.toNat ≤ distanceInfinity.toNat) (hi : item.weight.toNat ≤ distanceInfinity.toNat) :
    Relaxes (FirstStep weight g) distanceInfinity.toNat (pair current) (pair item) (pair (g.relax weight current item)) := by
  have hinf := toNat_infinity
  have hadd : ∀ a : UInt32, a.toNat ≤ distanceInfinity.toNat → (current.weight + a).toNat = current.weight.toNat + a.toNat := by
    intro a ha
    rw [UInt32.toNat_add]
    omega
  unfold relax
  cases hfind : (g.edgesFrom current.vertex).find? fun edge => edge.endVertex = item.vertex with
  | none =>
    have hno : ¬current.weight + distanceInfinity < item.weight := by
      rw [UInt32.lt_iff_toNat_lt, hadd _ (le_rfl)]
      omega
    rw [adjacent_of_none hcurrent hitem hne hfind]
    dsimp only
    rw [if_neg hno]
    refine ⟨rfl, .inl rfl, ?_⟩
    rintro w ⟨-, -, edge, hfind', -⟩ -
    cases hfind.symm.trans hfind'
  | some edge =>
    have hstep : FirstStep weight g current.vertex item.vertex (weight edge).toNat := ⟨hitem, hne, edge, hfind, rfl⟩
    have hlt := hlight.step_lt hstep hne
    have hunique : ∀ w, FirstStep weight g current.vertex item.vertex w → w = (weight edge).toNat := by
      rintro w ⟨-, -, edge', hfind', rfl⟩
      rw [Option.some.inj (hfind.symm.trans hfind')]
    have hsum := hadd (weight edge) (le_of_lt hlt)
    rw [adjacent_of_some hcurrent hitem hne hfind]
    dsimp only
    by_cases hless : current.weight + weight edge < item.weight
    · rw [if_pos hless]
      rw [UInt32.lt_iff_toNat_lt, hsum] at hless
      have hpair : (weight edge + current.weight).toNat = current.weight.toNat + (weight edge).toNat := by
        rw [UInt32.add_comm]
        exact hsum
      refine ⟨rfl, .inr ⟨_, hstep, hpair, hless⟩, fun w hw _ => ?_⟩
      rw [hunique w hw]
      exact le_of_eq hpair
    · rw [if_neg hless]
      rw [UInt32.lt_iff_toNat_lt, hsum] at hless
      refine ⟨rfl, .inl rfl, fun w hw _ => ?_⟩
      rw [hunique w hw]
      exact Nat.le_of_not_lt hless

theorem settling_loop {s : V} (hlight : Light (FirstStep weight g) distanceInfinity.toNat) :
    ∀ (n : ℕ) (done queue : List (VertexDistance V)), queue.length = n → (queue.Pairwise fun p q => p.weight ≤ q.weight) →
      (∀ p ∈ queue, g.hasVertex p.vertex = true) →
      Settling (FirstStep weight g) distanceInfinity.toNat s (done.map pair) (queue.map pair) →
      Settling (FirstStep weight g) distanceInfinity.toNat s ((done ++ g.dijkstraLoop weight qsort n queue).map pair) [] ∧
        ((g.dijkstraLoop weight qsort n queue).map VertexDistance.vertex).Perm (queue.map VertexDistance.vertex)
  | 0, done, queue, hlen, _, _, h => by
    obtain rfl := length_eq_zero_iff.mp hlen
    rw [dijkstraLoop, append_nil]
    exact ⟨h, List.Perm.refl _⟩
  | n + 1, done, [], hlen, _, _, h => by cases hlen
  | n + 1, done, current :: queue, hlen, hsorted, hmem, h => by
    obtain ⟨hfirst, -⟩ := pairwise_cons.mp hsorted
    have hle : ∀ p ∈ current :: queue, p.weight.toNat ≤ distanceInfinity.toNat :=
      fun p hp => h.le _ (mem_append_right _ (mem_map_of_mem hp))
    have hne : ∀ p ∈ queue, current.vertex ≠ p.vertex := by
      intro p hp heq
      have hnodup := h.nodup
      rw [map_append] at hnodup
      have hnodup := hnodup.of_append_right
      rw [map_cons, map_cons, nodup_cons] at hnodup
      refine hnodup.1 ?_
      rw [map_map]
      exact mem_map.mpr ⟨p, hp, heq.symm⟩
    have hrelax : ∀ q ∈ queue.map pair, Relaxes (FirstStep weight g) distanceInfinity.toNat (pair current) q
        (pair (g.relax weight current (unpair q))) := by
      intro q hq
      obtain ⟨p, hp, rfl⟩ := mem_map.mp hq
      rw [unpair_pair]
      exact relaxes hlight (hmem _ mem_cons_self) (hmem p (mem_cons_of_mem _ hp)) (hne p hp)
        (hle _ mem_cons_self) (hle p (mem_cons_of_mem _ hp))
    have hperm := qsort.perm (queue.map (g.relax weight current))
    have hpairs : ((qsort.sort (queue.map (g.relax weight current))).map pair).Perm
        ((queue.map pair).map fun q => pair (g.relax weight current (unpair q))) := by
      refine (hperm.map pair).trans (List.Perm.of_eq ?_)
      rw [map_map, map_map]
      exact map_congr_left fun p _ => by rw [Function.comp_apply, Function.comp_apply, unpair_pair]
    have hvertex : ∀ p, (g.relax weight current p).vertex = p.vertex := by
      intro p
      unfold relax
      dsimp only
      split_ifs
      · rfl
      · rfl
    have hvertices : ((qsort.sort (queue.map (g.relax weight current))).map VertexDistance.vertex).Perm
        (queue.map VertexDistance.vertex) := by
      refine (hperm.map _).trans (List.Perm.of_eq ?_)
      rw [map_map]
      exact map_congr_left fun p _ => hvertex p
    have hnext := h.settle (fun q hq => by
      obtain ⟨p, hp, rfl⟩ := mem_map.mp hq
      exact UInt32.le_iff_toNat_le.mp (hfirst p hp)) hrelax hpairs
    obtain ⟨hsettled, hlast⟩ := settling_loop hlight n (done ++ [current]) _
      (by rw [hperm.length_eq, length_map]; exact Nat.succ.inj hlen) (qsort.sorted _) (fun p hp => by
        obtain ⟨q, hq, rfl⟩ := mem_map.mp (hperm.subset hp)
        rw [hvertex]
        exact hmem q (mem_cons_of_mem _ hq)) (by rwa [map_append])
    rw [dijkstraLoop]
    refine ⟨by rwa [append_assoc] at hsettled, ?_⟩
    rw [map_cons, map_cons]
    exact List.Perm.cons _ (hlast.trans hvertices)

def startQueue (g : Graph V) (v : V) : List (VertexDistance V) :=
  g.adjacencyList.map fun l => ⟨l.vertex, if l.vertex = v then 0 else distanceInfinity⟩

theorem vertices_startQueue : (g.startQueue v).map VertexDistance.vertex = g.adjacencyList.map AdjacencyList.vertex := by
  rw [startQueue, map_map]
  rfl

theorem mem_startQueue {p : VertexDistance V} (h : p ∈ g.startQueue v) : p = ⟨v, 0⟩ ∨ p.weight = distanceInfinity := by
  obtain ⟨l, -, rfl⟩ := mem_map.mp h
  by_cases hl : l.vertex = v
  · left
    rw [if_pos hl, hl]
  · right
    exact if_neg hl

theorem source_mem_startQueue (hv : g.hasVertex v = true) : ⟨v, 0⟩ ∈ g.startQueue v := by
  obtain ⟨l, hl, rfl⟩ := mem_map.mp (hasVertex_iff.mp hv)
  refine mem_map.mpr ⟨l, hl, ?_⟩
  rw [if_pos rfl]

theorem settling_start (h : Listed g) (hv : g.hasVertex v = true) {queue : List (VertexDistance V)} (hperm : queue.Perm (g.startQueue v)) :
    Settling (FirstStep weight g) distanceInfinity.toNat v ([].map pair) (queue.map pair) where
  nodup := by
    rw [map_nil, nil_append, map_map]
    refine (hperm.map VertexDistance.vertex).nodup_iff.mpr ?_
    rw [vertices_startQueue]
    exact h.vertices
  walk p hp hlt := by
    obtain ⟨item, hitem, rfl⟩ := mem_map.mp hp
    rcases mem_startQueue (hperm.subset hitem) with rfl | heq
    · exact .refl
    · rw [pair, heq] at hlt
      exact absurd hlt (lt_irrefl _)
  le p hp := by
    obtain ⟨item, hitem, rfl⟩ := mem_map.mp hp
    rcases mem_startQueue (hperm.subset hitem) with rfl | heq
    · exact Nat.zero_le _
    · rw [pair, heq]
  order p hp := nomatch hp
  relaxed p hp := nomatch hp
  source := mem_map.mpr ⟨⟨v, 0⟩, hperm.symm.subset (source_mem_startQueue hv), rfl⟩

theorem first_startQueue (hv : g.hasVertex v = true) {current : VertexDistance V} {queue : List (VertexDistance V)}
    (hperm : (current :: queue).Perm (g.startQueue v)) (hsorted : (current :: queue).Pairwise fun p q => p.weight ≤ q.weight) :
    current = ⟨v, 0⟩ := by
  rcases mem_cons.mp (hperm.symm.subset (source_mem_startQueue hv)) with heq | hmem
  · exact heq.symm
  · have hle : current.weight ≤ 0 := (pairwise_cons.mp hsorted).1 _ hmem
    rcases mem_startQueue (hperm.subset mem_cons_self) with heq | heq
    · exact heq
    · rw [heq] at hle
      exact absurd hle (by decide)

theorem settled_cons (h : Listed g) (hlight : Light (FirstStep weight g) distanceInfinity.toNat) (hv : g.hasVertex v = true) :
    ∃ rest, g.settled weight qsort v = ⟨v, 0⟩ :: rest ∧
      (v :: rest.map VertexDistance.vertex).Perm (g.adjacencyList.map AdjacencyList.vertex) ∧
      ∀ item ∈ rest, IsDistance (FirstStep weight g) distanceInfinity.toNat v item.vertex item.weight.toNat := by
  have hperm := qsort.perm (g.startQueue v)
  have hsorted := qsort.sorted (g.startQueue v)
  have hmem : ∀ p ∈ qsort.sort (g.startQueue v), g.hasVertex p.vertex = true := by
    intro p hp
    obtain ⟨l, hl, rfl⟩ := mem_map.mp (hperm.subset hp)
    exact hasVertex_iff.mpr (mem_map_of_mem hl)
  obtain ⟨hsettled, hlast⟩ := @settling_loop V _ g weight qsort v hlight _ [] _ rfl hsorted hmem (settling_start h hv hperm)
  have hkeys := hlast.trans (hperm.map VertexDistance.vertex)
  rw [vertices_startQueue] at hkeys
  have heq : g.settled weight qsort v = g.dijkstraLoop weight qsort (qsort.sort (g.startQueue v)).length (qsort.sort (g.startQueue v)) := by
    rw [hperm.length_eq]
    rfl
  cases hq : qsort.sort (g.startQueue v) with
  | nil =>
    rw [hq] at hperm
    exact absurd (hperm.symm.subset (source_mem_startQueue hv)) not_mem_nil
  | cons current queue =>
    rw [hq] at hperm hsorted
    rw [hq, first_startQueue hv hperm hsorted, length_cons, dijkstraLoop] at heq hsettled hkeys
    refine ⟨_, heq, hkeys, fun item hitem => ?_⟩
    refine hsettled.distance hlight (fun u x w hstep => ?_) (mem_map.mpr ⟨item, mem_cons_of_mem _ hitem, rfl⟩)
    rw [nil_append, map_map]
    exact hkeys.symm.subset (hasVertex_iff.mp hstep.edgeStep.start)

section

variable (h : Listed g) (hlight : Finite weight g) (hu : g.hasVertex u = true)

include h hlight hu

theorem dijkstra_spec : (u :: (g.dijkstra weight qsort u).1.map VertexDistance.vertex).Perm (g.adjacencyList.map AdjacencyList.vertex) ∧
    (g.dijkstra weight qsort u).2 = (g.dijkstra weight qsort u).1.length ∧
    ∀ item ∈ (g.dijkstra weight qsort u).1, IsDistance (FirstStep weight g) distanceInfinity.toNat u item.vertex item.weight.toNat := by
  obtain ⟨rest, hsettled, hperm, hdistance⟩ := @settled_cons V _ g u weight qsort h hlight.first hu
  have hlen := hperm.length_eq
  rw [length_cons, length_map, length_map] at hlen
  have heq : g.dijkstra weight qsort u = (rest, g.numberOfVertices - 1) := by
    rw [dijkstra, if_neg (by simp [hu]), hsettled, drop_one, tail_cons, take_of_length_le]
    rw [h.count]
    omega
  rw [heq]
  refine ⟨hperm, ?_, hdistance⟩
  dsimp only
  rw [h.count]
  omega

theorem spf_eq_find (hv : g.hasVertex v = true) : g.spf weight qsort u v =
    (((g.dijkstra weight qsort u).1.find? fun item => item.vertex = v).map VertexDistance.weight).getD distanceInfinity := by
  obtain ⟨-, hcount, -⟩ := @dijkstra_spec V _ g u weight qsort h hlight hu
  rw [spf, if_neg (by simp [hu]), if_neg (by simp [hv])]
  generalize g.dijkstra weight qsort u = result at hcount ⊢
  obtain ⟨array, items⟩ := result
  dsimp only at hcount ⊢
  rw [hcount, Int.toNat_natCast, take_length]
  cases array.find? fun item => item.vertex = v with
  | none => rfl
  | some item => rfl

theorem spf_of_mem {item : VertexDistance V} (hitem : item ∈ (g.dijkstra weight qsort u).1) :
    item.weight = g.spf weight qsort u item.vertex := by
  obtain ⟨hperm, -, -⟩ := @dijkstra_spec V _ g u weight qsort h hlight hu
  have hvertex : g.hasVertex item.vertex = true :=
    hasVertex_iff.mpr (hperm.subset (mem_cons_of_mem _ (mem_map_of_mem hitem)))
  rw [spf_eq_find h hlight hu hvertex]
  cases hfind : (g.dijkstra weight qsort u).1.find? fun item' => item'.vertex = item.vertex with
  | none =>
    have := find?_eq_none.mp hfind item hitem
    simp at this
  | some item' =>
    have hsame : item'.vertex = item.vertex := by simpa using find?_some hfind
    have hnodup := (nodup_cons.mp (hperm.nodup_iff.mpr h.vertices)).2
    have := inj_on_of_nodup_map hnodup (mem_of_find?_eq_some hfind) hitem hsame
    rw [this]
    rfl

theorem spf_self : g.spf weight qsort u u = distanceInfinity := by
  obtain ⟨hperm, -, -⟩ := @dijkstra_spec V _ g u weight qsort h hlight hu
  have hnot := (nodup_cons.mp (hperm.nodup_iff.mpr h.vertices)).1
  have hnone : ((g.dijkstra weight qsort u).1.find? fun item => item.vertex = u) = none := by
    refine find?_eq_none.mpr fun item hitem heq => hnot (mem_map.mpr ⟨item, hitem, ?_⟩)
    simpa using heq
  rw [spf_eq_find h hlight hu hu, hnone]
  rfl

theorem spf_of_ne (hv : g.hasVertex v = true) (hne : u ≠ v) :
    IsDistance (FirstStep weight g) distanceInfinity.toNat u v (g.spf weight qsort u v).toNat := by
  obtain ⟨hperm, -, hdistance⟩ := @dijkstra_spec V _ g u weight qsort h hlight hu
  rcases mem_cons.mp (hperm.symm.subset (hasVertex_iff.mp hv)) with heq | hmem
  · exact absurd heq.symm hne
  · obtain ⟨item, hitem, rfl⟩ := mem_map.mp hmem
    rw [← spf_of_mem h hlight hu hitem]
    exact hdistance item hitem

end

/-- `opal_graph_spf` gives the least weight of a path, and `opal_graph_dijkstra` the same for all other vertices. -/
structure ShortestPaths (weight : GraphEdge V → UInt32) (qsort : Qsort V) (g : Graph V) (vertex1 vertex2 : V) : Prop where
  spf : IsDistance (EdgeStep weight g) distanceInfinity.toNat vertex1 vertex2 (g.spf weight qsort vertex1 vertex2).toNat
  others : (vertex1 :: (g.dijkstra weight qsort vertex1).1.map VertexDistance.vertex).Perm (g.adjacencyList.map AdjacencyList.vertex)
  size : (g.dijkstra weight qsort vertex1).2 = (g.dijkstra weight qsort vertex1).1.length
  same : ∀ item ∈ (g.dijkstra weight qsort vertex1).1, item.weight = g.spf weight qsort vertex1 item.vertex

theorem not_isDistance_self : ¬IsDistance (EdgeStep weight g) distanceInfinity.toNat v v distanceInfinity.toNat := by
  intro h
  have := (h.least 0 .refl).2 (Walk.refl : Walk (EdgeStep weight g) v v 0)
  exact absurd this (by decide)

/-- The distances are right between two vertices just if a shortest path goes over first edges, where there are any. -/
theorem shortestPaths_iff {calls : List (Call V)} (hrun : run calls = some g) (hlight : Finite weight g)
    (hu : g.hasVertex u = true) (hv : g.hasVertex v = true) :
    ShortestPaths weight qsort g u v ↔ u ≠ v ∧ ((∃ n, Walk (EdgeStep weight g) u v n) →
      ∃ n, Walk (FirstStep weight g) u v n ∧ ∀ n', Walk (EdgeStep weight g) u v n' → n ≤ n') := by
  have h := listed_of_run hrun
  obtain ⟨hothers, hsize, -⟩ := @dijkstra_spec V _ g u weight qsort h hlight hu
  have hmono {n : ℕ} (hwalk : Walk (FirstStep weight g) u v n) : Walk (EdgeStep weight g) u v n :=
    hwalk.mono fun _ _ _ hstep => hstep.edgeStep
  constructor
  · intro hright
    have hne : u ≠ v := by
      rintro rfl
      have hself := hright.spf
      rw [spf_self h hlight hu] at hself
      exact not_isDistance_self hself
    refine ⟨hne, fun ⟨n, hwalk⟩ => ?_⟩
    have hfirst := @spf_of_ne V _ g u v weight qsort h hlight hu hv hne
    obtain ⟨hin, hleast⟩ := hright.spf.least n hwalk
    obtain ⟨m, -, hlt, hm⟩ := hlight.exists_lt hwalk
    -- there is a path over first edges, as the result is finite
    by_cases hwalks : ∃ n, Walk (FirstStep weight g) u v n
    · obtain ⟨n₁, hn₁⟩ := hwalks
      exact ⟨_, (hfirst.least n₁ hn₁).1, fun n' hn' => hleast hn'⟩
    · have hinf := hfirst.none fun n hn => hwalks ⟨n, hn⟩
      have := hleast hm
      omega
  · rintro ⟨hne, hshort⟩
    have hfirst := @spf_of_ne V _ g u v weight qsort h hlight hu hv hne
    refine ⟨⟨fun n hn => ?_, fun hnone => ?_⟩, hothers, hsize, fun item hitem => spf_of_mem h hlight hu hitem⟩
    · obtain ⟨n₁, hn₁, hle⟩ := hshort ⟨n, hn⟩
      obtain ⟨hin, hleast⟩ := hfirst.least n₁ hn₁
      exact ⟨hmono hin, fun n' hn' => (hleast hn₁).trans (hle n' hn')⟩
    · exact hfirst.none fun n hn => hnone n (hmono hn)

def mergeQsort (V : Type) : Qsort V where
  sort l := l.mergeSort fun p q => p.weight ≤ q.weight
  perm l := mergeSort_perm l _
  sorted l := by
    have hsorted := @pairwise_mergeSort _ (fun p q : VertexDistance V => decide (p.weight ≤ q.weight))
      (fun p q r hpq hqr => by
        simp only [decide_eq_true_eq] at hpq hqr ⊢
        exact UInt32.le_trans hpq hqr)
      (fun p q => by simpa using UInt32.le_total p.weight q.weight) l
    simpa using hsorted

def oneEdge : Graph ℕ := ⟨[⟨1, [⟨0, 1, 2⟩]⟩, ⟨2, []⟩], 2, 1⟩

theorem edgeStep_oneEdge {u v w : ℕ} (h : EdgeStep (fun _ => 5) oneEdge u v w) : u = 1 ∧ v = 2 ∧ w = 5 := by
  obtain ⟨-, edge, hmem, rfl, rfl⟩ := h
  have hedge : u = 1 ∧ edge = ⟨0, 1, 2⟩ := by
    by_cases h1 : 1 = u
    · subst h1
      simpa [edgesFrom, oneEdge] using hmem
    · by_cases h2 : 2 = u
      · subst h2
        simp [edgesFrom, oneEdge] at hmem
      · simp [edgesFrom, oneEdge, h1, h2] at hmem
  obtain ⟨rfl, rfl⟩ := hedge
  exact ⟨rfl, rfl, rfl⟩

theorem finite_oneEdge : Finite (fun _ => 5) oneEdge := by
  rintro s l v n htrail -
  cases htrail with
  | refl => decide
  | step htrail hE =>
    obtain ⟨rfl, -, rfl⟩ := edgeStep_oneEdge hE
    cases htrail with
    | refl => decide
    | step _ hE => exact absurd (edgeStep_oneEdge hE).2.1 (by decide)

theorem shortestPaths_oneEdge : ShortestPaths (fun _ => 5) (mergeQsort ℕ) oneEdge 1 2 := by
  refine (@shortestPaths_iff ℕ _ oneEdge 1 2 (fun _ => 5) (mergeQsort ℕ) [.addVertex 1, .addVertex 2, .addEdge ⟨0, 1, 2⟩] rfl finite_oneEdge
    rfl rfl).mpr ⟨by decide, fun _ => ⟨0 + 5, ?_, fun n' hn' => ?_⟩⟩
  · exact Walk.refl.step ⟨rfl, by decide, ⟨0, 1, 2⟩, rfl, rfl⟩
  · cases hn' with
    | step _ hE =>
      obtain ⟨-, -, rfl⟩ := edgeStep_oneEdge hE
      omega

theorem not_shortestPaths_self : ¬∀ (weight : GraphEdge ℕ → UInt32) (qsort : Qsort ℕ) (calls : List (Call ℕ)) (g : Graph ℕ) (u v : ℕ),
    run calls = some g → Finite weight g → g.hasVertex u = true → g.hasVertex v = true → ShortestPaths weight qsort g u v := by
  intro h
  have hlight : Finite (fun _ => 0) (⟨[⟨1, []⟩], 1, 0⟩ : Graph ℕ) := by
    rintro s l v n htrail -
    cases htrail with
    | refl => decide
    | @step l u v n w htrail hE =>
      obtain ⟨-, edge, hmem, -⟩ := hE
      by_cases h1 : 1 = u
      · subst h1
        simp [edgesFrom] at hmem
      · simp [edgesFrom, h1] at hmem
  have hrun : run [.addVertex 1] = some (⟨[⟨1, []⟩], 1, 0⟩ : Graph ℕ) := rfl
  have hself := (h (fun _ => 0) (mergeQsort ℕ) _ _ 1 1 hrun hlight rfl rfl).spf
  rw [spf_self (listed_of_run hrun) hlight rfl] at hself
  exact not_isDistance_self hself

end Graph

end OpenMPI.Class
