import SchemaCatalog.Types

namespace SchemaCatalog

/-- `RegionInfo<T>`: the clusters of a region. -/
structure RegionInfo (T : Type) where
  clusters : KeyMap T

/-- `NodeListResponse`, over the `Node` type of `config::meta::cluster` (outside src/). -/
structure NodeListResponse (Node : Type) where
  regions : KeyMap (RegionInfo (List Node))

namespace NodeListResponse

variable {Node : Type}

def new : NodeListResponse Node := ⟨∅⟩

/-- `add_node`: `regions.entry(region).or_insert_with(..)`, then
`clusters.entry(cluster).or_default()`, then `push(node)`. -/
def addNode (self : NodeListResponse Node) (node : Node) (regionName clusterName : String) :
    NodeListResponse Node :=
  let regionEntry := (self.regions.lookup regionName).getD ⟨∅⟩
  let clusterEntry := (regionEntry.clusters.lookup clusterName).getD []
  ⟨self.regions.insert regionName ⟨regionEntry.clusters.insert clusterName (clusterEntry ++ [node])⟩⟩

/-- `add_nodes`: `add_node` for each `(node, region, cluster)` in turn. -/
def addNodes (self : NodeListResponse Node) (nodes : List (Node × String × String)) :
    NodeListResponse Node :=
  nodes.foldl (fun r x => r.addNode x.1 x.2.1 x.2.2) self

/-- The nodes filed under a region and cluster, as `regions.get(region)?.clusters.get(cluster)`
reads them. -/
def get (r : NodeListResponse Node) (regionName clusterName : String) : Option (List Node) :=
  (r.regions.lookup regionName).bind fun info => info.clusters.lookup clusterName

theorem lookup_clusters_getD (r : NodeListResponse Node) (regionName clusterName : String) :
    ((r.regions.lookup regionName).getD ⟨∅⟩).clusters.lookup clusterName = r.get regionName clusterName := by
  unfold get
  cases r.regions.lookup regionName <;> rfl

/-- `add_node` appends the node to its own region and cluster and leaves every other one. -/
theorem get_addNode (r : NodeListResponse Node) (node : Node) (region cluster region' cluster' : String) :
    (r.addNode node region cluster).get region' cluster' =
      if (region', cluster') = (region, cluster) then some ((r.get region cluster).getD [] ++ [node])
      else r.get region' cluster' := by
  unfold addNode
  by_cases hr : region' = region
  · subst hr
    by_cases hc : cluster' = cluster
    · subst hc
      simp [get, Finmap.lookup_insert, lookup_clusters_getD]
    · simp [get, Finmap.lookup_insert, Finmap.lookup_insert_of_ne _ hc, lookup_clusters_getD, hc]
  · simp [get, Finmap.lookup_insert_of_ne _ hr, hr]

theorem mem_addNode (r : NodeListResponse Node) (node : Node) (region region' cluster : String) :
    region' ∈ (r.addNode node region cluster).regions ↔ region' = region ∨ region' ∈ r.regions := by
  simp [addNode, Finmap.mem_insert]

@[simp] theorem addNodes_nil (r : NodeListResponse Node) : r.addNodes [] = r := rfl

theorem addNodes_cons (r : NodeListResponse Node) (x : Node × String × String)
    (nodes : List (Node × String × String)) :
    r.addNodes (x :: nodes) = (r.addNode x.1 x.2.1 x.2.2).addNodes nodes := rfl

/-- After `add_nodes`, a region and cluster hold the nodes they held followed by
the input's nodes of that region and cluster, in input order; they are untouched when no input
node names them. -/
theorem get_addNodes (region cluster : String) :
    ∀ (r : NodeListResponse Node) (nodes : List (Node × String × String)),
      (r.addNodes nodes).get region cluster =
        if nodes.any (·.2 = (region, cluster)) then
          some ((r.get region cluster).getD [] ++
            ((nodes.filter (·.2 = (region, cluster))).map Prod.fst))
        else r.get region cluster
  | r, [] => rfl
  | r, ⟨node, region', cluster'⟩ :: nodes => by
    rw [addNodes_cons, get_addNodes region cluster _ nodes, get_addNode]
    by_cases hx : (region', cluster') = (region, cluster)
    · obtain ⟨rfl, rfl⟩ := Prod.mk.inj hx
      cases hn : nodes.any (·.2 = (region', cluster'))
      · simp [hn, List.filter_eq_nil_iff.mpr (List.any_eq_false.mp hn)]
      · simp [hn]
    · have hx' : ¬(region, cluster) = (region', cluster') := fun h => hx h.symm
      simp only [hx', hx, if_false, List.any_cons, List.filter_cons, decide_False,
        Bool.false_or, Bool.false_eq_true]

/-- A region appears only when it was there or an input node names it. -/
theorem mem_addNodes (region : String) :
    ∀ (r : NodeListResponse Node) (nodes : List (Node × String × String)),
      region ∈ (r.addNodes nodes).regions ↔ region ∈ r.regions ∨ ∃ x ∈ nodes, x.2.1 = region
  | r, [] => by simp
  | r, x :: nodes => by
    rw [addNodes_cons, mem_addNodes region _ nodes, mem_addNode]
    simp only [List.mem_cons, exists_eq_or_imp, @eq_comm _ region x.2.1, or_assoc, or_left_comm]

/-- From any response, `add_nodes` leaves under each
region and cluster the nodes it held followed by the input's nodes of that region and cluster,
in input order, and creates a region or a cluster only for an input node that names it. -/
theorem add_nodes_files_each_node (r : NodeListResponse Node) (nodes : List (Node × String × String))
    (region cluster : String) :
    (r.addNodes nodes).get region cluster =
        (if nodes.any (·.2 = (region, cluster)) then
          some ((r.get region cluster).getD [] ++ (nodes.filter (·.2 = (region, cluster))).map Prod.fst)
        else r.get region cluster) ∧
      (region ∈ (r.addNodes nodes).regions ↔ region ∈ r.regions ∨ ∃ x ∈ nodes, x.2.1 = region) :=
  ⟨get_addNodes region cluster r nodes, mem_addNodes region r nodes⟩

example : (new.addNodes [(1, "us-west", "cluster-x"), (2, "eu", "cluster-y"),
    (3, "us-west", "cluster-x")]).get "us-west" "cluster-x" = some [1, 3] := by decide

end NodeListResponse

/-- `ClusterInfo`: the pending jobs of a cluster. -/
structure ClusterInfo where
  pendingJobs : Nat
  deriving DecidableEq, Repr

/-- `ClusterInfoResponse`. -/
structure ClusterInfoResponse where
  regions : KeyMap (RegionInfo ClusterInfo)

namespace ClusterInfoResponse

/-- `add_cluster_info(cluster_info, cluster_name, region_name)`: the region is created on first
use and the cluster's entry is replaced; the cluster comes before the region, the other way
round from `add_node`. -/
def addClusterInfo (self : ClusterInfoResponse) (clusterInfo : ClusterInfo)
    (clusterName regionName : String) : ClusterInfoResponse :=
  let regionEntry := (self.regions.lookup regionName).getD ⟨∅⟩
  ⟨self.regions.insert regionName ⟨regionEntry.clusters.insert clusterName clusterInfo⟩⟩

def get (r : ClusterInfoResponse) (regionName clusterName : String) : Option ClusterInfo :=
  (r.regions.lookup regionName).bind fun info => info.clusters.lookup clusterName

/-- The last `add_cluster_info` of a cluster wins, and the others are left. -/
theorem get_addClusterInfo (r : ClusterInfoResponse) (info : ClusterInfo)
    (cluster region region' cluster' : String) :
    (r.addClusterInfo info cluster region).get region' cluster' =
      if (region', cluster') = (region, cluster) then some info else r.get region' cluster' := by
  unfold addClusterInfo get
  by_cases hr : region' = region
  · subst hr
    by_cases hc : cluster' = cluster
    · subst hc
      simp [Finmap.lookup_insert]
    · cases h : r.regions.lookup region' <;>
        simp [Finmap.lookup_insert, Finmap.lookup_insert_of_ne _ hc, hc, h]
  · simp [Finmap.lookup_insert_of_ne _ hr, hr]

end ClusterInfoResponse

end SchemaCatalog
