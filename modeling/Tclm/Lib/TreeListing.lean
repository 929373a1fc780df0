/-
  Tclm.Lib.TreeListing

  Trees as lists of their nodes with depths.

  - `mapVal f` changes the values of a tree.
  - `listed f d t` is the list of the nodes of `t` with their depths, root first, the root
    at depth `d`; `f` says what is told of a value.
  - `rebuild` reads such a list from its end: a node takes the trees in front that are
    deeper than itself as its children.  It gives back every list of trees
    (`rebuild_listed`).
-/

import Tclm.Lib.NamedTree

namespace NamedTree

variable {κ α β : Type*}

mutual
/-- The tree with other values. -/
def mapVal (f : α → β) : NamedTree κ α → NamedTree κ β
  | .node k v cs => .node k (f v) (mapVals f cs)
/-- The trees with other values. -/
def mapVals (f : α → β) : List (NamedTree κ α) → List (NamedTree κ β)
  | [] => []
  | c :: cs => mapVal f c :: mapVals f cs
end

theorem mapVals_eq_map (f : α → β) (cs : List (NamedTree κ α)) :
    mapVals f cs = cs.map (mapVal f) := by
  induction cs with
  | nil => rfl
  | cons c cs ih => rw [mapVals, List.map_cons, ih]

theorem mapVal_node (f : α → β) (k : κ) (v : α) (cs : List (NamedTree κ α)) :
    mapVal f (node k v cs) = node k (f v) (cs.map (mapVal f)) := by
  rw [mapVal, mapVals_eq_map]

theorem name_mapVal (f : α → β) (t : NamedTree κ α) : (mapVal f t).name = t.name := by
  cases t with
  | node k v cs => rw [mapVal, name_node, name_node]

/-- The nodes of a tree with their depths. -/
def listed (f : α → β) (d : Nat) (t : NamedTree κ α) : List (Nat × κ × β) :=
  (nodes [] t).map fun x => (d + x.1.length, x.2.name, f x.2.val)

/-- Depths count from the address of the root. -/
theorem map_nodes (f : α → β) (t : NamedTree κ α) : ∀ (d : Nat) (π : List κ),
    (nodes π t).map (fun x => (d + x.1.length, x.2.name, f x.2.val)) = listed f (d + π.length) t := by
  induction t using NamedTree.induction with
  | h k v cs ih =>
      intro d π
      -- the children, from either address
      have hbelow : ∀ (d : Nat) (π : List κ) (ds : List (NamedTree κ α)), (∀ c ∈ ds, c ∈ cs) →
          (nodesBelow π ds).map (fun x => (d + x.1.length, x.2.name, f x.2.val)) =
            ds.flatMap fun c => listed f (d + π.length + 1) c := by
        intro d π ds hds
        induction ds with
        | nil => rw [nodesBelow, List.map_nil, List.flatMap_nil]
        | cons c ds ihds =>
            have hc := ih c (hds c List.mem_cons_self) d (π ++ [c.name])
            rw [List.length_append, List.length_singleton, ← Nat.add_assoc] at hc
            rw [nodesBelow, List.map_append, hc, List.flatMap_cons,
              ihds fun e he => hds e (List.mem_cons_of_mem c he)]
      rw [listed, nodes, nodes, List.map_cons, List.map_cons, hbelow d π cs fun c hc => hc,
        hbelow (d + π.length) [] cs fun c hc => hc]
      rfl

theorem listed_node (f : α → β) (d : Nat) (k : κ) (v : α) (cs : List (NamedTree κ α)) :
    listed f d (node k v cs) = (d, k, f v) :: cs.flatMap (listed f (d + 1)) := by
  have hbelow : ∀ ds : List (NamedTree κ α),
      (nodesBelow [] ds).map (fun x => (d + x.1.length, x.2.name, f x.2.val)) =
        ds.flatMap (listed f (d + 1)) := by
    intro ds
    induction ds with
    | nil => rw [nodesBelow, List.map_nil, List.flatMap_nil]
    | cons c ds ihds =>
        rw [nodesBelow, List.map_append, map_nodes, List.flatMap_cons, ihds]
        rfl
  rw [listed, nodes, List.map_cons, hbelow]
  rfl

/-- A node takes the trees that are deeper than itself. -/
def graft (x : Nat × κ × β) (ts : List (Nat × NamedTree κ β)) : List (Nat × NamedTree κ β) :=
  (x.1, node x.2.1 x.2.2 ((ts.takeWhile fun t => x.1 < t.1).map Prod.snd)) ::
    ts.dropWhile fun t => x.1 < t.1

/-- The trees that a list of nodes with depths stands for. -/
def rebuild (xs : List (Nat × κ × β)) : List (NamedTree κ β) := (xs.foldr graft []).map Prod.snd

/-- The first tree of the list is not deeper than `d`. -/
def NotDeeper (d : Nat) (ts : List (Nat × NamedTree κ β)) : Prop := ∀ t ∈ ts.head?, t.1 ≤ d

theorem graft_of_notDeeper {d : Nat} {k : κ} {v : β} {cs : List (NamedTree κ β)}
    {ts : List (Nat × NamedTree κ β)} (h : NotDeeper d ts) :
    graft (d, k, v) (cs.map (fun c => (d + 1, c)) ++ ts) = (d, node k v cs) :: ts := by
  have htake : ts.takeWhile (fun t => d < t.1) = [] ∧ ts.dropWhile (fun t => d < t.1) = ts := by
    cases ts with
    | nil => exact ⟨rfl, rfl⟩
    | cons t ts =>
        have hle : t.1 ≤ d := h t rfl
        have hnot : ¬ decide (d < t.1) = true := by
          rw [decide_eq_true_eq]
          omega
        exact ⟨List.takeWhile_cons_of_neg hnot, List.dropWhile_cons_of_neg hnot⟩
  have hall : ∀ t ∈ cs.map (fun c => (d + 1, c)), decide (d < t.1) = true := by
    intro t ht
    obtain ⟨c, -, rfl⟩ := List.mem_map.mp ht
    exact decide_eq_true (Nat.lt_succ_self d)
  rw [graft]
  simp only [List.takeWhile_append_of_pos hall, List.dropWhile_append_of_pos hall, htake.1, htake.2,
    List.append_nil, List.map_map]
  congr 3
  exact List.map_id cs

/-- Reading the list of a tree gives the tree. -/
theorem foldr_graft_listed (f : α → β) (t : NamedTree κ α) : ∀ {d : Nat}
    {ts : List (Nat × NamedTree κ β)}, NotDeeper d ts →
    (listed f d t).foldr graft ts = (d, mapVal f t) :: ts := by
  induction t using NamedTree.induction with
  | h k v cs ih =>
      intro d ts hts
      have hbelow : ∀ ds : List (NamedTree κ α), (∀ c ∈ ds, c ∈ cs) →
          (ds.flatMap (listed f (d + 1))).foldr graft ts =
            (ds.map (mapVal f)).map (fun c => (d + 1, c)) ++ ts := by
        intro ds hds
        induction ds with
        | nil => rfl
        | cons c ds ihds =>
            have hdeep : NotDeeper (d + 1) ((ds.map (mapVal f)).map (fun c => (d + 1, c)) ++ ts) := by
              cases ds with
              | nil => exact fun t ht => (hts t ht).trans (Nat.le_succ d)
              | cons e ds =>
                  intro t ht
                  obtain rfl := Option.some.inj ht
                  exact Nat.le_refl _
            rw [List.flatMap_cons, List.foldr_append,
              ihds fun e he => hds e (List.mem_cons_of_mem c he),
              ih c (hds c List.mem_cons_self) hdeep]
            rfl
      rw [listed_node, List.foldr_cons, hbelow cs fun c hc => hc, graft_of_notDeeper hts, mapVal_node]

/-- The trees can be told from the list of their nodes. -/
theorem rebuild_listed (f : α → β) (ts : List (NamedTree κ α)) :
    rebuild (ts.flatMap (listed f 0)) = ts.map (mapVal f) := by
  have hfold : (ts.flatMap (listed f 0)).foldr graft [] =
      (ts.map (mapVal f)).map fun t => (0, t) := by
    induction ts with
    | nil => rfl
    | cons t ts ih =>
        have hdeep : NotDeeper 0 ((ts.map (mapVal f)).map fun t => (0, t)) := by
          cases ts with
          | nil => exact fun t ht => by cases ht
          | cons u ts =>
              intro t ht
              obtain rfl := Option.some.inj ht
              exact Nat.le_refl _
        rw [List.flatMap_cons, List.foldr_append, ih, foldr_graft_listed f t hdeep]
        rfl
  rw [rebuild, hfold, List.map_map]
  exact List.map_id _

/-- A node is not deeper than there are nodes. -/
theorem length_lt_of_mem_nodes (t : NamedTree κ α) : ∀ {π : List κ} {x : List κ × NamedTree κ α},
    x ∈ nodes π t → x.1.length < π.length + (nodes π t).length := by
  induction t using NamedTree.induction with
  | h k v cs ih =>
      intro π x hx
      rw [nodes_eq, List.length_cons]
      rcases mem_nodes.mp hx with rfl | ⟨c, hc, hx⟩
      · show π.length < _
        omega
      · have hlt := ih c hc hx
        rw [List.length_append, List.length_singleton] at hlt
        have hle : (nodes (π ++ [c.name]) c).length ≤ (descendants π (node k v cs)).length := by
          rw [descendants, List.length_flatMap]
          obtain ⟨pre, post, rfl⟩ := List.append_of_mem (show c ∈ cs from hc)
          simp only [children_node, List.map_append, List.map_cons, List.sum_append, List.sum_cons]
          omega
        omega

end NamedTree
