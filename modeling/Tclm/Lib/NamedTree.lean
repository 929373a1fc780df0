/-
  Tclm.Lib.NamedTree

  Rose trees whose nodes carry a name and a value.  A node is addressed by the
  names on the way to it; among siblings with one name the first is meant.

  - `nodes π t` lists every node of `t` with its address, `π` being the address
    of the root; `descendants` leaves the root out.
  - `Forall P` says `P` of every node (with its address), `sum f` adds up a
    weight over all nodes, `sumBelow f` over the strict descendants.
  - `find` follows an address; `Extends` compares trees address by address;
    `UniqueNames` makes addresses unique.

  An operation that walks down one branch rewrites a child list
  `pre ++ c :: post` to `pre ++ c' :: post`; the `_node` equations push `Forall`
  and `sum` through such a step.
-/

import Mathlib.Algebra.Order.BigOperators.Group.List
import Mathlib.Tactic.Common
import Tclm.Lib.Basic

/-- A tree with named nodes. -/
inductive NamedTree (κ α : Type*) where
  | node (name : κ) (val : α) (children : List (NamedTree κ α))

namespace NamedTree

variable {κ α : Type*}

/-- The name of the root. -/
def name : NamedTree κ α → κ
  | .node k _ _ => k

/-- The value at the root. -/
def val : NamedTree κ α → α
  | .node _ v _ => v

/-- The subtrees directly below the root. -/
def children : NamedTree κ α → List (NamedTree κ α)
  | .node _ _ cs => cs

@[simp] theorem name_node (k : κ) (v : α) (cs : List (NamedTree κ α)) :
    (node k v cs).name = k := rfl

@[simp] theorem val_node (k : κ) (v : α) (cs : List (NamedTree κ α)) :
    (node k v cs).val = v := rfl

@[simp] theorem children_node (k : κ) (v : α) (cs : List (NamedTree κ α)) :
    (node k v cs).children = cs := rfl

/-- Structural induction with the hypothesis for every child. -/
theorem induction {P : NamedTree κ α → Prop}
    (h : ∀ k v cs, (∀ c ∈ cs, P c) → P (node k v cs)) : ∀ t, P t
  | .node k v cs => h k v cs fun c _ => induction h c

/-! ## The nodes of a tree -/

mutual
/-- Every node with its address, root first. -/
def nodes (π : List κ) : NamedTree κ α → List (List κ × NamedTree κ α)
  | .node k v cs => (π, .node k v cs) :: nodesBelow π cs
/-- The nodes of all trees in a child list. -/
def nodesBelow (π : List κ) : List (NamedTree κ α) → List (List κ × NamedTree κ α)
  | [] => []
  | c :: cs => nodes (π ++ [c.name]) c ++ nodesBelow π cs
end

theorem nodesBelow_eq_flatMap (π : List κ) (cs : List (NamedTree κ α)) :
    nodesBelow π cs = cs.flatMap fun c => nodes (π ++ [c.name]) c := by
  induction cs with
  | nil => simp [nodesBelow]
  | cons c cs ih => simp [nodesBelow, ih]

/-- Every node strictly below the root. -/
def descendants (π : List κ) (t : NamedTree κ α) : List (List κ × NamedTree κ α) :=
  t.children.flatMap fun c => nodes (π ++ [c.name]) c

theorem nodes_eq (π : List κ) (t : NamedTree κ α) : nodes π t = (π, t) :: descendants π t := by
  cases t with
  | node k v cs => simp [nodes, descendants, nodesBelow_eq_flatMap]

theorem mem_nodes {π : List κ} {t : NamedTree κ α} {x : List κ × NamedTree κ α} :
    x ∈ nodes π t ↔ x = (π, t) ∨ ∃ c ∈ t.children, x ∈ nodes (π ++ [c.name]) c := by
  simp [nodes_eq π t, descendants]

theorem mem_descendants {π : List κ} {t : NamedTree κ α} {x : List κ × NamedTree κ α} :
    x ∈ descendants π t ↔ ∃ c ∈ t.children, x ∈ nodes (π ++ [c.name]) c := by
  simp [descendants]

theorem root_mem_nodes (π : List κ) (t : NamedTree κ α) : (π, t) ∈ nodes π t := by
  rw [nodes_eq]
  exact List.mem_cons_self ..

/-- Addresses below `π` extend `π`. -/
theorem isPrefix_of_mem_nodes (t : NamedTree κ α) :
    ∀ {π : List κ} {x : List κ × NamedTree κ α}, x ∈ nodes π t → π <+: x.1 := by
  induction t using NamedTree.induction with
  | h k v cs ih =>
      intro π x hx
      rcases mem_nodes.mp hx with rfl | ⟨c, hc, hx⟩
      · exact List.prefix_refl _
      · exact (List.prefix_append π [c.name]).trans (ih c hc hx)

/-- The nodes of a subtree are nodes of the tree. -/
theorem nodes_trans (t : NamedTree κ α) :
    ∀ {π : List κ} {x y : List κ × NamedTree κ α},
      x ∈ nodes π t → y ∈ nodes x.1 x.2 → y ∈ nodes π t := by
  induction t using NamedTree.induction with
  | h k v cs ih =>
      intro π x y hx hy
      rcases mem_nodes.mp hx with rfl | ⟨c, hc, hx⟩
      · exact hy
      · exact mem_nodes.mpr (Or.inr ⟨c, hc, ih c hc hx hy⟩)

/-- The names on the way from the root of a tree down to a node. -/
inductive Line : NamedTree κ α → List κ → NamedTree κ α → Prop where
  | here (t : NamedTree κ α) : Line t [t.name] t
  | child {t c n : NamedTree κ α} {names : List κ} (hc : c ∈ t.children) (h : Line c names n) :
      Line t (t.name :: names) n

/-- Where addresses start with the name of the root, they are these names. -/
theorem Line.mem_nodes {t n : NamedTree κ α} {names : List κ} (h : Line t names n) (π : List κ) :
    (π ++ names, n) ∈ nodes (π ++ [t.name]) t := by
  induction h generalizing π with
  | here t => exact root_mem_nodes _ t
  | @child t c n names hc _ ih =>
      have hmem := ih (π ++ [t.name])
      rw [List.append_assoc π [t.name] names] at hmem
      exact NamedTree.mem_nodes.mpr (Or.inr ⟨c, hc, hmem⟩)

/-! ## Quantifying over nodes -/

/-- `P` holds of every node and its address. -/
def Forall (P : List κ → NamedTree κ α → Prop) (π : List κ) (t : NamedTree κ α) : Prop :=
  ∀ x ∈ nodes π t, P x.1 x.2

variable {P Q : List κ → NamedTree κ α → Prop} {π : List κ}

theorem forall_iff {t : NamedTree κ α} :
    Forall P π t ↔ P π t ∧ ∀ c ∈ t.children, Forall P (π ++ [c.name]) c := by
  simp only [Forall, nodes_eq π t, List.forall_mem_cons, descendants, List.mem_flatMap]
  constructor
  · rintro ⟨h, hbelow⟩
    exact ⟨h, fun c hc x hx => hbelow x ⟨c, hc, hx⟩⟩
  · rintro ⟨h, hbelow⟩
    exact ⟨h, fun x ⟨c, hc, hx⟩ => hbelow c hc x hx⟩

theorem Forall.root {t : NamedTree κ α} (h : Forall P π t) : P π t := (forall_iff.mp h).1

/-- `Forall` at a node whose child list is split around one child. -/
theorem forall_node_append_cons {k : κ} {v : α} {pre post : List (NamedTree κ α)}
    {c : NamedTree κ α} :
    Forall P π (node k v (pre ++ c :: post)) ↔
      P π (node k v (pre ++ c :: post)) ∧ (∀ d ∈ pre ++ post, Forall P (π ++ [d.name]) d) ∧
        Forall P (π ++ [c.name]) c := by
  rw [forall_iff]
  simp only [children_node, List.mem_append, List.mem_cons]
  constructor
  · rintro ⟨h, hall⟩
    refine ⟨h, fun d hd => hall d ?_, hall c (Or.inr (Or.inl rfl))⟩
    rcases hd with hd | hd
    · exact Or.inl hd
    · exact Or.inr (Or.inr hd)
  · rintro ⟨h, hrest, hc⟩
    refine ⟨h, fun d hd => ?_⟩
    rcases hd with hd | rfl | hd
    · exact hrest d (Or.inl hd)
    · exact hc
    · exact hrest d (Or.inr hd)

/-! ## Adding up over nodes -/

section Sum

variable {M : Type*} [AddCommMonoid M] {f : List κ → α → M}

/-- The sum of a weight over all nodes. -/
def sum (f : List κ → α → M) (π : List κ) (t : NamedTree κ α) : M :=
  ((nodes π t).map fun x => f x.1 x.2.val).sum

/-- The sum of a weight over the nodes strictly below the root. -/
def sumBelow (f : List κ → α → M) (π : List κ) (t : NamedTree κ α) : M :=
  ((descendants π t).map fun x => f x.1 x.2.val).sum

theorem sum_eq (t : NamedTree κ α) : sum f π t = f π t.val + sumBelow f π t := by
  simp [sum, sumBelow, nodes_eq π t]

theorem sumBelow_eq (t : NamedTree κ α) :
    sumBelow f π t = (t.children.map fun c => sum f (π ++ [c.name]) c).sum := by
  rw [sumBelow, descendants]
  induction t.children with
  | nil => simp
  | cons c cs ih => simp [ih, sum]

/-- `sumBelow` at a node whose child list is split around one child. -/
theorem sumBelow_node_append_cons {k : κ} {v : α} {pre post : List (NamedTree κ α)}
    {c : NamedTree κ α} :
    sumBelow f π (node k v (pre ++ c :: post)) =
      sum f (π ++ [c.name]) c + sumBelow f π (node k v (pre ++ post)) := by
  simp only [sumBelow_eq, children_node, List.map_append, List.map_cons, List.sum_append,
    List.sum_cons]
  rw [add_left_comm]

theorem sumBelow_node {k k' : κ} {v v' : α} {cs : List (NamedTree κ α)} :
    sumBelow f π (node k v cs) = sumBelow f π (node k' v' cs) := rfl

theorem sum_node {k : κ} {v : α} {cs : List (NamedTree κ α)} :
    sum f π (node k v cs) = f π v + sumBelow f π (node k v cs) := sum_eq _

theorem sum_leaf {k : κ} {v : α} : sum f π (node k v []) = f π v := by
  simp [sum_node, sumBelow_eq]

end Sum

section OrderedSum

variable {M : Type*} [AddCommMonoid M] [PartialOrder M] [CanonicallyOrderedAdd M]
  {f : List κ → α → M}

theorem le_sumBelow_of_mem {t : NamedTree κ α} {x : List κ × NamedTree κ α}
    (hx : x ∈ descendants π t) : f x.1 x.2.val ≤ sumBelow f π t :=
  List.le_sum_of_mem (List.mem_map_of_mem hx)

end OrderedSum

/-! ## Unique names -/

/-- No two siblings share a name, so every node has an address of its own. -/
def UniqueNames (π : List κ) (t : NamedTree κ α) : Prop :=
  Forall (fun _ n => (n.children.map name).Nodup) π t

theorem uniqueNames_node {k : κ} {v : α} {cs : List (NamedTree κ α)} :
    UniqueNames π (node k v cs) ↔
      (cs.map name).Nodup ∧ ∀ c ∈ cs, UniqueNames (π ++ [c.name]) c :=
  forall_iff

theorem uniqueNames_node_append_cons {k : κ} {v : α} {pre post : List (NamedTree κ α)}
    {c : NamedTree κ α} :
    UniqueNames π (node k v (pre ++ c :: post)) ↔
      ((pre ++ c :: post).map name).Nodup ∧ (∀ d ∈ pre ++ post, UniqueNames (π ++ [d.name]) d) ∧
        UniqueNames (π ++ [c.name]) c :=
  forall_node_append_cons

/-- A child is replaced by one with the same name. -/
theorem UniqueNames.replace {k k' : κ} {v v' : α} {pre post : List (NamedTree κ α)}
    {c c' : NamedTree κ α} (h : UniqueNames π (node k v (pre ++ c :: post)))
    (hname : c'.name = c.name) (hc : UniqueNames (π ++ [c.name]) c → UniqueNames (π ++ [c.name]) c') :
    UniqueNames π (node k' v' (pre ++ c' :: post)) := by
  obtain ⟨hnames, hrest, hchild⟩ := uniqueNames_node_append_cons.mp h
  refine uniqueNames_node_append_cons.mpr ⟨?_, hrest, ?_⟩
  · rw [List.map_append, List.map_cons] at hnames ⊢
    rw [hname]
    exact hnames
  · rw [hname]
    exact hc hchild

/-- A child with a new name is added. -/
theorem UniqueNames.insert {k k' : κ} {v v' : α} {cs : List (NamedTree κ α)}
    {c : NamedTree κ α} (h : UniqueNames π (node k v cs)) (hnew : ∀ d ∈ cs, d.name ≠ c.name)
    (hc : UniqueNames (π ++ [c.name]) c) : UniqueNames π (node k' v' (cs ++ [c])) := by
  obtain ⟨hnames, hcs⟩ := uniqueNames_node.mp h
  refine uniqueNames_node_append_cons.mpr ⟨?_, by simpa using hcs, hc⟩
  rw [List.map_append, List.nodup_append]
  refine ⟨hnames, by simp, ?_⟩
  intro a ha b hb
  obtain ⟨d, hd, rfl⟩ := List.mem_map.mp ha
  obtain rfl : b = c.name := by simpa using hb
  exact hnew d hd

/-! ## Addresses -/

section Find

variable [DecidableEq κ]

/-- The node reached by following the names `ρ` from the root. -/
def find : List κ → NamedTree κ α → Option (NamedTree κ α)
  | [], t => some t
  | k :: ρ, t => (t.children.find? fun c => c.name = k).bind (find ρ)

@[simp] theorem find_nil (t : NamedTree κ α) : find [] t = some t := rfl

theorem find_cons {k : κ} {ρ : List κ} {t n : NamedTree κ α} :
    find (k :: ρ) t = some n ↔
      ∃ c, t.children.find? (fun c => c.name = k) = some c ∧ find ρ c = some n := by
  simp [find, Option.bind_eq_some_iff]

theorem find_append {ρ σ : List κ} {t : NamedTree κ α} :
    find (ρ ++ σ) t = (find ρ t).bind (find σ) := by
  induction ρ generalizing t with
  | nil => rfl
  | cons k ρ ih =>
      simp only [List.cons_append, find]
      cases t.children.find? fun c => decide (c.name = k) with
      | none => rfl
      | some c => exact ih

/-- A node found by its address is a node of the tree. -/
theorem mem_nodes_of_find {ρ : List κ} {t n : NamedTree κ α} (h : find ρ t = some n) :
    (π ++ ρ, n) ∈ nodes π t := by
  induction ρ generalizing t π with
  | nil =>
      obtain rfl : t = n := by simpa using h
      simpa using root_mem_nodes π t
  | cons k ρ ih =>
      obtain ⟨c, hc, hn⟩ := find_cons.mp h
      have hname : c.name = k := by simpa using List.find?_some hc
      have hmem := ih (π := π ++ [c.name]) hn
      rw [List.append_assoc, List.singleton_append, hname] at hmem
      exact mem_nodes.mpr (Or.inr ⟨c, List.mem_of_find?_eq_some hc, by rwa [hname]⟩)

/-- Searching the child that a split singles out. -/
theorem find_node_append_cons {k : κ} {v : α} {pre post : List (NamedTree κ α)}
    {c : NamedTree κ α} {ρ : List κ} (hpre : ∀ d ∈ pre, d.name ≠ c.name) :
    find (c.name :: ρ) (node k v (pre ++ c :: post)) = find ρ c := by
  have hfind : (pre ++ c :: post).find? (fun d => decide (d.name = c.name)) = some c :=
    List.find?_append_cons (by simp) (by simpa using hpre)
  simp [find, hfind]

/-- Replacing a child leaves the addresses through its siblings alone. -/
theorem find_node_append_cons_ne {k k' : κ} {v v' : α} {pre post : List (NamedTree κ α)}
    {c c' : NamedTree κ α} {b : κ} {ρ : List κ} (hname : c'.name = c.name) (hb : b ≠ c.name) :
    find (b :: ρ) (node k' v' (pre ++ c' :: post)) = find (b :: ρ) (node k v (pre ++ c :: post)) := by
  simp [find, List.find?_append, hname, hb.symm]

/-- Inserting a child leaves the addresses through other names alone. -/
theorem find_node_insert_ne {k k' : κ} {v v' : α} {pre post : List (NamedTree κ α)}
    {c : NamedTree κ α} {b : κ} {ρ : List κ} (hb : b ≠ c.name) :
    find (b :: ρ) (node k' v' (pre ++ c :: post)) = find (b :: ρ) (node k v (pre ++ post)) := by
  simp [find, List.find?_append, hb.symm]

theorem find_node_eq_none {k : κ} {v : α} {cs : List (NamedTree κ α)} {b : κ} {ρ : List κ}
    (h : ∀ d ∈ cs, d.name ≠ b) : find (b :: ρ) (node k v cs) = none := by
  have hfind : cs.find? (fun d => decide (d.name = b)) = none := by simpa using h
  simp [find, hfind]

/-- With unique names a node is found at its address. -/
theorem find_of_mem_nodes (t : NamedTree κ α) :
    ∀ {π : List κ} {x : List κ × NamedTree κ α}, UniqueNames π t → x ∈ nodes π t →
      ∃ ρ, x.1 = π ++ ρ ∧ find ρ t = some x.2 := by
  induction t using NamedTree.induction with
  | h k v cs ih =>
      intro π x ht hx
      rcases mem_nodes.mp hx with rfl | ⟨c, hc, hx⟩
      · exact ⟨[], (List.append_nil π).symm, rfl⟩
      · obtain ⟨hnames, hcs⟩ := uniqueNames_node.mp ht
        obtain ⟨ρ, hρ, hfind⟩ := ih c hc (hcs c hc) hx
        obtain ⟨pre, post, rfl⟩ := List.append_of_mem (show c ∈ cs from hc)
        refine ⟨c.name :: ρ, by simpa using hρ, ?_⟩
        rw [find_node_append_cons ?_]
        · exact hfind
        · intro d hd heq
          rw [List.map_append, List.map_cons, List.nodup_append] at hnames
          exact hnames.2.2 d.name (List.mem_map_of_mem hd) c.name (List.mem_cons_self ..) heq

/-! ## Growing trees -/

/-- Every node of `t` is found at the same address in `t'`, with a related value. -/
def Extends (R : α → α → Prop) (t t' : NamedTree κ α) : Prop :=
  ∀ ρ n, find ρ t = some n → ∃ n', find ρ t' = some n' ∧ R n.val n'.val

variable {R : α → α → Prop}

theorem Extends.refl (hR : ∀ a, R a a) (t : NamedTree κ α) : Extends R t t :=
  fun _ n hn => ⟨n, hn, hR n.val⟩

theorem Extends.trans {t t' t'' : NamedTree κ α} (h : Extends R t t') (h' : Extends R t' t'')
    (hR : ∀ a b c, R a b → R b c → R a c) : Extends R t t'' := by
  intro ρ n hn
  obtain ⟨n', hn', hab⟩ := h ρ n hn
  obtain ⟨n'', hn'', hbc⟩ := h' ρ n' hn'
  exact ⟨n'', hn'', hR _ _ _ hab hbc⟩

/-- Addresses that are free afterwards were free before. -/
theorem Extends.find_eq_none {t t' : NamedTree κ α} {ρ : List κ} (h : Extends R t t')
    (hnone : find ρ t' = none) : find ρ t = none := by
  cases hfind : find ρ t with
  | none => rfl
  | some n =>
      obtain ⟨n', hn', -⟩ := h ρ n hfind
      rw [hn'] at hnone
      cases hnone

/-- The value of the root changes. -/
theorem extends_node (hR : ∀ a, R a a) {k : κ} {v v' : α} {cs : List (NamedTree κ α)}
    (hv : R v v') : Extends R (node k v cs) (node k v' cs) := by
  intro ρ n hn
  cases ρ with
  | nil =>
      obtain rfl : node k v cs = n := by simpa using hn
      exact ⟨_, rfl, hv⟩
  | cons b ρ => exact ⟨n, hn, hR _⟩

/-- One child grows. -/
theorem extends_node_append_cons (hR : ∀ a, R a a) {k : κ} {v v' : α}
    {pre post : List (NamedTree κ α)} {c c' : NamedTree κ α} (hv : R v v')
    (hpre : ∀ d ∈ pre, d.name ≠ c.name) (hname : c'.name = c.name) (hc : Extends R c c') :
    Extends R (node k v (pre ++ c :: post)) (node k v' (pre ++ c' :: post)) := by
  intro ρ n hn
  cases ρ with
  | nil =>
      obtain rfl : node k v (pre ++ c :: post) = n := by simpa using hn
      exact ⟨_, rfl, hv⟩
  | cons b ρ =>
      by_cases hb : b = c.name
      · subst hb
        rw [find_node_append_cons hpre] at hn
        obtain ⟨n', hn', hR'⟩ := hc ρ n hn
        refine ⟨n', ?_, hR'⟩
        rw [← hname, find_node_append_cons (by simpa [hname] using hpre)]
        exact hn'
      · refine ⟨n, ?_, hR _⟩
        rw [find_node_append_cons_ne hname hb]
        exact hn

/-- A child is inserted under a new name. -/
theorem extends_node_insert (hR : ∀ a, R a a) {k : κ} {v v' : α}
    {pre post : List (NamedTree κ α)} {c : NamedTree κ α} (hv : R v v')
    (hnew : ∀ d ∈ pre ++ post, d.name ≠ c.name) :
    Extends R (node k v (pre ++ post)) (node k v' (pre ++ c :: post)) := by
  intro ρ n hn
  cases ρ with
  | nil =>
      obtain rfl : node k v (pre ++ post) = n := by simpa using hn
      exact ⟨_, rfl, hv⟩
  | cons b ρ =>
      by_cases hb : b = c.name
      · subst hb
        rw [find_node_eq_none hnew] at hn
        cases hn
      · refine ⟨n, ?_, hR _⟩
        rw [find_node_insert_ne hb]
        exact hn

end Find

end NamedTree
