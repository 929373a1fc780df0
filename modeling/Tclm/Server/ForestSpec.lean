/-
  Tclm.Server.ForestSpec

  The operations of `Lock_Forest` in terms of the operations on one tree.

  An operation works on the tree of one root and leaves the others alone
  (`Updates`).  `Enters` is an acquiring call that reached a tree, `Leaves` a
  releasing one; locks created without being acquired are `Lock.Adds`.  What the
  previous modules show for trees carries over to the forest through these.
-/

import Tclm.Server.Growth
import Tclm.Server.LockForest

namespace Tclm.Server

namespace LockForest

open NamedTree (find)

-- ============================================================================
-- The forest as a collection of trees
-- ============================================================================

/-- Every lock with its address. -/
def nodes (f : LockForest) : List (LockPath × Lock) :=
  f.roots.entries.flatMap fun e => NamedTree.nodes [e.1] e.2

/-- Every lock of the forest has the property. -/
def All (P : LockPath → LockState → Prop) (f : LockForest) : Prop :=
  ∀ c l, f.roots.lookup c = some l → Lock.All P [c] l

/-- Every lock is related to the claims strictly below it. -/
def Accounted (R : LockState → Multiset Claim → Prop) (f : LockForest) : Prop :=
  ∀ c l, f.roots.lookup c = some l → Lock.Accounted R [c] l

/-- Every lock covers the claims strictly below it. -/
def Covered (f : LockForest) : Prop := f.Accounted LockState.Covers

/-- The weight of the whole forest. -/
def weigh {M : Type} [AddCommMonoid M] (w : Weights M) (f : LockForest) : M :=
  (f.roots.entries.map fun e => Lock.weigh w [e.1] e.2).sum

theorem mem_nodes {f : LockForest} {x : LockPath × Lock} :
    x ∈ f.nodes ↔ ∃ c l, f.roots.lookup c = some l ∧ x ∈ NamedTree.nodes [c] l := by
  simp only [nodes, List.mem_flatMap, Prod.exists, SortedMap.lookup_eq_some]

theorem weigh_eq_sum {M : Type} [AddCommMonoid M] (w : Weights M) (f : LockForest) :
    f.weigh w = (f.nodes.map fun x => x.2.val.weigh w x.1).sum := by
  rw [weigh, nodes]
  induction f.roots.entries with
  | nil => rfl
  | cons e es ih =>
      rw [List.map_cons, List.sum_cons, List.flatMap_cons, List.map_append, List.sum_append, ih]
      rfl

theorem all_iff {P : LockPath → LockState → Prop} {f : LockForest} :
    f.All P ↔ ∀ x ∈ f.nodes, P x.1 x.2.val := by
  constructor
  · intro h x hx
    obtain ⟨c, l, hl, hx⟩ := mem_nodes.mp hx
    exact h c l hl x hx
  · intro h c l hl x hx
    exact h x (mem_nodes.mpr ⟨c, l, hl, hx⟩)

/-- A lock that is named by a path is a lock of the forest. -/
theorem mem_nodes_of_node? {f : LockForest} {path : LockPath} {n : Lock}
    (h : f.node? path = some n) : (path, n) ∈ f.nodes := by
  cases path with
  | nil => cases h
  | cons c rest =>
      obtain ⟨l, hl, hn⟩ := Option.bind_eq_some_iff.mp h
      exact mem_nodes.mpr ⟨c, l, hl, NamedTree.mem_nodes_of_find (π := [c]) hn⟩

/-- Writing back the tree that is there changes nothing. -/
theorem setRoot_self {f : LockForest} {c : LockName} {l : Lock} (hl : f.roots.lookup c = some l) :
    f.setRoot c l = f := by
  rw [setRoot, SortedMap.set_self hl]

/-- The tree at the root `c` changes from `l` to `l'`; it may be a new one. -/
structure Updates (f f' : LockForest) (c : LockName) (l l' : Lock) : Prop where
  before : f.roots.lookup c = some l ∨ f.roots.lookup c = none ∧ l = Lock.new c
  after : f'.roots.lookup c = some l'
  other : ∀ d, d ≠ c → f'.roots.lookup d = f.roots.lookup d
  weigh : ∀ {M : Type} [AddCommMonoid M] (w : Weights M),
    f'.weigh w + Lock.weigh w [c] l = f.weigh w + Lock.weigh w [c] l'

theorem updates_setRoot {f : LockForest} {c : LockName} {l : Lock}
    (h : f.roots.lookup c = some l) (l' : Lock) : Updates f (f.setRoot c l') c l l' where
  before := Or.inl h
  after := SortedMap.lookup_set_self h
  other _ hd := SortedMap.lookup_set_ne hd
  weigh w := by
    obtain ⟨pre, post, hf, hf'⟩ := SortedMap.set_split h l'
    simp only [LockForest.weigh, setRoot, hf, hf', List.map_append, List.map_cons, List.sum_append,
      List.sum_cons]
    ac_rfl

theorem updates_insert {f : LockForest} {c : LockName} (h : f.roots.lookup c = none) (l' : Lock) :
    Updates f (setRoot ⟨f.roots.insert (c, Lock.new c)⟩ c l') c (Lock.new c) l' := by
  have hnew : SortedMap.lookup (f.roots.insert (c, Lock.new c)) c = some (Lock.new c) :=
    SortedMap.lookup_insert_self h
  have hset := updates_setRoot (f := ⟨f.roots.insert (c, Lock.new c)⟩) hnew l'
  refine ⟨Or.inr ⟨h, rfl⟩, hset.after, fun d hd => ?_, fun w => ?_⟩
  · rw [hset.other d hd]
    exact SortedMap.lookup_insert_ne h hd
  · have hperm := SortedList.insert_perm (a := (c, Lock.new c)) (SortedMap.lookup_eq_none.mp h)
    have hsum : LockForest.weigh w ⟨f.roots.insert (c, Lock.new c)⟩ = f.weigh w := by
      rw [LockForest.weigh, (hperm.map _).sum_eq, List.map_cons, List.sum_cons, Lock.weigh_new,
        zero_add]
      rfl
    rw [hset.weigh w, hsum]

section

variable {f f' : LockForest} {c : LockName} {l l' : Lock}

/-- What holds of every tree is kept if it is kept for the tree that changes. -/
theorem Updates.trees {T : LockPath → Lock → Prop} (h : Updates f f' c l l')
    (hf : ∀ d t, f.roots.lookup d = some t → T [d] t)
    (hnew : f.roots.lookup c = none → T [c] (Lock.new c)) (hstep : T [c] l → T [c] l') :
    ∀ d t, f'.roots.lookup d = some t → T [d] t := by
  intro d t ht
  by_cases hd : d = c
  · subst hd
    obtain rfl : l' = t := Option.some.inj (h.after.symm.trans ht)
    rcases h.before with hl | ⟨hnone, rfl⟩
    · exact hstep (hf d l hl)
    · exact hstep (hnew hnone)
  · exact hf d t (by rw [← h.other d hd]; exact ht)

/-- Paths through other roots are not affected. -/
theorem Updates.node?_ne (h : Updates f f' c l l') {d : LockName} {ρ : LockPath} (hd : d ≠ c) :
    f'.node? (d :: ρ) = f.node? (d :: ρ) := by
  simp only [node?, h.other d hd]

theorem Updates.node?_after (h : Updates f f' c l l') {ρ : LockPath} :
    f'.node? (c :: ρ) = find ρ l' := by
  simp only [node?, h.after, Option.bind_some]

/-- Before the update the path leads into the old tree, unless that is fresh. -/
theorem Updates.node?_before (h : Updates f f' c l l') {ρ : LockPath} {n : Lock}
    (hn : f.node? (c :: ρ) = some n) : find ρ l = some n := by
  rcases h.before with hl | ⟨hl, rfl⟩
  · simpa only [node?, hl, Option.bind_some] using hn
  · simp [node?, hl] at hn

end

/-- Every lock of `f` is a lock of `f'`, in a related state. -/
def Extends (R : LockState → LockState → Prop) (f f' : LockForest) : Prop :=
  ∀ path n, f.node? path = some n → ∃ n', f'.node? path = some n' ∧ R n.val n'.val

theorem Extends.refl {R : LockState → LockState → Prop} (hR : ∀ s, R s s) (f : LockForest) :
    Extends R f f := fun _ n hn => ⟨n, hn, hR _⟩

theorem Extends.trans {R : LockState → LockState → Prop} {f f' f'' : LockForest}
    (h : Extends R f f') (h' : Extends R f' f'') (hR : ∀ a b c, R a b → R b c → R a c) :
    Extends R f f'' := by
  intro path n hn
  obtain ⟨n', hn', hab⟩ := h path n hn
  obtain ⟨n'', hn'', hbc⟩ := h' path n' hn'
  exact ⟨n'', hn'', hR _ _ _ hab hbc⟩

theorem Extends.node?_eq_none {R : LockState → LockState → Prop} {f f' : LockForest}
    {path : LockPath} (h : Extends R f f') (hnone : f'.node? path = none) :
    f.node? path = none := by
  cases hn : f.node? path with
  | none => rfl
  | some n =>
      obtain ⟨n', hn', -⟩ := h path n hn
      rw [hn'] at hnone
      cases hnone

theorem Updates.extends {R : LockState → LockState → Prop} {f f' : LockForest} {c : LockName}
    {l l' : Lock} (h : Updates f f' c l l') (hR : ∀ s, R s s)
    (hl : NamedTree.Extends R l l') : Extends R f f' := by
  intro path n hn
  cases path with
  | nil => cases hn
  | cons d ρ =>
      by_cases hd : d = c
      · subst hd
        rw [h.node?_after]
        exact hl ρ n (h.node?_before hn)
      · exact ⟨n, by rw [h.node?_ne hd]; exact hn, hR _⟩

-- ============================================================================
-- Calls that reach a tree
-- ============================================================================

/-- The call acquires in the tree of the root on the path. -/
structure Enters (f : LockForest) (r : LockRequest) (ret : AcquireStatus) (f' : LockForest)
    (c : LockName) (l l' : Lock) (r' : LockRequest) : Prop where
  at_root : r.At [c] r.remaining
  updates : Updates f f' c l l'
  acquires : Lock.Acquires r.remaining l r true ret l' r'

/-- The call releases in the tree of the root on the path. -/
structure Leaves (f : LockForest) (p : ProcessRef) (mode : UInt8) (path : LockPath)
    (ret : ReleaseStatus) (f' : LockForest) (as : List LockRequest) (c : LockName) (rest : LockPath)
    (l l' : Lock) : Prop where
  path_eq : path = c :: rest
  lookup : f.roots.lookup c = some l
  result : f' = f.setRoot c l'
  releases : Lock.Releases p mode rest l ret l' as

theorem Leaves.updates {f f' : LockForest} {p : ProcessRef} {mode : UInt8} {path rest : LockPath}
    {ret : ReleaseStatus} {as : List LockRequest} {c : LockName} {l l' : Lock}
    (h : Leaves f p mode path ret f' as c rest l l') : Updates f f' c l l' := by
  rw [h.result]
  exact updates_setRoot h.lookup l'

/-- A request that starts at its root. -/
theorem at_root {r : LockRequest} {c : LockName} {rest : LockPath} (hpath : r.path = c :: rest)
    (hlevel : r.currentLevel = 0) : r.At [c] r.remaining := by
  have hat : r.At [c] rest := ⟨by simpa using hpath, by simp [hlevel]⟩
  rw [hat.remaining]
  exact hat

/-- The `Lock_Request` that `Lock_Forest::acquire` makes. -/
def acquireRequest (address : Nat) (p : Process) (pathStr : PathString) (mode : UInt8) :
    LockRequest :=
  { address, mode, requester := p.object, path := splitPath pathStr }

/-- The `Lock_Request` that `Lock_Forest::create` makes. -/
def createRequest (address : Nat) (p : Process) (pathStr : PathString) : LockRequest :=
  { address, mode := Mode.X.toByte, requester := p.object, path := splitPath pathStr,
    createMissing := true }

/-- A request that starts at its root has the rest of its path below it. -/
theorem remaining_of_start {r : LockRequest} {s : PathString} (hpath : r.path = splitPath s)
    (hlevel : r.currentLevel = 0) : r.remaining = (splitPath s).tail := by
  rw [LockRequest.remaining, hpath, hlevel, List.drop_one]

/-- `Lock_Forest::acquire` returns `NON_EXISTENT` at once, or acquires in a tree. -/
theorem acquire_spec (f : LockForest) (address : Nat) (p : Process) (pathStr : PathString)
    (mode : UInt8) :
    (f.roots.lookup (rootName pathStr) = none ∧
      f.acquire address p pathStr mode = .ok (.nonExistent, f, p)) ∨
    ∃ ret l l' r', f.roots.lookup (rootName pathStr) = some l ∧
      Enters f (acquireRequest address p pathStr mode) ret (f.setRoot (rootName pathStr) l')
        (rootName pathStr) l l' r' ∧
      f.acquire address p pathStr mode =
        .ok (ret, f.setRoot (rootName pathStr) l',
          if ret = .nonExistent then p else p.addHeldLock pathStr mode) := by
  cases hl : f.roots.lookup (rootName pathStr) with
  | none => exact Or.inl ⟨rfl, by simp [acquire, hl]⟩
  | some l =>
      refine Or.inr ?_
      obtain ⟨ret, l', r', hrun, hacq⟩ := Lock.acquire_spec
        (acquireRequest address p pathStr mode).remaining l (acquireRequest address p pathStr mode)
        true
      have hat := at_root (r := acquireRequest address p pathStr mode) (splitPath_eq pathStr) rfl
      refine ⟨ret, l, l', r', rfl, ⟨hat, updates_setRoot hl l', hacq⟩, ?_⟩
      rw [acquireRequest] at hrun
      simp [acquire, hl, hrun, bind, Except.bind]

/-- `Lock_Forest::create` with `acquire_X` acquires in the tree of the root, or in a new one
    with `lock_created` set; it does not fail. -/
theorem create_acquire_cases (f : LockForest) (address : Nat) (p : Process)
    (pathStr : PathString) :
    ∃ r ret f' l l' r',
      ((f.roots.lookup (rootName pathStr) = some l ∧ r = createRequest address p pathStr) ∨
        (f.roots.lookup (rootName pathStr) = none ∧ l = Lock.new (rootName pathStr) ∧
          r = (createRequest address p pathStr).markCreated)) ∧
      Enters f r ret f' (rootName pathStr) l l' r' ∧ ret ≠ .nonExistent ∧
      f.create address p pathStr true =
        .ok (if ret = .queued then .queued else if r'.lockCreated then .created else .exists, f',
          p.addHeldLock pathStr Mode.X.toByte) := by
  have hrun : ∀ (r : LockRequest) (l : Lock), r.createMissing = true →
      ∃ ret l' r', Lock.acquire r.remaining l r true = .ok (ret, l', r') ∧
        Lock.Acquires r.remaining l r true ret l' r' ∧ ret ≠ .nonExistent := by
    intro r l hcreate
    obtain ⟨ret, l', r', hrun, hacq⟩ := Lock.acquire_spec r.remaining l r true
    refine ⟨ret, l', r', hrun, hacq, fun hret => ?_⟩
    have hnot := hacq.createMissing_eq_false hret
    rw [hcreate] at hnot
    cases hnot
  cases hl : f.roots.lookup (rootName pathStr) with
  | some l =>
      obtain ⟨ret, l', r', hrun, hacq, hret⟩ := hrun (createRequest address p pathStr) l rfl
      have hat := at_root (r := createRequest address p pathStr) (splitPath_eq pathStr) rfl
      refine ⟨_, ret, _, l, l', r', Or.inl ⟨rfl, rfl⟩, ⟨hat, updates_setRoot hl l', hacq⟩, hret, ?_⟩
      rw [createRequest] at hrun
      cases ret with
      | acquired => simp [create, hl, hrun, bind, Except.bind]
      | queued => simp [create, hl, hrun, bind, Except.bind]
      | nonExistent => exact absurd rfl hret
  | none =>
      obtain ⟨ret, l', r', hrun, hacq, hret⟩ := hrun (createRequest address p pathStr).markCreated
        (Lock.new (rootName pathStr)) rfl
      have hat := at_root (r := (createRequest address p pathStr).markCreated)
        (splitPath_eq pathStr) rfl
      refine ⟨_, ret, _, _, l', r', Or.inr ⟨rfl, rfl, rfl⟩, ⟨hat, updates_insert hl l', hacq⟩, hret, ?_⟩
      rw [createRequest] at hrun
      cases ret with
      | acquired => simp [create, hl, hrun, bind, Except.bind]
      | queued => simp [create, hl, hrun, bind, Except.bind]
      | nonExistent => exact absurd rfl hret

/-- The same without the two cases. -/
theorem create_acquire_spec (f : LockForest) (address : Nat) (p : Process)
    (pathStr : PathString) :
    ∃ r ret f' l l' r', Lock.SameRequest (createRequest address p pathStr) r ∧
      Enters f r ret f' (rootName pathStr) l l' r' ∧ ret ≠ .nonExistent ∧
      f.create address p pathStr true =
        .ok (if ret = .queued then .queued else if r'.lockCreated then .created else .exists, f',
          p.addHeldLock pathStr Mode.X.toByte) := by
  obtain ⟨r, ret, f', l, l', r', hcase, henter, hret, hrun⟩ := f.create_acquire_cases address p pathStr
  refine ⟨r, ret, f', l, l', r', ?_, henter, hret, hrun⟩
  rcases hcase with ⟨-, rfl⟩ | ⟨-, -, rfl⟩
  · exact .refl _
  · exact .markCreated _

/-- `create_not_held` makes no request, so nothing is queued. -/
theorem createBelow_ne_queued (p : ProcessRef) (path : LockPath) (l : Lock) (ensured : Bool) :
    (Lock.createBelow p path l ensured).1 ≠ .queued := by
  induction path generalizing l ensured with
  | nil => cases l; simp [Lock.createBelow]
  | cons c rest ih =>
      cases l with
      | node k s cs =>
          simp only [Lock.createBelow]
          cases Lock.splitChild c cs with
          | some split =>
              dsimp only
              split
              · split <;> simp
              · exact ih _ _
          | none =>
              dsimp only
              split
              · simp
              · split
                · simp
                · exact ih _ _

theorem createNotHeld_ne_queued (p : ProcessRef) (path : LockPath) (l : Lock) :
    (Lock.createNotHeld p path l).1 ≠ .queued := by
  unfold Lock.createNotHeld
  split
  · simp
  · dsimp only
    split
    · split <;> simp
    · exact createBelow_ne_queued _ _ _ _

/-- `Lock_Forest::create` without `acquire_X` may add locks to a tree. -/
theorem create_notHeld_spec (f : LockForest) (address : Nat) (p : Process)
    (pathStr : PathString) :
    ∃ ret f', ret ≠ .queued ∧ f.create address p pathStr false = .ok (ret, f', p) ∧
      (f' = f ∨ ∃ l, f.roots.lookup (rootName pathStr) = some l ∧
        f' = f.setRoot (rootName pathStr)
          (Lock.createNotHeld p.object (splitPath pathStr) l).2) := by
  cases hl : f.roots.lookup (rootName pathStr) with
  | none => exact ⟨.parentNotHeld, f, by simp, by simp [create, hl], Or.inl rfl⟩
  | some l =>
      refine ⟨_, _, createNotHeld_ne_queued p.object (splitPath pathStr) l, ?_, Or.inr ⟨l, rfl, rfl⟩⟩
      simp [create, hl]

theorem create_ok (f : LockForest) (address : Nat) (p : Process) (pathStr : PathString)
    (acquireX : Bool) : ∃ x, f.create address p pathStr acquireX = .ok x := by
  cases acquireX with
  | true =>
      obtain ⟨r, ret, f', l, l', r', -, -, -, hrun⟩ := f.create_acquire_spec address p pathStr
      exact ⟨_, hrun⟩
  | false =>
      obtain ⟨ret, f', -, hrun, -⟩ := f.create_notHeld_spec address p pathStr
      exact ⟨_, hrun⟩

/-- A returning call of `Lock_Forest::release` finds no tree, or releases in one. -/
theorem release_spec {f f' : LockForest} {p p' : Process} {pathStr : PathString} {mode : UInt8}
    {ret : ReleaseStatus} {answered : Finset LockRequest}
    (h : f.release p pathStr mode = .ok (ret, f', p', answered)) :
    p' = (if ret = .success then p.removeHeldLock pathStr mode else p) ∧
      ((f.roots.lookup (rootName pathStr) = none ∧ ret = .notHeld ∧ f' = f ∧ answered = ∅) ∨
        ∃ as l l', answered = as.toFinset ∧
          Leaves f p.object mode (splitPath pathStr) ret f' as (rootName pathStr)
            (splitPath pathStr).tail l l') := by
  cases hl : f.roots.lookup (rootName pathStr) with
  | none =>
      simp only [release, hl] at h
      cases h
      exact ⟨rfl, Or.inl ⟨rfl, rfl, rfl, rfl⟩⟩
  | some l =>
      simp only [release, hl] at h
      obtain ⟨⟨ret₁, l', answered₁⟩, hrun, h⟩ := bind_eq_ok.mp h
      cases h
      obtain ⟨as, rfl, hrel⟩ := Lock.releases_of_ok hrun
      exact ⟨rfl, Or.inr ⟨as, l, l', rfl, splitPath_eq pathStr, hl, rfl, hrel⟩⟩

/-- What `release` finds on the path. -/
def seek (f : LockForest) (p : ProcessRef) (mode : UInt8) : LockPath → Found
  | [] => .nothing
  | c :: rest =>
      match f.roots.lookup c with
      | some l => Lock.seek p mode rest l
      | none => .nothing

theorem seek_of_lookup {f : LockForest} {p : ProcessRef} {mode : UInt8} {c : LockName}
    {rest : LockPath} {l : Lock} (hl : f.roots.lookup c = some l) :
    f.seek p mode (c :: rest) = Lock.seek p mode rest l := by
  simp only [seek, hl]

/-- An entering call adds the weight of the lock it grants or the request it queues. -/
theorem Enters.weigh_eq {M : Type} [AddCancelCommMonoid M] {w : Weights M} {f f' : LockForest}
    {r r' : LockRequest} {ret : AcquireStatus} {c : LockName} {l l' : Lock}
    (h : Enters f r ret f' c l l' r') : f'.weigh w = Lock.entry w ret r + f.weigh w := by
  have htree := h.acquires.weigh_eq (w := w) h.at_root (Or.inl rfl)
  have hforest := h.updates.weigh w
  rw [htree, ← add_assoc] at hforest
  rw [add_right_cancel hforest, add_comm]

/-- What a successful leaving call finds, it removes. -/
theorem Leaves.weigh_eq {f f' : LockForest} {p : ProcessRef} {mode : UInt8}
    {path rest : LockPath} {as : List LockRequest} {c : LockName} {l l' : Lock}
    {good : LockRequest → Prop} (h : Leaves f p mode path .success f' as c rest l l')
    (hseats : f.All (LockState.Seats good)) :
    ∃ x, Lock.Finds p mode [c] rest l x ∧ ∀ {M : Type} [AddCancelCommMonoid M] (w : Weights M),
      f.weigh w + Lock.gained w as = x.weight w + f'.weigh w + Lock.spent w as := by
  obtain ⟨x, hx, hrun⟩ := h.releases.weigh_eq rfl (hseats c l h.lookup)
  refine ⟨x, hx, ?_⟩
  intro M _ w
  have htree := hrun w
  have hforest := h.updates.weigh w
  refine add_right_cancel (b := Lock.weigh w [c] l') ?_
  calc f.weigh w + Lock.gained w as + Lock.weigh w [c] l'
      = f.weigh w + Lock.weigh w [c] l' + Lock.gained w as := add_right_comm ..
    _ = f'.weigh w + (Lock.weigh w [c] l + Lock.gained w as) := by rw [← hforest, add_assoc]
    _ = x.weight w + f'.weigh w + Lock.spent w as + Lock.weigh w [c] l' := by
        rw [htree]
        ac_rfl

-- ============================================================================
-- Properties of single locks
-- ============================================================================

theorem all_empty {P : LockPath → LockState → Prop} : empty.All P := by
  intro c l hl
  cases hl

section

variable {f f' : LockForest} {c : LockName} {l l' : Lock} {good : LockRequest → Prop}
  {P Q : LockPath → LockState → Prop}

theorem Enters.all {r r' : LockRequest} {ret : AcquireStatus} (h : Enters f r ret f' c l l' r')
    (rule : LocalRule good P) (hgood : good r) (hf : f.All P) : f'.All P :=
  h.updates.trees hf (fun _ => Lock.all_new c (rule.fresh [c]))
    fun hl => h.acquires.all rule hgood h.at_root hl

theorem Leaves.all {p : ProcessRef} {mode : UInt8} {path rest : LockPath} {ret : ReleaseStatus}
    {as : List LockRequest} (h : Leaves f p mode path ret f' as c rest l l')
    (rule : ReleaseRule good p mode P Q)
    (hcancel : ∀ {ρ rest' n s'}, rest = ρ ++ rest' → find ρ l = some n →
      Lock.NotReleased p mode rest' n → n.val.cancel p mode = some s' → P (c :: ρ) n.val →
      P (c :: ρ) s')
    (hseats : f.All (LockState.Seats good)) (hf : f.All P) : f'.All P :=
  h.updates.trees hf (fun _ => Lock.all_new c (rule.stable.fresh [c]))
    fun hl => h.releases.all rule hcancel (hseats c l h.lookup) hl

theorem Leaves.seats {p : ProcessRef} {mode : UInt8} {path rest : LockPath} {ret : ReleaseStatus}
    {as : List LockRequest} (h : Leaves f p mode path ret f' as c rest l l')
    (hgood : Intrinsic good) (hf : f.All (LockState.Seats good)) : f'.All (LockState.Seats good) :=
  h.updates.trees hf (fun _ => Lock.all_new c ((seats_rule hgood).fresh [c]))
    fun hl => h.releases.seats hgood hl

theorem Updates.all_of_adds (h : Updates f f' c l l') (hadds : Lock.Adds l l')
    (hfresh : ∀ ρ, P ρ {}) (hf : f.All P) : f'.All P :=
  h.trees hf (fun _ => Lock.all_new c (hfresh [c])) fun hl => hadds.all hfresh hl

end

-- ============================================================================
-- Accounts of intent locks
-- ============================================================================

theorem accounted_empty {R : LockState → Multiset Claim → Prop} : empty.Accounted R := by
  intro c l hl
  cases hl

section

variable {f f' : LockForest} {c : LockName} {l l' : Lock} {lose : Claim → Prop}
  {R : LockState → Multiset Claim → Prop}

theorem Enters.accounted {r r' : LockRequest} {ret : AcquireStatus}
    (h : Enters f r ret f' c l l' r') (rule : IntentRule lose R) (hf : f.Accounted R) :
    f'.Accounted R :=
  h.updates.trees hf (fun _ => Lock.accounted_new rule _ _) fun hl =>
    h.acquires.accounted rule h.at_root hl

theorem Leaves.accounted {p : ProcessRef} {mode : UInt8} {path rest : LockPath}
    {ret : ReleaseStatus} {as : List LockRequest} {good : LockRequest → Prop}
    (h : Leaves f p mode path ret f' as c rest l l') (rule : IntentRule lose R)
    (hlost : ∀ c ∈ Lock.lost as, c ∈ Lock.pendingBelow rest l → lose c)
    (hseats : f.All (LockState.Seats good)) (hf : f.Accounted R) : f'.Accounted R :=
  h.updates.trees hf (fun _ => Lock.accounted_new rule _ _)
    fun hl => h.releases.accounted rule hlost (hseats c l h.lookup) hl

theorem Updates.accounted_of_adds (h : Updates f f' c l l') (hadds : Lock.Adds l l')
    (rule : IntentRule lose R) (hf : f.Accounted R) : f'.Accounted R :=
  h.trees hf (fun _ => Lock.accounted_new rule _ _) fun hl => hadds.accounted rule hl

end

-- ============================================================================
-- Sound forests
-- ============================================================================

/-- What is true of the forest in every reachable state, seen from the locks alone. -/
structure Sound (f : LockForest) : Prop where
  seats : f.All (LockState.Seats LockRequest.CreatesInX)
  compat : f.All fun _ s => s.Compat
  covered : f.Covered
  unique : ∀ c l, f.roots.lookup c = some l → NamedTree.UniqueNames [c] l

theorem sound_empty : empty.Sound :=
  ⟨all_empty, all_empty, accounted_empty, fun c l hl => by cases hl⟩

section

variable {f f' : LockForest} {c : LockName} {l l' : Lock}

theorem Enters.sound {r r' : LockRequest} {ret : AcquireStatus} (h : Enters f r ret f' c l l' r')
    (hcreate : r.CreatesInX) (hf : f.Sound) : f'.Sound where
  seats := h.all (seats_rule intrinsic_createsInX) hcreate hf.seats
  compat := h.all (compat_rule intrinsic_createsInX) hcreate hf.compat
  covered := h.accounted covers_rule hf.covered
  unique := h.updates.trees hf.unique (fun _ => Lock.uniqueNames_new _ _)
    fun hl => h.acquires.uniqueNames hl

theorem Leaves.sound {p : ProcessRef} {mode : UInt8} {path rest : LockPath} {ret : ReleaseStatus}
    {as : List LockRequest} (h : Leaves f p mode path ret f' as c rest l l') (hf : f.Sound) :
    f'.Sound where
  seats := h.seats intrinsic_createsInX hf.seats
  compat := h.all (compat_releaseRule intrinsic_createsInX p mode) (fun _ _ _ hc hP => hP.cancel hc)
    hf.seats hf.compat
  covered := h.accounted covers_rule (fun _ _ _ => trivial) hf.seats hf.covered
  unique := h.updates.trees hf.unique (fun _ => Lock.uniqueNames_new _ _)
    fun hl => h.releases.uniqueNames hl

theorem Updates.sound_of_adds (h : Updates f f' c l l') (hadds : Lock.Adds l l') (hf : f.Sound) :
    f'.Sound where
  seats := h.all_of_adds hadds (seats_rule intrinsic_createsInX).fresh hf.seats
  compat := h.all_of_adds hadds (fun _ => LockState.compat_empty) hf.compat
  covered := h.accounted_of_adds hadds covers_rule hf.covered
  unique := h.trees hf.unique (fun _ => Lock.uniqueNames_new _ _) fun hl => hadds.uniqueNames hl

end

theorem createNotHeld_adds (p : ProcessRef) (path : LockPath) (l : Lock) :
    Lock.Adds l (Lock.createNotHeld p path l).2 := by
  unfold Lock.createNotHeld
  split
  · exact .refl l
  · split
    · exact .refl l
    · exact Lock.createBelow_adds ..

/-- `create_not_held` creates locks only below one that the process holds in X. -/
theorem createNotHeld_new_lock {p : ProcessRef} {path τ : LockPath} {l : Lock}
    (hnew : Lock.NewIn l (Lock.createNotHeld p path l).2 τ) : Lock.OwnsAbove p l τ := by
  unfold Lock.createNotHeld at hnew
  split at hnew
  · exact absurd hnew.1 hnew.2
  · dsimp only at hnew
    split at hnew
    · exact absurd hnew.1 hnew.2
    · rcases Lock.createBelow_new_lock hnew with hroot | howns
      · exact ⟨[], l, List.nil_prefix, rfl, of_decide_eq_true hroot⟩
      · exact howns

/-- In a sound forest `release` returns. -/
theorem Sound.release_ok {f : LockForest} (hf : f.Sound) (p : Process) (pathStr : PathString)
    (mode : UInt8) : ∃ x, f.release p pathStr mode = .ok x := by
  cases hl : f.roots.lookup (rootName pathStr) with
  | none => exact ⟨_, by simp only [release, hl]; rfl⟩
  | some l =>
      have htotal : ∃ ret l' answered,
          Lock.release p.object mode (splitPath pathStr).tail l = .ok (ret, l', answered) :=
        Lock.release_total p.object mode (hf.seats _ l hl) (hf.covered _ l hl)
      obtain ⟨ret, l', answered, hrun⟩ := htotal
      exact ⟨_, by simp only [release, hl, hrun]; rfl⟩

end LockForest

end Tclm.Server
