/-
  Tclm.Server.Structure

  The shape of the forest, and where requests wait.

  Every root is stored under its name, siblings have different names, and no lock
  disappears.  A request waits at the lock that its path leads to: `current_level` is
  the depth of this lock, and the path starts with the names on the way there.
-/

import Tclm.Server.Attempts

namespace Tclm.Server

namespace LockForest

open LockState (steady_true)

/-- All locks of `f` are locks of `f'`. -/
def Keeps (f f' : LockForest) : Prop := Extends (fun _ _ => True) f f'

theorem Keeps.refl (f : LockForest) : Keeps f f := Extends.refl (fun _ => trivial) f

theorem Keeps.trans {f f' f'' : LockForest} (h : Keeps f f') (h' : Keeps f' f'') : Keeps f f'' :=
  Extends.trans h h' fun _ _ _ _ _ => trivial

theorem Enters.keeps {f f' : LockForest} {r r' : LockRequest} {ret : AcquireStatus} {c : LockName}
    {l l' : Lock} (h : Enters f r ret f' c l l' r') : Keeps f f' :=
  h.updates.extends (fun _ => trivial) (h.acquires.extends steady_true)

theorem Leaves.keeps {f f' : LockForest} {p : ProcessRef} {mode : UInt8} {path rest : LockPath}
    {ret : ReleaseStatus} {as : List LockRequest} {c : LockName} {l l' : Lock}
    (h : Leaves f p mode path ret f' as c rest l l') : Keeps f f' :=
  h.updates.extends (fun _ => trivial)
    (h.releases.extends steady_true (fun _ => trivial) fun _ => trivial)

end LockForest

/-- The request waits at a lock that is reached through the given names. -/
structure LockRequest.WaitsAt (r : LockRequest) (names : List LockName) : Prop where
  /-- The lock is at depth `current_level`. -/
  depth : r.currentLevel + 1 = names.length
  /-- `current_level <= level`, which is `path->size () - 1` -/
  level : r.path ≠ [] ∧ r.currentLevel ≤ r.path.length - 1
  status : r.acquireStatus = .queued
  names : r.path.take (r.currentLevel + 1) = names
  /-- A request that may create locks is for mode X, and has created none. -/
  create : r.createMissing = true → r.mode = Mode.X.toByte ∧ r.lockCreated = false

namespace Backend

theorem Move.keeps {b b' : Backend} {op : Op} {res : Result} {answered : Finset LockRequest}
    (h : Move b op res answered b') : b.forest.Keeps b'.forest := by
  cases h with
  | idle | tick | register => exact LockForest.Keeps.refl _
  | enter _ _ _ henter => exact henter.keeps
  | add hp hl =>
      exact (LockForest.updates_setRoot hl _).extends (fun _ => trivial)
        ((LockForest.createNotHeld_adds ..).extends fun _ => trivial)
  | release _ hleave => exact hleave.keeps

theorem Step.keeps {b b' : Backend} {e : Event} (h : Step b e b') : b.forest.Keeps b'.forest :=
  Step.invariant (fun b₁ => b.forest.Keeps b₁.forest) h (LockForest.Keeps.refl _)
    (fun _ hb hmove => hb.trans hmove.keeps) fun _ _ _ hb => hb

/-- Whatever happens afterwards, every lock stays. -/
theorem keeps_of_run {b b' : Backend} (h : Lts.Reachable Step b b') : b.forest.Keeps b'.forest :=
  h.invariant (fun b₁ => b.forest.Keeps b₁.forest) (LockForest.Keeps.refl _)
    fun hb hstep => hb.trans hstep.keeps

/-- A request in the queue of a lock waits at this lock. -/
theorem Reachable.waitsAt {b : Backend} (h : Reachable b) {c : LockName} {l n : Lock}
    {names : List LockName} (hl : b.forest.roots.lookup c = some l)
    (hline : NamedTree.Line l names n) {r : LockRequest} (hr : r ∈ n.val.lockRequests) :
    r.WaitsAt names := by
  have hmem : (names, n) ∈ NamedTree.nodes [c] l := by
    have := hline.mem_nodes []
    rwa [List.nil_append, List.nil_append, h.roots_named c l hl] at this
  obtain ⟨hat, hstatus, hcreate⟩ := h.forest_sound.seats c l hl _ hmem r hr
  have hlen : r.currentLevel + 1 = names.length := hat.level
  have hpath : r.path = names ++ r.remaining := hat.path
  have hsize := congrArg List.length hpath
  rw [List.length_append] at hsize
  refine ⟨hlen, ⟨fun hnil => ?_, by omega⟩, hstatus, ?_, fun hmay => ⟨hcreate hmay, ?_⟩⟩
  · rw [hnil, List.length_nil] at hsize
    omega
  · rw [hlen, hpath, List.take_left]
  · exact h.unmarked c l hl _ hmem r hr hmay

/-- The shape of the forest and the places of the waiting requests. -/
theorem structure_of_reachable {b : Backend} (h : Reachable b) :
    b.forest.RootsNamed ∧
    (∀ x ∈ b.forest.nodes, (x.2.children.map NamedTree.name).Nodup) ∧
    (∀ b', Lts.Reachable Step b b' → ∀ path, b.forest.node? path ≠ none →
      b'.forest.node? path ≠ none) ∧
    ∀ c l, b.forest.roots.lookup c = some l → ∀ names n, NamedTree.Line l names n →
      ∀ r ∈ n.val.lockRequests, r.WaitsAt names := by
  refine ⟨h.roots_named, fun x hx => ?_, fun b' hrun path hnode => ?_,
    fun c l hl names n hline r hr => h.waitsAt hl hline hr⟩
  · obtain ⟨c, l, hl, hx⟩ := LockForest.mem_nodes.mp hx
    exact h.forest_sound.unique c l hl x hx
  · intro hnone
    exact hnode (LockForest.Extends.node?_eq_none (keeps_of_run hrun) hnone)

/-- Process 1 wants to create `a.b` and waits at `a`. -/
theorem structure_of_reachable_creating :
    ∃ l r, (after 1 creating).forest.roots.lookup [0x61] = some l ∧ r ∈ l.val.lockRequests ∧
      r.WaitsAt [l.name] := by
  have hrun : ((after 1 creating).forest.roots.lookup [0x61]).any
      (fun l => decide (l.val.lockRequests ≠ [])) = true := by decide +kernel
  obtain ⟨l, hl, hne⟩ := (Option.any_eq_true _ _).mp hrun
  obtain ⟨r, hr⟩ := List.exists_mem_of_ne_nil _ (of_decide_eq_true hne)
  exact ⟨l, r, hl, hr, (structure_of_reachable (reachable_after 1 creating)).2.2.2 _ l hl _ l
    (.here l) r hr⟩

end Backend

end Tclm.Server
