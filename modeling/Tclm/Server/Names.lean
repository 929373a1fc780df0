/-
  Tclm.Server.Names

  Where the names of locks come from.

  A new lock gets its name from the path of a request, and a request stands in a queue
  with the path of the operation that made it.  So what is true of every component of
  every requested path is true of every name in the forest.  Every message has a 16-bit
  field for the length of its path: names, queued paths and held paths are short
  (`Backend.Short`), and stay so as long as operations come with short paths.
-/

import Tclm.Server.Creation
import Tclm.Server.Paths

open Tclm.Comm (maxPathLength)

namespace Tclm.Server

-- ============================================================================
-- Names in a tree
-- ============================================================================

namespace Lock

open NamedTree (node Forall)

variable {P : LockName → Prop} {good : LockRequest → Prop}

/-- Every name in the tree has the property. -/
def Names (P : LockName → Prop) (π : LockPath) (l : Lock) : Prop := Forall (fun _ n => P n.name) π l

theorem names_node {π : LockPath} {k : LockName} {s : LockState} {cs : List Lock} :
    Names P π (node k s cs) ↔ P k ∧ ∀ c ∈ cs, Names P (π ++ [c.name]) c := NamedTree.forall_iff

theorem names_append_cons {π : LockPath} {k : LockName} {s : LockState} {pre post : List Lock}
    {c : Lock} :
    Names P π (node k s (pre ++ c :: post)) ↔
      P k ∧ (∀ d ∈ pre ++ post, Names P (π ++ [d.name]) d) ∧ Names P (π ++ [c.name]) c :=
  NamedTree.forall_node_append_cons

theorem names_new {π : LockPath} {k : LockName} (h : P k) : Names P π (new k) :=
  names_node.mpr ⟨h, fun _ hc => by cases hc⟩

/-- The state of the root has nothing to do with names. -/
theorem Names.state {π : LockPath} {k : LockName} {s : LockState} {cs : List Lock}
    (h : Names P π (node k s cs)) (s' : LockState) : Names P π (node k s' cs) :=
  names_node.mpr (names_node.mp h)

theorem Names.setRequests {π : LockPath} {l : Lock} (h : Names P π l) (queue : List LockRequest) :
    Names P π (l.setRequests queue) := by
  cases l with
  | node k s cs => exact h.state _

/-- A child is replaced by one with the same name. -/
theorem Names.replace {π : LockPath} {k : LockName} {s s' : LockState} {pre post : List Lock}
    {c c' : Lock} (h : Names P π (node k s (pre ++ c :: post))) (hname : c'.name = c.name)
    (hc : Names P (π ++ [c.name]) c → Names P (π ++ [c.name]) c') :
    Names P π (node k s' (pre ++ c' :: post)) := by
  obtain ⟨hk, hrest, hchild⟩ := names_append_cons.mp h
  refine names_append_cons.mpr ⟨hk, hrest, ?_⟩
  rw [hname]
  exact hc hchild

/-- A child is added. -/
theorem Names.insert {π : LockPath} {k : LockName} {s s' : LockState} {cs : List Lock} {c : Lock}
    (h : Names P π (node k s cs)) (hc : Names P (π ++ [c.name]) c) :
    Names P π (node k s' (cs ++ [c])) := by
  obtain ⟨hk, hcs⟩ := names_node.mp h
  exact names_append_cons.mpr ⟨hk, by simpa using hcs, hc⟩

/-- New names come from the path. -/
theorem Acquires.names {rest π : LockPath} {l l' : Lock} {r r' : LockRequest} {ins : Bool}
    {ret : AcquireStatus} (h : Acquires rest l r ins ret l' r') (hrest : ∀ c ∈ rest, P c)
    (hl : Names P π l) : Names P π l' := by
  induction h generalizing π with
  | granted | refused | blocked => exact hl.state _
  | descended _ hname _ _ hbelow ih =>
      subst hname
      exact hl.replace hbelow.name_eq (ih fun c hc => hrest c (List.mem_cons_of_mem _ hc))
  | failed | missing => exact hl
  | @created c rest k s s' cs r ins ret child' r' _ _ _ _ hbelow ih =>
      have hname : child'.name = c := hbelow.name_eq
      apply hl.insert
      rw [hname]
      exact ih (fun d hd => hrest d (List.mem_cons_of_mem _ hd))
        (names_new (hrest c (List.mem_cons_self ..)))

theorem Wakes.names {π : LockPath} {l l' : Lock} {as : List LockRequest} (h : Wakes l l' as)
    (hgood : ∀ r, good r → ∀ c ∈ r.path, P c) (hseats : l.val.Seats good π)
    (hl : Names P π l) : Names P π l' := by
  induction h with
  | done => exact hl
  | @answered l l₁ l' r r' queue ret as hq hacq _ _ ih
  | @advanced l l₁ l' r r' queue as hq hacq _ _ ih =>
      obtain ⟨-, -, hr⟩ := hseats r (by rw [hq]; exact List.mem_cons_self ..)
      refine ih (seats_turn hseats hq) (Names.setRequests (hacq.names ?_ hl) queue)
      exact fun c hc => hgood r hr c (List.mem_of_mem_drop hc)
  | stopped => exact hl.setRequests _

theorem Releases.names {p : ProcessRef} {mode : UInt8} {path π : LockPath} {l l' : Lock}
    {ret : ReleaseStatus} {as : List LockRequest} (h : Releases p mode path l ret l' as)
    (hgood : ∀ r, good r → ∀ c ∈ r.path, P c) (hseats : All (LockState.Seats good) π l)
    (hl : Names P π l) : Names P π l' := by
  induction h generalizing π with
  | unlocked hunlock hwake =>
      exact hwake.names hgood (hseats.root.congr (LockState.frame_of_tryUnlock hunlock).2)
        (hl.state _)
  | descended hname _ hbelow herase hwake ih =>
      subst hname
      obtain ⟨hseat, -, hseatc⟩ := all_append_cons.mp hseats
      exact hwake.names hgood (hseat.congr (LockState.lockRequests_of_eraseIntent herase))
        (hl.replace hbelow.name_eq (ih hseatc))
  | cancelled => exact hl.state _
  | notHeld => exact hl

theorem createBelow_names (p : ProcessRef) {path π : LockPath} (l : Lock) (ensured : Bool)
    (hpath : ∀ c ∈ path, P c) (hl : Names P π l) :
    Names P π (createBelow p path l ensured).2 := by
  induction path generalizing l ensured π with
  | nil =>
      cases l
      exact hl
  | cons c rest ih =>
      have hrest : ∀ d ∈ rest, P d := fun d hd => hpath d (List.mem_cons_of_mem _ hd)
      have hc : P c := hpath c (List.mem_cons_self ..)
      cases l with
      | node k s cs =>
          simp only [createBelow]
          cases hsplit : splitChild c cs with
          | some split =>
              obtain ⟨pre, child, post⟩ := split
              obtain ⟨rfl, hname, -⟩ := List.splitFirst_eq_some hsplit
              by_cases hnil : rest = []
              · simp only [hnil, if_true]
                exact hl
              · simp only [hnil, if_false]
                exact hl.replace (createBelow_adds p rest child _).name_eq (ih child _ hrest)
          | none =>
              dsimp only
              split
              · exact hl
              · split
                · exact hl.insert (names_new hc)
                · apply hl.insert
                  rw [(createBelow_adds p rest (new c) _).name_eq]
                  exact ih (new c) _ hrest (names_new hc)

theorem createNotHeld_names (p : ProcessRef) {path π : LockPath} {l : Lock}
    (hpath : ∀ c ∈ path, P c) (hl : Names P π l) : Names P π (createNotHeld p path l).2 := by
  rw [createNotHeld]
  split
  · exact hl
  · dsimp only
    split
    · exact hl
    · exact createBelow_names p l _ (fun c hc => hpath c (List.mem_of_mem_tail hc)) hl

/-- The requests that the loop answers are requests of the queue. -/
theorem Wakes.answered_good {π : LockPath} {l l' : Lock} {as : List LockRequest}
    (h : Wakes l l' as) (hgood : Intrinsic good) (hseats : l.val.Seats good π) :
    ∀ r ∈ as, good r := by
  induction h with
  | done | stopped => exact fun r hr => by cases hr
  | @answered l l₁ l' r r' queue ret as hq hacq _ _ ih =>
      intro x hx
      rcases List.mem_cons.mp hx with rfl | hx
      · exact hgood r x hacq.same (hseats r (by rw [hq]; exact List.mem_cons_self ..)).2.2
      · exact ih (seats_turn hseats hq) x hx
  | advanced hq _ _ _ ih => exact ih (seats_turn hseats hq)

theorem Releases.answered_good {p : ProcessRef} {mode : UInt8} {path π : LockPath} {l l' : Lock}
    {ret : ReleaseStatus} {as : List LockRequest} (h : Releases p mode path l ret l' as)
    (hgood : Intrinsic good) (hseats : All (LockState.Seats good) π l) : ∀ r ∈ as, good r := by
  induction h generalizing π with
  | unlocked hunlock hwake =>
      exact hwake.answered_good hgood
        (hseats.root.congr (LockState.frame_of_tryUnlock hunlock).2)
  | descended hname _ _ herase hwake ih =>
      subst hname
      obtain ⟨hseat, -, hseatc⟩ := all_append_cons.mp hseats
      intro r hr
      rcases List.mem_append.mp hr with hr | hr
      · exact ih hseatc r hr
      · exact hwake.answered_good hgood
          (hseat.congr (LockState.lockRequests_of_eraseIntent herase)) r hr
  | cancelled | notHeld => exact fun r hr => by cases hr

end Lock

-- ============================================================================
-- Short paths
-- ============================================================================

theorem length_of_mem_splitPathFrom {piece c : LockName} {s : PathString}
    (h : c ∈ splitPathFrom piece s) : c.length ≤ piece.length + s.length := by
  induction s generalizing piece with
  | nil =>
      rw [splitPathFrom, List.mem_singleton] at h
      rw [h]
      exact Nat.le_add_right ..
  | cons b s ih =>
      rw [List.length_cons]
      rw [splitPathFrom] at h
      split at h
      · split at h
        · have := ih h
          rw [List.length_nil] at this
          omega
        · rcases List.mem_cons.mp h with rfl | h
          · omega
          · have := ih h
            rw [List.length_nil] at this
            omega
      · have := ih h
        rw [List.length_append, List.length_singleton] at this
        omega

/-- The components of a path are not longer than the path. -/
theorem length_of_mem_splitPath {c : LockName} {s : PathString} (h : c ∈ splitPath s) :
    c.length ≤ s.length := by
  have hle := length_of_mem_splitPathFrom h
  rwa [List.length_nil, Nat.zero_add] at hle

theorem rootName_mem (s : PathString) : rootName s ∈ splitPath s := List.head_mem _

namespace LockRequest

/-- The request is for a path that has a place in a message. -/
def Short (r : LockRequest) : Prop :=
  ∃ s : PathString, s.length ≤ maxPathLength ∧ r.path = splitPath s

variable {r : LockRequest}

theorem Short.components (h : r.Short) : ∀ c ∈ r.path, c.length ≤ maxPathLength := by
  obtain ⟨s, hs, hpath⟩ := h
  intro c hc
  rw [hpath] at hc
  exact (length_of_mem_splitPath hc).trans hs

/-- The path that is assembled for the update has a place in it. -/
theorem Short.joined (h : r.Short) : (Daemon.joinPath r.path).length ≤ maxPathLength := by
  obtain ⟨s, hs, hpath⟩ := h
  rw [hpath]
  exact (length_joinPath_splitPath s).trans hs

end LockRequest

theorem intrinsic_short : Intrinsic LockRequest.Short := by
  rintro r r' hsame ⟨s, hs, hpath⟩
  exact ⟨s, hs, hsame.path.trans hpath⟩

/-- The path that an operation is called with. -/
def Backend.Op.path : Backend.Op → PathString
  | .createLock _ path _ | .acquireLock _ path _ | .releaseLock _ path _ => path
  | _ => []

namespace Backend

open Lock (Names SameRequest)

theorem Op.path_of_asks {op : Op} {pid : UInt32} {path : PathString} {mode : UInt8}
    {create : Bool} (hask : op.asks = some (pid, path, mode, create)) : op.path = path := by
  cases op with
  | registerProcess | unregisterProcess | releaseLock => cases hask
  | createLock pid path acquireX =>
      cases acquireX with
      | true => cases hask; rfl
      | false => cases hask
  | acquireLock => cases hask; rfl

/-- What new requests have and calls keep, all waiting and all answered requests have. -/
theorem Move.seats {good : LockRequest → Prop} (hgood : Intrinsic good) {b b' : Backend} {op : Op}
    {res : Result} {answered : Finset LockRequest} (h : Move b op res answered b')
    (hnew : ∀ {pid path mode create p}, op.asks = some (pid, path, mode, create) →
      b.processes.lookup pid = some p → good (p.request b.nextRequest path mode create))
    (hb : b.forest.All (LockState.Seats good)) :
    b'.forest.All (LockState.Seats good) ∧ ∀ r ∈ answered, good r := by
  cases h with
  | idle | tick | register => exact ⟨hb, by simp⟩
  | enter hask hp hsame henter =>
      exact ⟨henter.all (seats_rule hgood) (hgood _ _ hsame (hnew hask hp)) hb, by simp⟩
  | add hp hl =>
      exact ⟨(LockForest.updates_setRoot hl _).all_of_adds (LockForest.createNotHeld_adds ..)
        (seats_rule hgood).fresh hb, by simp⟩
  | release hp hleave =>
      exact ⟨hleave.seats hgood hb, fun r hr => hleave.releases.answered_good hgood
        (hb _ _ hleave.lookup) r (List.mem_toFinset.mp hr)⟩

theorem Unregistering.seats {good : LockRequest → Prop} (hgood : Intrinsic good) {b b₁ : Backend}
    {id : UInt32} {answered : Finset LockRequest} {locks : List (PathString × UInt8)}
    (h : Unregistering b id answered b₁ locks) (hb : b.forest.All (LockState.Seats good)) :
    b₁.forest.All (LockState.Seats good) ∧ ∀ r ∈ answered, good r := by
  induction h with
  | start => exact ⟨hb, by simp⟩
  | pass _ _ _ ih => exact ih
  | call _ hrel ih =>
      obtain ⟨hb₁, hanswered⟩ := ih
      obtain ⟨hb₂, hmore⟩ := (move_of_releaseLock hrel).seats hgood (fun hask => by cases hask) hb₁
      refine ⟨hb₂, fun r hr => ?_⟩
      rcases Finset.mem_union.mp hr with hr | hr
      · exact hanswered r hr
      · exact hmore r hr

theorem Step.seats {good : LockRequest → Prop} (hgood : Intrinsic good) {b b' : Backend} {e : Event}
    (h : Step b e b')
    (hnew : ∀ {pid path mode create p}, e.op.asks = some (pid, path, mode, create) →
      b.processes.lookup pid = some p → good (p.request b.nextRequest path mode create))
    (hb : b.forest.All (LockState.Seats good)) :
    b'.forest.All (LockState.Seats good) ∧ ∀ r ∈ e.answered, good r := by
  rcases h.cases with hmove | ⟨id, b₁, p, hop, hloop, -, -, -, rfl⟩
  · exact hmove.seats hgood hnew hb
  · exact hloop.seats hgood hb

/-- All names and paths in the backend are short. -/
structure Short (b : Backend) : Prop where
  names : ∀ c l, b.forest.roots.lookup c = some l → Names (·.length ≤ maxPathLength) [c] l
  queued : b.forest.All (LockState.Seats LockRequest.Short)
  held : ∀ pid p, b.processes.lookup pid = some p →
    ∀ e ∈ p.heldLocks.entries, e.1.length ≤ maxPathLength

theorem short_init : init.Short where
  names c l hl := by cases hl
  queued := LockForest.all_empty
  held pid p hp := by cases hp

/-- The locks of a process after an operation that changes them. -/
theorem Short.held_update {b : Backend} (hb : b.Short) {pid : UInt32} {p p' : Process}
    (f : LockForest) (hp : b.processes.lookup pid = some p)
    (hp' : ∀ e ∈ p'.heldLocks.entries, e.1.length ≤ maxPathLength) :
    ∀ id q, (b.update pid f p').processes.lookup id = some q →
      ∀ e ∈ q.heldLocks.entries, e.1.length ≤ maxPathLength := by
  intro id q hq
  by_cases hid : id = pid
  · subst hid
    obtain rfl : p' = q := Option.some.inj ((lookup_update hp).symm.trans hq)
    exact hp'
  · rw [lookup_update_ne hid] at hq
    exact hb.held id q hq

/-- Short paths in, short names and paths in the backend. -/
theorem Move.short {b b' : Backend} {op : Op} {res : Result} {answered : Finset LockRequest}
    (h : Move b op res answered b') (hop : op.requestFor ≠ none → op.path.length ≤ maxPathLength)
    (hb : b.Short) : b'.Short ∧ ∀ r ∈ answered, r.Short := by
  have hasked : ∀ {pid path mode create}, op.asks = some (pid, path, mode, create) →
      path.length ≤ maxPathLength := by
    intro pid path mode create hask
    rw [← Op.path_of_asks hask]
    apply hop
    cases op with
    | registerProcess | unregisterProcess | releaseLock => cases hask
    | createLock | acquireLock => nofun
  obtain ⟨hqueued, hanswered⟩ := h.seats intrinsic_short
    (fun hask _ => ⟨_, hasked hask, rfl⟩) hb.queued
  refine ⟨⟨?_, hqueued, ?_⟩, hanswered⟩
  · cases h with
    | idle | tick | register => exact hb.names
    | @enter _ _ pid path mode create p r ret f' l l' r' hask hp hsame henter =>
        have hpath := hasked hask
        have hshort : r.Short := intrinsic_short _ _ hsame ⟨path, hpath, rfl⟩
        refine henter.updates.trees hb.names (fun _ => Lock.names_new ?_) fun hl => ?_
        · exact (length_of_mem_splitPath (rootName_mem path)).trans hpath
        · exact henter.acquires.names
            (fun c hc => hshort.components c (List.mem_of_mem_drop hc)) hl
    | @add pid path _ p l hp hl =>
        have hpath : path.length ≤ maxPathLength := hop nofun
        have hupd := LockForest.updates_setRoot hl (Lock.createNotHeld p.object (splitPath path) l).2
        refine hupd.trees hb.names (fun hnone => ?_) fun hl => ?_
        · rw [hl] at hnone
          cases hnone
        · exact Lock.createNotHeld_names p.object
            (fun c hc => (length_of_mem_splitPath hc).trans hpath) hl
    | release hp hleave =>
        refine hleave.updates.trees hb.names (fun hnone => ?_) fun hl => ?_
        · rw [hleave.lookup] at hnone
          cases hnone
        · exact hleave.releases.names (fun r hr => hr.components) (hb.queued _ _ hleave.lookup) hl
  · cases h with
    | idle | tick | add => exact hb.held
    | register hfree =>
        intro pid p hp
        rcases SortedMap.lookup_insert_cases hfree hp with ⟨-, rfl⟩ | hp
        · exact fun e he => by cases he
        · exact hb.held pid p hp
    | @enter _ _ pid path mode create p r ret f' l l' r' hask hp =>
        refine hb.held_update f' hp fun e he => ?_
        rcases SortedList.mem_insert.mp he with he | ⟨rfl, -⟩
        · exact hb.held pid p hp e he
        · exact hasked hask
    | @release pid path mode p f' as l l' hp =>
        exact hb.held_update f' hp fun e he => hb.held pid p hp e (SortedList.mem_erase.mp he).1

/-- The requests that the loop of `unregister_process` answers. -/
theorem Unregistering.short {b b₁ : Backend} {id : UInt32} {answered : Finset LockRequest}
    {locks : List (PathString × UInt8)} (h : Unregistering b id answered b₁ locks) (hb : b.Short) :
    b₁.Short ∧ ∀ r ∈ answered, r.Short := by
  induction h with
  | start => exact ⟨hb, by simp⟩
  | pass _ _ _ ih => exact ih
  | call _ hrel ih =>
      obtain ⟨hb₁, hanswered⟩ := ih
      obtain ⟨hb₂, hmore⟩ := (move_of_releaseLock hrel).short (fun hne => absurd rfl hne) hb₁
      refine ⟨hb₂, fun r hr => ?_⟩
      rcases Finset.mem_union.mp hr with hr | hr
      · exact hanswered r hr
      · exact hmore r hr

/-- An operation with a short path keeps everything short. -/
theorem Step.short {b b' : Backend} {e : Event} (h : Step b e b')
    (hop : e.op.path.length ≤ maxPathLength) (hb : b.Short) :
    b'.Short ∧ ∀ r ∈ e.answered, r.Short := by
  rcases h.cases with hmove | ⟨id, b₁, p, -, hloop, -, -, -, rfl⟩
  · exact hmove.short (fun _ => hop) hb
  · obtain ⟨hb₁, hanswered⟩ := hloop.short hb
    exact ⟨⟨hb₁.names, hb₁.queued, fun pid p hp => hb₁.held pid p (lookup_of_drop hp)⟩, hanswered⟩

end Backend

end Tclm.Server
