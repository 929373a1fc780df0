/-
  Tclm.System.Listings

  Manager and daemon understand each other.

  The manager reads the lists of locks in loops of its own.  On a little-endian host it
  gets what the daemon put there: of all locks, the nodes of the forest from the roots
  down, so that the forest can be told from the lines (`NamedTree.rebuild`), and of a
  process, its locks in their order.
-/

import Tclm.Lib.TreeListing
import Tclm.Manager.Responses
import Tclm.Server.Creation
import Tclm.Server.Serving
import Tclm.System.Fields

open Tclm.Comm
open Tclm.Comm.Stream
open Tclm.Server
open Tclm.Server.Daemon
open Tclm.Manager

namespace Tclm.System

-- ============================================================================
-- Records
-- ============================================================================

theorem lengthBytes_little {n : Nat} (h : n ≤ maxPathLength) :
    lengthBytes .little n = beBytes 2 (UInt16.ofNat n).toNat ∧ (UInt16.ofNat n).toNat = n :=
  ⟨wire_little 2 _, (toNat_ofNat_iff n).mpr h⟩

/-- A string is taken from the stream and skipped. -/
theorem gets_pointer {α : Type} {string bs : List UInt8} {next : List UInt8 → StreamM α} {v : α}
    (hnext : Gets (next string) bs v) :
    Gets (do
      let name ← pointerBytes string.length
      seek ((← tell) + string.length)
      next name) (string ++ bs) v := by
  have htake := (gets_takeBytes string).bind hnext
  simp only [takeBytes, bind_assoc, pure_bind] at htake
  exact htake

theorem gets_readLock {x : UInt32 × Lock} (hx : x.2.name.length ≤ maxPathLength) :
    Gets (readLock .little) (lockRecord .little x) ⟨x.1, x.2.name, x.2.val.statusBits⟩ := by
  obtain ⟨hbytes, hlen⟩ := lengthBytes_little hx
  rw [lockRecord, hbytes, wire_little, readLock, readLockBy]
  refine (gets_readUInt32 x.1).bind ((gets_readUInt16 _).bind ?_)
  rw [hlen]
  exact gets_pointer ((gets_readUInt8 x.2.val.statusBits).bind_pure
    fun bits => (⟨x.1, x.2.name, bits⟩ : LockLine))

/-- The loop over the locks of a process reads them all, and ends there. -/
theorem gets_readHeldLocks {xs : List (PathString × UInt8)}
    (hxs : ∀ x ∈ xs, x.1.length ≤ maxPathLength) {length : UInt32}
    (hlength : length.toNat = (xs.flatMap (heldRecord .little)).length) {fuel : Nat}
    (hfuel : xs.length ≤ fuel) :
    Gets (readHeldLocks .little fuel length) (xs.flatMap (heldRecord .little)) xs := by
  induction xs generalizing length fuel with
  | nil =>
      have hend : ¬ 2 < length := by
        rw [UInt32.lt_iff_toNat_lt, hlength]
        exact Nat.not_lt_zero 2
      cases fuel with
      | zero | succ =>
          rw [readHeldLocks, if_neg hend]
          exact gets_pure []
  | cons x xs ih =>
      have hx := hxs x List.mem_cons_self
      obtain ⟨hbytes, hlen⟩ := lengthBytes_little hx
      rw [List.flatMap_cons, List.length_append, length_heldRecord] at hlength
      have hmore : 2 < length := by
        rw [UInt32.lt_iff_toNat_lt]
        show 2 < _
        omega
      obtain ⟨fuel, rfl⟩ : ∃ n, fuel = n + 1 := by
        rw [List.length_cons] at hfuel
        exact ⟨fuel - 1, by omega⟩
      -- what is left of the length
      have hleft : (length - UInt32.ofNat (x.1.length + 2 + 1)).toNat =
          (xs.flatMap (heldRecord .little)).length := by
        rw [toNat_sub_ofNat (by omega)]
        omega
      have hrest := ih (fun y hy => hxs y (List.mem_cons_of_mem x hy)) hleft
        (Nat.le_of_succ_le_succ hfuel)
      rw [readHeldLocks, if_pos hmore, List.flatMap_cons, heldRecord, hbytes]
      simp only [List.append_assoc]
      refine (gets_readUInt16 _).bind ?_
      rw [hlen, if_neg (by omega)]
      exact gets_pointer ((gets_readUInt8 x.2).bind (hrest.bind_pure fun lines => x :: lines))

-- ============================================================================
-- Lines
-- ============================================================================

/-- Whether a lock is held as IS, IS+, IX, S, S+ and X. -/
def lockBits (s : LockState) : List Bool :=
  [decide (s.lockersIS ≠ 0), decide (s.lockersISplus ≠ 0), decide (s.lockersIX ≠ 0),
    decide (s.lockersS ≠ 0), s.lockerSplus.isSome, s.lockerX.isSome]

/-- The bits are put together by the daemon and taken apart by the manager. -/
theorem status_statusBits (level : UInt32) (name : LockName) (s : LockState) :
    LockLine.status ⟨level, name, s.statusBits⟩ = lockBits s := by
  have hmasks : ∀ a b c d e f : Bool,
      [0x40, 0x20, 0x10, 0x4, 0x2, 0x1].map (fun mask => decide
        (((if a then 0 else 0x40) ||| (if b then 0 else 0x20) ||| (if c then 0 else 0x10) |||
          (if d then 0 else 0x4) ||| (if e then 0 else 0x2) ||| (if f then 0 else 0x1) : UInt8)
            &&& mask ≠ 0)) = [!a, !b, !c, !d, !e, !f] := by
    decide
  have h := hmasks (decide (s.lockersIS = 0)) (decide (s.lockersISplus = 0))
    (decide (s.lockersIX = 0)) (decide (s.lockersS = 0)) (decide (s.lockerSplus = none))
    (decide (s.lockerX = none))
  simp only [decide_eq_true_eq] at h
  rw [LockLine.status, LockState.statusBits, h, lockBits]
  cases s.lockerSplus <;> cases s.lockerX <;> simp

/-- The nodes of the forest from the roots down, with their depths. -/
def outline (f : LockForest) : List (Nat × LockName × List Bool) :=
  (f.roots.entries.map Prod.snd).flatMap (NamedTree.listed lockBits 0)

theorem map_nodes_pred (c : LockName) (l : Lock) :
    (NamedTree.nodes [c] l).map (fun x => (x.1.length - 1, x.2.name, lockBits x.2.val)) =
      NamedTree.listed lockBits 0 l := by
  have h := congrArg (List.map fun y => (y.1 - 1, y.2)) (NamedTree.map_nodes lockBits l 0 [c])
  rw [List.map_map, NamedTree.listed, List.map_map] at h
  rw [NamedTree.listed]
  refine Eq.trans ?_ (h.trans ?_)
  · apply List.map_congr_left
    intro x _
    simp only [Function.comp_apply, Nat.zero_add]
  · apply List.map_congr_left
    intro x _
    simp only [Function.comp_apply, List.length_singleton, Nat.add_sub_cancel_left, Nat.zero_add]

theorem outline_eq (f : LockForest) :
    outline f = f.nodes.map fun x => (x.1.length - 1, x.2.name, lockBits x.2.val) := by
  rw [outline, LockForest.nodes, List.map_flatMap, List.flatMap_map]
  congr 1
  funext e
  exact (map_nodes_pred e.1 e.2).symm

theorem length_le_length_flatMap {α β : Type} {f : α → List β} {xs : List α}
    (h : ∀ x ∈ xs, 0 < (f x).length) : xs.length ≤ (xs.flatMap f).length := by
  induction xs with
  | nil => exact Nat.le_refl 0
  | cons x xs ih =>
      have hx := h x List.mem_cons_self
      have hxs := ih fun y hy => h y (List.mem_cons_of_mem x hy)
      rw [List.flatMap_cons, List.length_append, List.length_cons]
      omega

/-- Levels are depths: the forest has less than `2 ^ 32` nodes. -/
theorem toNat_level {f : LockForest} {x : LockPath × Lock} (hx : x ∈ f.nodes)
    (hf : f.nodes.length < 2 ^ 32) : (UInt32.ofNat (x.1.length - 1)).toNat = x.1.length - 1 := by
  have hmem := hx
  rw [LockForest.nodes, List.mem_flatMap] at hmem
  obtain ⟨e, he, hnode⟩ := hmem
  have hlt := NamedTree.length_lt_of_mem_nodes e.2 hnode
  have hle : (NamedTree.nodes [e.1] e.2).length ≤ f.nodes.length := by
    obtain ⟨pre, post, hsplit⟩ := List.append_of_mem he
    rw [LockForest.nodes, hsplit, List.flatMap_append, List.flatMap_cons, List.length_append,
      List.length_append]
    omega
  rw [List.length_singleton] at hlt
  rw [UInt32.toNat_ofNat', Nat.mod_eq_of_lt (by omega)]

/-- What is shown of the locks is the outline of the forest. -/
theorem map_forEachLock {f : LockForest} (hf : f.nodes.length < 2 ^ 32) :
    (f.forEachLock.map fun x => (⟨x.1, x.2.name, x.2.val.statusBits⟩ : LockLine)).map
      (fun l => (l.level.toNat, l.name, l.status)) = outline f := by
  rw [LockForest.forEachLock_eq, outline_eq, List.map_map, List.map_map]
  apply List.map_congr_left
  intro x hx
  simp only [Function.comp_apply, toNat_level hx hf, status_statusBits]

/-- The forest can be told from its outline. -/
theorem rebuild_outline {f : LockForest} (hf : f.RootsNamed) :
    (NamedTree.rebuild (outline f)).map (fun t => (t.name, t)) =
      f.roots.entries.map fun e => (e.1, NamedTree.mapVal lockBits e.2) := by
  rw [outline, NamedTree.rebuild_listed, List.map_map, List.map_map]
  apply List.map_congr_left
  intro e he
  have hname := hf e.1 e.2 (SortedMap.lookup_eq_some.mpr he)
  simp only [Function.comp_apply, NamedTree.name_mapVal, hname]

-- ============================================================================
-- Messages
-- ============================================================================

/-- A list that is shorter than `2 ^ 32` bytes has its length in the header. -/
theorem listing_eq_frame (id : UInt8) {bs : List UInt8} (h : 5 + bs.length < 2 ^ 32) :
    id :: wire .little 4 (UInt32.ofNat (5 + bs.length) - 5).toNat ++ bs = frame (id, bs) := by
  rw [toNat_total_sub h, wire_little, frame]

/-- The manager reads all lines of the list of locks. -/
theorem receiveMessage_locks {f : LockForest} {input : Stream}
    (hinput : input.Carries (MsgId.listLocksResponse, f.forEachLock.flatMap (lockRecord .little)))
    (hsize : 5 + (f.forEachLock.flatMap (lockRecord .little)).length < 2 ^ 32)
    (hshort : ∀ x ∈ f.forEachLock, x.2.name.length ≤ maxPathLength) {fuel : Nat}
    (hfuel : f.forEachLock.length ≤ fuel) :
    ∃ input', receiveMessage .little fuel .listLocks input =
      .ok (.locks (f.forEachLock.map fun x => ⟨x.1, x.2.name, x.2.val.statusBits⟩), input') := by
  obtain ⟨hid, hlength, hrest⟩ := hinput.run_header
  have hlen : (UInt32.ofNat input.length).toNat = input.length := by
    rw [UInt32.toNat_ofNat', hinput.length_eq, Nat.mod_eq_of_lt hsize]
  have hturn : ∀ x ∈ f.forEachLock, Gets (readLock .little) (lockRecord .little x)
      (⟨x.1, x.2.name, x.2.val.statusBits⟩ : LockLine) ∧ lockRecord .little x ≠ [] := by
    intro x hx
    refine ⟨gets_readLock (hshort x hx), List.ne_nil_of_length_pos ?_⟩
    rw [length_lockRecord]
    omega
  obtain ⟨input', hrun⟩ := readRecords_spec (s := { input with pos := 5 }) hturn hinput.length hlen
    hrest hfuel
  refine ⟨input', ?_⟩
  rw [receiveMessage, receiveMessageBy, run_bind (run_get input), run_bind hid, run_bind hlength]
  show (Response.locks <$> readRecords (UInt32.ofNat input.length) (readLock .little) fuel)
    { input with pos := 5 } = _
  exact run_map Response.locks hrun

/-- The manager reads the locks of a process. -/
theorem receiveMessage_locksOfProcess {pid : UInt32} {p : Process} {input : Stream}
    (hinput : input.Carries (MsgId.listLocksProcessResponse, heldBytes .little pid (some p)))
    (hsize : 11 + (p.heldLocks.entries.flatMap (heldRecord .little)).length < 2 ^ 32)
    (hshort : ∀ x ∈ p.heldLocks.entries, x.1.length ≤ maxPathLength) {fuel : Nat}
    (hfuel : p.heldLocks.entries.length ≤ fuel) :
    ∃ input', receiveMessage .little fuel .listLocks input =
      .ok (.locksOfProcess pid ResponseStatus.success p.heldLocks.entries, input') := by
  obtain ⟨hid, hlength, hrest⟩ := hinput.run_header
  have hinside := hinput.length_eq
  rw [length_heldBytes_some] at hinside
  -- the length behind the header
  have hlen : (UInt32.ofNat input.length - UInt32.ofNat 5).toNat =
      6 + (p.heldLocks.entries.flatMap (heldRecord .little)).length := by
    rw [hinside]
    exact toNat_total_sub (by omega)
  have hsix : ¬ UInt32.ofNat input.length - UInt32.ofNat 5 < 6 := by
    rw [UInt32.lt_iff_toNat_lt, hlen]
    show ¬ _ < 6
    omega
  have hleft : (UInt32.ofNat input.length - UInt32.ofNat 5 - 6).toNat =
      (p.heldLocks.entries.flatMap (heldRecord .little)).length := by
    rw [UInt32.toNat_sub_of_le _ _ (by rw [UInt32.le_iff_toNat_le, hlen]; exact Nat.le_add_right ..),
      hlen]
    exact Nat.add_sub_cancel_left ..
  have hread : Gets (readUInt32 .little >>= fun pid => readUInt16 .little >>= fun status =>
      if status ≠ ResponseStatus.success then pure (.locksOfProcess pid status [])
      else Response.locksOfProcess pid status <$>
        readHeldLocks .little fuel (UInt32.ofNat input.length - UInt32.ofNat 5 - 6))
      (heldBytes .little pid (some p))
      (.locksOfProcess pid ResponseStatus.success p.heldLocks.entries) := by
    rw [heldBytes, wire_little, wire_little, List.append_assoc]
    refine (gets_readUInt32 pid).bind ((gets_readUInt16 _).bind ?_)
    rw [if_neg (by simp)]
    exact (gets_readHeldLocks hshort hleft hfuel).map _
  have hrun := hread (s := { input with pos := 5 }) hinput.length (by rw [hrest, List.append_nil])
  refine ⟨_, Eq.trans ?_ hrun⟩
  rw [receiveMessage, receiveMessageBy, run_bind (run_get input), run_bind hid, run_bind hlength]
  show receiveListLocksProcessResponse .little fuel .listLocks (UInt32.ofNat input.length)
    { input with pos := 5 } = _
  rw [receiveListLocksProcessResponse, if_pos rfl, run_bind (run_tell _), if_neg hsix]

/-- The manager gets from the list of all locks the outline of the forest, from which the
    forest can be told, and from the list of a process its locks in their order. -/
theorem listings_read_back (env : Env) (hhost : env.host = .little) (hheap : env.heap.Ample)
    (hheaps : ∀ i, (env.heaps i).Ample) (c : Conn) {d : Daemon} (hd : Daemon.Reachable d) :
    (5 + (d.backend.forest.forEachLock.flatMap (lockRecord .little)).length < 2 ^ 32 →
      ∃ s, d.receiveMessageListLocks env c = .ok ([(c, s)], ∅, d) ∧
        ∀ input, s.Delivered input → ∀ fuel, d.backend.forest.nodes.length ≤ fuel →
          ∃ lines input', receiveMessage .little fuel .listLocks input = .ok (.locks lines, input') ∧
            lines.map (fun l => (l.level.toNat, l.name, l.status)) = outline d.backend.forest ∧
            (NamedTree.rebuild (lines.map fun l => (l.level.toNat, l.name, l.status))).map
                (fun t => (t.name, t)) =
              d.backend.forest.roots.entries.map fun e => (e.1, NamedTree.mapVal lockBits e.2)) ∧
    (∀ (request rest : Stream) (pid : UInt32) (p : Process),
      readUInt32 env.host request = .ok (pid, rest) →
      d.backend.processes.lookup pid = some p →
      11 + (p.heldLocks.entries.flatMap (heldRecord .little)).length < 2 ^ 32 →
      ∃ s, d.receiveMessageListLocksOfProcess env c request 4 = .ok ([(c, s)], ∅, d) ∧
        ∀ input, s.Delivered input → ∀ fuel, p.heldLocks.entries.length ≤ fuel →
          ∃ input', receiveMessage .little fuel .listLocks input =
            .ok (.locksOfProcess pid ResponseStatus.success p.heldLocks.entries, input')) := by
  constructor
  · intro hsize
    have hcount : d.backend.forest.forEachLock.length = d.backend.forest.nodes.length := by
      rw [LockForest.forEachLock_eq, List.length_map]
    have hnodes : d.backend.forest.nodes.length < 2 ^ 32 := by
      have hle : d.backend.forest.forEachLock.length ≤
          (d.backend.forest.forEachLock.flatMap (lockRecord .little)).length := by
        apply length_le_length_flatMap
        intro x hx
        rw [length_lockRecord]
        omega
      omega
    obtain ⟨s, hrun, hbytes⟩ := listLocks_spec hheap hheaps c d (by rw [hhost]; omega)
    rw [hhost, listing_eq_frame _ hsize] at hbytes
    refine ⟨s, hrun, fun input hinput fuel hfuel => ?_⟩
    obtain ⟨input', hread⟩ := receiveMessage_locks (hinput.carries hbytes) hsize
      (short_forEachLock hd.short) (hcount.trans_le hfuel)
    refine ⟨_, input', hread, map_forEachLock hnodes, ?_⟩
    rw [map_forEachLock hnodes]
    exact rebuild_outline hd.backend.roots_named
  · intro request rest pid p hread hp hsize
    obtain ⟨s, hrun, hbytes⟩ := listLocksOfProcess_spec hheap hheaps c d hread hp
      (by rw [hhost]; omega)
    rw [hhost, listing_eq_frame _ (by rw [length_heldBytes_some]; omega)] at hbytes
    refine ⟨s, hrun, fun input hinput fuel hfuel => ?_⟩
    exact receiveMessage_locksOfProcess (hinput.carries hbytes) hsize (hd.short.held pid p hp) hfuel

/-- A process creates the lock `a` and keeps it; the manager shows it as held exclusively. -/
theorem listings_read_back_created :
    ∃ (d : Daemon) (s : Stream), d.receiveMessageListLocks .plain 0 = .ok ([(0, s)], ∅, d) ∧
      ∀ input, s.Delivered input → ∃ lines input',
        receiveMessage .little 1 .listLocks input = .ok (.locks lines, input') ∧
          lines.map (fun l => (l.level.toNat, l.name, l.status)) =
            [(0, [0x61], [false, false, false, false, false, true])] := by
  have hinit : Daemon.Reachable {} := Lts.Reachable.refl _
  obtain ⟨d, hd, hsize, hfuel, houtline⟩ : ∃ d, Daemon.Reachable d ∧
      5 + (d.backend.forest.forEachLock.flatMap (lockRecord .little)).length < 2 ^ 32 ∧
      d.backend.forest.nodes.length ≤ 1 ∧
      outline d.backend.forest = [(0, [0x61], [false, false, false, false, false, true])] :=
    ⟨_, (hinit.respond (c := 0) (q := .registerProcess 7) rfl (by decide)).respond (c := 0)
      (q := .createLock 0 [0x61] true) rfl (by decide), by decide, by decide, by decide⟩
  obtain ⟨s, hrun, hread⟩ := (listings_read_back .plain rfl Heap.ample_zeros
    (fun _ => Heap.ample_zeros) 0 hd).1 hsize
  refine ⟨d, s, hrun, fun input hinput => ?_⟩
  obtain ⟨lines, input', hlines, hshown, -⟩ := hread input hinput 1 hfuel
  exact ⟨lines, input', hlines, hshown.trans houtline⟩

end Tclm.System
