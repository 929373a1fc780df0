/-
  Tclm.Server.Listing

  The lists that the daemon sends, byte by byte.

  A list is a header and records; room is made for each record before it is written, and
  the length is filled in at the end (`listing_spec`).  The records of the locks come in
  the order of `for_each_lock`, which is the order of the nodes with their addresses
  (`forEachLock_eq`): the level of a lock is the length of its address.
-/

import Tclm.Server.Daemon
import Tclm.Server.ForestSpec

open Tclm.Comm
open Tclm.Comm.Stream

namespace Tclm.Server

-- ============================================================================
-- The order of the locks
-- ============================================================================

/-- `for_each_child` visits the nodes in the order of their addresses. -/
theorem Lock.visit_eq (l : Lock) : ∀ {π : LockPath} {level : UInt32},
    level = UInt32.ofNat (π.length - 1) → π ≠ [] →
    Lock.visit level l =
      (NamedTree.nodes π l).map fun x => (UInt32.ofNat (x.1.length - 1), x.2) := by
  induction l using NamedTree.induction with
  | h k s cs ih =>
      intro π level hlevel hπ
      have hnext : level + 1 = UInt32.ofNat π.length := by
        have hpos := List.length_pos_iff.mpr hπ
        have hlen : π.length = π.length - 1 + 1 := by omega
        rw [hlevel, hlen, UInt32.ofNat_add]
        rfl
      -- the children one after the other
      have hchildren : ∀ ds, (∀ c ∈ ds, c ∈ cs) → Lock.forEachChild (level + 1) ds =
          (NamedTree.nodesBelow π ds).map fun x => (UInt32.ofNat (x.1.length - 1), x.2) := by
        intro ds hds
        induction ds with
        | nil => rw [Lock.forEachChild, NamedTree.nodesBelow, List.map_nil]
        | cons c ds ihds =>
            have hbelow : level + 1 = UInt32.ofNat ((π ++ [c.name]).length - 1) := by
              rw [hnext, List.length_append]
              rfl
            have hc := ih c (hds c List.mem_cons_self) hbelow (by simp)
            rw [Lock.forEachChild, NamedTree.nodesBelow, List.map_append, hc,
              ihds fun d hd => hds d (List.mem_cons_of_mem c hd)]
      rw [Lock.visit, NamedTree.nodes, List.map_cons, hchildren cs fun c hc => hc, hlevel]

/-- `for_each_lock` visits the locks in the order of their addresses. -/
theorem LockForest.forEachLock_eq (f : LockForest) :
    f.forEachLock = f.nodes.map fun x => (UInt32.ofNat (x.1.length - 1), x.2) := by
  rw [forEachLock, nodes]
  induction f.roots.entries with
  | nil => rfl
  | cons e es ih =>
      rw [List.flatMap_cons, List.flatMap_cons, List.map_append, ih]
      congr 1
      exact Lock.visit_eq e.2 rfl (by simp)

namespace Daemon

-- ============================================================================
-- Records
-- ============================================================================

/-- The bytes of a length field of 16 bits. -/
def lengthBytes (host : ByteOrder) (n : Nat) : List UInt8 := wire host 2 (UInt16.ofNat n).toNat

theorem length_lengthBytes (host : ByteOrder) (n : Nat) : (lengthBytes host n).length = 2 :=
  length_wire host 2 _

/-- The bytes of the record of a connection. -/
def connectionRecord (host : ByteOrder) (peer : UInt32 × UInt16) : List UInt8 :=
  [0] ++ (wire host 4 peer.1.toNat ++ wire host 2 peer.2.toNat)

/-- The bytes of the record of a process. -/
def processRecord (host : ByteOrder) (p : Process) : List UInt8 :=
  wire host 4 p.id.toNat ++ wire host 4 (UInt32.ofNat p.getLockCount).toNat

/-- The bytes of the record of a lock. -/
def lockRecord (host : ByteOrder) (x : UInt32 × Lock) : List UInt8 :=
  wire host 4 x.1.toNat ++ (lengthBytes host x.2.name.length ++ (x.2.name ++ [x.2.val.statusBits]))

/-- The bytes of the record of a lock that a process holds. -/
def heldRecord (host : ByteOrder) (x : PathString × UInt8) : List UInt8 :=
  lengthBytes host x.1.length ++ (x.1 ++ [x.2])

theorem length_lockRecord (host : ByteOrder) (x : UInt32 × Lock) :
    (lockRecord host x).length = x.2.name.length + 4 + 2 + 1 := by
  simp only [lockRecord, List.length_append, length_wire, length_lengthBytes, List.length_singleton]
  omega

theorem length_heldRecord (host : ByteOrder) (x : PathString × UInt8) :
    (heldRecord host x).length = x.1.length + 1 + 2 := by
  simp only [heldRecord, List.length_append, length_lengthBytes, List.length_singleton]
  omega

section Records

variable {heap : Heap} (hheap : heap.Ample) (host : ByteOrder)

include hheap

theorem appends_writeConnection (peer : UInt32 × UInt16) :
    Appends (writeConnection host heap peer) (connectionRecord host peer) :=
  ((puts_writeUInt8 0).bind ((puts_wire host 4 _).bind (puts_wire host 2 _))).appends hheap
    (by rw [List.length_append, List.length_append, length_wire, length_wire]; rfl)

theorem appends_writeProcess (p : Process) :
    Appends (writeProcess host heap p) (processRecord host p) :=
  ((puts_wire host 4 _).bind (puts_wire host 4 _)).appends hheap
    (by rw [List.length_append, length_wire, length_wire])

theorem appends_writeLock (x : UInt32 × Lock) :
    Appends (writeLock host heap x) (lockRecord host x) :=
  ((puts_wire host 4 _).bind ((puts_wire host 2 _).bind
    ((puts_copyExtendSeek _).bind (puts_writeUInt8 _)))).appends hheap (length_lockRecord host x)

theorem appends_writeHeldLock (x : PathString × UInt8) :
    Appends (writeHeldLock host heap x) (heldRecord host x) :=
  ((puts_wire host 2 _).bind ((puts_copyExtendSeek _).bind (puts_writeUInt8 _))).appends hheap
    (length_heldRecord host x)

end Records

/-- The records one after the other. -/
theorem appends_writeRecords {α : Type} {write : Heap → α → StreamM Unit}
    {bytes : α → List UInt8} (h : ∀ heap a, heap.Ample → Appends (write heap a) (bytes a))
    {heaps : Nat → Heap} (hheaps : ∀ i, (heaps i).Ample) (as : List α) :
    Appends (writeRecords write heaps as) (as.flatMap bytes) := by
  induction as generalizing heaps with
  | nil => exact appends_pure
  | cons a as ih =>
      rw [List.flatMap_cons]
      exact (h _ a (hheaps 0)).bind (ih fun i => hheaps (i + 1))

/-- What follows the header of the list of a process' locks. -/
def heldBytes (host : ByteOrder) (pid : UInt32) : Option Process → List UInt8
  | none => wire host 4 pid.toNat ++ wire host 2 ResponseStatus.noSuchProcess.toNat
  | some p => wire host 4 pid.toNat ++ wire host 2 ResponseStatus.success.toNat ++
      p.heldLocks.entries.flatMap (heldRecord host)

theorem length_heldBytes_some (host : ByteOrder) (pid : UInt32) (p : Process) :
    (heldBytes host pid (some p)).length =
      6 + (p.heldLocks.entries.flatMap (heldRecord host)).length := by
  rw [heldBytes, List.length_append, List.length_append, length_wire, length_wire]

theorem appends_writeLocksOfProcess (host : ByteOrder) {heaps : Nat → Heap}
    (hheaps : ∀ i, (heaps i).Ample) (pid : UInt32) (p : Option Process) :
    Appends (writeLocksOfProcess host heaps pid p) (heldBytes host pid p) := by
  have hsix : ∀ status : UInt16, Appends (reserve (heaps 0) 6 >>= fun _ =>
      writeUInt32 host pid >>= fun _ => writeUInt16 host status)
      (wire host 4 pid.toNat ++ wire host 2 status.toNat) :=
    fun status => ((puts_wire host 4 _).bind (puts_wire host 2 _)).appends (hheaps 0)
      (by rw [List.length_append, length_wire, length_wire])
  cases p with
  | none => exact hsix ResponseStatus.noSuchProcess
  | some p =>
      have hrecords := (hsix ResponseStatus.success).bind (appends_writeRecords
        (fun heap x hheap => appends_writeHeldLock hheap host x) (fun i => hheaps (i + 1))
        p.heldLocks.entries)
      simp only [bind_assoc] at hrecords
      exact hrecords

-- ============================================================================
-- Lists
-- ============================================================================

/-- The length that is filled in. -/
theorem toNat_total_sub {n : Nat} (h : 5 + n < 2 ^ 32) : (UInt32.ofNat (5 + n) - 5).toNat = n := by
  rw [UInt32.toNat_sub, UInt32.toNat_ofNat', Nat.mod_eq_of_lt h]
  show (2 ^ 32 - 5 + (5 + n)) % 2 ^ 32 = n
  omega

/-- A list with its header, and nothing that was not written. -/
theorem listing_spec {env : Env} (hheap : env.heap.Ample) (id : UInt8) {act : StreamM Unit}
    {bs : List UInt8} (hact : Appends act bs) (hbound : 5 + bs.length ≤ 2 ^ 63) :
    ∃ s s', newListing env id = .ok s ∧ finishListing env act s = .ok s' ∧
      s'.bytes = id :: wire env.host 4 (UInt32.ofNat (5 + bs.length) - 5).toNat ++ bs ∧
      s'.length = 5 + bs.length ∧ s'.length ≤ s'.capacity := by
  have hput : Puts (writeUInt8 id >>= fun _ => writeUInt32 env.host 0) (id :: wire env.host 4 0) :=
    (puts_writeUInt8 id).bind (puts_wire env.host 4 0)
  have hfive : (id :: wire env.host 4 0).length = 5 := by rw [List.length_cons, length_wire]
  obtain ⟨s, hnew, hfilled⟩ := hput.appends hheap hfive filled_new (by
    rw [List.length_nil, hfive]
    decide)
  rw [List.nil_append] at hfilled
  obtain ⟨s₁, hrun, hfilled₁⟩ := hact hfilled (by rw [hfive]; exact hbound)
  obtain ⟨s₂, hupdate, hbytes, hlength, hinside⟩ :=
    hfilled₁.run_updateMessageLength (length_wire env.host 4 _) env.host (5 + bs.length)
  have hpos : s₁.pos = 5 + bs.length := by rw [hfilled₁.pos, List.length_append, hfive]
  refine ⟨s, s₂, ?_, ?_, hbytes, hlength, hinside⟩
  · have hheader : writeMessageHeader env.host env.heap id 0 {} = .ok ((), s) := hnew
    rw [newListing, if_pos hheap.1, hheader]
    rfl
  · rw [finishListing, run_bind hrun]
    show (onStream (updateMessageLength env.host s₁.pos s₁) >>= _) = _
    rw [hpos, hupdate]
    rfl

section Lists

variable {env : Env} (hheap : env.heap.Ample) (hheaps : ∀ i, (env.heaps i).Ample) (c : Conn)
  (d : Daemon)

include hheap hheaps

/-- The list of all locks. -/
theorem listLocks_spec
    (hsize : 5 + (d.backend.forest.forEachLock.flatMap (lockRecord env.host)).length ≤ 2 ^ 63) :
    ∃ s, d.receiveMessageListLocks env c = .ok ([(c, s)], ∅, d) ∧
      s.bytes = MsgId.listLocksResponse :: wire env.host 4 (UInt32.ofNat
        (5 + (d.backend.forest.forEachLock.flatMap (lockRecord env.host)).length) - 5).toNat ++
          d.backend.forest.forEachLock.flatMap (lockRecord env.host) := by
  obtain ⟨s, s', hnew, hfinish, hbytes, -, -⟩ := listing_spec hheap MsgId.listLocksResponse
    (appends_writeRecords (fun heap x hheap => appends_writeLock hheap env.host x) hheaps
      d.backend.forest.forEachLock) hsize
  refine ⟨s', ?_, hbytes⟩
  rw [receiveMessageListLocks, hnew]
  show (finishListing env _ s >>= _) = _
  rw [hfinish]
  rfl

/-- The list of the locks that a process holds. -/
theorem listLocksOfProcess_spec {input input' : Stream} {pid : UInt32} {p : Process}
    (hread : readUInt32 env.host input = .ok (pid, input'))
    (hp : d.backend.processes.lookup pid = some p)
    (hsize : 11 + (p.heldLocks.entries.flatMap (heldRecord env.host)).length ≤ 2 ^ 63) :
    ∃ s, d.receiveMessageListLocksOfProcess env c input 4 = .ok ([(c, s)], ∅, d) ∧
      s.bytes = MsgId.listLocksProcessResponse :: wire env.host 4 (UInt32.ofNat
        (5 + (heldBytes env.host pid (some p)).length) - 5).toNat ++
          heldBytes env.host pid (some p) := by
  obtain ⟨s, s', hnew, hfinish, hbytes, -, -⟩ := listing_spec hheap MsgId.listLocksProcessResponse
    (appends_writeLocksOfProcess env.host hheaps pid (some p)) (by
      rw [length_heldBytes_some]
      omega)
  refine ⟨s', ?_, hbytes⟩
  rw [receiveMessageListLocksOfProcess, if_neg (by decide), hread]
  show (newListing env _ >>= _) = _
  rw [hnew]
  show (finishListing env _ s >>= _) = _
  rw [hp, hfinish]
  rfl

end Lists

end Daemon

end Tclm.Server
