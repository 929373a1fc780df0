/-
  Tclm.System.Fields

  The 16-bit length fields of messages.

  Six functions write the length of a string to a field of 16 bits and the whole string
  behind it.  The client takes every path, so its field is wrong for a path that is too
  long; the daemon has only strings that came in such fields.
-/

import Tclm.Client.AccessConcentrator
import Tclm.Server.Replies
import Tclm.Server.Serving

open Tclm.Comm
open Tclm.Comm.Stream
open Tclm.Client
open Tclm.Server
open Tclm.Server.Daemon

namespace Tclm.System

-- ============================================================================
-- Fields
-- ============================================================================

/-- What is read from the field, wherever it stands. -/
theorem lengthField_append (host : ByteOrder) {out rest : List UInt8} {p : Nat}
    (hp : out.length = p) (n : Nat) :
    lengthField host p (out ++ (lengthBytes host n ++ rest)) = UInt16.ofNat n := by
  have hlt : (UInt16.ofNat n).toNat < 256 ^ 2 := (UInt16.ofNat n).toNat_lt
  have hfield : ((out ++ (lengthBytes host n ++ rest)).drop p).take 2 = lengthBytes host n := by
    rw [← hp, List.drop_left]
    exact List.take_left' (length_lengthBytes host n)
  rw [lengthField, hfield, lengthBytes, letoh_wire, Nat.mod_eq_of_lt hlt, UInt16.ofNat_toNat]

/-- A field of 16 bits tells lengths up to 65535. -/
theorem toNat_ofNat_iff (n : Nat) : (UInt16.ofNat n).toNat = n ↔ n ≤ maxPathLength := by
  rw [UInt16.toNat_ofNat', maxPathLength]
  omega

/-- The length field at a position of a message, and the string that stands behind it. -/
structure Field (host : ByteOrder) (p : Nat) (bs string : List UInt8) : Prop where
  follows : string <+: bs.drop (p + 2)
  value : lengthField host p bs = UInt16.ofNat string.length

theorem field_append (host : ByteOrder) (out : List UInt8) {rest string : List UInt8} {p : Nat}
    (hp : out.length = p) :
    Field host p (out ++ (lengthBytes host string.length ++ (string ++ rest))) string where
  follows := by
    have hlen : (out ++ lengthBytes host string.length).length = p + 2 := by
      rw [List.length_append, length_lengthBytes, hp]
    rw [← List.append_assoc, ← hlen, List.drop_left]
    exact List.prefix_append ..
  value := lengthField_append host hp _

-- ============================================================================
-- The client
-- ============================================================================

section Client

variable (host : ByteOrder) {heap : Heap} (hheap : heap.Ample) (pid : UInt32) {path : List UInt8}
  (hpath : path.length + 12 ≤ 2 ^ 63)

include hheap hpath

/-- A request that names a lock, however long its path is. -/
theorem sendMessage_field (id : UInt8) (len : UInt32) (last : UInt8) {copy : StreamM Unit}
    (hcopy : Puts copy path) :
    ∃ s, sendMessage heap (5 + 4 + 2 + path.length + 1) (do
        writeMessageHeader host heap id len
        writeUInt32 host pid
        writeUInt16 host (UInt16.ofNat path.length)
        copy
        writeUInt8 last) = .ok (some s) ∧
      Field host 9 s.bytes path := by
  have hput := (puts_messageHeader host heap id len).bind ((puts_wire host 4 pid.toNat).bind
    ((puts_wire host 2 (UInt16.ofNat path.length).toNat).bind
      (hcopy.bind (puts_writeUInt8 last))))
  obtain ⟨s, hsend, hfilled⟩ := sendMessage_spec hheap hput (n := 5 + 4 + 2 + path.length + 1)
    (by omega) (by
      simp only [List.length_append, List.length_cons, length_wire, List.length_nil]
      omega)
  refine ⟨s, hsend, ?_⟩
  have hnine : (id :: wire host 4 len.toNat ++ wire host 4 pid.toNat).length = 9 := by
    rw [List.length_append, List.length_cons, length_wire, length_wire]
  rw [hfilled.bytes_eq, ← List.append_assoc]
  exact field_append host _ hnine

theorem sendCreateLockRequest_field (acquireX : Bool) :
    ∃ s, sendCreateLockRequest host heap pid path acquireX = .ok (some s) ∧
      Field host 9 s.bytes path :=
  sendMessage_field host hheap pid hpath _ _ _ (puts_copySeekLength path)

theorem sendModeRequest_field (id mode : UInt8) :
    ∃ s, sendModeRequest id host heap pid path mode = .ok (some s) ∧ Field host 9 s.bytes path :=
  sendMessage_field host hheap pid hpath _ _ _ (puts_copyLengthSeek path)

end Client

-- ============================================================================
-- The daemon
-- ============================================================================

/-- A length field that tells the length of the string behind it. -/
def Field.True (host : ByteOrder) (p : Nat) (bs string : List UInt8) : Prop :=
  Field host p bs string ∧ (lengthField host p bs).toNat = string.length

theorem Field.true_iff {host : ByteOrder} {p : Nat} {bs string : List UInt8}
    (h : Field host p bs string) : Field.True host p bs string ↔ string.length ≤ maxPathLength := by
  rw [Field.True, h.value, toNat_ofNat_iff]
  exact ⟨fun hboth => hboth.2, fun hle => ⟨h, hle⟩⟩

/-- The names of locks are short in every list of locks. -/
theorem short_forEachLock {b : Backend} (h : b.Short) :
    ∀ x ∈ b.forest.forEachLock, x.2.name.length ≤ maxPathLength := by
  intro x hx
  rw [LockForest.forEachLock_eq, List.mem_map] at hx
  obtain ⟨y, hy, rfl⟩ := hx
  obtain ⟨c, l, hl, hy⟩ := LockForest.mem_nodes.mp hy
  exact h.names c l hl y hy

section Daemon

variable {env : Env} (hheap : env.heap.Ample) (hheaps : ∀ i, (env.heaps i).Ample) (c : Conn)
  {d : Daemon} (hd : d.backend.Short)

include hheap hheaps hd

/-- The records of the list of all locks. -/
theorem listLocks_fields
    (hsize : 5 + (d.backend.forest.forEachLock.flatMap (lockRecord env.host)).length ≤ 2 ^ 63) :
    ∃ s, d.receiveMessageListLocks env c = .ok ([(c, s)], ∅, d) ∧
      s.bytes.drop 5 = d.backend.forest.forEachLock.flatMap (lockRecord env.host) ∧
      ∀ x ∈ d.backend.forest.forEachLock,
        Field.True env.host 4 (lockRecord env.host x) x.2.name := by
  obtain ⟨s, hrun, hbytes⟩ := listLocks_spec hheap hheaps c d hsize
  refine ⟨s, hrun, ?_, fun x hx => ?_⟩
  · rw [hbytes]
    exact List.drop_left' (by rw [List.length_cons, length_wire])
  · have hfield : Field env.host 4 (lockRecord env.host x) x.2.name :=
      field_append env.host _ (length_wire env.host 4 _)
    exact hfield.true_iff.mpr (short_forEachLock hd x hx)

/-- The records of the list of the locks that a process holds. -/
theorem listLocksOfProcess_fields {input input' : Stream} {pid : UInt32} {p : Process}
    (hread : readUInt32 env.host input = .ok (pid, input'))
    (hp : d.backend.processes.lookup pid = some p)
    (hsize : 11 + (p.heldLocks.entries.flatMap (heldRecord env.host)).length ≤ 2 ^ 63) :
    ∃ s, d.receiveMessageListLocksOfProcess env c input 4 = .ok ([(c, s)], ∅, d) ∧
      s.bytes.drop 11 = p.heldLocks.entries.flatMap (heldRecord env.host) ∧
      ∀ x ∈ p.heldLocks.entries, Field.True env.host 0 (heldRecord env.host x) x.1 := by
  obtain ⟨s, hrun, hbytes⟩ := listLocksOfProcess_spec hheap hheaps c d hread hp hsize
  refine ⟨s, hrun, ?_, fun x hx => ?_⟩
  · rw [hbytes, heldBytes, ← List.append_assoc]
    exact List.drop_left' (by
      simp only [List.length_append, List.length_cons, length_wire])
  · have hfield : Field env.host 0 (heldRecord env.host x) x.1 := field_append env.host [] rfl
    exact hfield.true_iff.mpr (hd.held pid p hp x hx)

omit hheap hd

/-- The update for a request that was answered. -/
theorem notify_field {r : LockRequest} (hr : r.Short) {p : Process} {c' : Conn}
    (hp : d.requester r = some p) (hc : d.tcpConn p.object = some c') (hup : env.up c' = true)
    (i : Nat) :
    ∃ s, d.notify env (env.heaps i) r = .ok [(c', s)] ∧
      Field.True env.host 9 s.bytes (joinPath r.path) := by
  obtain ⟨s, hrun, hfilled⟩ :=
    notify_run (hheaps i) hp hc hup (length_updateBody_lt env.host p.id hr)
  refine ⟨s, hrun, ?_⟩
  have hfield : Field env.host 9 s.bytes (joinPath r.path) := by
    rw [hfilled.bytes_eq, updateBody, ← List.append_assoc]
    exact field_append env.host _
      (by rw [List.length_append, List.length_cons, length_wire, length_wire])
  exact hfield.true_iff.mpr hr.joined

end Daemon

/-- The length fields of the client are right exactly for paths of at most 65535 bytes, and
    those of the daemon always.  (A string takes less than half of the address space.) -/
theorem length_fields (host : ByteOrder) {heap : Heap} (hheap : heap.Ample) (pid : UInt32)
    {path : List UInt8} (hpath : path.length + 12 ≤ 2 ^ 63) {d : Daemon} (hd : Daemon.Reachable d)
    {env : Env} (henv : env.heap.Ample) (henvs : ∀ i, (env.heaps i).Ample) (c : Conn) :
    ((∀ acquireX, ∃ s, sendCreateLockRequest host heap pid path acquireX = .ok (some s) ∧
        (Field.True host 9 s.bytes path ↔ path.length ≤ maxPathLength)) ∧
      (∀ mode, ∃ s, sendAcquireLockRequest host heap pid path mode = .ok (some s) ∧
        (Field.True host 9 s.bytes path ↔ path.length ≤ maxPathLength)) ∧
      (∀ mode, ∃ s, sendReleaseLockRequest host heap pid path mode = .ok (some s) ∧
        (Field.True host 9 s.bytes path ↔ path.length ≤ maxPathLength))) ∧
    (∀ input replies answered d', d.receiveMessageInternal env c input =
        .ok (replies, answered, d') →
      ∀ r ∈ answered, ∀ p c', d'.requester r = some p → d'.tcpConn p.object = some c' →
        env.up c' = true → ∀ i, ∃ s, d'.notify env (env.heaps i) r = .ok [(c', s)] ∧
          Field.True env.host 9 s.bytes (joinPath r.path)) ∧
    (5 + (d.backend.forest.forEachLock.flatMap (lockRecord env.host)).length ≤ 2 ^ 63 →
      ∃ s, d.receiveMessageListLocks env c = .ok ([(c, s)], ∅, d) ∧
        s.bytes.drop 5 = d.backend.forest.forEachLock.flatMap (lockRecord env.host) ∧
        ∀ x ∈ d.backend.forest.forEachLock,
          Field.True env.host 4 (lockRecord env.host x) x.2.name) ∧
    ∀ input input' id p, readUInt32 env.host input = .ok (id, input') →
      d.backend.processes.lookup id = some p →
      11 + (p.heldLocks.entries.flatMap (heldRecord env.host)).length ≤ 2 ^ 63 →
      ∃ s, d.receiveMessageListLocksOfProcess env c input 4 = .ok ([(c, s)], ∅, d) ∧
        s.bytes.drop 11 = p.heldLocks.entries.flatMap (heldRecord env.host) ∧
        ∀ x ∈ p.heldLocks.entries, Field.True env.host 0 (heldRecord env.host x) x.1 := by
  refine ⟨⟨?_, ?_, ?_⟩, ?_, ?_, ?_⟩
  · intro acquireX
    obtain ⟨s, hsend, hfield⟩ := sendCreateLockRequest_field host hheap pid hpath acquireX
    exact ⟨s, hsend, hfield.true_iff⟩
  · intro mode
    obtain ⟨s, hsend, hfield⟩ := sendModeRequest_field host hheap pid hpath MsgId.acquireLock mode
    exact ⟨s, hsend, hfield.true_iff⟩
  · intro mode
    obtain ⟨s, hsend, hfield⟩ := sendModeRequest_field host hheap pid hpath MsgId.releaseLock mode
    exact ⟨s, hsend, hfield.true_iff⟩
  · intro input replies answered d' hreceive r hr p c' hp hc hup i
    exact notify_field henvs ((short_of_receive hreceive hd.short).2 r hr) hp hc hup i
  · exact listLocks_fields henv henvs c hd.short
  · intro input input' id p hread hp hsize
    exact listLocksOfProcess_fields henv henvs c hd.short hread hp hsize

/-- A path of 65535 bytes fits, and a daemon without locks sends an empty list. -/
theorem length_fields_longest :
    (∃ s, sendAcquireLockRequest .little .zeros 1 (List.replicate 65535 0x61) 0 = .ok (some s) ∧
      Field.True .little 9 s.bytes (List.replicate 65535 0x61)) ∧
    ∃ s, receiveMessageListLocks .plain 0 {} = .ok ([(0, s)], ∅, {}) ∧ s.bytes.drop 5 = [] := by
  have hlen : (List.replicate 65535 (0x61 : UInt8)).length = 65535 := List.length_replicate
  have hpath : (List.replicate 65535 (0x61 : UInt8)).length + 12 ≤ 2 ^ 63 := by
    rw [hlen]
    decide
  have hplain : Env.plain.heap.Ample := Heap.ample_zeros
  obtain ⟨⟨-, hacquire, -⟩, -, hlocks, -⟩ := length_fields .little Heap.ample_zeros 1 hpath
    (Lts.Reachable.refl ({} : Daemon)) hplain (fun _ => Heap.ample_zeros) 0
  obtain ⟨s, hsend, hiff⟩ := hacquire 0
  obtain ⟨s', hlist, hbytes, -⟩ := hlocks (by decide)
  exact ⟨⟨s, hsend, hiff.mpr (by rw [hlen]; decide)⟩, s', hlist, hbytes⟩

/-- A path of 65536 bytes has the length zero in its message. -/
theorem length_field_truncated :
    ¬ ∀ (host : ByteOrder) (heap : Heap) (pid : UInt32) (path : List UInt8) (mode : UInt8)
      (s : Stream), path.length + 12 ≤ 2 ^ 63 →
        sendAcquireLockRequest host heap pid path mode = .ok (some s) →
        Field.True host 9 s.bytes path := by
  intro h
  have hlen : (List.replicate 65536 (0x61 : UInt8)).length = 65536 := List.length_replicate
  have hpath : (List.replicate 65536 (0x61 : UInt8)).length + 12 ≤ 2 ^ 63 := by
    rw [hlen]
    decide
  obtain ⟨s, hsend, hfield⟩ :=
    sendModeRequest_field .little Heap.ample_zeros 1 hpath MsgId.acquireLock 0
  have hle := hfield.true_iff.mp (h .little .zeros 1 _ 0 s hpath hsend)
  rw [hlen, maxPathLength] at hle
  omega

end Tclm.System
