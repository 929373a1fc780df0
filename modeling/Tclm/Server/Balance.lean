/-
  Tclm.Server.Balance

  Intent locks that are exactly as many as they have to be, and the two places in
  which the server keeps account of what a process has.

  `Coverage` shows that intent locks suffice.  They are exact (`Balances`) for a
  process and a mode until a waiting request of the process in the mode fails: the
  wake-up loop that answers it starts in the middle of a tree, and the intent locks
  above are not given back.

  What a process has stands in the forest as claims and in `held_locks` as entries.
  The claims form a multiset, the entries a set of path strings and modes.
-/

import Tclm.Server.Requests

namespace Tclm.Server

-- ============================================================================
-- Exact intent locks
-- ============================================================================

theorem count_needs_cons (m : Mode) (c : Claim) (C : Multiset Claim) (p : ProcessRef) :
    (needs m (c ::ₘ C)).count p =
      (needs m C).count p + if c.process = p ∧ c.mode = m.toByte then 1 else 0 := by
  by_cases hm : c.mode = m.toByte
  · rw [needs_cons_of_eq C hm, Multiset.count_cons]
    simp only [hm, and_true, eq_comm]
  · rw [needs_cons_of_ne C hm]
    simp [hm]

namespace LockState

variable {s s' : LockState} {p q : ProcessRef} {m : Mode} {mode : UInt8}

theorem count_intents_of_tryIntent {r : LockRequest} (h : s.tryIntent r = some s') :
    (s'.intents m).count q =
      (s.intents m).count q + if r.requester = q ∧ r.mode = m.toByte then 1 else 0 := by
  rcases tryIntent_eq_some h with ⟨m', hm', -, rfl⟩ | ⟨hm', rfl⟩
  · by_cases hm : m = m'
    · subst hm
      rw [intents_setIntents, Multiset.count_cons]
      simp only [hm', and_true, eq_comm]
    · have hne : ¬ m'.toByte = m.toByte := fun heq => hm (Mode.toByte_injective heq).symm
      simp [intents_setIntents_ne hm, hm', hne]
  · have hne : ¬ r.mode = m.toByte := by
      intro heq
      rw [heq, Mode.ofByte_toByte] at hm'
      cases hm'
    simp [hne]

theorem count_intents_of_eraseIntent (h : s.eraseIntent p mode = .ok s') :
    (s.intents m).count q =
      (s'.intents m).count q + if p = q ∧ mode = m.toByte then 1 else 0 := by
  rcases eraseIntent_eq_ok h with ⟨m', rfl, hmem, rfl⟩ | ⟨hm', rfl⟩
  · by_cases hm : m = m'
    · subst hm
      conv_lhs => rw [← Multiset.cons_erase hmem]
      rw [intents_setIntents, Multiset.count_cons]
      simp only [and_true, eq_comm]
    · have hne : ¬ m'.toByte = m.toByte := fun heq => hm (Mode.toByte_injective heq).symm
      simp [intents_setIntents_ne hm, hne]
  · have hne : ¬ mode = m.toByte := by
      intro heq
      rw [heq, Mode.ofByte_toByte] at hm'
      cases hm'
    simp [hne]

/-- For the processes and modes in `who`, the intent holders are exactly those that the
    claims need. -/
def Balances (who : ProcessRef → UInt8 → Prop) (s : LockState) (C : Multiset Claim) : Prop :=
  ∀ p m, who p m.toByte → (s.intents m).count p = (needs m C).count p

end LockState

/-- The balance is kept as long as no claim in `who` vanishes. -/
theorem balances_rule (who : ProcessRef → UInt8 → Prop) :
    IntentRule (fun c => ¬ who c.process c.mode) (LockState.Balances who) where
  fresh p m _ := by cases m <;> rfl
  congr hintents h p m hwho := by
    rw [hintents m]
    exact h p m hwho
  intend := by
    intro s s' C r hintent h p m hwho
    rw [LockState.count_intents_of_tryIntent hintent, count_needs_cons, h p m hwho]
    rfl
  erase := by
    intro s s' C c herase h p m hwho
    have hcount := h p m hwho
    rw [LockState.count_intents_of_eraseIntent herase, count_needs_cons] at hcount
    exact Nat.add_right_cancel hcount
  forget := by
    intro s C D hD h p m hwho
    have hcount := h p m hwho
    have hzero : (needs m D).count p = 0 := by
      refine Multiset.count_eq_zero.mpr fun hp => ?_
      obtain ⟨c, hc, hmode, rfl⟩ := mem_needs.mp hp
      exact hD c hc (hmode ▸ hwho)
    rwa [needs_add, Multiset.count_add, hzero, Nat.add_zero] at hcount

-- ============================================================================
-- Claims of a forest
-- ============================================================================

namespace LockForest

/-- Every held lock and every waiting request of the forest. -/
def claims (f : LockForest) : Multiset Claim := f.weigh .claims

variable {f f' : LockForest} {c : LockName} {l l' : Lock}

theorem mem_claims {x : Claim} :
    x ∈ f.claims ↔ ∃ y ∈ f.nodes, x ∈ y.2.val.weigh .claims y.1 := by
  have hmem : ∀ Cs : List (Multiset Claim), x ∈ Cs.sum ↔ ∃ C ∈ Cs, x ∈ C := by
    intro Cs
    induction Cs with
    | nil => simp
    | cons C Cs ih => simp [ih]
  rw [claims, weigh_eq_sum, hmem]
  constructor
  · rintro ⟨C, hC, hx⟩
    obtain ⟨y, hy, rfl⟩ := List.mem_map.mp hC
    exact ⟨y, hy, hx⟩
  · rintro ⟨y, hy, hx⟩
    exact ⟨_, List.mem_map_of_mem hy, hx⟩

/-- A claim is a lock held or a request waiting. -/
theorem mem_claims_iff {x : Claim} :
    x ∈ f.claims ↔ ∃ y ∈ f.nodes,
      (y.1 = x.path ∧ ∃ m, x.mode = m.toByte ∧ y.2.val.Holds x.process m) ∨
        ∃ r ∈ y.2.val.lockRequests, r.claim = x := by
  rw [mem_claims]
  refine exists_congr fun y => and_congr_right fun _ => ?_
  rw [LockState.weigh_claims, Multiset.mem_add, LockState.mem_held, Multiset.mem_coe,
    List.mem_map, eq_comm (a := y.1)]

theorem claims_of_adds (h : Updates f f' c l l') (hadds : Lock.Adds l l') :
    f'.claims = f.claims := by
  have hweigh := h.weigh .claims
  rw [hadds.weigh_eq] at hweigh
  exact add_right_cancel hweigh

/-- A call that enters adds its claim. -/
theorem Enters.claims_eq {r r' : LockRequest} {ret : AcquireStatus}
    (h : Enters f r ret f' c l l' r') (hret : ret ≠ .nonExistent) :
    f'.claims = r.claim ::ₘ f.claims := by
  rw [claims, h.weigh_eq, Lock.entry_claims hret, Multiset.singleton_add]
  rfl

/-- A call that leaves takes away what it finds, and the claims of requests that fail. -/
theorem Leaves.claims_eq {p : ProcessRef} {mode : UInt8} {path rest : LockPath}
    {as : List LockRequest} {good : LockRequest → Prop}
    (h : Leaves f p mode path .success f' as c rest l l') (hseats : f.All (LockState.Seats good)) :
    ∃ x, Lock.Finds p mode [c] rest l x ∧
      f.claims = x.claim ::ₘ (f'.claims + Lock.lost as) := by
  obtain ⟨x, hx, hrun⟩ := h.weigh_eq hseats
  refine ⟨x, hx, ?_⟩
  have hweight : x.weight Weights.claims = {x.claim} := by cases x <;> rfl
  have hrun := hrun .claims
  rw [Lock.spent_claims h.releases.status, add_comm (Lock.gained _ _), ← add_assoc] at hrun
  rw [claims, add_right_cancel hrun, hweight, ← Multiset.singleton_add, add_assoc]
  rfl

end LockForest

-- ============================================================================
-- What a release can take away
-- ============================================================================

namespace Lock

/-- A request that `release` withdraws waits on the path, beside those that are lost. -/
theorem Releases.withdrawn_le {p : ProcessRef} {mode : UInt8} {path : LockPath} {l l' : Lock}
    {ret : ReleaseStatus} {as : List LockRequest} {s : LockState} {r : LockRequest}
    (h : Releases p mode path l ret l' as) (hret : ret = .success)
    (hseek : seek p mode path l = .request s) (hr : s.firstRequest p mode = some r)
    (hcreate : r.createMissing = false) :
    r.claim ::ₘ lost as ≤ l.val.pending + pendingBelow path l := by
  induction h with
  | unlocked hunlock => simp [seek, hunlock] at hseek
  | @descended c rest k s₀ s' pre child post child' l' as as' hname hpre hbelow herase hwake ih =>
      subst hname
      have hfind : (pre ++ child :: post).find? (fun d => decide (d.name = child.name)) =
          some child := List.find?_append_cons (by simp) (by simpa using hpre)
      have hchild : seek p mode rest child = .request s := by
        -- the call below succeeded, so it has found something
        have hne := hbelow.seek_ne_nothing rfl
        cases hbelowSeek : seek p mode rest child with
        | nothing => exact absurd hbelowSeek hne
        | lock => simp [seek, hfind, hbelowSeek] at hseek
        | request => simpa [seek, hfind, hbelowSeek] using hseek
      have hs : s'.pending = s₀.pending :=
        LockState.pending_congr (LockState.lockRequests_of_eraseIntent herase)
      have hlost : lost as' ≤ s'.pending := hwake.lost_le
      rw [hs] at hlost
      rw [lost_append, pendingBelow_append_cons hpre, ← Multiset.cons_add, NamedTree.val_node,
        add_comm s₀.pending]
      exact add_le_add (ih rfl hchild) hlost
  | @cancelled path k s₀ s' cs hnot hcancel =>
      rw [seek_of_notReleased hnot, LockState.seek, NamedTree.val_node, hcancel] at hseek
      obtain rfl : s₀ = s := by simpa using hseek
      have hmem : r.claim ∈ s₀.pending := by
        refine Multiset.mem_coe.mpr (List.mem_map_of_mem (List.mem_filter.mpr ⟨?_, by simp [hcreate]⟩))
        exact List.mem_of_find?_eq_some hr
      refine le_trans ?_ (Multiset.le_add_right _ _)
      simpa [lost] using hmem
  | notHeld => cases hret

end Lock

namespace LockForest

/-- The claims of the requests that may not create locks and wait on the path. -/
def pending (f : LockForest) : LockPath → Multiset Claim
  | [] => 0
  | c :: rest =>
      match f.roots.lookup c with
      | some l => l.val.pending + Lock.pendingBelow rest l
      | none => 0

/-- Those of them that name no lock: they fail when they are woken up. -/
def doomed (f : LockForest) (path : LockPath) : Multiset Claim :=
  (f.pending path).filter fun c => (f.node? c.path).isNone

/-- The claims that a release of `p` on the path takes away or may take away: what it
    finds, and the requests that it may wake up to fail. -/
def atRisk (f : LockForest) (p : ProcessRef) (mode : UInt8) (path : LockPath) : Multiset Claim :=
  match f.seek p mode path with
  | .nothing => 0
  | .lock => ⟨p, mode, path⟩ ::ₘ f.doomed path
  | .request s =>
      match s.firstRequest p mode with
      | none => 0
      | some r =>
          -- a doomed request that is withdrawn is among the doomed ones
          if r.createMissing = false ∧ (f.node? r.path).isNone then f.doomed path
          else r.claim ::ₘ f.doomed path

variable {f f' : LockForest} {c : LockName} {l l' : Lock} {p : ProcessRef} {mode : UInt8}
  {path rest : LockPath} {as : List LockRequest} {good : LockRequest → Prop}

theorem Leaves.pending_eq {ret : ReleaseStatus} (h : Leaves f p mode path ret f' as c rest l l') :
    f.pending path = l.val.pending + Lock.pendingBelow rest l := by
  rw [h.path_eq]
  simp only [pending, h.lookup]

/-- Requests fail because they name no lock. -/
theorem Leaves.node?_eq_none_of_lost {ret : ReleaseStatus}
    (h : Leaves f p mode path ret f' as c rest l l') (hseats : f.All (LockState.Seats good))
    {x : Claim} (hx : x ∈ Lock.lost as) : f.node? x.path = none := by
  obtain ⟨r, hr, rfl⟩ := List.mem_map.mp (Multiset.mem_coe.mp hx)
  obtain ⟨hr, hstatus⟩ := List.mem_filter.mp hr
  rcases h.truthful hseats r hr with ⟨hacquired, -⟩ | ⟨-, -, hnone⟩
  · rw [decide_eq_true_eq, hacquired] at hstatus
    cases hstatus
  · exact hnone

theorem Leaves.lost_le_doomed {ret : ReleaseStatus}
    (h : Leaves f p mode path ret f' as c rest l l') (hseats : f.All (LockState.Seats good)) :
    Lock.lost as ≤ f.doomed path := by
  refine Multiset.le_filter.mpr ⟨?_, fun x hx => ?_⟩
  · rw [h.pending_eq]
    exact h.releases.lost_le
  · rw [h.node?_eq_none_of_lost hseats hx]
    rfl

/-- What a leaving call takes away was at risk. -/
theorem Leaves.le_atRisk (h : Leaves f p mode path .success f' as c rest l l')
    (hseats : f.All (LockState.Seats good)) :
    ∃ x : Claim, x.process = p ∧ x.mode = mode ∧ f.claims = x ::ₘ (f'.claims + Lock.lost as) ∧
      x ::ₘ Lock.lost as ≤ f.atRisk p mode path := by
  obtain ⟨x, hx, hclaims⟩ := h.claims_eq hseats
  refine ⟨x.claim, hx.process_eq, hx.mode_eq, hclaims, ?_⟩
  have hlost := h.lost_le_doomed hseats
  have hseek : f.seek p mode path = Lock.seek p mode rest l := by
    rw [h.path_eq]
    exact seek_of_lookup h.lookup
  rcases Lock.seek_of_finds hx with ⟨hfound, hclaim⟩ | ⟨s, r, hfound, hr, hclaim⟩
  · have hpath : [c] ++ rest = path := h.path_eq.symm
    simp only [atRisk, hseek, hfound, hclaim, hpath]
    exact Multiset.cons_le_cons _ hlost
  · simp only [atRisk, hseek, hfound, hr, hclaim]
    split
    · rename_i hdoomed
      refine Multiset.le_filter.mpr ⟨?_, fun y hy => ?_⟩
      · rw [h.pending_eq]
        exact h.releases.withdrawn_le rfl hfound hr hdoomed.1
      · rcases Multiset.mem_cons.mp hy with rfl | hy
        · exact hdoomed.2
        · rw [h.node?_eq_none_of_lost hseats hy]
          rfl
    · exact Multiset.cons_le_cons _ hlost

end LockForest

-- ============================================================================
-- Entries of held_locks
-- ============================================================================

namespace Process

variable {p : Process} {path : PathString} {mode : UInt8} {P : PathString × UInt8 → Bool}

theorem mem_removeHeldLock {e : PathString × UInt8} :
    e ∈ (p.removeHeldLock path mode).heldLocks.entries ↔
      e ∈ p.heldLocks.entries ∧ e ≠ (path, mode) := by
  rw [removeHeldLock, SortedList.mem_erase]
  exact and_congr_right fun _ => not_congr toLex.injective.eq_iff

/-- A new entry counts. -/
theorem countP_addHeldLock (h : (path, mode) ∉ p.heldLocks.entries) :
    (p.addHeldLock path mode).heldLocks.entries.countP P =
      p.heldLocks.entries.countP P + if P (path, mode) then 1 else 0 := by
  have hfree : p.heldLocks.find? (toLex (path, mode)) = none :=
    SortedList.find?_eq_none.mpr fun e he heq => h (toLex.injective heq ▸ he)
  rw [addHeldLock, (SortedList.insert_perm hfree).countP_eq, List.countP_cons]

/-- An entry that is there already does not. -/
theorem addHeldLock_of_mem (h : (path, mode) ∈ p.heldLocks.entries) :
    p.addHeldLock path mode = p := by
  rw [addHeldLock, SortedList.insert_of_mem h]

theorem countP_removeHeldLock (h : (path, mode) ∈ p.heldLocks.entries) :
    p.heldLocks.entries.countP P =
      (p.removeHeldLock path mode).heldLocks.entries.countP P + if P (path, mode) then 1 else 0 := by
  have hperm := SortedList.erase_perm h
  rw [hperm.countP_eq, List.countP_cons]
  rfl

theorem removeHeldLock_of_notMem (h : (path, mode) ∉ p.heldLocks.entries) :
    p.removeHeldLock path mode = p := by
  have hfree : p.heldLocks.find? (toLex (path, mode)) = none :=
    SortedList.find?_eq_none.mpr fun e he heq => h (toLex.injective heq ▸ he)
  rw [removeHeldLock, SortedList.erase_of_find?_none hfree]

theorem size_removeHeldLock_le : (p.removeHeldLock path mode).heldLocks.size ≤ p.heldLocks.size :=
  List.length_filter_le _ _

end Process

-- ============================================================================
-- Registered processes
-- ============================================================================

namespace Backend

/-- Registered processes are different objects, made by this backend. -/
structure Distinct (b : Backend) : Prop where
  issued : ∀ {id p}, b.processes.lookup id = some p → p.object < b.nextProcess
  unique : ∀ {id id' p p'}, b.processes.lookup id = some p → b.processes.lookup id' = some p' →
    p.object = p'.object → id = id'

theorem distinct_init : Distinct init := by
  refine ⟨?_, ?_⟩
  · intro id p hp
    cases hp
  · intro id id' p p' hp
    cases hp

/-- A process after an update is the updated one or was there before. -/
theorem lookup_update_cases {b : Backend} {pid id : UInt32} {f : LockForest} {p p' q : Process}
    (hp : b.processes.lookup pid = some p) (hq : (b.update pid f p').processes.lookup id = some q) :
    (id = pid ∧ q = p') ∨ (id ≠ pid ∧ b.processes.lookup id = some q) := by
  by_cases hid : id = pid
  · subst hid
    rw [lookup_update hp] at hq
    exact Or.inl ⟨rfl, (Option.some.inj hq).symm⟩
  · rw [lookup_update_ne hid] at hq
    exact Or.inr ⟨hid, hq⟩

theorem Distinct.update {b : Backend} {pid : UInt32} {f : LockForest} {p p' : Process}
    (h : Distinct b) (hp : b.processes.lookup pid = some p) (hobj : p'.object = p.object) :
    Distinct (b.update pid f p') := by
  have hold : ∀ {id q}, (b.update pid f p').processes.lookup id = some q →
      ∃ q₀, b.processes.lookup id = some q₀ ∧ q₀.object = q.object := by
    intro id q hq
    rcases lookup_update_cases hp hq with ⟨rfl, rfl⟩ | ⟨-, hq⟩
    · exact ⟨p, hp, hobj.symm⟩
    · exact ⟨q, hq, rfl⟩
  refine ⟨?_, ?_⟩
  · intro id q hq
    obtain ⟨q₀, hq₀, hobj₀⟩ := hold hq
    rw [← hobj₀]
    exact h.issued hq₀
  · intro id id' q q' hq hq' heq
    obtain ⟨q₀, hq₀, hobj₀⟩ := hold hq
    obtain ⟨q₀', hq₀', hobj₀'⟩ := hold hq'
    exact h.unique hq₀ hq₀' (by rw [hobj₀, hobj₀', heq])

theorem Move.distinct {b b' : Backend} {op : Op} {res : Result} {answered : Finset LockRequest}
    (h : Move b op res answered b') (hb : Distinct b) : Distinct b' := by
  cases h with
  | idle | tick | add => exact ⟨hb.issued, hb.unique⟩
  | @enter _ _ pid path mode create p r ret f' l l' r' _ hp =>
      have hupd : Distinct (b.update pid f' (p.addHeldLock path mode)) := hb.update hp rfl
      exact ⟨hupd.issued, hupd.unique⟩
  | release hp => exact hb.update hp rfl
  | register hfree =>
      have hcases : ∀ {id q}, SortedMap.lookup (b.processes.insert
          (b.nextId, ⟨b.nextProcess, b.nextId, SortedList.empty⟩)) id = some q →
          (id = b.nextId ∧ q.object = b.nextProcess) ∨ b.processes.lookup id = some q := by
        intro id q hq
        rcases SortedMap.lookup_insert_cases hfree hq with ⟨hid, rfl⟩ | hq
        · exact Or.inl ⟨hid, rfl⟩
        · exact Or.inr hq
      refine ⟨?_, ?_⟩
      · intro id q hq
        rcases hcases hq with ⟨-, hobj⟩ | hq
        · rw [hobj]
          exact Nat.lt_succ_self _
        · exact Nat.lt_succ_of_lt (hb.issued hq)
      · intro id id' q q' hq hq' heq
        rcases hcases hq with ⟨rfl, hobj⟩ | hq <;> rcases hcases hq' with ⟨rfl, hobj'⟩ | hq'
        · rfl
        · exact absurd (hb.issued hq') (by rw [← heq, hobj]; exact Nat.lt_irrefl _)
        · exact absurd (hb.issued hq) (by rw [heq, hobj']; exact Nat.lt_irrefl _)
        · exact hb.unique hq hq' heq

theorem Distinct.drop {b : Backend} {id : UInt32} (h : Distinct b) : Distinct (b.drop id) :=
  ⟨fun hq => h.issued (lookup_of_drop hq),
    fun hq hq' => h.unique (lookup_of_drop hq) (lookup_of_drop hq')⟩

end Backend

end Tclm.Server
