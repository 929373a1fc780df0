/-
  Tclm.Server.Spelling

  Releasing a lock under another spelling of its path.

  The forest splits paths, so it does the same whatever the spelling.  `held_locks` has
  the strings that were sent: a successful release drops the entry for its own spelling,
  and the entry for the spelling under which the lock was acquired stays.
-/

import Tclm.Server.Termination

namespace Tclm.Server

namespace Process

/-- The spellings under which the process has recorded the lock in a mode. -/
def spellings (p : Process) (path : LockPath) (mode : UInt8) : Set PathString :=
  {s | splitPath s = path ∧ (s, mode) ∈ p.heldLocks.entries}

/-- `held_locks`, read through `split_path`, has an entry for the lock and the mode. -/
def Records (p : Process) (path : LockPath) (mode : UInt8) : Prop :=
  (p.spellings path mode).Nonempty

/-- One spelling in one mode goes. -/
theorem mem_spellings_removeHeldLock {p : Process} {s t : PathString} {m mode : UInt8}
    {path : LockPath} :
    t ∈ (p.removeHeldLock s m).spellings path mode ↔
      t ∈ p.spellings path mode ∧ ¬ (t = s ∧ mode = m) := by
  show splitPath t = path ∧ (t, mode) ∈ SortedList.entries _ ↔ _
  rw [removeHeldLock, SortedList.mem_erase, ← and_assoc]
  exact and_congr_right fun _ => not_congr (by simp)

/-- Other locks and modes stay recorded. -/
theorem spellings_removeHeldLock_of_ne {p : Process} {s : PathString} {m mode : UInt8}
    {path : LockPath} (hne : ¬ (path = splitPath s ∧ mode = m)) :
    (p.removeHeldLock s m).spellings path mode = p.spellings path mode := by
  ext t
  rw [mem_spellings_removeHeldLock, and_iff_left_iff_imp]
  rintro ⟨hpath, -⟩ ⟨rfl, hmode⟩
  exact hne ⟨hpath.symm, hmode⟩

/-- The lock itself stays recorded if there is another spelling. -/
theorem records_removeHeldLock_self {p : Process} {s : PathString} {m : UInt8} {path : LockPath} :
    (p.removeHeldLock s m).Records path m ↔ ∃ t ∈ p.spellings path m, t ≠ s := by
  refine exists_congr fun t => ?_
  rw [mem_spellings_removeHeldLock]
  simp

end Process

/-- Dropping the one or the other element leaves something or nothing in both cases, except where
    there is only one of the two. -/
theorem exists_ne_iff_exists_ne {α : Type*} {S : Set α} {a b : α} :
    ((∃ x ∈ S, x ≠ a) ↔ ∃ x ∈ S, x ≠ b) ↔ a = b ∨ S ≠ {a} ∧ S ≠ {b} := by
  by_cases hab : a = b
  · subst hab
    simp
  have hone : ∀ {a b : α}, a ≠ b → S = {a} → ¬ ((∃ x ∈ S, x ≠ a) ↔ ∃ x ∈ S, x ≠ b) := by
    rintro a b hab rfl h
    obtain ⟨x, hx, hne⟩ := h.mpr ⟨a, rfl, hab⟩
    exact hne hx
  have hmore : ∀ {a b : α}, S ≠ {b} → (∃ x ∈ S, x ≠ a) → ∃ x ∈ S, x ≠ b := by
    rintro a b hS ⟨x, hx, -⟩
    by_contra hnone
    have hall : ∀ y ∈ S, y = b := fun y hy => by_contra fun hne => hnone ⟨y, hy, hne⟩
    exact hS (Set.eq_singleton_iff_unique_mem.mpr ⟨hall x hx ▸ hx, hall⟩)
  rw [or_iff_right hab]
  constructor
  · intro h
    exact ⟨fun hS => hone hab hS h, fun hS => hone (Ne.symm hab) hS h.symm⟩
  · rintro ⟨ha, hb⟩
    exact ⟨hmore hb, hmore ha⟩

namespace LockForest

/-- To the forest all spellings are the same. -/
theorem release_of_splitPath_eq {f f' : LockForest} {p p' : Process} {s s' : PathString}
    {mode : UInt8} {ret : ReleaseStatus} {answered : Finset LockRequest}
    (hsplit : splitPath s = splitPath s')
    (h : f.release p s mode = .ok (ret, f', p', answered)) :
    f.release p s' mode =
      .ok (ret, f', if ret = .success then p.removeHeldLock s' mode else p, answered) := by
  have hroot : rootName s = rootName s' := by
    simp only [rootName, hsplit]
  rw [release] at h ⊢
  rw [hroot, hsplit] at h
  cases hl : f.roots.lookup (rootName s') with
  | none =>
      simp only [hl] at h ⊢
      cases h
      rfl
  | some l =>
      simp only [hl] at h ⊢
      obtain ⟨⟨ret₁, l', answered₁⟩, hrun, h⟩ := bind_eq_ok.mp h
      cases h
      rw [hrun]
      rfl

end LockForest

namespace Backend

/-- Releasing under two spellings of one path returns the same and leaves the same behind,
    `held_locks` being read through `split_path`. -/
def SameRelease (b : Backend) (p : Process) (mode : UInt8) (s s' : PathString) : Prop :=
  ∃ ret f' p₁ p₂ answered,
    b.forest.release p s mode = .ok (ret, f', p₁, answered) ∧
    b.forest.release p s' mode = .ok (ret, f', p₂, answered) ∧
    p₁.object = p₂.object ∧ p₁.id = p₂.id ∧
    ∀ path mode', p₁.Records path mode' ↔ p₂.Records path mode'

/-- The spelling does not matter exactly if there is nothing to release, the spellings are the
    same, or neither of them is the only one under which the process has recorded the lock in
    this mode. -/
theorem sameRelease_iff {b : Backend} (h : Reachable b) {id : UInt32} {p : Process}
    (_hp : b.processes.lookup id = some p) (mode : UInt8) {s s' : PathString}
    (hsplit : splitPath s = splitPath s') :
    SameRelease b p mode s s' ↔
      b.forest.seek p.object mode (splitPath s) = .nothing ∨
        s = s' ∨ p.spellings (splitPath s) mode ≠ {s} ∧ p.spellings (splitPath s) mode ≠ {s'} := by
  obtain ⟨⟨ret, f', p₁, answered⟩, hrun⟩ := h.forest_sound.release_ok p s mode
  have hrun' := LockForest.release_of_splitPath_eq hsplit hrun
  have hfound := LockForest.release_success_iff hrun
  obtain ⟨rfl, -⟩ := LockForest.release_spec hrun
  -- both calls return, so only the entries are left to compare
  have hsame : SameRelease b p mode s s' ↔ ∀ path mode',
      (if ret = .success then p.removeHeldLock s mode else p).Records path mode' ↔
        (if ret = .success then p.removeHeldLock s' mode else p).Records path mode' := by
    constructor
    · rintro ⟨ret₁, f₁, p₁, p₂, answered₁, hrun₁, hrun₂, -, -, hrecords⟩
      rw [hrun] at hrun₁
      rw [hrun'] at hrun₂
      cases hrun₁
      cases hrun₂
      exact hrecords
    · intro hrecords
      refine ⟨_, _, _, _, _, hrun, hrun', ?_, ?_, hrecords⟩
      · split <;> rfl
      · split <;> rfl
  rw [hsame]
  by_cases hret : ret = .success
  · rw [or_iff_right (hfound.mp hret), ← exists_ne_iff_exists_ne]
    simp only [if_pos hret]
    constructor
    · intro hrecords
      have hself := hrecords (splitPath s) mode
      rwa [Process.records_removeHeldLock_self, Process.records_removeHeldLock_self] at hself
    · intro hself path mode'
      by_cases hlock : path = splitPath s ∧ mode' = mode
      · obtain ⟨rfl, rfl⟩ := hlock
        rwa [Process.records_removeHeldLock_self, Process.records_removeHeldLock_self]
      · rw [Process.Records, Process.Records, Process.spellings_removeHeldLock_of_ne hlock,
          Process.spellings_removeHeldLock_of_ne (hsplit ▸ hlock)]
  · have hnothing : b.forest.seek p.object mode (splitPath s) = .nothing :=
      not_not.mp fun hne => hret (hfound.mpr hne)
    simp only [if_neg hret, hnothing, true_or, implies_true]

/-- Process 0 has created `a`. -/
def owner : List Op := [.registerProcess, .createLock 0 [0x61] true]

/-- The lock `a` is given back as `.a` or as `..a`; its entry stays either way. -/
theorem sameRelease_iff_owner :
    ∃ p, (after 1 owner).processes.lookup 0 = some p ∧
      ((after 1 owner).forest.release p [dot, 0x61] 2).toOption.map (·.1) = some .success ∧
      SameRelease (after 1 owner) p 2 [dot, 0x61] [dot, dot, 0x61] := by
  have hproc : ((after 1 owner).processes.lookup 0).any (fun p =>
      decide (((after 1 owner).forest.release p [dot, 0x61] 2).toOption.map (·.1) =
        some .success) &&
      decide (([0x61], 2) ∈ p.heldLocks.entries)) = true := by decide +kernel
  obtain ⟨p, hp, hrun⟩ := (Option.any_eq_true _ _).mp hproc
  obtain ⟨hheld, hentry⟩ := Bool.and_eq_true_iff.mp hrun
  have hspelled : [0x61] ∈ p.spellings (splitPath [dot, 0x61]) 2 :=
    ⟨rfl, of_decide_eq_true hentry⟩
  have hne : ∀ s : PathString, s ≠ [0x61] → p.spellings (splitPath [dot, 0x61]) 2 ≠ {s} := by
    intro s hs heq
    rw [heq] at hspelled
    exact hs hspelled.symm
  refine ⟨p, hp, of_decide_eq_true hheld, ?_⟩
  have hsplit : splitPath [dot, 0x61] = splitPath [dot, dot, 0x61] := by decide
  exact (sameRelease_iff (reachable_after 1 owner) hp 2 hsplit).mpr
    (Or.inr (Or.inr ⟨hne [dot, 0x61] (by decide), hne [dot, dot, 0x61] (by decide)⟩))

/-- The lock `a` is given back as `.a`; its entry stays. -/
theorem release_other_spelling :
    ¬ ∀ (b : Backend) (id : UInt32) (p : Process) (mode : UInt8) (s s' : PathString),
      Reachable b → b.processes.lookup id = some p → splitPath s = splitPath s' →
        SameRelease b p mode s s' := by
  intro h
  have hrun : ((after 1 owner).processes.lookup 0).any (fun p =>
      decide (((after 1 owner).forest.release p [0x61] 2).toOption.map
        (fun x => x.2.2.1.heldLocks.entries) = some []) &&
      decide (((after 1 owner).forest.release p [dot, 0x61] 2).toOption.map
        (fun x => x.2.2.1.heldLocks.entries) = some [([0x61], 2)])) = true := by decide +kernel
  obtain ⟨p, hp, hentries⟩ := (Option.any_eq_true _ _).mp hrun
  obtain ⟨hgone, hleft⟩ := Bool.and_eq_true_iff.mp hentries
  obtain ⟨ret, f', p₁, p₂, answered, hrun₁, hrun₂, -, -, hrecords⟩ :=
    h _ 0 p 2 [0x61] [dot, 0x61] (reachable_after 1 owner) hp rfl
  rw [hrun₁] at hgone
  rw [hrun₂] at hleft
  have hp₁ : p₁.heldLocks.entries = [] := Option.some.inj (of_decide_eq_true hgone)
  have hp₂ : p₂.heldLocks.entries = [([0x61], 2)] := Option.some.inj (of_decide_eq_true hleft)
  obtain ⟨t, -, ht⟩ := (hrecords [[0x61]] 2).mpr
    ⟨[0x61], rfl, by rw [hp₂]; exact List.mem_cons_self ..⟩
  rw [hp₁] at ht
  cases ht

end Backend

end Tclm.Server
