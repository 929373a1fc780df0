/-
  Tclm.Server.Compat

  The compatibility matrix of one lock, and what it means for a tree.

  `Compat` says which holders and intent holders can be entered at one lock at the
  same time.  With coverage it excludes conflicts between levels: a lock held far
  below shows up as an intent lock here.
-/

import Tclm.Server.Coverage

namespace Tclm.Server

/-- Two processes may hold a lock in the first mode and a lock at or below it in the
    second mode at the same time. -/
def Mode.compatible : Mode → Mode → Bool
  | .S, .S => true
  | .S, .Splus => true
  | .Splus, .S => true
  | _, _ => false

namespace LockState

/-- Which holders and intent holders of one lock exclude each other. -/
structure Compat (s : LockState) : Prop where
  xS : s.lockerX ≠ none → s.lockersS = 0
  xIS : s.lockerX ≠ none → s.lockersIS = 0
  xIX : s.lockerX ≠ none → s.lockersIX = 0
  xSplus : ∀ {p q}, s.lockerX = some p → s.lockerSplus = some q → q = p
  xISplus : ∀ {p q}, s.lockerX = some p → q ∈ s.lockersISplus → q = p
  sIX : s.lockersS ≠ 0 → s.lockersIX = 0
  splusISplus : s.lockerSplus ≠ none → s.lockersISplus = 0
  splusIX : ∀ {p q}, s.lockerSplus = some p → q ∈ s.lockersIX → q = p

theorem compat_empty : Compat {} where
  xS _ := rfl
  xIS _ := rfl
  xIX _ := rfl
  xSplus h := by cases h
  xISplus h := by cases h
  sIX _ := rfl
  splusISplus _ := rfl
  splusIX h := by cases h

variable {s s' : LockState} {p q : ProcessRef} {m m' : Mode}

/-- The matrix does not speak about the queue. -/
theorem Compat.setRequests (h : s.Compat) (queue : List LockRequest) :
    Compat { s with lockRequests := queue } :=
  ⟨h.xS, h.xIS, h.xIX, h.xSplus, h.xISplus, h.sIX, h.splusISplus, h.splusIX⟩

/-- Granting a lock keeps the matrix. -/
theorem Compat.addLocker (h : s.Compat) (hmay : s.MayLock p m) : (s.addLocker p m).Compat := by
  cases m with
  | S =>
      obtain ⟨hx, hix⟩ := hmay
      refine ⟨fun hne => absurd hx hne, h.xIS, h.xIX, h.xSplus, h.xISplus, fun _ => hix,
        h.splusISplus, h.splusIX⟩
  | Splus =>
      obtain ⟨-, hisplus, hx, hix⟩ := hmay
      refine ⟨h.xS, h.xIS, h.xIX, ?_, h.xISplus, h.sIX, fun _ => hisplus, ?_⟩
      · intro p' q hp' hq
        obtain rfl : p = q := Option.some.inj hq
        change s.lockerX = some p' at hp'
        rcases hx with hx | hx
        · rw [hx] at hp'; cases hp'
        · rw [hx] at hp'; exact Option.some.inj hp'
      · intro p' q hp' hq
        obtain rfl : p = p' := Option.some.inj hp'
        exact (hix q hq).symm
  | X =>
      obtain ⟨hs, -, his, hix, hsplus, hisplus⟩ := hmay
      refine ⟨fun _ => hs, fun _ => his, fun _ => hix, ?_, ?_, h.sIX, h.splusISplus, h.splusIX⟩
      · intro p' q hp' hq
        obtain rfl : p = p' := Option.some.inj hp'
        change s.lockerSplus = some q at hq
        rcases hsplus with hsplus | hsplus
        · rw [hsplus] at hq; cases hq
        · rw [hsplus] at hq; exact (Option.some.inj hq).symm
      · intro p' q hp' hq
        obtain rfl : p = p' := Option.some.inj hp'
        exact (hisplus q hq).symm

/-- Granting an intent lock keeps the matrix. -/
theorem Compat.intend (h : s.Compat) (hmay : s.MayIntend p m) :
    (s.setIntents (p ::ₘ s.intents m) m).Compat := by
  cases m with
  | S =>
      have hx : s.lockerX = none := hmay
      exact ⟨h.xS, fun hne => absurd hx hne, h.xIX, h.xSplus, h.xISplus, h.sIX, h.splusISplus,
        h.splusIX⟩
  | Splus =>
      obtain ⟨hsplus, hx⟩ := hmay
      refine ⟨h.xS, h.xIS, h.xIX, h.xSplus, ?_, h.sIX, fun hne => absurd hsplus hne, h.splusIX⟩
      intro p' q hp' hq
      rcases Multiset.mem_cons.mp hq with rfl | hq
      · change s.lockerX = some p' at hp'
        rcases hx with hx | hx
        · rw [hx] at hp'; cases hp'
        · rw [hx] at hp'; exact Option.some.inj hp'
      · exact h.xISplus hp' hq
  | X =>
      obtain ⟨hs, hx, hsplus⟩ := hmay
      refine ⟨h.xS, h.xIS, fun hne => absurd hx hne, h.xSplus, h.xISplus, fun hne => absurd hs hne,
        h.splusISplus, ?_⟩
      intro p' q hp' hq
      rcases Multiset.mem_cons.mp hq with rfl | hq
      · change s.lockerSplus = some p' at hp'
        rcases hsplus with hsplus | hsplus
        · rw [hsplus] at hp'; cases hp'
        · rw [hsplus] at hp'; exact Option.some.inj hp'
      · exact h.splusIX hp' hq

/-- Fewer intent holders keep the matrix. -/
theorem Compat.eraseIntent {mode : UInt8} (h : s.Compat) (herase : s.eraseIntent p mode = .ok s') :
    s'.Compat := by
  rcases eraseIntent_eq_ok herase with ⟨m, -, -, rfl⟩ | ⟨-, rfl⟩
  · have hzero : ∀ ps : Multiset ProcessRef, ps = 0 → ps.erase p = 0 := by
      rintro _ rfl
      rfl
    cases m with
    | S =>
        exact ⟨h.xS, fun hne => hzero _ (h.xIS hne), h.xIX, h.xSplus, h.xISplus, h.sIX,
          h.splusISplus, h.splusIX⟩
    | Splus =>
        exact ⟨h.xS, h.xIS, h.xIX, h.xSplus, fun hp hq => h.xISplus hp (Multiset.mem_of_mem_erase hq),
          h.sIX, fun hne => hzero _ (h.splusISplus hne), h.splusIX⟩
    | X =>
        exact ⟨h.xS, h.xIS, fun hne => hzero _ (h.xIX hne), h.xSplus, h.xISplus,
          fun hne => hzero _ (h.sIX hne), h.splusISplus,
          fun hp hq => h.splusIX hp (Multiset.mem_of_mem_erase hq)⟩
  · exact h

/-- Fewer holders keep the matrix. -/
theorem Compat.tryUnlock {mode : UInt8} (h : s.Compat) (hunlock : s.tryUnlock p mode = some s') :
    s'.Compat := by
  unfold LockState.tryUnlock at hunlock
  split at hunlock <;> first | cases hunlock | (split at hunlock <;> cases hunlock)
  · -- S
    have hzero : s.lockersS = 0 → s.lockersS.erase p = 0 := by
      intro hs
      rw [hs]
      rfl
    refine ⟨fun hne => hzero (h.xS hne), h.xIS, h.xIX, h.xSplus, h.xISplus, fun hne => ?_,
      h.splusISplus, h.splusIX⟩
    exact h.sIX fun hs => hne (hzero hs)
  · -- S+
    exact ⟨h.xS, h.xIS, h.xIX, fun _ hq => (by cases hq), h.xISplus, h.sIX,
      fun hne => absurd rfl hne, fun hp => (by cases hp)⟩
  · -- X
    exact ⟨fun hne => absurd rfl hne, fun hne => absurd rfl hne, fun hne => absurd rfl hne,
      fun hp => (by cases hp), fun hp => (by cases hp), h.sIX, h.splusISplus, h.splusIX⟩

/-- Two holders of one lock. -/
theorem Compat.holders (h : s.Compat) (hpq : p ≠ q) (hp : s.Holds p m) (hq : s.Holds q m') :
    m.compatible m' = true := by
  have hS : ∀ {p}, p ∈ s.lockersS → s.lockerX = none := by
    intro p hp
    by_contra hx
    rw [h.xS hx] at hp
    exact absurd hp (Multiset.notMem_zero p)
  cases m <;> cases m' <;> first | rfl | exfalso
  · exact absurd ((hS hp).symm.trans hq) (by simp)
  · exact hpq (Option.some.inj ((show s.lockerSplus = some p from hp).symm.trans hq))
  · exact hpq (h.xSplus hq hp)
  · exact absurd ((hS hq).symm.trans hp) (by simp)
  · exact hpq (h.xSplus hp hq).symm
  · exact hpq (Option.some.inj ((show s.lockerX = some p from hp).symm.trans hq))

/-- A holder of the lock and an intent holder, who is after a lock further down. -/
theorem Compat.holder_intent (h : s.Compat) (hpq : p ≠ q) (hp : s.Holds p m)
    (hq : q ∈ s.intents m') : m.compatible m' = true := by
  have hX : s.lockerX = some p → s.lockerX ≠ none := by
    intro hx
    rw [hx]
    exact Option.some_ne_none p
  have hmem : ∀ {ps : Multiset ProcessRef}, ps = 0 → q ∉ ps := by
    rintro _ rfl
    exact Multiset.notMem_zero q
  cases m <;> cases m' <;> first | rfl | exfalso
  · have hs : s.lockersS ≠ 0 := fun hs => Multiset.notMem_zero p (hs ▸ (show p ∈ s.lockersS from hp))
    exact hmem (h.sIX hs) hq
  · exact hmem (h.splusISplus (by rw [show s.lockerSplus = some p from hp]; simp)) hq
  · exact hpq (h.splusIX hp hq).symm
  · exact hmem (h.xIS (hX hp)) hq
  · exact hpq (h.xISplus hp hq).symm
  · exact hmem (h.xIX (hX hp)) hq

end LockState

-- ============================================================================
-- The matrix in a tree
-- ============================================================================

/-- The matrix at every lock, as a local property. -/
theorem compat_rule {good : LockRequest → Prop} (hgood : Intrinsic good) :
    LocalRule good fun _ s => s.Compat where
  intrinsic := hgood
  fresh _ := LockState.compat_empty
  grows := by
    intro r π s s' _ hgrows hs
    cases hgrows with
    | granted _ hlock =>
        obtain ⟨m, -, hmay, rfl⟩ := LockState.tryLock_eq_some hlock
        exact hs.addLocker hmay
    | intended _ hintent =>
        rcases LockState.tryIntent_eq_some hintent with ⟨m, -, hmay, rfl⟩ | ⟨-, rfl⟩
        · exact hs.intend hmay
        · exact hs
    | enqueued => exact hs.setRequests _

theorem compat_releaseRule {good : LockRequest → Prop} (hgood : Intrinsic good) (p : ProcessRef)
    (mode : UInt8) :
    ReleaseRule good p mode (fun _ s => s.Compat) fun _ s => s.Compat where
  stable := compat_rule hgood
  between := compat_rule hgood
  unlock hs hunlock := hs.tryUnlock hunlock
  erase hs herase := hs.eraseIntent herase
  pop _ hs := hs.setRequests _
  settle hs _ _ := hs

namespace LockState

theorem Compat.cancel {s s' : LockState} {p : ProcessRef} {mode : UInt8} (h : s.Compat)
    (hcancel : s.cancel p mode = some s') : s'.Compat := by
  obtain ⟨pre, r, post, -, -, -, rfl, -⟩ := cancel_eq_some hcancel
  exact h.setRequests _

end LockState

namespace Lock

/-- Whoever has a claim strictly below is an intent holder here. -/
theorem Covered.mem_intents {π ρ : LockPath} {l n : Lock} {c : Claim} {m : Mode}
    (h : Covered π l) (hn : (ρ, n) ∈ NamedTree.descendants π l) (hc : c ∈ n.val.weigh .claims ρ)
    (hm : c.mode = m.toByte) : c.process ∈ l.val.intents m := by
  have hle : n.val.weigh .claims ρ ≤ weighBelow .claims π l :=
    NamedTree.le_sumBelow_of_mem (x := (ρ, n)) hn
  exact Multiset.mem_of_le (h.root m) (mem_needs.mpr ⟨c, Multiset.mem_of_le hle hc, hm, rfl⟩)

/-- Locks held on one line of the tree are compatible. -/
theorem compatible_of_holds {π : LockPath} {l n : Lock} {ρ : LockPath} {p q : ProcessRef}
    {m m' : Mode} (hcov : Covered π l) (hcompat : l.val.Compat)
    (hn : (ρ, n) ∈ NamedTree.nodes π l) (hpq : p ≠ q) (hp : l.val.Holds p m)
    (hq : n.val.Holds q m') : m.compatible m' = true := by
  rw [NamedTree.nodes_eq] at hn
  rcases List.mem_cons.mp hn with heq | hn
  · cases heq
    exact hcompat.holders hpq hp hq
  · have hclaim : (⟨q, m'.toByte, ρ⟩ : Claim) ∈ n.val.weigh .claims ρ := by
      rw [LockState.weigh_claims]
      exact Multiset.mem_add.mpr (Or.inl (LockState.mem_held.mpr ⟨rfl, m', rfl, hq⟩))
    exact hcompat.holder_intent hpq hp (hcov.mem_intents hn hclaim rfl)

end Lock

end Tclm.Server
