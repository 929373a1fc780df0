/-
  Tclm.Server.Frame

  What a release leaves alone.

  Whoever releases, the other processes keep what they hold, with its multiplicity
  (`KeepsShares`), and their waiting requests stay where they are, move down, or are
  answered (`Follows`).  Both are said of one step on a tree and composed along the
  recursion of `release` and along the loop of `unregister_process`.
-/

import Tclm.Server.Safety

namespace Tclm.Server

-- ============================================================================
-- Shares of a process in a lock
-- ============================================================================

namespace LockState

/-- The processes in `who` keep what they have of a lock, with its multiplicity. -/
structure KeepsShares (who : ProcessRef → Prop) (s s' : LockState) : Prop where
  lockersS : ∀ q, who q → s.lockersS.count q ≤ s'.lockersS.count q
  lockerSplus : ∀ q, who q → s.lockerSplus = some q → s'.lockerSplus = some q
  lockerX : ∀ q, who q → s.lockerX = some q → s'.lockerX = some q
  intents : ∀ q m, who q → (s.intents m).count q ≤ (s'.intents m).count q

variable {who : ProcessRef → Prop} {s s' : LockState} {r : LockRequest}

theorem keepsShares_addLocker {p : ProcessRef} {m : Mode} (hmay : s.MayLock p m) :
    KeepsShares who s (s.addLocker p m) where
  lockersS q _ := by
    cases m with
    | S => exact Multiset.count_le_count_cons ..
    | Splus | X => exact Nat.le_refl _
  lockerSplus q _ hq := by
    cases m with
    | S | X => exact hq
    | Splus =>
        rw [hmay.1] at hq
        cases hq
  lockerX q _ hq := by
    cases m with
    | S | Splus => exact hq
    | X =>
        rw [hmay.2.1] at hq
        cases hq
  intents q m' _ := by rw [intents_addLocker]

theorem keepsShares_setIntents {ps : Multiset ProcessRef} {m : Mode}
    (hps : ∀ q, who q → (s.intents m).count q ≤ ps.count q) :
    KeepsShares who s (s.setIntents ps m) where
  lockersS q _ := by rw [lockersS_setIntents]
  lockerSplus q _ hq := by rwa [lockerSplus_setIntents]
  lockerX q _ hq := by rwa [lockerX_setIntents]
  intents q m' hq := by
    by_cases hm : m' = m
    · subst hm
      rw [intents_setIntents]
      exact hps q hq
    · rw [intents_setIntents_ne hm]

theorem steady_keepsShares (who : ProcessRef → Prop) : Steady (KeepsShares who) where
  refl s := ⟨fun _ _ => Nat.le_refl _, fun _ _ h => h, fun _ _ h => h, fun _ _ _ => Nat.le_refl _⟩
  trans h h' :=
    ⟨fun q hq => (h.lockersS q hq).trans (h'.lockersS q hq),
      fun q hq hs => h'.lockerSplus q hq (h.lockerSplus q hq hs),
      fun q hq hs => h'.lockerX q hq (h.lockerX q hq hs),
      fun q m hq => (h.intents q m hq).trans (h'.intents q m hq)⟩
  lock h := by
    obtain ⟨m, -, hmay, rfl⟩ := tryLock_eq_some h
    exact keepsShares_addLocker hmay
  intent h := by
    rcases tryIntent_eq_some h with ⟨m, -, -, rfl⟩ | ⟨-, rfl⟩
    · exact keepsShares_setIntents fun q _ => Multiset.count_le_count_cons ..
    · exact ⟨fun _ _ => Nat.le_refl _, fun _ _ h => h, fun _ _ h => h, fun _ _ _ => Nat.le_refl _⟩
  queue s queue :=
    ⟨fun _ _ => Nat.le_refl _, fun _ _ h => h, fun _ _ h => h,
      fun _ m _ => by cases m <;> exact Nat.le_refl _⟩

/-- Only the releasing process loses an intent lock. -/
theorem keepsShares_of_eraseIntent {p : ProcessRef} {mode : UInt8}
    (h : s.eraseIntent p mode = .ok s') : KeepsShares (· ≠ p) s s' := by
  rcases eraseIntent_eq_ok h with ⟨m, -, -, rfl⟩ | ⟨-, rfl⟩
  · refine keepsShares_setIntents fun q hq => ?_
    rw [Multiset.count_erase_of_ne hq]
  · exact (steady_keepsShares _).refl _

/-- Only the releasing process loses a lock. -/
theorem keepsShares_of_tryUnlock {p : ProcessRef} {mode : UInt8}
    (h : s.tryUnlock p mode = some s') : KeepsShares (· ≠ p) s s' := by
  have hintents := (frame_of_tryUnlock h).1
  unfold tryUnlock at h
  split at h <;> first | cases h | (split at h <;> cases h)
  · refine ⟨fun q hq => ?_, fun _ _ h => h, fun _ _ h => h, fun q m _ => by rw [hintents m]⟩
    exact (Multiset.count_erase_of_ne hq _).ge
  · rename_i hp
    refine ⟨fun _ _ => Nat.le_refl _, fun q hq hs => ?_, fun _ _ h => h, fun q m _ => by rw [hintents m]⟩
    exact absurd (Option.some.inj (hs.symm.trans hp)) hq
  · rename_i hp
    refine ⟨fun _ _ => Nat.le_refl _, fun _ _ h => h, fun q hq hs => ?_, fun q m _ => by rw [hintents m]⟩
    exact absurd (Option.some.inj (hs.symm.trans hp)) hq

end LockState

namespace Lock

open NamedTree (node find Extends)
open LockState (KeepsShares)

theorem Releases.keepsShares {p : ProcessRef} {mode : UInt8} {path : LockPath} {l l' : Lock}
    {ret : ReleaseStatus} {as : List LockRequest} (h : Releases p mode path l ret l' as) :
    Extends (KeepsShares (· ≠ p)) l l' :=
  h.extends (LockState.steady_keepsShares _) LockState.keepsShares_of_tryUnlock
    LockState.keepsShares_of_eraseIntent

-- ============================================================================
-- The way of a waiting request
-- ============================================================================

/-- The request `x` that waited at the address `ρ` is answered, or waits there or further
    down. -/
def Follows (x : LockRequest) (ρ : LockPath) (l' : Lock) (as : List LockRequest) : Prop :=
  ∃ x', SameRequest x x' ∧
    (x' ∈ as ∨ ∃ σ n', find (ρ ++ σ) l' = some n' ∧ x' ∈ n'.val.lockRequests)

/-- No request of a process in `who` gets lost. -/
def KeepsRequests (who : ProcessRef → Prop) (l l' : Lock) (as : List LockRequest) : Prop :=
  ∀ ρ n x, find ρ l = some n → x ∈ n.val.lockRequests → who x.requester → Follows x ρ l' as

section

variable {who : ProcessRef → Prop} {l l' l'' : Lock} {as as' : List LockRequest}

theorem KeepsRequests.trans (h : KeepsRequests who l l' as) (h' : KeepsRequests who l' l'' as') :
    KeepsRequests who l l'' (as ++ as') := by
  intro ρ n x hn hx hwho
  obtain ⟨x₁, hsame₁, hx₁ | ⟨σ, n₁, hn₁, hx₁⟩⟩ := h ρ n x hn hx hwho
  · exact ⟨x₁, hsame₁, Or.inl (List.mem_append_left _ hx₁)⟩
  · obtain ⟨x₂, hsame₂, hx₂ | ⟨τ, n₂, hn₂, hx₂⟩⟩ :=
      h' (ρ ++ σ) n₁ x₁ hn₁ hx₁ (by rwa [hsame₁.requester])
    · exact ⟨x₂, hsame₁.trans hsame₂, Or.inl (List.mem_append_right _ hx₂)⟩
    · refine ⟨x₂, hsame₁.trans hsame₂, Or.inr ⟨σ ++ τ, n₂, ?_, hx₂⟩⟩
      rwa [← List.append_assoc]

/-- Only the queue of the root changes. -/
theorem keepsRequests_node {k k' : LockName} {s s' : LockState} {cs : List Lock}
    (hq : ∀ x ∈ s.lockRequests, who x.requester → ∃ x', SameRequest x x' ∧ x' ∈ s'.lockRequests) :
    KeepsRequests who (node k s cs) (node k' s' cs) [] := by
  intro ρ n x hn hx hwho
  cases ρ with
  | nil =>
      cases hn
      obtain ⟨x', hsame, hx'⟩ := hq x hx hwho
      exact ⟨x', hsame, Or.inr ⟨[], _, rfl, hx'⟩⟩
  | cons b ρ => exact ⟨x, .refl x, Or.inr ⟨[], n, by rwa [List.append_nil], hx⟩⟩

theorem KeepsRequests.refl (l : Lock) : KeepsRequests who l l [] := by
  cases l with
  | node k s cs => exact keepsRequests_node fun x hx _ => ⟨x, .refl x, hx⟩

/-- One child changes. -/
theorem KeepsRequests.descend {k k' : LockName} {s s' : LockState} {pre post : List Lock}
    {child child' : Lock} (h : KeepsRequests who child child' as)
    (hname : child'.name = child.name) (hpre : ∀ d ∈ pre, d.name ≠ child.name)
    (hqueue : s'.lockRequests = s.lockRequests) :
    KeepsRequests who (node k s (pre ++ child :: post)) (node k' s' (pre ++ child' :: post)) as := by
  intro ρ n x hn hx hwho
  cases ρ with
  | nil =>
      cases hn
      exact ⟨x, .refl x, Or.inr ⟨[], _, rfl, by rwa [NamedTree.val_node, hqueue]⟩⟩
  | cons b ρ =>
      by_cases hb : b = child.name
      · subst hb
        rw [NamedTree.find_node_append_cons hpre] at hn
        obtain ⟨x', hsame, hx' | ⟨σ, n', hn', hx'⟩⟩ := h ρ n x hn hx hwho
        · exact ⟨x', hsame, Or.inl hx'⟩
        · refine ⟨x', hsame, Or.inr ⟨σ, n', ?_, hx'⟩⟩
          rw [List.cons_append, ← hname, NamedTree.find_node_append_cons (by rwa [hname])]
          exact hn'
      · refine ⟨x, .refl x, Or.inr ⟨[], n, ?_, hx⟩⟩
        rw [List.append_nil, NamedTree.find_node_append_cons_ne hname hb]
        exact hn

end

section

variable {rest : LockPath} {l l' : Lock} {r r' : LockRequest} {ins : Bool} {ret : AcquireStatus}

/-- A call of `acquire` takes no request out of a queue. -/
theorem Acquires.keepsQueues (h : Acquires rest l r ins ret l' r') :
    Extends (fun s s' => ∀ x ∈ s.lockRequests, x ∈ s'.lockRequests) l l' := by
  refine h.extends_of (fun _ _ hx => hx) ?_ ?_ ?_
  · intro s s' r hlock x hx
    rwa [LockState.lockRequests_of_tryLock hlock]
  · intro s s' r hintent x hx
    rwa [LockState.lockRequests_of_tryIntent hintent]
  · intro s r x hx
    exact List.mem_append_left _ hx

/-- A request that is queued waits somewhere in the tree. -/
theorem Acquires.enqueued (h : Acquires rest l r ins ret l' r') (hret : ret = .queued)
    (hins : ins = true) : ∃ σ n, find σ l' = some n ∧ r' ∈ n.val.lockRequests := by
  induction h with
  | granted | failed | missing => cases hret
  | refused | blocked =>
      subst hins
      refine ⟨[], _, rfl, ?_⟩
      simp [LockState.enqueue]
  | @descended c rest k s s' pre child post r ins ret child' r' _ hname hpre _ hbelow ih =>
      obtain ⟨σ, n, hn, hr'⟩ := ih hret rfl
      have hc : child'.name = c := hbelow.name_eq.trans hname
      refine ⟨child'.name :: σ, n, ?_, hr'⟩
      rwa [NamedTree.find_node_append_cons (by rwa [hc])]
  | @created c rest k s s' cs r ins ret child' r' _ hnone _ _ hbelow ih =>
      obtain ⟨σ, n, hn, hr'⟩ := ih hret rfl
      have hc : child'.name = c := hbelow.name_eq
      refine ⟨child'.name :: σ, n, ?_, hr'⟩
      rwa [NamedTree.find_node_append_cons (by rwa [hc])]

/-- A request that moves on waits further down. -/
theorem Acquires.moved (h : Acquires rest l r ins .queued l' r')
    (hlevel : r.currentLevel < r'.currentLevel) :
    ∃ c σ n, find (c :: σ) l' = some n ∧ r' ∈ n.val.lockRequests := by
  cases h with
  | refused | blocked => exact absurd hlevel (Nat.lt_irrefl _)
  | @descended c rest _ _ _ pre child post _ _ _ child' _ _ hname hpre _ hbelow =>
      obtain ⟨σ, n, hn, hr'⟩ := hbelow.enqueued rfl rfl
      have hc : child'.name = c := hbelow.name_eq.trans hname
      refine ⟨child'.name, σ, n, ?_, hr'⟩
      rwa [NamedTree.find_node_append_cons (by rwa [hc])]
  | @created c rest _ _ _ cs _ _ _ child' _ _ hnone _ _ hbelow =>
      obtain ⟨σ, n, hn, hr'⟩ := hbelow.enqueued rfl rfl
      have hc : child'.name = c := hbelow.name_eq
      refine ⟨child'.name, σ, n, ?_, hr'⟩
      rwa [NamedTree.find_node_append_cons (by rwa [hc])]

end

/-- One turn of the wake-up loop, if it takes care of the first request. -/
theorem keepsRequests_turn {who : ProcessRef → Prop} {l l₁ : Lock} {r r' : LockRequest}
    {queue as : List LockRequest} {ret : AcquireStatus} (hq : l.val.lockRequests = r :: queue)
    (hacq : Acquires r.remaining l r false ret l₁ r')
    (hfirst : Follows r [] (l₁.setRequests queue) as) :
    KeepsRequests who l (l₁.setRequests queue) as := by
  intro ρ n x hn hx hwho
  cases ρ with
  | nil =>
      cases hn
      rw [hq] at hx
      rcases List.mem_cons.mp hx with rfl | hx
      · exact hfirst
      · exact ⟨x, .refl x, Or.inr ⟨[], _, rfl, hx⟩⟩
  | cons c ρ =>
      obtain ⟨n₁, hn₁, hkept⟩ := hacq.keepsQueues (c :: ρ) n hn
      exact ⟨x, .refl x, Or.inr ⟨[], n₁, by rwa [List.append_nil], hkept x hx⟩⟩

/-- The wake-up loop loses no request. -/
theorem Wakes.keepsRequests {who : ProcessRef → Prop} {l l' : Lock} {as : List LockRequest}
    (h : Wakes l l' as) : KeepsRequests who l l' as := by
  induction h with
  | done => exact .refl _
  | @answered l l₁ l' r r' queue ret as hq hacq _ _ ih =>
      have hfirst : Follows r [] (l₁.setRequests queue) [r'] :=
        ⟨r', hacq.same, Or.inl (List.mem_singleton.mpr rfl)⟩
      exact (keepsRequests_turn hq hacq hfirst).trans ih
  | @advanced l l₁ l' r r' queue as hq hacq hlevel _ ih =>
      obtain ⟨c, σ, n, hn, hr'⟩ := hacq.moved hlevel
      have hfirst : Follows r [] (l₁.setRequests queue) [] :=
        ⟨r', hacq.same, Or.inr ⟨c :: σ, n, hn, hr'⟩⟩
      exact (keepsRequests_turn hq hacq hfirst).trans ih
  | @stopped l r queue hq =>
      cases l with
      | node k s cs =>
          refine keepsRequests_node fun x hx _ => ?_
          have hq : s.lockRequests = r :: queue := hq
          rw [hq] at hx
          rcases List.mem_cons.mp hx with rfl | hx
          · exact ⟨_, .withStatus x .queued, List.mem_cons_self ..⟩
          · exact ⟨x, .refl x, List.mem_cons_of_mem _ hx⟩

/-- A call of `release` loses no request of another process. -/
theorem Releases.keepsRequests {p : ProcessRef} {mode : UInt8} {path : LockPath} {l l' : Lock}
    {ret : ReleaseStatus} {as : List LockRequest} (h : Releases p mode path l ret l' as) :
    KeepsRequests (· ≠ p) l l' as := by
  induction h with
  | unlocked hunlock hwake =>
      obtain ⟨-, hqueue⟩ := LockState.frame_of_tryUnlock hunlock
      exact (keepsRequests_node fun x hx _ => ⟨x, .refl x, by rwa [hqueue]⟩).trans hwake.keepsRequests
  | descended hname hpre hbelow herase hwake ih =>
      subst hname
      exact (ih.descend hbelow.name_eq hpre (LockState.lockRequests_of_eraseIntent herase)).trans
        hwake.keepsRequests
  | cancelled _ hcancel =>
      obtain ⟨pre, r, post, hq, hp, -, rfl, -⟩ := LockState.cancel_eq_some hcancel
      refine keepsRequests_node fun x hx hne => ⟨x, .refl x, ?_⟩
      rw [hq] at hx
      rcases List.mem_append.mp hx with hx | hx
      · exact List.mem_append_left _ hx
      · rcases List.mem_cons.mp hx with rfl | hx
        · exact absurd hp hne
        · exact List.mem_append_right _ hx
  | notHeld => exact .refl _

end Lock

-- ============================================================================
-- The forest
-- ============================================================================

namespace LockForest

open LockState (KeepsShares)
open Lock (SameRequest)

/-- The processes in `who` keep their locks and intent locks, and their waiting requests
    are answered, or wait where they did or further down. -/
structure Spares (who : ProcessRef → Prop) (f f' : LockForest) (answered : Finset LockRequest) :
    Prop where
  shares : f.Extends (KeepsShares who) f'
  requests : ∀ path n x, f.node? path = some n → x ∈ n.val.lockRequests → who x.requester →
    ∃ x', SameRequest x x' ∧
      (x' ∈ answered ∨ ∃ σ n', f'.node? (path ++ σ) = some n' ∧ x' ∈ n'.val.lockRequests)

section

variable {who : ProcessRef → Prop} {f f' f'' : LockForest} {answered answered' : Finset LockRequest}

/-- Nobody leaves a queue. -/
theorem spares_of_extends (hshares : f.Extends (KeepsShares who) f')
    (hqueues : f.Extends (fun s s' => ∀ x ∈ s.lockRequests, x ∈ s'.lockRequests) f') :
    Spares who f f' answered := by
  refine ⟨hshares, fun path n x hn hx _ => ?_⟩
  obtain ⟨n', hn', hkept⟩ := hqueues path n hn
  exact ⟨x, .refl x, Or.inr ⟨[], n', by rwa [List.append_nil], hkept x hx⟩⟩

theorem Spares.refl (f : LockForest) : Spares who f f answered :=
  spares_of_extends (.refl (LockState.steady_keepsShares who).refl f) (.refl (fun _ _ hx => hx) f)

theorem Spares.trans (h : Spares who f f' answered) (h' : Spares who f' f'' answered') :
    Spares who f f'' (answered ∪ answered') := by
  refine ⟨h.shares.trans h'.shares fun _ _ _ hab hbc =>
    (LockState.steady_keepsShares who).trans hab hbc, ?_⟩
  intro path n x hn hx hwho
  obtain ⟨x₁, hsame₁, hx₁ | ⟨σ, n₁, hn₁, hx₁⟩⟩ := h.requests path n x hn hx hwho
  · exact ⟨x₁, hsame₁, Or.inl (Finset.mem_union_left _ hx₁)⟩
  · obtain ⟨x₂, hsame₂, hx₂ | ⟨τ, n₂, hn₂, hx₂⟩⟩ :=
      h'.requests (path ++ σ) n₁ x₁ hn₁ hx₁ (by rwa [hsame₁.requester])
    · exact ⟨x₂, hsame₁.trans hsame₂, Or.inl (Finset.mem_union_right _ hx₂)⟩
    · refine ⟨x₂, hsame₁.trans hsame₂, Or.inr ⟨σ ++ τ, n₂, ?_, hx₂⟩⟩
      rwa [← List.append_assoc]

theorem Leaves.spares {p : ProcessRef} {mode : UInt8} {path rest : LockPath} {ret : ReleaseStatus}
    {as : List LockRequest} {c : LockName} {l l' : Lock}
    (h : Leaves f p mode path ret f' as c rest l l') : Spares (· ≠ p) f f' as.toFinset := by
  refine ⟨h.updates.extends (LockState.steady_keepsShares _).refl h.releases.keepsShares, ?_⟩
  intro path n x hn hx hwho
  cases path with
  | nil => cases hn
  | cons d ρ =>
      by_cases hd : d = c
      · subst hd
        obtain ⟨x', hsame, hx' | ⟨σ, n', hn', hx'⟩⟩ :=
          h.releases.keepsRequests ρ n x (h.updates.node?_before hn) hx hwho
        · exact ⟨x', hsame, Or.inl (List.mem_toFinset.mpr hx')⟩
        · refine ⟨x', hsame, Or.inr ⟨σ, n', ?_, hx'⟩⟩
          rw [List.cons_append, h.updates.node?_after]
          exact hn'
      · refine ⟨x, .refl x, Or.inr ⟨[], n, ?_, hx⟩⟩
        rw [List.append_nil, h.updates.node?_ne hd]
        exact hn

end

/-- Every lock of a sound forest is found at its address. -/
theorem Sound.node?_of_mem {f : LockForest} (hf : f.Sound) {x : LockPath × Lock}
    (hx : x ∈ f.nodes) : f.node? x.1 = some x.2 := by
  obtain ⟨c, l, hl, hmem⟩ := mem_nodes.mp hx
  obtain ⟨ρ, haddr, hfind⟩ := NamedTree.find_of_mem_nodes l (hf.unique c l hl) hmem
  rw [haddr, List.singleton_append, node?, hl]
  exact hfind

end LockForest

-- ============================================================================
-- Runs
-- ============================================================================

namespace Backend

open Lock (SameRequest)

/-- A move spares everybody but its issuer. -/
theorem Move.spares {b b' : Backend} {op : Op} {res : Result} {answered : Finset LockRequest}
    {q : ProcessRef} (h : Move b op res answered b')
    (hother : ∀ pid p, op.issuer = some pid → b.processes.lookup pid = some p → q ≠ p.object) :
    LockForest.Spares (· = q) b.forest b'.forest answered := by
  cases h with
  | idle | tick | register => exact .refl _
  | enter hask hp hsame henter =>
      exact LockForest.spares_of_extends
        (henter.updates.extends (LockState.steady_keepsShares _).refl
          (henter.acquires.extends (LockState.steady_keepsShares _)))
        (henter.updates.extends (fun _ _ hx => hx) henter.acquires.keepsQueues)
  | add hp hl =>
      have hupd := LockForest.updates_setRoot hl
      have hadds := LockForest.createNotHeld_adds
      exact LockForest.spares_of_extends
        ((hupd _).extends (LockState.steady_keepsShares _).refl
          ((hadds ..).extends (LockState.steady_keepsShares _).refl))
        ((hupd _).extends (fun _ _ hx => hx) ((hadds ..).extends fun _ _ hx => hx))
  | release hp hleave =>
      have hne := hother _ _ rfl hp
      obtain ⟨hshares, hrequests⟩ := hleave.spares
      refine ⟨fun path n hn => ?_, fun path n x hn hx hq => hrequests path n x hn hx (hq ▸ hne)⟩
      obtain ⟨n', hn', hkeeps⟩ := hshares path n hn
      exact ⟨n', hn', fun q' hq' => hkeeps.lockersS q' (hq' ▸ hne),
        fun q' hq' => hkeeps.lockerSplus q' (hq' ▸ hne),
        fun q' hq' => hkeeps.lockerX q' (hq' ▸ hne),
        fun q' m hq' => hkeeps.intents q' m (hq' ▸ hne)⟩

/-- The release loop of `unregister_process` spares everybody but the process. -/
theorem Unregistering.spares {b b₁ : Backend} {id : UInt32} {answered : Finset LockRequest}
    {locks : List (PathString × UInt8)} {q : ProcessRef} (h : Unregistering b id answered b₁ locks)
    (hother : ∀ p, b.processes.lookup id = some p → q ≠ p.object) :
    LockForest.Spares (· = q) b.forest b₁.forest answered ∧
      ∀ p, b₁.processes.lookup id = some p → q ≠ p.object := by
  induction h with
  | start => exact ⟨.refl _, hother⟩
  | pass _ _ _ ih => exact ih
  | call _ hrel ih =>
      obtain ⟨hspares, hobject⟩ := ih
      have hmove := move_of_releaseLock hrel
      have hcall := hmove.spares (q := q) fun pid p hpid hp => by
        obtain rfl := Option.some.inj hpid
        exact hobject p hp
      refine ⟨hspares.trans hcall, fun p hp => ?_⟩
      obtain ⟨p₁, hp₁, heq⟩ := hmove.object_eq rfl hp
      rw [← heq]
      exact hobject p₁ hp₁

theorem Step.spares {b b' : Backend} {e : Event} {q : ProcessRef} (h : Step b e b')
    (hother : ∀ pid p, e.op.issuer = some pid → b.processes.lookup pid = some p → q ≠ p.object) :
    LockForest.Spares (· = q) b.forest b'.forest e.answered := by
  obtain ⟨fuel, h⟩ := h
  obtain ⟨op, res, answered⟩ := e
  cases op with
  | registerProcess =>
      cases h
      exact (move_of_register b).spares hother
  | unregisterProcess id =>
      obtain ⟨⟨res', answered', b₁⟩, hrun, h⟩ := bind_eq_ok.mp h
      cases h
      rcases unregisterProcess_spec hrun with ⟨-, -, rfl, rfl⟩ | ⟨b₁, p, hloop, -, -, -, rfl⟩
      · exact .refl _
      · exact (hloop.spares fun p hp => hother id p rfl hp).1
  | createLock pid path acquireX =>
      obtain ⟨⟨res', b₁⟩, hrun, h⟩ := bind_eq_ok.mp h
      cases h
      exact (move_of_createLock hrun).spares hother
  | acquireLock pid path mode =>
      obtain ⟨⟨res', b₁⟩, hrun, h⟩ := bind_eq_ok.mp h
      cases h
      exact (move_of_acquireLock hrun).spares hother
  | releaseLock pid path mode =>
      obtain ⟨⟨res', answered', b₁⟩, hrun, h⟩ := bind_eq_ok.mp h
      cases h
      exact (move_of_releaseLock hrun).spares hother

/-- `NOT_HELD` changes nothing. -/
theorem Step.eq_of_notHeld {b b' : Backend} {e : Event} (h : Step b e b')
    (hres : e.result = .released .notHeld) : b' = b ∧ e.answered = ∅ := by
  obtain ⟨fuel, h⟩ := h
  obtain ⟨op, res, answered⟩ := e
  obtain rfl : res = .released .notHeld := hres
  cases op with
  | registerProcess => cases h
  | unregisterProcess | createLock | acquireLock =>
      obtain ⟨x, -, h⟩ := bind_eq_ok.mp h
      cases h
  | releaseLock pid path mode =>
      obtain ⟨⟨res', answered', b₁⟩, hrun, h⟩ := bind_eq_ok.mp h
      cases h
      cases move_of_releaseLock hrun with
      | idle => exact ⟨rfl, rfl⟩
      | tick hop => cases hop
      | enter hask => cases hask

/-- An operation that is issued for one process does not hurt the others.  At every lock
    they keep what they hold and their intent locks with their multiplicities; each of
    their waiting requests still waits, at the same lock or below it, or is answered; no
    lock disappears.  A release that returns `NOT_HELD` changes nothing at all. -/
theorem others_spared {b b' : Backend} {e : Event} (h : Reachable b) (hstep : Step b e b') :
    (∀ q, (∀ pid p, e.op.issuer = some pid → b.processes.lookup pid = some p → q ≠ p.object) →
      ∀ x ∈ b.forest.nodes, ∃ n', b'.forest.node? x.1 = some n' ∧
        x.2.val.KeepsShares (· = q) n'.val ∧
        ∀ r ∈ x.2.val.lockRequests, r.requester = q → ∃ r', SameRequest r r' ∧
          (r' ∈ e.answered ∨
            ∃ σ n'', b'.forest.node? (x.1 ++ σ) = some n'' ∧ r' ∈ n''.val.lockRequests)) ∧
    (e.result = .released .notHeld → b' = b ∧ e.answered = ∅) := by
  refine ⟨fun q hother x hx => ?_, hstep.eq_of_notHeld⟩
  have hspares := hstep.spares hother
  have hnode := h.forest_sound.node?_of_mem hx
  obtain ⟨n', hn', hkeeps⟩ := hspares.shares x.1 x.2 hnode
  exact ⟨n', hn', hkeeps, fun r hr hq => hspares.requests x.1 x.2 r hnode hr hq⟩

/-- Process 0 holds X on `a`, process 1 waits for S+. -/
def awaited : List Op := owning ++ [.acquireLock 1 [0x61] 1]

theorem others_spared_awaited :
    ∃ x ∈ (after 1 awaited).forest.nodes, ∃ r ∈ x.2.val.lockRequests, r.requester = 1 ∧
      ∃ r', SameRequest r r' ∧
        (r' ∈ answeredBy 1 (after 1 awaited) (.releaseLock 0 [0x61] 2) ∨
          ∃ σ n, (next 1 (after 1 awaited) (.releaseLock 0 [0x61] 2)).forest.node? (x.1 ++ σ) =
            some n ∧ r' ∈ n.val.lockRequests) := by
  have hres : ((after 1 awaited).step 1 (.releaseLock 0 [0x61] 2)).toOption.map Prod.fst =
      some (.released .released) := by decide +kernel
  have hwaits : ((after 1 awaited).forest.nodes.any fun x =>
      x.2.val.lockRequests.any fun r => decide (r.requester = 1)) = true := by decide +kernel
  have hissuer : ((after 1 awaited).processes.lookup 0).all (fun p => p.object ≠ 1) = true := by
    decide +kernel
  obtain ⟨x, hx, hany⟩ := List.any_eq_true.mp hwaits
  obtain ⟨r, hr, hq⟩ := List.any_eq_true.mp hany
  have hother : ∀ pid p, Op.issuer (.releaseLock 0 [0x61] 2) = some pid →
      (after 1 awaited).processes.lookup pid = some p → 1 ≠ p.object := by
    intro pid p hpid hp
    obtain rfl : 0 = pid := Option.some.inj hpid
    rw [hp] at hissuer
    exact (of_decide_eq_true hissuer).symm
  have hspared := others_spared (reachable_after 1 awaited) (step_next hres)
  obtain ⟨n', -, -, hfollows⟩ := hspared.1 1 hother x hx
  exact ⟨x, hx, r, hr, of_decide_eq_true hq, hfollows r hr (of_decide_eq_true hq)⟩

end Backend

end Tclm.Server
