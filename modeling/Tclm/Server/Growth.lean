/-
  Tclm.Server.Growth

  Locks never disappear, and holders stay.

  Every operation extends the tree: a lock that exists keeps its address.  Its
  holders stay too, except that a `release` takes a lock from the releasing
  process.  From this follows what an answer of the wake-up loop is worth after
  the whole call (`Truthful`), and where new locks can appear (`new_lock`): never
  below a lock that another process holds exclusively.
-/

import Tclm.Server.Compat

namespace Tclm.Server

-- ============================================================================
-- Relations between the states of one lock
-- ============================================================================

namespace LockState

/-- The processes in `who` keep the locks they hold. -/
def KeepsHolders (who : ProcessRef → Prop) (s s' : LockState) : Prop :=
  ∀ q m, who q → s.Holds q m → s'.Holds q m

/-- A relation between a lock and what it may become in a call of `acquire`. -/
structure Steady (R : LockState → LockState → Prop) : Prop where
  refl : ∀ s, R s s
  trans : ∀ {s s' s''}, R s s' → R s' s'' → R s s''
  lock : ∀ {s s' r}, s.tryLock r = some s' → R s s'
  intent : ∀ {s s' r}, s.tryIntent r = some s' → R s s'
  queue : ∀ (s : LockState) (q : List LockRequest), R s { s with lockRequests := q }

theorem steady_true : Steady fun _ _ => True :=
  ⟨fun _ => trivial, fun _ _ => trivial, fun _ => trivial, fun _ => trivial, fun _ _ => trivial⟩

theorem holds_setIntents {s : LockState} {ps : Multiset ProcessRef} {m m' : Mode} {q : ProcessRef} :
    (s.setIntents ps m).Holds q m' ↔ s.Holds q m' := by
  rw [← mem_lockers, ← mem_lockers, lockers_setIntents]

/-- A new holder takes no place that was occupied. -/
theorem holds_addLocker {s : LockState} {p q : ProcessRef} {m m' : Mode} (hmay : s.MayLock p m)
    (hq : s.Holds q m') : (s.addLocker p m).Holds q m' := by
  cases m with
  | S =>
      cases m' with
      | S => exact Multiset.mem_cons_of_mem hq
      | Splus | X => exact hq
  | Splus =>
      cases m' with
      | S | X => exact hq
      | Splus => exact absurd (hmay.1.symm.trans hq) (by simp)
  | X =>
      cases m' with
      | S | Splus => exact hq
      | X => exact absurd (hmay.2.1.symm.trans hq) (by simp)

theorem holds_addLocker_self {s : LockState} {p : ProcessRef} {m : Mode} :
    (s.addLocker p m).Holds p m := by
  cases m with
  | S => exact Multiset.mem_cons_self ..
  | Splus | X => rfl

theorem steady_keepsHolders (who : ProcessRef → Prop) : Steady (KeepsHolders who) where
  refl _ _ _ _ h := h
  trans h h' q m hq hs := h' q m hq (h q m hq hs)
  lock h _ _ _ hs := by
    obtain ⟨m, -, hmay, rfl⟩ := tryLock_eq_some h
    exact holds_addLocker hmay hs
  intent h _ _ _ hs := by
    rcases tryIntent_eq_some h with ⟨m, -, -, rfl⟩ | ⟨-, rfl⟩
    · exact holds_setIntents.mpr hs
    · exact hs
  queue _ _ _ m _ hs := by cases m <;> exact hs

variable {s s' : LockState} {p : ProcessRef} {mode : UInt8}

theorem keepsHolders_of_eraseIntent (who : ProcessRef → Prop) (h : s.eraseIntent p mode = .ok s') :
    KeepsHolders who s s' := by
  intro q m _ hs
  rcases eraseIntent_eq_ok h with ⟨m', -, -, rfl⟩ | ⟨-, rfl⟩
  · exact holds_setIntents.mpr hs
  · exact hs

/-- Only the releasing process loses a lock. -/
theorem keepsHolders_of_tryUnlock (h : s.tryUnlock p mode = some s') :
    KeepsHolders (· ≠ p) s s' := by
  intro q m hne hs
  unfold tryUnlock at h
  split at h <;> first | cases h | (split at h <;> cases h)
  · cases m with
    | S => exact (Multiset.mem_erase_of_ne hne).mpr hs
    | Splus | X => exact hs
  · rename_i hp
    cases m with
    | S | X => exact hs
    | Splus => exact absurd (Option.some.inj (hp.symm.trans hs)) hne.symm
  · rename_i hp
    cases m with
    | S | Splus => exact hs
    | X => exact absurd (Option.some.inj (hp.symm.trans hs)) hne.symm

end LockState

-- ============================================================================
-- The operations extend the tree
-- ============================================================================

namespace Lock

open NamedTree (node find Extends UniqueNames)
open LockState (Steady KeepsHolders)

variable {R : LockState → LockState → Prop}

theorem extends_trans {R : LockState → LockState → Prop} {l l' l'' : Lock} (hR : Steady R)
    (h : Extends R l l') (h' : Extends R l' l'') : Extends R l l'' :=
  h.trans h' fun _ _ _ hab hbc => hR.trans hab hbc

theorem extends_setRequests (hR : Steady R) (l : Lock) (queue : List LockRequest) :
    Extends R l (l.setRequests queue) := by
  cases l with
  | node k s cs => exact NamedTree.extends_node hR.refl (hR.queue s queue)

/-- A call of `acquire` extends the tree by what it does to single locks. -/
theorem Acquires.extends_of {rest : LockPath} {l l' : Lock} {r r' : LockRequest} {ins : Bool}
    {ret : AcquireStatus} (h : Acquires rest l r ins ret l' r') (hrefl : ∀ s, R s s)
    (hlock : ∀ {s s' r}, s.tryLock r = some s' → R s s')
    (hintent : ∀ {s s' r}, s.tryIntent r = some s' → R s s')
    (hqueue : ∀ (s : LockState) r, R s (s.enqueue r true)) : Extends R l l' := by
  induction h with
  | granted hs => exact NamedTree.extends_node hrefl (hlock hs)
  | @refused k s cs r ins | @blocked c rest k s cs r ins =>
      cases ins with
      | true => exact NamedTree.extends_node hrefl (hqueue s _)
      | false => exact Extends.refl hrefl _
  | descended hs hname hpre _ hbelow ih =>
      subst hname
      exact NamedTree.extends_node_append_cons hrefl (hintent hs) hpre hbelow.name_eq ih
  | failed | missing => exact Extends.refl hrefl _
  | @created c rest k s s' cs r ins ret child' r' hs hnone _ _ hbelow ih =>
      have hname : child'.name = c := hbelow.name_eq
      have hext : Extends R (node k s (cs ++ [])) (node k s' (cs ++ [child'])) :=
        NamedTree.extends_node_insert hrefl (hintent hs) (by simpa [hname] using hnone)
      rwa [List.append_nil] at hext

theorem Acquires.extends {rest : LockPath} {l l' : Lock} {r r' : LockRequest} {ins : Bool}
    {ret : AcquireStatus} (h : Acquires rest l r ins ret l' r') (hR : Steady R) :
    Extends R l l' :=
  h.extends_of hR.refl hR.lock hR.intent fun s _ => hR.queue s _

theorem Wakes.extends {l l' : Lock} {as : List LockRequest} (h : Wakes l l' as) (hR : Steady R) :
    Extends R l l' := by
  induction h with
  | done => exact Extends.refl hR.refl _
  | answered _ hacq _ _ ih | advanced _ hacq _ _ ih =>
      exact extends_trans hR (hacq.extends hR) (extends_trans hR (extends_setRequests hR _ _) ih)
  | stopped => exact extends_setRequests hR _ _

theorem Releases.extends {p : ProcessRef} {mode : UInt8} {path : LockPath} {l l' : Lock}
    {ret : ReleaseStatus} {as : List LockRequest} (h : Releases p mode path l ret l' as)
    (hR : Steady R) (hunlock : ∀ {s s'}, s.tryUnlock p mode = some s' → R s s')
    (herase : ∀ {s s'}, s.eraseIntent p mode = .ok s' → R s s') : Extends R l l' := by
  induction h with
  | unlocked hs hwake =>
      exact extends_trans hR (NamedTree.extends_node hR.refl (hunlock hs)) (hwake.extends hR)
  | descended hname hpre hbelow hs hwake ih =>
      subst hname
      refine extends_trans hR ?_ (hwake.extends hR)
      exact NamedTree.extends_node_append_cons hR.refl (herase hs) hpre hbelow.name_eq ih
  | cancelled _ hcancel =>
      obtain ⟨pre, r, post, -, -, -, rfl, -⟩ := LockState.cancel_eq_some hcancel
      exact NamedTree.extends_node hR.refl (hR.queue _ _)
  | notHeld => exact Extends.refl hR.refl _

/-- Other processes keep their locks in a call of `release`. -/
theorem Releases.keepsHolders {p : ProcessRef} {mode : UInt8} {path : LockPath} {l l' : Lock}
    {ret : ReleaseStatus} {as : List LockRequest} (h : Releases p mode path l ret l' as) :
    Extends (KeepsHolders (· ≠ p)) l l' :=
  h.extends (LockState.steady_keepsHolders _) LockState.keepsHolders_of_tryUnlock
    (LockState.keepsHolders_of_eraseIntent _)

-- ============================================================================
-- Names stay unique
-- ============================================================================

theorem uniqueNames_new (π : LockPath) (k : LockName) : UniqueNames π (new k) :=
  NamedTree.uniqueNames_node.mpr ⟨List.nodup_nil, fun _ hc => by cases hc⟩

/-- The state of the root has nothing to do with names. -/
theorem uniqueNames_node {π : LockPath} {k k' : LockName} {s s' : LockState} {cs : List Lock}
    (h : UniqueNames π (node k s cs)) : UniqueNames π (node k' s' cs) :=
  NamedTree.uniqueNames_node.mpr (NamedTree.uniqueNames_node.mp h)

theorem uniqueNames_setRequests {π : LockPath} {l : Lock} (h : UniqueNames π l)
    (queue : List LockRequest) : UniqueNames π (l.setRequests queue) := by
  cases l with
  | node k s cs => exact uniqueNames_node h

theorem Acquires.uniqueNames {rest π : LockPath} {l l' : Lock} {r r' : LockRequest} {ins : Bool}
    {ret : AcquireStatus} (h : Acquires rest l r ins ret l' r') (hl : UniqueNames π l) :
    UniqueNames π l' := by
  induction h generalizing π with
  | granted | refused | blocked => exact uniqueNames_node hl
  | descended _ hname _ _ hbelow ih =>
      subst hname
      exact hl.replace hbelow.name_eq ih
  | failed | missing => exact hl
  | created _ hnone _ _ hbelow ih =>
      have hname := hbelow.name_eq
      exact hl.insert (by rwa [hname]) (ih (uniqueNames_new _ _))

theorem Wakes.uniqueNames {π : LockPath} {l l' : Lock} {as : List LockRequest} (h : Wakes l l' as)
    (hl : UniqueNames π l) : UniqueNames π l' := by
  induction h with
  | done => exact hl
  | answered _ hacq _ _ ih | advanced _ hacq _ _ ih =>
      exact ih (uniqueNames_setRequests (hacq.uniqueNames hl) _)
  | stopped => exact uniqueNames_setRequests hl _

theorem Releases.uniqueNames {p : ProcessRef} {mode : UInt8} {path π : LockPath} {l l' : Lock}
    {ret : ReleaseStatus} {as : List LockRequest} (h : Releases p mode path l ret l' as)
    (hl : UniqueNames π l) : UniqueNames π l' := by
  induction h generalizing π with
  | unlocked _ hwake => exact hwake.uniqueNames (uniqueNames_node hl)
  | descended hname _ hbelow _ hwake ih =>
      subst hname
      exact hwake.uniqueNames (hl.replace hbelow.name_eq ih)
  | cancelled => exact uniqueNames_node hl
  | notHeld => exact hl

-- ============================================================================
-- What an answer is worth
-- ============================================================================

/-- A granted request holds its target. -/
theorem Acquires.holds {rest : LockPath} {l l' : Lock} {r r' : LockRequest} {ins : Bool}
    {ret : AcquireStatus} (h : Acquires rest l r ins ret l' r') (hret : ret = .acquired) :
    ∃ n m, find rest l' = some n ∧ r.mode = m.toByte ∧ n.val.Holds r.requester m := by
  induction h with
  | @granted k s s' cs r ins hlock =>
      obtain ⟨m, hm, -, rfl⟩ := LockState.tryLock_eq_some hlock
      exact ⟨_, m, rfl, hm, LockState.holds_addLocker_self⟩
  | refused | blocked | failed | missing => cases hret
  | @descended c rest k s s' pre child post r ins ret child' r' _ hname hpre _ hbelow ih =>
      subst hname
      obtain ⟨n, m, hn, hholds⟩ := ih hret
      refine ⟨n, m, ?_, hholds⟩
      rw [← hbelow.name_eq, NamedTree.find_node_append_cons (by simpa [hbelow.name_eq] using hpre)]
      exact hn
  | @created c rest k s s' cs r ins ret child' r' _ hnone _ _ hbelow ih =>
      have hname : child'.name = c := hbelow.name_eq
      obtain ⟨n, m, hn, hholds⟩ := ih hret
      refine ⟨n, m, ?_, hholds⟩
      rw [← hname, NamedTree.find_node_append_cons (by simpa [hname] using hnone)]
      exact hn

/-- A request fails only if its path does not exist. -/
theorem Acquires.find_eq_none {rest : LockPath} {l l' : Lock} {r r' : LockRequest} {ins : Bool}
    {ret : AcquireStatus} (h : Acquires rest l r ins ret l' r') (hret : ret = .nonExistent) :
    find rest l = none := by
  induction h with
  | granted | refused | blocked => cases hret
  | descended _ _ _ hne | created _ _ _ hne => exact absurd hret hne
  | failed _ hname hpre _ ih =>
      subst hname
      rw [NamedTree.find_node_append_cons hpre]
      exact ih hret
  | missing _ hnone => exact NamedTree.find_node_eq_none hnone

/-- An answered request whose status is right: a grant is in force in `l'`, a failure is
    about a path that does not exist in `l`. -/
def Truthful (π : LockPath) (l l' : Lock) (r : LockRequest) : Prop :=
  ∃ rest, r.path = π ++ rest ∧
    ((r.acquireStatus = .acquired ∧
        ∃ n m, find rest l' = some n ∧ r.mode = m.toByte ∧ n.val.Holds r.requester m) ∨
      (r.acquireStatus = .nonExistent ∧ r.createMissing = false ∧ find rest l = none))

/-- Answers stay right if holders stay. -/
theorem Truthful.mono {π : LockPath} {l₀ l l' l'' : Lock} {r : LockRequest}
    {who : ProcessRef → Prop} (h : Truthful π l l' r)
    (hbefore : Extends (fun _ _ => True) l₀ l) (hafter : Extends (KeepsHolders who) l' l'')
    (hwho : who r.requester) : Truthful π l₀ l'' r := by
  obtain ⟨rest, hpath, ⟨hstatus, n, m, hn, hm, hholds⟩ | ⟨hstatus, hcreate, hnone⟩⟩ := h
  · obtain ⟨n', hn', hkeeps⟩ := hafter rest n hn
    exact ⟨rest, hpath, Or.inl ⟨hstatus, n', m, hn', hm, hkeeps _ m hwho hholds⟩⟩
  · exact ⟨rest, hpath, Or.inr ⟨hstatus, hcreate, hbefore.find_eq_none hnone⟩⟩

/-- Everybody keeps his locks while the loop runs. -/
theorem Wakes.keepsHolders {l l' : Lock} {as : List LockRequest} (h : Wakes l l' as) :
    Extends (KeepsHolders fun _ => True) l l' :=
  h.extends (LockState.steady_keepsHolders _)

theorem Wakes.truthful {π : LockPath} {good : LockRequest → Prop} {l l' : Lock}
    {as : List LockRequest} (h : Wakes l l' as) (hseats : l.val.Seats good π) :
    ∀ r ∈ as, Truthful π l l' r := by
  induction h with
  | done | stopped => intro r hr; cases hr
  | @answered l l₁ l' r r' queue ret as hq hacq hret hrest ih =>
      intro x hx
      have hturn := extends_trans LockState.steady_true (hacq.extends LockState.steady_true)
        (extends_setRequests LockState.steady_true l₁ queue)
      rcases List.mem_cons.mp hx with rfl | hx
      · have hat := (hseats r (by simp [hq])).1
        refine ⟨r.remaining, by rw [hacq.same.path, ← hat.path], ?_⟩
        cases ret with
        | acquired =>
            obtain ⟨n, m, hn, hm, hholds⟩ := hacq.holds rfl
            have hkept := extends_trans (LockState.steady_keepsHolders _)
              (extends_setRequests (LockState.steady_keepsHolders _) l₁ queue) hrest.keepsHolders
            obtain ⟨n', hn', hkeeps⟩ := hkept _ n hn
            refine Or.inl ⟨hacq.status_eq, n', m, hn', by rw [hacq.same.mode, hm], ?_⟩
            rw [hacq.same.requester]
            exact hkeeps _ m trivial hholds
        | queued => exact absurd rfl hret
        | nonExistent =>
            refine Or.inr ⟨hacq.status_eq, ?_, hacq.find_eq_none rfl⟩
            rw [hacq.same.createMissing]
            exact hacq.createMissing_eq_false rfl
      · have hx := ih (seats_turn hseats hq) x hx
        exact hx.mono hturn (Extends.refl (LockState.steady_keepsHolders fun _ => True).refl _)
          trivial
  | @advanced l l₁ l' r r' queue as hq hacq hlevel hrest ih =>
      intro x hx
      have hturn := extends_trans LockState.steady_true (hacq.extends LockState.steady_true)
        (extends_setRequests LockState.steady_true l₁ queue)
      have hx := ih (seats_turn hseats hq) x hx
      exact hx.mono hturn (Extends.refl (LockState.steady_keepsHolders fun _ => True).refl _)
        trivial

/-- An answer about a child is an answer about its parent. -/
theorem Truthful.descend {π : LockPath} {k k' : LockName} {s s' : LockState}
    {pre post : List Lock} {child child' : Lock} {r : LockRequest}
    (h : Truthful (π ++ [child.name]) child child' r) (hpre : ∀ d ∈ pre, d.name ≠ child.name)
    (hname : child'.name = child.name) :
    Truthful π (node k s (pre ++ child :: post)) (node k' s' (pre ++ child' :: post)) r := by
  obtain ⟨rest, hpath, h⟩ := h
  refine ⟨child.name :: rest, by simpa using hpath, ?_⟩
  rw [NamedTree.find_node_append_cons hpre, ← hname,
    NamedTree.find_node_append_cons (by simpa [hname] using hpre)]
  exact h

/-- Every answer that a call of `release` returns is right when it returns. -/
theorem Releases.truthful {p : ProcessRef} {mode : UInt8} {path π : LockPath}
    {good : LockRequest → Prop} {l l' : Lock} {ret : ReleaseStatus} {as : List LockRequest}
    (h : Releases p mode path l ret l' as) (hseats : All (LockState.Seats good) π l) :
    ∀ r ∈ as, Truthful π l l' r := by
  induction h generalizing π with
  | @unlocked k s s' cs l' as hunlock hwake =>
      intro r hr
      have hseats' := hseats.root.congr (LockState.frame_of_tryUnlock hunlock).2
      have hbefore : Extends (fun _ _ => True) (node k s cs) (node k s' cs) :=
        NamedTree.extends_node (fun _ => trivial) trivial
      exact (hwake.truthful hseats' r hr).mono hbefore
        (Extends.refl (LockState.steady_keepsHolders fun _ => True).refl _) trivial
  | @descended c rest k s s' pre child post child' l' as as' hname hpre hbelow herase hwake ih =>
      subst hname
      obtain ⟨hseat, -, hseatc⟩ := all_append_cons.mp hseats
      have hseats' := hseat.congr (LockState.lockRequests_of_eraseIntent herase)
      have hbefore : Extends (fun _ _ => True) (node k s (pre ++ child :: post))
          (node k s' (pre ++ child' :: post)) :=
        NamedTree.extends_node_append_cons (fun _ => trivial) trivial hpre hbelow.name_eq
          (hbelow.extends LockState.steady_true (fun _ => trivial) fun _ => trivial)
      intro r hr
      rcases List.mem_append.mp hr with hr | hr
      · have hr : Truthful π (node k s (pre ++ child :: post)) (node k s' (pre ++ child' :: post)) r :=
          (ih hseatc r hr).descend hpre hbelow.name_eq
        exact hr.mono (Extends.refl (fun _ => trivial) _) hwake.keepsHolders trivial
      · exact (hwake.truthful hseats' r hr).mono hbefore
          (Extends.refl (LockState.steady_keepsHolders fun _ => True).refl _) trivial
  | cancelled | notHeld => intro r hr; cases hr

end Lock

-- ============================================================================
-- Where new locks appear
-- ============================================================================

/-- Requests that may create locks ask for mode X. -/
def LockRequest.CreatesInX (r : LockRequest) : Prop :=
  r.createMissing = true → r.mode = Mode.X.toByte

theorem intrinsic_createsInX : Intrinsic LockRequest.CreatesInX := by
  intro r r' hsame hr hcreate
  rw [hsame.mode]
  exact hr (by rw [← hsame.createMissing, hcreate])

/-- The intent lock for X is refused below a lock held in X. -/
theorem LockState.lockerX_of_tryIntent {s s' : LockState} {r : LockRequest}
    (h : s.tryIntent r = some s') (hmode : r.mode = Mode.X.toByte) : s.lockerX = none := by
  rcases tryIntent_eq_some h with ⟨m, hm, hmay, -⟩ | ⟨hm, -⟩
  · have hm' := congrArg Mode.ofByte (hm.symm.trans hmode)
    rw [Mode.ofByte_toByte, Mode.ofByte_toByte] at hm'
    obtain rfl := Option.some.inj hm'
    exact hmay.2.1
  · rw [hmode, Mode.ofByte_toByte] at hm
    cases hm

namespace Lock

open NamedTree (node find Extends UniqueNames)
open LockState (KeepsHolders)

/-- The address is free in `l` and taken in `l'`. -/
def NewIn (l l' : Lock) (τ : LockPath) : Prop := find τ l = none ∧ find τ l' ≠ none

/-- No lock that exists above the address is held in X, but perhaps by a process in
    `who`. -/
def OpenAbove (who : ProcessRef → Prop) (l : Lock) (τ : LockPath) : Prop :=
  ∀ ρ n, ρ <+: τ → find ρ l = some n → ∀ q, n.val.lockerX = some q → who q

theorem OpenAbove.cons {who : ProcessRef → Prop} {k : LockName} {s : LockState}
    {pre post : List Lock} {child : Lock} {τ : LockPath} (h : OpenAbove who child τ)
    (hs : ∀ q, s.lockerX = some q → who q) (hpre : ∀ d ∈ pre, d.name ≠ child.name) :
    OpenAbove who (node k s (pre ++ child :: post)) (child.name :: τ) := by
  intro ρ n hρ hn q hq
  cases ρ with
  | nil =>
      obtain rfl : node k s (pre ++ child :: post) = n := by simpa using hn
      exact hs q hq
  | cons b ρ =>
      obtain ⟨rfl, hρ'⟩ := List.cons_prefix_cons.mp hρ
      rw [NamedTree.find_node_append_cons hpre] at hn
      exact h ρ n hρ' hn q hq

/-- Nothing is new if only the root changes. -/
theorem not_newIn_node {k k' : LockName} {s s' : LockState} {cs : List Lock} {τ : LockPath} :
    ¬ NewIn (node k s cs) (node k' s' cs) τ := by
  rintro ⟨hold, hnew⟩
  cases τ with
  | nil => cases hold
  | cons b τ => exact hnew hold

/-- What is new after one child changed is new below this child. -/
theorem newIn_append_cons {k : LockName} {s s' : LockState} {pre post : List Lock}
    {child child' : Lock} {τ : LockPath} (hpre : ∀ d ∈ pre, d.name ≠ child.name)
    (hname : child'.name = child.name)
    (h : NewIn (node k s (pre ++ child :: post)) (node k s' (pre ++ child' :: post)) τ) :
    ∃ τ', τ = child.name :: τ' ∧ NewIn child child' τ' := by
  obtain ⟨hold, hnew⟩ := h
  cases τ with
  | nil => cases hold
  | cons b τ =>
      by_cases hb : b = child.name
      · subst hb
        refine ⟨τ, rfl, ?_, ?_⟩
        · rwa [NamedTree.find_node_append_cons hpre] at hold
        · rw [← hname, NamedTree.find_node_append_cons (by simpa [hname] using hpre)] at hnew
          exact hnew
      · rw [NamedTree.find_node_append_cons_ne hname hb] at hnew
        exact absurd hold hnew

/-- `acquire` creates locks only for a request that may, and only where nobody holds X
    above. -/
theorem Acquires.new_lock {rest τ : LockPath} {l l' : Lock} {r r' : LockRequest} {ins : Bool}
    {ret : AcquireStatus} (h : Acquires rest l r ins ret l' r') (hmode : r.CreatesInX)
    (hnew : NewIn l l' τ) : r.createMissing = true ∧ OpenAbove (fun _ => False) l τ := by
  induction h generalizing τ with
  | granted | refused | blocked => exact absurd hnew not_newIn_node
  | @descended c rest k s s' pre child post r ins ret child' r' hintent hname hpre _ hbelow ih =>
      subst hname
      obtain ⟨τ', rfl, hnew'⟩ := newIn_append_cons hpre hbelow.name_eq hnew
      obtain ⟨hcreate, hopen⟩ := ih hmode hnew'
      have hX := LockState.lockerX_of_tryIntent hintent (hmode hcreate)
      exact ⟨hcreate, hopen.cons (fun q hq => by rw [hX] at hq; cases hq) hpre⟩
  | failed | missing => exact absurd hnew.1 hnew.2
  | @created c rest k s s' cs r ins ret child' r' hintent hnone hcreate _ hbelow _ =>
      have hname : child'.name = c := hbelow.name_eq
      have hX := LockState.lockerX_of_tryIntent hintent (hmode hcreate)
      refine ⟨hcreate, ?_⟩
      intro ρ n hρ hn q hq
      cases ρ with
      | nil =>
          obtain rfl : node k s cs = n := by simpa using hn
          rw [show (node k s cs).val.lockerX = none from hX] at hq
          cases hq
      | cons b ρ =>
          -- a lock that exists through another child is not above the new one
          obtain ⟨hold, hnew⟩ := hnew
          obtain ⟨τ', rfl⟩ := hρ
          have hb : b = c := by
            by_contra hb
            rw [List.cons_append,
              NamedTree.find_node_insert_ne (k := k) (v := s) (by rw [hname]; exact hb),
              List.append_nil] at hnew
            exact hnew hold
          rw [hb, NamedTree.find_node_eq_none hnone] at hn
          cases hn

/-- If holders are kept, what is open later was open before. -/
theorem OpenAbove.of_extends {who keep : ProcessRef → Prop} {l l' : Lock} {τ : LockPath}
    (h : OpenAbove who l' τ) (hext : Extends (KeepsHolders keep) l l') :
    OpenAbove (fun q => who q ∨ ¬ keep q) l τ := by
  intro ρ n hρ hn q hq
  by_cases hkeep : keep q
  · obtain ⟨n', hn', hkeeps⟩ := hext ρ n hn
    exact Or.inl (h ρ n' hρ hn' q (hkeeps q .X hkeep hq))
  · exact Or.inr hkeep

theorem OpenAbove.imp {who who' : ProcessRef → Prop} {l : Lock} {τ : LockPath}
    (h : OpenAbove who l τ) (himp : ∀ q, who q → who' q) : OpenAbove who' l τ :=
  fun ρ n hρ hn q hq => himp q (h ρ n hρ hn q hq)

/-- The wake-up loop creates locks only for a waiting request that may. -/
theorem Wakes.new_lock {π τ : LockPath} {l l' : Lock} {as : List LockRequest} (h : Wakes l l' as)
    (hseats : l.val.Seats LockRequest.CreatesInX π) (hnew : NewIn l l' τ) :
    (∃ r ∈ l.val.lockRequests, r.createMissing = true) ∧ OpenAbove (fun _ => False) l τ := by
  induction h with
  | done => exact absurd hnew.1 hnew.2
  | @answered l l₁ l' r r' queue ret as hq hacq _ _ ih
  | @advanced l l₁ l' r r' queue as hq hacq _ _ ih =>
      obtain ⟨-, -, hmode⟩ := hseats r (by rw [hq]; exact List.mem_cons_self ..)
      by_cases hfirst : find τ (l₁.setRequests queue) = none
      · obtain ⟨⟨x, hx, hcreate⟩, hopen⟩ := ih (seats_turn hseats hq) ⟨hfirst, hnew.2⟩
        refine ⟨⟨x, by rw [hq]; exact List.mem_cons_of_mem _ hx, hcreate⟩, ?_⟩
        have hsteady := LockState.steady_keepsHolders fun _ => True
        have hext := extends_trans hsteady (hacq.extends hsteady)
          (extends_setRequests hsteady l₁ queue)
        exact (hopen.of_extends hext).imp fun q hq => hq.elim id fun hkeep => hkeep trivial
      · have hnew₁ : NewIn l l₁ τ := by
          refine ⟨hnew.1, fun hnone => hfirst ?_⟩
          cases l₁ with
          | node k s cs =>
              cases τ with
              | nil => cases hnone
              | cons b τ => exact hnone
        obtain ⟨hcreate, hopen⟩ := hacq.new_lock hmode hnew₁
        exact ⟨⟨r, by rw [hq]; exact List.mem_cons_self .., hcreate⟩, hopen⟩
  | @stopped l r queue hq hblocked =>
      cases l with
      | node k s cs => exact absurd hnew not_newIn_node

/-- `release` creates locks only for waiting requests that may, and only where nobody
    but the releasing process holds X above. -/
theorem Releases.new_lock {p : ProcessRef} {mode : UInt8} {path π τ : LockPath} {l l' : Lock}
    {ret : ReleaseStatus} {as : List LockRequest} (h : Releases p mode path l ret l' as)
    (hseats : All (LockState.Seats LockRequest.CreatesInX) π l) (hcov : Covered π l)
    (hcompat : All (fun _ s => s.Compat) π l) (hnew : NewIn l l' τ) :
    (∃ x ∈ NamedTree.nodes π l, ∃ r ∈ x.2.val.lockRequests, r.createMissing = true) ∧
      OpenAbove (· = p) l τ := by
  induction h generalizing π τ with
  | @unlocked k s s' cs l' as hunlock hwake =>
      obtain ⟨-, hqueue⟩ := LockState.frame_of_tryUnlock hunlock
      have hmid : NewIn (node k s' cs) l' τ := by
        refine ⟨?_, hnew.2⟩
        cases τ with
        | nil => cases hnew.1
        | cons b τ => exact hnew.1
      obtain ⟨⟨r, hr, hcreate⟩, hopen⟩ := hwake.new_lock (hseats.root.congr hqueue) hmid
      refine ⟨⟨_, NamedTree.root_mem_nodes .., r, hqueue ▸ hr, hcreate⟩, ?_⟩
      have hext : Extends (KeepsHolders (· ≠ p)) (node k s cs) (node k s' cs) :=
        NamedTree.extends_node (LockState.steady_keepsHolders _).refl
          (LockState.keepsHolders_of_tryUnlock hunlock)
      exact (hopen.of_extends hext).imp fun q hq => hq.elim False.elim not_not.mp
  | @descended c rest k s s' pre child post child' l' as as' hname hpre hbelow herase hwake ih =>
      subst hname
      obtain ⟨hseat, -, hseatc⟩ := all_append_cons.mp hseats
      obtain ⟨-, -, hcovc⟩ := accounted_append_cons.mp hcov
      obtain ⟨hcompats, -, hcompatc⟩ := all_append_cons.mp hcompat
      have hqueue := LockState.lockRequests_of_eraseIntent herase
      by_cases hfirst : find τ (node k s' (pre ++ child' :: post)) = none
      · -- created by the wake-up loop at this node
        obtain ⟨⟨r, hr, hcreate⟩, hopen⟩ := hwake.new_lock (hseat.congr hqueue) ⟨hfirst, hnew.2⟩
        refine ⟨⟨_, NamedTree.root_mem_nodes .., r, hqueue ▸ hr, hcreate⟩, ?_⟩
        have hext : Extends (KeepsHolders (· ≠ p)) (node k s (pre ++ child :: post))
            (node k s' (pre ++ child' :: post)) :=
          NamedTree.extends_node_append_cons (LockState.steady_keepsHolders _).refl
            (LockState.keepsHolders_of_eraseIntent _ herase) hpre hbelow.name_eq hbelow.keepsHolders
        exact (hopen.of_extends hext).imp fun q hq => hq.elim False.elim not_not.mp
      · -- created below: the request waits there for X, so it has an intent lock here
        obtain ⟨τ', rfl, hnew'⟩ := newIn_append_cons hpre hbelow.name_eq ⟨hnew.1, hfirst⟩
        obtain ⟨⟨⟨ρ, n⟩, hn, r, hr, hcreate⟩, hopen⟩ := ih hseatc hcovc hcompatc hnew'
        have hmode : r.mode = Mode.X.toByte := ((hseatc _ hn) r hr).2.2 hcreate
        have hclaim : r.claim ∈ n.val.weigh .claims ρ := by
          rw [LockState.weigh_claims]
          exact Multiset.mem_add.mpr (Or.inr (List.mem_map_of_mem hr))
        have hmem : child ∈ (node k s (pre ++ child :: post)).children := by simp
        have hbelow := NamedTree.mem_descendants.mpr ⟨child, hmem, hn⟩
        have hIX : r.requester ∈ s.lockersIX := hcov.mem_intents hbelow hclaim (m := .X) hmode
        refine ⟨⟨(ρ, n), NamedTree.mem_nodes.mpr (Or.inr ⟨child, hmem, hn⟩), r, hr, hcreate⟩, ?_⟩
        refine hopen.cons (fun q hq => ?_) hpre
        have hzero : s.lockersIX = 0 := hcompats.xIX (by rw [hq]; exact Option.some_ne_none q)
        rw [hzero] at hIX
        exact absurd hIX (Multiset.notMem_zero _)
  | cancelled => exact absurd hnew not_newIn_node
  | notHeld => exact absurd hnew.1 hnew.2

-- ============================================================================
-- Creating without acquiring
-- ============================================================================

/-- What `create_not_held` does to the tree: it adds fresh locks along a path. -/
inductive Adds : Lock → Lock → Prop where
  | refl (l) : Adds l l
  | child {k s pre c c' post} (hpre : ∀ d ∈ pre, d.name ≠ c.name) (hc : Adds c c') :
      Adds (node k s (pre ++ c :: post)) (node k s (pre ++ c' :: post))
  | fresh {k s cs name c'} (hnone : ∀ d ∈ cs, d.name ≠ name) (hc : Adds (new name) c') :
      Adds (node k s cs) (node k s (cs ++ [c']))

theorem createBelow_adds (p : ProcessRef) (path : LockPath) (l : Lock) (ensured : Bool) :
    Adds l (createBelow p path l ensured).2 := by
  induction path generalizing l ensured with
  | nil => cases l; exact .refl _
  | cons c rest ih =>
      cases l with
      | node k s cs =>
          simp only [createBelow]
          cases hsplit : splitChild c cs with
          | some split =>
              obtain ⟨pre, child, post⟩ := split
              obtain ⟨rfl, hname, hpre⟩ := List.splitFirst_eq_some hsplit
              simp only [decide_eq_true_eq] at hname hpre
              subst hname
              by_cases hrest : rest = []
              · simp only [hrest, if_true]
                exact .refl _
              · simp only [hrest, if_false]
                exact .child hpre (ih child _)
          | none =>
              have hnone : ∀ d ∈ cs, d.name ≠ c := by simpa using List.splitFirst_eq_none.mp hsplit
              dsimp only
              split
              · exact .refl _
              · split
                · exact .fresh hnone (.refl _)
                · exact .fresh hnone (ih (new c) _)

theorem Adds.name_eq {l l' : Lock} (h : Adds l l') : l'.name = l.name := by
  cases h <;> rfl

theorem Adds.all {P : LockPath → LockState → Prop} {π : LockPath} {l l' : Lock} (h : Adds l l')
    (hfresh : ∀ ρ, P ρ {}) (hl : All P π l) : All P π l' := by
  induction h generalizing π with
  | refl => exact hl
  | child _ hc ih =>
      obtain ⟨hs, hrest, hchild⟩ := all_append_cons.mp hl
      refine all_append_cons.mpr ⟨hs, hrest, ?_⟩
      rw [hc.name_eq]
      exact ih hchild
  | fresh _ hc ih =>
      obtain ⟨hs, hcs⟩ := all_node.mp hl
      exact all_append_cons.mpr ⟨hs, by simpa using hcs, ih (all_new _ (hfresh _))⟩

theorem Adds.weigh_eq {M : Type} [AddCommMonoid M] {w : Weights M} {π : LockPath} {l l' : Lock}
    (h : Adds l l') : weigh w π l' = weigh w π l := by
  induction h generalizing π with
  | refl => rfl
  | child _ hc ih =>
      rw [weigh_node, weigh_node, weighBelow_append_cons, weighBelow_append_cons, ih, hc.name_eq]
  | fresh _ _ ih =>
      rw [weigh_node, weigh_node, weighBelow_append_cons, ih, weigh_new, zero_add, List.append_nil]

theorem Adds.accounted {S : LockState → Multiset Claim → Prop} {lose : Claim → Prop}
    {π : LockPath} {l l' : Lock} (h : Adds l l') (rule : IntentRule lose S)
    (hl : Accounted S π l) : Accounted S π l' := by
  induction h generalizing π with
  | refl => exact hl
  | child _ hc ih =>
      obtain ⟨hs, hrest, hchild⟩ := accounted_append_cons.mp hl
      refine accounted_append_cons.mpr ⟨?_, hrest, ?_⟩
      · rw [hc.weigh_eq, hc.name_eq]
        exact hs
      · rw [hc.name_eq]
        exact ih hchild
  | fresh _ hc ih =>
      obtain ⟨hs, hcs⟩ := accounted_node.mp hl
      refine accounted_append_cons.mpr ⟨?_, by simpa using hcs, ih (accounted_new rule _ _)⟩
      rw [hc.weigh_eq, weigh_new, zero_add, List.append_nil]
      exact hs

theorem Adds.uniqueNames {π : LockPath} {l l' : Lock} (h : Adds l l') (hl : UniqueNames π l) :
    UniqueNames π l' := by
  induction h generalizing π with
  | refl => exact hl
  | child _ hc ih => exact hl.replace hc.name_eq ih
  | fresh hnone hc ih =>
      have hname := hc.name_eq
      exact hl.insert (by rwa [hname]) (ih (uniqueNames_new _ _))

theorem Adds.extends {R : LockState → LockState → Prop} {l l' : Lock} (h : Adds l l')
    (hR : ∀ s, R s s) : Extends R l l' := by
  induction h with
  | refl => exact Extends.refl hR _
  | child hpre hc ih => exact NamedTree.extends_node_append_cons hR (hR _) hpre hc.name_eq ih
  | @fresh k s cs name c' hnone hc ih =>
      have hname : c'.name = name := hc.name_eq
      have hext : Extends R (node k s (cs ++ [])) (node k s (cs ++ [c'])) :=
        NamedTree.extends_node_insert hR (hR _) (by simpa [hname] using hnone)
      rwa [List.append_nil] at hext

/-- The process holds X on an existing lock above the address. -/
def OwnsAbove (p : ProcessRef) (l : Lock) (τ : LockPath) : Prop :=
  ∃ ρ n, ρ <+: τ ∧ find ρ l = some n ∧ n.val.lockerX = some p

/-- `create_not_held` creates locks only below one that the process holds in X. -/
theorem createBelow_new_lock {p : ProcessRef} {path τ : LockPath} {l : Lock} {ensured : Bool}
    (hnew : NewIn l (createBelow p path l ensured).2 τ) : ensured = true ∨ OwnsAbove p l τ := by
  induction path generalizing l ensured τ with
  | nil => cases l; exact absurd hnew not_newIn_node
  | cons c rest ih =>
      cases l with
      | node k s cs =>
          -- what the test at this node contributes
          have hroot : (ensured || decide (s.lockerX = some p)) = true →
              ensured = true ∨ OwnsAbove p (node k s cs) τ := by
            intro h
            rcases Bool.or_eq_true_iff.mp h with h | h
            · exact Or.inl h
            · exact Or.inr ⟨[], _, List.nil_prefix, rfl, by simpa using h⟩
          simp only [createBelow] at hnew
          cases hsplit : splitChild c cs with
          | some split =>
              obtain ⟨pre, child, post⟩ := split
              obtain ⟨rfl, hname, hpre⟩ := List.splitFirst_eq_some hsplit
              simp only [decide_eq_true_eq] at hname hpre
              subst hname
              by_cases hrest : rest = []
              · simp only [hsplit, hrest, if_true] at hnew
                exact absurd hnew not_newIn_node
              · simp only [hsplit, hrest, if_false] at hnew
                obtain ⟨τ', rfl, hnew'⟩ :=
                  newIn_append_cons hpre (createBelow_adds p rest child _).name_eq hnew
                rcases ih hnew' with hens | ⟨ρ, n, hρ, hn, hX⟩
                · exact hroot hens
                · refine Or.inr ⟨child.name :: ρ, n, List.cons_prefix_cons.mpr ⟨rfl, hρ⟩, ?_, hX⟩
                  rw [NamedTree.find_node_append_cons hpre]
                  exact hn
          | none =>
              simp only [hsplit] at hnew
              by_cases hens : (ensured || decide (s.lockerX = some p)) = true
              · exact hroot hens
              · simp only [hens, Bool.false_eq_true, not_false_eq_true, if_true] at hnew
                exact absurd hnew not_newIn_node

end Lock

end Tclm.Server
