/-
  Tclm.Server.Commute

  Acquiring incomparable locks, in either order.

  A call of `acquire` for an existing path decides at every lock on the way whether it
  goes on, and leaves one change at each lock it has passed (`plan`).  What it reads on
  the way are the holders, what it writes there are intent locks, so two calls whose
  targets are not above one another see the same decisions in either order, and their
  changes commute, but for two requests that are put into one queue.
-/

import Tclm.Lib.TreeEdit
import Tclm.Server.Safety

namespace Tclm.Server

-- ============================================================================
-- Changes of one lock
-- ============================================================================

namespace LockState

/-- The request gets the intent lock it needs to go on. -/
def Permits (s : LockState) (r : LockRequest) : Prop :=
  match Mode.ofByte r.mode with
  | some m => s.MayIntend r.requester m
  | none => True

instance decidablePermits (s : LockState) (r : LockRequest) : Decidable (s.Permits r) :=
  match h : Mode.ofByte r.mode with
  | some m => decidable_of_iff (s.MayIntend r.requester m) (by simp [Permits, h])
  | none => decidable_of_iff True (by simp [Permits, h])

/-- Enter the intent lock for the request. -/
def intend (r : LockRequest) (s : LockState) : LockState :=
  match Mode.ofByte r.mode with
  | some m => s.setIntents (r.requester ::ₘ s.intents m) m
  | none => s

/-- Enter the requester as a holder. -/
def grant (r : LockRequest) (s : LockState) : LockState :=
  match Mode.ofByte r.mode with
  | some m => s.addLocker r.requester m
  | none => s

theorem permits_of_tryIntent {s s' : LockState} {r : LockRequest} (h : s.tryIntent r = some s') :
    s.Permits r ∧ s' = s.intend r := by
  rcases tryIntent_eq_some h with ⟨m, hm, hmay, rfl⟩ | ⟨hm, rfl⟩
  · simp [Permits, intend, hm, hmay]
  · simp [Permits, intend, hm]

theorem not_permits_of_tryIntent {s : LockState} {r : LockRequest} (h : s.tryIntent r = none) :
    ¬ s.Permits r := by
  unfold tryIntent at h
  cases hm : Mode.ofByte r.mode with
  | none => simp [hm] at h
  | some m => simpa [Permits, hm] using h

theorem eq_grant_of_tryLock {s s' : LockState} {r : LockRequest} (h : s.tryLock r = some s') :
    s' = s.grant r := by
  obtain ⟨m, hm, -, rfl⟩ := tryLock_eq_some h
  rw [grant, hm, Mode.ofByte_toByte]

/-- The holders are the same. -/
structure SameHolders (s s' : LockState) : Prop where
  lockersS : s'.lockersS = s.lockersS
  lockerSplus : s'.lockerSplus = s.lockerSplus
  lockerX : s'.lockerX = s.lockerX

theorem SameHolders.refl (s : LockState) : SameHolders s s := ⟨rfl, rfl, rfl⟩

theorem SameHolders.trans {s s' s'' : LockState} (h : SameHolders s s') (h' : SameHolders s' s'') :
    SameHolders s s'' :=
  ⟨h'.lockersS.trans h.lockersS, h'.lockerSplus.trans h.lockerSplus, h'.lockerX.trans h.lockerX⟩

/-- Going on depends on holders only. -/
theorem SameHolders.permits_iff {s s' : LockState} (h : SameHolders s s') (r : LockRequest) :
    s'.Permits r ↔ s.Permits r := by
  unfold Permits
  cases Mode.ofByte r.mode with
  | none => rfl
  | some m => cases m <;> simp [MayIntend, h.lockersS, h.lockerSplus, h.lockerX]

theorem sameHolders_intend (s : LockState) (r : LockRequest) : SameHolders s (s.intend r) := by
  unfold intend
  cases Mode.ofByte r.mode with
  | none => exact .refl s
  | some m => exact ⟨lockersS_setIntents, lockerSplus_setIntents, lockerX_setIntents⟩

theorem sameHolders_enqueue (s : LockState) (r : LockRequest) :
    SameHolders s (s.enqueue r true) := ⟨rfl, rfl, rfl⟩

/-- Intent locks can be entered in any order. -/
theorem intend_comm (s : LockState) (r r' : LockRequest) :
    (s.intend r).intend r' = (s.intend r').intend r := by
  unfold intend
  cases Mode.ofByte r.mode with
  | none => rfl
  | some m =>
      cases Mode.ofByte r'.mode with
      | none => rfl
      | some m' => cases m <;> cases m' <;> simp [setIntents, intents, Multiset.cons_swap]

theorem intend_enqueue (s : LockState) (r r' : LockRequest) :
    (s.enqueue r' true).intend r = (s.intend r).enqueue r' true := by
  unfold intend
  cases Mode.ofByte r.mode with
  | none => rfl
  | some m => cases m <;> rfl

end LockState

/-- What a call of `acquire` leaves at a lock. -/
inductive Change where
  | intend (r : LockRequest)
  | grant (r : LockRequest)
  | enqueue (r : LockRequest)

namespace Change

/-- Make the change. -/
def apply : Change → LockState → LockState
  | .intend r, s => s.intend r
  | .grant r, s => s.grant r
  | .enqueue r, s => s.enqueue r true

/-- The change puts a request into the queue. -/
def isEnqueue : Change → Bool
  | .enqueue _ => true
  | _ => false

/-- The change makes somebody a holder. -/
def isGrant : Change → Bool
  | .grant _ => true
  | _ => false

/-- Changes commute if they add no holder and not both put a request into the queue. -/
theorem apply_comm {x y : Change} (hx : x.isGrant = false) (hy : y.isGrant = false)
    (hqueue : x.isEnqueue = true → y.isEnqueue = false) (s : LockState) :
    x.apply (y.apply s) = y.apply (x.apply s) := by
  cases x with
  | grant => cases hx
  | intend r =>
      cases y with
      | grant => cases hy
      | intend r' => exact LockState.intend_comm s r' r
      | enqueue r' => exact LockState.intend_enqueue s r r'
  | enqueue r =>
      cases y with
      | grant => cases hy
      | intend r' => exact (LockState.intend_enqueue s r' r).symm
      | enqueue => cases hqueue rfl

theorem sameHolders_apply {x : Change} (hx : x.isGrant = false) (s : LockState) :
    LockState.SameHolders s (x.apply s) := by
  cases x with
  | grant => cases hx
  | intend r => exact LockState.sameHolders_intend s r
  | enqueue r => exact LockState.sameHolders_enqueue s r

end Change

-- ============================================================================
-- The plan of a call
-- ============================================================================

namespace Lock

open NamedTree (node find edit modify modifyChild)

/-- What a call of `acquire` that creates no locks returns, and the changes it makes, with
    their addresses. -/
def plan : LockPath → Lock → LockRequest → AcquireStatus × List (LockPath × Change)
  | [], l, r =>
      if (l.val.tryLock r).isSome then (.acquired, [([], .grant r)])
      else (.queued, [([], .enqueue r)])
  | c :: rest, l, r =>
      if l.val.Permits r then
        match l.children.find? fun d => d.name = c with
        | none => (.nonExistent, [])
        | some child =>
            let (ret, xs) := plan rest child r.advance
            if ret = .nonExistent then (.nonExistent, [])
            else (ret, ([], .intend r) :: xs.map fun x => (c :: x.1, x.2))
      else (.queued, [([], .enqueue r)])

/-- Make the changes. -/
def applyAll (xs : List (LockPath × Change)) (l : Lock) : Lock :=
  edit (xs.map fun x => (x.1, x.2.apply)) l

theorem applyAll_intend {k c : LockName} {s : LockState} {cs : List Lock} {r : LockRequest}
    {xs : List (LockPath × Change)} :
    applyAll (([], .intend r) :: xs.map fun x => (c :: x.1, x.2)) (node k s cs) =
      node k (s.intend r) (modifyChild c (applyAll xs) cs) := by
  have hbelow : edit ((xs.map fun x => (x.1, x.2.apply)).map fun e => (c :: e.1, e.2))
      (node k (s.intend r) cs) = node k (s.intend r) (modifyChild c (applyAll xs) cs) :=
    NamedTree.edit_map_cons
  rw [List.map_map] at hbelow
  rw [applyAll, List.map_cons, List.map_map]
  exact hbelow

/-- The plan is what the call does. -/
theorem Acquires.plan_eq {rest : LockPath} {l l' : Lock} {r r' : LockRequest} {ins : Bool}
    {ret : AcquireStatus} (h : Acquires rest l r ins ret l' r') (hins : ins = true)
    (hcreate : r.createMissing = false) :
    (plan rest l r).1 = ret ∧ applyAll (plan rest l r).2 l = l' := by
  induction h with
  | granted hlock =>
      subst hins
      simp only [plan, NamedTree.val_node, hlock, Option.isSome_some, if_true, true_and]
      rw [LockState.eq_grant_of_tryLock hlock]
      rfl
  | refused hlock =>
      subst hins
      simp only [plan, NamedTree.val_node, hlock, Option.isSome_none, Bool.false_eq_true, if_false,
        true_and]
      rfl
  | blocked hintent =>
      subst hins
      have hnot := LockState.not_permits_of_tryIntent hintent
      simp only [plan, NamedTree.val_node, hnot, if_false, true_and]
      rfl
  | @descended c rest k s s' pre child post r ins ret child' r' hintent hname hpre hret hbelow ih =>
      obtain ⟨hpermits, rfl⟩ := LockState.permits_of_tryIntent hintent
      obtain ⟨hplan, hbelow'⟩ := ih rfl hcreate
      have hfind : (pre ++ child :: post).find? (fun d => decide (d.name = c)) = some child :=
        List.find?_append_cons (by simpa using hname) (by simpa using hpre)
      simp only [plan, NamedTree.val_node, NamedTree.children_node, hpermits, if_true, hfind, hplan,
        hret, if_false, true_and]
      rw [applyAll_intend, NamedTree.modifyChild_append_cons hname hpre, hbelow']
  | @failed c rest k s s' pre child post r ins r' hintent hname hpre hbelow ih =>
      obtain ⟨hpermits, -⟩ := LockState.permits_of_tryIntent hintent
      obtain ⟨hplan, -⟩ := ih rfl hcreate
      have hfind : (pre ++ child :: post).find? (fun d => decide (d.name = c)) = some child :=
        List.find?_append_cons (by simpa using hname) (by simpa using hpre)
      simp only [plan, NamedTree.val_node, NamedTree.children_node, hpermits, if_true, hfind, hplan,
        true_and]
      rfl
  | created _ _ hmay =>
      rw [hcreate] at hmay
      cases hmay
  | @missing c rest k s s' cs r ins hintent hnone =>
      obtain ⟨hpermits, -⟩ := LockState.permits_of_tryIntent hintent
      have hfind : cs.find? (fun d => decide (d.name = c)) = none := by simpa using hnone
      simp only [plan, NamedTree.val_node, NamedTree.children_node, hpermits, if_true, hfind,
        true_and]
      rfl

/-- A call changes locks on its path, and makes somebody a holder at the target only. -/
theorem plan_on_path {rest : LockPath} {l : Lock} {r : LockRequest} :
    ∀ x ∈ (plan rest l r).2, x.1 <+: rest ∧ (x.2.isGrant = true → x.1 = rest) := by
  induction rest generalizing l r with
  | nil =>
      intro x hx
      simp only [plan] at hx
      split at hx
      · obtain rfl := List.mem_singleton.mp hx
        exact ⟨List.nil_prefix, fun _ => rfl⟩
      · obtain rfl := List.mem_singleton.mp hx
        exact ⟨List.nil_prefix, fun _ => rfl⟩
  | cons c rest ih =>
      intro x hx
      simp only [plan] at hx
      split at hx
      · split at hx
        · cases hx
        · split at hx
          · cases hx
          · rcases List.mem_cons.mp hx with rfl | hx
            · exact ⟨List.nil_prefix, fun hgrant => by cases hgrant⟩
            · obtain ⟨y, hy, rfl⟩ := List.mem_map.mp hx
              obtain ⟨hon, hgrant⟩ := ih y hy
              exact ⟨List.cons_prefix_cons.mpr ⟨rfl, hon⟩, fun h => by rw [hgrant h]⟩
      · obtain rfl := List.mem_singleton.mp hx
        exact ⟨List.nil_prefix, fun hgrant => by cases hgrant⟩

/-- For a call along `rest` the two trees are alike: the same locks exist on the way, with
    the same holders, and the target is in the same state. -/
def Alike (rest : LockPath) (l l' : Lock) : Prop :=
  ∀ σ, σ <+: rest →
    Option.Rel (fun s s' => LockState.SameHolders s s' ∧ (σ = rest → s' = s))
      ((find σ l).map NamedTree.val) ((find σ l').map NamedTree.val)

/-- A call has the same plan in trees that are alike for it. -/
theorem Alike.plan_eq {rest : LockPath} {l l' : Lock} (h : Alike rest l l') (r : LockRequest) :
    plan rest l' r = plan rest l r := by
  induction rest generalizing l l' r with
  | nil =>
      have hroot := h [] List.nil_prefix
      simp only [NamedTree.find_nil, Option.map_some, Option.rel_some_some] at hroot
      simp only [plan, hroot.2 trivial]
  | cons c rest ih =>
      have hroot := h [] List.nil_prefix
      simp only [NamedTree.find_nil, Option.map_some, Option.rel_some_some] at hroot
      have hbelow : ∀ τ, τ <+: rest →
          Option.Rel (fun s s' => LockState.SameHolders s s' ∧ (τ = rest → s' = s))
            (((l.children.find? fun d => decide (d.name = c)).bind (find τ)).map NamedTree.val)
            (((l'.children.find? fun d => decide (d.name = c)).bind (find τ)).map NamedTree.val) := by
        intro τ hτ
        have hrel := h (c :: τ) (List.cons_prefix_cons.mpr ⟨rfl, hτ⟩)
        simp only [List.cons.injEq, true_and] at hrel
        exact hrel
      have hpermits : l'.val.Permits r ↔ l.val.Permits r := hroot.1.permits_iff r
      cases hchild : l.children.find? fun d => decide (d.name = c) with
      | none =>
          have hrel := hbelow [] List.nil_prefix
          rw [hchild] at hrel
          cases hchild' : l'.children.find? fun d => decide (d.name = c) with
          | none => simp only [plan, hpermits, hchild, hchild']
          | some child' =>
              rw [hchild'] at hrel
              cases hrel
      | some child =>
          cases hchild' : l'.children.find? fun d => decide (d.name = c) with
          | none =>
              have hrel := hbelow [] List.nil_prefix
              rw [hchild, hchild'] at hrel
              cases hrel
          | some child' =>
              rw [hchild, hchild'] at hbelow
              have hplan := ih (l := child) (fun τ hτ => hbelow τ hτ) r.advance
              simp only [plan, hpermits, hchild, hchild', hplan]

/-- Changes that add no holder. -/
theorem sameHolders_foldl {xs : List (LockPath × Change)} (hxs : ∀ x ∈ xs, x.2.isGrant = false)
    (s : LockState) :
    LockState.SameHolders s (xs.foldl (fun s x => x.2.apply s) s) := by
  induction xs generalizing s with
  | nil => exact .refl s
  | cons x xs ih =>
      obtain ⟨hx, hxs⟩ := List.forall_mem_cons.mp hxs
      exact (Change.sameHolders_apply hx s).trans (ih hxs _)

/-- The value at an address goes through the changes for this address. -/
theorem find_applyAll {xs : List (LockPath × Change)} {σ : LockPath} (l : Lock) :
    (find σ (applyAll xs l)).map NamedTree.val =
      ((find σ l).map NamedTree.val).map fun s =>
        (xs.filter fun x => x.1 = σ).foldl (fun s x => x.2.apply s) s := by
  rw [applyAll, NamedTree.find_edit, Option.map_map, List.filter_map, Function.comp_def]
  simp only [List.foldl_map]
  rfl

section

variable {rest₁ rest₂ : LockPath} {l : Lock} {r₁ r₂ : LockRequest}

/-- After a call along another path, a call finds everything alike. -/
theorem alike_applyAll (hnot₁ : ¬ rest₁ <+: rest₂) (hnot₂ : ¬ rest₂ <+: rest₁) (l : Lock)
    (r : LockRequest) : Alike rest₂ l (applyAll (plan rest₁ l r).2 l) := by
  intro σ hσ
  rw [find_applyAll]
  cases (find σ l).map NamedTree.val with
  | none => exact .none
  | some s =>
      refine .some ⟨?_, fun heq => ?_⟩
      · refine sameHolders_foldl (fun x hx => ?_) s
        obtain ⟨hmem, hat⟩ := List.mem_filter.mp hx
        obtain ⟨-, hgrant⟩ := plan_on_path x hmem
        -- a grant would be at the target of the first call, which is not on the way
        by_contra hnot
        have htarget := hgrant (by simpa using hnot)
        rw [← of_decide_eq_true hat, htarget] at hσ
        exact hnot₁ hσ
      · have hempty : ((plan rest₁ l r).2.filter fun x => decide (x.1 = σ)) = [] := by
          refine List.filter_eq_nil_iff.mpr fun x hx hat => hnot₂ ?_
          rw [← heq, ← of_decide_eq_true hat]
          exact (plan_on_path x hx).1
        rw [hempty]
        rfl

/-- The call puts its request into the queue at this address. -/
def Queues (l l' : Lock) (σ : LockPath) : Prop :=
  ∃ n n', find σ l = some n ∧ find σ l' = some n' ∧
    n'.val.lockRequests.length = n.val.lockRequests.length + 1

theorem queues_of_enqueue {rest σ : LockPath} {r : LockRequest} {x : Change}
    (hmem : (σ, x) ∈ (plan rest l r).2) (hx : x.isEnqueue = true) :
    Queues l (applyAll (plan rest l r).2 l) σ := by
  have hroot : ∀ (l : Lock) (r : LockRequest), Queues l (applyAll [([], .enqueue r)] l) [] := by
    intro l r
    cases l with
    | node k s cs =>
        have happend : (s.enqueue r true).lockRequests.length = s.lockRequests.length + 1 := by
          simp [LockState.enqueue]
        exact ⟨_, _, rfl, rfl, happend⟩
  induction rest generalizing l r σ with
  | nil =>
      simp only [plan] at hmem ⊢
      split at hmem
      · cases List.mem_singleton.mp hmem
        cases hx
      · cases List.mem_singleton.mp hmem
        rename_i hlock
        rw [if_neg hlock]
        exact hroot l r
  | cons c rest ih =>
      simp only [plan] at hmem ⊢
      split at hmem
      · rename_i hpermits
        rw [if_pos hpermits]
        split at hmem
        · cases hmem
        · rename_i child hchild
          split at hmem
          · cases hmem
          · rename_i hret
            rcases List.mem_cons.mp hmem with heq | hmem
            · cases heq
              cases hx
            · obtain ⟨⟨τ, y⟩, hy, heq⟩ := List.mem_map.mp hmem
              cases heq
              obtain ⟨n, n', hn, hn', hlength⟩ := ih hy
              cases l with
              | node k s cs =>
                  have hname : ∀ t, (applyAll (plan rest child r.advance).2 t).name = t.name :=
                    fun t => NamedTree.name_edit _ t
                  have hfound := NamedTree.find?_modifyChild_self (c := c) hname cs
                  rw [NamedTree.children_node] at hchild
                  rw [hchild] at hfound
                  simp only [hret, if_false]
                  refine ⟨n, n', ?_, ?_, hlength⟩
                  · rw [find, NamedTree.children_node, hchild]
                    exact hn
                  · rw [applyAll_intend, find, NamedTree.children_node, hfound]
                    exact hn'
      · cases List.mem_singleton.mp hmem
        rename_i hpermits
        rw [if_neg hpermits]
        exact hroot l r

/-- The changes of two calls along incomparable paths can be made in either order, unless
    both requests are put into one queue. -/
theorem applyAll_comm (hnot₁ : ¬ rest₁ <+: rest₂) (hnot₂ : ¬ rest₂ <+: rest₁) (l : Lock)
    (r₁ r₂ : LockRequest) :
    (∃ σ, Queues l (applyAll (plan rest₁ l r₁).2 l) σ ∧ Queues l (applyAll (plan rest₂ l r₂).2 l) σ) ∨
      applyAll (plan rest₂ l r₂).2 (applyAll (plan rest₁ l r₁).2 l) =
        applyAll (plan rest₁ l r₁).2 (applyAll (plan rest₂ l r₂).2 l) := by
  by_cases hboth : ∃ σ x y, (σ, x) ∈ (plan rest₁ l r₁).2 ∧ (σ, y) ∈ (plan rest₂ l r₂).2 ∧
      x.isEnqueue = true ∧ y.isEnqueue = true
  · obtain ⟨σ, x, y, hx, hy, hxq, hyq⟩ := hboth
    exact Or.inl ⟨σ, queues_of_enqueue hx hxq, queues_of_enqueue hy hyq⟩
  · refine Or.inr (NamedTree.edit_comm ?_ l)
    intro e he e' he' haddr s
    obtain ⟨⟨σ, y⟩, hy, rfl⟩ := List.mem_map.mp he
    obtain ⟨⟨τ, x⟩, hx, rfl⟩ := List.mem_map.mp he'
    obtain rfl : σ = τ := haddr
    obtain ⟨hσ₂, hgrant₂⟩ := plan_on_path _ hy
    obtain ⟨hσ₁, hgrant₁⟩ := plan_on_path _ hx
    -- at a common address neither call has its target
    have hy' : y.isGrant = false := by
      by_contra hnot
      rw [hgrant₂ (by simpa using hnot)] at hσ₁
      exact hnot₂ hσ₁
    have hx' : x.isGrant = false := by
      by_contra hnot
      rw [hgrant₁ (by simpa using hnot)] at hσ₂
      exact hnot₁ hσ₂
    refine Change.apply_comm hy' hx' (fun hyq => ?_) s
    by_contra hxq
    exact hboth ⟨σ, x, y, hx, hy, by simpa using hxq, hyq⟩

end

end Lock

-- ============================================================================
-- The forest
-- ============================================================================

namespace LockForest

open NamedTree (find)

/-- What `Lock_Forest::acquire` returns and does to the forest. -/
def enter (f : LockForest) (c : LockName) (rest : LockPath) (r : LockRequest) :
    AcquireStatus × LockForest :=
  match f.roots.lookup c with
  | none => (.nonExistent, f)
  | some l => ((Lock.plan rest l r).1, f.setRoot c (Lock.applyAll (Lock.plan rest l r).2 l))

theorem acquire_eq_enter (f : LockForest) (address : Nat) (p : Process) (path : PathString)
    (mode : UInt8) :
    f.acquire address p path mode =
      .ok ((f.enter (rootName path) (splitPath path).tail (acquireRequest address p path mode)).1,
        (f.enter (rootName path) (splitPath path).tail (acquireRequest address p path mode)).2,
        if (f.enter (rootName path) (splitPath path).tail
          (acquireRequest address p path mode)).1 = .nonExistent then p
        else p.addHeldLock path mode) := by
  rcases f.acquire_spec address p path mode with ⟨hl, hrun⟩ | ⟨ret, l, l', r', hl, henter, hrun⟩
  · simp [hrun, enter, hl]
  · have hacq := henter.acquires
    rw [remaining_of_start (s := path) rfl rfl] at hacq
    obtain ⟨rfl, rfl⟩ := hacq.plan_eq rfl rfl
    rw [hrun]
    simp only [enter, hl]

/-- The call puts its request into the queue of the lock with this address. -/
def Queues (f f' : LockForest) (ρ : LockPath) : Prop :=
  ∃ n n', f.node? ρ = some n ∧ f'.node? ρ = some n' ∧
    n'.val.lockRequests.length = n.val.lockRequests.length + 1

theorem queues_setRoot {f : LockForest} {c : LockName} {l l' : Lock} {σ : LockPath}
    (hl : f.roots.lookup c = some l) (h : Lock.Queues l l' σ) :
    Queues f (f.setRoot c l') (c :: σ) := by
  obtain ⟨n, n', hn, hn', hlength⟩ := h
  refine ⟨n, n', ?_, ?_, hlength⟩
  · rw [node?, hl]
    exact hn
  · rw [(updates_setRoot hl l').node?_after]
    exact hn'

section

variable {f : LockForest} {c₁ c₂ : LockName} {rest₁ rest₂ : LockPath}

/-- Two calls for locks that are not above one another, in either order. -/
theorem enter_comm (hnot₁ : ¬ c₁ :: rest₁ <+: c₂ :: rest₂) (hnot₂ : ¬ c₂ :: rest₂ <+: c₁ :: rest₁)
    (r₁ r₂ : LockRequest) :
    ((f.enter c₁ rest₁ r₁).2.enter c₂ rest₂ r₂).1 = (f.enter c₂ rest₂ r₂).1 ∧
      ((∃ ρ, Queues f (f.enter c₁ rest₁ r₁).2 ρ ∧ Queues f (f.enter c₂ rest₂ r₂).2 ρ) ∨
        ((f.enter c₁ rest₁ r₁).2.enter c₂ rest₂ r₂).2 =
          ((f.enter c₂ rest₂ r₂).2.enter c₁ rest₁ r₁).2) := by
  by_cases hc : c₁ = c₂
  · -- both calls work in one tree
    subst hc
    have hnot₁' : ¬ rest₁ <+: rest₂ := fun h => hnot₁ (List.cons_prefix_cons.mpr ⟨rfl, h⟩)
    have hnot₂' : ¬ rest₂ <+: rest₁ := fun h => hnot₂ (List.cons_prefix_cons.mpr ⟨rfl, h⟩)
    cases hl : f.roots.lookup c₁ with
    | none => simp [enter, hl]
    | some l =>
        have hset : ∀ l', (f.setRoot c₁ l').roots.lookup c₁ = some l' :=
          fun l' => SortedMap.lookup_set_self hl
        have hplan₁ := (Lock.alike_applyAll hnot₂' hnot₁' l r₂).plan_eq r₁
        have hplan₂ := (Lock.alike_applyAll hnot₁' hnot₂' l r₁).plan_eq r₂
        simp only [enter, hl, hset, hplan₁, hplan₂, true_and]
        rcases Lock.applyAll_comm hnot₁' hnot₂' l r₁ r₂ with
          ⟨σ, hσ₁, hσ₂⟩ | hcomm
        · exact Or.inl ⟨c₁ :: σ, queues_setRoot hl hσ₁, queues_setRoot hl hσ₂⟩
        · refine Or.inr ?_
          simp only [setRoot, SortedMap.set_set, hcomm]
  · have hset₂ : ∀ l, (f.setRoot c₁ l).roots.lookup c₂ = f.roots.lookup c₂ :=
      fun l => SortedMap.lookup_set_ne (Ne.symm hc)
    have hset₁ : ∀ l, (f.setRoot c₂ l).roots.lookup c₁ = f.roots.lookup c₁ :=
      fun l => SortedMap.lookup_set_ne hc
    cases hl₁ : f.roots.lookup c₁ with
    | none =>
        cases hl₂ : f.roots.lookup c₂ with
        | none => simp [enter, hl₁, hl₂]
        | some l₂ => simp [enter, hl₁, hl₂, hset₁]
    | some l₁ =>
        cases hl₂ : f.roots.lookup c₂ with
        | none => simp [enter, hl₁, hl₂, hset₂]
        | some l₂ =>
            simp only [enter, hl₁, hl₂, hset₁, hset₂, true_and]
            refine Or.inr ?_
            simp only [setRoot, SortedMap.set_comm hc]

end

end LockForest

-- ============================================================================
-- Processes
-- ============================================================================

/-- The process after a call of `Lock_Forest::acquire` with this result. -/
def Process.afterAcquire (p : Process) (ret : AcquireStatus) (path : PathString) (mode : UInt8) :
    Process :=
  if ret = .nonExistent then p else p.addHeldLock path mode

@[simp] theorem Process.object_afterAcquire (p : Process) (ret : AcquireStatus)
    (path : PathString) (mode : UInt8) : (p.afterAcquire ret path mode).object = p.object := by
  unfold afterAcquire
  split <;> rfl

/-- Different locks can be recorded in either order. -/
theorem Process.afterAcquire_comm {path₁ path₂ : PathString} (hne : path₁ ≠ path₂) (p : Process)
    (ret₁ ret₂ : AcquireStatus) (mode₁ mode₂ : UInt8) :
    (p.afterAcquire ret₁ path₁ mode₁).afterAcquire ret₂ path₂ mode₂ =
      (p.afterAcquire ret₂ path₂ mode₂).afterAcquire ret₁ path₁ mode₁ := by
  have hkeys : toLex (path₁, mode₁) ≠ toLex (path₂, mode₂) := by
    intro heq
    exact hne (congrArg Prod.fst (toLex.injective heq))
  unfold afterAcquire
  split
  · split <;> rfl
  · split
    · rfl
    · simp only [addHeldLock, SortedList.insert_comm hkeys]

namespace Backend

/-- `Lock_Forest::acquire` is called for a registered process; its `Lock_Request` gets the
    identity `address`.  The call returns `ret`, and `b'` is the state after it. -/
def AcquireCall (b : Backend) (address : Nat) (pid : UInt32) (path : PathString) (mode : UInt8)
    (ret : AcquireStatus) (b' : Backend) : Prop :=
  ∃ p f' p', b.processes.lookup pid = some p ∧
    b.forest.acquire address p path mode = .ok (ret, f', p') ∧ b' = b.update pid f' p'

/-- Where a call gets. -/
theorem acquireCall_of_lookup {b : Backend} {pid : UInt32} {p p₀ : Process}
    (hp : b.processes.lookup pid = some p) (hobject : p.object = p₀.object) (address : Nat)
    (path : PathString) (mode : UInt8) {x : AcquireStatus × LockForest}
    (hx : b.forest.enter (rootName path) (splitPath path).tail
      (LockForest.acquireRequest address p₀ path mode) = x) :
    AcquireCall b address pid path mode x.1 (b.update pid x.2 (p.afterAcquire x.1 path mode)) := by
  have hrequest : LockForest.acquireRequest address p path mode =
      LockForest.acquireRequest address p₀ path mode := by
    rw [LockForest.acquireRequest, LockForest.acquireRequest, hobject]
  have hrun := b.forest.acquire_eq_enter address p path mode
  rw [hrequest, hx] at hrun
  exact ⟨p, x.2, p.afterAcquire x.1 path mode, hp, hrun, rfl⟩

/-- Two calls for locks that are not above one another: neither result depends on whether
    the other call comes first, and unless both requests get into the same queue, the
    forest and the held locks in the end do not depend on the order. -/
theorem acquires_independent {b : Backend} {pid₁ pid₂ : UInt32} {p₁ p₂ : Process}
    (hp₁ : b.processes.lookup pid₁ = some p₁) (hp₂ : b.processes.lookup pid₂ = some p₂)
    (address₁ address₂ : Nat) {path₁ path₂ : PathString} (mode₁ mode₂ : UInt8)
    (hnot₁ : ¬ splitPath path₁ <+: splitPath path₂)
    (hnot₂ : ¬ splitPath path₂ <+: splitPath path₁) :
    ∃ ret₁ ret₂ b₁ b₂ b₁₂ b₂₁,
      AcquireCall b address₁ pid₁ path₁ mode₁ ret₁ b₁ ∧
      AcquireCall b₁ address₂ pid₂ path₂ mode₂ ret₂ b₁₂ ∧
      AcquireCall b address₂ pid₂ path₂ mode₂ ret₂ b₂ ∧
      AcquireCall b₂ address₁ pid₁ path₁ mode₁ ret₁ b₂₁ ∧
      ((∃ ρ, LockForest.Queues b.forest b₁.forest ρ ∧ LockForest.Queues b.forest b₂.forest ρ) ∨
        b₁₂ = b₂₁) := by
  have hne : path₁ ≠ path₂ := by
    rintro rfl
    exact hnot₁ (List.prefix_refl _)
  rw [splitPath_eq path₁, splitPath_eq path₂] at hnot₁ hnot₂
  -- the four calls on forests
  obtain ⟨x₁, hx₁⟩ : ∃ x, b.forest.enter (rootName path₁) (splitPath path₁).tail
    (LockForest.acquireRequest address₁ p₁ path₁ mode₁) = x := ⟨_, rfl⟩
  obtain ⟨x₂, hx₂⟩ : ∃ x, b.forest.enter (rootName path₂) (splitPath path₂).tail
    (LockForest.acquireRequest address₂ p₂ path₂ mode₂) = x := ⟨_, rfl⟩
  obtain ⟨x₁₂, hx₁₂⟩ : ∃ x, x₁.2.enter (rootName path₂) (splitPath path₂).tail
    (LockForest.acquireRequest address₂ p₂ path₂ mode₂) = x := ⟨_, rfl⟩
  obtain ⟨x₂₁, hx₂₁⟩ : ∃ x, x₂.2.enter (rootName path₁) (splitPath path₁).tail
    (LockForest.acquireRequest address₁ p₁ path₁ mode₁) = x := ⟨_, rfl⟩
  obtain ⟨hret₂, hcomm⟩ := LockForest.enter_comm (f := b.forest) hnot₁ hnot₂
    (LockForest.acquireRequest address₁ p₁ path₁ mode₁)
    (LockForest.acquireRequest address₂ p₂ path₂ mode₂)
  obtain ⟨hret₁, -⟩ := LockForest.enter_comm (f := b.forest) hnot₂ hnot₁
    (LockForest.acquireRequest address₂ p₂ path₂ mode₂)
    (LockForest.acquireRequest address₁ p₁ path₁ mode₁)
  rw [hx₁, hx₂, hx₁₂, hx₂₁] at hcomm
  rw [hx₁, hx₂, hx₁₂] at hret₂
  rw [hx₁, hx₂, hx₂₁] at hret₁
  have hcall₁ := acquireCall_of_lookup hp₁ rfl address₁ path₁ mode₁ hx₁
  have hcall₂ := acquireCall_of_lookup hp₂ rfl address₂ path₂ mode₂ hx₂
  by_cases hpid : pid₁ = pid₂
  · subst hpid
    obtain rfl : p₁ = p₂ := Option.some.inj (hp₁.symm.trans hp₂)
    have hcall₁₂ := acquireCall_of_lookup (lookup_update (f := x₁.2) hp₁)
      (p₁.object_afterAcquire x₁.1 path₁ mode₁) address₂ path₂ mode₂ hx₁₂
    have hcall₂₁ := acquireCall_of_lookup (lookup_update (f := x₂.2) hp₁)
      (p₁.object_afterAcquire x₂.1 path₂ mode₂) address₁ path₁ mode₁ hx₂₁
    rw [hret₂] at hcall₁₂
    rw [hret₁] at hcall₂₁
    refine ⟨x₁.1, x₂.1, _, _, _, _, hcall₁, hcall₁₂, hcall₂, hcall₂₁, hcomm.imp id fun hforest => ?_⟩
    rw [update_update, update_update, hforest, Process.afterAcquire_comm hne]
  · have hlookup₂ : (b.update pid₁ x₁.2 (p₁.afterAcquire x₁.1 path₁ mode₁)).processes.lookup pid₂ =
        some p₂ := (lookup_update_ne (Ne.symm hpid)).trans hp₂
    have hlookup₁ : (b.update pid₂ x₂.2 (p₂.afterAcquire x₂.1 path₂ mode₂)).processes.lookup pid₁ =
        some p₁ := (lookup_update_ne hpid).trans hp₁
    have hcall₁₂ := acquireCall_of_lookup hlookup₂ rfl address₂ path₂ mode₂ hx₁₂
    have hcall₂₁ := acquireCall_of_lookup hlookup₁ rfl address₁ path₁ mode₁ hx₂₁
    rw [hret₂] at hcall₁₂
    rw [hret₁] at hcall₂₁
    refine ⟨x₁.1, x₂.1, _, _, _, _, hcall₁, hcall₁₂, hcall₂, hcall₂₁, hcomm.imp id fun hforest => ?_⟩
    rw [update, update, update, update, hforest, SortedMap.set_comm hpid]

/-- `a.b` and `a.c` exist and are free. -/
def siblings : List Op :=
  [.registerProcess, .registerProcess, .createLock 0 [0x61, 0x2E, 0x62] true,
    .releaseLock 0 [0x61, 0x2E, 0x62] 2, .createLock 0 [0x61, 0x2E, 0x63] true,
    .releaseLock 0 [0x61, 0x2E, 0x63] 2]

/-- Process 0 acquires X on `a.b`, process 1 acquires X on `a.c`, and nobody waits. -/
theorem acquires_independent_siblings :
    ∃ ret₁ ret₂ b₁ b₂ b',
      AcquireCall (after 1 siblings) 7 0 [0x61, 0x2E, 0x62] 2 ret₁ b₁ ∧
      AcquireCall b₁ 8 1 [0x61, 0x2E, 0x63] 2 ret₂ b' ∧
      AcquireCall (after 1 siblings) 8 1 [0x61, 0x2E, 0x63] 2 ret₂ b₂ ∧
      AcquireCall b₂ 7 0 [0x61, 0x2E, 0x62] 2 ret₁ b' := by
  have hfirst : ((after 1 siblings).processes.lookup 0).isSome = true := by decide +kernel
  have hsecond : ((after 1 siblings).processes.lookup 1).isSome = true := by decide +kernel
  obtain ⟨p₁, hp₁⟩ := Option.isSome_iff_exists.mp hfirst
  obtain ⟨p₂, hp₂⟩ := Option.isSome_iff_exists.mp hsecond
  have hnot₁ : ¬ splitPath [0x61, 0x2E, 0x62] <+: splitPath [0x61, 0x2E, 0x63] := by decide
  have hnot₂ : ¬ splitPath [0x61, 0x2E, 0x63] <+: splitPath [0x61, 0x2E, 0x62] := by decide
  obtain ⟨ret₁, ret₂, b₁, b₂, b₁₂, b₂₁, hcall₁, hcall₁₂, hcall₂, hcall₂₁, hqueues | rfl⟩ :=
    acquires_independent hp₁ hp₂ 7 8 2 2 hnot₁ hnot₂
  · -- the first call puts nothing into a queue
    obtain ⟨ρ, ⟨n, n', -, hn', hlength⟩, -⟩ := hqueues
    obtain ⟨p, f', p', hp, hrun, rfl⟩ := hcall₁
    have hempty : ((after 1 siblings).processes.lookup 0).all (fun p =>
        ((after 1 siblings).forest.acquire 7 p [0x61, 0x2E, 0x62] 2).toOption.all fun x =>
          x.2.1.nodes.all fun y => decide (y.2.val.lockRequests.length = 0)) = true := by
      decide +kernel
    rw [hp, Option.all_some, hrun] at hempty
    have hnone := List.all_eq_true.mp hempty _ (LockForest.mem_nodes_of_node? hn')
    rw [of_decide_eq_true hnone] at hlength
    cases hlength
  · exact ⟨ret₁, ret₂, b₁, b₂, _, hcall₁, hcall₁₂, hcall₂, hcall₂₁⟩

end Backend

end Tclm.Server
