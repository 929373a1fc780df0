/-
  Tclm.Server.Ids

  The ids of processes, `Process_map::create`.

  Ids are handed out one after the other and start again with 0 after 2^32 of them; only
  the next one is tried.  So a registration is refused exactly if the process that was
  registered 2^32 registrations before is still there, and nothing is said about how
  many others there are.
-/

import Tclm.Server.Runs

namespace Tclm.Server

namespace Backend

/-- A process has this id. -/
def Registered (b : Backend) (id : UInt32) : Prop := b.processes.lookup id ≠ none

/-- The id that the operation gave to a new process. -/
def Event.given (e : Event) : Option UInt32 :=
  match e.result with
  | .registered id => id
  | _ => none

/-- The ids that were given out on the way, the oldest first. -/
def given (es : List Event) : List UInt32 := es.filterMap Event.given

theorem Registered.of_update {b : Backend} {pid id : UInt32} {f : LockForest} {p p' : Process}
    (hp : b.processes.lookup pid = some p) (h : (b.update pid f p').Registered id) :
    b.Registered id := by
  by_cases hid : id = pid
  · intro hnone
    rw [hid, hp] at hnone
    cases hnone
  · rw [Registered, lookup_update_ne hid] at h
    exact h

theorem Registered.of_drop {b : Backend} {dropped id : UInt32} (h : (b.drop dropped).Registered id) :
    b.Registered id := by
  obtain ⟨p, hp⟩ := Option.ne_none_iff_exists'.mp h
  rw [Registered, lookup_of_drop hp]
  exact Option.some_ne_none p

/-- Only registering touches the counter and adds an id. -/
theorem Move.ids {b b' : Backend} {op : Op} {res : Result} {answered : Finset LockRequest}
    (h : Move b op res answered b') (hop : op ≠ .registerProcess) :
    b'.nextId = b.nextId ∧ ∀ id, b'.Registered id → b.Registered id := by
  cases h with
  | idle | tick | add => exact ⟨rfl, fun _ h => h⟩
  | register => exact absurd rfl hop
  | @enter _ _ _ path mode _ p _ _ f' _ _ _ _ hp =>
      refine ⟨rfl, fun id h => ?_⟩
      have hupd : (b.update _ f' (p.addHeldLock path mode)).Registered id := h
      exact hupd.of_update hp
  | release hp => exact ⟨rfl, fun _ h => h.of_update hp⟩

theorem Within.ne_register {b b₁ : Backend} {op op₁ : Op} (h : Within b op b₁ op₁)
    (hop : op ≠ .registerProcess) : op₁ ≠ .registerProcess := by
  cases h with
  | self => exact hop
  | release => nofun

theorem Step.ids {b b' : Backend} {e : Event} (h : Step b e b') (hop : e.op ≠ .registerProcess) :
    b'.nextId = b.nextId ∧ ∀ id, b'.Registered id → b.Registered id := by
  refine Step.invariant
    (fun b₁ => b₁.nextId = b.nextId ∧ ∀ id, b₁.Registered id → b.Registered id) h
    ⟨rfl, fun _ h => h⟩ ?_ ?_
  · rintro b₁ op res answered b₂ hwithin ⟨hnext, hids⟩ hmove
    obtain ⟨hnext', hids'⟩ := hmove.ids (hwithin.ne_register hop)
    exact ⟨hnext'.trans hnext, fun id h => hids id (hids' id h)⟩
  · rintro b₁ id p _ _ _ ⟨hnext, hids⟩
    exact ⟨hnext, fun id' h => hids id' h.of_drop⟩

/-- Other operations give out no id. -/
theorem Step.given_eq_none {b b' : Backend} {e : Event} (h : Step b e b')
    (hop : e.op ≠ .registerProcess) : e.given = none := by
  obtain ⟨fuel, h⟩ := h
  obtain ⟨op, res, answered⟩ := e
  cases op with
  | registerProcess => exact absurd rfl hop
  | unregisterProcess | createLock | acquireLock | releaseLock =>
      obtain ⟨_, -, h⟩ := bind_eq_ok.mp h
      cases h
      rfl

theorem Step.of_register {b b' : Backend} {e : Event} (h : Step b e b')
    (hop : e.op = .registerProcess) : e.given = b.registerProcess.1 ∧ b' = b.registerProcess.2 := by
  obtain ⟨fuel, h⟩ := h
  obtain ⟨op, res, answered⟩ := e
  obtain rfl : op = .registerProcess := hop
  obtain ⟨hres, -, hb⟩ : Result.registered b.registerProcess.1 = res ∧ ∅ = answered ∧
      b.registerProcess.2 = b' := by
    simpa [step] using h
  exact ⟨hres ▸ rfl, hb.symm⟩

/-- A registration is refused exactly if the next id is taken. -/
theorem registerProcess_eq_none {b : Backend} :
    b.registerProcess.1 = none ↔ b.Registered b.nextId := by
  rw [registerProcess, Registered]
  cases b.processes.lookup b.nextId with
  | none => simp
  | some p => simp

/-- The only id that is ever returned is the next one, and it is free. -/
theorem registerProcess_eq_some {b : Backend} {id : UInt32} (h : b.registerProcess.1 = some id) :
    id = b.nextId ∧ ¬ b.Registered id := by
  have hfree : ¬ b.Registered b.nextId := by
    rw [← registerProcess_eq_none, h]
    nofun
  have hid : id = b.nextId := by
    rw [registerProcess, not_not.mp hfree] at h
    exact (Option.some.inj h).symm
  rw [hid]
  exact ⟨rfl, hfree⟩

/-- The state after a registration that is not refused. -/
theorem registerProcess_of_free {b : Backend} (h : ¬ b.Registered b.nextId) :
    b.registerProcess.1 = some b.nextId ∧ b.registerProcess.2.nextId = b.nextId + 1 ∧
      ∀ id, b.registerProcess.2.Registered id ↔ id = b.nextId ∨ b.Registered id := by
  have hfree : b.processes.lookup b.nextId = none := not_not.mp h
  rw [registerProcess, hfree]
  refine ⟨rfl, rfl, fun id => ?_⟩
  by_cases hid : id = b.nextId
  · refine iff_of_true ?_ (Or.inl hid)
    rw [hid, Registered]
    exact fun hnone => Option.some_ne_none _ ((SortedMap.lookup_insert_self hfree).symm.trans hnone)
  · rw [or_iff_right hid, Registered, Registered]
    exact not_congr (by rw [SortedMap.lookup_insert_ne hfree hid])

/-- The ids that were given out so far, and what that says about the next one. -/
structure Numbered (es : List Event) (b : Backend) : Prop where
  next : b.nextId = UInt32.ofNat (given es).length
  ids : given es = (List.range (given es).length).map UInt32.ofNat
  given : ∀ id, b.Registered id → id ∈ given es

theorem Numbered.step {es : List Event} {b b' : Backend} {e : Event} (h : Numbered es b)
    (hstep : Step b e b') : Numbered (es ++ [e]) b' := by
  have happend : Backend.given (es ++ [e]) = Backend.given es ++ e.given.toList := by
    rw [Backend.given, List.filterMap_append, Backend.given]
    cases he : e.given with
    | none => rw [List.filterMap_cons_none he]; rfl
    | some id => rw [List.filterMap_cons_some he]; rfl
  have hsame : e.given = none → b'.nextId = b.nextId →
      (∀ id, b'.Registered id → b.Registered id) → Numbered (es ++ [e]) b' := by
    intro hnone hnext hids
    have hgiven : Backend.given (es ++ [e]) = Backend.given es := by
      rw [happend, hnone]
      exact List.append_nil _
    exact ⟨by rw [hgiven, hnext, h.next], by rw [hgiven]; exact h.ids,
      fun id hid => hgiven ▸ h.given id (hids id hid)⟩
  by_cases hop : e.op = .registerProcess
  · obtain ⟨he, rfl⟩ := hstep.of_register hop
    by_cases htaken : b.Registered b.nextId
    · -- the registration is refused
      have hb : b.registerProcess.2 = b := by
        obtain ⟨p, hp⟩ := Option.ne_none_iff_exists'.mp htaken
        rw [registerProcess, hp]
      rw [hb] at hsame ⊢
      exact hsame (he.trans (registerProcess_eq_none.mpr htaken)) rfl fun _ hid => hid
    · obtain ⟨hsome, hnext, hids⟩ := registerProcess_of_free htaken
      have hgiven : Backend.given (es ++ [e]) = Backend.given es ++ [b.nextId] := by
        rw [happend, he, hsome]
        rfl
      have hlen : (Backend.given es ++ [b.nextId]).length = (Backend.given es).length + 1 :=
        List.length_append
      refine ⟨?_, ?_, fun id hid => ?_⟩
      · rw [hgiven, hlen, hnext, h.next, UInt32.ofNat_add]
        rfl
      · rw [hgiven, hlen, List.range_succ, List.map_append, ← h.ids, h.next]
        rfl
      · rw [hgiven, List.mem_append]
        rcases (hids id).mp hid with rfl | hold
        · exact Or.inr (List.mem_cons_self ..)
        · exact Or.inl (h.given id hold)
  · obtain ⟨hnext, hids⟩ := hstep.ids hop
    exact hsame (hstep.given_eq_none hop) hnext hids

theorem numbered_of_run {es : List Event} {b : Backend} (h : Lts.Trace Step init es b) :
    Numbered es b :=
  h.invariant_log (fun es b => Numbered es b)
    ⟨rfl, rfl, fun _ hid => absurd rfl hid⟩ fun h hstep => h.step hstep

/-- The next id has been given out before, 2^32 registrations ago, or not at all. -/
theorem Numbered.taken_iff {es : List Event} {b : Backend} (h : Numbered es b) :
    b.Registered b.nextId ↔
      ∃ i id, i + 2 ^ 32 = (Backend.given es).length ∧ (Backend.given es)[i]? = some id ∧
        b.Registered id := by
  have hget : ∀ i < (Backend.given es).length, (Backend.given es)[i]? = some (UInt32.ofNat i) := by
    intro i hi
    rw [h.ids, List.getElem?_map, List.getElem?_range hi]
    rfl
  have hwrap : ∀ i, i + 2 ^ 32 = (Backend.given es).length → UInt32.ofNat i = b.nextId := by
    intro i hi
    rw [h.next, ← hi]
    apply UInt32.toNat_inj.mp
    rw [UInt32.toNat_ofNat', UInt32.toNat_ofNat', Nat.add_mod_right]
  constructor
  · intro htaken
    have hmem := h.given _ htaken
    rw [h.ids, h.next, List.mem_map] at hmem
    obtain ⟨j, hj, heq⟩ := hmem
    rw [List.mem_range] at hj
    -- the counter has come around since then
    have hmod := congrArg UInt32.toNat heq
    rw [UInt32.toNat_ofNat', UInt32.toNat_ofNat'] at hmod
    have hi : (Backend.given es).length - 2 ^ 32 + 2 ^ 32 = (Backend.given es).length := by omega
    exact ⟨_, _, hi, hget _ (by omega), (hwrap _ hi) ▸ htaken⟩
  · rintro ⟨i, id, hi, hid, hreg⟩
    rw [hget i (by omega)] at hid
    rw [← hwrap i hi, Option.some.inj hid]
    exact hreg

-- ============================================================================
-- One process that stays
-- ============================================================================

/-- One process is registered and stays while `k` others come and go. -/
def turnover : Nat → List Op
  | 0 => [.registerProcess]
  | k + 1 => turnover k ++ [.registerProcess, .unregisterProcess (UInt32.ofNat (k + 1))]

theorem ofNat_ne_zero {k : Nat} (hk : k + 1 < 2 ^ 32) : UInt32.ofNat (k + 1) ≠ 0 := by
  intro h
  have hmod := congrArg UInt32.toNat h
  rw [UInt32.toNat_ofNat', Nat.mod_eq_of_lt hk] at hmod
  exact absurd hmod (Nat.succ_ne_zero k)

/-- A process that holds no locks is unregistered at once. -/
theorem step_unregister {b : Backend} {id : UInt32} {p : Process}
    (hp : b.processes.lookup id = some p) (hcount : p.getLockCount = 0) :
    Step b ⟨.unregisterProcess id, .unregistered .success, ∅⟩ (b.drop id) := by
  refine ⟨0, ?_⟩
  rw [step, unregisterProcess, tryDestroy, hp]
  simp only [releaseLoop, hcount, Nat.lt_irrefl, if_true, if_false, gt_iff_lt]
  rfl

theorem turnover_run {k : Nat} (hk : k < 2 ^ 32) :
    ∃ es b, Lts.Trace Step init es b ∧ es.map Event.op = turnover k ∧
      b.nextId = UInt32.ofNat (k + 1) ∧ ∀ id, b.Registered id ↔ id = 0 := by
  induction k with
  | zero =>
      have hfree : ¬ init.Registered init.nextId := fun h => h rfl
      obtain ⟨-, hnext, hids⟩ := registerProcess_of_free hfree
      have hstep : Step init ⟨.registerProcess, .registered init.registerProcess.1, ∅⟩
          init.registerProcess.2 := ⟨0, rfl⟩
      refine ⟨_, _, Lts.Trace.nil.snoc hstep, rfl, hnext, fun id => ?_⟩
      rw [hids id]
      exact or_iff_left fun h => h rfl
  | succ k ih =>
      obtain ⟨es, b, hrun, hops, hnext, hids⟩ := ih (by omega)
      -- the next id is free, so the new process gets it
      have hfree : ¬ b.Registered b.nextId := by
        rw [hids, hnext]
        exact ofNat_ne_zero hk
      obtain ⟨hsome, hnext₁, hids₁⟩ := registerProcess_of_free hfree
      have hstep₁ : Step b ⟨.registerProcess, .registered b.registerProcess.1, ∅⟩
          b.registerProcess.2 := ⟨0, rfl⟩
      have hlookup : b.registerProcess.2.processes.lookup b.nextId =
          some ⟨b.nextProcess, b.nextId, SortedList.empty⟩ := by
        have hnone : b.processes.lookup b.nextId = none := not_not.mp hfree
        rw [registerProcess, hnone]
        exact SortedMap.lookup_insert_self hnone
      have hstep₂ := step_unregister hlookup rfl
      refine ⟨_, _, (hrun.snoc hstep₁).snoc hstep₂, ?_, ?_, fun id => ?_⟩
      · rw [List.map_append, List.map_append, hops, List.append_assoc, turnover, ← hnext]
        rfl
      · show b.registerProcess.2.nextId = _
        rw [hnext₁, hnext, UInt32.ofNat_add (k + 1)]
        rfl
      · by_cases hid : id = b.nextId
        · have hne : id ≠ 0 := by
            rw [hid, hnext]
            exact ofNat_ne_zero hk
          refine iff_of_false (fun h => h ?_) hne
          rw [hid]
          exact SortedMap.lookup_erase_self
        · have hdrop : (b.registerProcess.2.drop b.nextId).Registered id ↔
              b.registerProcess.2.Registered id := by
            rw [Registered, Registered]
            exact not_congr (by rw [drop, SortedMap.lookup_erase_ne hid])
          rw [hdrop, hids₁, hids, or_iff_right hid]

-- ============================================================================
-- Registrations that are refused
-- ============================================================================

/-- In every run: a registration is refused only when all ids are in use, and otherwise returns
    an unused id, exactly if the process that was registered 2^32 registrations ago is
    gone or all ids are in use. -/
theorem register_refused_iff {es : List Event} {b : Backend} (h : Lts.Trace Step init es b) :
    ((b.registerProcess.1 = none → ∀ id, b.Registered id) ∧
      ∀ id, b.registerProcess.1 = some id → ¬ b.Registered id) ↔
    (∀ i id, i + 2 ^ 32 = (given es).length → (given es)[i]? = some id → ¬ b.Registered id) ∨
      ∀ id, b.Registered id := by
  have htaken := (numbered_of_run h).taken_iff
  constructor
  · rintro ⟨hnone, -⟩
    by_cases hall : ∀ id, b.Registered id
    · exact Or.inr hall
    · refine Or.inl fun i id hi hid hreg => hall (hnone ?_)
      exact registerProcess_eq_none.mpr (htaken.mpr ⟨i, id, hi, hid, hreg⟩)
  · intro hcond
    refine ⟨fun hnone => ?_, fun id hid => (registerProcess_eq_some hid).2⟩
    rcases hcond with hgone | hall
    · obtain ⟨i, id, hi, hid, hreg⟩ := htaken.mp (registerProcess_eq_none.mp hnone)
      exact absurd hreg (hgone i id hi hid)
    · exact hall

/-- After 2^32 - 1 processes that have come and gone, the id that is tried next was given 2^32
    registrations ago, to the process that has stayed. -/
theorem register_refused_iff_turnover :
    ∃ es b, Lts.Trace Step init es b ∧ es.map Event.op = turnover (2 ^ 32 - 1) ∧
      ∃ i id, i + 2 ^ 32 = (given es).length ∧ (given es)[i]? = some id ∧ b.Registered id := by
  obtain ⟨es, b, hrun, hops, hnext, hids⟩ := turnover_run (k := 2 ^ 32 - 1) (by decide)
  have hzero : UInt32.ofNat (2 ^ 32 - 1 + 1) = 0 := by decide
  have hnone : b.registerProcess.1 = none := by
    rw [registerProcess_eq_none, hids, hnext, hzero]
  refine ⟨es, b, hrun, hops, ?_⟩
  by_contra hgone
  obtain ⟨hall, -⟩ := (register_refused_iff hrun).mpr
    (Or.inl fun i id hi hid hreg => hgone ⟨i, id, hi, hid, hreg⟩)
  have hone := (hids 1).mp (hall hnone 1)
  exact absurd hone (by decide)

/-- After 2^32 - 1 processes that have come and gone next to the first one nobody can be
    registered any more. -/
theorem register_refused_early :
    ∃ es b, Lts.Trace Step init es b ∧ es.map Event.op = turnover (2 ^ 32 - 1) ∧
      b.registerProcess.1 = none ∧ (∀ id, b.Registered id ↔ id = 0) ∧
      ¬ (b.registerProcess.1 = none → ∀ id, b.Registered id) := by
  obtain ⟨es, b, hrun, hops, hnext, hids⟩ := turnover_run (k := 2 ^ 32 - 1) (by decide)
  have hzero : UInt32.ofNat (2 ^ 32 - 1 + 1) = 0 := by decide
  have hnone : b.registerProcess.1 = none := by
    rw [registerProcess_eq_none, hids, hnext, hzero]
  refine ⟨es, b, hrun, hops, hnone, hids, fun hall => ?_⟩
  have hone := (hids 1).mp (hall hnone 1)
  exact absurd hone (by decide)

end Backend

end Tclm.Server
