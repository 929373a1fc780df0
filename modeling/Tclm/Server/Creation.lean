/-
  Tclm.Server.Creation

  Creating a lock without acquiring it, exactly.

  `create_not_held` looks for an X lock of the process on its way down and creates
  missing locks as soon as it has found one.  It succeeds if and only if the process
  owns an existing lock strictly above the target, and then exactly the missing locks
  on the path are added (`Filled`).
-/

import Tclm.Server.Safety

namespace Tclm.Server

namespace Lock

open NamedTree (node find)

-- ============================================================================
-- Trees filled along a path
-- ============================================================================

/-- The locks of `l'` are those of `l`, unchanged, and the missing ones on the path,
    which are fresh. -/
def Filled (path : LockPath) (l l' : Lock) : Prop :=
  ∀ ρ, (find ρ l').map NamedTree.val =
    ((find ρ l).map NamedTree.val).or (if ρ <+: path then some {} else none)

/-- A tree that has all locks on the path is not changed by filling. -/
theorem filled_of_find {path : LockPath} {l : Lock} (h : find path l ≠ none) : Filled path l l := by
  intro ρ
  by_cases hρ : ρ <+: path
  · obtain ⟨σ, rfl⟩ := hρ
    rw [NamedTree.find_append] at h
    cases hn : find ρ l with
    | none =>
        rw [hn] at h
        exact absurd rfl h
    | some n => simp
  · simp [hρ]

theorem filled_nil (l : Lock) : Filled [] l l := filled_of_find (by simp)

/-- One child is filled. -/
theorem Filled.child {c : LockName} {rest : LockPath} {k : LockName} {s : LockState}
    {pre post : List Lock} {child child' : Lock} (h : Filled rest child child')
    (hname : child.name = c) (hname' : child'.name = child.name) (hpre : ∀ d ∈ pre, d.name ≠ c) :
    Filled (c :: rest) (node k s (pre ++ child :: post)) (node k s (pre ++ child' :: post)) := by
  subst hname
  intro ρ
  cases ρ with
  | nil => simp
  | cons b σ =>
      by_cases hb : b = child.name
      · subst hb
        rw [NamedTree.find_node_append_cons hpre, ← hname',
          NamedTree.find_node_append_cons (by rwa [hname'])]
        simpa using h σ
      · have hsame : find (b :: σ) (node k s (pre ++ child' :: post)) =
            find (b :: σ) (node k s (pre ++ child :: post)) :=
          NamedTree.find_node_append_cons_ne hname' hb
        rw [hsame]
        simp [hb]

/-- A new child is filled. -/
theorem Filled.fresh {c : LockName} {rest : LockPath} {k : LockName} {s : LockState}
    {cs : List Lock} {child' : Lock} (h : Filled rest (new c) child') (hname : child'.name = c)
    (hnone : ∀ d ∈ cs, d.name ≠ c) :
    Filled (c :: rest) (node k s cs) (node k s (cs ++ [child'])) := by
  subst hname
  intro ρ
  cases ρ with
  | nil => simp
  | cons b σ =>
      by_cases hb : b = child'.name
      · subst hb
        rw [NamedTree.find_node_append_cons hnone, NamedTree.find_node_eq_none hnone, h σ]
        cases σ with
        | nil => simp [new]
        | cons d σ => simp [new, find]
      · have hsame : find (b :: σ) (node k s (cs ++ [child'])) = find (b :: σ) (node k s (cs ++ [])) :=
          NamedTree.find_node_insert_ne hb
        rw [hsame, List.append_nil]
        simp [hb]

-- ============================================================================
-- The recursion
-- ============================================================================

/-- The process holds X on an existing lock strictly above the target. -/
def OwnsParent (p : ProcessRef) (path : LockPath) (l : Lock) : Prop :=
  ∃ ρ n, ρ <+: path ∧ ρ ≠ path ∧ find ρ l = some n ∧ n.val.lockerX = some p

theorem ownsParent_child {p : ProcessRef} {c : LockName} {rest : LockPath} {k : LockName}
    {s : LockState} {pre post : List Lock} {child : Lock} (hname : child.name = c)
    (hpre : ∀ d ∈ pre, d.name ≠ c) :
    OwnsParent p (c :: rest) (node k s (pre ++ child :: post)) ↔
      s.lockerX = some p ∨ OwnsParent p rest child := by
  subst hname
  constructor
  · rintro ⟨ρ, n, hρ, hne, hn, hX⟩
    cases ρ with
    | nil =>
        cases hn
        exact Or.inl hX
    | cons b σ =>
        obtain ⟨rfl, hσ⟩ := List.cons_prefix_cons.mp hρ
        rw [NamedTree.find_node_append_cons hpre] at hn
        exact Or.inr ⟨σ, n, hσ, fun heq => hne (by rw [heq]), hn, hX⟩
  · rintro (hX | ⟨σ, n, hσ, hne, hn, hX⟩)
    · exact ⟨[], _, List.nil_prefix, by simp, rfl, hX⟩
    · refine ⟨child.name :: σ, n, List.cons_prefix_cons.mpr ⟨rfl, hσ⟩, by simpa using hne, ?_, hX⟩
      rw [NamedTree.find_node_append_cons hpre]
      exact hn

theorem ownsParent_missing {p : ProcessRef} {c : LockName} {rest : LockPath} {k : LockName}
    {s : LockState} {cs : List Lock} (hnone : ∀ d ∈ cs, d.name ≠ c) :
    OwnsParent p (c :: rest) (node k s cs) ↔ s.lockerX = some p := by
  constructor
  · rintro ⟨ρ, n, hρ, -, hn, hX⟩
    cases ρ with
    | nil =>
        cases hn
        exact hX
    | cons b σ =>
        obtain ⟨rfl, -⟩ := List.cons_prefix_cons.mp hρ
        rw [NamedTree.find_node_eq_none hnone] at hn
        cases hn
  · intro hX
    exact ⟨[], _, List.nil_prefix, by simp, rfl, hX⟩

/-- What `create_not_held` does below a lock: it fails without a trace, or it fills the
    path. -/
theorem createBelow_spec (p : ProcessRef) {path : LockPath} (hpath : path ≠ []) (l : Lock)
    (ensured : Bool) :
    (ensured = true ∨ OwnsParent p path l →
      (createBelow p path l ensured).1 = (if find path l = none then .created else .exists) ∧
      Filled path l (createBelow p path l ensured).2 ∧
      (find path l ≠ none → (createBelow p path l ensured).2 = l)) ∧
    (¬ (ensured = true ∨ OwnsParent p path l) →
      createBelow p path l ensured = (.parentNotHeld, l)) := by
  induction path generalizing l ensured with
  | nil => exact absurd rfl hpath
  | cons c rest ih =>
      cases l with
      | node k s cs =>
          have hflag : (ensured || decide (s.lockerX = some p)) = true ↔
              ensured = true ∨ s.lockerX = some p := by
            rw [Bool.or_eq_true, decide_eq_true_eq]
          cases hsplit : splitChild c cs with
          | some split =>
              obtain ⟨pre, child, post⟩ := split
              obtain ⟨rfl, hname, hpre⟩ := List.splitFirst_eq_some hsplit
              simp only [decide_eq_true_eq] at hname hpre
              have hfind : find (c :: rest) (node k s (pre ++ child :: post)) = find rest child := by
                rw [← hname, NamedTree.find_node_append_cons (by rwa [hname])]
              rw [hfind, ownsParent_child hname hpre, ← or_assoc, ← hflag]
              by_cases hrest : rest = []
              · -- the target exists
                subst hrest
                have hnot : ¬ OwnsParent p [] child := by
                  rintro ⟨ρ, n, hρ, hne, -⟩
                  exact hne (List.prefix_nil.mp hρ)
                simp only [createBelow, hsplit, if_true, NamedTree.find_nil, reduceCtorEq, if_false,
                  hnot, or_false]
                refine ⟨fun howned => ⟨if_pos howned, ?_, fun _ => trivial⟩, fun howned => ?_⟩
                · exact filled_of_find (by rw [hfind]; simp)
                · rw [if_neg howned]
              · simp only [createBelow, hsplit, hrest, if_false]
                obtain ⟨hyes, hno⟩ := ih hrest child (ensured || decide (s.lockerX = some p))
                refine ⟨fun howned => ?_, fun howned => ?_⟩
                · obtain ⟨hret, hfilled, hsame⟩ := hyes howned
                  refine ⟨hret, ?_, fun hfound => by rw [hsame hfound]⟩
                  exact hfilled.child hname (createBelow_adds p rest child _).name_eq hpre
                · rw [hno howned]
          | none =>
              have hnone : ∀ d ∈ cs, d.name ≠ c := by simpa using List.splitFirst_eq_none.mp hsplit
              rw [NamedTree.find_node_eq_none hnone, ownsParent_missing hnone, ← hflag]
              simp only [createBelow, hsplit]
              refine ⟨fun howned => ?_, fun howned => by rw [if_pos howned]⟩
              simp only [howned, not_true_eq_false, if_false]
              by_cases hrest : rest = []
              · subst hrest
                simp only [if_true]
                exact ⟨trivial, (filled_nil _).fresh rfl hnone, fun hfound => absurd rfl hfound⟩
              · simp only [hrest, if_false]
                obtain ⟨hret, hfilled, -⟩ := (ih hrest (new c) true).1 (Or.inl rfl)
                have hmissing : find rest (new c) = none := by
                  cases rest with
                  | nil => exact absurd rfl hrest
                  | cons d rest => exact NamedTree.find_node_eq_none (by simp)
                rw [hmissing] at hret
                refine ⟨hret, ?_, fun hfound => absurd rfl hfound⟩
                exact hfilled.fresh (createBelow_adds p rest (new c) _).name_eq hnone

end Lock

-- ============================================================================
-- The forest
-- ============================================================================

namespace LockForest

open NamedTree (find)

/-- The process holds X on an existing lock strictly above the target. -/
def OwnsParent (f : LockForest) (p : ProcessRef) (path : LockPath) : Prop :=
  ∃ ρ n, ρ <+: path ∧ ρ ≠ path ∧ f.node? ρ = some n ∧ n.val.lockerX = some p

/-- The locks of `f'` are those of `f`, unchanged, and the missing ones on the path,
    which have no holder, no intent holder and no waiting request. -/
def Filled (path : LockPath) (f f' : LockForest) : Prop :=
  ∀ ρ, ρ ≠ [] → (f'.node? ρ).map NamedTree.val =
    ((f.node? ρ).map NamedTree.val).or (if ρ <+: path then some {} else none)

/-- Every root is stored under its own name. -/
def RootsNamed (f : LockForest) : Prop := ∀ c l, f.roots.lookup c = some l → l.name = c

section

variable {f : LockForest} {c : LockName} {l : Lock}

theorem node?_cons (hl : f.roots.lookup c = some l) (ρ : LockPath) : f.node? (c :: ρ) = find ρ l := by
  rw [node?, hl]
  rfl

theorem ownsParent_iff (hl : f.roots.lookup c = some l) {p : ProcessRef} {rest : LockPath} :
    f.OwnsParent p (c :: rest) ↔ Lock.OwnsParent p rest l := by
  constructor
  · rintro ⟨ρ, n, hρ, hne, hn, hX⟩
    cases ρ with
    | nil => cases hn
    | cons b σ =>
        obtain ⟨rfl, hσ⟩ := List.cons_prefix_cons.mp hρ
        rw [node?_cons hl] at hn
        exact ⟨σ, n, hσ, fun heq => hne (by rw [heq]), hn, hX⟩
  · rintro ⟨σ, n, hσ, hne, hn, hX⟩
    refine ⟨c :: σ, n, List.cons_prefix_cons.mpr ⟨rfl, hσ⟩, by simpa using hne, ?_, hX⟩
    rw [node?_cons hl]
    exact hn

theorem filled_setRoot (hl : f.roots.lookup c = some l) {rest : LockPath} {l' : Lock}
    (h : Lock.Filled rest l l') : Filled (c :: rest) f (f.setRoot c l') := by
  have hupd := updates_setRoot hl l'
  intro ρ hρ
  cases ρ with
  | nil => exact absurd rfl hρ
  | cons b σ =>
      by_cases hb : b = c
      · subst hb
        rw [hupd.node?_after, node?_cons hl]
        simpa using h σ
      · rw [hupd.node?_ne hb]
        simp [hb]

/-- Creating in a tree whose root has the name it is stored under. -/
theorem create_of_lookup {address : Nat} {p : Process} {path : PathString} (hnamed : f.RootsNamed)
    (hl : f.roots.lookup (rootName path) = some l) (hrest : (splitPath path).tail ≠ []) :
    f.create address p path false =
      .ok ((Lock.createBelow p.object (splitPath path).tail l
          (decide (l.val.lockerX = some p.object))).1,
        f.setRoot (rootName path) (Lock.createBelow p.object (splitPath path).tail l
          (decide (l.val.lockerX = some p.object))).2, p) := by
  have hname : (splitPath path).head? = some l.name := by
    rw [splitPath_eq path, List.head?_cons, hnamed _ l hl]
  have hlength : ¬ (splitPath path).length ≤ 1 := by
    rw [splitPath_eq path, List.length_cons]
    have := List.length_pos_iff.mpr hrest
    omega
  simp [create, hl, Lock.createNotHeld, hname, hlength]

end

/-- The tree of one root changes, and its name does not. -/
theorem Updates.rootsNamed {f f' : LockForest} {c : LockName} {l l' : Lock}
    (h : Updates f f' c l l') (hname : l'.name = l.name) (hf : f.RootsNamed) :
    f'.RootsNamed := by
  intro d t ht
  by_cases hd : d = c
  · subst hd
    obtain rfl : l' = t := Option.some.inj (h.after.symm.trans ht)
    rw [hname]
    rcases h.before with hl | ⟨-, rfl⟩
    · exact hf d l hl
    · rfl
  · exact hf d t (by rw [← h.other d hd]; exact ht)

end LockForest

namespace Backend

theorem Reachable.roots_named {b : Backend} (h : Reachable b) : b.forest.RootsNamed := by
  refine Lts.Reachable.invariant (fun b => b.forest.RootsNamed) h (fun c l hl => by cases hl) ?_
  intro b e b' hb hstep
  refine Step.invariant (fun b => b.forest.RootsNamed) hstep hb ?_ fun _ _ _ hb => hb
  intro b₁ op res answered b₂ _ hb hmove
  cases hmove with
  | idle | tick | register => exact hb
  | enter hask hp hsame henter => exact henter.updates.rootsNamed henter.acquires.name_eq hb
  | add hp hl =>
      exact (LockForest.updates_setRoot hl _).rootsNamed (LockForest.createNotHeld_adds ..).name_eq hb
  | release hp hleave => exact hleave.updates.rootsNamed hleave.releases.name_eq hb

/-- Creating a lock below a root: the test at the root is part of the search for a parent that
    the process owns. -/
theorem create_below_exact {b : Backend} (h : b.Reachable) {path : PathString} {l : Lock}
    (hl : b.forest.roots.lookup (rootName path) = some l) (hrest : (splitPath path).tail ≠ [])
    (p : Process) (address : Nat) :
    ∃ ret f', b.forest.create address p path false = .ok (ret, f', p) ∧
      (b.forest.OwnsParent p.object (splitPath path) →
        ret = (if b.forest.node? (splitPath path) = none then .created else .exists) ∧
          b.forest.Filled (splitPath path) f') ∧
      (¬ b.forest.OwnsParent p.object (splitPath path) → ret = .parentNotHeld) ∧
      (ret = .parentNotHeld ∨ ret = .exists → f' = b.forest) := by
  obtain ⟨hyes, hno⟩ := Lock.createBelow_spec p.object hrest l
    (decide (l.val.lockerX = some p.object))
  have howns : (decide (l.val.lockerX = some p.object) = true ∨
      Lock.OwnsParent p.object (splitPath path).tail l) ↔
      b.forest.OwnsParent p.object (splitPath path) := by
    rw [splitPath_eq path, LockForest.ownsParent_iff hl, List.tail_cons, decide_eq_true_eq]
    refine ⟨fun h => h.elim (fun hX => ?_) id, Or.inr⟩
    exact ⟨[], l, List.nil_prefix, fun heq => hrest heq.symm, rfl, hX⟩
  have hnode : b.forest.node? (splitPath path) = NamedTree.find (splitPath path).tail l := by
    rw [splitPath_eq path]
    exact LockForest.node?_cons hl _
  rw [howns, ← hnode] at hyes
  rw [howns] at hno
  refine ⟨_, _, LockForest.create_of_lookup h.roots_named hl hrest, ?_, ?_, ?_⟩
  · intro howned
    obtain ⟨hret, hfilled, -⟩ := hyes howned
    have hall := LockForest.filled_setRoot hl hfilled
    rw [← splitPath_eq path] at hall
    exact ⟨hret, hall⟩
  · intro howned
    rw [hno howned]
  · intro hret
    by_cases howned : b.forest.OwnsParent p.object (splitPath path)
    · obtain ⟨hret', -, hsame⟩ := hyes howned
      have hfound : b.forest.node? (splitPath path) ≠ none := by
        intro hnone
        rw [hret', if_pos hnone] at hret
        simp at hret
      rw [hsame hfound]
      exact LockForest.setRoot_self hl
    · rw [hno howned]
      exact LockForest.setRoot_self hl

/-- The result of creating a lock that is not to be held, and what it does. -/
theorem create_not_held_exact {b : Backend} (h : b.Reachable) {pid : UInt32} {p : Process}
    (_hp : b.processes.lookup pid = some p) (address : Nat) (path : PathString) :
    ∃ ret f', b.forest.create address p path false = .ok (ret, f', p) ∧
      (b.forest.node? [rootName path] = none → ret = .parentNotHeld) ∧
      (∀ root, b.forest.node? [rootName path] = some root → (splitPath path).length = 1 →
        ret = if root.val.lockerX = some p.object then .exists else .parentNotHeld) ∧
      (∀ root, b.forest.node? [rootName path] = some root → 1 < (splitPath path).length →
        (b.forest.OwnsParent p.object (splitPath path) →
          ret = (if b.forest.node? (splitPath path) = none then .created else .exists) ∧
          b.forest.Filled (splitPath path) f') ∧
        (¬ b.forest.OwnsParent p.object (splitPath path) → ret = .parentNotHeld)) ∧
      (ret = .parentNotHeld ∨ ret = .exists → f' = b.forest) := by
  cases hl : b.forest.roots.lookup (rootName path) with
  | none =>
      have hnone : b.forest.node? [rootName path] = none := by
        rw [LockForest.node?, hl]
        rfl
      refine ⟨.parentNotHeld, b.forest, by simp [LockForest.create, hl], fun _ => rfl, ?_, ?_,
        fun _ => rfl⟩
      · intro root hroot
        rw [hnone] at hroot
        cases hroot
      · intro root hroot
        rw [hnone] at hroot
        cases hroot
  | some l =>
      have hroot : b.forest.node? [rootName path] = some l := LockForest.node?_cons hl []
      by_cases hrest : (splitPath path).tail = []
      · -- only the root is named
        have hlength : (splitPath path).length = 1 := by
          rw [splitPath_eq path, hrest]
          rfl
        have hname : (splitPath path).head? = some l.name := by
          rw [splitPath_eq path, List.head?_cons, h.roots_named _ l hl]
        refine ⟨if l.val.lockerX = some p.object then .exists else .parentNotHeld, b.forest, ?_,
          ?_, ?_, ?_, fun _ => rfl⟩
        · simp [LockForest.create, hl, Lock.createNotHeld, hname, hlength, LockForest.setRoot_self hl]
        · intro hnone
          rw [hnone] at hroot
          cases hroot
        · intro root hroot' _
          rw [hroot] at hroot'
          cases hroot'
          rfl
        · intro root _ hlt
          omega
      · obtain ⟨ret, f', hrun, hyes, hno, hsame⟩ := create_below_exact h hl hrest p address
        refine ⟨ret, f', hrun, ?_, ?_, fun _ _ _ => ⟨hyes, hno⟩, hsame⟩
        · intro hnone
          rw [hnone] at hroot
          cases hroot
        · intro _ _ hlength
          rw [splitPath_eq path, List.length_cons] at hlength
          exact absurd (List.length_eq_zero_iff.mp (Nat.succ.inj hlength)) hrest

/-- Process 0, which holds X on `a`, creates `a.b.c`. -/
theorem create_not_held_exact_owning :
    ∃ p f', (after 1 owning).processes.lookup 0 = some p ∧
      (after 1 owning).forest.create 1 p [0x61, 0x2E, 0x62, 0x2E, 0x63] false =
        .ok (.created, f', p) ∧
      (after 1 owning).forest.Filled [[0x61], [0x62], [0x63]] f' := by
  have hproc : ((after 1 owning).processes.lookup 0).any (fun p => p.object = 0) = true := by
    decide +kernel
  have hX : ((after 1 owning).forest.node? [[0x61]]).any
      (fun n => decide (n.val.lockerX = some 0)) = true := by decide +kernel
  have hfree : ((after 1 owning).forest.node? [[0x61], [0x62], [0x63]]).isNone = true := by
    decide +kernel
  obtain ⟨p, hp, hobject⟩ := (Option.any_eq_true _ _).mp hproc
  obtain ⟨n, hn, hX⟩ := (Option.any_eq_true _ _).mp hX
  obtain ⟨ret, f', hrun, -, -, hbelow, -⟩ := create_not_held_exact (reachable_after 1 owning) hp 1
    [0x61, 0x2E, 0x62, 0x2E, 0x63]
  have howns : (after 1 owning).forest.OwnsParent p.object [[0x61], [0x62], [0x63]] := by
    refine ⟨[[0x61]], n, by decide, by decide, hn, ?_⟩
    rw [of_decide_eq_true hobject]
    exact of_decide_eq_true hX
  obtain ⟨hret, hfilled⟩ := (hbelow n hn (by decide)).1 howns
  have hcreated : ret = .created := hret.trans (if_pos (Option.isNone_iff_eq_none.mp hfree))
  rw [hcreated] at hrun
  exact ⟨p, f', hp, hrun, hfilled⟩

end Backend

end Tclm.Server
