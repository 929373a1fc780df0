/-
  Tclm.Server.Paths

  The path that `notify_answered_requests` assembles.

  A path loses its leading and doubled dots when it is split, so the assembled path need not
  be the one that was sent.  It is not longer, and it names the same lock.

  Splitting is a normal form: the pieces between the dots without the empty ones in front of
  the last piece.  The loop over positions, as it stands in the source, computes the same
  components (`splitLoop`).
-/

import Tclm.Server.Daemon

namespace Tclm.Server

/-- What splitting a string gives: components without dots, of which only the last one may be
    empty. -/
inductive Tidy : LockPath → Prop
  | last {c : LockName} : dot ∉ c → Tidy [c]
  | cons {c : LockName} {path : LockPath} : dot ∉ c → c ≠ [] → Tidy path → Tidy (c :: path)

theorem Tidy.dot_notMem {path : LockPath} (h : Tidy path) : ∀ c ∈ path, dot ∉ c := by
  induction h with
  | last hdot =>
      intro c hc
      rwa [List.mem_singleton.mp hc]
  | cons hdot _ _ ih => exact List.forall_mem_cons.mpr ⟨hdot, ih⟩

theorem tidy_splitPathFrom {piece : LockName} (s : PathString) (h : dot ∉ piece) :
    Tidy (splitPathFrom piece s) := by
  induction s generalizing piece with
  | nil => exact .last h
  | cons b s ih =>
      rw [splitPathFrom]
      split
      · split
        · exact ih (by simp)
        · rename_i hne
          exact .cons h hne (ih (by simp))
      · rename_i hb
        refine ih ?_
        simp only [List.mem_append, List.mem_singleton, not_or]
        exact ⟨h, fun heq => hb heq.symm⟩

theorem tidy_splitPath (s : PathString) : Tidy (splitPath s) := tidy_splitPathFrom s (by simp)

/-- The components with a dot in front of each. -/
def dotted (path : LockPath) : PathString := path.flatMap fun c => dot :: c

/-- The components with dots between them. -/
def spell : LockPath → PathString
  | [] => []
  | c :: path => c ++ dotted path

theorem dotted_eq {path : LockPath} (h : path ≠ []) : dotted path = dot :: spell path := by
  cases path with
  | nil => exact absurd rfl h
  | cons c path => rfl

theorem Tidy.ne_nil {path : LockPath} (h : Tidy path) : path ≠ [] := by
  cases h with
  | last | cons => exact List.cons_ne_nil _ _

theorem Tidy.inner_ne_nil {path : LockPath} (h : Tidy path) : ∀ c ∈ path.dropLast, c ≠ [] := by
  induction h with
  | last => nofun
  | cons _ hne hpath ih =>
      rw [List.dropLast_cons_of_ne_nil hpath.ne_nil]
      exact List.forall_mem_cons.mpr ⟨hne, ih⟩

/-- Once there is something, every component gets its dot. -/
theorem foldl_join {s : PathString} (hs : s ≠ []) (path : LockPath) :
    path.foldl (fun s component => (if 0 < s.length then s ++ [dot] else s) ++ component) s =
      s ++ dotted path := by
  induction path generalizing s with
  | nil => exact (List.append_nil s).symm
  | cons c path ih =>
      have hne : s ++ [dot] ++ c ≠ [] := by simp
      rw [List.foldl_cons, if_pos (List.length_pos_of_ne_nil hs), ih hne]
      simp [dotted]

theorem joinPath_eq {path : LockPath} (h : Tidy path) : Daemon.joinPath path = spell path := by
  cases h with
  | last hdot => simp [Daemon.joinPath, spell, dotted]
  | cons hdot hne hpath =>
      rw [Daemon.joinPath, List.foldl_cons]
      exact foldl_join hne _

theorem length_spell_splitPathFrom (piece : LockName) (s : PathString) :
    (spell (splitPathFrom piece s)).length ≤ piece.length + s.length := by
  induction s generalizing piece with
  | nil => simp [splitPathFrom, spell, dotted]
  | cons b s ih =>
      rw [splitPathFrom]
      split
      · split
        · have := ih []
          rw [List.length_nil] at this
          rw [List.length_cons]
          omega
        · have := ih []
          rw [spell, dotted_eq (splitPathFrom_ne_nil [] s), List.length_append, List.length_cons,
            List.length_cons]
          rw [List.length_nil] at this
          omega
      · have := ih (piece ++ [b])
        rw [List.length_append, List.length_singleton] at this
        rw [List.length_cons]
        omega

/-- The assembled path is not longer than the path that was split. -/
theorem length_joinPath_splitPath (s : PathString) :
    (Daemon.joinPath (splitPath s)).length ≤ s.length := by
  have h := length_spell_splitPathFrom [] s
  rw [List.length_nil, Nat.zero_add] at h
  rw [joinPath_eq (tidy_splitPath s)]
  exact h

theorem splitPathFrom_append {piece c : LockName} (s : PathString) (h : dot ∉ c) :
    splitPathFrom piece (c ++ s) = splitPathFrom (piece ++ c) s := by
  induction c generalizing piece with
  | nil => rw [List.nil_append, List.append_nil]
  | cons b c ih =>
      simp only [List.mem_cons, not_or] at h
      rw [List.cons_append, splitPathFrom, if_neg fun heq => h.1 heq.symm, ih h.2,
        List.append_assoc]
      rfl

/-- The spelling of a path is split into its components. -/
theorem splitPath_spell {path : LockPath} (h : Tidy path) : splitPath (spell path) = path := by
  induction h with
  | last hdot =>
      rw [splitPath, spell, splitPathFrom_append _ hdot]
      rfl
  | cons hdot hne hpath ih =>
      rw [splitPath, spell, splitPathFrom_append _ hdot, dotted_eq hpath.ne_nil, List.nil_append,
        splitPathFrom, if_pos rfl, if_neg hne]
      exact congrArg _ ih

/-- The assembled path names the same lock. -/
theorem splitPath_joinPath (s : PathString) :
    splitPath (Daemon.joinPath (splitPath s)) = splitPath s := by
  rw [joinPath_eq (tidy_splitPath s), splitPath_spell (tidy_splitPath s)]

-- ============================================================================
-- The normal form
-- ============================================================================

/-- The pieces without the empty ones in front of the last. -/
def dropEmpty (pieces : List LockName) : LockPath :=
  pieces.dropLast.filter (· ≠ []) ++ pieces.getLast?.toList

theorem dropEmpty_cons {pieces : List LockName} (h : pieces ≠ []) (piece : LockName) :
    dropEmpty (piece :: pieces) =
      if piece = [] then dropEmpty pieces else piece :: dropEmpty pieces := by
  rw [dropEmpty, List.dropLast_cons_of_ne_nil h, List.getLast?_cons_of_ne_nil h, List.filter_cons]
  split
  · rename_i hne
    rw [if_neg (of_decide_eq_true hne)]
    rfl
  · rename_i hnil
    rw [if_pos (by simpa using hnil)]
    rfl

theorem splitPathFrom_eq_dropEmpty (piece : LockName) (s : PathString) :
    splitPathFrom piece s = dropEmpty ((s.splitOn dot).modifyHead (piece ++ ·)) := by
  induction s generalizing piece with
  | nil => simp [splitPathFrom, dropEmpty]
  | cons b s ih =>
      rw [splitPathFrom, List.splitOn_cons_eq_if_modifyHead]
      by_cases hb : b = dot
      · -- the piece ends here
        have hrest : (s.splitOn dot).modifyHead ([] ++ ·) = s.splitOn dot :=
          congrFun List.modifyHead_id _
        rw [if_pos hb, if_pos (beq_iff_eq.mpr hb), List.modifyHead_cons, List.append_nil,
          dropEmpty_cons (List.splitOn_ne_nil dot s), ih [], hrest]
      · rw [if_neg hb, if_neg (by simpa using hb), ih (piece ++ [b]), List.modifyHead_modifyHead]
        congr 2
        funext c
        simp

/-- `path->find ('.', start)` -/
def findDot (path : PathString) (start : Nat) : Option Nat :=
  ((path.drop start).findIdx? (· = dot)).map (start + ·)

/-- The loop of `Lock_Forest::split_path` with its positions: `v` are the components that have
    been found, `none` says that the turns do not suffice. -/
def splitLoop (path : PathString) : Nat → Nat → LockPath → Option LockPath
  | 0, _, _ => none
  | turns + 1, cbegin, v =>
      match findDot path cbegin with
      | none => some (v ++ [path.drop cbegin])
      | some cend =>
          splitLoop path turns (cend + 1)
            (if cbegin < cend then v ++ [(path.drop cbegin).take (cend - cbegin)] else v)

theorem findDot_none {path s : PathString} {start : Nat} (hdrop : path.drop start = s)
    (h : dot ∉ s) : findDot path start = none := by
  rw [findDot, hdrop, Option.map_eq_none_iff, List.findIdx?_eq_none_iff]
  intro b hb
  exact decide_eq_false fun heq => h (heq ▸ hb)

theorem findDot_some {path s c : PathString} {start : Nat} (hdrop : path.drop start = c ++ dot :: s)
    (h : dot ∉ c) : findDot path start = some (start + c.length) := by
  have hnone : c.findIdx? (· = dot) = none :=
    List.findIdx?_eq_none_iff.mpr fun b hb => decide_eq_false fun heq => h (heq ▸ hb)
  rw [findDot, hdrop, List.findIdx?_append, hnone, List.findIdx?_cons,
    if_pos (decide_eq_true rfl)]
  simp

/-- The loop from position `cbegin` on. -/
theorem splitLoop_eq {path : PathString} {turns cbegin : Nat} (v : LockPath)
    (hturns : path.length - cbegin < turns) :
    splitLoop path turns cbegin v = some (v ++ splitPath (path.drop cbegin)) := by
  induction turns generalizing cbegin v with
  | zero => omega
  | succ turns ih =>
      rw [splitLoop]
      by_cases hdot : dot ∈ path.drop cbegin
      · obtain ⟨c, s, hdrop, hc⟩ := List.eq_append_cons_of_mem hdot
        have hnext : path.drop (cbegin + c.length + 1) = s := by
          rw [Nat.add_assoc, ← List.drop_drop, hdrop, ← List.drop_drop, List.drop_left]
          rfl
        have hlen := congrArg List.length hdrop
        rw [List.length_drop, List.length_append, List.length_cons] at hlen
        have hpiece : (path.drop cbegin).take (cbegin + c.length - cbegin) = c := by
          rw [hdrop, Nat.add_sub_cancel_left, List.take_left]
        have hsplit : splitPath (path.drop cbegin) =
            if c = [] then splitPath s else c :: splitPath s := by
          rw [hdrop, splitPath, splitPathFrom_append _ hc, List.nil_append, splitPathFrom,
            if_pos rfl]
          rfl
        rw [findDot_some hdrop hc]
        show splitLoop path turns (cbegin + c.length + 1) _ = _
        rw [ih _ (by omega), hnext, hpiece, hsplit]
        by_cases hnil : c = []
        · rw [if_pos hnil, if_neg (by rw [hnil]; exact Nat.lt_irrefl _)]
        · have := List.length_pos_of_ne_nil hnil
          rw [if_neg hnil, if_pos (by omega), List.append_assoc]
          rfl
      · have hlast : splitPath (path.drop cbegin) = [path.drop cbegin] := by
          have := @splitPathFrom_append [] _ [] hdot
          rw [List.append_nil, List.nil_append] at this
          rw [splitPath, this]
          rfl
        rw [findDot_none rfl hdot, hlast]

/-- Splitting ends and gives the pieces between the dots without the empty ones in front of the
    last; it is undone by putting them together, and two paths are split alike exactly if
    the same path is put together of both. -/
theorem splitPath_normal_form (s t : PathString) :
    splitLoop s (s.length + 1) 0 [] = some (splitPath s) ∧
      splitPath s ≠ [] ∧ (∀ c ∈ splitPath s, dot ∉ c) ∧ (∀ c ∈ (splitPath s).dropLast, c ≠ []) ∧
      splitPath s = dropEmpty (s.splitOn dot) ∧
      splitPath (Daemon.joinPath (splitPath s)) = splitPath s ∧
      (splitPath s = splitPath t ↔
        Daemon.joinPath (splitPath s) = Daemon.joinPath (splitPath t)) := by
  have htidy := tidy_splitPath s
  refine ⟨?_, htidy.ne_nil, htidy.dot_notMem, htidy.inner_ne_nil, ?_, splitPath_joinPath s, ?_⟩
  · exact splitLoop_eq [] (by omega)
  · rw [splitPath, splitPathFrom_eq_dropEmpty]
    exact congrArg dropEmpty (congrFun List.modifyHead_id _)
  · constructor
    · intro h
      rw [h]
    · intro h
      rw [← splitPath_joinPath s, h, splitPath_joinPath]

-- ============================================================================
-- The path in an update
-- ============================================================================

/-- The pieces of a string are put together to the string unless a piece was dropped: an empty
    one in front of a dot. -/
theorem spell_splitPathFrom_iff (piece : LockName) (s : PathString) :
    spell (splitPathFrom piece s) = piece ++ s ↔
      (piece = [] → ¬ [dot] <+: s) ∧ ¬ [dot, dot] <:+: s := by
  induction s generalizing piece with
  | nil => simp [splitPathFrom, spell, dotted]
  | cons b s ih =>
      rw [splitPathFrom]
      by_cases hb : b = dot
      · subst hb
        rw [if_pos rfl]
        by_cases hpiece : piece = []
        · -- the string that is put together is too short
          rw [if_pos hpiece, hpiece, List.nil_append]
          have hlen := length_spell_splitPathFrom [] s
          refine ⟨fun h => ?_, fun h => absurd ⟨s, rfl⟩ (h.1 rfl)⟩
          rw [h, List.length_cons, List.length_nil] at hlen
          omega
        · have hdots : [dot, dot] <:+: dot :: s ↔ [dot] <+: s ∨ [dot, dot] <:+: s := by
            rw [List.infix_cons_iff, List.prefix_cons_inj]
          have ih := ih []
          rw [List.nil_append] at ih
          rw [if_neg hpiece, spell, dotted_eq (splitPathFrom_ne_nil [] s), List.append_cancel_left_eq,
            List.cons.injEq, hdots, not_or]
          simp only [true_and, ih, hpiece, false_implies, forall_const]
      · have hne : piece ++ [b] ≠ [] := by simp
        have hhead : ¬ [dot] <+: b :: s := by
          rintro ⟨t, ht⟩
          exact hb (List.cons.inj ht).1.symm
        have hdots : [dot, dot] <:+: b :: s ↔ [dot, dot] <:+: s := by
          rw [List.infix_cons_iff]
          refine ⟨fun h => h.resolve_left ?_, Or.inr⟩
          rintro ⟨t, ht⟩
          exact hb (List.cons.inj ht).1.symm
        have ih := ih (piece ++ [b])
        rw [List.append_assoc, List.singleton_append] at ih
        rw [if_neg hb, ih, hdots]
        simp only [hne, false_implies, true_and, hhead, not_false_eq_true, implies_true]

/-- An update names the path that was sent if and only if the path does not start with a dot and
    has no two dots in a row. -/
theorem joinPath_splitPath_iff (s : PathString) :
    Daemon.joinPath (splitPath s) = s ↔ ¬ [dot] <+: s ∧ ¬ [dot, dot] <:+: s := by
  have h := spell_splitPathFrom_iff [] s
  rw [List.nil_append] at h
  rw [joinPath_eq (tidy_splitPath s), splitPath, h]
  simp only [forall_const]

/-- Process 0 holds the lock `a`, which process 1 calls `.a`. -/
def otherSpelling : List Backend.Op :=
  [.registerProcess, .registerProcess, .createLock 0 [0x61] true]

/-- The request waits under a path that its update will not name. -/
theorem update_names_other_path :
    ¬ ∀ (b b' : Backend) (fuel : Nat) (pid : UInt32) (s : PathString) (mode : UInt8),
      b.Reachable → b.step fuel (.acquireLock pid s mode) = .ok (.acquired .queued, ∅, b') →
      Daemon.joinPath (splitPath s) = s := by
  intro h
  have hstep : ((Backend.after 1 otherSpelling).step 1 (.acquireLock 1 [dot, 0x61] 0)).toOption.map
      (fun x => (x.1, x.2.1)) = some (.acquired .queued, ∅) := by decide +kernel
  obtain ⟨⟨res, answered, b'⟩, hrun, heq⟩ := Option.map_eq_some_iff.mp hstep
  cases heq
  cases hok : (Backend.after 1 otherSpelling).step 1 (.acquireLock 1 [dot, 0x61] 0) with
  | error e => rw [hok] at hrun; cases hrun
  | ok x =>
      rw [hok] at hrun
      cases hrun
      have := h _ b' 1 1 [dot, 0x61] 0 (Backend.reachable_after 1 otherSpelling) hok
      revert this
      decide

-- Another spelling of the lock, with three dots too many.
example : Daemon.joinPath (splitPath [dot, 0x61, dot, dot, dot, 0x62]) = [0x61, dot, 0x62] := by
  decide

end Tclm.Server
