/-
  Tclm.Lib.TreeEdit

  Edits of a named tree: a list of changes of values, each with the address of the node
  it changes.

  - `modify ρ g t` changes the value at the address `ρ`; nothing happens if there is no
    such node.  Neither names nor shape change.
  - `edit es t` makes the changes one after the other.
  - Two edits can be made in either order if every change of one commutes with every
    change of the other, be it because the addresses differ (`edit_comm`).
-/

import Tclm.Lib.NamedTree

namespace NamedTree

variable {κ α : Type*} [DecidableEq κ]

/-- Change the first child with a name. -/
def modifyChild (c : κ) (f : NamedTree κ α → NamedTree κ α) :
    List (NamedTree κ α) → List (NamedTree κ α)
  | [] => []
  | t :: ts => if t.name = c then f t :: ts else t :: modifyChild c f ts

/-- Change the value at an address. -/
def modify : List κ → (α → α) → NamedTree κ α → NamedTree κ α
  | [], g, .node k v cs => .node k (g v) cs
  | c :: ρ, g, .node k v cs => .node k v (modifyChild c (modify ρ g) cs)

/-- Make a list of changes. -/
def edit (es : List (List κ × (α → α))) (t : NamedTree κ α) : NamedTree κ α :=
  es.foldl (fun t e => modify e.1 e.2 t) t

/-! ## Children -/

section Children

variable {c d : κ} {f g : NamedTree κ α → NamedTree κ α} {cs : List (NamedTree κ α)}

theorem modifyChild_append_cons {pre post : List (NamedTree κ α)} {t : NamedTree κ α}
    (ht : t.name = c) (hpre : ∀ d ∈ pre, d.name ≠ c) :
    modifyChild c f (pre ++ t :: post) = pre ++ f t :: post := by
  induction pre with
  | nil => simp [modifyChild, ht]
  | cons a pre ih =>
      have ha : a.name ≠ c := hpre a (List.mem_cons_self ..)
      simp [modifyChild, ha, ih fun d hd => hpre d (List.mem_cons_of_mem _ hd)]

theorem modifyChild_id : modifyChild c id cs = cs := by
  induction cs with
  | nil => rfl
  | cons t ts ih => simp [modifyChild, ih]

theorem modifyChild_modifyChild (hg : ∀ t, (g t).name = t.name) :
    modifyChild c f (modifyChild c g cs) = modifyChild c (fun t => f (g t)) cs := by
  induction cs with
  | nil => rfl
  | cons t ts ih =>
      by_cases ht : t.name = c
      · simp [modifyChild, ht, hg]
      · simp [modifyChild, ht, ih]

/-- Children with different names can be changed in either order. -/
theorem modifyChild_comm (hcd : c ≠ d) (hf : ∀ t, (f t).name = t.name)
    (hg : ∀ t, (g t).name = t.name) :
    modifyChild c f (modifyChild d g cs) = modifyChild d g (modifyChild c f cs) := by
  induction cs with
  | nil => rfl
  | cons t ts ih =>
      by_cases hc : t.name = c
      · simp [modifyChild, hc, hcd, hf]
      · by_cases hd : t.name = d
        · simp [modifyChild, hd, hcd.symm, hg]
        · simp [modifyChild, hc, hd, ih]

theorem find?_modifyChild_self (hf : ∀ t, (f t).name = t.name) (cs : List (NamedTree κ α)) :
    (modifyChild c f cs).find? (fun t => t.name = c) =
      (cs.find? fun t => t.name = c).map f := by
  induction cs with
  | nil => rfl
  | cons t ts ih =>
      by_cases ht : t.name = c
      · simp [modifyChild, ht, hf]
      · simp [modifyChild, ht, ih]

theorem find?_modifyChild_ne (hdc : d ≠ c) (hf : ∀ t, (f t).name = t.name) :
    (modifyChild c f cs).find? (fun t => t.name = d) = cs.find? fun t => t.name = d := by
  induction cs with
  | nil => rfl
  | cons t ts ih =>
      by_cases ht : t.name = c
      · have htd : c ≠ d := hdc.symm
        simp [modifyChild, ht, hf, htd]
      · by_cases hd : t.name = d
        · simp [modifyChild, hd, hdc]
        · simp [modifyChild, ht, hd, ih]

end Children

/-! ## Single changes -/

section Modify

variable {ρ σ : List κ} {g h : α → α}

@[simp] theorem name_modify (ρ : List κ) (g : α → α) (t : NamedTree κ α) :
    (modify ρ g t).name = t.name := by
  cases t with
  | node k v cs => cases ρ <;> rfl

/-- Only the value at the address changes. -/
theorem find_modify (t : NamedTree κ α) :
    (find σ (modify ρ g t)).map val =
      (find σ t).map fun n => if σ = ρ then g n.val else n.val := by
  induction σ generalizing ρ t with
  | nil =>
      cases t with
      | node k v cs => cases ρ <;> simp [modify]
  | cons b σ ih =>
      cases t with
      | node k v cs =>
          cases ρ with
          | nil => simp [modify, find]
          | cons c ρ =>
              simp only [find, modify, children_node]
              by_cases hb : b = c
              · subst hb
                rw [find?_modifyChild_self (name_modify ρ g)]
                cases cs.find? fun t => decide (t.name = b) with
                | none => rfl
                | some t => simpa using ih t
              · rw [find?_modifyChild_ne hb (name_modify ρ g)]
                simp [hb]

/-- Changes at different addresses can be made in either order, and changes of one value
    that commute. -/
theorem modify_comm (hcomm : ρ = σ → ∀ v, g (h v) = h (g v)) (t : NamedTree κ α) :
    modify ρ g (modify σ h t) = modify σ h (modify ρ g t) := by
  induction ρ generalizing σ t with
  | nil =>
      cases t with
      | node k v cs =>
          cases σ with
          | nil => simp [modify, hcomm rfl v]
          | cons d σ => rfl
  | cons c ρ ih =>
      cases t with
      | node k v cs =>
          cases σ with
          | nil => rfl
          | cons d σ =>
              simp only [modify]
              by_cases hcd : c = d
              · subst hcd
                rw [modifyChild_modifyChild (name_modify σ h),
                  modifyChild_modifyChild (name_modify ρ g)]
                have hswap : (fun t => modify ρ g (modify σ h t)) =
                    fun t : NamedTree κ α => modify σ h (modify ρ g t) :=
                  funext fun t => ih (fun heq => hcomm (by rw [heq])) t
                rw [hswap]
              · rw [modifyChild_comm hcd (name_modify ρ g) (name_modify σ h)]

end Modify

/-! ## Lists of changes -/

section Edit

variable {es es' : List (List κ × (α → α))}

@[simp] theorem edit_nil (t : NamedTree κ α) : edit [] t = t := rfl

theorem edit_cons (e : List κ × (α → α)) (t : NamedTree κ α) :
    edit (e :: es) t = edit es (modify e.1 e.2 t) := rfl

@[simp] theorem name_edit (es : List (List κ × (α → α))) (t : NamedTree κ α) :
    (edit es t).name = t.name := by
  induction es generalizing t with
  | nil => rfl
  | cons e es ih => rw [edit_cons, ih, name_modify]

/-- Changes below one child are changes of that child. -/
theorem edit_map_cons {k c : κ} {v : α} {cs : List (NamedTree κ α)} :
    edit (es.map fun e => (c :: e.1, e.2)) (node k v cs) = node k v (modifyChild c (edit es) cs) := by
  induction es generalizing cs with
  | nil =>
      have hid : (edit [] : NamedTree κ α → NamedTree κ α) = id := rfl
      rw [List.map_nil, edit_nil, hid, modifyChild_id]
  | cons e es ih =>
      rw [List.map_cons, edit_cons, modify, ih, modifyChild_modifyChild (name_modify e.1 e.2)]
      rfl

/-- The value at an address goes through the changes for this address. -/
theorem find_edit {σ : List κ} (t : NamedTree κ α) :
    (find σ (edit es t)).map val =
      (find σ t).map fun n => (es.filter fun e => e.1 = σ).foldl (fun v e => e.2 v) n.val := by
  induction es generalizing t with
  | nil =>
      rw [edit_nil]
      cases find σ t <;> rfl
  | cons e es ih =>
      rw [edit_cons, ih, ← Function.comp_def (fun v => (es.filter _).foldl _ v) val,
        ← Option.map_map, find_modify]
      cases find σ t with
      | none => rfl
      | some n =>
          by_cases he : e.1 = σ
          · simp [he]
          · have he' : σ ≠ e.1 := fun h => he h.symm
            simp [he, he']

/-- Two edits whose changes commute can be made in either order. -/
theorem edit_comm
    (hcomm : ∀ e ∈ es, ∀ e' ∈ es', e.1 = e'.1 → ∀ v, e.2 (e'.2 v) = e'.2 (e.2 v))
    (t : NamedTree κ α) : edit es (edit es' t) = edit es' (edit es t) := by
  -- one change moves past a whole edit
  have hpast : ∀ (es' : List (List κ × (α → α))) (e : List κ × (α → α)) (t : NamedTree κ α),
      (∀ e' ∈ es', e.1 = e'.1 → ∀ v, e.2 (e'.2 v) = e'.2 (e.2 v)) →
      modify e.1 e.2 (edit es' t) = edit es' (modify e.1 e.2 t) := by
    intro es'
    induction es' with
    | nil => exact fun _ _ _ => rfl
    | cons e' es' ih =>
        intro e t hcomm
        obtain ⟨hfirst, hrest⟩ := List.forall_mem_cons.mp hcomm
        rw [edit_cons, edit_cons, ih e _ hrest, modify_comm hfirst]
  induction es generalizing t with
  | nil => rfl
  | cons e es ih =>
      obtain ⟨hfirst, hrest⟩ := List.forall_mem_cons.mp hcomm
      rw [edit_cons, edit_cons, hpast es' e t hfirst, ih hrest]

end Edit

end NamedTree
