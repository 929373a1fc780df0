/-
  Tclm.Lib.SortedList

  Ordered containers with unique keys: a list that is strictly increasing in a
  key, the sortedness being a field.  With `key = Prod.fst` this is an ordered
  map, with an injective key on the elements themselves an ordered set; both
  iterate in key order.

  `insert` keeps the entry that is already there (what inserting into a map or
  a set does when the key exists), `set` overwrites the value of an existing
  key, `erase` drops a key.  The unsigned machine integers get their linear
  order here, so that they (and strings of them) can be keys.
-/

import Mathlib.Data.List.Lex
import Mathlib.Data.Prod.Lex
import Mathlib.Tactic.Common

variable {α κ β : Type*} [LinearOrder κ]

/-- A finite collection in strictly increasing key order. -/
@[ext]
structure SortedList (key : α → κ) where
  entries : List α
  sorted : entries.Pairwise fun a b => key a < key b

namespace SortedList

variable {key : α → κ} {c : SortedList key} {a b : α} {k : κ}

/-- The empty collection. -/
def empty : SortedList key := ⟨[], List.Pairwise.nil⟩

/-- Number of entries. -/
def size (c : SortedList key) : Nat := c.entries.length

/-- The entry with key `k`. -/
def find? (c : SortedList key) (k : κ) : Option α := c.entries.find? fun a => key a = k

theorem find?_eq_none : c.find? k = none ↔ ∀ a ∈ c.entries, key a ≠ k := by
  simp [find?]

theorem find?_some (h : c.find? k = some a) : a ∈ c.entries ∧ key a = k :=
  ⟨List.mem_of_find?_eq_some h, by simpa using List.find?_some h⟩

/-- Keys are unique: two entries with one key are the same entry. -/
theorem eq_of_key_eq (ha : a ∈ c.entries) (hb : b ∈ c.entries) (h : key a = key b) : a = b := by
  obtain ⟨i, hi, rfl⟩ := List.mem_iff_getElem.mp ha
  obtain ⟨j, hj, rfl⟩ := List.mem_iff_getElem.mp hb
  have hlt := List.pairwise_iff_getElem.mp c.sorted
  rcases Nat.lt_trichotomy i j with hij | rfl | hij
  · exact absurd h (hlt i j hi hj hij).ne
  · rfl
  · exact absurd h (hlt j i hj hi hij).ne'

theorem find?_of_mem (ha : a ∈ c.entries) : c.find? (key a) = some a := by
  cases hf : c.find? (key a) with
  | none => exact absurd rfl (find?_eq_none.mp hf a ha)
  | some b =>
      obtain ⟨hb, hkey⟩ := find?_some hf
      rw [eq_of_key_eq hb ha hkey]

theorem nodup (c : SortedList key) : c.entries.Nodup :=
  c.sorted.imp fun h heq => h.ne (congrArg key heq)

/-! ## Insertion -/

/-- Ordered insertion; an entry with the same key wins over the new one. -/
def insertInto (key : α → κ) (a : α) : List α → List α
  | [] => [a]
  | b :: l =>
      if key a < key b then a :: b :: l
      else if key b < key a then b :: insertInto key a l
      else b :: l

theorem mem_of_mem_insertInto {l : List α} {x : α} (h : x ∈ insertInto key a l) :
    x = a ∨ x ∈ l := by
  induction l with
  | nil => exact Or.inl (by simpa [insertInto] using h)
  | cons b l ih =>
      simp only [insertInto] at h
      split at h
      · simpa using h
      · split at h
        · rcases List.mem_cons.mp h with rfl | h
          · exact Or.inr (List.mem_cons_self ..)
          · exact (ih h).imp_right (List.mem_cons_of_mem _)
        · exact Or.inr h

theorem insertInto_sorted {l : List α} (hl : l.Pairwise fun a b => key a < key b) :
    (insertInto key a l).Pairwise fun a b => key a < key b := by
  induction l with
  | nil => simp [insertInto]
  | cons b l ih =>
      obtain ⟨hb, hl'⟩ := List.pairwise_cons.mp hl
      simp only [insertInto]
      split
      · rename_i hab
        refine List.pairwise_cons.mpr ⟨?_, hl⟩
        intro x hx
        rcases List.mem_cons.mp hx with rfl | hx
        · exact hab
        · exact hab.trans (hb x hx)
      · split
        · rename_i hba
          refine List.pairwise_cons.mpr ⟨?_, ih hl'⟩
          intro x hx
          rcases mem_of_mem_insertInto hx with rfl | hx
          · exact hba
          · exact hb x hx
        · exact hl

/-- Insert an entry unless its key is taken. -/
def insert (a : α) (c : SortedList key) : SortedList key :=
  ⟨insertInto key a c.entries, insertInto_sorted c.sorted⟩

/-- Inserting at a free key puts the entry somewhere into the list. -/
theorem insertInto_split {l : List α} (h : ∀ x ∈ l, key x ≠ key a) :
    ∃ pre post, l = pre ++ post ∧ insertInto key a l = pre ++ a :: post := by
  induction l with
  | nil => exact ⟨[], [], rfl, rfl⟩
  | cons b l ih =>
      simp only [insertInto]
      split
      · exact ⟨[], b :: l, rfl, rfl⟩
      · rename_i hab
        have hne : key b ≠ key a := h b (List.mem_cons_self ..)
        have hba : key b < key a := lt_of_le_of_ne (not_lt.mp hab) hne
        rw [if_pos hba]
        obtain ⟨pre, post, rfl, hins⟩ := ih fun x hx => h x (List.mem_cons_of_mem _ hx)
        exact ⟨b :: pre, post, rfl, by rw [hins, List.cons_append]⟩

theorem insert_split (h : c.find? (key a) = none) :
    ∃ pre post, c.entries = pre ++ post ∧ (c.insert a).entries = pre ++ a :: post :=
  insertInto_split (find?_eq_none.mp h)

/-- Inserting at a free key adds exactly the new entry. -/
theorem insert_perm (h : c.find? (key a) = none) : (c.insert a).entries.Perm (a :: c.entries) := by
  obtain ⟨pre, post, hc, hins⟩ := insert_split h
  rw [hc, hins]
  exact List.perm_middle

/-- Inserting at a taken key changes nothing. -/
theorem insert_of_key (hb : b ∈ c.entries) (hk : key b = key a) : c.insert a = c := by
  have key_fact : ∀ l : List α, l.Pairwise (fun a b => key a < key b) → b ∈ l →
      insertInto key a l = l := by
    intro l
    induction l with
    | nil => intro _ h; simp at h
    | cons x l ih =>
        intro hl h
        obtain ⟨hx, hl'⟩ := List.pairwise_cons.mp hl
        rcases List.mem_cons.mp h with rfl | h
        · simp [insertInto, hk]
        · have hxa := hx b h
          rw [hk] at hxa
          simp [insertInto, hxa.not_gt, hxa, ih hl' h]
  obtain ⟨l, hl⟩ := c
  simp [insert, key_fact l hl hb]

/-- So does inserting an entry that is there. -/
theorem insert_of_mem (ha : a ∈ c.entries) : c.insert a = c := insert_of_key ha rfl

theorem mem_insert {x : α} :
    x ∈ (c.insert a).entries ↔ x ∈ c.entries ∨ x = a ∧ c.find? (key a) = none := by
  cases hf : c.find? (key a) with
  | none => simp [(insert_perm hf).mem_iff, or_comm]
  | some b =>
      obtain ⟨hb, hkey⟩ := find?_some hf
      simp [insert_of_key hb hkey]

/-- A collection is determined by its entries, since these are sorted. -/
theorem eq_of_mem_iff {d : SortedList key} (h : ∀ x, x ∈ c.entries ↔ x ∈ d.entries) : c = d := by
  refine SortedList.ext ?_
  have hperm := (List.perm_ext_iff_of_nodup c.nodup d.nodup).mpr h
  exact hperm.eq_of_pairwise (fun x y _ _ hxy hyx => absurd hxy hyx.not_gt) c.sorted d.sorted

theorem find?_insert_eq_none (hab : key a ≠ key b) :
    (c.insert a).find? (key b) = none ↔ c.find? (key b) = none := by
  simp only [find?_eq_none, mem_insert]
  constructor
  · intro h x hx
    exact h x (Or.inl hx)
  · rintro h x (hx | ⟨rfl, -⟩)
    · exact h x hx
    · exact hab

/-- Entries with different keys can be inserted in either order. -/
theorem insert_comm (hab : key a ≠ key b) : (c.insert a).insert b = (c.insert b).insert a := by
  refine eq_of_mem_iff fun x => ?_
  simp only [mem_insert, find?_insert_eq_none hab, find?_insert_eq_none hab.symm]
  rw [or_assoc, or_assoc, or_comm (a := x = a ∧ _)]

/-! ## Removal -/

/-- Drop the entry with key `k`. -/
def erase (c : SortedList key) (k : κ) : SortedList key :=
  ⟨c.entries.filter fun a => key a ≠ k, c.sorted.filter _⟩

theorem mem_erase : a ∈ (c.erase k).entries ↔ a ∈ c.entries ∧ key a ≠ k := by
  simp [erase]

/-- Erasing a key that is not there changes nothing. -/
theorem erase_of_find?_none (h : c.find? k = none) : c.erase k = c := by
  obtain ⟨l, hl⟩ := c
  have hf := find?_eq_none.mp h
  simp only [erase, mk.injEq]
  exact List.filter_eq_self.mpr fun a ha => by simpa using hf a ha

/-- Erasing an entry's key removes exactly that entry. -/
theorem erase_perm (ha : a ∈ c.entries) : c.entries.Perm (a :: (c.erase (key a)).entries) := by
  refine (List.perm_ext_iff_of_nodup c.nodup ?_).mpr ?_
  · refine List.nodup_cons.mpr ⟨fun h => (mem_erase.mp h).2 rfl, (c.erase _).nodup⟩
  · intro x
    simp only [List.mem_cons, mem_erase]
    constructor
    · intro hx
      by_cases hk : key x = key a
      · exact Or.inl (eq_of_key_eq hx ha hk)
      · exact Or.inr ⟨hx, hk⟩
    · rintro (rfl | ⟨hx, -⟩)
      · exact ha
      · exact hx

end SortedList

/-! ## Ordered maps -/

/-- An ordered map: entries are key-value pairs. -/
abbrev SortedMap (κ β : Type*) [LinearOrder κ] := SortedList (Prod.fst : κ × β → κ)

namespace SortedMap

variable {m : SortedMap κ β} {k k' : κ} {v v' : β}

/-- The value stored at `k`. -/
def lookup (m : SortedMap κ β) (k : κ) : Option β := (m.find? k).map Prod.snd

theorem lookup_eq_none : m.lookup k = none ↔ m.find? k = none := by
  simp [lookup]

theorem lookup_eq_some : m.lookup k = some v ↔ (k, v) ∈ m.entries := by
  constructor
  · intro h
    obtain ⟨⟨k', v'⟩, hf, rfl⟩ := Option.map_eq_some_iff.mp h
    obtain ⟨hmem, rfl⟩ := SortedList.find?_some hf
    exact hmem
  · intro h
    have hf : m.find? k = some (k, v) := SortedList.find?_of_mem h
    simp [lookup, hf]

/-- Overwrite the value stored at `k`. -/
def set (m : SortedMap κ β) (k : κ) (v : β) : SortedMap κ β :=
  ⟨m.entries.map fun e => if e.1 = k then (k, v) else e, by
    refine List.pairwise_map.mpr (m.sorted.imp ?_)
    intro a b h
    have hfst : ∀ e : κ × β, (if e.1 = k then (k, v) else e).1 = e.1 := by
      intro e
      split
      · rename_i he; exact he.symm
      · rfl
    simpa only [hfst] using h⟩

/-- Zipper form of an update: one entry of the list changes, the rest stays. -/
theorem set_split (h : m.lookup k = some v) (v' : β) :
    ∃ pre post, m.entries = pre ++ (k, v) :: post ∧
      (m.set k v').entries = pre ++ (k, v') :: post := by
  obtain ⟨pre, post, hsplit⟩ := List.append_of_mem (lookup_eq_some.mp h)
  refine ⟨pre, post, hsplit, ?_⟩
  have hsorted := m.sorted
  rw [hsplit, List.pairwise_append] at hsorted
  obtain ⟨-, hpost, hpre⟩ := hsorted
  have hmap : ∀ l : List (κ × β), (∀ x ∈ l, x.1 ≠ k) →
      l.map (fun e => if e.1 = k then (k, v') else e) = l := by
    intro l hl
    conv_rhs => rw [← List.map_id l]
    exact List.map_congr_left fun x hx => if_neg (hl x hx)
  have h1 : ∀ x ∈ pre, x.1 ≠ k := fun x hx => (hpre x hx (k, v) (List.mem_cons_self ..)).ne
  have h2 : ∀ x ∈ post, x.1 ≠ k := fun x hx => ((List.pairwise_cons.mp hpost).1 x hx).ne'
  simp [set, hsplit, hmap pre h1, hmap post h2]

theorem lookup_set_self (h : m.lookup k = some v) : (m.set k v').lookup k = some v' := by
  obtain ⟨pre, post, -, hset⟩ := set_split h v'
  exact lookup_eq_some.mpr (by simp [hset])

theorem lookup_set_ne (hk : k' ≠ k) : (m.set k v).lookup k' = m.lookup k' := by
  apply Option.ext
  intro w
  simp only [lookup_eq_some, set, List.mem_map]
  constructor
  · rintro ⟨⟨k₀, v₀⟩, hmem, heq⟩
    split at heq
    · exact absurd (congrArg Prod.fst heq).symm hk
    · rwa [heq] at hmem
  · intro hmem
    exact ⟨(k', w), hmem, if_neg hk⟩

/-- Overwriting a value by itself changes nothing. -/
theorem set_self (h : m.lookup k = some v) : m.set k v = m := by
  obtain ⟨pre, post, hm, hset⟩ := set_split h v
  exact SortedList.ext (hset.trans hm.symm)

theorem set_set : (m.set k v).set k v' = m.set k v' := by
  refine SortedList.ext ?_
  simp only [set, List.map_map]
  refine List.map_congr_left fun e _ => ?_
  by_cases he : e.1 = k
  · simp [he]
  · simp [he]

/-- Different keys can be overwritten in either order. -/
theorem set_comm (hk : k ≠ k') : (m.set k v).set k' v' = (m.set k' v').set k v := by
  refine SortedList.ext ?_
  simp only [set, List.map_map]
  refine List.map_congr_left fun e _ => ?_
  by_cases he : e.1 = k
  · simp [he, hk]
  · by_cases he' : e.1 = k'
    · simp [he', hk.symm]
    · simp [he, he']

theorem erase_set : (m.set k v).erase k = m.erase k := by
  refine SortedList.ext ?_
  simp only [SortedList.erase, set]
  induction m.entries with
  | nil => rfl
  | cons e es ih =>
      by_cases he : e.1 = k
      · simpa [he] using ih
      · simpa [he] using ih

theorem lookup_insert_self (h : m.lookup k = none) : lookup (m.insert (k, v)) k = some v := by
  have hfree : m.find? (Prod.fst (k, v)) = none := lookup_eq_none.mp h
  exact lookup_eq_some.mpr ((SortedList.insert_perm hfree).mem_iff.mpr (List.mem_cons_self ..))

theorem lookup_insert_ne (h : m.lookup k = none) (hk : k' ≠ k) :
    lookup (m.insert (k, v)) k' = m.lookup k' := by
  have hfree : m.find? (Prod.fst (k, v)) = none := lookup_eq_none.mp h
  apply Option.ext
  intro w
  rw [lookup_eq_some, lookup_eq_some, (SortedList.insert_perm hfree).mem_iff, List.mem_cons]
  constructor
  · rintro (heq | hmem)
    · exact absurd (congrArg Prod.fst heq) hk
    · exact hmem
  · exact Or.inr

/-- What is found after an insertion is the new value or was there before. -/
theorem lookup_insert_cases {w : β} (h : m.lookup k = none)
    (hw : lookup (m.insert (k, v)) k' = some w) : (k' = k ∧ w = v) ∨ m.lookup k' = some w := by
  by_cases hk : k' = k
  · subst hk
    exact Or.inl ⟨rfl, Option.some.inj (hw.symm.trans (lookup_insert_self h))⟩
  · exact Or.inr ((lookup_insert_ne h hk).symm.trans hw)

theorem lookup_erase_self : lookup (m.erase k) k = none := by
  refine lookup_eq_none.mpr (SortedList.find?_eq_none.mpr ?_)
  intro a ha
  exact (SortedList.mem_erase.mp ha).2

theorem lookup_erase_ne (hk : k' ≠ k) : lookup (m.erase k) k' = m.lookup k' := by
  apply Option.ext
  intro w
  rw [lookup_eq_some, lookup_eq_some, SortedList.mem_erase]
  exact and_iff_left hk

end SortedMap

/-! ## Machine integers as keys -/

instance linearOrderUInt8 : LinearOrder UInt8 where
  le_refl := UInt8.le_refl
  le_trans _ _ _ := UInt8.le_trans
  le_antisymm _ _ := UInt8.le_antisymm
  le_total := UInt8.le_total
  lt_iff_le_not_ge a b := by
    simp only [UInt8.lt_iff_toNat_lt, UInt8.le_iff_toNat_le]
    omega
  toDecidableLE := inferInstance
  toDecidableEq := inferInstance
  toDecidableLT := inferInstance

instance linearOrderUInt32 : LinearOrder UInt32 where
  le_refl := UInt32.le_refl
  le_trans _ _ _ := UInt32.le_trans
  le_antisymm _ _ := UInt32.le_antisymm
  le_total := UInt32.le_total
  lt_iff_le_not_ge a b := by
    simp only [UInt32.lt_iff_toNat_lt, UInt32.le_iff_toNat_le]
    omega
  toDecidableLE := inferInstance
  toDecidableEq := inferInstance
  toDecidableLT := inferInstance
