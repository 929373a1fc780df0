/-
  Tclm.Manager.Termination

  For which messages the manager returns.

  A loop over records ends where every turn moves on.  The turns for connections and for
  locks do, whatever the message says, and the loop over the locks of a process counts
  down.  The turn for processes reads two numbers of four bytes and stays where it is
  when one to three bytes are left: then the loop never ends.

  The name of a lock is taken from memory as long as the message says it is.  What is
  found there behind the message is a parameter.
-/

import Tclm.Manager.Responses

open Tclm.Comm
open Tclm.Comm.Stream

namespace Tclm.Manager

-- ============================================================================
-- Names that end behind the message
-- ============================================================================

/-- The bytes at `stream_pointer` where not all of them belong to the message; there are none
    where they cannot be read. -/
abbrev Memory : Type := Nat → Stream → Option (List UInt8)

/-- `string name((char*) stream_pointer(s), n)` -/
def readString (memory : Memory) (n : Nat) : StreamM (List UInt8) := fun s =>
  if n = 0 ∨ s.pos + n ≤ s.length ∧ s.pos + n ≤ s.capacity then pointerBytes n s
  else
    match memory n s with
    | some bs => .ok (bs, s)
    | none => .error .readOutside

/-- Where nothing behind a message can be read, names have to stand in it. -/
theorem readString_none : readString (fun _ _ => none) = pointerBytes := by
  funext n s
  rw [readString, pointerBytes]
  split
  · rfl
  · rename_i hout
    rw [if_neg (fun h => hout (Or.inl h)), if_neg (fun h => hout (Or.inr h))]

theorem receiveMessageBy_none :
    receiveMessageBy (readString fun _ _ => none) = receiveMessage := by
  rw [readString_none]
  rfl

/-- `receive_message` comes to its end, or to bytes that cannot be read. -/
def Returns (memory : Memory) (host : ByteOrder) (action : Action) (s : Stream) : Prop :=
  ∃ fuel, (∃ r s', receiveMessageBy (readString memory) host fuel action s = .ok (r, s')) ∨
    receiveMessageBy (readString memory) host fuel action s = .error .readOutside ∧
      ∃ n t, memory n t = none

-- ============================================================================
-- Computations that end
-- ============================================================================

section

variable {memory : Memory} {s : Stream} {α β : Type}

/-- From position `p` the computation gets to a result and a position as in `post`, or to bytes
    that cannot be read. -/
def Ends (memory : Memory) (s : Stream) (act : StreamM α) (p : Nat) (post : α → Nat → Prop) :
    Prop :=
  (∃ a q, act { s with pos := p } = .ok (a, { s with pos := q }) ∧ post a q) ∨
    act { s with pos := p } = .error .readOutside ∧ ∃ n t, memory n t = none

theorem Ends.bind {act : StreamM α} {f : α → StreamM β} {p : Nat} {post : α → Nat → Prop}
    {post' : β → Nat → Prop} (h : Ends memory s act p post)
    (hf : ∀ a q, post a q → Ends memory s (f a) q post') :
    Ends memory s (act >>= f) p post' := by
  rcases h with ⟨a, q, hact, hpost⟩ | ⟨hact, hnone⟩
  · rw [Ends, run_bind hact]
    exact hf a q hpost
  · have hrun : (act >>= f) { s with pos := p } = .error .readOutside := by
      show (act { s with pos := p } >>= fun r => f r.1 r.2) = _
      rw [hact]
      rfl
    exact Or.inr ⟨hrun, hnone⟩

theorem ends_pure {a : α} {p : Nat} {post : α → Nat → Prop} (h : post a p) :
    Ends memory s (pure a) p post :=
  Or.inl ⟨a, p, rfl, h⟩

theorem Ends.map {act : StreamM α} {p : Nat} {post : α → Nat → Prop} {post' : β → Nat → Prop}
    {f : α → β} (h : Ends memory s act p post) (hf : ∀ a q, post a q → post' (f a) q) :
    Ends memory s (f <$> act) p post' := by
  rw [map_eq_pure_bind]
  exact h.bind fun a q hpost => ends_pure (hf a q hpost)

theorem ends_tell (p : Nat) : Ends memory s tell p fun a q => a = p ∧ q = p :=
  Or.inl ⟨p, p, rfl, rfl, rfl⟩

theorem ends_seek (p q : Nat) : Ends memory s (seek q) p fun _ r => r = q :=
  Or.inl ⟨(), q, rfl, rfl⟩

theorem ends_pointerBytes {n p : Nat} (h : n = 0 ∨ p + n ≤ s.length ∧ p + n ≤ s.capacity) :
    Ends memory s (pointerBytes n) p fun _ q => q = p := by
  rw [Ends, pointerBytes]
  split
  · exact Or.inl ⟨_, p, rfl, rfl⟩
  · rename_i hne
    exact Or.inl ⟨_, p, if_pos (h.resolve_left hne), rfl⟩

theorem ends_readString (n p : Nat) : Ends memory s (readString memory n) p fun _ q => q = p := by
  rw [Ends, readString]
  split
  · rename_i hin
    exact ends_pointerBytes hin
  · cases hbytes : memory n { s with pos := p } with
    | none => exact Or.inr ⟨rfl, n, _, hbytes⟩
    | some bs => exact Or.inl ⟨bs, p, rfl, rfl⟩

theorem Ends.mono {act : StreamM α} {p : Nat} {post post' : α → Nat → Prop}
    (h : Ends memory s act p post) (himp : ∀ a q, post a q → post' a q) :
    Ends memory s act p post' := by
  rcases h with ⟨a, q, hact, hpost⟩ | hout
  · exact Or.inl ⟨a, q, hact, himp a q hpost⟩
  · exact Or.inr hout

/-- The position `q` after a reader of `k` bytes at `p`. -/
def Moved (s : Stream) (k p q : Nat) : Prop :=
  q = p + k ∧ q ≤ s.length ∨ q = p ∧ s.length < p + k

theorem Moved.le {k p q : Nat} (h : Moved s k p q) : p ≤ q := by
  rw [Moved] at h
  omega

theorem Moved.eq_add {k p q : Nat} (h : Moved s k p q) (hroom : p + k ≤ s.length) : q = p + k := by
  rw [Moved] at h
  omega

section

variable (hcap : s.length ≤ s.capacity)

include hcap

theorem ends_readUInt8 (p : Nat) : Ends memory s readUInt8 p fun _ q => Moved s 1 p q :=
  Or.inl (readUInt8_moves (s := { s with pos := p }) hcap)

theorem ends_readUInt (host : ByteOrder) (k p : Nat) :
    Ends memory s (readUInt host k) p fun _ q => Moved s k p q :=
  Or.inl (readUInt_moves host k (s := { s with pos := p }) hcap)

theorem ends_readUInt16 (host : ByteOrder) (p : Nat) :
    Ends memory s (readUInt16 host) p fun _ q => Moved s 2 p q :=
  (ends_readUInt hcap host 2 p).map fun _ _ h => h

theorem ends_readUInt32 (host : ByteOrder) (p : Nat) :
    Ends memory s (readUInt32 host) p fun _ q => Moved s 4 p q :=
  (ends_readUInt hcap host 4 p).map fun _ _ h => h

end

-- ============================================================================
-- Loops that move on
-- ============================================================================

/-- A loop ends where every turn moves on from the positions at which it starts. -/
theorem ends_readRecords {length : UInt32} {turn : StreamM α} (Inv : Nat → Prop)
    (hturn : ∀ p, Inv p → p < length.toNat → Ends memory s turn p fun _ q => Inv q ∧ p < q)
    {fuel p : Nat} (hinv : Inv p) (hfuel : length.toNat - p ≤ fuel) :
    Ends memory s (readRecords length turn fuel) p fun _ _ => True := by
  induction fuel generalizing p with
  | zero =>
      rw [readRecords]
      apply (ends_tell p).bind
      rintro _ q ⟨rfl, rfl⟩
      rw [if_neg (by omega)]
      exact ends_pure trivial
  | succ fuel ih =>
      rw [readRecords]
      apply (ends_tell p).bind
      rintro _ q ⟨rfl, rfl⟩
      by_cases hmore : q < length.toNat
      · rw [if_pos hmore]
        apply (hturn q hinv hmore).bind
        rintro a r ⟨hinv', hlt⟩
        apply (ih hinv' (by omega)).bind
        intro as r' _
        exact ends_pure trivial
      · rw [if_neg hmore]
        exact ends_pure trivial

theorem ofNat_length_le (s : Stream) : (UInt32.ofNat s.length).toNat ≤ s.length := by
  rw [UInt32.toNat_ofNat']
  exact Nat.mod_le _ _

/-- A loop ends where every turn in the message moves on. -/
theorem ends_readRecords_of_lt {turn : StreamM α}
    (hturn : ∀ q, q < s.length → Ends memory s turn q fun _ r => q < r) {fuel : Nat}
    (hfuel : s.length ≤ fuel) (p : Nat) :
    Ends memory s (readRecords (UInt32.ofNat s.length) turn fuel) p fun _ _ => True := by
  have hlength := ofNat_length_le s
  apply ends_readRecords (fun _ => True) ?_ trivial (by omega)
  intro q _ hmore
  exact (hturn q (by omega)).mono fun _ _ hlt => ⟨trivial, hlt⟩

/-- A loop never ends where every turn leaves something to read. -/
theorem readRecords_diverges {length : UInt32} {turn : StreamM α} (Inv : Nat → Prop)
    (hmore : ∀ p, Inv p → p < length.toNat)
    (hturn : ∀ p, Inv p → ∃ a q, turn { s with pos := p } = .ok (a, { s with pos := q }) ∧ Inv q)
    (fuel : Nat) {p : Nat} (hinv : Inv p) :
    readRecords length turn fuel { s with pos := p } = .error .diverges := by
  induction fuel generalizing p with
  | zero =>
      rw [readRecords, run_bind (run_tell _), if_pos (hmore p hinv)]
      rfl
  | succ fuel ih =>
      obtain ⟨a, q, hrun, hinv'⟩ := hturn p hinv
      rw [readRecords, run_bind (run_tell _), if_pos (hmore p hinv), run_bind hrun]
      show (readRecords length turn fuel { s with pos := q } >>= _) = _
      rw [ih hinv']
      rfl

-- ============================================================================
-- The turns
-- ============================================================================

section

variable (hcap : s.length ≤ s.capacity) (host : ByteOrder)

include hcap

/-- The type of the address is read, at least. -/
theorem ends_readConnection (length : UInt32) {p : Nat} (hmore : p < s.length) :
    Ends memory s (readConnection host length) p fun _ q => p < q := by
  rw [readConnection]
  apply (ends_readUInt8 hcap p).bind
  intro addrType p₁ h₁
  have hlt : p < p₁ := by
    rw [h₁.eq_add hmore]
    exact Nat.lt_succ_self p
  apply (ends_tell p₁).bind
  rintro _ q ⟨rfl, rfl⟩
  split
  · apply (ends_readUInt8 hcap q).bind
    intro a p₂ h₂
    apply (ends_readUInt8 hcap p₂).bind
    intro b p₃ h₃
    apply (ends_readUInt8 hcap p₃).bind
    intro c p₄ h₄
    apply (ends_readUInt8 hcap p₄).bind
    intro d p₅ h₅
    apply (ends_readUInt16 hcap host p₅).bind
    intro port p₆ h₆
    apply ends_pure
    calc p < q := hlt
      _ ≤ p₂ := h₂.le
      _ ≤ p₃ := h₃.le
      _ ≤ p₄ := h₄.le
      _ ≤ p₅ := h₅.le
      _ ≤ p₆ := h₆.le
  · exact ends_pure hlt

/-- Either the status bits are read, or the name ends behind the message. -/
theorem ends_readLockBy {p : Nat} (hmore : p < s.length) :
    Ends memory s (readLockBy (readString memory) host) p fun _ q => p < q := by
  rw [readLockBy]
  apply (ends_readUInt32 hcap host p).bind
  intro level p₁ h₁
  apply (ends_readUInt16 hcap host p₁).bind
  intro strlength p₂ h₂
  apply (ends_readString strlength.toNat p₂).bind
  rintro name _ rfl
  apply (ends_tell _).bind
  rintro _ p₃ ⟨rfl, rfl⟩
  apply (ends_seek _ _).bind
  rintro _ _ rfl
  apply (ends_readUInt8 hcap _).bind
  intro statusBits p₄ h₄
  apply ends_pure
  have hle₁ := h₁.le
  have hle₂ := h₂.le
  rw [Moved] at h₄
  omega

/-- A turn reads eight bytes, or four of less than eight, or none of less than four. -/
theorem readProcess_moves (p : Nat) :
    ∃ r q, readProcess host { s with pos := p } = .ok (r, { s with pos := q }) ∧
      (4 ∣ s.length - q ↔ 4 ∣ s.length - p) ∧ (p + 4 ≤ s.length → p < q) := by
  obtain ⟨id, p₁, hid, h₁⟩ := readUInt_moves host 4 (s := { s with pos := p }) hcap
  obtain ⟨lockCount, p₂, hlockCount, h₂⟩ := readUInt_moves host 4 (s := { s with pos := p₁ }) hcap
  refine ⟨(UInt32.ofNat id, UInt32.ofNat lockCount), p₂, ?_, ?_⟩
  · rw [readProcess, readUInt32, run_bind (run_map _ hid), run_bind (run_map _ hlockCount)]
    rfl
  · have h₁' : Moved s 4 p p₁ := h₁
    have h₂' : Moved s 4 p₁ p₂ := h₂
    rw [Moved] at h₁' h₂'
    omega

/-- What is left of the length says how many turns there may be. -/
theorem ends_readHeldLocks {fuel p : Nat} {length : UInt32} (hin : p + length.toNat ≤ s.length)
    (hfuel : length.toNat ≤ fuel) :
    Ends memory s (readHeldLocks host fuel length) p fun _ _ => True := by
  induction fuel generalizing p length with
  | zero =>
      have hend : ¬ 2 < length := by
        rw [UInt32.lt_iff_toNat_lt]
        omega
      rw [readHeldLocks, if_neg hend]
      exact ends_pure trivial
  | succ fuel ih =>
      rw [readHeldLocks]
      split
      · rename_i hmore
        have hmore' : 2 < length.toNat := UInt32.lt_iff_toNat_lt.mp hmore
        apply (ends_readUInt16 hcap host p).bind
        intro strlength p₁ h₁
        have hp₁ := h₁.eq_add (by omega)
        split
        · exact ends_pure trivial
        · rename_i hfit
          have hleft := toNat_sub_ofNat (Nat.le_of_not_lt hfit)
          apply (ends_pointerBytes (Or.inr ⟨by omega, by omega⟩)).bind
          rintro path _ rfl
          apply (ends_tell _).bind
          rintro _ p₂ ⟨rfl, rfl⟩
          apply (ends_seek _ _).bind
          rintro _ _ rfl
          apply (ends_readUInt8 hcap _).bind
          intro mode p₃ h₃
          have hp₃ := h₃.eq_add (by omega)
          apply (ih (by omega) (by omega)).bind
          intro lines p₄ _
          exact ends_pure trivial
      · exact ends_pure trivial

-- ============================================================================
-- The handlers
-- ============================================================================

variable (action : Action) {fuel p : Nat} (hfuel : s.length ≤ fuel)

include hfuel

theorem ends_receiveListConnsResponse :
    Ends memory s (receiveListConnsResponse host fuel action (UInt32.ofNat s.length)) p
      fun _ _ => True := by
  rw [receiveListConnsResponse]
  split
  · refine (ends_readRecords_of_lt ?_ hfuel p).map fun _ _ _ => trivial
    intro q hmore
    exact ends_readConnection hcap host _ hmore
  · exact ends_pure trivial

theorem ends_receiveListLocksResponse :
    Ends memory s
      (receiveListLocksResponse (readString memory) host fuel action (UInt32.ofNat s.length)) p
      fun _ _ => True := by
  rw [receiveListLocksResponse]
  split
  · refine (ends_readRecords_of_lt ?_ hfuel p).map fun _ _ _ => trivial
    intro q hmore
    exact ends_readLockBy hcap host hmore
  · exact ends_pure trivial

/-- Whole numbers are left to read, or the message is so long that the loop ends before. -/
theorem ends_receiveListProcessesResponse
    (hleft : action = .listProcesses → s.length < 2 ^ 32 → 4 ∣ s.length - p) :
    Ends memory s (receiveListProcessesResponse host fuel action (UInt32.ofNat s.length)) p
      fun _ _ => True := by
  rw [receiveListProcessesResponse]
  split
  · rename_i haction
    have hlength := ofNat_length_le s
    refine (ends_readRecords (fun q => s.length < 2 ^ 32 → 4 ∣ s.length - q) ?_ (hleft haction)
      (by omega)).map fun _ _ _ => trivial
    intro q hinv hmore
    obtain ⟨r, q', hrun, hdvd, hlt⟩ := readProcess_moves hcap host q
    refine Or.inl ⟨r, q', hrun, fun hsize => hdvd.mpr (hinv hsize), hlt ?_⟩
    rw [UInt32.toNat_ofNat'] at hmore
    omega
  · exact ends_pure trivial

/-- The length of the locks is what is behind the header, or less in a message of 2^32 bytes. -/
theorem ends_receiveListLocksProcessResponse (hlen : 5 ≤ s.length) :
    Ends memory s (receiveListLocksProcessResponse host fuel action (UInt32.ofNat s.length)) 5
      fun _ _ => True := by
  rw [receiveListLocksProcessResponse]
  split
  · apply (ends_tell 5).bind
    rintro _ _ ⟨rfl, rfl⟩
    have hbehind : (UInt32.ofNat s.length - UInt32.ofNat 5).toNat ≤ s.length - 5 := by
      rw [UInt32.toNat_sub, UInt32.toNat_ofNat', UInt32.toNat_ofNat']
      omega
    generalize UInt32.ofNat s.length - UInt32.ofNat 5 = length at hbehind
    show Ends memory s (if length < 6 then _ else _) 5 _
    split
    · exact ends_pure trivial
    · rename_i hsix
      have hsix' : 6 ≤ length.toNat := Nat.le_of_not_lt fun h => hsix (UInt32.lt_iff_toNat_lt.mpr h)
      have hlocks : (length - 6).toNat = length.toNat - 6 :=
        UInt32.toNat_sub_of_le _ _ (UInt32.le_iff_toNat_le.mpr hsix')
      apply (ends_readUInt32 hcap host 5).bind
      intro pid p₁ h₁
      have hp₁ := h₁.eq_add (by omega)
      apply (ends_readUInt16 hcap host p₁).bind
      intro status p₂ h₂
      have hp₂ := h₂.eq_add (by omega)
      show Ends memory s (if status ≠ ResponseStatus.success then _ else _) p₂ _
      split
      · exact ends_pure trivial
      · exact (ends_readHeldLocks hcap host (by omega) (by omega)).map fun _ _ _ => trivial
  · exact ends_pure trivial

omit hfuel in
theorem ends_receiveUnregisterProcessResponse (length : UInt32) :
    Ends memory s (receiveUnregisterProcessResponse host action length) p fun _ _ => True := by
  rw [receiveUnregisterProcessResponse]
  split
  · apply (ends_tell p).bind
    rintro _ q ⟨rfl, rfl⟩
    split
    · apply (ends_readUInt32 hcap host q).bind
      intro pid p₁ _
      apply (ends_readUInt16 hcap host p₁).bind
      intro status p₂ _
      exact ends_pure trivial
    · exact ends_pure trivial
  · exact ends_pure trivial

omit hfuel in
/-- The loop over processes never ends where it is left with a part of a number. -/
theorem receiveListProcessesResponse_diverges (hsize : s.length < 2 ^ 32)
    (hleft : ¬ 4 ∣ s.length - p) :
    receiveListProcessesResponse host fuel .listProcesses (UInt32.ofNat s.length)
      { s with pos := p } = .error .diverges := by
  have hloop : readRecords (UInt32.ofNat s.length) (readProcess host) fuel { s with pos := p } =
      .error .diverges := by
    refine readRecords_diverges (fun q => ¬ 4 ∣ s.length - q) ?_ ?_ fuel hleft
    · intro q hinv
      rw [UInt32.toNat_ofNat', Nat.mod_eq_of_lt hsize]
      omega
    · intro q hinv
      obtain ⟨r, q', hrun, hdvd, -⟩ := readProcess_moves hcap host q
      exact ⟨r, q', hrun, fun h => hinv (hdvd.mp h)⟩
  rw [receiveListProcessesResponse, if_pos rfl, map_eq_pure_bind]
  show (readRecords _ _ _ { s with pos := p } >>= _) = _
  rw [hloop]
  rfl

end

-- ============================================================================
-- Messages
-- ============================================================================

variable (hpos : s.pos = 0) (hlen : 5 ≤ s.length) (hcap : s.length ≤ s.capacity)

include hpos hlen hcap

theorem ends_receiveMessageBy (host : ByteOrder) {action : Action}
    (hleft : action = .listProcesses → s.bytes.headD 0 = MsgId.listProcsResponse →
      s.length < 2 ^ 32 → 4 ∣ s.length - 5) :
    Ends memory s (receiveMessageBy (readString memory) host s.length action) 0
      fun _ _ => True := by
  obtain ⟨length, hid, hlength⟩ := run_header host hpos hlen hcap
  have hstart : { s with pos := 0 } = s := by rw [← hpos]
  have hfuel : s.length ≤ s.length := Nat.le_refl _
  rw [Ends, hstart, receiveMessageBy, run_bind (run_get s), run_bind hid, run_bind hlength]
  show Ends memory s (if s.bytes.headD 0 = MsgId.listConnsResponse then _ else _) 5 _
  split
  · exact ends_receiveListConnsResponse hcap host action hfuel
  split
  · rename_i hprocs
    exact ends_receiveListProcessesResponse hcap host action hfuel fun haction =>
      hleft haction hprocs
  split
  · exact ends_receiveListLocksResponse hcap host action hfuel
  split
  · exact ends_receiveListLocksProcessResponse hcap host action hfuel hlen
  split
  · exact ends_receiveUnregisterProcessResponse hcap host action _
  · exact ends_pure trivial

theorem receiveMessageBy_diverges (string : Nat → StreamM (List UInt8)) (host : ByteOrder)
    (fuel : Nat) (hprocs : s.bytes.headD 0 = MsgId.listProcsResponse) (hsize : s.length < 2 ^ 32)
    (hleft : ¬ 4 ∣ s.length - 5) :
    receiveMessageBy string host fuel .listProcesses s = .error .diverges := by
  obtain ⟨length, hid, hlength⟩ := run_header host hpos hlen hcap
  rw [receiveMessageBy, run_bind (run_get s), run_bind hid, run_bind hlength, hprocs,
    if_neg (by decide), if_pos rfl]
  exact receiveListProcessesResponse_diverges hcap host hsize hleft

theorem not_returns (memory : Memory) (host : ByteOrder)
    (hprocs : s.bytes.headD 0 = MsgId.listProcsResponse) (hsize : s.length < 2 ^ 32)
    (hleft : ¬ 4 ∣ s.length - 5) : ¬ Returns memory host .listProcesses s := by
  rintro ⟨fuel, hreturns⟩
  rw [receiveMessageBy_diverges hpos hlen hcap _ host fuel hprocs hsize hleft] at hreturns
  rcases hreturns with ⟨r, s', hrun⟩ | ⟨hrun, -⟩
  · cases hrun
  · cases hrun

end

/-- The manager returns from a message if and only if it is no list of processes, asked for
    and shorter than 2^32 bytes, that ends with a part of a number. -/
theorem returns_iff (memory : Memory) (host : ByteOrder) (action : Action) {s : Stream}
    (hpos : s.pos = 0) (hlen : 5 ≤ s.length) (hcap : s.length ≤ s.capacity) :
    Returns memory host action s ↔
      (action = .listProcesses → s.bytes.headD 0 = MsgId.listProcsResponse →
        s.length < 2 ^ 32 → 4 ∣ s.length - 5) := by
  constructor
  · rintro hreturns rfl hprocs hsize
    apply Decidable.byContradiction
    intro hleft
    exact not_returns hpos hlen hcap memory host hprocs hsize hleft hreturns
  · intro hleft
    have hstart : { s with pos := 0 } = s := by rw [← hpos]
    have hends : Ends memory s (receiveMessageBy (readString memory) host s.length action) 0
        fun _ _ => True := ends_receiveMessageBy hpos hlen hcap host hleft
    rw [Ends, hstart] at hends
    rcases hends with ⟨r, q, hrun, -⟩ | hout
    · exact ⟨s.length, Or.inl ⟨r, _, hrun⟩⟩
    · exact ⟨s.length, Or.inr hout⟩

/-- A list of one process. -/
def oneProcess : List UInt8 := [MsgId.listProcsResponse, 0, 0, 0, 8, 0, 0, 0, 1, 0, 0, 0, 2]

/-- The list of one process is read. -/
theorem returns_iff_oneProcess :
    Returns (fun _ _ => none) .little .listProcesses (ofBytes oneProcess) :=
  (returns_iff _ _ _ rfl (by decide) (by decide)).mpr fun _ _ _ => by decide

/-- A list that ends with the first byte of a process. -/
def firstByte : List UInt8 := [MsgId.listProcsResponse, 0, 0, 0, 1, 0]

/-- The manager never returns from it. -/
theorem firstByte_never_returns :
    ¬ ∀ (memory : Memory) (host : ByteOrder) (action : Action) (bs : List UInt8), 5 ≤ bs.length →
      Returns memory host action (ofBytes bs) := by
  intro h
  have hnever := not_returns (s := ofBytes firstByte) rfl (by decide) (by decide)
    (fun _ _ => none) .little rfl (by decide) (by decide)
  exact hnever (h _ .little .listProcesses firstByte (by decide))

end Tclm.Manager
