/-
  The interrupt descriptor table: `CreateEntry` and the offset of an entry (kernel/idt/idt.c).

  A handler's address is scattered over three fields of its entry. One call stores to its entry
  only (`createEntry_other`) and makes it decode to the handler (`createEntry_entry`), so after
  any calls the page is the table of the handlers installed last (`create_entries_table`).
-/
import SeshOS.Base.Bytes

namespace SeshOS.Idt

open Base

/-! ## InterruptEntry -/

/-- `sizeof(InterruptEntry)`. -/
def interruptEntryBytes : Nat := 16

/-- The offsets of `offset_0`, `selector`, `type_attribute`, `offset_1` and `offset_2`. -/
def offset0 : Nat := 0
def selector : Nat := 2
def typeAttribute : Nat := 5
def offset1 : Nat := 6
def offset2 : Nat := 8

/-- `int_ta_gate`. -/
def intTaGate : Nat := 0b10001110

/-! ## idt.c -/

/-- Memory, and the stores made: their addresses and sizes. -/
structure Stored where
  mem : Mem
  stores : List (Nat × Nat)

/-- A store of `n` bytes to a field of an entry. -/
def Stored.store (s : Stored) (intPtr field v n : Nat) : Stored :=
  ⟨s.mem.storeLE (intPtr + field) v n, s.stores ++ [(intPtr + field, n)]⟩

def setInterruptOffset (s : Stored) (intPtr : Nat) (offset : BitVec 64) : Stored :=
  let s := s.store intPtr offset0 (offset &&& 0xFFFF).toNat 2
  let s := s.store intPtr offset1 ((offset &&& 0xFFFF0000) >>> 16).toNat 2
  s.store intPtr offset2 ((offset &&& 0xFFFFFFFF00000000) >>> 32).toNat 4

def getInterruptOffset (m : Mem) (intPtr : Nat) : BitVec 64 :=
  BitVec.ofNat 64 (m.loadLE (intPtr + offset0) 2) |||
    BitVec.ofNat 64 (m.loadLE (intPtr + offset1) 2) <<< 16 |||
    BitVec.ofNat 64 (m.loadLE (intPtr + offset2) 4) <<< 32

/-- `idt.offset + interruptNum * sizeof(InterruptEntry)`, in 64 bits. -/
def entryAddress (idtOffset : Nat) (interruptNum : Int) : Nat :=
  ((idtOffset + interruptNum * interruptEntryBytes) % 2 ^ 64).toNat

def createEntry (idtOffset : Nat) (s : Stored) (interruptNum : Int) (handler : BitVec 64) :
    Stored :=
  let entry := entryAddress idtOffset interruptNum
  let s := setInterruptOffset s entry handler
  let s := s.store entry typeAttribute intTaGate 1
  s.store entry selector 0x08 2

/-! ## One entry -/

/-- `idt_page`, in the address space. -/
structure IdtPage where
  base : Nat
  end_le : base + 4096 ≤ 2 ^ 64

/-- The address of entry `v`. -/
def IdtPage.entry (p : IdtPage) (v : Nat) : Nat := p.base + v * interruptEntryBytes

theorem entryAddress_eq (p : IdtPage) {v : Nat} (hv : v < 256) :
    entryAddress p.base v = p.entry v := by
  have hend := p.end_le
  unfold entryAddress IdtPage.entry interruptEntryBytes
  omega

/-- Every byte of an entry lies in the page. -/
theorem IdtPage.entry_inside (p : IdtPage) (v : Fin 256) :
    p.base ≤ p.entry v ∧ p.entry v + interruptEntryBytes ≤ p.base + 4096 := by
  have hv := v.isLt
  unfold IdtPage.entry interruptEntryBytes
  omega

theorem IdtPage.entry_apart (p : IdtPage) {v w : Fin 256} (h : w ≠ v) :
    p.entry w + interruptEntryBytes ≤ p.entry v ∨
      p.entry v + interruptEntryBytes ≤ p.entry w := by
  have hne : w.val ≠ v.val := fun heq => h (Fin.ext heq)
  unfold IdtPage.entry interruptEntryBytes
  omega

/-- What the masks and shifts select. -/
theorem offset_fields (h : BitVec 64) :
    (h &&& 0xFFFF).toNat = h.toNat % 2 ^ 16 ∧
      ((h &&& 0xFFFF0000) >>> 16).toNat = h.toNat / 2 ^ 16 % 2 ^ 16 ∧
      ((h &&& 0xFFFFFFFF00000000) >>> 32).toNat = h.toNat / 2 ^ 32 := by
  have hlow : (0xFFFF : BitVec 64).toNat = 2 ^ 16 - 1 := rfl
  have hones : (0xFFFFFFFF : BitVec 64).toNat = 2 ^ 32 - 1 := rfl
  have hmid : (h &&& 0xFFFF0000) >>> 16 = h >>> 16 &&& 0xFFFF := by
    rw [BitVec.ushiftRight_and_distrib]
    rfl
  have hhigh : (h &&& 0xFFFFFFFF00000000) >>> 32 = h >>> 32 &&& 0xFFFFFFFF := by
    rw [BitVec.ushiftRight_and_distrib]
    rfl
  have hlt := h.isLt
  refine ⟨?_, ?_, ?_⟩
  · rw [BitVec.toNat_and, hlow, Nat.and_two_pow_sub_one_eq_mod]
  · rw [hmid, BitVec.toNat_and, hlow, Nat.and_two_pow_sub_one_eq_mod, BitVec.toNat_ushiftRight,
      Nat.shiftRight_eq_div_pow]
  · rw [hhigh, BitVec.toNat_and, hones, Nat.and_two_pow_sub_one_eq_mod,
      BitVec.toNat_ushiftRight, Nat.shiftRight_eq_div_pow, Nat.mod_eq_of_lt (by omega)]

/-- The fields at their places are the address again, bit by bit. -/
theorem offset_gathered (h : BitVec 64) :
    BitVec.ofNat 64 (h.toNat % 2 ^ 16) ||| BitVec.ofNat 64 (h.toNat / 2 ^ 16 % 2 ^ 16) <<< 16 |||
      BitVec.ofNat 64 (h.toNat / 2 ^ 32) <<< 32 = h := by
  apply BitVec.eq_of_getLsbD_eq
  intro i hi
  simp only [BitVec.getLsbD_or, BitVec.getLsbD_shiftLeft, BitVec.getLsbD_ofNat, hi,
    Nat.testBit_mod_two_pow, Nat.testBit_div_two_pow, decide_true, Bool.true_and,
    BitVec.testBit_toNat]
  by_cases h16 : i < 16
  · have h32 : i < 32 := by omega
    simp [h16, h32]
  · by_cases h32 : i < 32
    · have hm : i - 16 < 64 ∧ i - 16 < 16 := by omega
      simp [h16, h32, hm, Nat.sub_add_cancel (Nat.le_of_not_lt h16)]
    · have hm : ¬ i - 16 < 16 ∧ i - 32 < 64 := by omega
      simp [h16, h32, hm, Nat.sub_add_cancel (Nat.le_of_not_lt h32)]

/-- The stores of one call, in their order. -/
theorem createEntry_stores (p : IdtPage) (s : Stored) (v : Fin 256) (h : BitVec 64) :
    (createEntry p.base s v h).stores = s.stores ++
      [(p.entry v + offset0, 2), (p.entry v + offset1, 2), (p.entry v + offset2, 4),
        (p.entry v + typeAttribute, 1), (p.entry v + selector, 2)] := by
  simp [createEntry, setInterruptOffset, Stored.store, entryAddress_eq p v.isLt]

theorem createEntry_mem (p : IdtPage) (s : Stored) (v : Fin 256) (h : BitVec 64) :
    (createEntry p.base s v h).mem =
      ((((s.mem.storeLE (p.entry v + offset0) (h.toNat % 2 ^ 16) 2).storeLE
        (p.entry v + offset1) (h.toNat / 2 ^ 16 % 2 ^ 16) 2).storeLE
        (p.entry v + offset2) (h.toNat / 2 ^ 32) 4).storeLE
        (p.entry v + typeAttribute) intTaGate 1).storeLE (p.entry v + selector) 0x08 2 := by
  obtain ⟨h0, h1, h2⟩ := offset_fields h
  simp only [createEntry, setInterruptOffset, Stored.store, entryAddress_eq p v.isLt, h0, h1, h2]

/-- A call changes nothing outside its entry. -/
theorem createEntry_frame (p : IdtPage) (s : Stored) (v : Fin 256) (h : BitVec 64) {x : Nat}
    (hx : x < p.entry v ∨ p.entry v + interruptEntryBytes ≤ x) :
    (createEntry p.base s v h).mem x = s.mem x := by
  have hend := p.end_le
  have hin := p.entry_inside v
  unfold interruptEntryBytes at hx hin
  rw [createEntry_mem]
  unfold offset0 offset1 offset2 typeAttribute selector
  rw [Mem.storeLE_frame _ _ (by omega) (by omega), Mem.storeLE_frame _ _ (by omega) (by omega),
    Mem.storeLE_frame _ _ (by omega) (by omega), Mem.storeLE_frame _ _ (by omega) (by omega),
    Mem.storeLE_frame _ _ (by omega) (by omega)]

/-! ## What an entry holds -/

/-- The entry at `a` is the gate of handler `h`, or all of its fields are clear. -/
structure EntryIs (m : Mem) (a : Nat) (handler : Option (BitVec 64)) : Prop where
  offset : getInterruptOffset m a = handler.getD 0
  selector : m.loadLE (a + selector) 2 = if handler.isSome then 0x08 else 0
  typeAttribute : m.loadLE (a + typeAttribute) 1 = if handler.isSome then intTaGate else 0

/-- An entry is its 16 bytes. -/
theorem EntryIs.congr {m m' : Mem} {a : Nat} {handler : Option (BitVec 64)}
    (ha : a + interruptEntryBytes ≤ 2 ^ 64)
    (hb : ∀ i < interruptEntryBytes, m' (a + i) = m (a + i)) (h : EntryIs m a handler) :
    EntryIs m' a handler := by
  have hload : ∀ o k, o + k ≤ interruptEntryBytes →
      m'.loadLE (a + o) k = m.loadLE (a + o) k := by
    intro o k hok
    refine Mem.loadLE_congr (by omega) fun i hi => ?_
    rw [Nat.add_assoc]
    exact hb (o + i) (by omega)
  constructor
  · rw [getInterruptOffset, hload _ _ (by decide), hload _ _ (by decide), hload _ _ (by decide)]
    exact h.offset
  · rw [hload _ _ (by decide)]
    exact h.selector
  · rw [hload _ _ (by decide)]
    exact h.typeAttribute

theorem entryIs_none {m : Mem} {a : Nat} (ha : a + interruptEntryBytes ≤ 2 ^ 64)
    (hm : ∀ i < interruptEntryBytes, m (a + i) = 0) : EntryIs m a none := by
  have hload : ∀ o k, o + k ≤ interruptEntryBytes → m.loadLE (a + o) k = 0 := by
    intro o k hok
    refine Mem.loadLE_zeros fun i hi => ?_
    rw [Nat.mod_eq_of_lt (by omega), Nat.add_assoc]
    exact hm (o + i) (by omega)
  constructor
  · rw [getInterruptOffset, hload _ _ (by decide), hload _ _ (by decide), hload _ _ (by decide)]
    rfl
  · exact hload _ _ (by decide)
  · exact hload _ _ (by decide)

/-- A field keeps its value through the stores to the others. -/
theorem createEntry_offsets (p : IdtPage) (s : Stored) (v : Fin 256) (h : BitVec 64) :
    (createEntry p.base s v h).mem.loadLE (p.entry v + offset0) 2 = h.toNat % 2 ^ 16 ∧
      (createEntry p.base s v h).mem.loadLE (p.entry v + offset1) 2 =
        h.toNat / 2 ^ 16 % 2 ^ 16 ∧
      (createEntry p.base s v h).mem.loadLE (p.entry v + offset2) 4 = h.toNat / 2 ^ 32 := by
  have hlt := h.isLt
  rw [createEntry_mem]
  refine ⟨?_, ?_, ?_⟩
  · rw [Mem.loadLE_storeLE_field _ (by decide) (by decide) (by decide),
      Mem.loadLE_storeLE_field _ (by decide) (by decide) (by decide),
      Mem.loadLE_storeLE_field _ (by decide) (by decide) (by decide),
      Mem.loadLE_storeLE_field _ (by decide) (by decide) (by decide),
      Mem.loadLE_storeLE_self _ (by decide), Nat.mod_eq_of_lt (by omega)]
  · rw [Mem.loadLE_storeLE_field _ (by decide) (by decide) (by decide),
      Mem.loadLE_storeLE_field _ (by decide) (by decide) (by decide),
      Mem.loadLE_storeLE_field _ (by decide) (by decide) (by decide),
      Mem.loadLE_storeLE_self _ (by decide), Nat.mod_eq_of_lt (by omega)]
  · rw [Mem.loadLE_storeLE_field _ (by decide) (by decide) (by decide),
      Mem.loadLE_storeLE_field _ (by decide) (by decide) (by decide),
      Mem.loadLE_storeLE_self _ (by decide), Nat.mod_eq_of_lt (by omega)]

/-- The entry of the call decodes to its handler. -/
theorem createEntry_entry (p : IdtPage) (s : Stored) (v : Fin 256) (h : BitVec 64) :
    EntryIs (createEntry p.base s v h).mem (p.entry v) (some h) := by
  constructor
  · obtain ⟨h0, h1, h2⟩ := createEntry_offsets p s v h
    rw [getInterruptOffset, h0, h1, h2]
    exact offset_gathered h
  · rw [createEntry_mem]
    exact Mem.loadLE_storeLE_self _ (by decide)
  · rw [createEntry_mem, Mem.loadLE_storeLE_field _ (by decide) (by decide) (by decide)]
    exact Mem.loadLE_storeLE_self _ (by decide)

/-- Every other entry stays. -/
theorem createEntry_other (p : IdtPage) (s : Stored) {v w : Fin 256} (h : BitVec 64)
    (hw : w ≠ v) : ∀ i < interruptEntryBytes,
      (createEntry p.base s v h).mem (p.entry w + i) = s.mem (p.entry w + i) := by
  intro i hi
  have hapart := p.entry_apart hw
  exact createEntry_frame p s v h (by omega)

/-! ## The calls -/

/-- The calls that install handlers, one after the other. -/
def createEntries (idtOffset : Nat) (s : Stored) (calls : List (Fin 256 × BitVec 64)) : Stored :=
  calls.foldl (fun s c => createEntry idtOffset s c.1 c.2) s

/-- The handler that was installed last at `v`. -/
def lastHandler (calls : List (Fin 256 × BitVec 64)) (v : Fin 256) : Option (BitVec 64) :=
  (calls.filter (·.1 = v)).getLast?.map Prod.snd

theorem createEntries_concat (a : Nat) (s : Stored) (calls : List (Fin 256 × BitVec 64))
    (c : Fin 256 × BitVec 64) :
    createEntries a s (calls ++ [c]) = createEntry a (createEntries a s calls) c.1 c.2 := by
  rw [createEntries, List.foldl_append]
  rfl

theorem lastHandler_concat (calls : List (Fin 256 × BitVec 64)) (c : Fin 256 × BitVec 64)
    (v : Fin 256) :
    lastHandler (calls ++ [c]) v = if c.1 = v then some c.2 else lastHandler calls v := by
  rw [lastHandler, List.filter_append]
  by_cases hc : c.1 = v
  · rw [if_pos hc, List.filter_cons_of_pos (by simpa using hc), List.filter_nil,
      List.getLast?_concat]
    rfl
  · rw [if_neg hc, List.filter_cons_of_neg (by simpa using hc), List.filter_nil, List.append_nil]
    rfl

theorem lastHandler_isSome {calls : List (Fin 256 × BitVec 64)} {v : Fin 256} :
    (lastHandler calls v).isSome ↔ ∃ h, (v, h) ∈ calls := by
  rw [lastHandler, Option.isSome_map, List.getLast?_isSome, ne_eq, List.filter_eq_nil_iff]
  constructor
  · intro h
    push Not at h
    obtain ⟨⟨w, handler⟩, hmem, hw⟩ := h
    obtain rfl : w = v := by simpa using hw
    exact ⟨handler, hmem⟩
  · rintro ⟨handler, hmem⟩ h
    exact h (v, handler) hmem (by simp)

/-- After any calls, every entry is the gate of the last handler. -/
theorem createEntries_entries (p : IdtPage) {s : Stored}
    (hs : ∀ i < 4096, s.mem (p.base + i) = 0) (calls : List (Fin 256 × BitVec 64)) (v : Fin 256) :
    EntryIs (createEntries p.base s calls).mem (p.entry v) (lastHandler calls v) := by
  have hend := p.end_le
  have hin := p.entry_inside v
  induction calls using List.reverseRecOn with
  | nil =>
    refine entryIs_none (by omega) fun i hi => ?_
    have hzero := hs (p.entry v - p.base + i) (by omega)
    rwa [← Nat.add_assoc, Nat.add_sub_cancel' hin.1] at hzero
  | append_singleton calls c ih =>
    rw [createEntries_concat, lastHandler_concat]
    by_cases hc : c.1 = v
    · subst hc
      rw [if_pos rfl]
      exact createEntry_entry p _ c.1 c.2
    · rw [if_neg hc]
      exact ih.congr (by omega) (createEntry_other p _ c.2 (Ne.symm hc))

/-- All stores of all calls lie in the page. -/
theorem createEntries_stores (p : IdtPage) (m : Mem) (calls : List (Fin 256 × BitVec 64)) :
    ∀ a ∈ (createEntries p.base ⟨m, []⟩ calls).stores,
      p.base ≤ a.1 ∧ a.1 + a.2 ≤ p.base + 4096 := by
  induction calls using List.reverseRecOn with
  | nil => exact fun a ha => absurd ha List.not_mem_nil
  | append_singleton calls c ih =>
    intro a ha
    rw [createEntries_concat, createEntry_stores, List.mem_append] at ha
    rcases ha with ha | ha
    · exact ih a ha
    · have hin := p.entry_inside c.1
      unfold interruptEntryBytes at hin
      simp only [offset0, offset1, offset2, typeAttribute, selector, List.mem_cons,
        List.not_mem_nil, or_false] at ha
      rcases ha with rfl | rfl | rfl | rfl | rfl <;> dsimp only <;> omega

/-- From the zeroed page, any calls leave at every vector the last handler installed there, with
    the selector and the type of a gate exactly where one was; all stores stay in the page, and
    a call leaves the other entries' bytes as they are. -/
theorem create_entries_table (p : IdtPage) (m : Mem) (hm : ∀ i < 4096, m (p.base + i) = 0)
    (calls : List (Fin 256 × BitVec 64)) :
    (∀ v : Fin 256, getInterruptOffset (createEntries p.base ⟨m, []⟩ calls).mem (p.entry v) =
        (lastHandler calls v).getD 0 ∧
      ((createEntries p.base ⟨m, []⟩ calls).mem.loadLE (p.entry v + selector) 2 = 0x08 ∧
        (createEntries p.base ⟨m, []⟩ calls).mem.loadLE (p.entry v + typeAttribute) 1 =
          intTaGate ↔ ∃ h, (v, h) ∈ calls) ∧
      ((¬ ∃ h, (v, h) ∈ calls) →
        (createEntries p.base ⟨m, []⟩ calls).mem.loadLE (p.entry v + selector) 2 = 0 ∧
        (createEntries p.base ⟨m, []⟩ calls).mem.loadLE (p.entry v + typeAttribute) 1 = 0)) ∧
    (∀ a ∈ (createEntries p.base ⟨m, []⟩ calls).stores,
      p.base ≤ a.1 ∧ a.1 + a.2 ≤ p.base + 4096) ∧
    ∀ (s : Stored) (v w : Fin 256) (h : BitVec 64), w ≠ v → ∀ i < interruptEntryBytes,
      (createEntry p.base s v h).mem (p.entry w + i) = s.mem (p.entry w + i) := by
  refine ⟨fun v => ?_, createEntries_stores p m calls,
    fun s v w h hw => createEntry_other p s h hw⟩
  have he := createEntries_entries p (s := ⟨m, []⟩) hm calls v
  refine ⟨he.offset, ?_, ?_⟩
  · rw [he.selector, he.typeAttribute, ← lastHandler_isSome]
    cases lastHandler calls v with
    | none => simp
    | some h => simp
  · intro hnone
    rw [he.selector, he.typeAttribute, if_neg, if_neg]
    · exact ⟨rfl, rfl⟩
    all_goals rwa [lastHandler_isSome]

/-- The page fault handler installed twice, with another one in between. -/
theorem create_entries_table_again :
    getInterruptOffset (createEntries 0x1000 ⟨fun _ => 0, []⟩
      [(0xE, 0xFFFFFFFF80001000), (0x21, 0xFFFFFFFF80002000), (0xE, 0xFFFFFFFF80003000)]).mem
      0x10E0 = 0xFFFFFFFF80003000 :=
  ((create_entries_table ⟨0x1000, by decide⟩ (fun _ => 0) (fun _ _ => rfl)
    [(0xE, 0xFFFFFFFF80001000), (0x21, 0xFFFFFFFF80002000), (0xE, 0xFFFFFFFF80003000)]).1
    0xE).1.trans (by decide)

end SeshOS.Idt
