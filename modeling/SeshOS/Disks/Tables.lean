/-
  The command tables that `Configure` sets up.

  `Configure` asks `malloc` for 34 blocks of 4096 bytes: the command list, the buffer for
  received FISes, and one for each slot. With the search of `malloc` off they lie one behind the
  other (`Laid`), and the table of slot `i` begins `256 * i` bytes into the block of the slot,
  of which the first 256 bytes are cleared. So from slot 16 on the table is outside of the block,
  and the tables of the slots from 1 to 15 keep what the heap held before (`configured_tables`).
-/
import SeshOS.Disks.Structures

namespace SeshOS.Disks

open Base SeshOS.Memory

/-! ## Tables and blocks -/

/-- `malloc` as it runs on the heap. -/
def heapMalloc : Allocator := fun h n p h' => ∃ fuel, Memory.malloc fuel h n = some (h', p)

/-- The world with that `malloc`, and an adapter that keeps its base registers. -/
abbrev heapWorld : World Instr Answer Host := ahciWorld latching heapMalloc

/-- The pointer that an event got from `malloc`. -/
def mallocAnswer : Event Instr Answer → Option Nat
  | ⟨.malloc _, p⟩ => some p
  | _ => none

def blocks (es : Record) : List Nat := es.filterMap mallocAnswer

/-- The block for slot `i`, behind those of the list and the buffer. -/
def slotBlock (es : Record) (i : Nat) : Nat := (blocks es).getD (i + 2) 0

/-- A table with its 8 entries. -/
def slotTableSize : Nat := commandTableSize + 8 * prdtEntrySize

section Table

variable (w : Host) (es : Record) (i j : Nat)

/-- Every byte of the table of slot `i` is in the block for the slot. -/
def TableInside : Prop :=
  ∀ b < slotTableSize, ∃ c < 4096,
    (programmed w (.commandTable i) + b) % 2 ^ 64 = (slotBlock es i + c) % 2 ^ 64

def TableZero : Prop :=
  ∀ b < slotTableSize, w.mem ((programmed w (.commandTable i) + b) % 2 ^ 64) = 0

def TablesApart : Prop :=
  Mem.Apart (programmed w (.commandTable i)) slotTableSize
    (programmed w (.commandTable j)) slotTableSize

def TablesFit : Prop :=
  ∀ i < 32, TableInside w es i ∧ TableZero w i ∧ ∀ j < 32, j ≠ i → TablesApart w i j

end Table

/-- The table in the header of slot `i`, for a list at `list`. -/
def tableAt (m : Mem) (list i : Nat) : Nat :=
  joined (m.loadLE (list + (commandHeaderSize * i + commandTableBaseAddress)) 4)
    (m.loadLE (list + (commandHeaderSize * i + commandTableBaseAddressUpper)) 4)

theorem programmed_tableAt (w : Host) (i : Nat) :
    programmed w (.commandTable i) = tableAt w.mem (programmed w .commandList) i := rfl

/-- When the high half of the address has been stored as well. -/
theorem tableAt_store {list i address : Nat} {w : Host} (hlow : HeaderLow list i address w)
    (hi : i < 32) (ha : address < 2 ^ 64) :
    tableAt (w.mem.storeLE (list + (commandHeaderSize * i + commandTableBaseAddressUpper))
      (highHalf address).toNat 4) list i = address := by
  have hlow := hlow.store_high hi (highHalf address).toNat
  have hhigh := headerHigh_store list i address w
  unfold HeaderLow at hlow
  unfold HeaderHigh at hhigh
  rw [Host.mem, Host.withMem] at hlow hhigh
  rw [tableAt, hlow, hhigh]
  exact joined_halves ha

/-! ## The heap from its end on -/

/-- `offset` bytes behind what was the end of the heap. -/
def place (top offset : Nat) : Nat := (top + offset) % 2 ^ 64

theorem place_add (top o b : Nat) : (place top o + b) % 2 ^ 64 = place top (o + b) := by
  rw [place, Nat.mod_add_mod, Nat.add_assoc, place]

theorem place_inj {top o o' : Nat} (ho : o < 2 ^ 32) (ho' : o' < 2 ^ 32)
    (h : place top o = place top o') : o = o' := by
  unfold place at h
  omega

theorem place_lt (top o : Nat) : place top o < 2 ^ 64 := by
  unfold place
  omega

/-- Block `k` and its control block take 4112 bytes. -/
def blockOffset (k : Nat) : Nat := 4112 * k + mcbBytes

/-- `top` is the end of the heap and `m` is memory before `Configure`. After it has been given
    `k` blocks, written `n` headers and cleared `c` tables: -/
structure Laid (top : Nat) (m : Mem) (n c k : Nat) (h : Heap) (es : Record) : Prop where
  off : h.haveAllocated = false
  ends : h.top % 2 ^ 64 = place top (4112 * k)
  given : blocks es = (List.range k).map fun j => place top (blockOffset j)
  header : ∀ j < n, tableAt h.mem (place top mcbBytes) j = place top (blockOffset (j + 2) + 256 * j)
  cleared : ∀ j < c, ∀ b < 256, h.mem (place top (blockOffset (j + 2) + b)) = 0
  /-- Beyond the first 256 bytes of a block nothing has changed, the list apart. -/
  kept : ∀ o < 4112 * 36, 1040 ≤ o → 272 ≤ o % 4112 → h.mem (place top o) = m (place top o)

namespace Laid

variable {top : Nat} {m m' : Mem} {n c k : Nat} {h : Heap} {es : Record}

/-- An event that is no call of `malloc`. -/
theorem quiet (hL : Laid top m n c k h es) {e : Event Instr Answer} (he : mallocAnswer e = none) :
    Laid top m n c k h (es ++ [e]) :=
  { hL with
    given := by
      rw [blocks, List.filterMap_append, List.filterMap_cons_none he, List.filterMap_nil,
        List.append_nil]
      exact hL.given }

/-- A write of `l` bytes at an offset, between what is to be kept. -/
theorem write (hL : Laid top m n c k h es) {o l : Nat}
    (hm : ∀ x, (∀ b < l, x ≠ place top (o + b)) → m' x = h.mem x) (hend : o + l ≤ 4112 * 36)
    (hn : n ≤ 32) (hc : c ≤ 32)
    (hheader : ∀ j < n, o + l ≤ 32 * j + 24 ∨ 32 * j + 32 ≤ o)
    (hcleared : ∀ j < c, o + l ≤ blockOffset (j + 2) ∨ blockOffset (j + 2) + 256 ≤ o)
    (hkept : ∀ b < l, (o + b) % 4112 < 272 ∨ o + b < 1040) :
    Laid top m n c k { h with mem := m' } es := by
  have hsame : ∀ x < 4112 * 36, x < o ∨ o + l ≤ x → m' (place top x) = h.mem (place top x) := by
    intro x hx hout
    refine hm _ fun b hb heq => ?_
    have := place_inj (by omega) (by omega) heq
    omega
  have hload : ∀ j < n, ∀ f, 8 ≤ f → f + 4 ≤ 16 →
      m'.loadLE (place top mcbBytes + (commandHeaderSize * j + f)) 4 =
        h.mem.loadLE (place top mcbBytes + (commandHeaderSize * j + f)) 4 := by
    intro j hj f hf hf'
    refine Mem.loadLE_of_bytes fun i hi => ?_
    have hout := hheader j hj
    rw [Nat.add_assoc, place_add]
    unfold mcbBytes commandHeaderSize
    exact hsame _ (by omega) (by omega)
  refine ⟨hL.off, hL.ends, hL.given, fun j hj => ?_, fun j hj b hb => ?_, fun x hx h1 h2 => ?_⟩
  · rw [← hL.header j hj, tableAt, tableAt, hload j hj _ (by decide) (by decide),
      hload j hj _ (by decide) (by decide)]
  · have hout := hcleared j hj
    rw [← hL.cleared j hj b hb]
    unfold blockOffset mcbBytes at *
    exact hsame _ (by omega) (by omega)
  · rw [← hL.kept x hx h1 h2]
    refine hsame x hx ?_
    by_contra hin
    have hbyte := hkept (x - o) (by omega)
    rw [Nat.add_sub_cancel' (by omega : o ≤ x)] at hbyte
    omega

theorem place_store (top f b : Nat) : (place top mcbBytes + f + b) % 2 ^ 64 =
    place top (mcbBytes + f + b) := by
  rw [Nat.add_assoc, place_add, Nat.add_assoc]

/-- `malloc`. -/
theorem malloc (hL : Laid top m n c k h es) (hk : k < 34) (hn : n ≤ 32) (hnk : 0 < n → 1 ≤ k)
    (hc : c ≤ 32) (hck : 0 < c → c + 2 ≤ k) :
    Laid top m n c (k + 1) (h.append 4096)
      (es ++ [⟨.malloc 4096, place top (blockOffset k)⟩]) := by
  have hfield : ∀ b, (h.top + b) % 2 ^ 64 = place top (4112 * k + b) := by
    intro b
    rw [← Nat.mod_add_mod, hL.ends, place_add]
  have hmem : ∀ x, (∀ b < 16, x ≠ place top (4112 * k + b)) → (h.append 4096).mem x = h.mem x := by
    intro x hx
    refine append_other 4096 ?_ fun b hb => ?_
    · rw [← Nat.add_zero h.top, hfield]
      exact hx 0 (by decide)
    · rw [Nat.add_assoc, hfield]
      exact hx (8 + b) (by omega)
  have hw := hL.write hmem (by omega) hn hc (fun j hj => by have := hnk (by omega); omega)
    (fun j hj => by have := hck (by omega); unfold blockOffset mcbBytes; omega)
    (fun b hb => by omega)
  refine ⟨hL.off, ?_, ?_, hw.header, hw.cleared, hw.kept⟩
  · rw [append_top, Nat.mod_mod, hfield]
    rfl
  · have hnew : mallocAnswer ⟨.malloc 4096, place top (blockOffset k)⟩ =
        some (place top (blockOffset k)) := rfl
    rw [blocks, List.filterMap_append, List.filterMap_cons_some hnew, List.filterMap_nil,
      List.range_succ, List.map_append]
    exact congrArg (· ++ [_]) hL.given

/-- A field of a header that is not yet counted. -/
theorem store (hL : Laid top m n c k h es) {i f l : Nat} (hi : n ≤ i) (hi' : i < 32) (hc : c ≤ 32)
    (hf : f + l ≤ 16) (v : Nat) :
    Laid top m n c k
      { h with mem := h.mem.storeLE (place top mcbBytes + (commandHeaderSize * i + f)) v l } es := by
  have hmem : ∀ x, (∀ b < l, x ≠ place top (mcbBytes + (commandHeaderSize * i + f) + b)) →
      h.mem.storeLE (place top mcbBytes + (commandHeaderSize * i + f)) v l x = h.mem x := by
    intro x hx
    refine Mem.storeLE_other v fun b hb => ?_
    rw [place_store]
    exact hx b hb
  unfold mcbBytes commandHeaderSize at *
  exact hL.write hmem (by omega) (by omega) hc (fun j hj => by omega)
    (fun j hj => by unfold blockOffset mcbBytes; omega) (fun b hb => by omega)

/-- The header of the next slot is written. -/
theorem next_header (hL : Laid top m n c k h es)
    (ht : tableAt h.mem (place top mcbBytes) n = place top (blockOffset (n + 2) + 256 * n)) :
    Laid top m (n + 1) c k h es :=
  { hL with
    header := by
      intro j hj
      rcases Nat.lt_succ_iff_lt_or_eq.mp hj with hj | rfl
      · exact hL.header j hj
      · exact ht }

theorem fill (hL : Laid top m n c k h es) {o l : Nat} (v : Byte) (hend : o + l ≤ 4112 * 36)
    (hn : n ≤ 32) (hc : c ≤ 32) (ho : 1040 ≤ o) (hcleared : ∀ j < c, blockOffset (j + 2) + 256 ≤ o)
    (hkept : ∀ b < l, (o + b) % 4112 < 272) :
    Laid top m n c k { h with mem := h.mem.fill (place top o) v l } es := by
  refine hL.write (fun x hx => Mem.fill_other v fun b hb => ?_) hend hn hc (fun j hj => by omega)
    (fun j hj => Or.inr (hcleared j hj)) (fun b hb => Or.inl (hkept b hb))
  rw [place_add]
  exact hx b hb

/-- The first 256 bytes of the block for the next slot are cleared. -/
theorem clear (hL : Laid top m n c k h es) (hn : n ≤ 32) (hc : c < 32) :
    Laid top m n (c + 1) k
      { h with mem := h.mem.fill (place top (blockOffset (c + 2))) 0 256 } es := by
  have hfill := hL.fill (o := blockOffset (c + 2)) (l := 256) 0
    (by unfold blockOffset mcbBytes; omega) hn (by omega)
    (by unfold blockOffset mcbBytes; omega) (fun j hj => by unfold blockOffset; omega)
    (fun b hb => by unfold blockOffset mcbBytes; omega)
  refine { hfill with cleared := fun j hj => ?_ }
  rcases Nat.lt_succ_iff_lt_or_eq.mp hj with hj | rfl
  · exact hfill.cleared j hj
  · intro b hb
    rw [← place_add]
    exact Mem.fill_inside 0 hb

/-- The list is cleared through the low half of its address; where that is not the address it is
    far from the heap. -/
theorem clear_low (hL : Laid top m 0 0 k h es) (v : Byte) :
    Laid top m 0 0 k { h with mem := h.mem.fill (place top mcbBytes % 2 ^ 32) v 1024 } es := by
  refine { hL with
    header := fun j hj => absurd hj (Nat.not_lt_zero j)
    cleared := fun j hj => absurd hj (Nat.not_lt_zero j)
    kept := fun o ho h1 h2 => ?_ }
  rw [← hL.kept o ho h1 h2]
  refine Mem.fill_other v fun b hb => ?_
  unfold place mcbBytes
  omega

end Laid

/-! ## The rounds of Configure -/

section Rounds

variable {top : Nat} {m : Mem}

/-- The run so far, in the world with its record. -/
abbrev State := Host × Record

theorem stable_state {P : State → Prop} (h : ∀ s s' : State,
    (∀ q : PortReg, q.isBase → s'.1.regs q = s.1.regs q) → s'.1.heap = s.1.heap → s'.2 = s.2 →
    P s → P s') : Stable heapWorld.recorded P :=
  fun s s' hs ht => h s s' ht.1.1 ht.1.2 ht.2 hs

/-- An assertion about the base registers. -/
def OfBases (Q : PortRegs → Prop) : Prop :=
  ∀ r r' : PortRegs, (∀ q : PortReg, q.isBase → r' q = r q) → Q r → Q r'

/-- The two registers of the list have an address in the block for it. -/
def ListGiven (top : Nat) (r : PortRegs) : Prop :=
  joined (r .commandListBase).toNat (r .commandListBaseUpper).toNat = place top mcbBytes

theorem listGiven_ofBases : OfBases (ListGiven top) := by
  intro r r' hr hQ
  rw [ListGiven, hr .commandListBase rfl, hr .commandListBaseUpper rfl]
  exact hQ

/-- The heap, and what the registers are known to hold. -/
def Stage (top : Nat) (m : Mem) (Q : PortRegs → Prop) (n c k : Nat) (s : State) : Prop :=
  Laid top m n c k s.1.heap s.2 ∧ Q s.1.regs

theorem stable_stage {Q : PortRegs → Prop} (hQ : OfBases Q) (n c k : Nat) :
    Stable heapWorld.recorded (Stage top m Q n c k) :=
  stable_state fun s s' hr hh he hs => ⟨by rw [hh, he]; exact hs.1, hQ s.1.regs s'.1.regs hr hs.2⟩

theorem stable_low (list i address : Nat) :
    Stable heapWorld.recorded fun s : State => HeaderLow list i address s.1 :=
  stable_state fun s s' _ hh _ hs => by rw [HeaderLow, Host.mem, hh]; exact hs

/-- `malloc` with the search off has one answer. -/
theorem heapMalloc_eq {h h' : Heap} {p k : Nat} {es : Record} {n c : Nat}
    (hL : Laid top m n c k h es) (hM : heapMalloc h 4096 p h') :
    p = place top (blockOffset k) ∧ h' = h.append 4096 := by
  obtain ⟨fuel, hM⟩ := hM
  rw [malloc_append fuel h 4096 hL.off] at hM
  obtain ⟨rfl, rfl⟩ := Prod.mk.inj (Option.some.inj hM)
  refine ⟨?_, rfl⟩
  rw [← Nat.mod_add_mod, hL.ends, place_add]
  rfl

/-- A call of `malloc` gives the next block. -/
theorem malloc_stage {n c k : Nat} {Q : PortRegs → Prop} (hQ : OfBases Q) (hk : k < 34)
    (hn : n ≤ 32) (hnk : 0 < n → 1 ≤ k) (hc : c ≤ 32) (hck : 0 < c → c + 2 ≤ k) :
    Triple heapWorld.recorded (fun _ _ => True) (Stage top m Q n c k) (malloc 4096)
      fun p s => Stage top m Q n c (k + 1) s ∧ p = place top (blockOffset k) := by
  refine triple_issue (stable_stage hQ n c k)
    (fun p => (stable_stage hQ n c (k + 1)).and (stable_const _)) (fun _ _ => trivial) ?_
  rintro s p s' ⟨hL, hs⟩ ⟨⟨hM, hregs⟩, hes⟩
  obtain ⟨rfl, hheap⟩ := heapMalloc_eq hL hM
  refine ⟨⟨?_, by rw [hregs]; exact hs⟩, rfl⟩
  rw [hheap, hes]
  exact hL.malloc hk hn hnk hc hck

/-- A write to a register. -/
theorem writeReg_stage {n c k : Nat} {Q Q' : PortRegs → Prop} (hQ : OfBases Q) (hQ' : OfBases Q')
    (q : PortReg) (v : BitVec 32)
    (h : ∀ r r' : PortRegs, (∀ b : PortReg, b.isBase → r' b = if b = q then v else r b) →
      Q r → Q' r') :
    Triple heapWorld.recorded (fun _ _ => True) (Stage top m Q n c k) (writeReg q v)
      fun _ => Stage top m Q' n c k := by
  refine triple_issue (stable_stage hQ n c k) (fun _ => stable_stage hQ' n c k)
    (fun _ _ => trivial) ?_
  rintro s x s' ⟨hL, hs⟩ ⟨⟨hregs, hheap⟩, hes⟩
  refine ⟨?_, h s.1.regs s'.1.regs hregs hs⟩
  rw [hheap, hes]
  exact hL.quiet rfl

/-- A read of a base register. -/
theorem readReg_stage {n c k : Nat} {Q : PortRegs → Prop} (hQ : OfBases Q) {q : PortReg}
    (hq : q.isBase = true) :
    Triple heapWorld.recorded (fun _ _ => True) (Stage top m Q n c k) (readReg q)
      fun x => Stage top m (fun r => Q r ∧ r q = x) n c k := by
  have hboth : ∀ x, OfBases fun r => Q r ∧ r q = x :=
    fun x r r' hr h => ⟨hQ r r' hr h.1, (hr q hq).trans h.2⟩
  refine triple_issue (stable_stage hQ n c k) (fun x => stable_stage (hboth x) n c k)
    (fun _ _ => trivial) ?_
  rintro s x s' ⟨hL, hs⟩ ⟨⟨hx, hs'⟩, hes⟩
  rw [Stage, show s'.1 = s.1 from hs', hes]
  exact ⟨hL.quiet rfl, hs, hx.symm⟩

/-- Clearing memory. -/
theorem memset_stage {n c c' k : Nat} {Q : PortRegs → Prop} (hQ : OfBases Q) {p : Pointer} {a l : Nat}
    (h : ∀ h es, Laid top m n c k h es →
      Laid top m n c' k { h with mem := h.mem.fill a 0 l } es) :
    Triple heapWorld.recorded (fun _ _ => True) (Stage top m Q n c k) (memset p a 0 l)
      fun _ => Stage top m Q n c' k := by
  refine triple_issue (stable_stage hQ n c k) (fun _ => stable_stage hQ n c' k)
    (fun _ _ => trivial) ?_
  rintro s x s' ⟨hL, hs⟩ ⟨hs', hes⟩
  rw [Stage, show s'.1 = _ from hs', hes]
  exact ⟨h s.1.heap _ (hL.quiet rfl), hs⟩

/-- One slot: a block, a header with the address of a table, and a cleared table. -/
theorem configureSlot_stage {i : Nat} (hi : i < 32) :
    Triple heapWorld.recorded (fun _ _ => True) (Stage top m (ListGiven top) i i (i + 2))
      (configureSlot (place top mcbBytes) i)
      fun _ => Stage top m (ListGiven top) (i + 1) (i + 1) (i + 3) := by
  have hstage : ∀ n c k, Stable heapWorld.recorded (Stage top m (ListGiven top) n c k) :=
    stable_stage listGiven_ofBases
  unfold configureSlot
  refine triple_bind (triple_issue (hstage i i (i + 2)) (fun _ => hstage i i (i + 2))
    (fun _ _ => trivial) fun s _ s' hs hx => ?_) fun _ => ?_
  · obtain ⟨hs', hes⟩ := hx
    rw [Stage, show s'.1 = _ from hs', hes]
    exact ⟨(hs.1.quiet rfl).store (Nat.le_refl i) hi (by omega) (by decide) 8, hs.2⟩
  refine triple_bind (malloc_stage listGiven_ofBases (by omega) (by omega) (by omega) (by omega)
    (by omega)) fun p => ?_
  refine triple_fact fun hp => ?_
  have haddress : (p + i <<< 8) % 2 ^ 64 = place top (blockOffset (i + 2) + 256 * i) := by
    rw [hp, place_add, Nat.shiftLeft_eq, Nat.mul_comm]
  rw [haddress, hp]
  have hlow := (hstage i i (i + 3)).and
    (stable_low (place top mcbBytes) i (place top (blockOffset (i + 2) + 256 * i)))
  refine triple_bind (triple_issue (hstage i i (i + 3)) (fun _ => hlow) (fun _ _ => trivial)
    fun s _ s' hs hx => ?_) fun _ => ?_
  · obtain ⟨hs', hes⟩ := hx
    rw [Stage, show s'.1 = _ from hs', hes]
    exact ⟨⟨(hs.1.quiet rfl).store (Nat.le_refl i) hi (by omega) (by decide) _, hs.2⟩,
      headerLow_store _ i _ s.1⟩
  refine triple_bind (triple_issue hlow (fun _ => hstage (i + 1) i (i + 3))
    (fun _ _ => trivial) fun s _ s' hs hx => ?_) fun _ => ?_
  · obtain ⟨hs', hes⟩ := hx
    rw [Stage, show s'.1 = _ from hs', hes]
    refine ⟨((hs.1.1.quiet rfl).store (Nat.le_refl i) hi (by omega) (by decide) _).next_header ?_,
      hs.1.2⟩
    exact tableAt_store hs.2 hi (place_lt _ _)
  exact memset_stage listGiven_ofBases fun h es hL => hL.clear (by omega) hi

/-! ### The whole of Configure -/

/-- The two halves of `p` are in the registers of the list. -/
def Halves (p : Nat) (r : PortRegs) : Prop :=
  r .commandListBase = lowHalf p ∧ r .commandListBaseUpper = highHalf p

theorem halves_ofBases (p : Nat) : OfBases (Halves p) :=
  fun _ _ hr h => ⟨(hr .commandListBase rfl).trans h.1, (hr .commandListBaseUpper rfl).trans h.2⟩

theorem clearList_stage {p : Nat} (hp : p = place top mcbBytes) :
    Triple heapWorld.recorded (fun _ _ => True) (Stage top m (Halves p) 0 0 1)
      clearList fun _ => Stage top m (ListGiven top) 0 0 1 := by
  unfold clearList
  refine triple_bind (readReg_stage (halves_ofBases p) rfl) fun low => ?_
  have hboth : OfBases fun r => Halves p r ∧ r .commandListBase = low :=
    fun r r' hr h => ⟨halves_ofBases p r r' hr h.1, (hr .commandListBase rfl).trans h.2⟩
  refine triple_issue (stable_stage hboth 0 0 1) (fun _ => stable_stage listGiven_ofBases 0 0 1)
    (fun _ _ => trivial) ?_
  rintro s x s' ⟨hL, hs, hlow⟩ ⟨hs', hes⟩
  have haddress : low.toNat = place top mcbBytes % 2 ^ 32 := by
    rw [← hlow, hs.1, hp]
    exact BitVec.toNat_ofNat _ _
  rw [Stage, show s'.1 = _ from hs', hes, haddress]
  refine ⟨(hL.quiet rfl).clear_low 0, ?_⟩
  show joined (s.1.regs _).toNat (s.1.regs _).toNat = _
  rw [hs.1, hs.2, joined_halves (by rw [hp]; exact place_lt _ _), hp]

theorem programFis_stage {p : Nat} (hp : p = place top (blockOffset 1)) :
    Triple heapWorld.recorded (fun _ _ => True) (Stage top m (ListGiven top) 0 0 2)
      (programFis p) fun _ => Stage top m (ListGiven top) 0 0 2 := by
  have hother : ∀ q, q ≠ .commandListBase → q ≠ .commandListBaseUpper → ∀ (v : BitVec 32)
      (r r' : PortRegs), (∀ b : PortReg, b.isBase → r' b = if b = q then v else r b) →
      ListGiven top r → ListGiven top r' := by
    intro q hlow hupper v r r' hr hQ
    rw [ListGiven, hr .commandListBase rfl, hr .commandListBaseUpper rfl, if_neg hlow.symm,
      if_neg hupper.symm]
    exact hQ
  unfold programFis
  refine triple_bind (writeReg_stage listGiven_ofBases listGiven_ofBases _ _
    (hother _ (by decide) (by decide) _)) fun _ => ?_
  refine triple_bind (writeReg_stage listGiven_ofBases listGiven_ofBases _ _
    (hother _ (by decide) (by decide) _)) fun _ => ?_
  rw [hp]
  refine memset_stage listGiven_ofBases fun h es hL => ?_
  exact hL.fill 0 (by decide) (by decide) (by decide) (by decide) (fun j hj => by omega)
    fun b hb => by unfold blockOffset mcbBytes; omega

theorem configureSlots_stage :
    Triple heapWorld.recorded (fun _ _ => True) (Stage top m (ListGiven top) 0 0 2)
      configureSlots fun _ => Stage top m (ListGiven top) 32 32 34 := by
  unfold configureSlots
  refine triple_bind (readReg_stage listGiven_ofBases rfl) fun low => ?_
  have hlow : OfBases fun r => ListGiven top r ∧ r .commandListBase = low :=
    fun r r' hr h => ⟨listGiven_ofBases r r' hr h.1, (hr .commandListBase rfl).trans h.2⟩
  refine triple_bind (readReg_stage hlow rfl) fun high => ?_
  refine triple_weaken (R := fun s => Stage top m (ListGiven top) 0 0 2 s ∧
    joined low.toNat high.toNat = place top mcbBytes) (triple_fact fun hlist => ?_) ?_
    fun _ _ hs => hs
  · rw [hlist]
    exact triple_walk_range (P := fun i => Stage top m (ListGiven top) i i (i + 2))
      (stable_stage listGiven_ofBases 32 32 34) fun i hi => configureSlot_stage hi
  · rintro s ⟨hL, ⟨hlist, hl⟩, hh⟩
    exact ⟨⟨hL, hlist⟩, by rw [← hl, ← hh]; exact hlist⟩

theorem configureStopped_stage :
    Triple heapWorld.recorded (fun _ _ => True) (Stage top m (fun _ => True) 0 0 0)
      configureStopped fun _ => Stage top m (ListGiven top) 32 32 34 := by
  have htrue : OfBases fun _ => True := fun _ _ _ _ => trivial
  rw [configureStopped_eq]
  refine triple_bind (malloc_stage htrue (by decide) (by decide) (by decide) (by decide)
    (by decide)) fun p => ?_
  refine triple_fact fun hp => ?_
  have hlow : OfBases fun r => r .commandListBase = lowHalf p :=
    fun r r' hr h => (hr .commandListBase rfl).trans h
  refine triple_bind (writeReg_stage htrue hlow _ _ fun r r' hr _ => hr .commandListBase rfl)
    fun _ => ?_
  refine triple_bind (writeReg_stage hlow (halves_ofBases p) _ _ fun r r' hr h =>
    ⟨(hr .commandListBase rfl).trans h, hr .commandListBaseUpper rfl⟩) fun _ => ?_
  refine triple_bind (clearList_stage hp) fun _ => ?_
  refine triple_bind (malloc_stage listGiven_ofBases (by decide) (by decide) (by decide)
    (by decide) (by decide)) fun q => ?_
  exact triple_fact fun hq => triple_bind (programFis_stage hq) fun _ => configureSlots_stage

/-- `StopCMD` and `StartCMD` use the command register only. -/
theorem command_stage {p : Code Unit} (hp : p.Only AtCommand) {Q : PortRegs → Prop}
    (hQ : OfBases Q) (n c k : Nat) :
    Triple heapWorld.recorded (fun _ _ => True) (Stage top m Q n c k) p
      fun _ => Stage top m Q n c k := by
  refine triple_only hp (stable_stage hQ n c k) (fun _ _ _ _ => trivial) ?_
  rintro i s x s' (rfl | ⟨v, rfl⟩) ⟨hL, hs⟩ ⟨hx, hes⟩
  · rw [Stage, show s'.1 = s.1 from hx.2, hes]
    exact ⟨hL.quiet rfl, hs⟩
  · obtain ⟨hregs, hheap⟩ := hx
    rw [Stage, hheap, hes]
    refine ⟨hL.quiet rfl, hQ s.1.regs s'.1.regs (fun q hq => ?_) hs⟩
    rw [hregs q hq, if_neg]
    rintro rfl
    cases hq

theorem configure_stage (fuel : Nat) :
    Triple heapWorld.recorded (fun _ _ => True) (Stage top m (fun _ => True) 0 0 0)
      (configure fuel) fun _ => Stage top m (ListGiven top) 32 32 34 :=
  triple_bind (command_stage (stopCMD_only fuel) (fun _ _ _ _ => trivial) 0 0 0) fun _ =>
    triple_bind configureStopped_stage fun _ =>
      command_stage (startCMD_only fuel) listGiven_ofBases 32 32 34

end Rounds

/-! ## The tables of a run that has returned -/

theorem laid_start {h : Heap} (hoff : h.haveAllocated = false) : Laid h.top h.mem 0 0 0 h [] where
  off := hoff
  ends := rfl
  given := rfl
  header := fun j hj => absurd hj (Nat.not_lt_zero j)
  cleared := fun j hj => absurd hj (Nat.not_lt_zero j)
  kept := fun _ _ _ _ => rfl

section Configured

variable {top : Nat} {m : Mem} {w : Host} {es : Record} {i j : Nat}

theorem Stage.table (hS : Stage top m (ListGiven top) 32 32 34 (w, es)) (hi : i < 32) :
    programmed w (.commandTable i) = place top (blockOffset (i + 2) + 256 * i) := by
  rw [← hS.1.header i hi, programmed_tableAt]
  exact congrArg (tableAt w.mem · i) hS.2

theorem Stage.slotBlock (hS : Stage top m (ListGiven top) 32 32 34 (w, es)) (hi : i < 32) :
    slotBlock es i = place top (blockOffset (i + 2)) := by
  have hlt : i + 2 < 34 := by omega
  rw [Disks.slotBlock, hS.1.given, List.getD_eq_getElem?_getD, List.getElem?_map,
    List.getElem?_range hlt]
  rfl

theorem Stage.inside_iff (hS : Stage top m (ListGiven top) 32 32 34 (w, es)) (hi : i < 32) :
    TableInside w es i ↔ i < 16 := by
  have hsize : slotTableSize = 256 := rfl
  unfold TableInside
  simp only [hS.table hi, hS.slotBlock hi, place_add, hsize]
  unfold blockOffset mcbBytes
  constructor
  · intro hin
    obtain ⟨c, hc, heq⟩ := hin 0 (by decide)
    have := place_inj (by omega) (by omega) heq
    omega
  · intro hlt b hb
    exact ⟨256 * i + b, by omega, by rw [Nat.add_assoc]⟩

theorem Stage.apart (hS : Stage top m (ListGiven top) 32 32 34 (w, es)) (hi : i < 32) (hj : j < 32)
    (hij : j ≠ i) : TablesApart w i j := by
  have hsize : slotTableSize = 256 := rfl
  unfold TablesApart
  rw [hS.table hi, hS.table hj, hsize]
  intro b hb c hc heq
  rw [place_add, place_add] at heq
  unfold blockOffset mcbBytes at heq
  have := place_inj (by omega) (by omega) heq
  omega

theorem Stage.first_zero (hS : Stage top m (ListGiven top) 32 32 34 (w, es)) : TableZero w 0 := by
  intro b hb
  rw [hS.table (by decide), place_add]
  exact hS.1.cleared 0 (by decide) b hb

theorem Stage.zero_iff (hS : Stage top m (ListGiven top) 32 32 34 (w, es)) (hpos : 0 < i)
    (hi : i < 16) : TableZero w i ↔
      ∀ b < slotTableSize, m ((programmed w (.commandTable i) + b) % 2 ^ 64) = 0 := by
  have hsize : slotTableSize = 256 := rfl
  refine forall₂_congr fun b hb => ?_
  rw [hsize] at hb
  rw [hS.table (by omega), place_add]
  have hrest : (blockOffset (i + 2) + 256 * i + b) % 4112 = 16 + 256 * i + b := by
    rw [blockOffset, mcbBytes, Nat.add_assoc, Nat.add_assoc, Nat.mul_add_mod,
      Nat.mod_eq_of_lt (by omega), Nat.add_assoc]
  have hkept := hS.1.kept (blockOffset (i + 2) + 256 * i + b) (by unfold blockOffset mcbBytes; omega)
    (by unfold blockOffset mcbBytes; omega) (by omega)
  exact iff_of_eq (congrArg (· = 0) hkept)

/-- The table of slot 16 is behind the block. -/
theorem Stage.not_fit (hS : Stage top m (ListGiven top) 32 32 34 (w, es)) : ¬ TablesFit w es :=
  fun hfit => absurd ((hS.inside_iff (by decide)).mp (hfit 16 (by decide)).1) (by decide)

end Configured

theorem stage_of_configured {start : Host} (hoff : start.heap.haveAllocated = false) {fuel : Nat}
    {w : Host} {es : Record}
    (hrun : Reach heapWorld.recorded (configure fuel, (start, [])) (.ret (), (w, es))) :
    Stage start.heap.top start.mem (ListGiven start.heap.top) 32 32 34 (w, es) := by
  have hwp := wp_reach (configure_stage fuel (start, []) ⟨laid_start hoff, trivial⟩) hrun
  exact wp_ret (Q := fun _ => Stage start.heap.top start.mem (ListGiven start.heap.top) 32 32 34)
    hwp

/-- However `Configure` returns, the tables of the slots from 16 on are outside of their blocks.
    All tables are apart; that of slot 0 is zero, and those of the slots from 1 to 15 are zero
    where the heap was before. -/
theorem configured_tables (start : Host) (hoff : start.heap.haveAllocated = false) (fuel : Nat)
    (w : Host) (es : Record)
    (hrun : Reach heapWorld.recorded (configure fuel, (start, [])) (.ret (), (w, es))) :
    ¬ TablesFit w es ∧
    ∀ i < 32, (TableInside w es i ↔ i < 16) ∧ (∀ j < 32, j ≠ i → TablesApart w i j) ∧
      (i = 0 → TableZero w i) ∧
      (0 < i → i < 16 → (TableZero w i ↔
        ∀ b < slotTableSize, start.mem ((programmed w (.commandTable i) + b) % 2 ^ 64) = 0)) := by
  have hS := stage_of_configured hoff hrun
  refine ⟨hS.not_fit, fun i hi => ⟨hS.inside_iff hi, fun j hj hij => hS.apart hi hj hij, ?_, ?_⟩⟩
  · rintro rfl
    exact hS.first_zero
  · exact fun hpos hlt => hS.zero_iff hpos hlt

/-! ## Configure returns -/

theorem heapWorld_answers (i : Instr) (w : Host) (hoff : w.heap.haveAllocated = false) :
    ∃ x w', heapWorld.exec i w x w' ∧ w'.heap.haveAllocated = false := by
  cases i with
  | readReg q => exact ⟨w.regs q, w, ⟨rfl, rfl⟩, hoff⟩
  | writeReg q v =>
    exact ⟨(), { w with regs := latchingWrite w.regs q v }, ⟨fun _ _ => rfl, rfl⟩, hoff⟩
  | malloc size =>
    exact ⟨_, { w with heap := w.heap.append size }, ⟨⟨0, malloc_append 0 w.heap size hoff⟩, rfl⟩,
      hoff⟩
  | load p a o k => exact ⟨w.mem.loadLE (a + o) k, w, ⟨rfl, rfl⟩, hoff⟩
  | store p a o v k => exact ⟨(), w.withMem (w.mem.storeLE (a + o) v k), rfl, hoff⟩
  | memset p a v k => exact ⟨(), w.withMem (w.mem.fill a v k), rfl, hoff⟩

theorem configureStopped_ends : configureStopped.Ends := by
  have hslot : ∀ cmdHeader i, (configureSlot cmdHeader i).Ends := fun _ _ _ _ _ _ _ => trivial
  rw [configureStopped_eq]
  exact fun _ _ _ _ _ _ _ _ _ _ _ => Prog.Ends.walk (hslot _) _

theorem configure_returns (start : Host) (hoff : start.heap.haveAllocated = false) :
    ∃ w es, Reach heapWorld.recorded (configure 1, (start, [])) (.ret (), (w, es)) := by
  obtain ⟨v, hheap, hstop⟩ :=
    reach_stopCMD heapMalloc (fun _ => configureStopped >>= fun _ => startCMD 1) start
  obtain ⟨_, v', hconfigure, -⟩ := reach_ends_keeps configureStopped_ends
    (P := fun w => w.heap.haveAllocated = false) (D := heapWorld) heapWorld_answers
    (by rw [hheap]; exact hoff)
  obtain ⟨w, hstart⟩ := reach_startCMD heapMalloc v'
  have hrun := (hstop.trans (reach_return (fun _ => startCMD 1) hconfigure)).trans hstart
  obtain ⟨es, hrecorded⟩ := reach_recorded hrun []
  exact ⟨w, es, hrecorded⟩

/-- The law for a heap full of ones. -/
theorem configured_tables_ones :
    ∃ w es, ¬ TablesFit w es ∧
    ∀ i < 32, (TableInside w es i ↔ i < 16) ∧ (∀ j < 32, j ≠ i → TablesApart w i j) ∧
      (i = 0 → TableZero w i) ∧
      (0 < i → i < 16 → (TableZero w i ↔
        ∀ b < slotTableSize, (fun _ => 255 : Mem) ((programmed w (.commandTable i) + b) % 2 ^ 64) =
          0)) := by
  obtain ⟨w, es, hrun⟩ := configure_returns ⟨fun _ => 0, bootHeap fun _ => 255⟩ rfl
  exact ⟨w, es, configured_tables ⟨fun _ => 0, bootHeap fun _ => 255⟩ rfl 1 w es hrun⟩

/-- `Configure` on an empty heap returns, and table 16 is outside of its block. -/
theorem table_outside :
    ∃ w es, Reach heapWorld.recorded
      (configure 1, (⟨fun _ => 0, bootHeap fun _ => 0⟩, [])) (.ret (), (w, es)) ∧
      ¬ TableInside w es 16 ∧ ¬ TablesFit w es := by
  obtain ⟨w, es, hrun⟩ := configure_returns ⟨fun _ => 0, bootHeap fun _ => 0⟩ rfl
  have hS := stage_of_configured rfl hrun
  exact ⟨w, es, hrun, fun hin => absurd ((hS.inside_iff (by decide)).mp hin) (by decide), hS.not_fit⟩

end SeshOS.Disks
