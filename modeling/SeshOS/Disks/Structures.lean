/-
  Where the code and the adapter look for the structures they share.

  The adapter takes an address from a pair of registers, or from a pair of fields of a command
  header (`programmed`). The code takes it from `malloc`, from the low register or field alone,
  or from both. `structures_same` says for each pointer of `Configure` and `Read` when the two
  are the same address; for the command tables of the slots from 1 on they never are.
-/
import SeshOS.Disks.Port

namespace SeshOS.Disks

open Base SeshOS.Memory

inductive Structure where
  | commandList
  | receivedFis
  | commandTable (slot : Nat)

/-- What a pointer of the code points to. -/
def Pointer.structure : Pointer → Structure
  | .configureList | .configureHeader | .readHeader => .commandList
  | .configureFis => .receivedFis
  | .configureTable i => .commandTable i
  | .readTable => .commandTable 0

/-- Where the adapter finds a structure. -/
def programmed (w : Host) : Structure → Nat
  | .commandList =>
    joined (w.regs .commandListBase).toNat (w.regs .commandListBaseUpper).toNat
  | .receivedFis => joined (w.regs .fisBaseAddress).toNat (w.regs .fisBaseAddressUpper).toNat
  | .commandTable i =>
    let list := joined (w.regs .commandListBase).toNat (w.regs .commandListBaseUpper).toNat
    joined (w.mem.loadLE (list + (commandHeaderSize * i + commandTableBaseAddress)) 4)
      (w.mem.loadLE (list + (commandHeaderSize * i + commandTableBaseAddressUpper)) 4)

theorem programmed_commandList (w : Host) : programmed w .commandList =
    joined (w.regs .commandListBase).toNat (w.regs .commandListBaseUpper).toNat := rfl

theorem programmed_receivedFis (w : Host) : programmed w .receivedFis =
    joined (w.regs .fisBaseAddress).toNat (w.regs .fisBaseAddressUpper).toNat := rfl

theorem programmed_commandTable (w : Host) (i : Nat) : programmed w (.commandTable i) =
    joined (w.mem.loadLE (programmed w .commandList +
        (commandHeaderSize * i + commandTableBaseAddress)) 4)
      (w.mem.loadLE (programmed w .commandList +
        (commandHeaderSize * i + commandTableBaseAddressUpper)) 4) := rfl

/-- The pointer a memory access goes through, and the address in it. -/
def Instr.pointer : Instr → Option (Pointer × Nat)
  | .load p a _ _ | .store p a _ _ _ | .memset p a _ _ => some (p, a)
  | _ => none

/-- An adapter that keeps what is written to the base registers; the others are free. -/
def latching : Controller where
  tick r r' := ∀ q : PortReg, q.isBase → r' q = r q
  write r q v r' := ∀ b : PortReg, b.isBase → r' b = if b = q then v else r b

/-- `malloc` as any function of the heap and the size: any 64-bit address, any new heap. -/
abbrev Alloc := Heap → Nat → BitVec 64 × Heap

/-- The world with such an adapter and such a `malloc`. -/
abbrev sharedWorld (alloc : Alloc) : World Instr Answer Host :=
  ahciWorld latching fun h n p h' => p = (alloc h n).1.toNat ∧ h' = (alloc h n).2

/-- Along every run of `Configure` and then `Read`, each access goes to the address that the
    adapter has for the structure. -/
def SameStructures (alloc : Alloc) (start : Host) : Prop :=
  ∀ fuel sector sectorCount buffer i k w p a,
    Reach (sharedWorld alloc)
      (configure fuel >>= fun _ => read fuel sector sectorCount buffer, start) (.op i k, w) →
    i.pointer = some (p, a) → a = programmed w p.structure

/-- When a pointer of `Configure` has the adapter's address. -/
def ConfigureSame (w : Host) : Pointer → Prop
  | .configureList => programmed w .commandList < 2 ^ 32
  | .configureTable i => i = 0
  | _ => True

/-! ## Halves of addresses -/

theorem joined_halves {p : Nat} (hp : p < 2 ^ 64) :
    joined (lowHalf p).toNat (highHalf p).toNat = p := by
  have hlow : (lowHalf p).toNat = p % 2 ^ 32 := BitVec.toNat_ofNat _ _
  have hhigh : (highHalf p).toNat = p / 2 ^ 32 := by
    rw [highHalf, BitVec.toNat_ofNat, Nat.shiftRight_eq_div_pow]
    exact Nat.mod_eq_of_lt (by omega)
  rw [hlow, hhigh]
  unfold joined
  omega

/-- The low half is the address exactly when the address is below `2 ^ 32`. -/
theorem low_eq_iff {low high : Nat} (h : low < 2 ^ 32) :
    low = joined low high ↔ joined low high < 2 ^ 32 := by
  unfold joined
  omega

/-! ## Configure -/

/-- What is asked of the accesses of `Configure`. -/
def ConfigureOk (i : Instr) (w : Host) : Prop :=
  ∀ p a, i.pointer = some (p, a) → (a = programmed w p.structure ↔ ConfigureSame w p)

variable {alloc : Alloc} {ok : Instr → Host → Prop}

/-- An assertion about the base registers and the heap. -/
theorem stable_bases {P : Host → Prop} (h : ∀ w w' : Host,
    (∀ q : PortReg, q.isBase → w'.regs q = w.regs q) → w'.heap = w.heap → P w → P w') :
    Stable (sharedWorld alloc) P :=
  fun w w' hw ht => h w w' ht.1 ht.2 hw

theorem stable_list (a : Nat) :
    Stable (sharedWorld alloc) fun w => programmed w .commandList = a := by
  refine stable_bases fun w w' hr _ hw => ?_
  rw [programmed_commandList, hr .commandListBase rfl, hr .commandListBaseUpper rfl]
  exact hw

theorem stable_table (i a : Nat) :
    Stable (sharedWorld alloc) fun w => programmed w (.commandTable i) = a := by
  refine stable_bases fun w w' hr hh hw => ?_
  rw [programmed_commandTable, programmed_commandList, hr .commandListBase rfl,
    hr .commandListBaseUpper rfl, Host.mem, hh]
  exact hw

theorem AtCommand.pointer {i : Instr} (h : AtCommand i) : i.pointer = none := by
  rcases h with rfl | ⟨v, rfl⟩ <;> rfl

/-- Code that goes through no pointer keeps any assertion it does not touch. -/
theorem triple_registers {α : Type} {p : Code α} (hp : p.Only fun i => i.pointer = none) :
    Triple (sharedWorld alloc) ConfigureOk (fun _ => True) p fun _ _ => True := by
  intro w _
  refine wp_of_only (hp.mono fun i hi w p a h => ?_) w
  rw [hi] at h
  cases h

/-! ### One slot -/

/-- The two halves of the table address in the header of slot `i`. -/
def HeaderLow (list i address : Nat) (w : Host) : Prop :=
  w.mem.loadLE (list + (commandHeaderSize * i + commandTableBaseAddress)) 4 =
    (lowHalf address).toNat

def HeaderHigh (list i address : Nat) (w : Host) : Prop :=
  w.mem.loadLE (list + (commandHeaderSize * i + commandTableBaseAddressUpper)) 4 =
    (highHalf address).toNat

theorem stable_header (list i address : Nat) : Stable (sharedWorld alloc) (HeaderLow list i address) :=
  stable_bases fun w w' _ hh hw => by rw [HeaderLow, Host.mem, hh]; exact hw

theorem programmed_of_header {list i address : Nat} {w : Host}
    (hlist : programmed w .commandList = list) (hlow : HeaderLow list i address w)
    (hhigh : HeaderHigh list i address w) (ha : address < 2 ^ 64) :
    programmed w (.commandTable i) = address := by
  rw [programmed_commandTable, hlist, hlow, hhigh]
  exact joined_halves ha

/-- Storing one half, then the other. -/
theorem headerLow_store (list i address : Nat) (w : Host) : HeaderLow list i address
    (w.withMem (w.mem.storeLE (list + (commandHeaderSize * i + commandTableBaseAddress))
      (lowHalf address).toNat 4)) :=
  (Mem.loadLE_storeLE_self _ (by decide)).trans (Nat.mod_eq_of_lt (lowHalf address).isLt)

theorem headerHigh_store (list i address : Nat) (w : Host) : HeaderHigh list i address
    (w.withMem (w.mem.storeLE (list + (commandHeaderSize * i + commandTableBaseAddressUpper))
      (highHalf address).toNat 4)) :=
  (Mem.loadLE_storeLE_self _ (by decide)).trans (Nat.mod_eq_of_lt (highHalf address).isLt)

theorem HeaderLow.store_high {list i address : Nat} {w : Host} (h : HeaderLow list i address w)
    (hi : i < 32) (v : Nat) : HeaderLow list i address
      (w.withMem (w.mem.storeLE (list + (commandHeaderSize * i + commandTableBaseAddressUpper))
        v 4)) := by
  have hoffset : commandHeaderSize * i + commandTableBaseAddress + 4 =
      commandHeaderSize * i + commandTableBaseAddressUpper := rfl
  have hend : commandHeaderSize * i + commandTableBaseAddressUpper + 4 ≤ 2 ^ 64 := by
    unfold commandHeaderSize commandTableBaseAddressUpper
    omega
  exact (Mem.loadLE_storeLE_apart v (Mem.apart_offsets list (by omega) hend (by omega))).trans h

theorem configureSlot_ok (cmdHeader : Nat) {i : Nat} (hi : i < 32) :
    Triple (sharedWorld alloc) ConfigureOk (fun w => programmed w .commandList = cmdHeader)
      (configureSlot cmdHeader i) fun _ w => programmed w .commandList = cmdHeader := by
  have hlist : Stable (sharedWorld alloc) fun w => programmed w .commandList = cmdHeader :=
    stable_list cmdHeader
  -- through `cmdHeader` the code has the address of the adapter
  have hheader : ∀ w o v k, programmed w .commandList = cmdHeader →
      ConfigureOk (.store .configureHeader cmdHeader o v k) w := by
    rintro w o v k hw p a ⟨⟩
    exact iff_of_true hw.symm trivial
  unfold configureSlot
  refine triple_bind (triple_issue hlist (fun _ => hlist) (fun w hw => hheader w _ _ _ hw)
    fun w x w' hw hx => ?_) fun _ => ?_
  · rw [show w' = _ from hx]
    exact hw
  refine triple_bind (R := fun t w => programmed w .commandList = cmdHeader ∧ t < 2 ^ 64)
    (triple_issue hlist (fun _ => hlist.and (stable_const _)) (fun w hw p a h => by cases h)
      fun w t w' hw hx => ?_) fun t => ?_
  · obtain ⟨⟨ht, -⟩, hregs⟩ := hx
    refine ⟨?_, ?_⟩
    · rw [programmed_commandList, hregs]
      exact hw
    · rw [ht]
      exact BitVec.isLt _
  refine triple_fact fun ht => ?_
  have haddress : (t + i <<< 8) % 2 ^ 64 < 2 ^ 64 := Nat.mod_lt _ (Nat.two_pow_pos 64)
  have hheaderLow : Stable (sharedWorld alloc)
      (HeaderLow cmdHeader i ((t + i <<< 8) % 2 ^ 64)) := stable_header _ _ _
  have hlow := hlist.and hheaderLow
  refine triple_bind (triple_issue hlist (fun _ => hlow) (fun w hw => hheader w _ _ _ hw)
    fun w x w' hw hx => ?_) fun _ => ?_
  · rw [show w' = _ from hx]
    exact ⟨hw, headerLow_store cmdHeader i _ w⟩
  refine triple_bind (R := fun _ w => programmed w .commandList = cmdHeader ∧
      programmed w (.commandTable i) = (t + i <<< 8) % 2 ^ 64)
    (triple_issue hlow (fun _ => ?_) (fun w hw => hheader w _ _ _ hw.1)
      fun w x w' hw hx => ?_) fun _ => ?_
  · exact hlist.and (stable_table i _)
  · rw [show w' = _ from hx]
    exact ⟨hw.1, programmed_of_header hw.1 (hw.2.store_high hi _)
      (headerHigh_store cmdHeader i _ w) haddress⟩
  refine triple_issue (hlist.and (stable_table i _)) (fun _ => hlist) (fun w hw p a hp => ?_)
    fun w x w' hw hx => ?_
  · obtain ⟨rfl, rfl⟩ := Prod.mk.inj (Option.some.inj hp)
    show t = programmed w (.commandTable i) ↔ i = 0
    rw [hw.2]
    omega
  · rw [show w' = _ from hx]
    exact hw.1

/-! ### The whole of Configure -/

theorem configureOk_none {i : Instr} (hi : i.pointer = none) (w : Host) : ConfigureOk i w := by
  intro p a hp
  rw [hi] at hp
  cases hp

/-- An access that goes through no pointer. -/
theorem triple_free {i : Instr} (hi : i.pointer = none) :
    Triple (sharedWorld alloc) ConfigureOk (fun _ => True) (.op i .ret) fun _ _ => True :=
  triple_issue (stable_const _) (fun _ => stable_const _) (fun w _ => configureOk_none hi w)
    fun _ _ _ _ _ => trivial

/-! Three pieces of `configureStopped`. -/

def clearList : Code Unit := do
  memset .configureList (← readReg .commandListBase).toNat 0 1024

def programFis (fisBase : Nat) : Code Unit := do
  writeReg .fisBaseAddress (lowHalf fisBase)
  writeReg .fisBaseAddressUpper (highHalf fisBase)
  memset .configureFis fisBase 0 256

def configureSlots : Code Unit := do
  let cmdHeader := joined (← readReg .commandListBase).toNat
    (← readReg .commandListBaseUpper).toNat
  .walk (configureSlot cmdHeader) (List.range 32)

theorem configureStopped_eq : configureStopped = (do
    let newBase ← malloc 4096
    writeReg .commandListBase (lowHalf newBase)
    writeReg .commandListBaseUpper (highHalf newBase)
    clearList
    let fisBase ← malloc 4096
    programFis fisBase
    configureSlots) := rfl

/-- Clearing the list through the low register. -/
theorem clearList_ok :
    Triple (sharedWorld alloc) ConfigureOk (fun _ => True) clearList fun _ _ => True := by
  unfold clearList
  refine triple_bind (R := fun low w => w.regs .commandListBase = low)
    (triple_issue (stable_const _) (fun low => stable_bases fun w w' hr _ hw => ?_)
      (fun w _ => configureOk_none rfl w) fun w low w' _ hx => ?_) fun low => ?_
  · exact (hr .commandListBase rfl).trans hw
  · rw [hx.2]
    exact hx.1.symm
  refine triple_issue (stable_bases fun w w' hr _ hw => ?_) (fun _ => stable_const _)
    (fun w hw p a hp => ?_) fun _ _ _ _ _ => trivial
  · exact (hr .commandListBase rfl).trans hw
  · obtain ⟨rfl, rfl⟩ := Prod.mk.inj (Option.some.inj hp)
    show low.toNat = programmed w .commandList ↔ programmed w .commandList < 2 ^ 32
    rw [programmed_commandList, hw]
    exact low_eq_iff low.isLt

/-- Programming the FIS buffer, and clearing it. -/
theorem clearFis_ok {fisBase : Nat} (hf : fisBase < 2 ^ 64) :
    Triple (sharedWorld alloc) ConfigureOk (fun _ => True) (programFis fisBase)
      fun _ _ => True := by
  unfold programFis
  have hlow : Stable (sharedWorld alloc) fun w => w.regs .fisBaseAddress = lowHalf fisBase :=
    stable_bases fun w w' hr _ hw => (hr .fisBaseAddress rfl).trans hw
  have hboth : Stable (sharedWorld alloc) fun w => w.regs .fisBaseAddress = lowHalf fisBase ∧
      w.regs .fisBaseAddressUpper = highHalf fisBase :=
    hlow.and (stable_bases fun w w' hr _ hw => (hr .fisBaseAddressUpper rfl).trans hw)
  refine triple_bind (triple_issue (stable_const _) (fun _ => hlow)
    (fun w _ => configureOk_none rfl w) fun w _ w' _ hx => hx.1 .fisBaseAddress rfl) fun _ => ?_
  refine triple_bind (triple_issue hlow (fun _ => hboth) (fun w _ => configureOk_none rfl w)
    fun w _ w' hw hx => ⟨(hx.1 .fisBaseAddress rfl).trans hw, hx.1 .fisBaseAddressUpper rfl⟩)
    fun _ => ?_
  refine triple_issue hboth (fun _ => stable_const _) (fun w hw p a hp => ?_)
    fun _ _ _ _ _ => trivial
  obtain ⟨rfl, rfl⟩ := Prod.mk.inj (Option.some.inj hp)
  refine iff_of_true ?_ trivial
  show fisBase = programmed w .receivedFis
  rw [programmed_receivedFis, hw.1, hw.2, joined_halves hf]

/-- The headers are reached through both registers. -/
theorem slots_ok :
    Triple (sharedWorld alloc) ConfigureOk (fun _ => True) configureSlots fun _ _ => True := by
  unfold configureSlots
  refine triple_bind (R := fun low w => w.regs .commandListBase = low)
    (triple_issue (stable_const _) (fun low => stable_bases fun w w' hr _ hw => ?_)
      (fun w _ => configureOk_none rfl w) fun w low w' _ hx => ?_) fun low => ?_
  · exact (hr .commandListBase rfl).trans hw
  · rw [hx.2]
    exact hx.1.symm
  have hhigh : Triple (sharedWorld alloc) ConfigureOk (fun w => w.regs .commandListBase = low)
      (readReg .commandListBaseUpper)
      fun high w => programmed w .commandList = joined low.toNat high.toNat := by
    refine triple_issue (stable_bases fun w w' hr _ hw => ?_) (fun high => stable_list _)
      (fun w _ => configureOk_none rfl w) fun w high w' hw hx => ?_
    · exact (hr .commandListBase rfl).trans hw
    · rw [hx.2]
      exact congrArg₂ joined (congrArg BitVec.toNat hw) (congrArg BitVec.toNat hx.1.symm)
  refine triple_bind hhigh fun high => ?_
  have hlist : Stable (sharedWorld alloc) fun w =>
      programmed w .commandList = joined low.toNat high.toNat := stable_list _
  have hwalk := triple_walk hlist fun i hi =>
    configureSlot_ok (joined low.toNat high.toNat) (List.mem_range.mp hi)
  exact triple_weaken hwalk (fun _ hw => hw) fun _ _ _ => trivial

theorem configureStopped_ok :
    Triple (sharedWorld alloc) ConfigureOk (fun _ => True) configureStopped fun _ _ => True := by
  rw [configureStopped_eq]
  refine triple_bind (triple_free rfl) fun newBase => ?_
  refine triple_bind (triple_free rfl) fun _ => ?_
  refine triple_bind (triple_free rfl) fun _ => ?_
  refine triple_bind clearList_ok fun _ => ?_
  refine triple_bind (R := fun fisBase _ => True ∧ fisBase < 2 ^ 64)
    (triple_issue (stable_const _) (fun _ => stable_const _) (fun w _ => configureOk_none rfl w)
      fun w fisBase w' _ hx => ⟨trivial, ?_⟩) fun fisBase => ?_
  · rw [hx.1.1]
    exact BitVec.isLt _
  exact triple_fact fun hf => triple_bind (clearFis_ok hf) fun _ => slots_ok

theorem configure_ok (fuel : Nat) :
    Triple (sharedWorld alloc) ConfigureOk (fun _ => True) (configure fuel) fun _ _ => True :=
  triple_bind (triple_registers ((stopCMD_only fuel).mono fun _ hi => hi.pointer)) fun _ =>
    triple_bind configureStopped_ok fun _ =>
      triple_registers ((startCMD_only fuel).mono fun _ hi => hi.pointer)

/-! ## Read -/

/-- What is asked of the accesses of `Read`, begun at `start`: when the list is where the code
    looks for it, the table is if its address is below `2 ^ 32`. -/
def ReadOk (start : Host) (i : Instr) (_ : Host) : Prop :=
  ∀ p a, i.pointer = some (p, a) →
    (p = .readTable → programmed start .commandList < 2 ^ 32) →
    (a = programmed start p.structure ↔ programmed start p.structure < 2 ^ 32)

section Read

variable {start : Host}

theorem readOk_none {i : Instr} (hi : i.pointer = none) (w : Host) : ReadOk start i w := by
  intro p a hp
  rw [hi] at hp
  cases hp

theorem list_eq_iff (start : Host) : (start.regs .commandListBase).toNat =
    programmed start .commandList ↔ programmed start .commandList < 2 ^ 32 := by
  exact low_eq_iff (start.regs .commandListBase).isLt

theorem readOk_header {i : Instr}
    (hi : i.pointer = some (.readHeader, (start.regs .commandListBase).toNat)) (w : Host) :
    ReadOk start i w := by
  intro p a hp _
  rw [hi] at hp
  obtain ⟨rfl, rfl⟩ := Prod.mk.inj (Option.some.inj hp)
  exact list_eq_iff start

/-- The table address that `Read` loads. -/
def lowTable (start : Host) : Nat :=
  start.mem.loadLE ((start.regs .commandListBase).toNat + commandTableBaseAddress) 4

theorem readOk_table {i : Instr} (hi : i.pointer = some (.readTable, lowTable start)) (w : Host) :
    ReadOk start i w := by
  intro p a hp hlist
  rw [hi] at hp
  obtain ⟨rfl, rfl⟩ := Prod.mk.inj (Option.some.inj hp)
  have hlt : lowTable start < 256 ^ 4 := Mem.loadLE_lt _ _ _
  show lowTable start = programmed start (.commandTable 0) ↔
    programmed start (.commandTable 0) < 2 ^ 32
  have hlow : start.mem.loadLE (programmed start .commandList +
      (commandHeaderSize * 0 + commandTableBaseAddress)) 4 = lowTable start := by
    rw [lowTable, (list_eq_iff start).mpr (hlist rfl), Nat.mul_zero, Nat.zero_add]
  rw [programmed_commandTable, hlow]
  exact low_eq_iff (by omega)

/-- The loads that `Read` takes the table address from. -/
def KeepsTable (start w : Host) : Prop :=
  w.mem.loadLE ((start.regs .commandListBase).toNat + commandTableBaseAddress) 4 = lowTable start

theorem stable_keepsTable : Stable (sharedWorld alloc) (KeepsTable start) :=
  stable_bases fun w w' _ hh hw => by rw [KeepsTable, Host.mem, hh]; exact hw

/-- Storing in the first eight bytes of the header. -/
theorem KeepsTable.store {w : Host} (h : KeepsTable start w) {o k : Nat} (ho : o + k ≤ 8)
    (v : Nat) : KeepsTable start
      (w.withMem (w.mem.storeLE ((start.regs .commandListBase).toNat + o) v k)) :=
  (Mem.loadLE_storeLE_apart v (Mem.apart_offsets _ (Or.inl ho) (by omega) (by decide))).trans h

theorem storeHeader_ok {o k v : Nat} (ho : o + k ≤ 8) :
    Triple (sharedWorld alloc) (ReadOk start) (KeepsTable start)
      (store .readHeader (start.regs .commandListBase).toNat o v k)
      fun _ => KeepsTable start := by
  refine triple_issue stable_keepsTable (fun _ => stable_keepsTable)
    (fun w _ => readOk_header rfl w) fun w _ w' hw hx => ?_
  rw [show w' = _ from hx]
  exact hw.store ho v

theorem storeBitsHeader_ok {o k s n v : Nat} (ho : o + k ≤ 8) :
    Triple (sharedWorld alloc) (ReadOk start) (KeepsTable start)
      (storeBits .readHeader (start.regs .commandListBase).toNat o k s n v)
      fun _ => KeepsTable start := by
  unfold storeBits
  refine triple_bind (R := fun _ => KeepsTable start) (triple_issue stable_keepsTable
    (fun _ => stable_keepsTable) (fun w _ => readOk_header rfl w) fun w _ w' hw hx => ?_)
    fun old => storeHeader_ok ho
  rw [hx.2]
  exact hw

/-- `Read` reaches the header through the low register and the table through the low field. -/
theorem readHeader_ok :
    Triple (sharedWorld alloc) (ReadOk start)
      (fun w => w.regs .commandListBase = start.regs .commandListBase ∧ KeepsTable start w)
      readHeader fun commandTable _ => True ∧ commandTable = lowTable start := by
  have hbegin : Stable (sharedWorld alloc) fun w =>
      w.regs .commandListBase = start.regs .commandListBase ∧ KeepsTable start w :=
    Stable.and (stable_bases fun w w' hr _ hw => (hr .commandListBase rfl).trans hw)
      stable_keepsTable
  unfold readHeader
  refine triple_bind (R := fun low w => KeepsTable start w ∧ low = start.regs .commandListBase)
    (triple_issue hbegin (fun _ => stable_keepsTable.and (stable_const _))
      (fun w _ => readOk_none rfl w) fun w low w' hw hx => ?_) fun low => ?_
  · rw [hx.2]
    exact ⟨hw.2, hx.1.trans hw.1⟩
  refine triple_fact fun hlow => ?_
  rw [hlow]
  refine triple_bind (storeBitsHeader_ok (by decide)) fun _ => ?_
  refine triple_bind (storeBitsHeader_ok (by decide)) fun _ => ?_
  refine triple_bind (storeHeader_ok (by decide)) fun _ => ?_
  refine triple_bind (R := fun commandTable _ => True ∧ commandTable = lowTable start)
    (triple_issue stable_keepsTable (fun _ => stable_const _) (fun w _ => readOk_header rfl w)
      fun w commandTable w' hw hx => ⟨trivial, hx.1.trans hw⟩) fun commandTable => ?_
  refine triple_fact fun htable => ?_
  rw [htable]
  refine triple_bind (R := fun _ _ => True) (triple_issue (stable_const _)
    (fun _ => stable_const _) (fun w _ => readOk_header rfl w) fun _ _ _ _ _ => trivial)
    fun entries => ?_
  refine triple_bind (R := fun _ _ => True) (triple_issue (stable_const _)
    (fun _ => stable_const _) (fun w _ => readOk_table rfl w) fun _ _ _ _ _ => trivial)
    fun _ => ?_
  exact triple_ret (stable_const _) fun _ _ => ⟨trivial, rfl⟩

theorem readCommand_only (commandTable sector sectorCount buffer : Nat) :
    (readCommand commandTable sector sectorCount buffer).Only
      fun i => i.pointer = some (.readTable, commandTable) := by
  iterate 19 refine ⟨rfl, fun _ => ?_⟩
  trivial

theorem read_ok (fuel sector sectorCount buffer : Nat) :
    wp (sharedWorld alloc) (ReadOk start) (read fuel sector sectorCount buffer)
      (fun _ _ => True) start := by
  have hfree : ∀ {α : Type} {p : Code α}, p.Only (fun i => i.pointer = none) →
      Triple (sharedWorld alloc) (ReadOk start) (fun _ => True) p fun _ _ => True :=
    fun hp w _ => wp_of_only (hp.mono fun i hi w => readOk_none hi w) w
  have hread : Triple (sharedWorld alloc) (ReadOk start) (fun w =>
      w.regs .commandListBase = start.regs .commandListBase ∧ KeepsTable start w)
      (read fuel sector sectorCount buffer) fun _ _ => True := by
    have hbegin : Stable (sharedWorld alloc) fun w =>
        w.regs .commandListBase = start.regs .commandListBase ∧ KeepsTable start w :=
      Stable.and (stable_bases fun w w' hr _ hw => (hr .commandListBase rfl).trans hw)
        stable_keepsTable
    unfold read
    refine triple_bind (triple_issue hbegin (fun _ => hbegin) (fun w _ => readOk_none rfl w)
      fun w _ w' hw hx => ?_) fun _ => ?_
    · refine ⟨(hx.1 .commandListBase rfl).trans hw.1, ?_⟩
      rw [KeepsTable, Host.mem, hx.2]
      exact hw.2
    refine triple_bind readHeader_ok fun commandTable => triple_fact fun htable => ?_
    rw [htable]
    refine triple_bind (R := fun _ _ => True) (fun w _ => wp_of_only
      ((readCommand_only _ _ _ _).mono fun i hi w => readOk_table hi w) w) fun _ => ?_
    refine triple_bind (hfree ((spinOut_only 1000000).mono ?_)) fun out => ?_
    · rintro _ rfl
      rfl
    split
    · exact triple_ret (stable_const _) fun _ _ => trivial
    · refine triple_bind (hfree ⟨rfl, fun _ => trivial⟩) fun _ =>
        hfree ((awaitCommand_only fuel).mono ?_)
      rintro _ (rfl | rfl) <;> rfl
  exact hread start ⟨rfl, rfl⟩

end Read

/-! ## The two together -/

/-- The adapter takes every write. -/
def latchingWrite (r : PortRegs) (q : PortReg) (v : BitVec 32) : PortRegs :=
  fun b => if b = q then v else r b

theorem latching_answers (alloc : Alloc) (i : Instr) (w : Host) : ∃ x w',
    (sharedWorld alloc).exec i w x w' :=
  ⟨_, _, answering_exec latchingWrite (fun h n => ((alloc h n).1.toNat, (alloc h n).2))
    (fun _ _ _ _ _ => rfl) (fun _ _ => ⟨rfl, rfl⟩) i w⟩

/-- Instructions answered by such an adapter and by `malloc`. -/
theorem reach_answering (alloc : Alloc) {α : Type} (n : Nat) (c : Code α × Host) :
    Reach (sharedWorld alloc) c
      (drive (answering latchingWrite fun h n => ((alloc h n).1.toNat, (alloc h n).2)) n c) :=
  reach_drive (fun i w => ⟨w, Relation.ReflTransGen.refl,
    answering_exec _ _ (fun _ _ _ _ _ => rfl) (fun _ _ => ⟨rfl, rfl⟩) i w⟩) n c

/-- The adapter may clear any other register at any time. -/
def Host.clear (w : Host) (q : PortReg) : Host :=
  { w with regs := fun r => if r = q then 0 else w.regs r }

theorem idle_clear (M : Allocator) {q : PortReg} (hq : q.isBase = false) (w : Host) :
    Idle (ahciWorld latching M) w (w.clear q) := by
  refine Relation.ReflTransGen.single ⟨fun r hr => if_neg ?_, rfl⟩
  rintro rfl
  rw [hq] at hr
  cases hr

theorem reach_stopped (M : Allocator) {α : Type} (rest : Unit → Code α) (w : Host) :
    Reach (ahciWorld latching M) (.repeatUntil commandStopped 1 >>= rest, w)
      (rest (), w.clear .cmdSts) := by
  have hread : (ahciWorld latching M).exec (.readReg .cmdSts) (w.clear .cmdSts) (0 : BitVec 32)
      (w.clear .cmdSts) := ⟨rfl, rfl⟩
  exact ((reach_idle (idle_clear M rfl w)).tail (Step.issue hread)).tail (Step.issue hread)

/-- `StopCMD` and `StartCMD` can return, with the heap as it was. -/
theorem reach_stopCMD (M : Allocator) {α : Type} (rest : Unit → Code α) (w : Host) :
    ∃ w', w'.heap = w.heap ∧
      Reach (ahciWorld latching M) (stopCMD 1 >>= rest, w) (rest (), w') := by
  have hread : ∀ v : Host, (ahciWorld latching M).exec (.readReg .cmdSts) v (v.regs .cmdSts) v :=
    fun _ => ⟨rfl, rfl⟩
  have hwrite : ∀ (v : Host) x, (ahciWorld latching M).exec (.writeReg .cmdSts x) v ()
      { v with regs := latchingWrite v.regs .cmdSts x } := fun _ _ => ⟨fun _ _ => rfl, rfl⟩
  refine ⟨_, ?_, Relation.ReflTransGen.head (Step.issue (hread w))
    (Relation.ReflTransGen.head (Step.issue (hwrite _ _))
      (Relation.ReflTransGen.head (Step.issue (hread _))
        (Relation.ReflTransGen.head (Step.issue (hwrite _ _)) (reach_stopped M rest _))))⟩
  rfl

theorem reach_startCMD (M : Allocator) (w : Host) :
    ∃ w', Reach (ahciWorld latching M) (startCMD 1, w) (.ret (), w') := by
  have hstopped : (ahciWorld latching M).exec (.readReg .cmdSts) (w.clear .cmdSts)
      (0 : BitVec 32) (w.clear .cmdSts) := ⟨rfl, rfl⟩
  have hread : ∀ v : Host, (ahciWorld latching M).exec (.readReg .cmdSts) v (v.regs .cmdSts) v :=
    fun _ => ⟨rfl, rfl⟩
  have hwrite : ∀ (v : Host) x, (ahciWorld latching M).exec (.writeReg .cmdSts x) v ()
      { v with regs := latchingWrite v.regs .cmdSts x } := fun _ _ => ⟨fun _ _ => rfl, rfl⟩
  exact ⟨_, (reach_idle (idle_clear M rfl w)).trans (Relation.ReflTransGen.head
    (Step.issue hstopped) (Relation.ReflTransGen.head (Step.issue (hread _))
      (Relation.ReflTransGen.head (Step.issue (hwrite _ _))
        (Relation.ReflTransGen.head (Step.issue (hread _))
          (Relation.ReflTransGen.single (Step.issue (hwrite _ _)))))))⟩

/-- Every `Configure` can get to the clearing of table 1. -/
theorem clearing_reached (alloc : Alloc) (start : Host) :
    ∃ a v n k w, Reach (sharedWorld alloc) (configure 1, start)
      (.op (.memset (.configureTable 1) a v n) k, w) := by
  obtain ⟨w, -, hstop⟩ := reach_stopCMD _ (fun _ => configureStopped >>= fun _ => startCMD 1) start
  exact ⟨_, _, _, _, _, hstop.trans (reach_answering alloc 20 _)⟩

theorem not_sameStructures (alloc : Alloc) (start : Host) : ¬ SameStructures alloc start := by
  intro h
  obtain ⟨a, v, n, k, w, hreach⟩ := clearing_reached alloc start
  have hrun := reach_bind (fun _ => read 1 0 0 0) hreach
  have hsame := h 1 0 0 0 _ _ w (.configureTable 1) a hrun rfl
  have hone := (wp_ok (wp_reach (configure_ok 1 start trivial) hreach) _ _ rfl).mp hsame
  exact absurd hone Nat.one_ne_zero

/-- No run of `Configure` has all its accesses at the adapter's addresses. The command list is
    cleared there when its address is below `2 ^ 32`, the command table of slot 0 always, the
    other tables never; `Read` finds the header and the table there when their addresses are
    below `2 ^ 32`. -/
theorem structures_same (alloc : Alloc) (start : Host) :
    ¬ SameStructures alloc start ∧
    (∀ fuel i k w p a, Reach (sharedWorld alloc) (configure fuel, start) (.op i k, w) →
      i.pointer = some (p, a) → (a = programmed w p.structure ↔ ConfigureSame w p)) ∧
    ∀ fuel sector sectorCount buffer i k w p a,
      Reach (sharedWorld alloc) (read fuel sector sectorCount buffer, start) (.op i k, w) →
      i.pointer = some (p, a) →
      (p = .readTable → programmed start .commandList < 2 ^ 32) →
      (a = programmed start p.structure ↔ programmed start p.structure < 2 ^ 32) := by
  refine ⟨not_sameStructures alloc start, ?_, ?_⟩
  · intro fuel i k w p a hreach hp
    exact wp_ok (wp_reach (configure_ok fuel start trivial) hreach) p a hp
  · intro fuel sector sectorCount buffer i k w p a hreach hp hlist
    exact wp_ok (wp_reach (read_ok fuel sector sectorCount buffer) hreach) p a hp hlist

/-- With a `malloc` that always answers `2 ^ 32 + 2 ^ 12` the list is cleared at `2 ^ 12`. -/
theorem low_half_cleared : ¬ SameStructures (fun h _ => (0x100001000, h))
    ⟨fun _ => 0, bootHeap fun _ => 0⟩ := by
  intro h
  have hdrive : ∃ k w, drive (answering latchingWrite fun h _ => (0x100001000, h)) 10
      (configure 1, ⟨fun _ => 0, bootHeap fun _ => 0⟩) =
        (.op (.memset .configureList 0x1000 0 1024) k, w) ∧
      programmed w .commandList = 0x100001000 := ⟨_, _, rfl, rfl⟩
  obtain ⟨k, w, hdrive, hlist⟩ := hdrive
  have hreach : Reach (sharedWorld fun h _ => (0x100001000, h))
      (configure 1, ⟨fun _ => 0, bootHeap fun _ => 0⟩)
      (.op (.memset .configureList 0x1000 0 1024) k, w) := by
    rw [← hdrive]
    exact reach_answering _ 10 _
  have hrun := reach_bind (fun _ => read 1 0 0 0) hreach
  have hsame := h 1 0 0 0 _ _ w .configureList 0x1000 hrun rfl
  rw [show programmed w (Pointer.structure .configureList) = _ from hlist] at hsame
  exact absurd hsame (by decide)

end SeshOS.Disks
