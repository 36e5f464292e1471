/-
  One port at work: `StopCMD`, `StartCMD`, `Configure` and `Read` (disks/sata.c).

  Each is a program whose instructions are the accesses of the code, one at a time: to the
  registers of the port, to the structures in memory that the adapter reads too, and to
  `malloc`. A memory access names the pointer of the source it goes through. What the registers
  do between two accesses is up to the `Controller` and what `malloc` answers is a relation, so
  that each result says how much it needs to know of the two.

  The loops that wait for a register are cut off after `fuel` rounds; results hold for every
  `fuel`. `port->hbaPort` is the same port throughout.
-/
import SeshOS.Base.Prog
import SeshOS.Memory.Malloc
import SeshOS.Disks.Ahci

namespace SeshOS.Disks

open Base SeshOS.Memory

/-! ## Accesses -/

/-- The pointers to structures that the adapter shares. -/
inductive Pointer where
  /-- `(void*)(port->hbaPort->commandListBase)`, in `Configure`. -/
  | configureList
  /-- `fisBase`. -/
  | configureFis
  /-- `cmdHeader`, in `Configure`. -/
  | configureHeader
  /-- `cmdTableAddress` of round `i`. -/
  | configureTable (i : Nat)
  /-- `cmdHeader`, in `Read`. -/
  | readHeader
  /-- `commandTable`. -/
  | readTable
deriving DecidableEq

/-- One access of the code. Memory accesses are at `a + o`, with `k` bytes. -/
inductive Instr where
  | readReg (r : PortReg)
  | writeReg (r : PortReg) (v : BitVec 32)
  | malloc (size : Nat)
  | load (p : Pointer) (a o k : Nat)
  | store (p : Pointer) (a o v k : Nat)
  | memset (p : Pointer) (a : Nat) (v : Byte) (k : Nat)
deriving DecidableEq

/-- What an access gives back. -/
def Answer : Instr → Type
  | .readReg _ => BitVec 32
  | .malloc _ => Nat
  | .load _ _ _ _ => Nat
  | _ => Unit

abbrev Code := Prog Instr Answer

def readReg (r : PortReg) : Code (BitVec 32) := .op (.readReg r) .ret
def writeReg (r : PortReg) (v : BitVec 32) : Code Unit := .op (.writeReg r v) .ret
def malloc (size : Nat) : Code Nat := .op (.malloc size) .ret
def load (p : Pointer) (a o k : Nat) : Code Nat := .op (.load p a o k) .ret
def store (p : Pointer) (a o v k : Nat) : Code Unit := .op (.store p a o v k) .ret
def memset (p : Pointer) (a : Nat) (v : Byte) (k : Nat) : Code Unit := .op (.memset p a v k) .ret

/-! ## StopCMD and StartCMD -/

def hbaPxCmdCr : BitVec 32 := 0x8000
def hbaPxCmdFre : BitVec 32 := 0x0010
def hbaPxCmdSt : BitVec 32 := 0x0001
def hbaPxCmdFr : BitVec 32 := 0x4000

/-- One round of the loop of `StopCMD`: whether it is left. -/
def commandStopped : Code Bool := do
  if (← readReg .cmdSts) &&& hbaPxCmdFr ≠ 0 then
    return false
  if (← readReg .cmdSts) &&& hbaPxCmdCr ≠ 0 then
    return false
  return true

def stopCMD (fuel : Nat) : Code Unit := do
  writeReg .cmdSts ((← readReg .cmdSts) &&& ~~~hbaPxCmdSt)
  writeReg .cmdSts ((← readReg .cmdSts) &&& ~~~hbaPxCmdFre)
  .repeatUntil commandStopped fuel

/-- One round of the loop of `StartCMD`: whether it is left. -/
def listStopped : Code Bool := do
  return (← readReg .cmdSts) &&& hbaPxCmdCr = 0

def startCMD (fuel : Nat) : Code Unit := do
  .repeatUntil listStopped fuel
  writeReg .cmdSts ((← readReg .cmdSts) ||| hbaPxCmdFre)
  writeReg .cmdSts ((← readReg .cmdSts) ||| hbaPxCmdSt)

/-- What the two use: the command register. -/
def AtCommand (i : Instr) : Prop := i = .readReg .cmdSts ∨ ∃ v, i = .writeReg .cmdSts v

theorem stopCMD_only (fuel : Nat) : (stopCMD fuel).Only AtCommand := by
  have hread : (readReg .cmdSts).Only AtCommand := ⟨Or.inl rfl, fun _ => trivial⟩
  have hwrite : ∀ v, (writeReg .cmdSts v).Only AtCommand :=
    fun v => ⟨Or.inr ⟨v, rfl⟩, fun _ => trivial⟩
  unfold stopCMD
  refine Prog.Only.bind hread fun v => Prog.Only.bind (hwrite _) fun _ => ?_
  refine Prog.Only.bind hread fun v => Prog.Only.bind (hwrite _) fun _ => ?_
  refine Prog.Only.repeatUntil (Prog.Only.bind hread fun v => ?_) fuel
  split
  · trivial
  · refine Prog.Only.bind hread fun v => ?_
    split <;> trivial

theorem startCMD_only (fuel : Nat) : (startCMD fuel).Only AtCommand := by
  have hread : (readReg .cmdSts).Only AtCommand := ⟨Or.inl rfl, fun _ => trivial⟩
  have hwrite : ∀ v, (writeReg .cmdSts v).Only AtCommand :=
    fun v => ⟨Or.inr ⟨v, rfl⟩, fun _ => trivial⟩
  have hround : listStopped.Only AtCommand := Prog.Only.bind hread fun _ => trivial
  unfold startCMD
  refine Prog.Only.bind (hround.repeatUntil fuel) fun _ => ?_
  refine Prog.Only.bind hread fun v => Prog.Only.bind (hwrite _) fun _ => ?_
  exact Prog.Only.bind hread fun v => hwrite _

/-! ## Configure -/

/-- `(uint32_t)(uint64_t)p` and `(uint32_t)((uint64_t)p >> 32)`. -/
def lowHalf (p : Nat) : BitVec 32 := BitVec.ofNat 32 p
def highHalf (p : Nat) : BitVec 32 := BitVec.ofNat 32 (p >>> 32)

/-- The 64-bit address of two halves. -/
def joined (low high : Nat) : Nat := low + high <<< 32

/-- `sizeof(HBACommandHeader)`, and the offsets of its fields that are used. The bit fields
    `commandFISLength` (0 to 4) and `write` (6) share the first byte. -/
def commandHeaderSize : Nat := 32
def prdtLength : Nat := 2
def commandTableBaseAddress : Nat := 8
def commandTableBaseAddressUpper : Nat := 12

/-- One round of the loop of `Configure`. -/
def configureSlot (cmdHeader i : Nat) : Code Unit := do
  store .configureHeader cmdHeader (commandHeaderSize * i + prdtLength) 8 2
  let cmdTableAddress ← malloc 4096
  let address := (cmdTableAddress + (i <<< 8)) % 2 ^ 64
  store .configureHeader cmdHeader (commandHeaderSize * i + commandTableBaseAddress)
    (lowHalf address).toNat 4
  store .configureHeader cmdHeader (commandHeaderSize * i + commandTableBaseAddressUpper)
    (highHalf address).toNat 4
  memset (.configureTable i) cmdTableAddress 0 256

/-- `Configure` between `StopCMD` and `StartCMD`. -/
def configureStopped : Code Unit := do
  let newBase ← malloc 4096
  writeReg .commandListBase (lowHalf newBase)
  writeReg .commandListBaseUpper (highHalf newBase)
  memset .configureList (← readReg .commandListBase).toNat 0 1024
  let fisBase ← malloc 4096
  writeReg .fisBaseAddress (lowHalf fisBase)
  writeReg .fisBaseAddressUpper (highHalf fisBase)
  memset .configureFis fisBase 0 256
  let cmdHeader := joined (← readReg .commandListBase).toNat
    (← readReg .commandListBaseUpper).toNat
  .walk (configureSlot cmdHeader) (List.range 32)

def configure (fuel : Nat) : Code Unit := do
  stopCMD fuel
  configureStopped
  startCMD fuel

/-! ## Read -/

def ataDevBusy : BitVec 32 := 0x80
def ataDevDrq : BitVec 32 := 0x08
def ataCmdReadDmaEx : Nat := 0x25
def hbaPxIsTfes : BitVec 32 := 1 <<< 30

/-- `FIS_TYPE_REG_H2D`, `sizeof(FIS_REG_H2D)`, `sizeof(HBACommandTable)` and
    `sizeof(HBAPRDTEntry)`. -/
def fisTypeRegH2D : Nat := 0x27
def fisRegH2DSize : Nat := 20
def commandTableSize : Nat := 128
def prdtEntrySize : Nat := 16

/-- Assign `v` to the `n` bits from bit `s` on of the `k` bytes at `a + o`. -/
def storeBits (p : Pointer) (a o k s n v : Nat) : Code Unit := do
  let old ← load p a o k
  store p a o (old - old / 2 ^ s % 2 ^ n * 2 ^ s + v % 2 ^ n * 2 ^ s) k

/-- The header of slot 0, down to the clearing of the command table; gives the table. -/
def readHeader : Code Nat := do
  let cmdHeader := (← readReg .commandListBase).toNat
  storeBits .readHeader cmdHeader 0 1 0 5 (fisRegH2DSize / 4)
  storeBits .readHeader cmdHeader 0 1 6 1 0
  store .readHeader cmdHeader prdtLength 1 2
  let commandTable ← load .readHeader cmdHeader commandTableBaseAddress 4
  let entries ← load .readHeader cmdHeader prdtLength 2
  memset .readTable commandTable 0 (commandTableSize + entries * prdtEntrySize - prdtEntrySize)
  return commandTable

/-- The PRDT entry and the command FIS. The source assigns `lba4` twice and never `lba5`. -/
def readCommand (commandTable sector sectorCount buffer : Nat) : Code Unit := do
  let sectorL := sector % 2 ^ 32
  let sectorH := sector >>> 32 % 2 ^ 32
  store .readTable commandTable 128 (lowHalf buffer).toNat 4
  store .readTable commandTable 132 (highHalf buffer).toNat 4
  storeBits .readTable commandTable 140 4 0 22 ((sectorCount <<< 9 % 2 ^ 32 + 2 ^ 32 - 1) % 2 ^ 32)
  storeBits .readTable commandTable 140 4 31 1 1
  store .readTable commandTable 0 fisTypeRegH2D 1
  storeBits .readTable commandTable 1 1 7 1 1
  store .readTable commandTable 2 ataCmdReadDmaEx 1
  store .readTable commandTable 4 sectorL 1
  store .readTable commandTable 5 (sectorL >>> 8) 1
  store .readTable commandTable 6 (sectorL >>> 16) 1
  store .readTable commandTable 8 sectorH 1
  store .readTable commandTable 9 (sectorH >>> 8) 1
  store .readTable commandTable 9 (sectorH >>> 16) 1
  store .readTable commandTable 7 (1 <<< 6) 1
  store .readTable commandTable 12 (sectorCount &&& 0xFF) 1
  store .readTable commandTable 13 (sectorCount >>> 8 &&& 0xFF) 1

/-- The wait for the drive, with `left` = 1000000 - `spin`; gives `spin == 1000000`. -/
def spinOut : Nat → Code Bool
  | 0 => do
    let _ ← readReg .taskFileData
    return true
  | left + 1 => do
    if (← readReg .taskFileData) &&& (ataDevBusy ||| ataDevDrq) ≠ 0 then spinOut left
    else return false

/-- The wait for the command: what `Read` returns. -/
def awaitCommand : Nat → Code Nat
  | 0 => .stuck
  | fuel + 1 => do
    if (← readReg .commandIssue) = 0 then return 1
    if (← readReg .interruptStatus) &&& hbaPxIsTfes ≠ 0 then return 0
    awaitCommand fuel

/-- The two loops only read registers. -/
theorem spinOut_only (left : Nat) : (spinOut left).Only fun i => i = .readReg .taskFileData := by
  induction left with
  | zero => exact ⟨rfl, fun _ => trivial⟩
  | succ left ih =>
    unfold spinOut
    refine Prog.Only.bind ⟨rfl, fun _ => trivial⟩ fun v => ?_
    split
    · exact ih
    · trivial

theorem awaitCommand_only (fuel : Nat) : (awaitCommand fuel).Only
    fun i => i = .readReg .commandIssue ∨ i = .readReg .interruptStatus := by
  induction fuel with
  | zero => trivial
  | succ fuel ih =>
    unfold awaitCommand
    refine Prog.Only.bind ⟨Or.inl rfl, fun _ => trivial⟩ fun v => ?_
    split
    · trivial
    · refine Prog.Only.bind ⟨Or.inr rfl, fun _ => trivial⟩ fun v => ?_
      split
      · trivial
      · exact ih

def read (fuel sector sectorCount buffer : Nat) : Code Nat := do
  writeReg .interruptStatus (BitVec.allOnes 32)
  let commandTable ← readHeader
  readCommand commandTable sector sectorCount buffer
  if ← spinOut 1000000 then return 0
  writeReg .commandIssue 1
  awaitCommand fuel

/-! ## What the code runs against -/

/-- The registers of the port. -/
abbrev PortRegs := PortReg → BitVec 32

/-- The registers that say where the port's structures are. -/
def PortReg.isBase : PortReg → Bool
  | .commandListBase | .commandListBaseUpper | .fisBaseAddress | .fisBaseAddressUpper => true
  | _ => false

/-- The adapter: what it does to the registers on its own, and what a write of the code does. -/
structure Controller where
  tick : PortRegs → PortRegs → Prop
  write : PortRegs → PortReg → BitVec 32 → PortRegs → Prop

structure Host where
  regs : PortRegs
  heap : Heap

/-- The memory of the host. -/
def Host.mem (w : Host) : Mem := w.heap.mem

def Host.withMem (w : Host) (m : Mem) : Host := { w with heap := { w.heap with mem := m } }

/-- What a run of the code has issued. -/
abbrev Record := List (Event Instr Answer)

/-- What `malloc` may answer: the pointer and the heap after the call. -/
abbrev Allocator := Heap → Nat → Nat → Heap → Prop

/-- The world the code runs in. -/
def ahciWorld (C : Controller) (M : Allocator) : World Instr Answer Host where
  exec
    | .readReg r, w, x, w' => x = w.regs r ∧ w' = w
    | .writeReg r v, w, _, w' => C.write w.regs r v w'.regs ∧ w'.heap = w.heap
    | .malloc size, w, p, w' => M w.heap size p w'.heap ∧ w'.regs = w.regs
    | .load _ a o k, w, x, w' => x = w.mem.loadLE (a + o) k ∧ w' = w
    | .store _ a o v k, w, _, w' => w' = w.withMem (w.mem.storeLE (a + o) v k)
    | .memset _ a v k, w, _, w' => w' = w.withMem (w.mem.fill a v k)
  tick w w' := C.tick w.regs w'.regs ∧ w'.heap = w.heap

/-- A world that answers by functions: what a write does to the registers, and `malloc`. -/
def answering (write : PortRegs → PortReg → BitVec 32 → PortRegs)
    (alloc : Heap → Nat → Nat × Heap) : (i : Instr) → Host → Answer i × Host
  | .readReg r, w => (w.regs r, w)
  | .writeReg r v, w => ((), { w with regs := write w.regs r v })
  | .malloc size, w => ((alloc w.heap size).1, { w with heap := (alloc w.heap size).2 })
  | .load _ a o k, w => (w.mem.loadLE (a + o) k, w)
  | .store _ a o v k, w => ((), w.withMem (w.mem.storeLE (a + o) v k))
  | .memset _ a v k, w => ((), w.withMem (w.mem.fill a v k))

theorem answering_exec {C : Controller} {M : Allocator}
    (write : PortRegs → PortReg → BitVec 32 → PortRegs) (alloc : Heap → Nat → Nat × Heap)
    (hw : ∀ r q v, C.write r q v (write r q v))
    (ha : ∀ h n, M h n (alloc h n).1 (alloc h n).2) (i : Instr) (w : Host) :
    (ahciWorld C M).exec i w (answering write alloc i w).1 (answering write alloc i w).2 := by
  cases i with
  | readReg r => exact ⟨rfl, rfl⟩
  | writeReg r v => exact ⟨hw w.regs r v, rfl⟩
  | malloc size => exact ⟨ha w.heap size, rfl⟩
  | load p a o k => exact ⟨rfl, rfl⟩
  | store p a o v k => rfl
  | memset p a v k => rfl

end SeshOS.Disks
