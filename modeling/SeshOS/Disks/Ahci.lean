/-
  An AHCI host bus adapter as `disks/sata.h` lays it out, and `CheckPortType` of `disks/sata.c`.

  The adapter's registers are 32-bit cells with addresses of their own; the driver's structures
  lie in memory. Both kinds of address are numbers below `2 ^ 64`.
-/
import SeshOS.Base.Bytes

namespace SeshOS.Disks

open Base

/-- The registers of the adapter, by address. -/
abbrev Regs := Nat → BitVec 32

/-- `HBAMemory::portsImplemented`. -/
def portsImplemented (regs : Regs) (abar : Nat) : BitVec 32 := regs ((abar + 0x0C) % 2 ^ 64)

/-- `&abar->ports[i]`. -/
def hbaPorts (abar i : Nat) : Nat := (abar + 0x100 + 0x80 * i) % 2 ^ 64

/-- The registers of an `HBAPort` that the driver uses. -/
inductive PortReg where
  | commandListBase
  | commandListBaseUpper
  | fisBaseAddress
  | fisBaseAddressUpper
  | interruptStatus
  | cmdSts
  | taskFileData
  | signature
  | sataStatus
  | commandIssue
deriving DecidableEq

/-- Where a register lies in its `HBAPort`. -/
def PortReg.offset : PortReg → Nat
  | .commandListBase => 0x00
  | .commandListBaseUpper => 0x04
  | .fisBaseAddress => 0x08
  | .fisBaseAddressUpper => 0x0C
  | .interruptStatus => 0x10
  | .cmdSts => 0x18
  | .taskFileData => 0x20
  | .signature => 0x24
  | .sataStatus => 0x28
  | .commandIssue => 0x38

/-- A register of the port at `port`. -/
def Regs.at (regs : Regs) (port : Nat) (r : PortReg) : BitVec 32 :=
  regs ((port + r.offset) % 2 ^ 64)

/-- A mask of one bit. -/
theorem and_bit_iff (v : BitVec 32) {i : Nat} (hi : i < 32) :
    v &&& (1#32 <<< i) ≠ 0 ↔ v.getLsbD i = true := by
  have hne : BitVec.twoPow 32 i ≠ 0 := by
    intro h
    have hbit : (BitVec.twoPow 32 i).getLsbD i = true := by simp [hi]
    rw [h] at hbit
    simp at hbit
  rw [← BitVec.twoPow_eq, BitVec.and_twoPow]
  cases v.getLsbD i
  · simp
  · simpa using hne

/-! ## Port types -/

inductive PortType where
  | none
  | sata
  | semb
  | pm
  | satapi
deriving DecidableEq

/-- The values of the C enumeration. -/
def PortType.toNat : PortType → Nat
  | .none => 0
  | .sata => 1
  | .semb => 2
  | .pm => 3
  | .satapi => 4

def hbaPortDevPresent : BitVec 8 := 0x3
def hbaPortIpmActive : BitVec 8 := 0x1
def sataSigAtapi : BitVec 32 := 0xEB140101
def sataSigAta : BitVec 32 := 0x00000101
def sataSigSemb : BitVec 32 := 0xC33C0101
def sataSigPm : BitVec 32 := 0x96690101

/-- `CheckPortType`. -/
def checkPortType (regs : Regs) (port : Nat) : PortType :=
  let sataStatus := regs.at port .sataStatus
  let interfacePowerManagement := ((sataStatus >>> 8) &&& 0b111).setWidth 8
  let deviceDetection := (sataStatus &&& 0b111).setWidth 8
  if deviceDetection ≠ hbaPortDevPresent then .none
  else if interfacePowerManagement ≠ hbaPortIpmActive then .none
  else
    let signature := regs.at port .signature
    if signature = sataSigAtapi then .satapi
    else if signature = sataSigAta then .sata
    else if signature = sataSigPm then .pm
    else if signature = sataSigSemb then .semb
    else .none

/-! ## AHCIDriver and Port -/

/-- `sizeof(AHCIDriver)` and `sizeof(Port)`. -/
def ahciDriverSize : Nat := 280
def portSize : Nat := 32

/-- `driver->ABAR`. -/
def driverAbar (m : Mem) (driver : Nat) : Nat := m.loadLE (driver + 8) 8

/-- `driver->ports[k]`; the array has 32 elements. -/
def driverPort (m : Mem) (driver k : Nat) : Nat := m.loadLE (driver + (16 + 8 * k)) 8

/-- `driver->portCount`, a `uint8_t`. -/
def driverPortCount (m : Mem) (driver : Nat) : Nat := m.loadLE (driver + 272) 1

/-- `port->hbaPort`. -/
def portHbaPort (m : Mem) (port : Nat) : Nat := m.loadLE port 8

/-- `port->portType`. -/
def portPortType (m : Mem) (port : Nat) : Nat := m.loadLE (port + 8) 4

end SeshOS.Disks
