/-
  PCI enumeration: `pci/pci.c`, with the tables of `acpi/acpi.h`.

  Configuration space and the MCFG are memory that enumeration only reads, by address. What it
  gives is the list of functions that `EnumerateFunction` gets past its tests with, in order,
  with the header fields it prints and whether it starts the AHCI driver. `mem_enumeratePCI`
  says which functions these are, over all four levels.

  What the code does with a function it has found is taken to return and to leave the MCFG and
  configuration space alone: the line it prints, which for a class from 20 on reads behind
  `DeviceClasses`, and `AHCIDriver_Init`.
-/
import SeshOS.Base.Bytes

namespace SeshOS.Pci

open Base

/-! ## pci.c -/

/-- A function that was found: the entry, bus, device and function number of the loops it was
    found in, its address, and the fields of its header that are used. -/
structure Found where
  entry : Nat
  bus : Nat
  device : Nat
  function : Nat
  address : Nat
  vendorID : Nat
  deviceID : Nat
  progIF : Nat
  subclass : Nat
  class_ : Nat
deriving DecidableEq

/-- `DeviceID` of a `PCIDeviceHeader`. -/
def deviceID (m : Mem) (header : Nat) : Nat := m.loadLE (header + 2) 2

/-- The header at `functionAddress`, found in these loops. -/
def found (m : Mem) (entry bus device function functionAddress : Nat) : Found where
  entry := entry
  bus := bus
  device := device
  function := function
  address := functionAddress
  vendorID := m.loadLE functionAddress 2
  deviceID := deviceID m functionAddress
  progIF := m.loadLE (functionAddress + 9) 1
  subclass := m.loadLE (functionAddress + 10) 1
  class_ := m.loadLE (functionAddress + 11) 1

/-- The switch of `EnumerateFunction`: mass storage, serial ATA, AHCI 1.0. -/
def Found.startsAhci (p : Found) : Bool := p.class_ = 0x01 ∧ p.subclass = 0x06 ∧ p.progIF = 0x01

def functionAddress (deviceAddress function : Nat) : Nat :=
  (deviceAddress + (function <<< 12)) % 2 ^ 64

def deviceAddress (busAddress device : Nat) : Nat := (busAddress + (device <<< 15)) % 2 ^ 64

def busAddress (baseAddress bus : Nat) : Nat := (baseAddress + (bus <<< 20)) % 2 ^ 64

/-- `entry`, `bus` and `device` are only recorded. -/
def enumerateFunction (m : Mem) (entry bus device deviceAddress function : Nat) : List Found :=
  let functionAddress := functionAddress deviceAddress function
  if deviceID m functionAddress = 0 then []
  else if deviceID m functionAddress = 0xFFFF then []
  else [found m entry bus device function functionAddress]

def enumerateDevice (m : Mem) (entry bus busAddress device : Nat) : List Found :=
  let deviceAddress := deviceAddress busAddress device
  if deviceID m deviceAddress = 0 then []
  else if deviceID m deviceAddress = 0xFFFF then []
  else (List.range 8).flatMap fun function =>
    enumerateFunction m entry bus device deviceAddress function

def enumerateBus (m : Mem) (entry baseAddress bus : Nat) : List Found :=
  let busAddress := busAddress baseAddress bus
  if deviceID m busAddress = 0 then []
  else if deviceID m busAddress = 0xFFFF then []
  else (List.range 32).flatMap fun device => enumerateDevice m entry bus busAddress device

/-- `sizeof(MCFGHeader)` and `sizeof(DeviceConfig)`. -/
def mcfgHeaderSize : Nat := 44
def deviceConfigSize : Nat := 16

/-- `Header.length` of the table. -/
def tableLength (m : Mem) (mcfg : Nat) : Nat := m.loadLE (mcfg + 4) 4

/-- `entries`: the subtraction is on `size_t`, the quotient becomes an `int`. -/
def entryCount (m : Mem) (mcfg : Nat) : Int :=
  (BitVec.ofNat 32
    ((tableLength m mcfg + (2 ^ 64 - mcfgHeaderSize)) % 2 ^ 64 / deviceConfigSize)).toInt

/-- `newDeviceConfig` and its fields. -/
def deviceConfig (mcfg t : Nat) : Nat := mcfg + mcfgHeaderSize + deviceConfigSize * t

def configBaseAddress (m : Mem) (mcfg t : Nat) : Nat := m.loadLE (deviceConfig mcfg t) 8
def startBus (m : Mem) (mcfg t : Nat) : Nat := m.loadLE (deviceConfig mcfg t + 10) 1
def endBus (m : Mem) (mcfg t : Nat) : Nat := m.loadLE (deviceConfig mcfg t + 11) 1

/-- `none` is the panic of a missing table. -/
def enumeratePCI (m : Mem) (mcfg : Nat) : Option (List Found) :=
  if mcfg = 0 then none
  else some ((List.range (entryCount m mcfg).toNat).flatMap fun t =>
    (List.range' (startBus m mcfg t) (endBus m mcfg t - startBus m mcfg t)).flatMap fun bus =>
      enumerateBus m t (configBaseAddress m mcfg t) bus)

/-! ## What each level finds -/

/-- A function is present: its `DeviceID` is neither 0 nor `0xFFFF`. -/
def Present (m : Mem) (header : Nat) : Prop := deviceID m header ≠ 0 ∧ deviceID m header ≠ 0xFFFF

instance (m : Mem) (header : Nat) : Decidable (Present m header) :=
  inferInstanceAs (Decidable (_ ∧ _))

/-- The tests of a level. -/
theorem mem_of_tests {m : Mem} {header : Nat} {ps : List Found} {p : Found} :
    (p ∈ if deviceID m header = 0 then [] else if deviceID m header = 0xFFFF then [] else ps) ↔
      Present m header ∧ p ∈ ps := by
  rw [Present]
  by_cases h0 : deviceID m header = 0
  · rw [if_pos h0]
    exact iff_of_false List.not_mem_nil fun h => h.1.1 h0
  · by_cases hf : deviceID m header = 0xFFFF
    · rw [if_neg h0, if_pos hf]
      exact iff_of_false List.not_mem_nil fun h => h.1.2 hf
    · rw [if_neg h0, if_neg hf]
      exact ⟨fun h => ⟨⟨h0, hf⟩, h⟩, fun h => h.2⟩

theorem mem_enumerateFunction {m : Mem} {t bus device address function : Nat} {p : Found} :
    p ∈ enumerateFunction m t bus device address function ↔
      Present m (functionAddress address function) ∧
        p = found m t bus device function (functionAddress address function) := by
  rw [enumerateFunction, mem_of_tests, List.mem_singleton]

theorem mem_enumerateDevice {m : Mem} {t bus address device : Nat} {p : Found} :
    p ∈ enumerateDevice m t bus address device ↔
      Present m (deviceAddress address device) ∧ ∃ function, function < 8 ∧
        p ∈ enumerateFunction m t bus device (deviceAddress address device) function := by
  rw [enumerateDevice, mem_of_tests, List.mem_flatMap]
  simp only [List.mem_range]

theorem mem_enumerateBus {m : Mem} {t base bus : Nat} {p : Found} :
    p ∈ enumerateBus m t base bus ↔
      Present m (busAddress base bus) ∧ ∃ device, device < 32 ∧
        p ∈ enumerateDevice m t bus (busAddress base bus) device := by
  rw [enumerateBus, mem_of_tests, List.mem_flatMap]
  simp only [List.mem_range]

/-- The entries of the table: what `length` has room for behind the header. -/
def tableEntries (m : Mem) (mcfg : Nat) : Nat :=
  (tableLength m mcfg - mcfgHeaderSize) / deviceConfigSize

/-- A length below the header's makes `entries` negative, not huge. -/
theorem entryCount_toNat (m : Mem) (mcfg : Nat) :
    (entryCount m mcfg).toNat = tableEntries m mcfg := by
  have hlt : tableLength m mcfg < 2 ^ 32 := Mem.loadLE_lt m (mcfg + 4) 4
  rw [entryCount, tableEntries, mcfgHeaderSize, deviceConfigSize, BitVec.toInt_eq_toNat_cond,
    BitVec.toNat_ofNat]
  split <;> omega

/-! ## What enumeration finds -/

/-- The address of bus, device and function headers, from the table. -/
def busHeader (m : Mem) (mcfg t bus : Nat) : Nat := busAddress (configBaseAddress m mcfg t) bus

def deviceHeader (m : Mem) (mcfg t bus device : Nat) : Nat :=
  deviceAddress (busHeader m mcfg t bus) device

def functionHeader (m : Mem) (mcfg t bus device function : Nat) : Nat :=
  functionAddress (deviceHeader m mcfg t bus device) function

/-- The functions in reach: of an entry of the table, on a bus in front of the last, behind a
    bus header and a device header that are present. -/
structure InReach (m : Mem) (mcfg t bus device function : Nat) : Prop where
  entryLt : t < tableEntries m mcfg
  busRange : startBus m mcfg t ≤ bus ∧ bus < endBus m mcfg t
  busPresent : Present m (busHeader m mcfg t bus)
  deviceLt : device < 32
  devicePresent : Present m (deviceHeader m mcfg t bus device)
  functionLt : function < 8

/-- The header of function 0 is the device's, and that of device 0 the bus's. -/
theorem functionHeader_zero (m : Mem) (mcfg t bus device : Nat) :
    functionHeader m mcfg t bus device 0 = deviceHeader m mcfg t bus device := by
  rw [functionHeader, functionAddress, Nat.zero_shiftLeft, Nat.add_zero, deviceHeader,
    deviceAddress, Nat.mod_mod]

theorem deviceHeader_zero (m : Mem) (mcfg t bus : Nat) :
    deviceHeader m mcfg t bus 0 = busHeader m mcfg t bus := by
  rw [deviceHeader, deviceAddress, Nat.zero_shiftLeft, Nat.add_zero, busHeader, busAddress,
    Nat.mod_mod]

/-- All that is found, and nothing else. -/
theorem mem_enumeratePCI {m : Mem} {mcfg : Nat} (hmcfg : mcfg ≠ 0) :
    ∃ ps, enumeratePCI m mcfg = some ps ∧ ∀ p, p ∈ ps ↔
      ∃ t bus device function, InReach m mcfg t bus device function ∧
        Present m (functionHeader m mcfg t bus device function) ∧
        p = found m t bus device function (functionHeader m mcfg t bus device function) := by
  refine ⟨_, if_neg hmcfg, fun p => ?_⟩
  rw [List.mem_flatMap]
  constructor
  · intro h
    obtain ⟨t, ht, h⟩ := h
    obtain ⟨bus, hbus, h⟩ := List.mem_flatMap.mp h
    obtain ⟨hb, device, hdev, h⟩ := mem_enumerateBus.mp h
    obtain ⟨hd, function, hfn, h⟩ := mem_enumerateDevice.mp h
    obtain ⟨hf, hp⟩ := mem_enumerateFunction.mp h
    rw [List.mem_range, entryCount_toNat] at ht
    obtain ⟨hstart, hend⟩ := List.mem_range'_1.mp hbus
    exact ⟨t, bus, device, function, ⟨ht, ⟨hstart, by omega⟩, hb, hdev, hd, hfn⟩, hf, hp⟩
  · rintro ⟨t, bus, device, function, hreach, hf, hp⟩
    obtain ⟨hstart, hend⟩ := hreach.busRange
    refine ⟨t, ?_, List.mem_flatMap.mpr ⟨bus, ?_, ?_⟩⟩
    · rw [List.mem_range, entryCount_toNat]
      exact hreach.entryLt
    · exact List.mem_range'_1.mpr ⟨hstart, by omega⟩
    · refine mem_enumerateBus.mpr ⟨hreach.busPresent, device, hreach.deviceLt, ?_⟩
      refine mem_enumerateDevice.mpr ⟨hreach.devicePresent, function, hreach.functionLt, ?_⟩
      exact mem_enumerateFunction.mpr ⟨hf, hp⟩

/-- For every table and configuration space, every entry, bus up to the last inclusive, device
    and function, the function and function 0 of its device being present: enumeration gets to
    it and finds it exactly when the bus is not the last one and function 0 of device 0 on the
    bus is present. -/
theorem function_found_iff (m : Mem) {mcfg : Nat} (hmcfg : mcfg ≠ 0) {t bus device function : Nat}
    (ht : t < tableEntries m mcfg) (hbus : startBus m mcfg t ≤ bus ∧ bus ≤ endBus m mcfg t)
    (hdev : device < 32) (hfn : function < 8)
    (hzero : Present m (functionHeader m mcfg t bus device 0))
    (hpresent : Present m (functionHeader m mcfg t bus device function)) :
    (∃ ps, enumeratePCI m mcfg = some ps ∧
        found m t bus device function (functionHeader m mcfg t bus device function) ∈ ps) ↔
      bus < endBus m mcfg t ∧ Present m (functionHeader m mcfg t bus 0 0) := by
  obtain ⟨ps, hps, hmem⟩ := mem_enumeratePCI (m := m) hmcfg
  rw [functionHeader_zero] at hzero
  rw [functionHeader_zero, deviceHeader_zero]
  constructor
  · rintro ⟨ps', hps', hfound⟩
    obtain rfl : ps = ps' := Option.some_inj.mp (hps.symm.trans hps')
    obtain ⟨t', bus', device', function', hreach, -, heq⟩ := (hmem _).mp hfound
    obtain ⟨rfl, rfl⟩ : t = t' ∧ bus = bus' :=
      ⟨congrArg Found.entry heq, congrArg Found.bus heq⟩
    exact ⟨hreach.busRange.2, hreach.busPresent⟩
  · rintro ⟨hlast, hb⟩
    exact ⟨ps, hps, (hmem _).mpr ⟨t, bus, device, function,
      ⟨ht, ⟨hbus.1, hlast⟩, hb, hdev, hzero, hfn⟩, hpresent, rfl⟩⟩

/-- A table at `0x1000` with one entry, for buses 0 to `last` at `0x100000`, and one function. -/
def oneFunction (last : Byte) : Mem := fun x =>
  if x = 0x1004 then 60 else if x = 0x102E then 0x10 else if x = 0x1037 then last
  else if x = 0x100002 then 1 else 0

/-- With a second bus the function on bus 0 is found. -/
theorem function_found_iff_two_buses : ∃ ps, enumeratePCI (oneFunction 1) 0x1000 = some ps ∧
    found (oneFunction 1) 0 0 0 0 (functionHeader (oneFunction 1) 0x1000 0 0 0 0) ∈ ps :=
  (function_found_iff (oneFunction 1) (by decide) (by decide) (by decide) (by decide) (by decide)
    (by decide) (by decide)).mpr (by decide)

/-- With bus 0 only nothing is found. -/
theorem last_bus_not_found :
    ¬∀ (m : Mem) (mcfg t bus device function : Nat), mcfg ≠ 0 → t < tableEntries m mcfg →
      startBus m mcfg t ≤ bus ∧ bus ≤ endBus m mcfg t → device < 32 → function < 8 →
      Present m (functionHeader m mcfg t bus device 0) →
      Present m (functionHeader m mcfg t bus device function) →
      ∃ ps, enumeratePCI m mcfg = some ps ∧
        found m t bus device function (functionHeader m mcfg t bus device function) ∈ ps := by
  intro h
  obtain ⟨ps, hps, hfound⟩ := h (oneFunction 0) 0x1000 0 0 0 0 (by decide) (by decide) (by decide)
    (by decide) (by decide) (by decide) (by decide)
  have hnil : enumeratePCI (oneFunction 0) 0x1000 = some [] := by decide
  rw [hnil] at hps
  cases hps
  cases hfound

end SeshOS.Pci