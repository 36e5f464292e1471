/-
  The calls of `EnumerateFunction`.

  `configCalls` lists them for an entry of the MCFG, in order, with the indices of the loops they
  come from; what enumeration finds is read off these calls (`enumerateConfig_calls`). Each loop
  steps through addresses that leave room for the loops inside of it, so the addresses of the
  calls increase (`pairwise_strides`) and each belongs to one bus, device and function.
-/
import SeshOS.Pci.Enumerate

namespace SeshOS.Pci

open Base

/-! ## The loops -/

/-- A call of `EnumerateFunction`: the indices of the three loops, and the function's address. -/
structure FunctionCall where
  bus : Nat
  device : Nat
  function : Nat
  address : Nat
deriving DecidableEq

/-- `EnumerateDevice` -/
def deviceCalls (m : Mem) (bus busAddress device : Nat) : List FunctionCall :=
  let deviceAddress := deviceAddress busAddress device
  if deviceID m deviceAddress = 0 then []
  else if deviceID m deviceAddress = 0xFFFF then []
  else (List.range 8).map fun function =>
    ⟨bus, device, function, functionAddress deviceAddress function⟩

/-- `EnumerateBus` -/
def busCalls (m : Mem) (baseAddress bus : Nat) : List FunctionCall :=
  let busAddress := busAddress baseAddress bus
  if deviceID m busAddress = 0 then []
  else if deviceID m busAddress = 0xFFFF then []
  else (List.range 32).flatMap fun device => deviceCalls m bus busAddress device

/-- The round of `EnumeratePCI` for entry `t`. -/
def configCalls (m : Mem) (mcfg t : Nat) : List FunctionCall :=
  (List.range' (startBus m mcfg t) (endBus m mcfg t - startBus m mcfg t)).flatMap fun bus =>
    busCalls m (configBaseAddress m mcfg t) bus

/-- What a call finds. -/
def callFound (m : Mem) (entry : Nat) (c : FunctionCall) : List Found :=
  if deviceID m c.address = 0 then []
  else if deviceID m c.address = 0xFFFF then []
  else [found m entry c.bus c.device c.function c.address]

/-- What the round for entry `t` finds. -/
def enumerateConfig (m : Mem) (mcfg t : Nat) : List Found :=
  (List.range' (startBus m mcfg t) (endBus m mcfg t - startBus m mcfg t)).flatMap fun bus =>
    enumerateBus m t (configBaseAddress m mcfg t) bus

/-- What the loop of `EnumeratePCI` has found, and the entries it has read. -/
structure Enumeration where
  found : List Found
  read : List Nat

def enumerateRound (m : Mem) (mcfg : Nat) (s : Enumeration) (t : Nat) : Enumeration :=
  ⟨s.found ++ enumerateConfig m mcfg t, s.read ++ [t]⟩

def enumerateLoop (m : Mem) (mcfg : Nat) : Enumeration :=
  (List.range (entryCount m mcfg).toNat).foldl (enumerateRound m mcfg) ⟨[], []⟩

/-! ## What is found comes from the calls -/

/-- A level whose header fails the tests calls nothing and finds nothing. -/
theorem tests_flatMap {m : Mem} {header : Nat} {cs : List FunctionCall} {ps : List Found}
    {f : FunctionCall → List Found} (h : ps = cs.flatMap f) :
    (if deviceID m header = 0 then [] else if deviceID m header = 0xFFFF then [] else ps) =
      (if deviceID m header = 0 then []
        else if deviceID m header = 0xFFFF then [] else cs).flatMap f := by
  split
  · rfl
  · split
    · rfl
    · exact h

theorem enumerateDevice_calls (m : Mem) (t bus address device : Nat) :
    enumerateDevice m t bus address device =
      (deviceCalls m bus address device).flatMap (callFound m t) := by
  unfold enumerateDevice deviceCalls
  refine tests_flatMap ?_
  rw [List.flatMap_map]
  rfl

theorem enumerateBus_calls (m : Mem) (t base bus : Nat) :
    enumerateBus m t base bus = (busCalls m base bus).flatMap (callFound m t) := by
  unfold enumerateBus busCalls
  refine tests_flatMap ?_
  rw [List.flatMap_assoc]
  exact List.flatMap_congr fun device _ => enumerateDevice_calls m t bus _ device

theorem enumerateConfig_calls (m : Mem) (mcfg t : Nat) :
    enumerateConfig m mcfg t = (configCalls m mcfg t).flatMap (callFound m t) := by
  rw [enumerateConfig, configCalls, List.flatMap_assoc]
  exact List.flatMap_congr fun bus _ => enumerateBus_calls m t _ bus

theorem enumerateLoop_eq (m : Mem) (mcfg : Nat) :
    enumerateLoop m mcfg =
      ⟨(List.range (tableEntries m mcfg)).flatMap (enumerateConfig m mcfg),
        List.range (tableEntries m mcfg)⟩ := by
  rw [enumerateLoop, entryCount_toNat]
  induction tableEntries m mcfg with
  | zero => rfl
  | succ n ih =>
    rw [List.range_succ, List.foldl_append, ih, List.flatMap_append, List.flatMap_cons,
      List.flatMap_nil, List.append_nil]
    rfl

theorem enumeratePCI_loop (m : Mem) {mcfg : Nat} (hmcfg : mcfg ≠ 0) :
    enumeratePCI m mcfg = some (enumerateLoop m mcfg).found := by
  rw [enumeratePCI, if_neg hmcfg, enumerateLoop_eq, entryCount_toNat]
  rfl

/-! ## The addresses -/

/-- Base, bus, device and function without the reductions modulo `2 ^ 64`. -/
def slotAddress (base bus device function : Nat) : Nat :=
  base + bus * 2 ^ 20 + device * 2 ^ 15 + function * 2 ^ 12

/-- A call on this bus, from loops in their bounds, for a device that is present. -/
structure CallAt (m : Mem) (base bus : Nat) (c : FunctionCall) : Prop where
  onBus : c.bus = bus
  deviceLt : c.device < 32
  functionLt : c.function < 8
  address : c.address = slotAddress base bus c.device c.function
  present : Present m (slotAddress base bus c.device 0)

/-- There is room for the buses of an entry behind the base. -/
theorem busAddress_eq {base bus : Nat} (hbase : base ≤ 2 ^ 64 - 2 ^ 28) (hbus : bus < 256) :
    busAddress base bus = slotAddress base bus 0 0 := by
  rw [busAddress, slotAddress, Nat.shiftLeft_eq]
  omega

theorem deviceAddress_eq {base bus device : Nat} (hbase : base ≤ 2 ^ 64 - 2 ^ 28)
    (hbus : bus < 256) (hdevice : device < 32) :
    deviceAddress (slotAddress base bus 0 0) device = slotAddress base bus device 0 := by
  rw [deviceAddress, slotAddress, slotAddress, Nat.shiftLeft_eq]
  omega

theorem functionAddress_eq {base bus device function : Nat} (hbase : base ≤ 2 ^ 64 - 2 ^ 28)
    (hbus : bus < 256) (hdevice : device < 32) (hfunction : function < 8) :
    functionAddress (slotAddress base bus device 0) function =
      slotAddress base bus device function := by
  rw [functionAddress, slotAddress, slotAddress, Nat.shiftLeft_eq]
  omega

theorem mem_tests {m : Mem} {header : Nat} {cs : List FunctionCall} {c : FunctionCall}
    (h : c ∈ if deviceID m header = 0 then []
      else if deviceID m header = 0xFFFF then [] else cs) : Present m header ∧ c ∈ cs := by
  by_cases h0 : deviceID m header = 0
  · rw [if_pos h0] at h
    cases h
  · by_cases hf : deviceID m header = 0xFFFF
    · rw [if_neg h0, if_pos hf] at h
      cases h
    · rw [if_neg h0, if_neg hf] at h
      exact ⟨⟨h0, hf⟩, h⟩

theorem mem_deviceCalls {m : Mem} {base bus device : Nat} (hbase : base ≤ 2 ^ 64 - 2 ^ 28)
    (hbus : bus < 256) (hdevice : device < 32) {c : FunctionCall}
    (h : c ∈ deviceCalls m bus (slotAddress base bus 0 0) device) :
    c.device = device ∧ CallAt m base bus c := by
  rw [deviceCalls, deviceAddress_eq hbase hbus hdevice] at h
  obtain ⟨hpresent, h⟩ := mem_tests h
  obtain ⟨function, hfunction, rfl⟩ := List.mem_map.mp h
  have hlt := List.mem_range.mp hfunction
  exact ⟨rfl, rfl, hdevice, hlt, functionAddress_eq hbase hbus hdevice hlt, hpresent⟩

theorem mem_busCalls {m : Mem} {base bus : Nat} (hbase : base ≤ 2 ^ 64 - 2 ^ 28)
    (hbus : bus < 256) {c : FunctionCall} (h : c ∈ busCalls m base bus) : CallAt m base bus c := by
  rw [busCalls, busAddress_eq hbase hbus] at h
  obtain ⟨device, hdevice, h⟩ := List.mem_flatMap.mp (mem_tests h).2
  exact (mem_deviceCalls hbase hbus (List.mem_range.mp hdevice) h).2

theorem endBus_lt (m : Mem) (mcfg t : Nat) : endBus m mcfg t < 2 ^ 8 :=
  Mem.loadLE_lt m (deviceConfig mcfg t + 11) 1

theorem mem_configCalls {m : Mem} {mcfg t : Nat}
    (hbase : configBaseAddress m mcfg t ≤ 2 ^ 64 - 2 ^ 28) {c : FunctionCall}
    (h : c ∈ configCalls m mcfg t) :
    (startBus m mcfg t ≤ c.bus ∧ c.bus < endBus m mcfg t) ∧
      CallAt m (configBaseAddress m mcfg t) c.bus c := by
  obtain ⟨bus, hrange, h⟩ := List.mem_flatMap.mp h
  obtain ⟨hstart, hend⟩ := List.mem_range'_1.mp hrange
  have hlast := endBus_lt m mcfg t
  have hcall := mem_busCalls hbase (by omega) h
  rw [hcall.onBus]
  exact ⟨⟨hstart, by omega⟩, hcall⟩

/-! ## Their order -/

/-- Items in increasing strides are in order when each stride is. -/
theorem pairwise_strides {cs : Nat → List FunctionCall} (base stride : Nat) {is : List Nat}
    (hsorted : is.Pairwise (· < ·))
    (hinner : ∀ i ∈ is, (cs i).Pairwise (·.address < ·.address))
    (hstride : ∀ i ∈ is, ∀ c ∈ cs i,
      base + i * stride ≤ c.address ∧ c.address < base + (i + 1) * stride) :
    (is.flatMap cs).Pairwise (·.address < ·.address) := by
  refine List.pairwise_flatMap.mpr ⟨hinner, ?_⟩
  refine hsorted.imp_of_mem ?_
  intro i j hi hj hij c hc d hd
  have hnext : (i + 1) * stride ≤ j * stride := Nat.mul_le_mul_right stride hij
  have hbelow := (hstride i hi c hc).2
  have habove := (hstride j hj d hd).1
  omega

theorem pairwise_tests {m : Mem} {header : Nat} {cs : List FunctionCall}
    (h : cs.Pairwise (·.address < ·.address)) :
    (if deviceID m header = 0 then []
      else if deviceID m header = 0xFFFF then [] else cs).Pairwise (·.address < ·.address) := by
  split
  · exact List.Pairwise.nil
  · split
    · exact List.Pairwise.nil
    · exact h

theorem deviceCalls_pairwise {m : Mem} {base bus device : Nat} (hbase : base ≤ 2 ^ 64 - 2 ^ 28)
    (hbus : bus < 256) (hdevice : device < 32) :
    (deviceCalls m bus (slotAddress base bus 0 0) device).Pairwise (·.address < ·.address) := by
  rw [deviceCalls, deviceAddress_eq hbase hbus hdevice]
  refine pairwise_tests (List.pairwise_map.mpr ?_)
  refine List.pairwise_lt_range.imp_of_mem ?_
  intro f g hf hg hfg
  dsimp only
  rw [functionAddress_eq hbase hbus hdevice (List.mem_range.mp hf),
    functionAddress_eq hbase hbus hdevice (List.mem_range.mp hg), slotAddress, slotAddress]
  omega

theorem busCalls_pairwise {m : Mem} {base bus : Nat} (hbase : base ≤ 2 ^ 64 - 2 ^ 28)
    (hbus : bus < 256) : (busCalls m base bus).Pairwise (·.address < ·.address) := by
  rw [busCalls, busAddress_eq hbase hbus]
  refine pairwise_tests (pairwise_strides (base + bus * 2 ^ 20) (2 ^ 15)
    List.pairwise_lt_range ?_ ?_)
  · intro device hdevice
    exact deviceCalls_pairwise hbase hbus (List.mem_range.mp hdevice)
  · intro device hdevice c hc
    obtain ⟨rfl, hcall⟩ := mem_deviceCalls hbase hbus (List.mem_range.mp hdevice) hc
    have hfunction := hcall.functionLt
    rw [hcall.address, slotAddress]
    omega

theorem configCalls_pairwise {m : Mem} {mcfg t : Nat}
    (hbase : configBaseAddress m mcfg t ≤ 2 ^ 64 - 2 ^ 28) :
    (configCalls m mcfg t).Pairwise (·.address < ·.address) := by
  have hlast := endBus_lt m mcfg t
  refine pairwise_strides (configBaseAddress m mcfg t) (2 ^ 20)
    List.pairwise_lt_range' ?_ ?_
  · intro bus hbus
    obtain ⟨hstart, hend⟩ := List.mem_range'_1.mp hbus
    exact busCalls_pairwise hbase (by omega)
  · intro bus hbus c hc
    obtain ⟨hstart, hend⟩ := List.mem_range'_1.mp hbus
    have hcall := mem_busCalls hbase (by omega) hc
    have hdevice := hcall.deviceLt
    have hfunction := hcall.functionLt
    rw [hcall.address, slotAddress]
    omega

/-- The fields of an address do not spill into each other. -/
theorem slotAddress_injective {base bus device function bus' device' function' : Nat}
    (hdevice : device < 32) (hfunction : function < 8) (hdevice' : device' < 32)
    (hfunction' : function' < 8)
    (h : slotAddress base bus device function = slotAddress base bus' device' function') :
    bus = bus' ∧ device = device' ∧ function = function' := by
  rw [slotAddress, slotAddress] at h
  omega

/-- For every configuration space and every entry of the MCFG with room for 256 buses behind its
    base: what the round for the entry finds is found by its calls of `EnumerateFunction`, their
    addresses increase, each is that of a single bus, device and function in bounds, and function
    0 of the device is present. -/
theorem enumeration_sound (m : Mem) (mcfg t : Nat)
    (hbase : configBaseAddress m mcfg t ≤ 2 ^ 64 - 2 ^ 28) :
    enumerateConfig m mcfg t = (configCalls m mcfg t).flatMap (callFound m t) ∧
      ((configCalls m mcfg t).map FunctionCall.address).Pairwise (· < ·) ∧
      ∀ c ∈ configCalls m mcfg t, ∃ bus device function,
        (startBus m mcfg t ≤ bus ∧ bus ≤ endBus m mcfg t ∧ device < 32 ∧ function < 8) ∧
        c.address = slotAddress (configBaseAddress m mcfg t) bus device function ∧
        Present m (slotAddress (configBaseAddress m mcfg t) bus device 0) ∧
        ∀ bus' device' function', device' < 32 → function' < 8 →
          c.address = slotAddress (configBaseAddress m mcfg t) bus' device' function' →
          bus' = bus ∧ device' = device ∧ function' = function := by
  refine ⟨enumerateConfig_calls m mcfg t, List.pairwise_map.mpr (configCalls_pairwise hbase), ?_⟩
  intro c hc
  obtain ⟨⟨hstart, hend⟩, hcall⟩ := mem_configCalls hbase hc
  refine ⟨c.bus, c.device, c.function,
    ⟨hstart, Nat.le_of_lt hend, hcall.deviceLt, hcall.functionLt⟩, hcall.address, hcall.present, ?_⟩
  intro bus' device' function' hdevice' hfunction' haddress
  exact slotAddress_injective hdevice' hfunction' hcall.deviceLt hcall.functionLt
    (haddress.symm.trans hcall.address)

/-- The functions of the one device are called for, though only the first is present. -/
theorem enumeration_sound_two_buses :
    (configCalls (oneFunction 1) 0x1000 0).map FunctionCall.address =
        (List.range 8).map (slotAddress 0x100000 0 0) ∧
      ((configCalls (oneFunction 1) 0x1000 0).map FunctionCall.address).Pairwise (· < ·) :=
  ⟨by decide, (enumeration_sound (oneFunction 1) 0x1000 0 (by decide)).2.1⟩

end SeshOS.Pci
