/-
  The driver's port table: `AHCIDriver_Init` up to its loop over the ports, with `ProbePorts`
  (disks/sata.c).

  The `AHCIDriver` comes from `malloc` and nothing clears it: `ProbePorts` counts on from
  whatever the heap held at `portCount`. Every statement reads `ABAR`, `portCount` and the
  table again, as the code does, so a store outside the table has its consequences here too.
  `stored` records the index of each store into `driver->ports`.
-/
import SeshOS.Memory.Reuse
import SeshOS.Disks.Ahci

namespace SeshOS.Disks

open Base SeshOS.Memory

structure Probe where
  heap : Heap
  stored : List Nat

/-- The four stores of a port that is taken, and the count. `p` is the new `Port`. -/
def recordPort (m : Mem) (driver i : Nat) (portType : PortType) (p : Nat) : Mem :=
  let m := m.storeLE (driver + (16 + 8 * driverPortCount m driver)) p 8
  let m := m.storeLE (driverPort m driver (driverPortCount m driver) + 8) portType.toNat 4
  let m := m.storeLE (driverPort m driver (driverPortCount m driver))
    (hbaPorts (driverAbar m driver) i) 8
  let m := m.storeLE (driverPort m driver (driverPortCount m driver) + 24)
    (driverPortCount m driver) 1
  m.storeLE (driver + 272) (driverPortCount m driver + 1) 1

/-- One round of the loop of `ProbePorts`. -/
def probePort (fuel : Nat) (regs : Regs) (driver : Nat) (portsImplemented : BitVec 32) (s : Probe)
    (i : Nat) : Option Probe :=
  if portsImplemented &&& (1#32 <<< i) ≠ 0 then
    let portType := checkPortType regs (hbaPorts (driverAbar s.heap.mem driver) i)
    if portType = .sata ∨ portType = .satapi then
      match Memory.malloc fuel s.heap portSize with
      | none => none
      | some (h, p) =>
        some ⟨{ h with mem := recordPort h.mem driver i portType p },
          s.stored ++ [driverPortCount h.mem driver]⟩
    else some s
  else some s

/-- `ProbePorts`. -/
def probePorts (fuel : Nat) (regs : Regs) (driver : Nat) (h : Heap) : Option Probe :=
  let portsImplemented := portsImplemented regs (driverAbar h.mem driver)
  (List.range 32).foldlM (probePort fuel regs driver portsImplemented) ⟨h, []⟩

/-- `BAR5` of a `PCIHeader0`. -/
def bar5 (config : Mem) (pciBaseAddress : Nat) : Nat := config.loadLE (pciBaseAddress + 36) 4

/-- `AHCIDriver_Init` as far as `ProbePorts`, with the driver's address. `config` is the
    configuration space. -/
def ahciDriverProbe (fuel : Nat) (regs : Regs) (config : Mem) (pciBaseAddress : Nat) (h : Heap) :
    Option (Probe × Nat) :=
  match Memory.malloc fuel h ahciDriverSize with
  | none => none
  | some (h, driver) =>
    let m := h.mem.storeLE driver pciBaseAddress 8
    let m := m.storeLE (driver + 8) (bar5 config pciBaseAddress) 8
    (probePorts fuel regs driver { h with mem := m }).map (·, driver)

/-! ## What the table should be -/

/-- The status of a port shows a present and active device. -/
def Responds (regs : Regs) (port : Nat) : Prop :=
  (regs.at port .sataStatus).extractLsb' 0 3 = 3 ∧ (regs.at port .sataStatus).extractLsb' 8 3 = 1

/-- The signature is that of an ATA or ATAPI device. -/
def IsDisk (regs : Regs) (port : Nat) : Prop :=
  regs.at port .signature = sataSigAta ∨ regs.at port .signature = sataSigAtapi

/-- Port `i` is implemented and has a present and active disk. -/
def Usable (regs : Regs) (abar i : Nat) : Prop :=
  (portsImplemented regs abar).getLsbD i = true ∧ Responds regs (hbaPorts abar i) ∧
    IsDisk regs (hbaPorts abar i)

instance (regs : Regs) (port : Nat) : Decidable (Responds regs port) :=
  inferInstanceAs (Decidable (_ ∧ _))

instance (regs : Regs) (port : Nat) : Decidable (IsDisk regs port) :=
  inferInstanceAs (Decidable (_ ∨ _))

instance (regs : Regs) (abar i : Nat) : Decidable (Usable regs abar i) :=
  inferInstanceAs (Decidable (_ ∧ _ ∧ _))

/-- The usable ports, in increasing order. -/
def usablePorts (regs : Regs) (abar : Nat) : List Nat :=
  (List.range 32).filter fun i => Usable regs abar i

/-- The type of a disk, by its signature. -/
def diskType (signature : BitVec 32) : PortType :=
  if signature = sataSigAta then .sata else .satapi

/-- `driver->ports[k]` describes port `i`. -/
structure Describes (regs : Regs) (abar : Nat) (m : Mem) (driver k i : Nat) : Prop where
  block : portHbaPort m (driverPort m driver k) = hbaPorts abar i
  type : portPortType m (driverPort m driver k) =
    (diskType (regs.at (hbaPorts abar i) .signature)).toNat

/-- The table holds the usable ports and nothing was stored outside it. -/
structure TableRight (regs : Regs) (abar : Nat) (s : Probe) (driver : Nat) : Prop where
  count : driverPortCount s.heap.mem driver = (usablePorts regs abar).length
  ports : ∀ k i, (usablePorts regs abar)[k]? = some i →
    Describes regs abar s.heap.mem driver k i
  inside : ∀ k ∈ s.stored, k < 32

/-! ## Usable ports are the ones taken -/

/-- A three-bit field of a register, cut out with a shift and a mask into a `uint8_t`. -/
theorem field_eq_iff (x : BitVec 32) (s : Nat) {v : Nat} (hv : v < 8) :
    ((x >>> s) &&& 0b111).setWidth 8 = BitVec.ofNat 8 v ↔
      x.extractLsb' s 3 = BitVec.ofNat 3 v := by
  have h7 : ∀ n : Nat, n &&& 7 = n % 8 := fun n => Nat.and_two_pow_sub_one_eq_mod n 3
  rw [← BitVec.toNat_inj, ← BitVec.toNat_inj]
  simp only [BitVec.toNat_setWidth, BitVec.toNat_and, BitVec.toNat_ushiftRight,
    BitVec.extractLsb'_toNat, BitVec.toNat_ofNat]
  rw [show BitVec.toNat (7 : BitVec 32) = 7 from rfl, h7]
  omega

theorem present_iff (x : BitVec 32) :
    (x &&& 0b111).setWidth 8 = hbaPortDevPresent ↔ x.extractLsb' 0 3 = 3 := by
  have h := field_eq_iff x 0 (v := 3) (by decide)
  rwa [BitVec.ushiftRight_zero] at h

theorem active_iff (x : BitVec 32) :
    ((x >>> 8) &&& 0b111).setWidth 8 = hbaPortIpmActive ↔ x.extractLsb' 8 3 = 1 :=
  field_eq_iff x 8 (v := 1) (by decide)

theorem sig_ne : sataSigAta ≠ sataSigAtapi := by decide

theorem checkPortType_sata (regs : Regs) (port : Nat) :
    checkPortType regs port = .sata ↔
      Responds regs port ∧ regs.at port .signature = sataSigAta := by
  unfold checkPortType Responds
  simp only [ne_eq, present_iff, active_iff, ite_not]
  split_ifs with h3 h1 hatapi hata hpm hsemb <;> simp_all [sig_ne.symm]

theorem checkPortType_satapi (regs : Regs) (port : Nat) :
    checkPortType regs port = .satapi ↔
      Responds regs port ∧ regs.at port .signature = sataSigAtapi := by
  unfold checkPortType Responds
  simp only [ne_eq, present_iff, active_iff, ite_not]
  split_ifs with h3 h1 hatapi hata hpm hsemb <;> simp_all
/-- The test of the loop. -/
theorem usable_iff {regs : Regs} {abar i : Nat} (hi : i < 32) : Usable regs abar i ↔
    portsImplemented regs abar &&& (1#32 <<< i) ≠ 0 ∧
      (checkPortType regs (hbaPorts abar i) = .sata ∨
        checkPortType regs (hbaPorts abar i) = .satapi) := by
  rw [and_bit_iff _ hi, checkPortType_sata, checkPortType_satapi, ← and_or_left]
  rfl

theorem Usable.type {regs : Regs} {abar i : Nat} (h : Usable regs abar i) :
    checkPortType regs (hbaPorts abar i) = diskType (regs.at (hbaPorts abar i) .signature) := by
  obtain ⟨-, hr, hata | hatapi⟩ := h
  · rw [(checkPortType_sata _ _).mpr ⟨hr, hata⟩, diskType, if_pos hata]
  · rw [(checkPortType_satapi _ _).mpr ⟨hr, hatapi⟩, diskType,
      if_neg (by rw [hatapi]; exact sig_ne.symm)]

/-! ## One entry -/

section Record

variable {m : Mem} {driver p c : Nat}

/-- A store into a `Port` that is apart from the driver leaves the driver's fields. -/
theorem store_port (hp : Mem.Apart p portSize driver ahciDriverSize) {o k : Nat}
    (ho : o + k ≤ portSize) (v : Nat) :
    driverAbar (m.storeLE (p + o) v k) driver = driverAbar m driver ∧
      driverPortCount (m.storeLE (p + o) v k) driver = driverPortCount m driver ∧
      ∀ c < 32, driverPort (m.storeLE (p + o) v k) driver c = driverPort m driver c := by
  have hd := (hp.part ho).symm
  unfold ahciDriverSize at hd
  exact ⟨Mem.loadLE_storeLE_apart v (hd.part (by omega)).symm,
    Mem.loadLE_storeLE_apart v (hd.part (by omega)).symm,
    fun c hc => Mem.loadLE_storeLE_apart v (hd.part (by omega)).symm⟩

variable (driver) in
/-- A store of `driver->ports[c]` leaves the fields around the array. -/
theorem store_slot (hc : c < 32) (v : Nat) :
    driverAbar (m.storeLE (driver + (16 + 8 * c)) v 8) driver = driverAbar m driver ∧
      driverPortCount (m.storeLE (driver + (16 + 8 * c)) v 8) driver = driverPortCount m driver :=
  ⟨Mem.loadLE_storeLE_apart v fun i hi j hj => by omega,
    Mem.loadLE_storeLE_apart v fun i hi j hj => by omega⟩

/-- The statements of an entry with the values they read back: the count `c`, and the pointer
    that has just been stored at `c`. -/
theorem recordPort_eq (i : Nat) (t : PortType) (hc : driverPortCount m driver = c) (hc32 : c < 32)
    (hp : Mem.Apart p portSize driver ahciDriverSize) (hlt : p < 2 ^ 64) :
    recordPort m driver i t p =
      ((((m.storeLE (driver + (16 + 8 * c)) p 8).storeLE (p + 8) t.toNat 4).storeLE
        p (hbaPorts (driverAbar m driver) i) 8).storeLE (p + 24) c 1).storeLE
        (driver + 272) (c + 1) 1 := by
  obtain ⟨habar, hcount⟩ := store_slot (m := m) driver hc32 p
  have hslot : driverPort (m.storeLE (driver + (16 + 8 * c)) p 8) driver c = p := by
    rw [driverPort, Mem.loadLE_storeLE_self p (by decide)]
    exact Nat.mod_eq_of_lt (by omega)
  have htype := fun n => store_port (m := n) hp (o := 8) (k := 4) (by decide) t.toNat
  have hblock := fun n => store_port (m := n) hp (o := 0) (k := 8) (by decide)
    (hbaPorts (driverAbar m driver) i)
  have hnumber := fun n => store_port (m := n) hp (o := 24) (k := 1) (by decide) c
  simp only [Nat.add_zero] at hblock
  unfold recordPort
  simp only [hc, hcount, hslot, htype, habar, hblock, hnumber, hc32]

/-- Every other load is as before. -/
theorem recordPort_frame (i : Nat) (t : PortType) (hc : driverPortCount m driver = c)
    (hc32 : c < 32) (hp : Mem.Apart p portSize driver ahciDriverSize) (hlt : p < 2 ^ 64)
    {a l : Nat} (hport : Mem.Apart p portSize a l)
    (hslot : Mem.Apart (driver + (16 + 8 * c)) 8 a l) (hcount : Mem.Apart (driver + 272) 1 a l) :
    (recordPort m driver i t p).loadLE a l = m.loadLE a l := by
  unfold portSize at hport
  rw [recordPort_eq i t hc hc32 hp hlt, Mem.loadLE_storeLE_apart _ hcount,
    Mem.loadLE_storeLE_apart _ (hport.part (by omega)),
    Mem.loadLE_storeLE_apart _ (hport.head (by omega)),
    Mem.loadLE_storeLE_apart _ (hport.part (by omega)), Mem.loadLE_storeLE_apart _ hslot]

/-- What an entry leaves: the count, the table and the fields of the new `Port`. -/
theorem recordPort_spec (i : Nat) (t : PortType) (hc : driverPortCount m driver = c)
    (hc32 : c < 32) (hp : Mem.Apart p portSize driver ahciDriverSize) (hlt : p < 2 ^ 64) :
    let m' := recordPort m driver i t p
    driverAbar m' driver = driverAbar m driver ∧ driverPortCount m' driver = c + 1 ∧
      driverPort m' driver c = p ∧ portHbaPort m' p = hbaPorts (driverAbar m driver) i ∧
      portPortType m' p = t.toNat := by
  have ht : t.toNat < 256 ^ 4 := by cases t <;> decide
  have hb : hbaPorts (driverAbar m driver) i < 256 ^ 8 := Nat.mod_lt _ (by decide)
  -- the fields of the driver are apart from the new `Port`
  have hfield : ∀ o n, o + n ≤ ahciDriverSize → Mem.Apart p portSize (driver + o) n :=
    fun o n ho => (hp.symm.part ho).symm
  have hslot := hfield (16 + 8 * c) 8 (by unfold ahciDriverSize; omega)
  have hcount := hfield 272 1 (by decide)
  refine ⟨?_, ?_, ?_, ?_, ?_⟩
  · exact recordPort_frame i t hc hc32 hp hlt (hfield 8 8 (by decide))
      (fun i hi j hj => by omega) (fun i hi j hj => by omega)
  all_goals rw [recordPort_eq i t hc hc32 hp hlt]
  all_goals unfold portSize at hslot hcount
  · rw [driverPortCount, Mem.loadLE_storeLE_self _ (by decide)]
    omega
  · rw [driverPort, Mem.loadLE_storeLE_apart _ fun i hi j hj => by omega,
      Mem.loadLE_storeLE_apart _ (hslot.part (by omega)),
      Mem.loadLE_storeLE_apart _ (hslot.head (by omega)),
      Mem.loadLE_storeLE_apart _ (hslot.part (by omega)), Mem.loadLE_storeLE_self _ (by decide)]
    exact Nat.mod_eq_of_lt (by omega)
  · rw [portHbaPort, Mem.loadLE_storeLE_apart _ (hcount.head (by omega)).symm,
      Mem.loadLE_storeLE_apart _ fun i hi j hj => by omega,
      Mem.loadLE_storeLE_self _ (by decide)]
    exact Nat.mod_eq_of_lt hb
  · rw [portPortType, Mem.loadLE_storeLE_apart _ (hcount.part (by omega)).symm,
      Mem.loadLE_storeLE_apart _ fun i hi j hj => by omega,
      Mem.loadLE_storeLE_apart _ fun i hi j hj => by omega,
      Mem.loadLE_storeLE_self _ (by decide)]
    exact Nat.mod_eq_of_lt ht

end Record

end SeshOS.Disks
