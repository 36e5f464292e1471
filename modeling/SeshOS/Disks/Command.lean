/-
  The command of `Read`: the FIS and the PRDT entry in the command table, as the adapter finds
  them when `commandIssue` is written.

  `memRun` runs the memory accesses of a program from a memory, and `built` says what they leave
  in the fields. The FIS encodes the sectors below `2 ^ 24` (`sector_encoded_iff`): the source
  fills `lba3` from the high half and `lba5` not at all. FIS and PRDT entry agree with the
  request for 1 to 8192 sectors (`transfers_iff`).
-/
import SeshOS.Disks.Structures
import SeshOS.Disks.Wait

namespace SeshOS.Disks

open Base SeshOS.Memory

/-! ## Programs of memory accesses -/

/-- Run the memory accesses of a program; `none` at any other instruction. -/
def memRun {α : Type} : Code α → Mem → Option (α × Mem)
  | .ret a, m => some (a, m)
  | .op (.load _ a o k) f, m => memRun (f (m.loadLE (a + o) k)) m
  | .op (.store _ a o v k) f, m => memRun (f ()) (m.storeLE (a + o) v k)
  | .op (.memset _ a v k) f, m => memRun (f ()) (m.fill a v k)
  | _, _ => none

section MemRun

variable {C : Controller} {M : Allocator} {ok : Instr → Host → Prop} {α : Type}

theorem stable_mem (m : Mem) : Stable (ahciWorld C M) fun w => w.mem = m :=
  fun _ _ hw ht => (congrArg Heap.mem ht.2).trans hw

/-- A program of memory accesses does in the world what it does on the memory. -/
theorem triple_memRun {p : Code α} {m m' : Mem} {a : α} (h : memRun p m = some (a, m'))
    (hok : ∀ i w, i.pointer.isSome → ok i w) :
    Triple (ahciWorld C M) ok (fun w => w.mem = m) p fun x w => x = a ∧ w.mem = m' := by
  induction p generalizing m with
  | ret b =>
    obtain ⟨rfl, rfl⟩ := Prod.mk.inj (Option.some.inj h)
    exact triple_ret (Stable.and (stable_const _) (stable_mem _)) fun w hw => ⟨rfl, hw⟩
  | op i f ih =>
    cases i with
    | load p b o k =>
      refine triple_op (stable_mem m) (fun w _ => hok _ w rfl) fun w x w' hw hx => ?_
      obtain ⟨rfl, rfl⟩ := hx
      rw [hw]
      exact ih _ h w' hw
    | store p b o v k =>
      refine triple_op (stable_mem m) (fun w _ => hok _ w rfl) fun w x w' hw hx => ?_
      rw [show w' = _ from hx, hw]
      exact ih () h _ rfl
    | memset p b v k =>
      refine triple_op (stable_mem m) (fun w _ => hok _ w rfl) fun w x w' hw hx => ?_
      rw [show w' = _ from hx, hw]
      exact ih () h _ rfl
    | readReg r => cases h
    | writeReg r v => cases h
    | malloc n => cases h
  | stuck => exact fun _ _ => trivial

end MemRun

/-! ## The fields of the command -/

/-- The fields of `FIS_REG_H2D` and of the PRDT entry that carry the request, in the table at
    `t`. -/
def lba (m : Mem) (t : Nat) : Fin 6 → Nat
  | 0 => m.loadLE (t + 4) 1
  | 1 => m.loadLE (t + 5) 1
  | 2 => m.loadLE (t + 6) 1
  | 3 => m.loadLE (t + 8) 1
  | 4 => m.loadLE (t + 9) 1
  | 5 => m.loadLE (t + 10) 1

def countLow (m : Mem) (t : Nat) : Nat := m.loadLE (t + 12) 1
def countHigh (m : Mem) (t : Nat) : Nat := m.loadLE (t + 13) 1
def byteCount (m : Mem) (t : Nat) : Nat := m.loadLE (t + 140) 4 % 2 ^ 22

/-- What the code puts into them. -/
structure Built (m : Mem) (t sector sectorCount : Nat) : Prop where
  lba0 : lba m t 0 = sector % 256
  lba1 : lba m t 1 = sector / 2 ^ 8 % 256
  lba2 : lba m t 2 = sector / 2 ^ 16 % 256
  lba3 : lba m t 3 = sector / 2 ^ 32 % 256
  lba4 : lba m t 4 = sector / 2 ^ 48 % 256
  lba5 : lba m t 5 = 0
  countLow : countLow m t = sectorCount % 256
  countHigh : countHigh m t = sectorCount / 2 ^ 8 % 256
  byteCount : byteCount m t = (512 * sectorCount + 2 ^ 32 - 1) % 2 ^ 22

/-- Assigning bit 31 leaves the lowest 22 bits. -/
theorem low_of_bit31 (old : Nat) :
    (old - old / 2 ^ 31 % 2 ^ 1 * 2 ^ 31 + 1 % 2 ^ 1 * 2 ^ 31) % 256 ^ 4 % 2 ^ 22 =
      old % 2 ^ 22 := by
  omega

theorem low_of_assigned (old v : Nat) :
    (old - old / 2 ^ 0 % 2 ^ 22 * 2 ^ 0 + v % 2 ^ 22 * 2 ^ 0) % 256 ^ 4 % 2 ^ 22 =
      v % 2 ^ 22 := by
  omega

theorem built (m : Mem) (t sector sectorCount buffer : Nat) :
    ∃ m', memRun (readCommand t sector sectorCount buffer) (m.fill t 0 128) = some ((), m') ∧
      Built m' t sector sectorCount := by
  refine ⟨_, rfl, ?_⟩
  constructor
  case byteCount =>
    simp (disch := decide) only [byteCount, Mem.loadLE_storeLE_field, Mem.loadLE_storeLE_self]
    rw [low_of_bit31, low_of_assigned, Nat.shiftLeft_eq]
    omega
  case lba5 =>
    simp (disch := decide) only [lba, Mem.loadLE_storeLE_field, Mem.loadLE_fill_zero]
  case countLow =>
    simp (disch := decide) only [countLow, Mem.loadLE_storeLE_field, Mem.loadLE_storeLE_self]
    rw [Nat.and_two_pow_sub_one_eq_mod sectorCount 8]
    omega
  case countHigh =>
    simp (disch := decide) only [countHigh, Mem.loadLE_storeLE_field, Mem.loadLE_storeLE_self]
    rw [Nat.and_two_pow_sub_one_eq_mod (sectorCount >>> 8) 8, Nat.shiftRight_eq_div_pow]
    omega
  all_goals
    simp (disch := decide) only [lba, Mem.loadLE_storeLE_field, Mem.loadLE_storeLE_self,
      Nat.shiftRight_eq_div_pow]
    omega

/-! ## Up to the issue -/

/-- `readHeader` behind its register. -/
def headerOf (cmdHeader : Nat) : Code Nat := do
  storeBits .readHeader cmdHeader 0 1 0 5 (fisRegH2DSize / 4)
  storeBits .readHeader cmdHeader 0 1 6 1 0
  store .readHeader cmdHeader prdtLength 1 2
  let commandTable ← load .readHeader cmdHeader commandTableBaseAddress 4
  let entries ← load .readHeader cmdHeader prdtLength 2
  memset .readTable commandTable 0 (commandTableSize + entries * prdtEntrySize - prdtEntrySize)
  return commandTable

theorem readHeader_eq : readHeader = (do
    let low ← readReg .commandListBase
    headerOf low.toNat) := rfl

/-- One PRDT entry: 128 bytes of the table are cleared. -/
theorem headerOf_run (m : Mem) (cmdHeader : Nat) : ∃ m', memRun (headerOf cmdHeader) m =
    some (m.loadLE (cmdHeader + commandTableBaseAddress) 4,
      Mem.fill m' (m.loadLE (cmdHeader + commandTableBaseAddress) 4) 0 128) := by
  have hrun : ∃ t entries m', memRun (headerOf cmdHeader) m = some (t, Mem.fill m' t 0
        (commandTableSize + entries * prdtEntrySize - prdtEntrySize)) ∧
      t = m.loadLE (cmdHeader + commandTableBaseAddress) 4 ∧ entries = 1 := by
    refine ⟨_, _, _, rfl, ?_, ?_⟩
    · simp (disch := decide) only [Mem.loadLE_storeLE_field]
    · simp (disch := decide) only [Mem.loadLE_storeLE_self]
      decide
  obtain ⟨t, entries, m', hrun, rfl, rfl⟩ := hrun
  exact ⟨m', hrun⟩

section Read

variable {alloc : Alloc} {start : Host} {sector sectorCount : Nat}

/-- What is asked at the write of `commandIssue`. -/
def IssueOk (start : Host) (sector sectorCount : Nat) (i : Instr) (w : Host) : Prop :=
  ∀ v, i = .writeReg .commandIssue v → Built w.mem (lowTable start) sector sectorCount

theorem issueOk_pointer (i : Instr) (w : Host) (hi : i.pointer.isSome) :
    IssueOk start sector sectorCount i w := by
  rintro v rfl
  cases hi

/-- The list is where it was at the start, and so is everything in memory. -/
def AtStart (start w : Host) : Prop :=
  w.regs .commandListBase = start.regs .commandListBase ∧ w.mem = start.mem

theorem stable_atStart : Stable (sharedWorld alloc) (AtStart start) :=
  Stable.and (stable_bases fun _ _ hr _ hw => (hr .commandListBase rfl).trans hw) (stable_mem _)

/-- The header gives the table, and leaves it cleared. -/
theorem readHeader_run : Triple (sharedWorld alloc) (IssueOk start sector sectorCount)
    (AtStart start) readHeader
    fun t w => (∃ m, w.mem = Mem.fill m (lowTable start) 0 128) ∧ t = lowTable start := by
  rw [readHeader_eq]
  refine triple_bind (R := fun low w => w.mem = start.mem ∧ low = start.regs .commandListBase)
    (triple_issue stable_atStart (fun _ => (stable_mem _).and (stable_const _)) ?_ ?_)
    fun low => ?_
  · rintro w - v ⟨⟩
  · rintro w low w' hw ⟨rfl, rfl⟩
    exact ⟨hw.2, hw.1⟩
  refine triple_fact fun hlow => ?_
  obtain ⟨m', hrun⟩ := headerOf_run start.mem low.toNat
  rw [hlow] at hrun ⊢
  exact triple_weaken (triple_memRun hrun issueOk_pointer) (fun _ hw => hw)
    fun t w hw => ⟨⟨m', hw.2⟩, hw.1⟩

theorem stable_built (t : Nat) :
    Stable (sharedWorld alloc) fun w => Built w.mem t sector sectorCount :=
  stable_bases fun w w' _ hh hw => by rw [Host.mem, hh]; exact hw

/-- `Read` issues its command with the fields `Built`. -/
theorem read_built (fuel buffer : Nat) :
    Triple (sharedWorld alloc) (IssueOk start sector sectorCount) (AtStart start)
      (read fuel sector sectorCount buffer) fun _ _ => True := by
  unfold read
  refine triple_bind (R := fun _ => AtStart start)
    (triple_issue stable_atStart (fun _ => stable_atStart) ?_ ?_) fun _ => ?_
  · rintro w - v ⟨⟩
  · intro w _ w' hw hx
    exact ⟨(hx.1 .commandListBase rfl).trans hw.1, (congrArg Heap.mem hx.2).trans hw.2⟩
  refine triple_bind readHeader_run fun t => triple_fact fun ht => ?_
  rw [ht]
  refine triple_bind (R := fun _ w => Built w.mem (lowTable start) sector sectorCount)
    (fun w hw => ?_) fun _ => ?_
  · obtain ⟨m, hm⟩ := hw
    obtain ⟨m', hrun, hbuilt⟩ := built m (lowTable start) sector sectorCount buffer
    refine triple_weaken (triple_memRun hrun issueOk_pointer) (fun _ hw => hw) ?_ w hm
    rintro - w' ⟨-, rfl⟩
    exact hbuilt
  refine triple_bind (triple_only (spinOut_only 1000000) (stable_built _) ?_ ?_) fun out => ?_
  · rintro _ w rfl - v ⟨⟩
  · rintro _ w x w' rfl hw ⟨-, rfl⟩
    exact hw
  split
  · exact triple_ret (stable_const _) fun _ _ => trivial
  refine triple_bind (R := fun _ _ => True) (triple_issue (stable_built _)
    (fun _ => stable_const _) (fun w hw v _ => hw) fun _ _ _ _ _ => trivial) fun _ => ?_
  refine triple_only (awaitCommand_only fuel) (stable_const _) ?_ fun _ _ _ _ _ _ _ => trivial
  rintro _ w (rfl | rfl) - v ⟨⟩

end Read

/-! ## Every Read can get to the issue -/

theorem headerOf_ends (cmdHeader : Nat) : (headerOf cmdHeader).Ends :=
  fun _ _ _ _ _ _ _ _ => trivial

theorem readCommand_ends (t sector sectorCount buffer : Nat) :
    (readCommand t sector sectorCount buffer).Ends := by
  iterate 19 intro _
  trivial

theorem spinOut_reaches (alloc : Alloc) {α : Type} (n : Nat) (rest : Bool → Code α) (w : Host) :
    Reach (sharedWorld alloc) (spinOut (n + 1) >>= rest, w)
      (rest false, w.clear .taskFileData) := by
  have hread : (sharedWorld alloc).exec (.readReg .taskFileData) (w.clear .taskFileData)
      (0 : BitVec 32) (w.clear .taskFileData) := ⟨rfl, rfl⟩
  exact (reach_idle (idle_clear _ rfl w)).tail (Step.issue hread)

theorem issue_reached (alloc : Alloc) (fuel sector sectorCount buffer : Nat) (start : Host) :
    ∃ k w, Reach (sharedWorld alloc) (read fuel sector sectorCount buffer, start)
      (.op (.writeReg .commandIssue 1) k, w) := by
  have hanswers := latching_answers alloc
  obtain ⟨x, w, hclear⟩ := hanswers (.writeReg .interruptStatus (BitVec.allOnes 32)) start
  obtain ⟨t, w', hheader⟩ := reach_ends (show readHeader.Ends from fun _ => headerOf_ends _)
    hanswers w
  obtain ⟨y, w'', hcommand⟩ := reach_ends (readCommand_ends t sector sectorCount buffer)
    hanswers w'
  have hbegin : Reach (sharedWorld alloc) (read fuel sector sectorCount buffer, start)
      (readHeader >>= fun t => readCommand t sector sectorCount buffer >>= fun _ =>
        spinOut (999999 + 1) >>= fun out =>
          if out then pure 0 else writeReg .commandIssue 1 >>= fun _ => awaitCommand fuel, w) :=
    Relation.ReflTransGen.single (Step.issue hclear)
  have hbuilt := (hbegin.trans (reach_return _ hheader)).trans (reach_return _ hcommand)
  exact ⟨_, _, hbuilt.trans (spinOut_reaches alloc 999999 _ w'')⟩

/-! ## What the adapter is asked for -/

/-- The sector that the FIS at `t` names. -/
def fisSector (m : Mem) (t : Nat) : Nat :=
  lba m t 0 + lba m t 1 * 2 ^ 8 + lba m t 2 * 2 ^ 16 + lba m t 3 * 2 ^ 24 + lba m t 4 * 2 ^ 32 +
    lba m t 5 * 2 ^ 40

/-- The number of sectors that the FIS at `t` names. -/
def fisCount (m : Mem) (t : Nat) : Nat :=
  if countLow m t + countHigh m t * 2 ^ 8 = 0 then 65536 else countLow m t + countHigh m t * 2 ^ 8

/-- FIS and PRDT entry both ask for `sectorCount` sectors. -/
def Transfers (m : Mem) (t sectorCount : Nat) : Prop :=
  fisCount m t = sectorCount ∧ byteCount m t + 1 = 512 * sectorCount

theorem fisSector_eq_iff {m : Mem} {t sector sectorCount : Nat} (h : Built m t sector sectorCount) :
    fisSector m t = sector ↔ sector < 2 ^ 24 := by
  rw [fisSector, h.lba0, h.lba1, h.lba2, h.lba3, h.lba4, h.lba5]
  have hlow : sector % 256 + sector / 2 ^ 8 % 256 * 2 ^ 8 + sector / 2 ^ 16 % 256 * 2 ^ 16 =
      sector % 2 ^ 24 := by omega
  rw [hlow]
  constructor
  · intro hs
    have hlt : sector < 2 ^ 40 := by omega
    have hfour : sector / 2 ^ 48 = 0 := by omega
    have hthree : sector / 2 ^ 32 % 256 = sector / 2 ^ 32 := by omega
    -- `lba3` is worth `2 ^ 24` of what it stands for `2 ^ 32` of
    rw [hfour, hthree] at hs
    omega
  · intro hs
    omega

theorem transfers_of_built {m : Mem} {t sector sectorCount : Nat}
    (h : Built m t sector sectorCount) :
    Transfers m t sectorCount ↔ 1 ≤ sectorCount ∧ sectorCount ≤ 8192 := by
  rw [Transfers, fisCount, h.countLow, h.countHigh, h.byteCount]
  split <;> omega

section Issue

variable (alloc : Alloc) (start : Host) (fuel sector sectorCount buffer : Nat)

/-- `P` holds of the memory and the command table in every run of `Read` that writes
    `commandIssue`, when it does. -/
def AtIssue (P : Mem → Nat → Prop) : Prop :=
  ∀ v k w, Reach (sharedWorld alloc) (read fuel sector sectorCount buffer, start)
    (.op (.writeReg .commandIssue v) k, w) → P w.mem (lowTable start)

theorem atIssue_built : AtIssue alloc start fuel sector sectorCount buffer
    fun m t => Built m t sector sectorCount :=
  fun v _ _ hr => wp_ok (wp_reach (read_built fuel buffer start ⟨rfl, rfl⟩) hr) v rfl

/-- What the fields say decides what holds at the issue. -/
theorem atIssue_iff {P : Mem → Nat → Prop} {F : Prop}
    (h : ∀ m t, Built m t sector sectorCount → (P m t ↔ F)) :
    AtIssue alloc start fuel sector sectorCount buffer P ↔ F := by
  have hbuilt := atIssue_built alloc start fuel sector sectorCount buffer
  constructor
  · intro hP
    obtain ⟨k, w, hr⟩ := issue_reached alloc fuel sector sectorCount buffer start
    exact (h _ _ (hbuilt 1 k w hr)).mp (hP 1 k w hr)
  · intro hF v k w hr
    exact (h _ _ (hbuilt v k w hr)).mpr hF

/-- The FIS encodes exactly the sectors below `2 ^ 24`. -/
theorem sector_encoded_iff : AtIssue alloc start fuel sector sectorCount buffer
    (fun m t => fisSector m t = sector) ↔ sector < 2 ^ 24 :=
  atIssue_iff alloc start fuel sector sectorCount buffer fun _ _ => fisSector_eq_iff

/-- Sector `2 ^ 24` is encoded as 0. -/
theorem sector_lost : ¬ AtIssue (fun h _ => (0, h)) ⟨fun _ => 0, bootHeap fun _ => 0⟩ 1
    (2 ^ 24) 1 0 fun m t => fisSector m t = 2 ^ 24 := by
  intro h
  obtain ⟨k, w, hr⟩ := issue_reached (fun h _ => (0, h)) 1 (2 ^ 24) 1 0
    ⟨fun _ => 0, bootHeap fun _ => 0⟩
  have hlt := (fisSector_eq_iff (atIssue_built _ _ 1 (2 ^ 24) 1 0 1 k w hr)).mp (h 1 k w hr)
  exact absurd hlt (Nat.lt_irrefl _)

/-- Every run of `Read` that returns without the issue returns 0. -/
def ZeroUnissued : Prop :=
  ∀ r s, Reach (sharedWorld alloc).recorded
    (read fuel sector sectorCount buffer, (start, [])) (.ret r, s) → issued s.2 = false → r = 0

theorem zero_unissued : ZeroUnissued alloc start fuel sector sectorCount buffer := by
  intro r s hreach hs
  obtain ⟨-, hcase⟩ := wp_ret (wp_reach (read_waits fuel sector sectorCount buffer _ rfl) hreach)
  rcases hcase with ⟨-, hissued⟩ | ⟨hr, -⟩
  · rw [hs] at hissued
    cases hissued
  · exact hr

/-- `Read` transfers what it was asked for, or returns 0, exactly for 1 to 8192 sectors. -/
theorem transfers_iff :
    (AtIssue alloc start fuel sector sectorCount buffer fun m t => Transfers m t sectorCount) ∧
      ZeroUnissued alloc start fuel sector sectorCount buffer ↔
    1 ≤ sectorCount ∧ sectorCount ≤ 8192 := by
  rw [atIssue_iff alloc start fuel sector sectorCount buffer fun _ _ => transfers_of_built]
  exact and_iff_left (zero_unissued alloc start fuel sector sectorCount buffer)

/-- For 8193 sectors the PRDT entry asks for 512 bytes. -/
theorem transfer_cut : ¬ AtIssue (fun h _ => (0, h)) ⟨fun _ => 0, bootHeap fun _ => 0⟩ 1 0 8193 0
    fun m t => Transfers m t 8193 := by
  intro h
  obtain ⟨k, w, hr⟩ := issue_reached (fun h _ => (0, h)) 1 0 8193 0
    ⟨fun _ => 0, bootHeap fun _ => 0⟩
  have hlt := (transfers_of_built (atIssue_built _ _ 1 0 8193 0 1 k w hr)).mp (h 1 k w hr)
  exact absurd hlt.2 (by decide)

end Issue

end SeshOS.Disks
