/-
  `ProbePorts` over the whole loop: which port table the driver ends up with.

  `Filled` is the invariant of the loop as long as it stores inside the table: the usable ports
  met so far fill the entries from `b` on, where `b` is what the heap held at `portCount`. Once
  the loop has stored outside (`Spilled`) nothing brings that back. `tableRight_iff` puts the two
  together.
-/
import SeshOS.Disks.Ports

namespace SeshOS.Disks

open Base SeshOS.Memory

/-! ## The loop -/

/-- Where the `Port` of the `k`-th usable port is, for the driver at `driver`: the blocks of
    `malloc` follow each other. -/
def portBlock (driver k : Nat) : Nat := (driver + (296 + 48 * k)) % 2 ^ 64

/-- The loop has taken the ports `us`, with `b` in `portCount` to begin with, and has stored
    inside the table only. -/
structure Filled (regs : Regs) (abar driver b : Nat) (us : List Nat) (s : Probe) : Prop where
  off : s.heap.haveAllocated = false
  top : s.heap.top = (driver + (280 + 48 * us.length)) % 2 ^ 64
  base : driverAbar s.heap.mem driver = abar
  count : driverPortCount s.heap.mem driver = b + us.length
  stored : ∀ k ∈ s.stored, k < 32
  slots : ∀ k < us.length, b + k < 32 ∧ driverPort s.heap.mem driver (b + k) = portBlock driver k
  ports : ∀ k i, us[k]? = some i → Describes regs abar s.heap.mem driver (b + k) i

/-- The loop has stored outside the table. -/
structure Spilled (s : Probe) : Prop where
  off : s.heap.haveAllocated = false
  stored : ∃ k ∈ s.stored, 32 ≤ k

section Loop

variable {fuel : Nat} {regs : Regs} {abar driver b i : Nat} {us : List Nat} {s : Probe}

/-- A round that takes a port, whatever state it meets. -/
theorem probePort_taken {pi : BitVec 32} (hoff : s.heap.haveAllocated = false)
    (hpi : pi &&& (1#32 <<< i) ≠ 0)
    (ht : checkPortType regs (hbaPorts (driverAbar s.heap.mem driver) i) = .sata ∨
      checkPortType regs (hbaPorts (driverAbar s.heap.mem driver) i) = .satapi) :
    probePort fuel regs driver pi s i = some
      ⟨{ s.heap.append portSize with
          mem := recordPort (s.heap.append portSize).mem driver i
            (checkPortType regs (hbaPorts (driverAbar s.heap.mem driver) i))
            ((s.heap.top + mcbBytes) % 2 ^ 64) },
        s.stored ++ [driverPortCount (s.heap.append portSize).mem driver]⟩ := by
  unfold probePort
  rw [if_pos hpi, if_pos ht, malloc_append fuel s.heap portSize hoff]

variable (fuel) in
/-- After a store outside the table there is always one. -/
theorem Spilled.step {pi : BitVec 32} (h : Spilled s) :
    ∃ s', probePort fuel regs driver pi s i = some s' ∧ Spilled s' := by
  by_cases hpi : pi &&& (1#32 <<< i) ≠ 0
  · by_cases ht : checkPortType regs (hbaPorts (driverAbar s.heap.mem driver) i) = .sata ∨
        checkPortType regs (hbaPorts (driverAbar s.heap.mem driver) i) = .satapi
    · obtain ⟨k, hk, hk32⟩ := h.stored
      exact ⟨_, probePort_taken h.off hpi ht, h.off, k, List.mem_append_left _ hk, hk32⟩
    · exact ⟨s, by rw [probePort, if_pos hpi, if_neg ht], h⟩
  · exact ⟨s, by rw [probePort, if_neg hpi], h⟩

/-- A round passes over a port that is not usable. -/
theorem Filled.skip (h : Filled regs abar driver b us s) (hi : i < 32)
    (hu : ¬ Usable regs abar i) :
    probePort fuel regs driver (portsImplemented regs abar) s i = some s := by
  unfold probePort
  by_cases hpi : portsImplemented regs abar &&& (1#32 <<< i) ≠ 0
  · have ht := fun ht => hu ((usable_iff hi).mpr ⟨hpi, ht⟩)
    rw [← h.base] at ht
    rw [if_pos hpi, if_neg ht]
  · rw [if_neg hpi]

/-- The count a round meets: the block it asked for has not touched it. -/
theorem Filled.count_append (h : Filled regs abar driver b us s) (hlen : us.length < 32) :
    driverPortCount (s.heap.append portSize).mem driver = b + us.length := by
  refine (append_loadLE s.heap portSize ?_).trans h.count
  rw [h.top, Mem.apart_mod]
  exact Mem.apart_offsets driver (by omega) (by unfold mcbBytes; omega) (by decide)

theorem Filled.base_append (h : Filled regs abar driver b us s) (hlen : us.length < 32) :
    driverAbar (s.heap.append portSize).mem driver = abar := by
  refine (append_loadLE s.heap portSize ?_).trans h.base
  rw [h.top, Mem.apart_mod]
  exact Mem.apart_offsets driver (by omega) (by unfold mcbBytes; omega) (by decide)

theorem portBlock_apart (driver : Nat) {k : Nat} (hk : k < 32) :
    Mem.Apart (portBlock driver k) portSize driver ahciDriverSize := by
  unfold portBlock portSize ahciDriverSize
  rw [Mem.apart_mod]
  exact Mem.apart_behind driver (by omega) (by omega)

/-- A round leaves every load that is apart from the new block, its slot and the count. -/
theorem Filled.frame (h : Filled regs abar driver b us s) (hlen : us.length < 32)
    (hroom : b + us.length < 32) (t : PortType) {a l : Nat}
    (hblock : Mem.Apart (driver + (280 + 48 * us.length)) (mcbBytes + portSize) a l)
    (hslot : Mem.Apart (driver + (16 + 8 * (b + us.length))) 8 a l)
    (hcount : Mem.Apart (driver + 272) 1 a l) :
    (recordPort (s.heap.append portSize).mem driver i t (portBlock driver us.length)).loadLE a l =
      s.heap.mem.loadLE a l := by
  rw [recordPort_frame i t (h.count_append hlen) hroom (portBlock_apart driver hlen)
    (Nat.mod_lt _ (Nat.two_pow_pos 64)) ?_ hslot hcount, append_loadLE s.heap portSize ?_]
  · rw [h.top, Mem.apart_mod]
    exact hblock.head (by omega)
  · rw [portBlock, Mem.apart_mod]
    have hpart := hblock.part (o := mcbBytes) (n := portSize) (by omega)
    rwa [Nat.add_assoc, show 280 + 48 * us.length + mcbBytes = 296 + 48 * us.length by
      unfold mcbBytes; omega] at hpart

/-- A port taken into the table: the entries before it stay. -/
theorem Filled.taken (h : Filled regs abar driver b us s) (hlen : us.length < 32)
    (hroom : b + us.length < 32) {p : Nat} (hp : p = portBlock driver us.length) {t : PortType}
    (ht : t = diskType (regs.at (hbaPorts abar i) .signature)) :
    Filled regs abar driver b (us ++ [i])
      ⟨{ s.heap.append portSize with
          mem := recordPort (s.heap.append portSize).mem driver i t p },
        s.stored ++ [driverPortCount (s.heap.append portSize).mem driver]⟩ := by
  subst hp
  obtain ⟨hbase, hcount, hslot, hblock, htype⟩ := recordPort_spec i t (h.count_append hlen)
    hroom (portBlock_apart driver hlen) (Nat.mod_lt _ (Nat.two_pow_pos 64))
  have hslots : ∀ k < us.length, driverPort (recordPort (s.heap.append portSize).mem driver i t
      (portBlock driver us.length)) driver (b + k) = portBlock driver k := by
    intro k hk
    have hin := (h.slots k hk).1
    refine (h.frame hlen hroom t ?_ ?_ ?_).trans (h.slots k hk).2
    · exact Mem.apart_offsets driver (by omega) (by unfold mcbBytes portSize; omega) (by omega)
    · exact Mem.apart_offsets driver (by omega) (by omega) (by omega)
    · exact Mem.apart_offsets driver (by omega) (by omega) (by omega)
  -- the `Port` of an earlier entry is apart from all that the round stores
  have hport : ∀ k < us.length, ∀ o n, o + n ≤ portSize →
      (recordPort (s.heap.append portSize).mem driver i t
        (portBlock driver us.length)).loadLE (portBlock driver k + o) n =
        s.heap.mem.loadLE (portBlock driver k + o) n := by
    intro k hk o n ho
    have happart : ∀ d l, d + l ≤ 296 ∨ 328 + 48 * k ≤ d → d + l ≤ 2 ^ 64 →
        Mem.Apart (driver + d) l (portBlock driver k + o) n := by
      intro d l hd hl
      have hk : Mem.Apart (portBlock driver k) portSize (driver + d) l := by
        rw [portBlock, Mem.apart_mod]
        exact Mem.apart_offsets driver (by unfold portSize; omega) (by unfold portSize; omega) hl
      exact (hk.part ho).symm
    have hin := (h.slots k hk).1
    refine h.frame hlen hroom t (happart _ _ ?_ ?_) (happart _ _ ?_ ?_) (happart _ _ ?_ ?_)
    all_goals
      unfold mcbBytes portSize at *
      omega
  refine ⟨h.off, ?_, hbase.trans (h.base_append hlen), ?_, ?_, ?_, ?_⟩
  · show (s.heap.top + (portSize + mcbBytes) % 2 ^ 64) % 2 ^ 64 = _
    rw [h.top, List.length_append, List.length_singleton]
    unfold portSize mcbBytes
    omega
  · rw [hcount, List.length_append, List.length_singleton, Nat.add_assoc]
  · intro k hk
    rcases List.mem_append.mp hk with hk | hk
    · exact h.stored k hk
    · rw [List.mem_singleton.mp hk, h.count_append hlen]
      exact hroom
  · intro k hk
    rw [List.length_append, List.length_singleton] at hk
    rcases Nat.lt_succ_iff_lt_or_eq.mp hk with hk | rfl
    · exact ⟨(h.slots k hk).1, hslots k hk⟩
    · exact ⟨hroom, hslot⟩
  · intro k j hj
    have hk : k < us.length + 1 := by
      have := (List.getElem?_eq_some_iff.mp hj).1
      simpa using this
    rcases Nat.lt_succ_iff_lt_or_eq.mp hk with hk | rfl
    · rw [List.getElem?_append_left hk] at hj
      obtain ⟨hblock', htype'⟩ := h.ports k j hj
      rw [(h.slots k hk).2] at hblock' htype'
      refine ⟨?_, ?_⟩
      · rw [hslots k hk]
        exact (hport k hk 0 8 (by decide)).trans hblock'
      · rw [hslots k hk]
        exact (hport k hk 8 4 (by decide)).trans htype'
    · rw [List.getElem?_concat_length] at hj
      obtain rfl := Option.some.inj hj
      refine ⟨?_, ?_⟩
      · rw [hslot, hblock, h.base_append hlen]
      · rw [hslot, htype, ht]

variable (fuel) in
/-- A round takes a usable port: into the table while there is room, else outside. -/
theorem Filled.take (h : Filled regs abar driver b us s) (hi : i < 32) (hlen : us.length < 32)
    (hu : Usable regs abar i) :
    ∃ s', probePort fuel regs driver (portsImplemented regs abar) s i = some s' ∧
      if b + us.length < 32 then Filled regs abar driver b (us ++ [i]) s' else Spilled s' := by
  obtain ⟨hpi, ht⟩ := (usable_iff hi).mp hu
  have htype := hu.type
  rw [← h.base] at ht
  refine ⟨_, probePort_taken h.off hpi ht, ?_⟩
  have htop := h.top
  have hcount := h.count_append hlen
  split
  · rename_i hroom
    have hp : (s.heap.top + mcbBytes) % 2 ^ 64 = portBlock driver us.length := by
      unfold mcbBytes portBlock
      omega
    exact h.taken hlen hroom hp (by rw [h.base, htype])
  · rename_i hfull
    refine ⟨h.off, _, List.mem_append_right _ (List.mem_singleton.mpr rfl), ?_⟩
    rw [hcount]
    omega

variable (fuel) in
/-- The loop after `n` ports. With nothing in `portCount` to begin with, it never stores outside
    the table. -/
theorem Filled.run (h : Filled regs abar driver b [] s) {n : Nat} (hn : n ≤ 32) :
    ∃ s', (List.range n).foldlM (probePort fuel regs driver (portsImplemented regs abar)) s =
        some s' ∧
      (Filled regs abar driver b ((List.range n).filter fun i => Usable regs abar i) s' ∨
        b ≠ 0 ∧ Spilled s') := by
  induction n with
  | zero => exact ⟨s, rfl, Or.inl h⟩
  | succ n ih =>
    obtain ⟨t, ht, hcase⟩ := ih (by omega)
    rw [List.range_succ, foldlM_append_of ht, List.filter_append]
    rcases hcase with hfilled | ⟨hb, hspilled⟩
    · by_cases hu : Usable regs abar n
      · have hlen : ((List.range n).filter fun i => Usable regs abar i).length ≤ n :=
          (List.length_filter_le _ _).trans_eq List.length_range
        obtain ⟨s', hs', hif⟩ := hfilled.take fuel (by omega) (by omega) hu
        rw [List.filter_cons_of_pos (by simpa using hu), List.filter_nil]
        refine ⟨s', foldlM_cons_of hs' [], ?_⟩
        split at hif
        · exact Or.inl hif
        · exact Or.inr ⟨by omega, hif⟩
      · rw [List.filter_cons_of_neg (by simpa using hu), List.filter_nil, List.append_nil]
        exact ⟨t, foldlM_cons_of (hfilled.skip (by omega) hu) [], Or.inl hfilled⟩
    · obtain ⟨s', hs', hspilled'⟩ := hspilled.step fuel
      exact ⟨s', foldlM_cons_of hs' [], Or.inr ⟨hb, hspilled'⟩⟩

end Loop

/-! ## AHCIDriver_Init -/

/-- Where the driver goes, and its `portCount` before `ProbePorts`: the heap's. -/
def driverBlock (h : Heap) : Nat := (h.top + mcbBytes) % 2 ^ 64

theorem filled_start (fuel : Nat) (regs : Regs) (config : Mem) (pciBaseAddress : Nat) {h : Heap}
    (hoff : h.haveAllocated = false) :
    ∃ h', ahciDriverProbe fuel regs config pciBaseAddress h =
        (probePorts fuel regs (driverBlock h) h').map (·, driverBlock h) ∧
      Filled regs (bar5 config pciBaseAddress) (driverBlock h)
        (driverPortCount h.mem (driverBlock h)) [] ⟨h', []⟩ := by
  have hheader : Mem.Apart h.top mcbBytes (driverBlock h) ahciDriverSize := by
    refine Mem.Apart.symm ?_
    rw [driverBlock, Mem.apart_mod]
    exact Mem.apart_behind h.top (by unfold mcbBytes; omega) (by decide)
  unfold ahciDriverProbe
  rw [malloc_append fuel h ahciDriverSize hoff]
  refine ⟨_, rfl, hoff, ?_, ?_, ?_, ?_, ?_, ?_⟩
  · show (h.top + (ahciDriverSize + mcbBytes) % 2 ^ 64) % 2 ^ 64 = _
    unfold driverBlock ahciDriverSize mcbBytes
    simp only [List.length_nil]
    omega
  · have hbar : bar5 config pciBaseAddress < 256 ^ 4 := Mem.loadLE_lt _ _ _
    refine (Mem.loadLE_storeLE_self _ (by decide)).trans (Nat.mod_eq_of_lt ?_)
    omega
  · refine (Mem.loadLE_storeLE_apart _ ?_).trans ((Mem.loadLE_storeLE_apart _ ?_).trans
      (append_loadLE h ahciDriverSize ?_))
    · exact Mem.apart_offsets _ (by decide) (by decide) (by decide)
    · exact Mem.apart_offsets _ (o := 0) (by decide) (by decide) (by decide)
    · exact (hheader.symm.part (by decide)).symm
  · exact fun k hk => absurd hk List.not_mem_nil
  · exact fun k hk => absurd hk (Nat.not_lt_zero k)
  · exact fun k i hi => by cases hi

/-- **The port table is right exactly when the heap held a zero byte at `portCount`.** -/
theorem tableRight_iff (fuel : Nat) (mem : Mem) (base : Nat) (calls : List Call) (t : Session)
    (hrun : calls.foldlM (Session.step fuel) (Session.start mem base) = some t)
    (regs : Regs) (config : Mem) (pciBaseAddress : Nat) :
    ∃ s driver, ahciDriverProbe fuel regs config pciBaseAddress t.heap = some (s, driver) ∧
      (TableRight regs (bar5 config pciBaseAddress) s driver ↔
        driverPortCount t.heap.mem (driverBlock t.heap) = 0) := by
  have hD : Dormant t :=
    foldlM_keeps Dormant (fun _ _ _ hD hs => dormant_step hD hs) calls
      (dormant_start mem base) hrun
  obtain ⟨h', hprobe, hstart⟩ := filled_start fuel regs config pciBaseAddress hD.off
  obtain ⟨s, hs, hcase⟩ := hstart.run fuel (n := 32) (le_refl 32)
  refine ⟨s, driverBlock t.heap, ?_, ?_⟩
  · rw [hprobe, probePorts, hstart.base, hs]
    rfl
  · rcases hcase with hfilled | ⟨hb, hspilled⟩
    · constructor
      · intro hright
        have hcount := hright.count
        rw [hfilled.count] at hcount
        exact Nat.add_eq_right.mp hcount
      · intro hb
        rw [hb] at hfilled
        refine ⟨by rw [hfilled.count, Nat.zero_add]; rfl, fun k i hi => ?_, hfilled.stored⟩
        have := hfilled.ports k i hi
        rwa [Nat.zero_add] at this
    · obtain ⟨k, hk, hk32⟩ := hspilled.stored
      refine iff_of_false (fun hright => ?_) hb
      exact absurd (hright.inside k hk) (by omega)

/-- The registers of an adapter at 0 with one ATA disk, on port 0. -/
def oneDisk : Regs := fun a =>
  if a = 0x0C then 1 else if a = 0x124 then sataSigAta else if a = 0x128 then 0x123 else 0

/-- A heap of zeros, with one block handed out before. -/
theorem tableRight_iff_zeros :
    ∃ t, [Call.malloc 8].foldlM (Session.step 0) (Session.start (fun _ => 0) 4096) = some t ∧
      ∃ s driver, ahciDriverProbe 0 oneDisk (fun _ => 0) 0 t.heap = some (s, driver) ∧
        (TableRight oneDisk (bar5 (fun _ => 0) 0) s driver ↔
          driverPortCount t.heap.mem (driverBlock t.heap) = 0) :=
  ⟨_, rfl, tableRight_iff 0 (fun _ => 0) 4096 [Call.malloc 8] _ rfl oneDisk (fun _ => 0) 0⟩

/-- One disk and a heap of ones: the count comes out as 2. -/
theorem heap_of_ones_miscounted :
    ∃ s driver, ahciDriverProbe 0 oneDisk (fun _ => 0) 0 (Session.start (fun _ => 1) 4096).heap =
        some (s, driver) ∧
      driverPortCount s.heap.mem driver = 2 ∧
      ¬ TableRight oneDisk (bar5 (fun _ => 0) 0) s driver := by
  refine ⟨_, _, rfl, by decide +kernel, fun h => ?_⟩
  exact absurd h.count (by decide +kernel)

end SeshOS.Disks
