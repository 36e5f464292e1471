/-
  `Configure` and an adapter that moves on its own: the ST/CR and FRE/FR handshake of `cmdSts`.

  The adapter may start its command engine (CR) only while the driver holds ST set, and receive
  FISes (FR) only while it holds FRE set. So once `StopCMD` has cleared the two, a bit that was
  seen clear stays clear, however many polls lie between (`Kept`), and the port is `Stopped` from
  the end of `StopCMD` until `StartCMD` raises FRE again.
-/
import SeshOS.Disks.Port

namespace SeshOS.Disks

open Base SeshOS.Memory

section Bits

variable (r : PortRegs)

def PortRegs.st : Bool := (r .cmdSts).getLsbD 0
def PortRegs.fre : Bool := (r .cmdSts).getLsbD 4
def PortRegs.fr : Bool := (r .cmdSts).getLsbD 14
def PortRegs.cr : Bool := (r .cmdSts).getLsbD 15

end Bits

/-- Any adapter whose CR bit rises only while ST is set, whose FR bit rises only while FRE is
    set, and whose CR and FR bits ignore writes. ST and FRE are the driver's: the adapter never
    raises ST and leaves FRE alone. Nothing is said of other bits and registers. -/
def handshake : Controller where
  tick r r' := (r'.cr → r.cr ∨ r.st) ∧ (r'.fr → r.fr ∨ r.fre) ∧ (r'.st → r.st) ∧ r'.fre = r.fre
  write r q v r' := r'.cr = r.cr ∧ r'.fr = r.fr ∧
    if q = .cmdSts then r'.st = v.getLsbD 0 ∧ r'.fre = v.getLsbD 4
    else r'.st = r.st ∧ r'.fre = r.fre

/-- ST, FRE, CR and FR are all clear. -/
structure Stopped (r : PortRegs) : Prop where
  st : r.st = false
  fre : r.fre = false
  cr : r.cr = false
  fr : r.fr = false

/-- What is asked of a write: a base is written to a stopped port only, and ST is set only with
    CR clear and FRE set. -/
def InOrder : Instr → Host → Prop
  | .writeReg q v, w => (q.isBase → Stopped w.regs) ∧
      (q = .cmdSts → v.getLsbD 0 → w.regs.cr = false ∧ w.regs.fre = true)
  | _, _ => True

/-! ## What the adapter keeps -/

/-- The adapter on its own keeps `R`. -/
def Kept (R : PortRegs → Prop) : Prop := ∀ r r', R r → handshake.tick r r' → R r'

theorem kept_true : Kept fun _ => True := fun _ _ h _ => h

theorem kept_st : Kept fun r => r.st = false := by
  intro r r' h ht
  have hst := ht.2.2.1
  simp_all

/-- With FRE clear. -/
def Off (r : PortRegs) : Prop := r.st = false ∧ r.fre = false

theorem kept_off : Kept Off :=
  fun r r' h ht => ⟨kept_st r r' h.1 ht, ht.2.2.2.trans h.2⟩

/-- FR, once seen clear with FRE clear, stays clear. -/
theorem kept_received : Kept fun r => Off r ∧ r.fr = false := by
  intro r r' h ht
  refine ⟨kept_off r r' h.1 ht, ?_⟩
  have hfre := h.1.2
  have hrise := ht.2.1
  simp_all

theorem kept_stopped : Kept Stopped := by
  intro r r' h ht
  obtain ⟨⟨hst, hfre⟩, hfr⟩ := kept_received r r' ⟨⟨h.st, h.fre⟩, h.fr⟩ ht
  refine ⟨hst, hfre, ?_, hfr⟩
  have hold := h.st
  have hcr := h.cr
  have hrise := ht.1
  simp_all

/-- Between the two writes of `StartCMD`. -/
structure Receiving (r : PortRegs) : Prop where
  st : r.st = false
  cr : r.cr = false
  fre : r.fre = true

theorem kept_receiving : Kept Receiving := by
  intro r r' h ht
  refine ⟨kept_st r r' h.st ht, ?_, ht.2.2.2.trans h.fre⟩
  have hold := h.st
  have hcr := h.cr
  have hrise := ht.1
  simp_all

/-! ## Accesses -/

variable {M : Allocator} {α : Type}

/-- From registers with `P`, `p` keeps the order and ends with `Q`. -/
abbrev Orderly (M : Allocator) (P : PortRegs → Prop) (p : Code α) (Q : α → PortRegs → Prop) :
    Prop :=
  Triple (ahciWorld handshake M) InOrder (fun w => P w.regs) p fun a w => Q a w.regs

theorem Kept.stable {R : PortRegs → Prop} (h : Kept R) :
    Stable (ahciWorld handshake M) fun w => R w.regs :=
  fun w w' hw ht => h w.regs w'.regs hw ht.1

theorem orderly_readReg {q : PortReg} {P : PortRegs → Prop} {Q : BitVec 32 → PortRegs → Prop}
    (hP : Kept P) (hQ : ∀ v, Kept (Q v)) (h : ∀ r, P r → Q (r q) r) :
    Orderly M P (readReg q) Q := by
  refine triple_issue hP.stable (fun v => (hQ v).stable) (fun _ _ => trivial) ?_
  rintro w _ _ hw ⟨rfl, rfl⟩
  exact h _ hw

theorem orderly_writeReg {q : PortReg} {v : BitVec 32} {P Q : PortRegs → Prop} (hP : Kept P)
    (hQ : Kept Q) (hbase : ∀ r, P r → q.isBase → Stopped r)
    (hst : ∀ r, P r → q = .cmdSts → v.getLsbD 0 → r.cr = false ∧ r.fre = true)
    (h : ∀ r r', P r → handshake.write r q v r' → Q r') :
    Orderly M P (writeReg q v) fun _ => Q :=
  triple_issue hP.stable (fun _ => hQ.stable) (fun w hw => ⟨hbase w.regs hw, hst w.regs hw⟩)
    fun w _ w' hw hx => h w.regs w'.regs hw hx.1

/-- A write of `cmdSts` that leaves ST clear is in order. -/
theorem orderly_clear {v : BitVec 32} {P Q : PortRegs → Prop} (hP : Kept P) (hQ : Kept Q)
    (hv : v.getLsbD 0 = false)
    (h : ∀ r r', P r → r'.cr = r.cr → r'.fr = r.fr → r'.st = false → r'.fre = v.getLsbD 4 → Q r') :
    Orderly M P (writeReg .cmdSts v) fun _ => Q := by
  refine orderly_writeReg hP hQ (fun r _ hb => by cases hb) (fun r _ _ h0 => ?_) ?_
  · rw [hv] at h0
    cases h0
  · rintro r r' hr ⟨hcr, hfr, hst, hfre⟩
    exact h r r' hr hcr hfr (hst.trans hv) hfre

/-- An access other than a register write leaves the registers alone. -/
theorem orderly_keeps {i : Instr} (hi : ∀ q v, i ≠ .writeReg q v) {P : PortRegs → Prop}
    (hP : Kept P) : Orderly M P (.op i .ret) fun _ => P := by
  refine triple_issue hP.stable (fun _ => hP.stable) (fun w _ => ?_) fun w x w' hw hx => ?_
  · cases i with
    | writeReg q v => exact absurd rfl (hi q v)
    | _ => trivial
  · have hregs : w'.regs = w.regs := by
      cases i with
      | readReg q => rw [hx.2]
      | writeReg q v => exact absurd rfl (hi q v)
      | malloc size => exact hx.2
      | load p a o k => rw [hx.2]
      | store p a o v k =>
        rw [show w' = _ from hx]
        rfl
      | memset p a v k =>
        rw [show w' = _ from hx]
        rfl
    rw [hregs]
    exact hw

/-! ## StopCMD -/

theorem and_fr_iff (v : BitVec 32) : v &&& hbaPxCmdFr ≠ 0 ↔ v.getLsbD 14 = true :=
  and_bit_iff v (i := 14) (by decide)

theorem and_cr_iff (v : BitVec 32) : v &&& hbaPxCmdCr ≠ 0 ↔ v.getLsbD 15 = true :=
  and_bit_iff v (i := 15) (by decide)

/-- One round of the loop: FR is read first, and stays clear while CR is read. -/
theorem commandStopped_orderly :
    Orderly M Off commandStopped fun done r => if done then Stopped r else Off r := by
  unfold commandStopped
  refine triple_bind (R := fun v w => Off w.regs ∧ (v.getLsbD 14 = false → w.regs.fr = false))
    (orderly_readReg (Q := fun v r => Off r ∧ (v.getLsbD 14 = false → r.fr = false)) kept_off
      (fun v r r' h ht => ?_) fun r h => ⟨h, id⟩) fun v => ?_
  · exact ⟨kept_off r r' h.1 ht, fun hv => (kept_received r r' ⟨h.1, h.2 hv⟩ ht).2⟩
  · split
    · exact triple_ret kept_off.stable fun w hw => hw.1
    · rename_i hfr
      rw [and_fr_iff, Bool.not_eq_true] at hfr
      refine triple_bind (R := fun v w => (Off w.regs ∧ w.regs.fr = false) ∧
        (v.getLsbD 15 = false → Stopped w.regs)) (triple_weaken (orderly_readReg
          (Q := fun v r => (Off r ∧ r.fr = false) ∧ (v.getLsbD 15 = false → Stopped r))
          kept_received (fun v r r' h ht => ?_) fun r h => ?_)
          (fun w hw => ⟨hw.1, hw.2 hfr⟩) fun _ _ h => h) fun v => ?_
      · exact ⟨kept_received r r' h.1 ht, fun hv => kept_stopped r r' (h.2 hv) ht⟩
      · exact ⟨h, fun hcr => ⟨h.1.1, h.1.2, hcr, h.2⟩⟩
      · split
        · exact triple_ret kept_off.stable fun w hw => hw.1.1
        · rename_i hcr
          rw [and_cr_iff, Bool.not_eq_true] at hcr
          exact triple_ret kept_stopped.stable fun w hw => hw.2 hcr

/-- `StopCMD` leaves a stopped port. -/
theorem stopCMD_orderly (fuel : Nat) :
    Orderly M (fun _ => True) (stopCMD fuel) fun _ => Stopped := by
  have hst : ∀ v : BitVec 32, (v &&& ~~~hbaPxCmdSt).getLsbD 0 = false := by
    intro v
    simp [hbaPxCmdSt]
  have hfre : ∀ v : BitVec 32, v.getLsbD 0 = false → (v &&& ~~~hbaPxCmdFre).getLsbD 0 = false ∧
      (v &&& ~~~hbaPxCmdFre).getLsbD 4 = false := by
    intro v hv
    exact ⟨by simpa [hbaPxCmdFre] using hv, by simp [hbaPxCmdFre]⟩
  unfold stopCMD
  refine triple_bind (orderly_readReg (Q := fun _ _ => True) kept_true (fun _ => kept_true)
    fun _ _ => trivial) fun v => ?_
  refine triple_bind (orderly_clear (Q := fun r => r.st = false) kept_true kept_st (hst v)
    fun r r' _ _ _ h0 _ => h0) fun _ => ?_
  refine triple_bind (orderly_readReg (Q := fun v r => r.st = false ∧ v.getLsbD 0 = false) kept_st
    (fun v r r' h ht => ⟨kept_st r r' h.1 ht, h.2⟩) fun r h => ⟨h, h⟩) fun v => ?_
  refine triple_fact fun hv => ?_
  refine triple_bind (orderly_clear (Q := Off) kept_st kept_off (hfre v hv).1
    fun r r' _ _ _ h0 h4 => ⟨h0, h4.trans (hfre v hv).2⟩) fun _ => ?_
  exact triple_repeatUntil kept_stopped.stable commandStopped_orderly fuel

/-! ## The structures -/

/-- An access of `Configure` between the two: a base write, or no register write at all. -/
theorem stopped_base {q : PortReg} (hq : q.isBase) (v : BitVec 32) :
    Orderly M Stopped (writeReg q v) fun _ => Stopped := by
  have hne : q ≠ .cmdSts := by
    rintro rfl
    cases hq
  refine orderly_writeReg kept_stopped kept_stopped (fun r h _ => h) (fun r _ h => absurd h hne) ?_
  rintro r r' hr ⟨hcr, hfr, hrest⟩
  rw [if_neg hne] at hrest
  exact ⟨hrest.1.trans hr.st, hrest.2.trans hr.fre, hcr.trans hr.cr, hfr.trans hr.fr⟩

theorem stopped_other {i : Instr} (hi : ∀ q v, i ≠ .writeReg q v) :
    Orderly M Stopped (.op i .ret) fun _ => Stopped :=
  orderly_keeps hi kept_stopped

theorem configureStopped_orderly : Orderly M Stopped configureStopped fun _ => Stopped := by
  unfold configureStopped
  refine triple_bind (stopped_other (by simp)) fun newBase => ?_
  refine triple_bind (stopped_base rfl _) fun _ => ?_
  refine triple_bind (stopped_base rfl _) fun _ => ?_
  refine triple_bind (stopped_other (by simp)) fun list => ?_
  refine triple_bind (stopped_other (by simp)) fun _ => ?_
  refine triple_bind (stopped_other (by simp)) fun fisBase => ?_
  refine triple_bind (stopped_base rfl _) fun _ => ?_
  refine triple_bind (stopped_base rfl _) fun _ => ?_
  refine triple_bind (stopped_other (by simp)) fun _ => ?_
  refine triple_bind (stopped_other (by simp)) fun low => ?_
  refine triple_bind (stopped_other (by simp)) fun high => ?_
  refine triple_walk kept_stopped.stable fun i _ => ?_
  unfold configureSlot
  refine triple_bind (stopped_other (by simp)) fun _ => ?_
  refine triple_bind (stopped_other (by simp)) fun cmdTableAddress => ?_
  refine triple_bind (stopped_other (by simp)) fun _ => ?_
  refine triple_bind (stopped_other (by simp)) fun _ => ?_
  exact stopped_other (by simp)

/-! ## StartCMD -/

theorem startCMD_orderly (fuel : Nat) :
    Orderly M Stopped (startCMD fuel) fun _ _ => True := by
  have hfre : ∀ v : BitVec 32, v.getLsbD 0 = false → (v ||| hbaPxCmdFre).getLsbD 0 = false ∧
      (v ||| hbaPxCmdFre).getLsbD 4 = true := by
    intro v hv
    exact ⟨by simpa [hbaPxCmdFre] using hv, by simp [hbaPxCmdFre]⟩
  have hpoll : Orderly M Stopped listStopped fun done r => if done then Stopped r else Stopped r := by
    refine triple_bind (stopped_other (by simp)) fun v => ?_
    exact triple_ret (by simpa using kept_stopped.stable) fun w hw => by simpa using hw
  unfold startCMD
  refine triple_bind (triple_repeatUntil kept_stopped.stable hpoll fuel) fun _ => ?_
  refine triple_bind (orderly_readReg (Q := fun v r => Stopped r ∧ v.getLsbD 0 = false)
    kept_stopped (fun v r r' h ht => ⟨kept_stopped r r' h.1 ht, h.2⟩) fun r h => ⟨h, h.st⟩)
    fun v => ?_
  refine triple_fact fun hv => ?_
  refine triple_bind (orderly_clear (Q := Receiving) kept_stopped kept_receiving (hfre v hv).1
    fun r r' h hcr _ h0 h4 => ⟨h0, hcr.trans h.cr, h4.trans (hfre v hv).2⟩) fun _ => ?_
  refine triple_bind (orderly_readReg (Q := fun _ => Receiving) kept_receiving
    (fun _ => kept_receiving) fun _ h => h) fun v => ?_
  exact orderly_writeReg kept_receiving kept_true (fun _ _ hb => by cases hb)
    (fun r h _ _ => ⟨h.cr, h.fre⟩) fun _ _ _ _ => trivial

theorem configure_orderly (fuel : Nat) :
    Orderly M (fun _ => True) (configure fuel) fun _ _ => True :=
  triple_bind (stopCMD_orderly fuel) fun _ =>
    triple_bind configureStopped_orderly fun _ => startCMD_orderly fuel

/-- **A port is configured while stopped only.** In every run of `Configure` against such an
    adapter, from any registers and any heap, with any interleaving and any number of polls:
    when the next access writes a base register, ST, FRE, CR and FR are clear, and when it sets
    ST, CR is clear and FRE is set. -/
theorem configured_while_stopped (M : Allocator) (fuel : Nat) (start w : Host) (q : PortReg)
    (v : BitVec 32) (k : Unit → Code Unit)
    (hrun : Reach (ahciWorld handshake M) (configure fuel, start) (.op (.writeReg q v) k, w)) :
    (q.isBase → Stopped w.regs) ∧
      (q = .cmdSts → v.getLsbD 0 → w.regs.cr = false ∧ w.regs.fre = true) :=
  have h : InOrder (.writeReg q v) w := wp_ok (wp_reach (configure_orderly fuel start trivial) hrun)
  h

/-- A write as the adapter takes it: CR and FR stay. -/
def ignoringWrite (r : PortRegs) (q : PortReg) (v : BitVec 32) : PortRegs := fun p =>
  if p = q then
    if q = .cmdSts then (v &&& ~~~(hbaPxCmdCr ||| hbaPxCmdFr)) |||
      (r .cmdSts &&& (hbaPxCmdCr ||| hbaPxCmdFr))
    else v
  else r p

theorem ignoringWrite_handshake (r : PortRegs) (q : PortReg) (v : BitVec 32) :
    handshake.write r q v (ignoringWrite r q v) := by
  by_cases hq : q = .cmdSts
  · subst hq
    refine ⟨?_, ?_, ?_⟩
    · simp [PortRegs.cr, ignoringWrite, hbaPxCmdCr, hbaPxCmdFr]
    · simp [PortRegs.fr, ignoringWrite, hbaPxCmdCr, hbaPxCmdFr]
    · simp [PortRegs.st, PortRegs.fre, ignoringWrite, hbaPxCmdCr, hbaPxCmdFr]
  · have hsame : ignoringWrite r q v .cmdSts = r .cmdSts := if_neg (Ne.symm hq)
    refine ⟨?_, ?_, ?_⟩
    · rw [PortRegs.cr, hsame, PortRegs.cr]
    · rw [PortRegs.fr, hsame, PortRegs.fr]
    · rw [if_neg hq, PortRegs.st, PortRegs.fre, hsame]
      exact ⟨rfl, rfl⟩

/-- `malloc` with the scan off. -/
def bumpMalloc (h : Heap) (n : Nat) : Nat × Heap := ((h.top + mcbBytes) % 2 ^ 64, h.append n)

/-- A port with ST and FRE set, and an empty heap. -/
def enabledPort : Host where
  regs q := if q = .cmdSts then 0x11 else 0
  heap := bootHeap fun _ => 0

/-- `Configure` of that port, up to the first base register. -/
theorem configured_while_stopped_enabled :
    ∃ (w : Host) (v : BitVec 32) (k : Unit → Code Unit),
      Reach (ahciWorld handshake fun h n p h' => (p, h') = bumpMalloc h n)
        (configure 1, enabledPort) (.op (.writeReg .commandListBase v) k, w) ∧
      (PortReg.isBase .commandListBase → Stopped w.regs) ∧
      (PortReg.commandListBase = .cmdSts → v.getLsbD 0 →
        w.regs.cr = false ∧ w.regs.fre = true) := by
  have hreach := reach_drive (fun i w => ⟨w, Relation.ReflTransGen.refl,
    answering_exec _ bumpMalloc ignoringWrite_handshake
      (M := fun h n p h' => (p, h') = bumpMalloc h n) (fun _ _ => rfl) i w⟩) 7 (configure 1, enabledPort)
  exact ⟨_, _, _, hreach, configured_while_stopped _ 1 _ _ _ _ _ hreach⟩

end SeshOS.Disks
