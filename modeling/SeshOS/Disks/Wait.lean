/-
  The wait of `Read` for the drive: the polls of `taskFileData` until BUSY and DRQ are clear or
  the budget is spent, for any adapter.

  `polls` and `issued` read the record of a run. Nothing but the loop polls (`triple_quiet`), a
  round of the loop adds one poll, and the loop is left with `false` only by a poll that was
  ready (`spinOut_polls`).
-/
import SeshOS.Disks.Port

namespace SeshOS.Disks

open Base SeshOS.Memory

/-- The values that the polls of `taskFileData` have seen. -/
def polls (es : Record) : List (BitVec 32) :=
  es.filterMap fun
    | ⟨.readReg .taskFileData, v⟩ => some v
    | _ => none

/-- A write of `commandIssue` is among them. -/
def issued (es : Record) : Bool :=
  es.any fun e => match e.1 with
    | .writeReg .commandIssue _ => true
    | _ => false

/-- The value polled last has BUSY and DRQ clear; or has one of them set. -/
def LastReady (es : Record) : Prop :=
  ∃ v, (polls es).getLast? = some v ∧ v &&& (ataDevBusy ||| ataDevDrq) = 0

def LastBusy (es : Record) : Prop :=
  ∃ v, (polls es).getLast? = some v ∧ v &&& (ataDevBusy ||| ataDevDrq) ≠ 0

theorem LastReady.not_busy {es : Record} (h : LastReady es) : ¬ LastBusy es := by
  rintro ⟨v, hv, hbusy⟩
  obtain ⟨u, hu, hready⟩ := h
  obtain rfl := Option.some.inj (hu.symm.trans hv)
  exact hbusy hready

/-- Neither a poll nor the issue. -/
def Instr.quiet : Instr → Bool
  | .readReg .taskFileData | .writeReg .commandIssue _ => false
  | _ => true

/-! ## The record after one more instruction -/

theorem polls_append (es : Record) (e : Event Instr Answer) :
    polls (es ++ [e]) = polls es ++ polls [e] := List.filterMap_append

theorem issued_append (es : Record) (e : Event Instr Answer) :
    issued (es ++ [e]) = (issued es || issued [e]) := List.any_append

theorem quiet_event {i : Instr} (hi : i.quiet) (x : Answer i) :
    polls [⟨i, x⟩] = [] ∧ issued [⟨i, x⟩] = false := by
  cases i with
  | readReg r => cases r <;> first | exact ⟨rfl, rfl⟩ | cases hi
  | writeReg r v => cases r <;> first | exact ⟨rfl, rfl⟩ | cases hi
  | malloc n => exact ⟨rfl, rfl⟩
  | load p a o k => exact ⟨rfl, rfl⟩
  | store p a o v k => exact ⟨rfl, rfl⟩
  | memset p a v k => exact ⟨rfl, rfl⟩

/-! ## The parts of Read -/

section Wait

variable {C : Controller} {M : Allocator} {α : Type}

/-- What is asked of each instruction: the budget of polls, and a ready drive at the issue. -/
def WaitOk (i : Instr) (s : Host × Record) : Prop :=
  (polls s.2).length ≤ 1000001 ∧ ∀ v, i = .writeReg .commandIssue v → LastReady s.2

/-- Quiet code leaves the polls and the issue as they are. -/
theorem triple_quiet {F : List (BitVec 32) → Bool → Prop} {p : Code α}
    (hF : ∀ l b, F l b → l.length ≤ 1000001) (hp : p.Only fun i => i.quiet) :
    Triple (ahciWorld C M).recorded WaitOk (fun s => F (polls s.2) (issued s.2)) p
      fun _ s => F (polls s.2) (issued s.2) := by
  refine triple_only hp (stable_record fun es => F (polls es) (issued es))
    (fun i s hi hs => ⟨hF _ _ hs, ?_⟩) fun i s x s' hi hs hx => ?_
  · rintro v rfl
    cases hi
  · obtain ⟨hpoll, hissue⟩ := quiet_event hi x
    rw [hx.2, polls_append, issued_append, hpoll, hissue, List.append_nil, Bool.or_false]
    exact hs

/-- There may be `n` more polls, and the command is not issued. -/
def Within (n : Nat) (es : Record) : Prop := (polls es).length + n ≤ 1000001 ∧ issued es = false

/-- One poll, whatever its value. -/
theorem Within.poll {n : Nat} {es : Record} (h : Within (n + 1) es) (v : BitVec 32) :
    Within n (es ++ [⟨.readReg .taskFileData, v⟩]) ∧
      (polls (es ++ [⟨.readReg .taskFileData, v⟩])).getLast? = some v := by
  have hlen : (polls es ++ [v]).length = (polls es).length + 1 := List.length_append
  obtain ⟨hpolls, hissued⟩ := h
  refine ⟨⟨?_, ?_⟩, ?_⟩
  · rw [polls_append, show polls [⟨.readReg .taskFileData, v⟩] = [v] from rfl, hlen]
    omega
  · rw [issued_append, hissued]
    rfl
  · rw [polls_append]
    exact List.getLast?_concat

theorem triple_poll (n : Nat) :
    Triple (ahciWorld C M).recorded WaitOk (fun s => Within (n + 1) s.2)
      (readReg .taskFileData) fun v s => Within n s.2 ∧ (polls s.2).getLast? = some v := by
  refine triple_issue (stable_record (Within (n + 1)))
    (fun v => stable_record fun es => Within n es ∧ (polls es).getLast? = some v)
    (fun s hs => ⟨?_, fun v hv => by cases hv⟩) ?_
  · have hlen := hs.1
    omega
  · rintro s v s' hs ⟨-, hes⟩
    rw [hes]
    exact hs.poll v

/-- With `left` rounds to go the loop polls at most `left + 1` times. -/
theorem spinOut_polls (left : Nat) :
    Triple (ahciWorld C M).recorded WaitOk (fun s => Within (left + 1) s.2) (spinOut left)
      fun out s => Within 0 s.2 ∧ (out = false → LastReady s.2) := by
  induction left with
  | zero =>
    refine triple_bind (triple_poll 0) fun v => ?_
    exact triple_ret (stable_record fun es => Within 0 es ∧ (true = false → LastReady es))
      fun s hs => ⟨hs.1, fun hout => by cases hout⟩
  | succ left ih =>
    refine triple_bind (triple_poll (left + 1)) fun v => ?_
    split
    · exact triple_weaken ih (fun s hs => hs.1) fun _ _ hs => hs
    · next hready =>
      refine triple_ret (stable_record fun es => Within 0 es ∧ (false = false → LastReady es))
        fun s hs => ⟨⟨?_, hs.1.2⟩, fun _ => ⟨v, hs.2, not_not.mp hready⟩⟩
      have hlen := hs.1.1
      omega

theorem readHeader_quiet : readHeader.Only fun i => i.quiet := by
  iterate 9 refine ⟨rfl, fun _ => ?_⟩
  trivial

theorem readCommand_quiet (t sector sectorCount buffer : Nat) :
    (readCommand t sector sectorCount buffer).Only fun i => i.quiet := by
  iterate 19 refine ⟨rfl, fun _ => ?_⟩
  trivial

theorem awaitCommand_quiet (fuel : Nat) : (awaitCommand fuel).Only fun i => i.quiet :=
  (awaitCommand_only fuel).mono fun i hi => by
    rcases hi with rfl | rfl <;> rfl

/-- Where a run of `Read` has returned `r`. -/
def Returned (r : Nat) (es : Record) : Prop :=
  (polls es).length ≤ 1000001 ∧
    (LastReady es ∧ issued es = true ∨ r = 0 ∧ issued es = false)

theorem issue_waits (fuel : Nat) :
    Triple (ahciWorld C M).recorded WaitOk (fun s => Within 0 s.2 ∧ LastReady s.2)
      (writeReg .commandIssue 1 >>= fun _ => awaitCommand fuel) fun r s => Returned r s.2 := by
  let F (l : List (BitVec 32)) (b : Bool) : Prop := l.length ≤ 1000001 ∧
    (∃ v, l.getLast? = some v ∧ v &&& (ataDevBusy ||| ataDevDrq) = 0) ∧ b = true
  refine triple_bind (R := fun _ s => F (polls s.2) (issued s.2))
    (triple_issue (stable_record fun es => Within 0 es ∧ LastReady es)
      (fun _ => stable_record fun es => F (polls es) (issued es))
      (fun s hs => ⟨hs.1.1, fun _ _ => hs.2⟩) ?_) fun _ => ?_
  · intro s x s' hs hx
    rw [hx.2, polls_append, issued_append, show polls [⟨.writeReg .commandIssue 1, x⟩] = [] from rfl,
      List.append_nil]
    exact ⟨hs.1.1, hs.2, Bool.or_true _⟩
  · exact triple_weaken (triple_quiet (fun _ _ hs => hs.1) (awaitCommand_quiet fuel))
      (fun _ hs => hs) fun r s hs => ⟨hs.1, Or.inl hs.2⟩

theorem read_waits (fuel sector sectorCount buffer : Nat) :
    Triple (ahciWorld C M).recorded WaitOk (fun s => s.2 = [])
      (read fuel sector sectorCount buffer) fun r s => Returned r s.2 := by
  let F (l : List (BitVec 32)) (b : Bool) : Prop := l = [] ∧ b = false
  have hquiet : ∀ {β : Type} {p : Code β}, p.Only (fun i => i.quiet) →
      Triple (ahciWorld C M).recorded WaitOk (fun s => F (polls s.2) (issued s.2)) p
        fun _ s => F (polls s.2) (issued s.2) :=
    fun hp => triple_quiet (fun l b hs => by rw [hs.1]; exact Nat.zero_le _) hp
  refine triple_weaken (R := fun s => F (polls s.2) (issued s.2)) ?_ ?_ fun _ _ hs => hs
  · unfold read
    refine triple_bind (hquiet ⟨rfl, fun _ => trivial⟩) fun _ => ?_
    refine triple_bind (hquiet readHeader_quiet) fun t => ?_
    refine triple_bind (hquiet (readCommand_quiet t sector sectorCount buffer)) fun _ => ?_
    refine triple_bind (triple_weaken (spinOut_polls 1000000) ?_ fun _ _ hs => hs) fun out => ?_
    · rintro s ⟨hpolls, hissued⟩
      exact ⟨by rw [hpolls]; exact Nat.le_refl _, hissued⟩
    cases out with
    | true =>
      exact triple_ret (stable_record (Returned 0)) fun s hs => ⟨hs.1.1, Or.inr ⟨rfl, hs.1.2⟩⟩
    | false => exact triple_weaken (issue_waits fuel) (fun s hs => ⟨hs.1, hs.2 rfl⟩) fun _ _ hs => hs
  · intro s hs
    rw [hs]
    exact ⟨rfl, rfl⟩

theorem spinOut_ends (left : Nat) : (spinOut left).Ends := by
  induction left with
  | zero => exact fun _ => trivial
  | succ left ih =>
    intro (v : BitVec 32)
    show Prog.Ends (if v &&& (ataDevBusy ||| ataDevDrq) ≠ 0 then spinOut left else pure false)
    split
    · exact ih
    · trivial

end Wait

/-- The wait always ends, after at most 1000001 polls in any run; the command is issued only
    when the last of them was ready, and when it was not `Read` returns 0 without the issue. -/
theorem read_waits_ready (C : Controller) (M : Allocator) (start : Host)
    (fuel sector sectorCount buffer : Nat) :
    (spinOut 1000000).Ends ∧
    (∀ i k s, Reach (ahciWorld C M).recorded
        (read fuel sector sectorCount buffer, (start, [])) (.op i k, s) →
      (polls s.2).length ≤ 1000001 ∧ ∀ v, i = .writeReg .commandIssue v → LastReady s.2) ∧
    ∀ r s, Reach (ahciWorld C M).recorded
        (read fuel sector sectorCount buffer, (start, [])) (.ret r, s) →
      (polls s.2).length ≤ 1000001 ∧ (LastBusy s.2 → r = 0 ∧ issued s.2 = false) := by
  have hwp := read_waits (C := C) (M := M) fuel sector sectorCount buffer (start, []) rfl
  refine ⟨spinOut_ends 1000000, ?_, ?_⟩
  · intro i k s hreach
    have hok : WaitOk i s := wp_ok (wp_reach hwp hreach)
    exact hok
  · intro r s hreach
    obtain ⟨hlen, hcase⟩ := wp_ret (wp_reach hwp hreach)
    refine ⟨hlen, fun hbusy => ?_⟩
    rcases hcase with ⟨hready, -⟩ | hzero
    · exact absurd hbusy hready.not_busy
    · exact hzero

end SeshOS.Disks
