/-
  What a reader of the character stream keeps.

  The reader is the purpose of `FBCON_Write` and `TTY_HandleEsc` without their buffer: text
  so far, attributes, and the bytes of the unfinished escape sequence if there is one. It
  never searches what it collected: a sequence ends at the first `m` behind a `[`, unless a
  NUL came before.
-/
import SeshOS.Video.Console

namespace SeshOS.Video

open Base Libc

/-! ## The reader -/

def bracket : Byte := chr '['
def letterM : Byte := chr 'm'

/-- The bytes behind the first `[`. -/
def afterBracket : List Byte → List Byte
  | [] => []
  | b :: s => if b = bracket then s else afterBracket s

/-- The eight colours, in the order of their parameters. -/
def palette : List (BitVec 32) :=
  [colorBlack, colorRed, colorGreen, colorYellow, colorBlue, colorPurple, colorCyan, colorLgray]

/-- The listed effects of a parameter: reset, bold on, bold off, foreground, background. -/
def effect (code : Nat) (a : Attrs) : Attrs :=
  if code = 0 then ⟨colorLgray, colorBlack, false⟩
  else if code = 1 then { a with bold := true }
  else if code = 22 then { a with bold := false }
  else if 30 ≤ code ∧ code ≤ 37 then { a with color := palette.getD (code - 30) a.color }
  else if 40 ≤ code ∧ code ≤ 47 then { a with bgColor := palette.getD (code - 40) a.bgColor }
  else a

structure Reader where
  /-- The bytes of the unfinished sequence; `none` outside of sequences. -/
  pending : Option (List Byte)
  attrs : Attrs
  text : List Byte

/-- One character. The unfinished sequence has room for 254 bytes. -/
def Reader.step (r : Reader) (ch : Byte) : Option Reader :=
  if ch = escByte then some { r with pending := some (r.pending.getD []) }
  else
    match r.pending with
    | none => some { r with text := r.text ++ [ch] }
    | some l =>
      if 255 ≤ l.length then none
      else if ch = letterM ∧ bracket ∈ l ∧ 0 ∉ l then
        some { r with pending := none, attrs := effect (decimal (afterBracket l)).toNat r.attrs }
      else some { r with pending := some (l ++ [ch]) }

def Reader.run (r : Reader) (chs : List Byte) : Option Reader := chs.foldlM Reader.step r

/-! ## Runs of the reader -/

theorem Reader.run_cons (r : Reader) (ch : Byte) (chs : List Byte) :
    r.run (ch :: chs) = (r.step ch).bind fun r => r.run chs := List.foldlM_cons

theorem Reader.run_append (r : Reader) (xs ys : List Byte) :
    r.run (xs ++ ys) = (r.run xs).bind fun r => r.run ys := List.foldlM_append

theorem Reader.run_esc (r : Reader) (chs : List Byte) :
    r.run (escByte :: chs) = Reader.run { r with pending := some (r.pending.getD []) } chs := by
  rw [run_cons, step, if_pos rfl, Option.bind_some]

/-- An ESC in the ground state. -/
theorem Reader.step_esc (a : Attrs) :
    Reader.step ⟨none, a, []⟩ escByte = some ⟨some [], a, []⟩ := if_pos rfl

/-- A byte that is neither ESC nor `m` is collected, as long as there is room. -/
theorem Reader.step_collect {r : Reader} {l : List Byte} (hl : r.pending = some l) {ch : Byte}
    (hch : ch ≠ escByte ∧ ch ≠ letterM) (hroom : l.length < 255) :
    r.step ch = some { r with pending := some (l ++ [ch]) } := by
  rw [step, if_neg hch.1, hl]
  dsimp only
  rw [if_neg (by omega), if_neg fun h => hch.2 h.1]

theorem Reader.run_collect {r : Reader} {l : List Byte} (hl : r.pending = some l) {chs : List Byte}
    (hchs : ∀ ch ∈ chs, ch ≠ escByte ∧ ch ≠ letterM) (hroom : l.length + chs.length ≤ 255) :
    r.run chs = some { r with pending := some (l ++ chs) } := by
  induction chs generalizing r l with
  | nil =>
    rw [List.append_nil, ← hl]
    rfl
  | cons ch chs ih =>
    rw [List.length_cons] at hroom
    have hstep := Reader.step_collect hl (hchs ch List.mem_cons_self) (by omega)
    rw [run_cons, hstep, Option.bind_some,
      ih (l := l ++ [ch]) rfl (fun b hb => hchs b (List.mem_cons_of_mem _ hb)) (by simp; omega)]
    simp

/-- Collecting more than the room. -/
theorem Reader.run_overflow {r : Reader} {l : List Byte} (hl : r.pending = some l)
    {chs : List Byte} (hchs : ∀ ch ∈ chs, ch ≠ escByte ∧ ch ≠ letterM) (hne : chs ≠ [])
    (hroom : 255 < l.length + chs.length) : r.run chs = none := by
  induction chs generalizing r l with
  | nil => exact absurd rfl hne
  | cons ch chs ih =>
    rw [List.length_cons] at hroom
    obtain ⟨hesc, hm⟩ := hchs ch List.mem_cons_self
    rw [run_cons, step, if_neg hesc, hl]
    dsimp only
    by_cases hfull : 255 ≤ l.length
    · rw [if_pos hfull]
      rfl
    · rw [if_neg hfull, if_neg fun h => hm h.1, Option.bind_some]
      have hne' : chs ≠ [] := by
        rintro rfl
        simp at hroom
        omega
      exact ih (l := l ++ [ch]) rfl (fun b hb => hchs b (List.mem_cons_of_mem _ hb)) hne'
        (by simp; omega)

/-- The `m` behind a `[` ends the sequence. -/
theorem Reader.step_finish {r : Reader} {l : List Byte} (hl : r.pending = some l)
    (hroom : l.length < 255) (hb : bracket ∈ l) (h0 : 0 ∉ l) :
    r.step letterM = some { r with
      pending := none
      attrs := effect (decimal (afterBracket l)).toNat r.attrs } := by
  rw [step, if_neg (by decide), hl]
  dsimp only
  rw [if_neg (by omega), if_pos ⟨rfl, hb, h0⟩]

/-- A sequence of one parameter string: ESC, `[`, the parameters, `m`. -/
def sgrBytes (params : List Byte) : List Byte := escByte :: (bracket :: params ++ [letterM])

/-- Parameters that `TTY_HandleEsc` reads as one string: no ESC, `m` or NUL in them, and room
    for them in the buffer. -/
structure Params (params : List Byte) : Prop where
  plain : ∀ ch ∈ params, ch ≠ escByte ∧ ch ≠ letterM
  nonzero : 0 ∉ params
  room : params.length ≤ 253

/-- What a sequence does to the attributes. -/
def sgrEffect (params : List Byte) (a : Attrs) : Attrs := effect (decimal params).toNat a

theorem Params.collected {params : List Byte} (h : Params params) :
    (∀ ch ∈ bracket :: params, ch ≠ escByte ∧ ch ≠ letterM) ∧ 0 ∉ bracket :: params := by
  constructor
  · intro ch hch
    rcases List.mem_cons.mp hch with rfl | hch
    · decide
    · exact h.plain ch hch
  · intro h0
    rcases List.mem_cons.mp h0 with h0 | h0
    · exact absurd h0 (by decide)
    · exact h.nonzero h0

/-- The last character of a sequence. -/
theorem Reader.step_sgr {r : Reader} {params : List Byte} (h : Params params)
    (hl : r.pending = some (bracket :: params)) :
    r.step letterM = some { r with pending := none, attrs := sgrEffect params r.attrs } := by
  have hroom := h.room
  rw [step_finish hl (by rw [List.length_cons]; omega) List.mem_cons_self h.collected.2]
  rfl

/-- A whole sequence from the ground state. -/
theorem Reader.run_sgr {r : Reader} (hr : r.pending = none) {params : List Byte}
    (h : Params params) :
    r.run (sgrBytes params) = some { r with pending := none, attrs := sgrEffect params r.attrs } := by
  have hroom := h.room
  have hcollect := Reader.run_collect (r := { r with pending := some [] }) rfl h.collected.1
    (by rw [List.length_cons, List.length_nil]; omega)
  rw [sgrBytes, Reader.run_esc, hr, Option.getD_none, Reader.run_append, hcollect, Option.bind_some,
    Reader.run_cons, Reader.step_sgr h rfl, Option.bind_some]
  rfl

/-! ## The end of a sequence -/

/-- No `m` behind the first `[`, as far as a string function sees. -/
def Unfinished (l : List Byte) : Prop := letterM ∉ afterBracket (visible l)

theorem afterBracket_of_mem {l : List Byte} (h : bracket ∈ l) (t : List Byte) :
    afterBracket (l ++ t) = afterBracket l ++ t := by
  induction l with
  | nil => cases h
  | cons b l ih =>
    rw [List.cons_append, afterBracket, afterBracket]
    by_cases hb : b = bracket
    · rw [if_pos hb, if_pos hb]
    · rw [if_neg hb, if_neg hb, ih ((List.mem_cons.mp h).resolve_left (Ne.symm hb))]

theorem afterBracket_of_notMem {l : List Byte} (h : bracket ∉ l) (t : List Byte) :
    afterBracket (l ++ t) = afterBracket t := by
  induction l with
  | nil => rfl
  | cons b l ih =>
    have hb : b ≠ bracket := (List.ne_of_not_mem_cons h).symm
    rw [List.cons_append, afterBracket, if_neg hb, ih (List.not_mem_of_not_mem_cons h)]

theorem unfinished_nil : Unfinished [] := List.not_mem_nil

/-- Behind a NUL nothing finishes a sequence. -/
theorem unfinished_of_zero {l : List Byte} (h0 : 0 ∈ l) (hl : Unfinished l) (t : List Byte) :
    Unfinished (l ++ t) := by
  rw [Unfinished, visible_append_of_mem h0]
  exact hl

/-- One more byte finishes a sequence only if it is the `m` behind a `[`, with no NUL so
    far. -/
theorem unfinished_append {l : List Byte} (hl : Unfinished l) {ch : Byte}
    (hch : ¬(ch = letterM ∧ bracket ∈ l ∧ 0 ∉ l)) : Unfinished (l ++ [ch]) := by
  by_cases h0 : 0 ∈ l
  · exact unfinished_of_zero h0 hl [ch]
  · rw [Unfinished, visible_eq_self h0] at hl
    have hvis : visible (l ++ [ch]) = l ∨ visible (l ++ [ch]) = l ++ [ch] := by
      by_cases hz : ch = 0
      · left
        rw [hz, visible_terminated, visible_eq_self h0]
      · right
        rw [visible_append_of_notMem h0, visible, if_neg hz, visible]
    rcases hvis with h | h
    · rw [Unfinished, h]
      exact hl
    · rw [Unfinished, h]
      by_cases hb : bracket ∈ l
      · rw [afterBracket_of_mem hb]
        intro hm
        rcases List.mem_append.mp hm with hm | hm
        · exact hl hm
        · exact hch ⟨(List.mem_singleton.mp hm).symm, hb, h0⟩
      · rw [afterBracket_of_notMem hb, afterBracket]
        split <;> exact List.not_mem_nil

/-- The `m` that finishes a sequence, and the parameter in front of it. -/
theorem finished_append {l : List Byte} (hl : Unfinished l) (hb : bracket ∈ l) (h0 : 0 ∉ l) :
    letterM ∈ afterBracket (visible (l ++ [letterM])) ∧
      (afterBracket (visible (l ++ [letterM]))).takeWhile (· ≠ letterM) = afterBracket l := by
  have hm : ∀ b ∈ afterBracket l, decide (b ≠ letterM) = true := by
    rw [Unfinished, visible_eq_self h0] at hl
    intro b hb
    exact decide_eq_true fun h => hl (h ▸ hb)
  have hvis : visible (l ++ [letterM]) = l ++ [letterM] := by
    rw [visible_append_of_notMem h0, visible, if_neg (by decide), visible]
  rw [hvis, afterBracket_of_mem hb]
  refine ⟨List.mem_append_right _ (List.mem_singleton_self _), ?_⟩
  rw [List.takeWhile_append_of_pos hm, List.takeWhile_cons_of_neg (by simp), List.append_nil]

end SeshOS.Video
