/-
  Control sequences that end in other bytes than `m`.

  A control sequence is ESC `[`, parameter bytes from `0x20` to `0x3F` and one final byte from
  `0x40` to `0x7E`. `TTY_HandleEsc` leaves the sequence at an `m` only, and an ESC inside an
  unfinished sequence keeps what was collected. `reader_csi` is the run of the reader over one
  sequence from any state; `csi_ends_iff` says when the sequence ends where it should.
-/
import SeshOS.Video.Refinement

namespace SeshOS.Video

open Base Libc

/-- ESC `[`, the parameter bytes, the final byte. -/
def csi (params : List Byte) (final : Byte) : List Byte :=
  escByte :: bracket :: (params ++ [final])

/-- What was collected and has not been used. -/
def Console.pending (c : Console) : List Byte :=
  c.escapeSequence.toList.take c.escapeSequenceLength

/-- Behind `pre` and the sequence `seq` the parser is in its ground state, so the next
    character but ESC is text, and the attributes are those that `seq` gives from the ground
    state. -/
def EndsAtFinal (font : Font) (c : Console) (pre seq : List Write) : Prop :=
  ∃ c₁ c₂, feed font c pre = some c₁ ∧ feed font c₁ seq = some c₂ ∧ c₂.Ground ∧
    (∀ w, w.ch ≠ escByte → ∃ c₃, fbconWrite font c₂ w = some c₃ ∧ TakesText c₂ c₃ [w.ch]) ∧
    ∀ d : Console, d.Ground → d.attrs = c₁.attrs →
      ∃ d', feed font d seq = some d' ∧ d'.attrs = c₂.attrs

/-- The sequence ends in `m`, no NUL and not too many bytes are left over from an unfinished
    one before it, and these do not change the effect of the parameter. -/
structure Completes (c : Console) (params : List Byte) (final : Byte) : Prop where
  final : final = letterM
  noNul : 0 ∉ c.pending
  room : c.pending.length + params.length ≤ 253
  param : bracket ∈ c.pending →
    effect (decimal (afterBracket c.pending ++ bracket :: params)).toNat c.attrs =
      effect (decimal params).toNat c.attrs

/-! ## The reader over one sequence -/

section

variable {params : List Byte} (hparams : ∀ b ∈ params, 0x20 ≤ b ∧ b ≤ 0x3F) {final : Byte}
  (hfinal : 0x40 ≤ final ∧ final ≤ 0x7E)

include hparams

theorem params_plain : ∀ ch ∈ bracket :: params, ch ≠ escByte ∧ ch ≠ letterM := by
  have hb : ∀ b : Byte, 0x20 ≤ b ∧ b ≤ 0x3F → b ≠ escByte ∧ b ≠ letterM := by decide
  intro ch hch
  rcases List.mem_cons.mp hch with rfl | hch
  · decide
  · exact hb ch (hparams ch hch)

theorem params_noNul : 0 ∉ bracket :: params := by
  intro h
  rcases List.mem_cons.mp h with h | h
  · exact absurd h (by decide)
  · exact absurd (hparams 0 h) (by decide)

include hfinal

/-- One sequence, read in any state: it runs out of room, ends, or stays unfinished. -/
theorem reader_csi (r : Reader) {l : List Byte} (hl : r.pending.getD [] = l) :
    r.run (csi params final) =
      if 253 < l.length + params.length then none
      else if final = letterM ∧ 0 ∉ l then
        some { r with
          pending := none
          attrs := effect (decimal (afterBracket (l ++ bracket :: params))).toNat r.attrs }
      else some { r with pending := some (l ++ bracket :: params ++ [final]) } := by
  have hesc : final ≠ escByte := by
    rintro rfl
    exact absurd hfinal (by decide)
  have hplain := params_plain hparams
  have hsplit : csi params final = escByte :: ((bracket :: params) ++ [final]) := rfl
  rw [hsplit, Reader.run_esc, hl, Reader.run_append]
  by_cases hover : 253 < l.length + params.length
  · rw [if_pos hover]
    by_cases hfull : 255 < l.length + (bracket :: params).length
    · rw [Reader.run_overflow rfl hplain (List.cons_ne_nil _ _) hfull]
      rfl
    · -- the final byte itself finds no room
      have hroom : l.length + (bracket :: params).length = 255 := by
        rw [List.length_cons] at hfull ⊢
        omega
      rw [Reader.run_collect rfl hplain (by omega), Option.bind_some, Reader.run_cons, Reader.step,
        if_neg hesc]
      dsimp only
      rw [if_pos (by rw [List.length_append]; omega)]
      rfl
  · have hroom : l.length + (bracket :: params).length ≤ 254 := by
      rw [List.length_cons]
      omega
    rw [if_neg hover, Reader.run_collect rfl hplain (by omega), Option.bind_some, Reader.run_cons,
      Reader.step, if_neg hesc]
    dsimp only
    have hzero : 0 ∉ l ++ bracket :: params ↔ 0 ∉ l := by
      have h0 := params_noNul hparams
      rw [List.mem_append]
      tauto
    have hbracket : bracket ∈ l ++ bracket :: params :=
      List.mem_append_right _ List.mem_cons_self
    rw [if_neg (by rw [List.length_append]; omega)]
    by_cases hend : final = letterM ∧ 0 ∉ l
    · rw [if_pos ⟨hend.1, hbracket, hzero.mpr hend.2⟩, if_pos hend]
      rfl
    · rw [if_neg fun h => hend ⟨h.1, hzero.mp h.2.2⟩, if_neg hend]
      rfl

/-- From the ground state, with at most 253 parameter bytes. -/
theorem reader_csi_ground {r : Reader} (hr : r.pending = none) (hlen : params.length ≤ 253) :
    r.run (csi params final) =
      if final = letterM then
        some { r with pending := none, attrs := effect (decimal params).toNat r.attrs }
      else some { r with pending := some (bracket :: params ++ [final]) } := by
  rw [reader_csi hparams hfinal r (l := []) (by rw [hr]; rfl), if_neg (by simp; omega)]
  simp [afterBracket]

end

/-- The parameter as it is read behind the bytes `l`. -/
theorem afterBracket_pending (l params : List Byte) :
    afterBracket (l ++ bracket :: params) =
      if bracket ∈ l then afterBracket l ++ bracket :: params else params := by
  by_cases hb : bracket ∈ l
  · rw [if_pos hb, afterBracket_of_mem hb]
  · rw [if_neg hb, afterBracket_of_notMem hb, afterBracket, if_pos rfl]

/-! ## The console over one sequence -/

/-- In every stream, a control sequence ends at its final byte, with the effect it has in the
    ground state, exactly when `Completes` holds where it starts. -/
theorem csi_ends_iff (font : Font) {c : Console} (hc : c.Ground) (pre seq : List Write)
    (params : List Byte) (final : Byte) (hparams : ∀ b ∈ params, 0x20 ≤ b ∧ b ≤ 0x3F)
    (hlen : params.length ≤ 250) (hfinal : 0x40 ≤ final ∧ final ≤ 0x7E)
    (hseq : seq.map Write.ch = csi params final) :
    EndsAtFinal font c pre seq ↔ ∃ c₁, feed font c pre = some c₁ ∧ Completes c₁ params final := by
  have hground : ∀ d : Console, d.Ground → final = letterM →
      ∃ d', feed font d seq = some d' ∧ d'.attrs = effect (decimal params).toNat d.attrs := by
    intro d hd hm
    have hrun := reader_csi_ground hparams hfinal (r := ⟨none, d.attrs, []⟩) rfl (by omega)
    rw [if_pos hm, ← hseq] at hrun
    obtain ⟨d', hfeed, hshows⟩ := feed_of_reader font (shows_of_ground hd) hrun
    exact ⟨d', hfeed, hshows.attrs⟩
  constructor
  · rintro ⟨c₁, c₂, hpre, hfeed, hg, -, hrestart⟩
    obtain ⟨r₁, -, h₁⟩ := reader_of_feed (shows_of_ground hc) hpre
    obtain ⟨r₂, hr₂, h₂⟩ := reader_of_feed h₁ hfeed
    have hl : r₁.pending.getD [] = c₁.pending := h₁.bytes.symm
    rw [hseq, reader_csi hparams hfinal r₁ hl] at hr₂
    have hr₂none : r₂.pending = none := by
      have hesc := h₂.esc
      rw [hg.1] at hesc
      exact Option.isNone_iff_eq_none.mp (Option.isSome_eq_false_iff.mp hesc.symm)
    by_cases hover : 253 < c₁.pending.length + params.length
    · rw [if_pos hover] at hr₂
      cases hr₂
    · rw [if_neg hover] at hr₂
      by_cases hend : final = letterM ∧ 0 ∉ c₁.pending
      · rw [if_pos hend, afterBracket_pending] at hr₂
        refine ⟨c₁, hpre, hend.1, hend.2, by omega, fun hb => ?_⟩
        rw [if_pos hb] at hr₂
        -- the same sequence from the ground state with the attributes of `c₁`
        have hd : Console.Ground { c₁ with
            esc := false, escapeCompleted := false, escapeSequenceLength := 0 } := ⟨rfl, rfl, rfl⟩
        obtain ⟨d', hfeed', hattrs⟩ := hrestart _ hd rfl
        obtain ⟨d'', hfeed'', hattrs'⟩ := hground _ hd hend.1
        rw [hfeed'] at hfeed''
        cases hfeed''
        cases hr₂
        have h := h₂.attrs
        rw [← hattrs, hattrs', ← h₁.attrs] at h
        exact h.symm
      · rw [if_neg hend] at hr₂
        cases hr₂
        cases hr₂none
  · rintro ⟨c₁, hpre, hcomp⟩
    obtain ⟨r₁, -, h₁⟩ := reader_of_feed (shows_of_ground hc) hpre
    have hl : r₁.pending.getD [] = c₁.pending := h₁.bytes.symm
    have hrun := reader_csi hparams hfinal r₁ hl
    have hroom := hcomp.room
    rw [if_neg (by omega), if_pos ⟨hcomp.final, hcomp.noNul⟩, afterBracket_pending, ← hseq] at hrun
    obtain ⟨c₂, hfeed, h₂⟩ := feed_of_reader font h₁ hrun
    have hg : c₂.Ground := ground_of_shows h₂ rfl
    refine ⟨c₁, c₂, hpre, hfeed, hg, fun w hw => fbconWrite_text font hg.1 hw, ?_⟩
    intro d hd hda
    obtain ⟨d', hfeed', hattrs⟩ := hground d hd hcomp.final
    refine ⟨d', hfeed', ?_⟩
    rw [hattrs, hda, h₂.attrs]
    show _ = effect _ r₁.attrs
    rw [← h₁.attrs]
    by_cases hb : bracket ∈ c₁.pending
    · rw [if_pos hb, hcomp.param hb]
    · rw [if_neg hb]

/-- ESC `[` 3 1 `m` in the ground state ends at its `m`. -/
theorem csi_ends_iff_red :
    EndsAtFinal (Vector.replicate 256 (Vector.replicate 16 0)) bootConsole []
      ([0x1b, 0x5b, 0x33, 0x31, 0x6d].map fun ch => ⟨ch, 0, 0, 0, 0⟩) := by
  refine (csi_ends_iff _ (c := bootConsole) ⟨rfl, rfl, rfl⟩ [] _ [0x33, 0x31] 0x6d
    (by decide) (by decide) (by decide) (by decide)).mpr ⟨bootConsole, rfl, ?_⟩
  have hp : bootConsole.pending = [] := rfl
  refine ⟨by decide, ?_, ?_, ?_⟩
  · rw [hp]
    exact List.not_mem_nil
  · rw [hp]
    decide
  · rw [hp]
    exact fun h => absurd h List.not_mem_nil

/-- ESC `[` 2 `J`, which `Clear` prints, does not end at its `J`: the parser stays inside the
    sequence. -/
theorem clear_sequence_unfinished :
    ¬EndsAtFinal (Vector.replicate 256 (Vector.replicate 16 0)) bootConsole []
      ([0x1b, 0x5b, 0x32, 0x4a].map fun ch => ⟨ch, 0, 0, 0, 0⟩) := by
  rintro ⟨c₁, c₂, hpre, hfeed, hg, -⟩
  cases hpre
  have hesc : (feed (Vector.replicate 256 (Vector.replicate 16 0)) bootConsole
      ([0x1b, 0x5b, 0x32, 0x4a].map fun ch => ⟨ch, 0, 0, 0, 0⟩)).map Console.esc = some true := by
    rfl
  rw [hfeed, Option.map_some, hg.1] at hesc
  cases hesc

end SeshOS.Video
