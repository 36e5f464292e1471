/-
  Calls of `log` on the framebuffer console.

  The line of a call is two sequences, `[`, and a body of text and sequences whose last one is
  the reset, then CR LF. So from a parser in its ground state, with any cursor and attributes,
  the call returns to the ground state with the reset attributes and the cursor in the first
  column (`LogCall.run_eq`), and the next call finds what this one left.
-/
import SeshOS.Video.Cursor
import SeshOS.Video.Sequence

namespace SeshOS.Video

open Base Libc

/-- Light gray on black, not bold. -/
def resetAttrs : Attrs := ⟨colorLgray, colorBlack, false⟩

/-! ## The parts of a line -/

/-- The line between its first `[` and CR LF. -/
def LogCall.body (call : LogCall) : List Byte :=
  sgrBytes (ascii "36") ++ (padRight 8 (visible call.module) ++ (sgrBytes (ascii "1") ++
    (sgrBytes (ascii "33") ++ (ascii "]" ++ (ansiColors.getD call.level.toNat [] ++ (ascii " " ++
      (visible call.msg ++ ((if call.level = loglevelFatal then ascii " !!!" else []) ++
        sgrBytes (ascii "0")))))))))

theorem LogCall.text_eq (call : LogCall) :
    call.text = sgrBytes (ascii "1") ++ (sgrBytes (ascii "33") ++
      (chr '[' :: (call.body ++ [0x0d, 0x0a]))) := by
  have hescape : escape "[1m" = sgrBytes (ascii "1") ∧ escape "[33m" = sgrBytes (ascii "33") ∧
      escape "[36m" = sgrBytes (ascii "36") ∧ escape "[0m" = sgrBytes (ascii "0") ∧
      ascii "[" = [chr '['] := by decide
  obtain ⟨h1, h33, h36, h0, hb⟩ := hescape
  rw [text, lineText, formatLine, body, h1, h33, h36, h0, hb]
  simp only [List.append_assoc, List.cons_append, List.nil_append]

theorem params_codes : Params (ascii "0") ∧ Params (ascii "1") ∧ Params (ascii "31") ∧
    Params (ascii "33") ∧ Params (ascii "36") ∧ Params (ascii "37") ∧ Params (ascii "0;31") :=
  ⟨⟨by decide, by decide, by decide⟩, ⟨by decide, by decide, by decide⟩,
    ⟨by decide, by decide, by decide⟩, ⟨by decide, by decide, by decide⟩,
    ⟨by decide, by decide, by decide⟩, ⟨by decide, by decide, by decide⟩,
    ⟨by decide, by decide, by decide⟩⟩

/-- Each colour is a complete sequence, with text behind it for `LOGLEVEL_FATAL`. -/
theorem color_complete : ∀ color ∈ ansiColors, ∃ f, Complete color f := by
  obtain ⟨h0, -, h31, h33, -, h37, h031⟩ := params_codes
  have hmarks : escByte ∉ ascii " !!! " := by decide
  simp only [ansiColors, List.forall_mem_cons]
  exact ⟨⟨_, complete_sgr h0⟩, ⟨_, complete_sgr h0⟩, ⟨_, complete_sgr h37⟩, ⟨_, complete_sgr h33⟩,
    ⟨_, complete_sgr h031⟩, ⟨_, (complete_sgr h31).append (complete_text hmarks)⟩,
    List.forall_mem_nil _⟩

theorem escByte_notMem_padRight {s : List Byte} (h : escByte ∉ s) (width : Nat) :
    escByte ∉ padRight width s := by
  intro hmem
  rcases List.mem_append.mp hmem with hmem | hmem
  · exact h hmem
  · exact absurd (List.eq_of_mem_replicate hmem) (by decide)

/-- The reset is the last sequence of the body. -/
theorem LogCall.body_complete (call : LogCall) :
    ∃ f, Complete call.body f ∧ ∀ a, f a = resetAttrs := by
  obtain ⟨h0, h1, -, h33, h36, -, -⟩ := params_codes
  obtain ⟨f, hcolor⟩ := color_complete _ (ansiColors_get call.level_le).2
  have hmark : escByte ∉ if call.level = loglevelFatal then ascii " !!!" else [] := by
    split <;> decide
  have hmodule := escByte_notMem_padRight call.noEsc.1 8
  exact ⟨_, (complete_sgr h36).append ((complete_text hmodule).append ((complete_sgr h1).append
    ((complete_sgr h33).append ((complete_text (by decide)).append (hcolor.append
      ((complete_text (by decide)).append ((complete_text call.noEsc.2).append
        ((complete_text hmark).append (complete_sgr h0))))))))), fun a => rfl⟩

/-! ## One call -/

/-- From `c` to `c'` something was printed whose first visible character is a `[` in the first
    column; the parser is in its ground state, the attributes are reset, and the cursor is back
    in the first column. -/
structure LeavesReset (c c' : Console) : Prop where
  ground : c'.Ground
  attrs : c'.attrs = resetAttrs
  column : c'.cursorX = 0
  first : ∃ pre y fg bg post,
    c'.trace = c.trace ++ (pre ++ Ev.glyph false (chr '[') 0 y fg bg :: post) ∧
      ∀ e ∈ pre, ∃ ch, e = .control ch

/-- The state behind CR LF. -/
def newline (c : Console) : Console :=
  { c with
    cursorX := 0
    cursorY := c.cursorY + 1
    trace := c.trace ++ [.control 0x0d] ++ [.control 0x0a] }

theorem crlf_run (font : Font) {c : Console} (hf : c.writeFunc = .fbconWrite) (hc : c.Ground) :
    [0x0d, 0x0a].foldlM (putchar font) c =
      some (newline c) := by
  have hlf := putchar_lf font (c := { c.log (.control 0x0d) with cursorX := 0 }) hf hc.1
  rw [foldlM_cons_of (putchar_cr font hf hc.1), foldlM_cons_of hlf]
  rfl

/-- The first `if` of `log`: the cursor gets to the first column. -/
theorem newline_run (font : Font) {c : Console} (hf : c.writeFunc = .fbconWrite) (hc : c.Ground) :
    ∃ c', (if c.cursorX ≠ 0 then puts font c [0x0d, 0x0a, 0] else some c) = some c' ∧
      c'.writeFunc = .fbconWrite ∧ c'.Ground ∧ c'.cursorX = 0 ∧
      ∃ pre, c'.trace = c.trace ++ pre ∧ ∀ e ∈ pre, ∃ ch, e = Ev.control ch := by
  by_cases hx : c.cursorX ≠ 0
  · have hputs : puts font c [0x0d, 0x0a, 0] = [0x0d, 0x0a].foldlM (putchar font) c :=
      puts_eq font c (s := [0x0d, 0x0a]) (by decide) []
    rw [if_pos hx, hputs, crlf_run font hf hc]
    refine ⟨_, rfl, hf, hc, rfl, [.control 0x0d, .control 0x0a], List.append_assoc _ _ _, ?_⟩
    intro e he
    rcases List.mem_pair.mp he with rfl | rfl
    · exact ⟨_, rfl⟩
    · exact ⟨_, rfl⟩
  · rw [if_neg hx]
    exact ⟨c, rfl, hf, hc, not_not.mp hx, [], (List.append_nil _).symm, List.forall_mem_nil _⟩

/-- The line from the first column. -/
theorem LogCall.text_run (font : Font) {c : Console} (hf : c.writeFunc = .fbconWrite)
    (hc : c.Ground) (hx : c.cursorX = 0) (call : LogCall) :
    ∃ c' y fg bg post, call.text.foldlM (putchar font) c = some c' ∧
      c'.writeFunc = .fbconWrite ∧ c'.Ground ∧ c'.attrs = resetAttrs ∧ c'.cursorX = 0 ∧
      c'.trace = c.trace ++ Ev.glyph false (chr '[') 0 y fg bg :: post := by
  obtain ⟨-, h1, -, h33, -, -, -⟩ := params_codes
  obtain ⟨f, hbody, hreset⟩ := call.body_complete
  -- the two sequences in front
  obtain ⟨c₁, hrun₁, hf₁, hc₁, -, hscreen₁⟩ := sgr_run font hf hc h1
  obtain ⟨c₂, hrun₂, hf₂, hc₂, -, hscreen₂⟩ := sgr_run font hf₁ hc₁ h33
  have hscreen := hscreen₂.trans hscreen₁
  simp only [Console.screen, Prod.mk.injEq] at hscreen
  obtain ⟨hx₂, -, -, ht₂⟩ := hscreen
  -- the bracket
  have hput := putchar_drawn font hf₂ hc₂.1 (by decide : Drawable (chr '['))
  obtain ⟨hframe₃, hp₃, ht₃⟩ := drawn_kept font false c₂ (c₂.write (chr '['))
  generalize drawn font false c₂ (c₂.write (chr '[')) = c₃ at hput hframe₃ hp₃ ht₃
  have hf₃ : c₃.writeFunc = .fbconWrite := (congrArg (fun f => f.2.2) hframe₃).trans hf₂
  -- the body, CR LF
  obtain ⟨c₄, hrun₄, hf₄, hc₄, hattrs₄, evs, ht₄⟩ :=
    complete_run font hf₃ (ground_of_sameParser hp₃ hc₂) hbody
  refine ⟨newline c₄, c₂.cursorY, c₂.attrs.color, c₂.attrs.bgColor,
    evs ++ [.control 0x0d] ++ [.control 0x0a], ?_, hf₄, hc₄, ?_, rfl, ?_⟩
  · rw [call.text_eq, foldlM_append_of hrun₁, foldlM_append_of hrun₂, foldlM_cons_of hput,
      foldlM_append_of hrun₄]
    exact crlf_run font hf₄ hc₄
  · exact hattrs₄.trans (hreset _)
  · rw [show (c₂.write (chr '[')).x = c₂.cursorX from rfl, hx₂, hx] at ht₃
    show c₄.trace ++ _ ++ _ = _
    rw [ht₄, ht₃, ht₂]
    simp only [List.append_assoc, List.cons_append, List.nil_append]
    rfl

/-- One call, from the ground state. -/
theorem LogCall.run_eq (font : Font) {c : Console} (hf : c.writeFunc = .fbconWrite)
    (hc : c.Ground) (call : LogCall) :
    ∃ c', call.run font c = some c' ∧ c'.writeFunc = .fbconWrite ∧ LeavesReset c c' := by
  obtain ⟨c₁, hnewline, hf₁, hc₁, hx₁, pre, ht₁, hpre⟩ := newline_run font hf hc
  have hserial : c₁.writeFunc ≠ .comLogWrapper := by
    rw [hf₁]
    decide
  obtain ⟨c', y, fg, bg, post, hrun, hf', hc', hattrs, hx', ht'⟩ := call.text_run font
    (c := { c₁ with serial := c₁.serial ++ call.text }) hf₁ hc₁ hx₁
  refine ⟨c', ?_, hf', hc', hattrs, hx', pre, y, fg, bg, post, ?_, hpre⟩
  · rw [LogCall.run, log, hnewline, Option.bind_some, call.logLine_eq, if_pos hserial, hrun]
  · rw [ht', ← List.append_assoc, ← ht₁]

/-! ## The run -/

/-- Every sequence of calls of `log`, from any console in its ground state that `FBCON_Write`
    is installed for: each call returns, and leaves the ground state, the reset attributes and
    the cursor in the first column, its first visible character in the first column too. -/
theorem log_calls_reset (font : Font) {c : Console} (hf : c.writeFunc = .fbconWrite)
    (hc : c.Ground) (calls : List LogCall) :
    Allowed (LogCall.run font)
      (fun c call => ∃ c', call.run font c = some c' ∧ LeavesReset c c') c calls := by
  refine allowed_of_inv (fun c => c.writeFunc = .fbconWrite ∧ c.Ground) ?_ ?_ calls ⟨hf, hc⟩
  · rintro c call ⟨hf, hc⟩
    obtain ⟨c', hrun, -, h⟩ := call.run_eq font hf hc
    exact ⟨c', hrun, h⟩
  · rintro c call c' ⟨hf, hc⟩ hrun
    obtain ⟨c₁, hrun₁, hf₁, h₁⟩ := call.run_eq font hf hc
    obtain rfl : c₁ = c' := Option.some_inj.mp (hrun₁.symm.trans hrun)
    exact ⟨hf₁, h₁.ground⟩

/-- The two messages of `FBCON_Init`, in red and from the fourth column. -/
theorem log_calls_reset_init :
    Allowed (LogCall.run (Vector.replicate 256 (Vector.replicate 16 0)))
      (fun c call => ∃ c', call.run (Vector.replicate 256 (Vector.replicate 16 0)) c = some c' ∧
        LeavesReset c c')
      { bootConsole with
        cursorX := 3
        attrs := ⟨colorRed, colorBlue, true⟩
        writeFunc := .fbconWrite }
      [settingCall (Vector.replicate 256 0), doneCall (Vector.replicate 256 0)] :=
  log_calls_reset _ rfl ⟨rfl, rfl, rfl⟩ _

end SeshOS.Video
