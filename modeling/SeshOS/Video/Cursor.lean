/-
  The cursor of the framebuffer console.

  `Console.moves` is what one character does to the cursor and where it draws; `putchar_moves`
  says that `FBCON_Write` does so, the nested call of `'\b'` included, as long as the cursor
  is in its row. It stays there: no branch lets `TTY_CursorX` reach `TTY_Width`.
-/
import SeshOS.Base.Run
import SeshOS.Video.Log

namespace SeshOS.Video

open Base Libc

/-! ## The cursor -/

/-- The column is one of the row's, or the first one. -/
def Console.InRow (c : Console) : Prop := c.cursorX = 0 ∨ c.cursorX < c.width

/-- The cursor behind a character drawn at `x`, `y`. -/
def advance (width x y : BitVec 16) : BitVec 16 × BitVec 16 :=
  if width ≤ x + 1 then (0, y + 1) else (x + 1, y)

/-- What one character does: the cursor behind it, and the cells it draws in. -/
def Console.moves (c : Console) (ch : Byte) : (BitVec 16 × BitVec 16) × List (BitVec 16 × BitVec 16) :=
  if ch = escByte ∨ c.esc = true then ((c.cursorX, c.cursorY), [])
  else if ch = 0x0d then ((0, c.cursorY), [])
  else if ch = 0x08 then
    if c.cursorX = 0 then ((0, c.cursorY), [])
    else ((c.cursorX - 1, c.cursorY), [(c.cursorX - 1, c.cursorY)])
  else if ch = 0x0a then ((0, c.cursorY + 1), [])
  else (advance c.width c.cursorX c.cursorY, [(c.cursorX, c.cursorY)])

/-- The stores of the glyph loops for the cell `x`, `y`, on a framebuffer of this width. -/
def cellStores (width : BitVec 32) (cell : BitVec 16 × BitVec 16) : List (BitVec 32) :=
  glyphRounds.map fun (i, j) =>
    cell.2.setWidth 32 * 16 * width + cell.1.setWidth 32 * 8 + BitVec.ofNat 32 (7 - j) +
      BitVec.ofNat 32 i * width

theorem store_stores (fb : Framebuffer) (k color : BitVec 32) :
    (fb.store k color).stores = fb.stores ++ [k] := rfl

theorem drawGlyph_stores (font : Font) (bold : Bool) (fb : Framebuffer) (w : Write) :
    (drawGlyph font bold fb w).stores = fb.stores ++ cellStores fb.width (w.x, w.y) ∧
      (drawGlyph font bold fb w).width = fb.width ∧ (drawGlyph font bold fb w).height = fb.height := by
  unfold drawGlyph cellStores
  dsimp only
  generalize w.y.setWidth 32 * 16 * fb.width + w.x.setWidth 32 * 8 = offset
  generalize glyphRounds = rounds
  induction rounds using List.reverseRecOn with
  | nil => exact ⟨(List.append_nil _).symm, rfl, rfl⟩
  | append_singleton rounds round ih =>
    obtain ⟨hs, hw, hh⟩ := ih
    rw [List.foldl_append, List.foldl_cons, List.foldl_nil, List.map_append, ← List.append_assoc,
      ← hs]
    refine ⟨?_, hw, hh⟩
    rw [store_stores, hw]
    rfl

/-- The cursor and the stores behind a drawn character. -/
theorem drawn_moves (font : Font) (nested : Bool) (c : Console) (w : Write) :
    let c' := drawn font nested c w
    (c'.cursorX, c'.cursorY) = advance c.width c.cursorX c.cursorY ∧
      c'.fbCon.stores = c.fbCon.stores ++ cellStores c.fbCon.width (w.x, w.y) ∧
      c'.fbCon.width = c.fbCon.width ∧ c'.fbCon.height = c.fbCon.height := by
  obtain ⟨hs, hw, hh⟩ := drawGlyph_stores font c.attrs.bold c.fbCon w
  unfold drawn advance
  dsimp only [Console.log]
  generalize drawGlyph font c.attrs.bold c.fbCon w = fb at hs hw hh ⊢
  by_cases hend : c.width ≤ c.cursorX + 1
  · simp only [hend, if_true, true_and]
    exact ⟨hs, hw, hh⟩
  · simp only [hend, if_false, true_and]
    exact ⟨hs, hw, hh⟩

/-- `c'` is `c` with the cursor at `cursor` and `cells` drawn. -/
structure Moves (c c' : Console) (cursor : BitVec 16 × BitVec 16)
    (cells : List (BitVec 16 × BitVec 16)) : Prop where
  cursor : (c'.cursorX, c'.cursorY) = cursor
  frame : c'.frame = c.frame
  stores : c'.fbCon.stores = c.fbCon.stores ++ cells.flatMap (cellStores c.fbCon.width)
  width : c'.fbCon.width = c.fbCon.width
  height : c'.fbCon.height = c.fbCon.height

theorem moves_still {c c' : Console} {cursor : BitVec 16 × BitVec 16}
    (hcursor : (c'.cursorX, c'.cursorY) = cursor) (hframe : c'.frame = c.frame)
    (hfb : c'.fbCon = c.fbCon) : Moves c c' cursor [] :=
  ⟨hcursor, hframe, by rw [hfb, List.flatMap_nil, List.append_nil], by rw [hfb], by rw [hfb]⟩

/-- A cursor in its row that is not in the first column is in a column of the row. -/
theorem Console.InRow.lt {c : Console} (h : c.InRow) (hx : c.cursorX ≠ 0) : c.cursorX < c.width :=
  h.resolve_left hx

/-- `'\b'`: the space goes to the cell in front, and the second decrement undoes its advance. -/
theorem erased_moves (font : Font) {c : Console} (hrow : c.InRow) (hx : c.cursorX ≠ 0) :
    (drawn font true c.erasing (c.erasing.write (chr ' '))).cursorX = c.cursorX ∧
      Moves c (erased font c) (c.cursorX - 1, c.cursorY) [(c.cursorX - 1, c.cursorY)] := by
  have hlt := hrow.lt hx
  obtain ⟨hcursor, hs, hw, hh⟩ := drawn_moves font true c.erasing (c.erasing.write (chr ' '))
  have hframe := (drawn_kept font true c.erasing (c.erasing.write (chr ' '))).1
  have hadvance : advance c.width (c.cursorX - 1) c.cursorY = (c.cursorX, c.cursorY) := by
    have hback : c.cursorX - 1 + 1 = c.cursorX := by bv_omega
    rw [advance, hback, if_neg (by bv_omega)]
  have hcursor' := hcursor.trans hadvance
  rw [Prod.mk.injEq] at hcursor'
  obtain ⟨hx', hy'⟩ := hcursor'
  refine ⟨hx', ?_, hframe, ?_, hw, hh⟩
  · show ((drawn font true c.erasing (c.erasing.write (chr ' '))).cursorX - 1, _) = _
    rw [hx', ← hy']
    rfl
  · rw [List.flatMap_cons, List.flatMap_nil, List.append_nil]
    exact hs

/-- One character through `FBCON_Write`. -/
theorem putchar_moves {font : Font} {c c' : Console} (hf : c.writeFunc = .fbconWrite)
    (hrow : c.InRow) {ch : Byte} (h : putchar font c ch = some c') :
    Moves c c' (c.moves ch).1 (c.moves ch).2 := by
  unfold Console.moves
  rcases putchar_cases hf h with ⟨hseq, hscreen, hframe⟩ | ⟨he, hcases⟩
  · simp only [Console.screen, Prod.mk.injEq] at hscreen
    obtain ⟨hx, hy, hfb, -⟩ := hscreen
    rw [if_pos hseq]
    exact moves_still (by rw [hx, hy]) hframe hfb
  · have hnot : ∀ b, b ≠ escByte → ¬(b = escByte ∨ c.esc = true) := by
      intro b hb
      rw [he]
      simp [hb]
    rcases hcases with ⟨rfl, rfl⟩ | ⟨rfl, hx, rfl⟩ | ⟨rfl, hx, rfl⟩ | ⟨rfl, rfl⟩ | ⟨hch, rfl⟩
    · rw [if_neg (hnot _ (by decide))]
      exact moves_still rfl rfl rfl
    · rw [if_neg (hnot _ (by decide)), if_neg (by decide), if_pos rfl, if_pos hx]
      exact moves_still (by rw [← hx]; rfl) rfl rfl
    · rw [if_neg (hnot _ (by decide)), if_neg (by decide), if_pos rfl, if_neg hx]
      exact (erased_moves font hrow hx).2
    · rw [if_neg (hnot _ (by decide))]
      exact moves_still rfl rfl rfl
    · obtain ⟨hesc, hcr, hbs, hlf⟩ := hch
      obtain ⟨hcursor, hs, hw, hh⟩ := drawn_moves font false c (c.write ch)
      rw [if_neg (hnot _ hesc), if_neg hcr, if_neg hbs, if_neg hlf]
      refine ⟨hcursor, (drawn_kept font false c (c.write ch)).1, ?_, hw, hh⟩
      rw [List.flatMap_cons, List.flatMap_nil, List.append_nil]
      exact hs

/-! ## The cursor stays in its row -/

/-- The column behind a character, and the columns it draws in. -/
theorem moves_inRow {c : Console} (hrow : c.InRow) (ch : Byte) :
    ((c.moves ch).1.1 = 0 ∨ (c.moves ch).1.1 < c.width) ∧
      ∀ cell ∈ (c.moves ch).2, cell.1 = 0 ∨ cell.1 < c.width := by
  unfold Console.moves advance
  by_cases hseq : ch = escByte ∨ c.esc = true
  · rw [if_pos hseq]
    exact ⟨hrow, List.forall_mem_nil _⟩
  · rw [if_neg hseq]
    by_cases hcr : ch = 0x0d
    · rw [if_pos hcr]
      exact ⟨.inl rfl, List.forall_mem_nil _⟩
    · rw [if_neg hcr]
      by_cases hbs : ch = 0x08
      · rw [if_pos hbs]
        by_cases hx : c.cursorX = 0
        · rw [if_pos hx]
          exact ⟨.inl rfl, List.forall_mem_nil _⟩
        · have hlt := hrow.lt hx
          have hback : c.cursorX - 1 < c.width := by bv_omega
          rw [if_neg hx]
          exact ⟨.inr hback, List.forall_mem_singleton.mpr (.inr hback)⟩
      · rw [if_neg hbs]
        by_cases hlf : ch = 0x0a
        · rw [if_pos hlf]
          exact ⟨.inl rfl, List.forall_mem_nil _⟩
        · rw [if_neg hlf]
          refine ⟨?_, List.forall_mem_singleton.mpr hrow⟩
          by_cases hend : c.width ≤ c.cursorX + 1
          · rw [if_pos hend]
            exact .inl rfl
          · rw [if_neg hend]
            exact .inr (by bv_omega)

/-- `FBCON_Write` is installed, and the cursor in its row. -/
structure Console.Installed (c : Console) : Prop where
  writeFunc : c.writeFunc = .fbconWrite
  inRow : c.InRow

theorem putchar_installed {font : Font} {c c' : Console} (h : c.Installed) {ch : Byte}
    (hput : putchar font c ch = some c') : c'.Installed := by
  have hmoves := putchar_moves h.writeFunc h.inRow hput
  obtain ⟨hw, -, hf⟩ := frame_eq hmoves.frame
  have hx : c'.cursorX = (c.moves ch).1.1 := congrArg Prod.fst hmoves.cursor
  refine ⟨hf.trans h.writeFunc, ?_⟩
  rw [Console.InRow, hx, hw]
  exact (moves_inRow h.inRow ch).1

/-! ## The output of the kernel -/

/-- What code outside of the console does to it: `putchar`, and `comout` past it. -/
inductive Output where
  | put (ch : Byte)
  | com (input : List Byte)

def output (font : Font) (c : Console) : Output → Option Console
  | .put ch => putchar font c ch
  | .com input => comout c input

/-- The states in which the `putchar(' ')` of `'\b'` is called, and has returned. -/
def nestedStates (font : Font) (c : Console) (ch : Byte) : List Console :=
  if c.esc = false ∧ ch = 0x08 ∧ c.cursorX ≠ 0 then
    c.erasing ::
      (putcharWith (ttyWriteWith (fbconWriteNested font)) c.erasing (chr ' ')).toList
  else []

/-- The states that an output passes through before it returns. -/
def Output.inside (font : Font) (c : Console) : Output → List Console
  | .put ch => nestedStates font c ch
  | .com _ => []

/-- The states of a run: between its outputs, and inside of them. -/
def visited (font : Font) (c : Console) : List Output → List Console
  | [] => [c]
  | o :: outs =>
    c :: (o.inside font c ++ (output font c o).elim [] fun c => visited font c outs)

/-- The end of a run is visited. -/
theorem mem_visited {font : Font} {c c' : Console} {outs : List Output}
    (h : outs.foldlM (output font) c = some c') : c' ∈ visited font c outs := by
  induction outs generalizing c with
  | nil =>
    cases h
    exact List.mem_singleton_self _
  | cons o outs ih =>
    rw [List.foldlM_cons] at h
    obtain ⟨c₁, ho, h⟩ := Option.bind_eq_some_iff.mp h
    rw [visited, ho]
    exact List.mem_cons_of_mem _ (List.mem_append_right _ (ih h))

theorem output_puts (font : Font) (c : Console) (chs : List Byte) :
    (chs.map Output.put).foldlM (output font) c = chs.foldlM (putchar font) c := by
  rw [List.foldlM_map]
  rfl

theorem run_installed {font : Font} {c c' : Console} (h : c.Installed) {chs : List Byte}
    (hrun : chs.foldlM (putchar font) c = some c') : c'.Installed :=
  foldlM_keeps Console.Installed (fun _ _ _ h hput => putchar_installed h hput) chs h hrun

/-- The line of a call of `log` is output: to the serial port, then to the console. -/
theorem logLine_output (font : Font) {c : Console} (h : c.Installed) (call : LogCall) :
    logLine font call.stack call.module call.msg call.level c =
      (Output.com (call.text ++ [0]) :: call.text.map Output.put).foldlM (output font) c := by
  have hserial : c.writeFunc ≠ .comLogWrapper := by
    rw [h.writeFunc]
    decide
  have hcom : comout c (call.text ++ [0]) = some { c with serial := c.serial ++ call.text } := by
    rw [comout, stringEnd_terminated call.zero_notMem, Option.map_some, List.take_left]
  rw [call.logLine_eq, if_pos hserial, List.foldlM_cons, output, hcom, ← output_puts]
  rfl

/-- So is the whole call, with CR LF in front unless the cursor is in the first column. -/
theorem log_output (font : Font) {c : Console} (h : c.Installed) (call : LogCall) :
    call.run font c =
      ((if c.cursorX ≠ 0 then [Output.put 0x0d, Output.put 0x0a] else []) ++
        Output.com (call.text ++ [0]) :: call.text.map Output.put).foldlM (output font) c := by
  rw [LogCall.run, log]
  by_cases hx : c.cursorX ≠ 0
  · have hputs : puts font c [0x0d, 0x0a, 0] = [0x0d, 0x0a].foldlM (putchar font) c :=
      puts_eq font c (s := [0x0d, 0x0a]) (by decide) []
    rw [if_pos hx, if_pos hx, hputs, List.foldlM_append]
    exact Option.bind_congr fun c₁ hc₁ => logLine_output font (run_installed h hc₁) call
  · rw [if_neg hx, if_neg hx, Option.bind_some, List.nil_append, logLine_output font h call]

theorem nestedStates_inRow {font : Font} {c : Console} (h : c.Installed) (ch : Byte) :
    ∀ c' ∈ nestedStates font c ch, c'.InRow ∧ c'.width = c.width := by
  unfold nestedStates
  by_cases hbs : c.esc = false ∧ ch = 0x08 ∧ c.cursorX ≠ 0
  · rw [if_pos hbs]
    obtain ⟨he, -, hx⟩ := hbs
    have hlt := h.inRow.lt hx
    have hspace := putchar_nested font (c := c.erasing) h.writeFunc he
    have hw : (drawn font true c.erasing (c.erasing.write (chr ' '))).width = c.width :=
      congrArg Prod.fst (drawn_kept font true c.erasing (c.erasing.write (chr ' '))).1
    rw [hspace, Option.toList_some]
    intro c' hc'
    rcases List.mem_cons.mp hc' with rfl | hc'
    · exact ⟨.inr (by exact (by bv_omega : c.cursorX - 1 < c.width)), rfl⟩
    · rw [List.mem_singleton.mp hc', Console.InRow, (erased_moves font h.inRow hx).1, hw]
      exact ⟨h.inRow, rfl⟩
  · rw [if_neg hbs]
    exact List.forall_mem_nil _

theorem output_installed {font : Font} {c c' : Console} (h : c.Installed) {o : Output}
    (ho : output font c o = some c') : c'.Installed ∧ c'.width = c.width := by
  cases o with
  | put ch =>
    exact ⟨putchar_installed h ho, (frame_eq (putchar_moves h.writeFunc h.inRow ho).frame).1⟩
  | com input =>
    obtain ⟨i, -, rfl⟩ := Option.map_eq_some_iff.mp ho
    exact ⟨⟨h.writeFunc, h.inRow⟩, rfl⟩

theorem visited_inRow {font : Font} {c : Console} (h : c.Installed) (outs : List Output) :
    ∀ c' ∈ visited font c outs, c'.InRow ∧ c'.width = c.width := by
  induction outs generalizing c with
  | nil => exact List.forall_mem_singleton.mpr ⟨h.inRow, rfl⟩
  | cons o outs ih =>
    rw [visited, List.forall_mem_cons, List.forall_mem_append]
    refine ⟨⟨h.inRow, rfl⟩, ?_, ?_⟩
    · cases o with
      | put ch => exact nestedStates_inRow h ch
      | com input => exact List.forall_mem_nil _
    · cases ho : output font c o with
      | none => exact List.forall_mem_nil _
      | some c₁ =>
        obtain ⟨h₁, hw⟩ := output_installed h ho
        intro c' hc'
        obtain ⟨hrow, hw'⟩ := ih h₁ c' hc'
        exact ⟨hrow, hw'.trans hw⟩

/-- `TTY_Width` as `FBCON_Init` sets it. -/
theorem setUp_width {ret : FramebufferInfo} (hwidth : ret.width.toNat < 8 * 65536) (c : Console) :
    (fbconSetUp ret c).width.toNat = ret.width.toNat / 8 := by
  show ((ret.width / 8).setWidth 16).toNat = _
  rw [BitVec.toNat_setWidth, BitVec.toNat_udiv]
  exact Nat.mod_eq_of_lt (by simp; omega)

/-- The column is always one of the screen. For every framebuffer of 8 to `8 * 65536 - 1`
    pixels a row, whatever the console held before, `FBCON_Init` gets to the point where
    `FBCON_Write` is installed. From there on, whatever is written, in every state between the
    writes and around the nested `putchar(' ')`, `TTY_CursorX < TTY_Width`. -/
theorem cursorX_lt_width (font : Font) (stack : Vector Byte 256) {ret : FramebufferInfo}
    (hmin : 8 ≤ ret.width.toNat) (hmax : ret.width.toNat < 8 * 65536) {c₀ : Console}
    (hcom : c₀.writeFunc = .comLogWrapper) :
    ∃ c, fbconInstall font stack ret c₀ = some c ∧ c.writeFunc = .fbconWrite ∧
      ∀ outs, ∀ c' ∈ visited font c outs,
        c'.cursorX < c'.width ∧ c'.width.toNat = ret.width.toNat / 8 := by
  obtain ⟨y, out, hinstall⟩ := fbconInstall_eq font stack ret hcom
  have hinstalled : Console.Installed
      { fbconSetUp ret c₀ with cursorY := y, serial := out, writeFunc := .fbconWrite } :=
    ⟨rfl, .inl rfl⟩
  refine ⟨_, hinstall, rfl, fun outs c' hc' => ?_⟩
  obtain ⟨hrow, hw⟩ := visited_inRow hinstalled outs c' hc'
  have hwidth : c'.width.toNat = ret.width.toNat / 8 := by
    rw [hw]
    exact setUp_width hmax c₀
  refine ⟨?_, hwidth⟩
  rcases hrow with hx | hx
  · rw [hx, BitVec.lt_def, hwidth]
    show 0 < _
    omega
  · exact hx

/-- A character and two Backspaces on 640 pixels a row. -/
theorem cursorX_lt_width_backspaces :
    ∃ c, fbconInstall (Vector.replicate 256 (Vector.replicate 16 0)) (Vector.replicate 256 0)
        ⟨640, 480, 0x1000, fun _ => 0⟩ bootConsole = some c ∧
      ∀ c' ∈ visited (Vector.replicate 256 (Vector.replicate 16 0)) c
          [.put (chr 'A'), .put 0x08, .put 0x08],
        c'.cursorX < c'.width := by
  have hmin : 8 ≤ (⟨640, 480, 0x1000, fun _ => 0⟩ : FramebufferInfo).width.toNat := by decide
  have hcom : bootConsole.writeFunc = .comLogWrapper := rfl
  obtain ⟨c, hinstall, -, hvisited⟩ := cursorX_lt_width
    (Vector.replicate 256 (Vector.replicate 16 0)) (Vector.replicate 256 0) hmin (by decide) hcom
  exact ⟨c, hinstall, fun c' hc' => (hvisited _ c' hc').1⟩

end SeshOS.Video
