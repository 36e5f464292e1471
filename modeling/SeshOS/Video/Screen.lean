/-
  Where the framebuffer console stores pixels.

  A cell of a row that is on the screen lies inside of the framebuffer (`cellStores_lt`), one
  of a row below the last reaches behind it (`exists_cellStore_outside`). The console never
  scrolls, so what keeps its stores inside is that nothing is drawn below the last row.
-/
import SeshOS.Video.LogLine

namespace SeshOS.Video

open Base Libc

/-! ## The pixels of a cell -/

theorem cell_toNat (width : BitVec 32) (x y : BitVec 16) (i d : Nat) :
    (y.setWidth 32 * 16 * width + x.setWidth 32 * 8 + BitVec.ofNat 32 d +
      BitVec.ofNat 32 i * width).toNat =
      ((y.toNat * 16 + i) * width.toNat + x.toNat * 8 + d) % 2 ^ 32 := by
  have heq : y.setWidth 32 * 16 * width + x.setWidth 32 * 8 + BitVec.ofNat 32 d +
      BitVec.ofNat 32 i * width =
      BitVec.ofNat 32 ((y.toNat * 16 + i) * width.toNat + x.toNat * 8 + d) := by
    simp only [BitVec.ofNat_add, BitVec.ofNat_mul, BitVec.ofNat_toNat, BitVec.setWidth_eq]
    rw [show 16#32 = 16 from rfl, show 8#32 = 8 from rfl]
    ring
  rw [heq, BitVec.toNat_ofNat]

/-- A cell on the screen. -/
theorem cellStores_lt {width : BitVec 32} {h : Nat} (harea : width.toNat * h < 2 ^ 32)
    {cell : BitVec 16 × BitVec 16} (hx : cell.1.toNat * 8 + 8 ≤ width.toNat)
    (hy : cell.2.toNat < h / 16) : ∀ k ∈ cellStores width cell, k.toNat < width.toNat * h := by
  intro k hk
  obtain ⟨⟨i, j⟩, -, rfl⟩ := List.mem_map.mp hk
  have hrow : cell.2.toNat * 16 + i.val + 1 ≤ h := by omega
  have hpixels := Nat.mul_le_mul_right width.toNat hrow
  have hlt : (cell.2.toNat * 16 + i.val) * width.toNat + cell.1.toNat * 8 + (7 - j) <
      width.toNat * h := by
    rw [Nat.mul_comm width.toNat h]
    rw [Nat.succ_mul] at hpixels
    omega
  dsimp only
  rw [cell_toNat, Nat.mod_eq_of_lt (by omega)]
  exact hlt

/-- A cell below the last row, when its indices do not wrap. -/
theorem exists_cellStore_outside {width : BitVec 32} {h : Nat} (hwidth : width.toNat ≤ 4096)
    (cell : BitVec 16 × BitVec 16) (hx : cell.1.toNat * 8 + 8 ≤ width.toNat)
    (hy : h / 16 ≤ cell.2.toNat) : ∃ k ∈ cellStores width cell, width.toNat * h ≤ k.toNat := by
  refine ⟨_, List.mem_map.mpr ⟨(15, 7), by decide, rfl⟩, ?_⟩
  have hrow : cell.2.toNat * 16 + 15 ≤ 65535 * 16 + 15 := by
    have := cell.2.isLt
    omega
  have hmax := Nat.mul_le_mul hrow hwidth
  have hlast : h ≤ cell.2.toNat * 16 + 15 := by omega
  have hpixels := Nat.mul_le_mul_right width.toNat hlast
  dsimp only
  rw [cell_toNat, Nat.mul_comm width.toNat h]
  show h * width.toNat ≤ ((cell.2.toNat * 16 + 15) * width.toNat + _ + _) % _
  rw [Nat.mod_eq_of_lt (by omega)]
  omega

/-! ## One character -/

/-- The character draws: text that is no control character, or `'\b'` behind the first
    column. -/
def Draws (c : Console) (ch : Byte) : Prop :=
  c.esc = false ∧ ch ≠ escByte ∧ ch ≠ 0x0d ∧ ch ≠ 0x0a ∧ (ch = 0x08 → c.cursorX ≠ 0)

/-- The cell it draws in is in the row of the cursor, and one of the row. -/
theorem moves_draws {c : Console} (hrow : c.InRow) (ch : Byte) :
    (Draws c ch ∧ ∃ x, (c.moves ch).2 = [(x, c.cursorY)] ∧ (x = 0 ∨ x < c.width)) ∨
      (¬Draws c ch ∧ (c.moves ch).2 = []) := by
  have hcells := (moves_inRow hrow ch).2
  unfold Console.moves at hcells ⊢
  unfold Draws
  by_cases hseq : ch = escByte ∨ c.esc = true
  · right
    rw [if_pos hseq]
    refine ⟨fun hd => ?_, rfl⟩
    rcases hseq with hesc | he
    · exact hd.2.1 hesc
    · rw [hd.1] at he
      cases he
  · rw [if_neg hseq] at hcells ⊢
    rw [not_or, Bool.not_eq_true] at hseq
    obtain ⟨hesc, he⟩ := hseq
    by_cases hcr : ch = 0x0d
    · right
      rw [if_pos hcr]
      exact ⟨fun hd => hd.2.2.1 hcr, rfl⟩
    · rw [if_neg hcr] at hcells ⊢
      by_cases hbs : ch = 0x08
      · rw [if_pos hbs] at hcells ⊢
        by_cases hx : c.cursorX = 0
        · right
          rw [if_pos hx]
          exact ⟨fun hd => hd.2.2.2.2 hbs hx, rfl⟩
        · left
          rw [if_neg hx] at hcells ⊢
          refine ⟨⟨he, hesc, hcr, ?_, fun _ => hx⟩, _, rfl, hcells _ (List.mem_singleton_self _)⟩
          rw [hbs]
          decide
      · rw [if_neg hbs] at hcells ⊢
        by_cases hlf : ch = 0x0a
        · right
          rw [if_pos hlf]
          exact ⟨fun hd => hd.2.2.2.1 hlf, rfl⟩
        · left
          rw [if_neg hlf] at hcells ⊢
          exact ⟨⟨he, hesc, hcr, hlf, fun h => absurd h hbs⟩, _, rfl,
            hcells _ (List.mem_singleton_self _)⟩

/-- The pixels that one character stores to. -/
def storesOf (font : Font) (c : Console) (ch : Byte) : List (BitVec 32) :=
  (putchar font c ch).elim [] fun c' => c'.fbCon.stores.drop c.fbCon.stores.length

/-- The console of a framebuffer with rows of `width` pixels. -/
structure Shape (width : BitVec 32) (c : Console) : Prop where
  installed : c.Installed
  columns : c.width = (width / 8).setWidth 16
  pixels : c.fbCon.width = width

theorem putchar_shape {font : Font} {width : BitVec 32} {c c' : Console} (h : Shape width c)
    {ch : Byte} (hput : putchar font c ch = some c') : Shape width c' := by
  have hmoves := putchar_moves h.installed.writeFunc h.installed.inRow hput
  exact ⟨putchar_installed h.installed hput, (frame_eq hmoves.frame).1.trans h.columns,
    hmoves.width.trans h.pixels⟩

theorem output_shape {font : Font} {width : BitVec 32} {c c' : Console} (h : Shape width c)
    {o : Output} (ho : output font c o = some c') : Shape width c' := by
  cases o with
  | put ch => exact putchar_shape h ho
  | com input =>
    obtain ⟨i, -, rfl⟩ := Option.map_eq_some_iff.mp ho
    exact ⟨⟨h.installed.writeFunc, h.installed.inRow⟩, h.columns, h.pixels⟩

/-- No run of outputs changes the size of the console. -/
theorem run_frame {font : Font} {c c' : Console} (hf : c.writeFunc = .fbconWrite)
    {outs : List Output} (hrun : outs.foldlM (output font) c = some c') : c'.frame = c.frame := by
  refine foldlM_keeps (fun d : Console => d.frame = c.frame) ?_ outs rfl hrun
  intro d o d' hd ho
  rw [← hd]
  cases o with
  | put ch => exact putchar_frame ((frame_eq hd).2.2.trans hf) ho
  | com input =>
    obtain ⟨i, -, rfl⟩ := Option.map_eq_some_iff.mp ho
    rfl

/-- There is room for as many cells as are counted, also where the count is truncated. -/
theorem cells_have_room {size d : BitVec 32} {x : BitVec 16}
    (hx : x < (size / d).setWidth 16) :
    x.toNat * d.toNat + d.toNat ≤ size.toNat := by
  have hcount : ((size / d).setWidth 16).toNat ≤ size.toNat / d.toNat := by
    rw [BitVec.toNat_setWidth, BitVec.toNat_udiv]
    exact Nat.mod_le _ _
  have hlt : x.toNat + 1 ≤ size.toNat / d.toNat :=
    Nat.le_trans (BitVec.lt_def.mp hx) hcount
  calc x.toNat * d.toNat + d.toNat
      = (x.toNat + 1) * d.toNat := (Nat.succ_mul _ _).symm
    _ ≤ size.toNat / d.toNat * d.toNat := Nat.mul_le_mul_right _ hlt
    _ ≤ size.toNat := Nat.div_mul_le_self _ _

/-- So for `TTY_Width` columns. -/
theorem Shape.column_fits {width : BitVec 32} {c : Console} (h : Shape width c)
    (hmin : 8 ≤ width.toNat) {x : BitVec 16} (hx : x = 0 ∨ x < c.width) :
    x.toNat * 8 + 8 ≤ width.toNat := by
  rcases hx with rfl | hx
  · simpa using hmin
  · exact cells_have_room (d := 8) (by rwa [← h.columns])

/-- A character that returns stores to the cell it draws in. -/
theorem storesOf_cases {font : Font} {width : BitVec 32} {c c' : Console} (h : Shape width c)
    (hmin : 8 ≤ width.toNat) {ch : Byte} (hput : putchar font c ch = some c') :
    (Draws c ch ∧ ∃ x, storesOf font c ch = cellStores width (x, c.cursorY) ∧
      x.toNat * 8 + 8 ≤ width.toNat) ∨ (¬Draws c ch ∧ storesOf font c ch = []) := by
  have hmoves := putchar_moves h.installed.writeFunc h.installed.inRow hput
  have hstores : storesOf font c ch = (c.moves ch).2.flatMap (cellStores width) := by
    rw [storesOf, hput, Option.elim_some, hmoves.stores, List.drop_left, h.pixels]
  rcases moves_draws h.installed.inRow ch with ⟨hd, x, hcells, hx⟩ | ⟨hd, hcells⟩
  · left
    refine ⟨hd, x, ?_, h.column_fits hmin hx⟩
    rw [hstores, hcells, List.flatMap_cons, List.flatMap_nil, List.append_nil]
  · right
    exact ⟨hd, by rw [hstores, hcells, List.flatMap_nil]⟩

/-- A character that does not return draws nothing. -/
theorem not_draws_of_none {font : Font} {c : Console} (hf : c.writeFunc = .fbconWrite) {ch : Byte}
    (hput : putchar font c ch = none) : ¬Draws c ch := by
  rintro ⟨he, hesc, hcr, hlf, hbs⟩
  by_cases hb : ch = 0x08
  · subst hb
    rw [putchar_backspace font hf he (hbs rfl)] at hput
    cases hput
  · rw [putchar_drawn font hf he ⟨hesc, hcr, hb, hlf⟩] at hput
    cases hput

/-! ## The run -/

/-- All stores of a stream are below `size`. -/
def StoresBelow (font : Font) (size : Nat) (c : Console) (chs : List Byte) : Prop :=
  Allowed (putchar font) (fun c ch => ∀ k ∈ storesOf font c ch, k.toNat < size) c chs

/-- Nothing of a stream is drawn below the first `rows` rows. -/
def DrawsAbove (font : Font) (rows : Nat) (c : Console) (chs : List Byte) : Prop :=
  Allowed (putchar font) (fun c ch => Draws c ch → c.cursorY.toNat < rows) c chs

section Run

variable {font : Font} {width : BitVec 32} {h : Nat} (hmin : 8 ≤ width.toNat)
  (harea : width.toNat * h < 2 ^ 32)

include hmin harea

theorem stores_of_draws {c : Console} (hc : Shape width c) (ch : Byte)
    (hd : Draws c ch → c.cursorY.toNat < h / 16) :
    ∀ k ∈ storesOf font c ch, k.toNat < width.toNat * h := by
  cases hput : putchar font c ch with
  | none =>
    rw [storesOf, hput]
    exact List.forall_mem_nil _
  | some c' =>
    rcases storesOf_cases hc hmin hput with ⟨hdraws, x, hstores, hx⟩ | ⟨-, hstores⟩
    · rw [hstores]
      exact cellStores_lt harea hx (hd hdraws)
    · rw [hstores]
      exact List.forall_mem_nil _

theorem storesBelow_of_drawsAbove {c : Console} (hc : Shape width c) {chs : List Byte}
    (hrun : DrawsAbove font (h / 16) c chs) : StoresBelow font (width.toNat * h) c chs :=
  Allowed.imp (Shape width) (fun _ _ _ hs hput => putchar_shape hs hput)
    (fun _ ch hs hd => stores_of_draws hmin harea hs ch hd) hc hrun

end Run

theorem draws_of_stores {font : Font} {width : BitVec 32} {h : Nat} (hmin : 8 ≤ width.toNat)
    (hmax : width.toNat ≤ 4096) {c : Console} (hc : Shape width c) (ch : Byte)
    (hs : ∀ k ∈ storesOf font c ch, k.toNat < width.toNat * h) (hd : Draws c ch) :
    c.cursorY.toNat < h / 16 := by
  cases hput : putchar font c ch with
  | none => exact absurd hd (not_draws_of_none hc.installed.writeFunc hput)
  | some c' =>
    rcases storesOf_cases hc hmin hput with ⟨-, x, hstores, hx⟩ | ⟨hnot, -⟩
    · by_contra hrow
      obtain ⟨k, hk, hout⟩ := exists_cellStore_outside hmax (x, c.cursorY) hx
        (Nat.le_of_not_lt hrow)
      rw [← hstores] at hk
      exact absurd (hs k hk) (Nat.not_lt_of_le hout)
    · exact absurd hd hnot

theorem drawsAbove_of_storesBelow {font : Font} {width : BitVec 32} {h : Nat}
    (hmin : 8 ≤ width.toNat) (hmax : width.toNat ≤ 4096) {c : Console} (hc : Shape width c)
    {chs : List Byte} (hrun : StoresBelow font (width.toNat * h) c chs) :
    DrawsAbove font (h / 16) c chs :=
  Allowed.imp (Shape width) (fun _ _ _ hs hput => putchar_shape hs hput)
    (fun _ ch hs hst => draws_of_stores hmin hmax hs ch hst) hc hrun

/-! ## Behind FBCON_Init -/

/-- FBCON_Init ends with output to the console that it has set up for a framebuffer. -/
theorem fbconInit_outputs {font : Font} {stack : Nat → Vector Byte 256} {res : LimineFramebuffer}
    (hptr : res.address ≠ 0) {c₀ c : Console} (hcom : c₀.writeFunc = .comLogWrapper)
    (hinit : fbconInit font stack true res c₀ = some c) :
    ∃ y out outs, List.foldlM (output font) { fbconSetUp (lmGetFramebuffer res) c₀ with
      cursorY := y, serial := out, writeFunc := .fbconWrite } outs = some c := by
  obtain ⟨y, out, hinstall⟩ := fbconInstall_eq font (stack 1) (lmGetFramebuffer res) hcom
  have hswitch : fbconInit font stack true res c₀ =
      (fbconInstall font (stack 1) (lmGetFramebuffer res) c₀).bind ((doneCall (stack 2)).run font ·) :=
    if_pos hptr
  rw [hswitch, hinstall, Option.bind_some, log_output font ⟨rfl, .inl rfl⟩] at hinit
  exact ⟨y, out, _, hinit⟩

/-- What it leaves, for a framebuffer. -/
theorem fbconInit_shape {font : Font} {stack : Nat → Vector Byte 256} {res : LimineFramebuffer}
    (hptr : res.address ≠ 0) {c₀ c : Console} (hcom : c₀.writeFunc = .comLogWrapper)
    (hinit : fbconInit font stack true res c₀ = some c) : Shape (res.width.setWidth 32) c := by
  obtain ⟨y, out, outs, hrun⟩ := fbconInit_outputs hptr hcom hinit
  exact foldlM_keeps (Shape _) (fun _ _ _ hc ho => output_shape hc ho) outs
    ⟨⟨rfl, .inl rfl⟩, rfl, rfl⟩ hrun

/-- It returns, for a parser in its ground state, and leaves the attributes reset. -/
theorem fbconInit_returns (font : Font) (stack : Nat → Vector Byte 256) (res : LimineFramebuffer)
    (hptr : res.address ≠ 0) (c₀ : Console) (hcom : c₀.writeFunc = .comLogWrapper)
    (hc₀ : c₀.Ground) :
    ∃ c, fbconInit font stack true res c₀ = some c ∧ c.Ground ∧ c.attrs = resetAttrs ∧
      c.cursorX = 0 := by
  obtain ⟨y, out, hinstall⟩ := fbconInstall_eq font (stack 1) (lmGetFramebuffer res) hcom
  obtain ⟨c, hrun, -, hreset⟩ := (doneCall (stack 2)).run_eq font
    (c := { fbconSetUp (lmGetFramebuffer res) c₀ with
      cursorY := y, serial := out, writeFunc := .fbconWrite }) rfl hc₀
  refine ⟨c, ?_, hreset.ground, hreset.attrs, hreset.column⟩
  have hswitch : fbconInit font stack true res c₀ =
      (fbconInstall font (stack 1) (lmGetFramebuffer res) c₀).bind ((doneCall (stack 2)).run font ·) :=
    if_pos hptr
  rw [hswitch, hinstall, Option.bind_some, hrun]

/-- For every framebuffer of at least 8 by 16 and less than `2 ^ 32` pixels, behind
    `FBCON_Init`: a stream that draws nothing below the last full row of characters stores
    inside of the framebuffer only. On rows of at most 4096 pixels, where no index can wrap,
    no other stream does. -/
theorem stores_inside_iff (font : Font) (stack : Nat → Vector Byte 256) {res : LimineFramebuffer}
    (hptr : res.address ≠ 0) (hmin : 8 ≤ res.width.toNat) (hheight : 16 ≤ res.height.toNat)
    (harea : res.width.toNat * res.height.toNat < 2 ^ 32) {c₀ c : Console}
    (hcom : c₀.writeFunc = .comLogWrapper) (hinit : fbconInit font stack true res c₀ = some c)
    (chs : List Byte) :
    (DrawsAbove font (res.height.toNat / 16) c chs →
        StoresBelow font (res.width.toNat * res.height.toNat) c chs) ∧
      (res.width.toNat ≤ 4096 → StoresBelow font (res.width.toNat * res.height.toNat) c chs →
        DrawsAbove font (res.height.toNat / 16) c chs) := by
  have hshape := fbconInit_shape hptr hcom hinit
  have hpixels : (res.width.setWidth 32).toNat = res.width.toNat := by
    rw [BitVec.toNat_setWidth]
    exact Nat.mod_eq_of_lt (Nat.lt_of_le_of_lt
      (Nat.le_mul_of_pos_right res.width.toNat (by omega)) harea)
  rw [← hpixels] at hmin harea ⊢
  exact ⟨storesBelow_of_drawsAbove hmin harea hshape,
    fun hmax => drawsAbove_of_storesBelow hmin hmax hshape⟩

/-- The rows of `vgafont.f16` for `A` and `B`; all other characters are blank. -/
def letterFont : Font :=
  ((Vector.replicate 256 (Vector.replicate 16 0)).setIfInBounds 0x41
    #v[0x00, 0x00, 0x10, 0x38, 0x6c, 0xc6, 0xc6, 0xfe, 0xc6, 0xc6, 0xc6, 0xc6, 0x00, 0x00, 0x00, 0x00]
    ).setIfInBounds 0x42
    #v[0x00, 0x00, 0xfc, 0x66, 0x66, 0x66, 0x7c, 0x66, 0x66, 0x66, 0x66, 0xfc, 0x00, 0x00, 0x00, 0x00]

/-- 640 by 480 pixels, all black. -/
def vgaScreen : LimineFramebuffer := ⟨0x1000, 640, 480, fun _ => colorBlack⟩

/-- `FBCON_Init` leaves the cursor in the third of the 30 rows, behind the lines it has logged. -/
theorem vga_reached : ∃ c, fbconInit letterFont (fun _ => Vector.replicate 256 0) true vgaScreen
      bootConsole = some c ∧ c.Ground ∧ c.attrs = resetAttrs ∧
    (c.cursorX, c.cursorY, c.width, c.height) = (0, 2, 80, 30) := by
  obtain ⟨c, hinit, hground, hattrs, -⟩ := fbconInit_returns letterFont
    (fun _ => Vector.replicate 256 0) vgaScreen (by decide) bootConsole rfl ⟨rfl, rfl, rfl⟩
  refine ⟨c, hinit, hground, hattrs, ?_⟩
  have hrun : (fbconInit letterFont (fun _ => Vector.replicate 256 0) true vgaScreen
      bootConsole).map (fun c => (c.cursorX, c.cursorY, c.width, c.height)) =
        some (0, 2, 80, 30) := by decide +kernel
  rw [hinit] at hrun
  exact Option.some.inj hrun

/-- A letter behind that. -/
theorem stores_inside_iff_vga : ∃ c, fbconInit letterFont (fun _ => Vector.replicate 256 0) true
      vgaScreen bootConsole = some c ∧ StoresBelow letterFont (640 * 480) c [chr 'A'] := by
  obtain ⟨c, hinit, -, -, hscreen⟩ := vga_reached
  simp only [Prod.mk.injEq] at hscreen
  obtain ⟨-, hrow, -⟩ := hscreen
  refine ⟨c, hinit, ?_⟩
  exact (stores_inside_iff letterFont _ (by decide) (by decide) (by decide) (by decide) rfl hinit
    [chr 'A']).1 ⟨fun _ => by rw [hrow]; decide, fun _ _ => trivial⟩

/-- On 8 by 16 pixels the second of two letters is drawn below the one row there is. -/
theorem second_row_stores_outside :
    ¬∀ (font : Font) (stack : Nat → Vector Byte 256) (res : LimineFramebuffer) (c : Console),
      res.address ≠ 0 → 8 ≤ res.width.toNat → 16 ≤ res.height.toNat →
      res.width.toNat * res.height.toNat < 2 ^ 32 →
      fbconInit font stack true res bootConsole = some c →
      ∀ chs, StoresBelow font (res.width.toNat * res.height.toNat) c chs := by
  intro h
  obtain ⟨c, hinit, hc, -⟩ := fbconInit_returns (Vector.replicate 256 (Vector.replicate 16 0))
    (fun _ => Vector.replicate 256 0) ⟨0x1000, 8, 16, fun _ => 0⟩ (by decide)
    bootConsole rfl ⟨rfl, rfl, rfl⟩
  have hshape := fbconInit_shape (by decide) rfl hinit
  have hstores := h _ _ _ _ (by decide) (by decide) (by decide) (by decide) hinit [chr 'A', chr 'A']
  have hdraws := drawsAbove_of_storesBelow (h := 16) (by decide) (by decide) hshape hstores
  have hA : Drawable (chr 'A') := by decide
  have hput := putchar_drawn (Vector.replicate 256 (Vector.replicate 16 0))
    hshape.installed.writeFunc hc.1 hA
  obtain ⟨-, hp, -⟩ := drawn_kept (Vector.replicate 256 (Vector.replicate 16 0)) false c
    (c.write (chr 'A'))
  obtain ⟨hcursor, -⟩ := drawn_moves (Vector.replicate 256 (Vector.replicate 16 0)) false c
    (c.write (chr 'A'))
  have hdrawsA : ∀ c : Console, c.esc = false → Draws c (chr 'A') := fun c he =>
    ⟨he, hA.1, hA.2.1, hA.2.2.2, fun hb => absurd hb hA.2.2.1⟩
  have hfirst := hdraws.1 (hdrawsA c hc.1)
  have hsecond := (hdraws.2 _ hput).1 (hdrawsA _ (ground_of_sameParser hp hc).1)
  -- one column: the first letter moves the cursor to the next row
  have hwidth : c.width = 1 := hshape.columns
  have hend : c.width ≤ c.cursorX + 1 := by
    rcases hshape.installed.inRow with hx | hx
    · rw [hx, hwidth]
      decide
    · bv_omega
  have hy := congrArg Prod.snd hcursor
  rw [advance, if_pos hend] at hy
  dsimp only at hy
  rw [hy] at hsecond
  have hzero : c.cursorY = 0 := by bv_omega
  rw [hzero] at hsecond
  exact absurd hsecond (by decide)

end SeshOS.Video
