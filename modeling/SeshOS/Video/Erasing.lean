/-
  Backspace over text.

  `'\b'` goes back through the cells of a row and draws a space in each, but does not leave the
  row (`erased_run`). So a text that ends in the row in which it started is erased, and of a
  longer one what is in its last row (`backspace_erases`).
-/
import SeshOS.Video.Typing

namespace SeshOS.Video

open Base Libc

/-! ## Backspace over a row -/

/-- The spaces that `m` times `'\b'` draws, with room in the row. -/
def spaces (c : Console) (m : Nat) : List Write :=
  (List.range m).map fun k =>
    ⟨chr ' ', BitVec.ofNat 16 (c.cursorX.toNat - (k + 1)), c.cursorY, c.attrs.color,
      c.attrs.bgColor⟩

/-- `c'` is `c` with the last `m` cells of its row erased. -/
structure Erased (font : Font) (c c' : Console) (m : Nat) : Prop where
  cursor : (c'.cursorX, c'.cursorY) = (BitVec.ofNat 16 (c.cursorX.toNat - m), c.cursorY)
  frame : c'.frame = c.frame
  parser : c'.parser = c.parser
  fbCon : c'.fbCon = (spaces c m).foldl (drawGlyph font c.attrs.bold) c.fbCon

section Erase

variable (font : Font) {c : Console} (hf : c.writeFunc = .fbconWrite) (he : c.esc = false)
  (hx : c.cursorX < c.width)

include hf he hx

/-- One more `'\b'`. -/
theorem erased_step {m : Nat} (hm : m < c.cursorX.toNat) {c' : Console} (h : Erased font c c' m) :
    ∃ c'', putchar font c' 0x08 = some c'' ∧ Erased font c c'' (m + 1) := by
  obtain ⟨hesc, hattrs⟩ := parser_eq h.parser
  obtain ⟨hwidth, -, hwrite⟩ := frame_eq h.frame
  have hcursor := h.cursor
  rw [Prod.mk.injEq] at hcursor
  obtain ⟨hcol, hrow⟩ := hcursor
  have hlt := BitVec.lt_def.mp hx
  have hmax := c.width.isLt
  have hcol' : c'.cursorX.toNat = c.cursorX.toNat - m := by
    rw [hcol, BitVec.toNat_ofNat]
    exact Nat.mod_eq_of_lt (by omega)
  have hne : c'.cursorX ≠ 0 := by
    intro hzero
    rw [hzero] at hcol'
    exact absurd hcol' (by simp; omega)
  have hback : c'.cursorX - 1 = BitVec.ofNat 16 (c.cursorX.toNat - (m + 1)) := by
    apply BitVec.eq_of_toNat_eq
    rw [BitVec.toNat_ofNat, Nat.mod_eq_of_lt (by omega)]
    bv_omega
  have hrow' : c'.InRow := .inr (BitVec.lt_def.mpr (by rw [hcol', hwidth]; omega))
  obtain ⟨-, hmoves⟩ := erased_moves font hrow' hne
  obtain ⟨hframe, hparser, -⟩ := drawn_kept font true c'.erasing (c'.erasing.write (chr ' '))
  refine ⟨_, putchar_backspace font (hwrite.trans hf) (hesc.trans he) hne, ?_,
    hframe.trans h.frame, hparser.trans h.parser, ?_⟩
  · rw [hmoves.cursor, hback, hrow]
  · have hspace : c'.erasing.write (chr ' ') =
        ⟨chr ' ', BitVec.ofNat 16 (c.cursorX.toNat - (m + 1)), c.cursorY, c.attrs.color,
          c.attrs.bgColor⟩ := by
      rw [← hback, ← hrow, ← hattrs]
      rfl
    have hfb : (erased font c').fbCon =
        drawGlyph font c'.attrs.bold c'.fbCon (c'.erasing.write (chr ' ')) :=
      drawn_fbCon font true c'.erasing (c'.erasing.write (chr ' '))
    rw [hfb, hspace, hattrs, h.fbCon, spaces, spaces, List.range_succ, List.map_append,
      List.foldl_append, List.map_singleton, List.foldl_cons, List.foldl_nil]

omit hx in
/-- In the first column it does nothing. -/
theorem erased_first {c' : Console} (h : Erased font c c' c.cursorX.toNat) :
    ∃ c'', putchar font c' 0x08 = some c'' ∧ Erased font c c'' c.cursorX.toNat := by
  obtain ⟨hesc, -⟩ := parser_eq h.parser
  obtain ⟨-, -, hwrite⟩ := frame_eq h.frame
  have hcursor := h.cursor
  rw [Nat.sub_self, Prod.mk.injEq] at hcursor
  exact ⟨_, putchar_backspace_first font (hwrite.trans hf) (hesc.trans he) hcursor.1,
    h.cursor, h.frame, h.parser, h.fbCon⟩

/-- Backspace as often as `m` times: back through the cells of the row, and no further. -/
theorem erased_run (m : Nat) :
    ∃ c', (List.replicate m 0x08).foldlM (putchar font) c = some c' ∧
      Erased font c c' (min m c.cursorX.toNat) := by
  induction m with
  | zero =>
    refine ⟨c, rfl, ?_, rfl, rfl, ?_⟩
    · rw [Nat.zero_min, Nat.sub_zero, BitVec.ofNat_toNat, BitVec.setWidth_eq]
    · rw [Nat.zero_min]
      rfl
  | succ m ih =>
    obtain ⟨c', hrun, herased⟩ := ih
    have hput : ∃ c'', putchar font c' 0x08 = some c'' ∧
        Erased font c c'' (min (m + 1) c.cursorX.toNat) := by
      by_cases hm : m < c.cursorX.toNat
      · rw [Nat.min_eq_left (Nat.le_of_lt hm)] at herased
        rw [Nat.min_eq_left hm]
        exact erased_step font hf he hx hm herased
      · rw [Nat.min_eq_right (Nat.le_of_not_lt hm)] at herased
        rw [Nat.min_eq_right (by omega)]
        exact erased_first font hf he herased
    obtain ⟨c'', hput, herased'⟩ := hput
    refine ⟨c'', ?_, herased'⟩
    rw [List.replicate_succ']
    exact foldlM_concat_of hrun hput

end Erase

/-! ## What a space leaves of a text -/

/-- The stores of characters drawn one after the other. -/
theorem drawGlyphs_ptr (font : Font) (bold : Bool) (fb : Framebuffer) (ws : List Write) :
    (ws.foldl (drawGlyph font bold) fb).ptr =
        storeAll fb.ptr (ws.flatMap (glyphStores font bold fb.width)) ∧
      (ws.foldl (drawGlyph font bold) fb).width = fb.width := by
  induction ws generalizing fb with
  | nil => exact ⟨rfl, rfl⟩
  | cons w ws ih =>
    obtain ⟨hptr, hwidth⟩ := ih (drawGlyph font bold fb w)
    have hw := (drawGlyph_stores font bold fb w).2.1
    rw [List.foldl_cons, List.flatMap_cons, storeAll_append, ← drawGlyph_ptr, hptr, hwidth, hw]
    exact ⟨rfl, rfl⟩

/-- Some character of the list is drawn to pixel `n`. -/
def Covered (width : BitVec 32) (cells : List (BitVec 16 × BitVec 16)) (n : Nat) : Prop :=
  ∃ cell ∈ cells, ∃ i k, Reached width cell n i k

/-- The cell of a write. -/
def Write.cell (w : Write) : BitVec 16 × BitVec 16 := (w.x, w.y)

theorem mem_keys (font : Font) (bold : Bool) (width : BitVec 32) (ws : List Write) {n : Nat}
    (hn : n < 2 ^ 32) :
    BitVec.ofNat 32 n ∈ (ws.flatMap (glyphStores font bold width)).map Prod.fst ↔
      Covered width (ws.map Write.cell) n := by
  have hkeys : (ws.flatMap (glyphStores font bold width)).map Prod.fst =
      (ws.map Write.cell).flatMap (cellStores width) := by
    rw [List.map_flatMap, List.flatMap_map]
    exact List.flatMap_congr fun w _ => glyphStores_keys font bold width w
  rw [hkeys, List.mem_flatMap]
  simp only [mem_cellStores hn, Covered]

/-- A font whose space has no pixel. -/
def BlankSpace (font : Font) : Prop := ∀ i : Fin 16, (font.get (chr ' ').toFin).get i = 0

theorem glyphStores_space {font : Font} (hblank : BlankSpace font) (bold : Bool)
    (width : BitVec 32) {w : Write} (hw : w.ch = chr ' ') :
    ∀ s ∈ glyphStores font bold width w, s.2 = w.bgColor := by
  intro s hs
  obtain ⟨⟨i, j⟩, -, rfl⟩ := List.mem_map.mp hs
  dsimp only
  have hbit : (0 : Byte).getLsbD j = false := BitVec.getLsbD_zero
  rw [hw, hblank i, hbit]
  rfl

/-- Under a space there is nothing left of what was drawn before. -/
theorem blanks_pixel {font : Font} (hblank : BlankSpace font) (bold : Bool) (fb : Framebuffer)
    {blanks : List Write} {bgColor : BitVec 32}
    (hspace : ∀ w ∈ blanks, w.ch = chr ' ' ∧ w.bgColor = bgColor) (beyond : Nat → BitVec 32)
    {n : Nat} (hcov : Covered fb.width (blanks.map Write.cell) n) :
    (blanks.foldl (drawGlyph font bold) fb).pixel beyond n = bgColor := by
  have hn : n < 2 ^ 32 := by
    obtain ⟨cell, -, i, k, hreach⟩ := hcov
    exact hreach.lt
  rw [Framebuffer.pixel, if_pos hn, (drawGlyphs_ptr font bold fb blanks).1]
  refine storeAll_const _ ?_ ((mem_keys font bold fb.width blanks hn).mpr hcov)
  intro s hs
  obtain ⟨w, hw, hs⟩ := List.mem_flatMap.mp hs
  obtain ⟨hch, hbg⟩ := hspace w hw
  exact (glyphStores_space hblank bold fb.width hch s hs).trans hbg

/-- Pixels that no character is drawn to. -/
theorem uncovered_pixel (font : Font) (bold : Bool) (fb : Framebuffer) {ws : List Write}
    (beyond : Nat → BitVec 32) {n : Nat} (hcov : ¬Covered fb.width (ws.map Write.cell) n) :
    (ws.foldl (drawGlyph font bold) fb).pixel beyond n = fb.pixel beyond n := by
  unfold Framebuffer.pixel
  by_cases hn : n < 2 ^ 32
  · rw [if_pos hn, if_pos hn, (drawGlyphs_ptr font bold fb ws).1]
    exact storeAll_of_notMem _ fun h => hcov ((mem_keys font bold fb.width ws hn).mp h)
  · rw [if_neg hn, if_neg hn]

/-! ## Typing and erasing -/

/-- A text, and `'\b'` for each of its characters. -/
def typeAndErase (font : Font) (c : Console) (s : List Byte) : Option Console :=
  (s ++ List.replicate s.length 0x08).foldlM (putchar font) c

/-- The cells of `n` characters are cells of the screen. -/
def StaysOnScreen (c : Console) (n : Nat) : Prop :=
  ∀ k < n, (c.cursorX.toNat + k) % c.width.toNat < c.width.toNat ∧
    c.cursorY.toNat + (c.cursorX.toNat + k) / c.width.toNat < c.height.toNat

theorem covered_text {c : Console} {width : BitVec 32} {s : List Byte} {n : Nat} :
    Covered width ((textWrites c s).map Write.cell) n ↔
      ∃ j < s.length, ∃ i k, Reached width (c.cellAt j) n i k := by
  constructor
  · rintro ⟨cell, hcell, hreach⟩
    obtain ⟨w, hw, rfl⟩ := List.mem_map.mp hcell
    obtain ⟨j, hj⟩ := List.mem_iff_getElem?.mp hw
    rw [textWrites, List.getElem?_mapIdx] at hj
    obtain ⟨ch, hch, rfl⟩ := Option.map_eq_some_iff.mp hj
    exact ⟨j, (List.getElem?_eq_some_iff.mp hch).1, hreach⟩
  · rintro ⟨j, hj, hreach⟩
    refine ⟨c.cellAt j, List.mem_map.mpr ⟨c.writeAt j s[j], ?_, rfl⟩, hreach⟩
    refine List.mem_iff_getElem?.mpr ⟨j, ?_⟩
    rw [textWrites, List.getElem?_mapIdx, List.getElem?_eq_getElem hj]
    rfl

/-- `d` positions back in the same row. -/
theorem sub_divMod {w n d : Nat} (hw : 0 < w) (hd : d ≤ n % w) :
    (n - d) / w = n / w ∧ (n - d) % w = n % w - d := by
  have hn := Nat.mod_add_div n w
  have hlt := Nat.mod_lt n hw
  exact (Nat.div_mod_unique hw).mpr ⟨by omega, by omega⟩

/-- The cells in front of the end of a text of `n` characters, in its last row. -/
theorem cellAt_back {c : Console} (hx : c.cursorX < c.width) {n k : Nat} (hk : k < n)
    (hrow : k < (c.cursorX.toNat + n) % c.width.toNat) :
    (c.cursorX.toNat + (n - (k + 1))) / c.width.toNat = (c.cursorX.toNat + n) / c.width.toNat ∧
      c.cellAt (n - (k + 1)) =
        (BitVec.ofNat 16 ((c.cursorX.toNat + n) % c.width.toNat - (k + 1)), (c.cellAt n).2) := by
  have hw := width_pos hx
  obtain ⟨hdiv, hmod⟩ := sub_divMod hw (n := c.cursorX.toNat + n) (d := k + 1) hrow
  rw [Nat.add_sub_assoc (by omega)] at hdiv hmod
  refine ⟨hdiv, ?_⟩
  rw [Console.cellAt, hdiv, hmod]
  rfl

/-- A text of `n` characters is drawn to pixel `p` in the row in which it ends. -/
def InLastRow (width : BitVec 32) (c : Console) (n p : Nat) : Prop :=
  ∃ j < n, (c.cursorX.toNat + j) / c.width.toNat = (c.cursorX.toNat + n) / c.width.toNat ∧
    ∃ i k, Reached width (c.cellAt j) p i k

/-- The spaces behind a text of `n` characters go to its cells in the last row. -/
theorem covered_spaces {c c' : Console} (hx : c.cursorX < c.width) {width : BitVec 32} {n p : Nat}
    (hcol : c'.cursorX.toNat = (c.cursorX.toNat + n) % c.width.toNat)
    (hrow : c'.cursorY = (c.cellAt n).2) :
    Covered width ((spaces c' (min n c'.cursorX.toNat)).map Write.cell) p ↔
      InLastRow width c n p := by
  have hw := width_pos hx
  constructor
  · rintro ⟨cell, hmem, hreach⟩
    obtain ⟨w, hw', rfl⟩ := List.mem_map.mp hmem
    obtain ⟨k, hk, rfl⟩ := List.mem_map.mp hw'
    rw [List.mem_range, Nat.lt_min, hcol] at hk
    obtain ⟨hdiv, hcell⟩ := cellAt_back hx hk.1 hk.2
    rw [Write.cell, hcol, hrow, ← hcell] at hreach
    exact ⟨n - (k + 1), by omega, hdiv, hreach⟩
  · rintro ⟨j, hj, hdiv, hreach⟩
    have hfirst := Nat.mod_add_div (c.cursorX.toNat + j) c.width.toNat
    have hlast := Nat.mod_add_div (c.cursorX.toNat + n) c.width.toNat
    rw [hdiv] at hfirst
    have hk : n - (j + 1) < (c.cursorX.toNat + n) % c.width.toNat := by omega
    obtain ⟨-, hcell⟩ := cellAt_back hx (show n - (j + 1) < n by omega) hk
    rw [show n - (n - (j + 1) + 1) = j by omega] at hcell
    refine ⟨c.cellAt j, ?_, hreach⟩
    rw [hcell, ← hcol, ← hrow]
    refine List.mem_map_of_mem (List.mem_map_of_mem (List.mem_range.mpr ?_))
    rw [Nat.lt_min, hcol]
    omega

/-- The rows of a text on the screen can be counted. -/
theorem rows_lt {c : Console} (hx : c.cursorX < c.width) {n : Nat} (hpos : 0 < n)
    (hscreen : StaysOnScreen c n) :
    c.cursorY.toNat + (c.cursorX.toNat + n) / c.width.toNat < 65536 := by
  have hw := width_pos hx
  have hlast := (hscreen (n - 1) (by omega)).2
  have hheight := c.height.isLt
  have hrows : (c.cursorX.toNat + n) / c.width.toNat ≤
      (c.cursorX.toNat + (n - 1)) / c.width.toNat + 1 := by
    rw [← Nat.add_div_right _ hw]
    exact Nat.div_le_div_right (by omega)
  omega

/-- A text that does not get to the end of its row has one row. -/
theorem inLastRow_of_lt {c : Console} {width : BitVec 32} {n p : Nat}
    (hend : c.cursorX.toNat + n < c.width.toNat) :
    InLastRow width c n p ↔ ∃ j < n, ∃ i k, Reached width (c.cellAt j) p i k := by
  constructor
  · intro ⟨j, hj, _, hreach⟩
    exact ⟨j, hj, hreach⟩
  · intro ⟨j, hj, hreach⟩
    refine ⟨j, hj, ?_, hreach⟩
    rw [Nat.div_eq_of_lt hend, Nat.div_eq_of_lt (by omega)]

/-- The cursor of `typeAndErase_pixel`, when the text ends in its first row. -/
theorem cursor_returns {c : Console} {n : Nat}
    (hend : c.cursorX.toNat + n < c.width.toNat) :
    (BitVec.ofNat 16 ((c.cursorX.toNat + n) % c.width.toNat - n),
      (c.cellAt n).2) = (c.cursorX, c.cursorY) := by
  rw [Console.cellAt, Nat.mod_eq_of_lt hend, Nat.div_eq_of_lt hend, Nat.add_sub_cancel,
    Nat.add_zero, BitVec.ofNat_toNat, BitVec.setWidth_eq, BitVec.ofNat_toNat, BitVec.setWidth_eq]

/-- Otherwise. -/
theorem cursor_stays {c : Console} (hx : c.cursorX < c.width) {n : Nat}
    (hend : c.width.toNat ≤ c.cursorX.toNat + n) :
    (c.cursorX.toNat + n) % c.width.toNat - n = 0 ∧
      1 ≤ (c.cursorX.toNat + n) / c.width.toNat := by
  have hlt := BitVec.lt_def.mp hx
  have hw := width_pos hx
  have hrows : 1 ≤ (c.cursorX.toNat + n) / c.width.toNat := (Nat.one_le_div_iff hw).mpr hend
  have hsplit := Nat.mod_add_div (c.cursorX.toNat + n) c.width.toNat
  have hfull : c.width.toNat ≤
      c.width.toNat * ((c.cursorX.toNat + n) / c.width.toNat) :=
    Nat.le_mul_of_pos_right _ hrows
  exact ⟨by omega, hrows⟩

section Run

variable (font : Font) {width : BitVec 32} {c : Console} (hshape : Shape width c)
  (he : c.esc = false) (hx : c.cursorX < c.width) {s : List Byte}
  (hs : ∀ ch ∈ s, Drawable ch)

include hshape he hx hs

/-- The state behind the text, and the one behind the Backspaces. -/
theorem typeAndErase_run :
    ∃ c₁ c', Typed font c c₁ s ∧ typeAndErase font c s = some c' ∧
      c₁.cursorX.toNat = (c.cursorX.toNat + s.length) % c.width.toNat ∧
      c₁.cursorY = (c.cellAt s.length).2 ∧
      Erased font c₁ c' (min s.length c₁.cursorX.toNat) := by
  have hf := hshape.installed.writeFunc
  obtain ⟨c₁, hrun, htyped⟩ := typed_run font hf he hx hs
  obtain ⟨hesc, -⟩ := parser_eq htyped.parser
  obtain ⟨hwidth, -, hwrite⟩ := frame_eq htyped.frame
  have hcursor := htyped.cursor
  rw [Prod.ext_iff] at hcursor
  have hw := width_pos hx
  have hcol : c₁.cursorX.toNat = (c.cursorX.toNat + s.length) % c.width.toNat := by
    rw [← cellAt_column hx s.length, ← hcursor.1]
  have hx₁ : c₁.cursorX < c₁.width := by
    rw [BitVec.lt_def, hcol, hwidth]
    exact Nat.mod_lt _ hw
  obtain ⟨c', herase, herased⟩ := erased_run font (hwrite.trans hf) (hesc.trans he) hx₁ s.length
  refine ⟨c₁, c', htyped, ?_, hcol, hcursor.2, herased⟩
  rw [typeAndErase, foldlM_append_of hrun]
  exact herase

/-- What the Backspaces leave on the screen. -/
theorem typeAndErase_pixel (hblank : BlankSpace font) (beyond : Nat → BitVec 32) :
    ∃ c₁ c', Typed font c c₁ s ∧ typeAndErase font c s = some c' ∧
      (c'.cursorX, c'.cursorY) =
        (BitVec.ofNat 16 ((c.cursorX.toNat + s.length) % c.width.toNat - s.length),
          (c.cellAt s.length).2) ∧
      c'.attrs = c.attrs ∧ c'.fbCon.width = width ∧
      ∀ n, (InLastRow width c s.length n ∧ c'.fbCon.pixel beyond n = c.attrs.bgColor) ∨
        (¬InLastRow width c s.length n ∧
          c'.fbCon.pixel beyond n = c₁.fbCon.pixel beyond n) := by
  obtain ⟨c₁, c', htyped, hrun, hcol, hrow, herased⟩ :=
    typeAndErase_run font hshape he hx hs
  obtain ⟨-, hattrs⟩ := parser_eq htyped.parser
  have hwidth : c₁.fbCon.width = width := by
    rw [htyped.fbCon, (drawGlyphs_ptr font _ _ _).2, hshape.pixels]
  have hspace : ∀ w ∈ spaces c₁ (min s.length c₁.cursorX.toNat),
      w.ch = chr ' ' ∧ w.bgColor = c.attrs.bgColor := by
    intro w hw
    obtain ⟨k, -, rfl⟩ := List.mem_map.mp hw
    exact ⟨rfl, congrArg Attrs.bgColor hattrs⟩
  refine ⟨c₁, c', htyped, hrun, ?_, (parser_eq herased.parser).2.trans hattrs, ?_, fun n => ?_⟩
  · have hback : c₁.cursorX.toNat - min s.length c₁.cursorX.toNat =
        c₁.cursorX.toNat - s.length := by omega
    rw [herased.cursor, hback, hcol, hrow]
  · rw [herased.fbCon, (drawGlyphs_ptr font _ _ _).2, hwidth]
  · rw [← covered_spaces hx hcol hrow, herased.fbCon]
    by_cases hcov : Covered width
        ((spaces c₁ (min s.length c₁.cursorX.toNat)).map Write.cell) n
    · exact .inl ⟨hcov, blanks_pixel hblank _ c₁.fbCon hspace beyond (by rwa [hwidth])⟩
    · exact .inr ⟨hcov, uncovered_pixel font _ c₁.fbCon beyond (by rwa [hwidth])⟩

end Run

/-! ## Every state that output leads to -/

theorem reachable_shape {font : Font} {stack : Nat → Vector Byte 256} {res : LimineFramebuffer}
    (hptr : res.address ≠ 0) {c₀ c₁ c : Console} (hcom : c₀.writeFunc = .comLogWrapper)
    (hinit : fbconInit font stack true res c₀ = some c₁) {outs : List Output}
    (hrun : outs.foldlM (output font) c₁ = some c) : Shape c.fbCon.width c := by
  have hshape := foldlM_keeps (Shape _) (fun _ _ _ hc ho => output_shape hc ho) outs
    (fbconInit_shape hptr hcom hinit) hrun
  rw [hshape.pixels]
  exact hshape

/-- A text on the screen has a row to be in. -/
theorem Console.Installed.lt_width {c : Console} (h : c.Installed) {s : List Byte} (hne : s ≠ [])
    (hscreen : StaysOnScreen c s.length) : c.cursorX < c.width := by
  have hwidth := (hscreen 0 (List.length_pos_iff.mpr hne)).1
  rcases h.inRow with hzero | hlt
  · rw [hzero, BitVec.lt_def]
    exact Nat.lt_of_le_of_lt (Nat.zero_le _) hwidth
  · exact hlt

/-- For every font whose space is blank, every state that output leads to behind `FBCON_Init`
    with the parser at rest, and every text of characters with a glyph that stays on the screen.
    Backspace for each of them brings the cursor back to where the text started, if the text
    ended in front of the end of its row; otherwise to the first column of the row in which it
    ended. The cells of the text that are in the row in which it ended are then in the
    background's colour, in the seven columns that are drawn to. -/
theorem backspace_erases {font : Font} (hblank : BlankSpace font)
    {stack : Nat → Vector Byte 256} {res : LimineFramebuffer} (hptr : res.address ≠ 0)
    {c₀ c₁ c : Console} (hcom : c₀.writeFunc = .comLogWrapper)
    (hinit : fbconInit font stack true res c₀ = some c₁) {outs : List Output}
    (hrun : outs.foldlM (output font) c₁ = some c) (he : c.esc = false) {s : List Byte}
    (hs : ∀ ch ∈ s, Drawable ch) (hscreen : StaysOnScreen c s.length)
    (beyond : Nat → BitVec 32) :
    ∃ c', typeAndErase font c s = some c' ∧
      (c.cursorX.toNat + s.length < c.width.toNat →
        (c'.cursorX, c'.cursorY) = (c.cursorX, c.cursorY)) ∧
      (c.width.toNat ≤ c.cursorX.toNat + s.length → c'.cursorX = 0 ∧
        c'.cursorY.toNat =
          c.cursorY.toNat + (c.cursorX.toNat + s.length) / c.width.toNat) ∧
      c'.attrs = c.attrs ∧
      ∀ j < s.length,
        (c.cursorX.toNat + j) / c.width.toNat = (c.cursorX.toNat + s.length) / c.width.toNat →
        ∀ i k, k < 7 → cellIndex c.fbCon.width (c.cellAt j) i k < 2 ^ 32 →
          c'.fbCon.pixel beyond (cellIndex c.fbCon.width (c.cellAt j) i k) = c'.attrs.bgColor := by
  have hshape := reachable_shape hptr hcom hinit hrun
  by_cases hne : s = []
  · subst hne
    refine ⟨c, rfl, fun _ => rfl, fun hend => ?_, rfl, fun j hj => absurd hj (Nat.not_lt_zero j)⟩
    rcases hshape.installed.inRow with hzero | hlt
    · refine ⟨hzero, ?_⟩
      rw [hzero]
      exact (congrArg (c.cursorY.toNat + ·) (Nat.zero_div c.width.toNat)).symm
    · exact absurd (BitVec.lt_def.mp hlt) (Nat.not_lt_of_le hend)
  · have hx := hshape.installed.lt_width hne hscreen
    obtain ⟨c₂, c', -, hboth, hcursor, hattrs, -, hpixel⟩ :=
      typeAndErase_pixel font hshape he hx hs hblank beyond
    refine ⟨c', hboth, fun hend => ?_, fun hend => ?_, hattrs, ?_⟩
    · rw [hcursor, cursor_returns hend]
    · rw [(cursor_stays hx hend).1, Prod.mk.injEq] at hcursor
      refine ⟨hcursor.1, ?_⟩
      rw [hcursor.2, cellAt_row (rows_lt hx (List.length_pos_iff.mpr hne) hscreen)]
    · intro j hj hrow i k hk hindex
      rw [hattrs]
      rcases hpixel (cellIndex c.fbCon.width (c.cellAt j) i k) with ⟨-, hbg⟩ | ⟨hnone, -⟩
      · exact hbg
      · exact absurd ⟨j, hj, hrow, i, k, hk, Nat.mod_eq_of_lt hindex⟩ hnone

theorem blankSpace_letterFont : BlankSpace letterFont := by
  unfold BlankSpace
  decide +kernel

/-- A letter, on 640 by 480 pixels: typed, its third row has a pixel. -/
theorem backspace_erases_letter :
    ∃ c c₁ c' : Console,
      fbconInit letterFont (fun _ => Vector.replicate 256 0) true vgaScreen bootConsole = some c ∧
      putchar letterFont c (chr 'A') = some c₁ ∧
      c₁.fbCon.pixel (fun _ => 0) (34 * 640 + 3) = colorLgray ∧
      typeAndErase letterFont c [chr 'A'] = some c' ∧ (c'.cursorX, c'.cursorY) = (0, 2) ∧
      ∀ (i : Fin 16) (k : Nat), k < 7 →
        c'.fbCon.pixel (fun _ => 0) ((32 + i) * 640 + k) = colorBlack := by
  obtain ⟨c, hinit, hground, hattrs, hplace⟩ := vga_reached
  simp only [Prod.mk.injEq] at hplace
  obtain ⟨hcol, hrow, hwidth, hheight⟩ := hplace
  have hpixels : c.fbCon.width = 640 := (fbconInit_shape (by decide) rfl hinit).pixels
  have hscreen : StaysOnScreen c [chr 'A'].length := by
    unfold StaysOnScreen
    rw [hcol, hrow, hwidth, hheight]
    decide
  have hrun : [].foldlM (output letterFont) c = some c := rfl
  have hletters : ∀ ch ∈ [chr 'A'], Drawable ch := by decide
  obtain ⟨c', hboth, hback, -, hattrs', hblanks⟩ := backspace_erases blankSpace_letterFont
    (by decide) rfl hinit hrun hground.1 hletters hscreen fun _ => 0
  have htyped : (fbconInit letterFont (fun _ => Vector.replicate 256 0) true vgaScreen
      bootConsole).bind (fun c => (putchar letterFont c (chr 'A')).map fun c =>
        c.fbCon.pixel (fun _ => 0) (34 * 640 + 3)) = some colorLgray := by decide +kernel
  rw [hinit, Option.bind_some] at htyped
  obtain ⟨c₁, hput, hletter⟩ := Option.map_eq_some_iff.mp htyped
  refine ⟨c, c₁, c', hinit, hput, hletter, hboth, ?_, fun i k hk => ?_⟩
  · rw [hback (by rw [hcol, hwidth]; decide), hcol, hrow]
  · have hindex : cellIndex c.fbCon.width (c.cellAt 0) i k = (32 + i) * 640 + k := by
      rw [cellAt_zero (by rw [hcol, hwidth]; decide), hcol, hrow, hpixels, cellIndex]
      show (2 * 16 + i.val) * 640 + 0 * 8 + k = _
      omega
    have hpixel := hblanks 0 (by decide) (by rw [hcol, hwidth]; decide) i k hk
      (by rw [hindex]; omega)
    rw [hindex, hattrs', hattrs] at hpixel
    exact hpixel

/-! ## When a text is undone -/

/-- The cursor is back, and the cells of the text have the background's colour. -/
def Undone (font : Font) (beyond : Nat → BitVec 32) (c : Console) (s : List Byte) : Prop :=
  ∃ c', typeAndErase font c s = some c' ∧ (c'.cursorX, c'.cursorY) = (c.cursorX, c.cursorY) ∧
    ∀ j < s.length, ∀ i k, k < 8 →
      c'.fbCon.pixel beyond (cellIndex c.fbCon.width (c.cellAt j) i k) = c'.attrs.bgColor

section Undone

variable (font : Font) (hblank : BlankSpace font) {width : BitVec 32} {c : Console}
  (hshape : Shape width c) (he : c.esc = false) (hx : c.cursorX < c.width) {s : List Byte}
  (hs : ∀ ch ∈ s, Drawable ch)

include hblank hshape he hx hs

/-- A text that gets to the end of its row is not. -/
theorem not_undone_of_wrap (hend : c.width.toNat ≤ c.cursorX.toNat + s.length) (hne : s ≠ [])
    (hscreen : StaysOnScreen c s.length) (beyond : Nat → BitVec 32) :
    ¬Undone font beyond c s := by
  rintro ⟨c'', hboth', hback, -⟩
  obtain ⟨c₁, c', -, hboth, hcursor, -⟩ :=
    typeAndErase_pixel font hshape he hx hs hblank beyond
  obtain rfl : c' = c'' := Option.some_inj.mp (hboth.symm.trans hboth')
  have hrow := cellAt_row (rows_lt hx (List.length_pos_iff.mpr hne) hscreen)
  have hsame := congrArg Prod.snd (hcursor.symm.trans hback)
  dsimp only at hsame
  rw [hsame] at hrow
  have hdown := (cursor_stays hx hend).2
  omega

/-- Of a text that does not, each pixel of its cells has been drawn to, or it was in the
    background's colour. -/
theorem undone_iff_row (hend : c.cursorX.toNat + s.length < c.width.toNat)
    (beyond : Nat → BitVec 32) :
    Undone font beyond c s ↔ ∀ j < s.length, ∀ i k, k < 8 →
      (∃ j' < s.length, ∃ i' k',
          Reached width (c.cellAt j') (cellIndex width (c.cellAt j) i k) i' k') ∨
        c.fbCon.pixel beyond (cellIndex width (c.cellAt j) i k) = c.attrs.bgColor := by
  obtain ⟨c₁, c', htyped, hboth, hcursor, hattrs, -, hpixel⟩ :=
    typeAndErase_pixel font hshape he hx hs hblank beyond
  simp only [inLastRow_of_lt hend] at hpixel
  have hkept : ∀ n, (¬∃ j < s.length, ∃ i k, Reached width (c.cellAt j) n i k) →
      c'.fbCon.pixel beyond n = c.fbCon.pixel beyond n := by
    intro n hnone
    rcases hpixel n with ⟨hreach, -⟩ | ⟨-, hkept⟩
    · exact absurd hreach hnone
    · rw [hkept, htyped.fbCon]
      refine uncovered_pixel font _ c.fbCon beyond fun hcov => hnone ?_
      rwa [covered_text, hshape.pixels] at hcov
  constructor
  · rintro ⟨c'', hboth', -, hblanks⟩ j hj i k hk
    obtain rfl : c' = c'' := Option.some_inj.mp (hboth.symm.trans hboth')
    by_cases hreach : ∃ j' < s.length, ∃ i' k',
        Reached width (c.cellAt j') (cellIndex width (c.cellAt j) i k) i' k'
    · exact .inl hreach
    · right
      rw [← hkept _ hreach, ← hattrs, ← hshape.pixels]
      exact hblanks j hj i k hk
  · intro h
    refine ⟨c', hboth, hcursor.trans (cursor_returns hend), fun j hj i k hk => ?_⟩
    rw [hshape.pixels, hattrs]
    rcases hpixel (cellIndex width (c.cellAt j) i k) with ⟨-, hbg⟩ | ⟨hnone, -⟩
    · exact hbg
    · rw [hkept _ hnone]
      exact (h j hj i k hk).resolve_left hnone

end Undone

/-- The last column of a cell is in no other cell's first seven. -/
theorem column_not_reached {width : BitVec 32} {cell cell' : BitVec 16 × BitVec 16}
    (hfits : Fits width cell) (hfits' : Fits width cell')
    (hlast' : cellIndex width cell' 15 7 < 2 ^ 32) (i i' : Fin 16) (k' : Nat) :
    ¬Reached width cell' (cellIndex width cell i 7) i' k' := by
  rintro ⟨hk', hindex⟩
  rw [Nat.mod_eq_of_lt (cellIndex_below hfits' hlast' i' (by omega)), cellIndex, cellIndex,
    Nat.add_assoc, Nat.add_assoc] at hindex
  unfold Fits at hfits hfits'
  obtain ⟨-, hcol⟩ := rowMajor_inj (by omega) (by omega) hindex
  omega

/-- The exact law: a text is undone if it is empty, or if it ends in front of the end of its row
    and all pixels of its last columns have the background's colour before (where no index of its
    cells is cut off). -/
theorem undone_iff {font : Font} (hblank : BlankSpace font) {stack : Nat → Vector Byte 256}
    {res : LimineFramebuffer} (hptr : res.address ≠ 0) {c₀ c₁ c : Console}
    (hcom : c₀.writeFunc = .comLogWrapper) (hinit : fbconInit font stack true res c₀ = some c₁)
    {outs : List Output} (hrun : outs.foldlM (output font) c₁ = some c) (he : c.esc = false)
    {s : List Byte} (hs : ∀ ch ∈ s, Drawable ch) (hscreen : StaysOnScreen c s.length)
    (beyond : Nat → BitVec 32)
    (hlast : ∀ j < s.length, cellIndex c.fbCon.width (c.cellAt j) 15 7 < 2 ^ 32) :
    Undone font beyond c s ↔ s = [] ∨
      c.cursorX.toNat + s.length < c.width.toNat ∧ ∀ j < s.length, ∀ i,
        c.fbCon.pixel beyond (cellIndex c.fbCon.width (c.cellAt j) i 7) = c.attrs.bgColor := by
  have hshape := reachable_shape hptr hcom hinit hrun
  by_cases hne : s = []
  · subst hne
    exact iff_of_true ⟨c, rfl, rfl, fun j hj => absurd hj (Nat.not_lt_zero j)⟩ (.inl rfl)
  have hx := hshape.installed.lt_width hne hscreen
  by_cases hend : c.cursorX.toNat + s.length < c.width.toNat
  · have hfits : ∀ j < s.length, Fits c.fbCon.width (c.cellAt j) := by
      intro j hj
      refine cells_have_room (d := 8) ?_
      rw [← hshape.columns, BitVec.lt_def, cellAt_column hx]
      exact Nat.mod_lt _ (width_pos hx)
    rw [undone_iff_row font hblank hshape he hx hs hend beyond]
    constructor
    · refine fun h => .inr ⟨hend, fun j hj i => ?_⟩
      refine (h j hj i 7 (by decide)).resolve_left ?_
      rintro ⟨j', hj', i', k', hreach⟩
      exact column_not_reached (hfits j hj) (hfits j' hj') (hlast j' hj') i i' k' hreach
    · intro h j hj i k hk
      by_cases h7 : k = 7
      · rw [h7]
        exact .inr ((h.resolve_left hne).2 j hj i)
      · exact .inl ⟨j, hj, i, k,
          (reached_iff (hfits j hj) (hlast j hj) hk i k).mpr ⟨by omega, rfl, rfl⟩⟩
  · exact iff_of_false
      (not_undone_of_wrap font hblank hshape he hx hs (Nat.le_of_not_lt hend) hne hscreen beyond)
      fun h => hend (h.resolve_left hne).1

/-- Eighty letters are a full row of 640 pixels: the cursor stays in the next one. -/
theorem full_row_not_undone :
    ¬∀ (font : Font) (stack : Nat → Vector Byte 256) (res : LimineFramebuffer) (c₁ c : Console)
      (outs : List Output) (s : List Byte) (beyond : Nat → BitVec 32), BlankSpace font →
      res.address ≠ 0 → fbconInit font stack true res bootConsole = some c₁ →
      outs.foldlM (output font) c₁ = some c → c.esc = false → (∀ ch ∈ s, Drawable ch) →
      StaysOnScreen c s.length → Undone font beyond c s := by
  intro h
  obtain ⟨c, hinit, hground, -, hplace⟩ := vga_reached
  simp only [Prod.mk.injEq] at hplace
  obtain ⟨hcol, hrow, hwidth, hheight⟩ := hplace
  have hshape := fbconInit_shape (by decide) rfl hinit
  have hscreen : StaysOnScreen c (List.replicate 80 (chr 'A')).length := by
    unfold StaysOnScreen
    rw [hcol, hrow, hwidth, hheight]
    decide
  have hletters : ∀ ch ∈ List.replicate 80 (chr 'A'), Drawable ch := fun ch hch => by
    rw [List.eq_of_mem_replicate hch]
    decide
  refine not_undone_of_wrap letterFont blankSpace_letterFont hshape hground.1
    (by rw [hcol, hwidth]; decide) hletters (by rw [hcol, hwidth]; decide) (by decide) hscreen
    (fun _ => 0) ?_
  exact h letterFont _ vgaScreen c c [] _ _ blankSpace_letterFont (by decide) hinit rfl hground.1
    hletters hscreen

end SeshOS.Video
