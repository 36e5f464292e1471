/-
  Text in the cells of the screen.

  Characters with a glyph go to one cell after the other, row by row (`typed_run`): the cell of
  each is known from where the first was, by division by the width.
-/
import SeshOS.Video.Pixels

namespace SeshOS.Video

open Base Libc

/-! ## The cells of a text -/

/-- The cell `k` cells behind the cursor, in rows of `TTY_Width`. -/
def Console.cellAt (c : Console) (k : Nat) : BitVec 16 × BitVec 16 :=
  (BitVec.ofNat 16 ((c.cursorX.toNat + k) % c.width.toNat),
    BitVec.ofNat 16 (c.cursorY.toNat + (c.cursorX.toNat + k) / c.width.toNat))

/-- The write of a character there. -/
def Console.writeAt (c : Console) (k : Nat) (ch : Byte) : Write :=
  ⟨ch, (c.cellAt k).1, (c.cellAt k).2, c.attrs.color, c.attrs.bgColor⟩

/-- The writes of a text. -/
def textWrites (c : Console) (s : List Byte) : List Write := s.mapIdx c.writeAt

theorem width_pos {c : Console} (hx : c.cursorX < c.width) : 0 < c.width.toNat :=
  Nat.lt_of_le_of_lt (Nat.zero_le _) (BitVec.lt_def.mp hx)

theorem cellAt_zero {c : Console} (hx : c.cursorX < c.width) :
    c.cellAt 0 = (c.cursorX, c.cursorY) := by
  have hlt := BitVec.lt_def.mp hx
  rw [Console.cellAt, Nat.add_zero, Nat.mod_eq_of_lt hlt, Nat.div_eq_of_lt hlt, Nat.add_zero]
  simp only [BitVec.ofNat_toNat, BitVec.setWidth_eq]

/-- One position further, in rows of `w`. -/
theorem succ_divMod_inside {w n : Nat} (h : n % w + 1 < w) :
    (n + 1) / w = n / w ∧ (n + 1) % w = n % w + 1 := by
  have hn := Nat.mod_add_div n w
  exact (Nat.div_mod_unique (by omega)).mpr ⟨by omega, h⟩

theorem succ_divMod_end {w n : Nat} (hw : 0 < w) (h : w ≤ n % w + 1) :
    (n + 1) / w = n / w + 1 ∧ (n + 1) % w = 0 := by
  have hn := Nat.mod_add_div n w
  have hlt := Nat.mod_lt n hw
  refine (Nat.div_mod_unique hw).mpr ⟨?_, hw⟩
  rw [Nat.mul_succ]
  omega

theorem advance_cellAt {c : Console} (hx : c.cursorX < c.width) (k : Nat) :
    advance c.width (c.cellAt k).1 (c.cellAt k).2 = c.cellAt (k + 1) := by
  have hw := width_pos hx
  have hwidth := c.width.isLt
  have hcol := Nat.mod_lt (c.cursorX.toNat + k) hw
  have hx1 : ((c.cellAt k).1 + 1).toNat = (c.cursorX.toNat + k) % c.width.toNat + 1 := by
    show (BitVec.ofNat 16 ((c.cursorX.toNat + k) % c.width.toNat) + BitVec.ofNat 16 1).toNat = _
    rw [← BitVec.ofNat_add, BitVec.toNat_ofNat]
    exact Nat.mod_eq_of_lt (by omega)
  have hnext : c.cellAt (k + 1) =
      (BitVec.ofNat 16 ((c.cursorX.toNat + k + 1) % c.width.toNat),
        BitVec.ofNat 16 (c.cursorY.toNat + (c.cursorX.toNat + k + 1) / c.width.toNat)) := rfl
  rw [advance, hnext]
  by_cases hend : c.width.toNat ≤ (c.cursorX.toNat + k) % c.width.toNat + 1
  · obtain ⟨hdiv, hmod⟩ := succ_divMod_end hw hend
    rw [if_pos (BitVec.le_def.mpr (by rw [hx1]; exact hend)), hdiv, hmod, ← Nat.add_assoc,
      BitVec.ofNat_add _ 1]
    rfl
  · obtain ⟨hdiv, hmod⟩ := succ_divMod_inside (Nat.lt_of_not_le hend)
    rw [if_neg (fun h => hend (by rw [← hx1]; exact BitVec.le_def.mp h)), hdiv, hmod,
      BitVec.ofNat_add _ 1]
    rfl

/-! ## Typing -/

/-- `c'` is `c` behind a text. -/
structure Typed (font : Font) (c c' : Console) (s : List Byte) : Prop where
  cursor : (c'.cursorX, c'.cursorY) = c.cellAt s.length
  frame : c'.frame = c.frame
  parser : c'.parser = c.parser
  fbCon : c'.fbCon = (textWrites c s).foldl (drawGlyph font c.attrs.bold) c.fbCon
  trace : c'.trace =
    c.trace ++ (textWrites c s).map fun w => .glyph false w.ch w.x w.y w.fgColor w.bgColor

section Ground

variable (font : Font) {c : Console} (hf : c.writeFunc = .fbconWrite) (he : c.esc = false)
  (hx : c.cursorX < c.width)

include hf he hx

/-- One more character. -/
theorem typed_step {s : List Byte} {c' : Console} (h : Typed font c c' s) {ch : Byte}
    (hch : Drawable ch) : ∃ c'', putchar font c' ch = some c'' ∧ Typed font c c'' (s ++ [ch]) := by
  obtain ⟨hesc, hattrs⟩ := parser_eq h.parser
  obtain ⟨hwidth, -, hwrite⟩ := frame_eq h.frame
  have hcell := h.cursor
  rw [Prod.ext_iff] at hcell
  obtain ⟨hcol, hrow⟩ := hcell
  dsimp only at hcol hrow
  have hw : c'.write ch = c.writeAt s.length ch := by
    rw [Console.write, Console.writeAt, hcol, hrow, hattrs]
  obtain ⟨hcursor, -⟩ := drawn_moves font false c' (c'.write ch)
  obtain ⟨hframe, hparser, htrace⟩ := drawn_kept font false c' (c'.write ch)
  refine ⟨_, putchar_drawn font (hwrite.trans hf) (hesc.trans he) hch, ?_, hframe.trans h.frame,
    hparser.trans h.parser, ?_, ?_⟩
  · rw [hcursor, hwidth, hcol, hrow, advance_cellAt hx, List.length_append, List.length_singleton]
  · rw [drawn_fbCon, hattrs, h.fbCon, hw, textWrites, textWrites, List.mapIdx_concat,
      List.foldl_append, List.foldl_cons, List.foldl_nil]
  · rw [htrace, h.trace, hw, textWrites, textWrites, List.mapIdx_concat, List.map_append,
      List.append_assoc, List.map_singleton]

/-- A text of characters with a glyph. -/
theorem typed_run {s : List Byte} (hs : ∀ ch ∈ s, Drawable ch) :
    ∃ c', s.foldlM (putchar font) c = some c' ∧ Typed font c c' s := by
  induction s using List.reverseRecOn with
  | nil => exact ⟨c, rfl, (cellAt_zero hx).symm, rfl, rfl, rfl, (List.append_nil _).symm⟩
  | append_singleton s ch ih =>
    rw [List.forall_mem_append, List.forall_mem_singleton] at hs
    obtain ⟨c', hrun, htyped⟩ := ih hs.1
    obtain ⟨c'', hput, htyped'⟩ := typed_step font hf he hx htyped hs.2
    exact ⟨c'', foldlM_concat_of hrun hput, htyped'⟩

end Ground

theorem textWrites_ch (c : Console) (s : List Byte) : (textWrites c s).map Write.ch = s := by
  apply List.ext_getElem?
  intro k
  rw [textWrites, List.getElem?_map, List.getElem?_mapIdx, Option.map_map]
  exact congrFun Option.map_id _

theorem cellAt_column {c : Console} (hx : c.cursorX < c.width) (k : Nat) :
    (c.cellAt k).1.toNat = (c.cursorX.toNat + k) % c.width.toNat := by
  have hw := width_pos hx
  have hwidth := c.width.isLt
  have hcol := Nat.mod_lt (c.cursorX.toNat + k) hw
  exact (BitVec.toNat_ofNat _ _).trans (Nat.mod_eq_of_lt (by omega))

theorem cellAt_row {c : Console} {k : Nat}
    (hrow : c.cursorY.toNat + (c.cursorX.toNat + k) / c.width.toNat < 65536) :
    (c.cellAt k).2.toNat = c.cursorY.toNat + (c.cursorX.toNat + k) / c.width.toNat :=
  (BitVec.toNat_ofNat _ _).trans (Nat.mod_eq_of_lt hrow)

/-- For every width, every start in the row and every text of characters with a glyph whose rows
    can be counted: `puts` draws character `k` at position `x₀ + k`, counted through the rows
    from the start of the first, and leaves the cursor behind the last. -/
theorem puts_places (font : Font) {c : Console} (hf : c.writeFunc = .fbconWrite)
    (he : c.esc = false) (hx : c.cursorX < c.width) {s : List Byte}
    (hs : ∀ ch ∈ s, ch ≠ 0 ∧ Drawable ch)
    (hrows : c.cursorY.toNat + (c.cursorX.toNat + s.length) / c.width.toNat < 65536)
    (rest : List Byte) :
    ∃ (c' : Console) (ws : List Write), puts font c (s ++ 0 :: rest) = some c' ∧
      (c'.cursorX.toNat = (c.cursorX.toNat + s.length) % c.width.toNat ∧
        c'.cursorY.toNat =
          c.cursorY.toNat + (c.cursorX.toNat + s.length) / c.width.toNat) ∧
      c'.fbCon = ws.foldl (drawGlyph font c.attrs.bold) c.fbCon ∧
      c'.trace = c.trace ++ ws.map (fun w => .glyph false w.ch w.x w.y w.fgColor w.bgColor) ∧
      ws.map Write.ch = s ∧
      ∀ k w, ws[k]? = some w → w.x.toNat = (c.cursorX.toNat + k) % c.width.toNat ∧
        w.y.toNat = c.cursorY.toNat + (c.cursorX.toNat + k) / c.width.toNat ∧
        w.fgColor = c.attrs.color ∧ w.bgColor = c.attrs.bgColor := by
  have hzero : 0 ∉ s := fun h => (hs 0 h).1 rfl
  obtain ⟨c', hrun, htyped⟩ := typed_run font hf he hx fun ch hch => (hs ch hch).2
  have hcursor := htyped.cursor
  rw [Prod.ext_iff] at hcursor
  obtain ⟨hcol, hrow⟩ := hcursor
  refine ⟨c', textWrites c s, ?_, ⟨?_, ?_⟩, htyped.fbCon, htyped.trace, ?_, ?_⟩
  · rw [puts_eq font c hzero, hrun]
  · rw [← cellAt_column hx s.length, ← hcol]
  · rw [← cellAt_row hrows, ← hrow]
  · exact textWrites_ch c s
  · intro k w hk
    rw [textWrites, List.getElem?_mapIdx] at hk
    obtain ⟨ch, hch, rfl⟩ := Option.map_eq_some_iff.mp hk
    obtain ⟨hlt, -⟩ := List.getElem?_eq_some_iff.mp hch
    have hdiv : (c.cursorX.toNat + k) / c.width.toNat ≤
        (c.cursorX.toNat + s.length) / c.width.toNat := Nat.div_le_div_right (by omega)
    exact ⟨cellAt_column hx k, cellAt_row (by omega), rfl, rfl⟩

/-- Three letters in rows of two. -/
theorem puts_places_three :
    ∃ c', puts blankFont twoCells (ascii "ABC" ++ [0]) = some c' ∧
      c'.cursorX.toNat = 1 ∧ c'.cursorY.toNat = 1 := by
  obtain ⟨c', ws, hputs, ⟨hx, hy⟩, -⟩ := puts_places blankFont (c := twoCells) rfl rfl (by decide)
    (s := ascii "ABC") (by decide) (by decide) []
  exact ⟨c', hputs, hx, hy⟩

end SeshOS.Video
