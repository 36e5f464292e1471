/-
  The pixels of a drawn character.

  `FBCON_Write` stores to the first seven columns of a cell, row by row, at an index of 32 bits.
  A pixel behind the store has the colour of the last round that reached it, and the indices of
  the rounds increase until they are cut off, so the last one is the one with the largest index
  (`drawGlyph_pixel`). Where no index gets to `2 ^ 32` a pixel is reached by its own round only.
-/
import SeshOS.Base.Stores
import SeshOS.Video.Screen

namespace SeshOS.Video

open Base Libc

/-! ## The stores of a glyph -/

/-- Pixel `n` of the framebuffer. The pixels from `2 ^ 32` on are out of reach of the index;
    `beyond` is what is there. -/
def Framebuffer.pixel (fb : Framebuffer) (beyond : Nat → BitVec 32) (n : Nat) : BitVec 32 :=
  if n < 2 ^ 32 then fb.ptr (BitVec.ofNat 32 n) else beyond n

/-- The pixel in row `i` and column `k` of a cell. -/
def cellIndex (width : BitVec 32) (cell : BitVec 16 × BitVec 16) (i : Fin 16) (k : Nat) : Nat :=
  (cell.2.toNat * 16 + i) * width.toNat + cell.1.toNat * 8 + k

/-- The colour of a character there. -/
def glyphColor (font : Font) (bold : Bool) (w : Write) (i : Fin 16) (k : Nat) : BitVec 32 :=
  if ((font.get w.ch.toFin).get i).getLsbD (7 - k) then brighten bold w.fgColor else w.bgColor

/-- The stores of `drawGlyph`: for each round the index and the colour. -/
def glyphStores (font : Font) (bold : Bool) (width : BitVec 32) (w : Write) :
    List (BitVec 32 × BitVec 32) :=
  glyphRounds.map fun (i, j) =>
    (w.y.setWidth 32 * 16 * width + w.x.setWidth 32 * 8 + BitVec.ofNat 32 (7 - j) +
        BitVec.ofNat 32 i * width,
      if ((font.get w.ch.toFin).get i).getLsbD j then brighten bold w.fgColor else w.bgColor)

theorem glyphStores_keys (font : Font) (bold : Bool) (width : BitVec 32) (w : Write) :
    (glyphStores font bold width w).map Prod.fst = cellStores width (w.x, w.y) :=
  List.map_map

theorem drawGlyph_ptr (font : Font) (bold : Bool) (fb : Framebuffer) (w : Write) :
    (drawGlyph font bold fb w).ptr = storeAll fb.ptr (glyphStores font bold fb.width w) := by
  unfold drawGlyph glyphStores
  dsimp only
  generalize w.y.setWidth 32 * 16 * fb.width + w.x.setWidth 32 * 8 = offset
  generalize glyphRounds = rounds
  suffices h : ∀ fb' : Framebuffer, fb'.width = fb.width →
      (rounds.foldl (fun fb (i, j) =>
        fb.store (offset + BitVec.ofNat 32 (7 - j) + BitVec.ofNat 32 i * fb.width)
          (if ((font.get w.ch.toFin).get i).getLsbD j then brighten bold w.fgColor
            else w.bgColor)) fb').ptr =
        storeAll fb'.ptr (rounds.map fun (i, j) =>
          (offset + BitVec.ofNat 32 (7 - j) + BitVec.ofNat 32 i * fb.width,
            if ((font.get w.ch.toFin).get i).getLsbD j then brighten bold w.fgColor else w.bgColor))
    from h fb rfl
  induction rounds with
  | nil => exact fun _ _ => rfl
  | cons round rounds ih =>
    obtain ⟨i, j⟩ := round
    intro fb' hwidth
    have hrest := ih (fb'.store (offset + BitVec.ofNat 32 (7 - j) + BitVec.ofNat 32 i * fb'.width)
      (if ((font.get w.ch.toFin).get i).getLsbD j then brighten bold w.fgColor else w.bgColor)) hwidth
    rw [List.foldl_cons]
    dsimp only
    rw [hrest, ← hwidth]
    rfl

theorem mem_glyphRounds {i : Fin 16} {j : Nat} : (i, j) ∈ glyphRounds ↔ 1 ≤ j ∧ j ≤ 7 := by
  simp only [glyphRounds, List.mem_flatMap, List.mem_finRange, List.mem_map, Prod.mk.injEq,
    List.mem_cons, List.not_mem_nil, or_false, true_and]
  constructor
  · rintro ⟨i', j', hj, rfl, rfl⟩
    omega
  · intro hj
    exact ⟨i, j, by omega, rfl, rfl⟩

/-- The rounds go from top to bottom and from left to right. -/
theorem glyphRounds_sorted :
    glyphRounds.Pairwise fun r s => r.1 < s.1 ∨ r.1 = s.1 ∧ s.2 < r.2 := by
  unfold glyphRounds
  rw [List.pairwise_flatMap]
  constructor
  · intro i _
    rw [List.pairwise_map]
    have hcolumns : [7, 6, 5, 4, 3, 2, 1].Pairwise (fun j j' : Nat => j' < j) := by decide
    exact hcolumns.imp fun h => .inr ⟨rfl, h⟩
  · refine (List.pairwise_lt_finRange 16).imp ?_
    intro i i' hlt r hr s hs
    obtain ⟨j, -, rfl⟩ := List.mem_map.mp hr
    obtain ⟨j', -, rfl⟩ := List.mem_map.mp hs
    exact .inl hlt

/-! ## Indices -/

/-- The columns of a row come before the next row. -/
theorem rowMajor_lt {width row row' col : Nat} (col' : Nat) (hcol : col < width)
    (h : row < row' ∨ row = row' ∧ col < col') : row * width + col < row' * width + col' := by
  rcases h with hrow | ⟨rfl, hlt⟩
  · have hnext : (row + 1) * width ≤ row' * width := Nat.mul_le_mul_right width hrow
    rw [Nat.succ_mul] at hnext
    omega
  · omega

/-- A pixel is in one row and one column. -/
theorem rowMajor_inj {width row row' col col' : Nat} (hcol : col < width) (hcol' : col' < width)
    (h : row * width + col = row' * width + col') : row = row' ∧ col = col' := by
  rcases Nat.lt_trichotomy row row' with hlt | rfl | hgt
  · have := rowMajor_lt col' hcol (.inl hlt)
    omega
  · omega
  · have := rowMajor_lt col hcol' (.inl hgt)
    omega

/-- A cell of a row of characters. -/
def Fits (width : BitVec 32) (cell : BitVec 16 × BitVec 16) : Prop :=
  cell.1.toNat * 8 + 8 ≤ width.toNat

section Cell

variable {width : BitVec 32} {cell : BitVec 16 × BitVec 16} (hfits : Fits width cell)

include hfits

theorem cellIndex_lt {i i' : Fin 16} {k k' : Nat} (hk : k < 8) (h : i < i' ∨ i = i' ∧ k < k') :
    cellIndex width cell i k < cellIndex width cell i' k' := by
  unfold Fits at hfits
  rw [cellIndex, cellIndex, Nat.add_assoc, Nat.add_assoc]
  refine rowMajor_lt _ (by omega) ?_
  rcases h with hi | ⟨rfl, hk'⟩
  · left
    omega
  · right
    omega

theorem cellIndex_inj {i i' : Fin 16} {k k' : Nat} (hk : k < 8) (hk' : k' < 8)
    (h : cellIndex width cell i k = cellIndex width cell i' k') : i = i' ∧ k = k' := by
  unfold Fits at hfits
  rw [cellIndex, cellIndex, Nat.add_assoc, Nat.add_assoc] at h
  obtain ⟨hrow, hcol⟩ := rowMajor_inj (by omega) (by omega) h
  exact ⟨Fin.ext (by omega), by omega⟩

end Cell

/-! ## Which round reaches a pixel last -/

/-- The round for row `i` and column `k` stores to pixel `n`. -/
def Reached (width : BitVec 32) (cell : BitVec 16 × BitVec 16) (n : Nat) (i : Fin 16) (k : Nat) :
    Prop := k < 7 ∧ cellIndex width cell i k % 2 ^ 32 = n

/-- And no later round does. -/
def LastReached (width : BitVec 32) (cell : BitVec 16 × BitVec 16) (n : Nat) (i : Fin 16)
    (k : Nat) : Prop :=
  Reached width cell n i k ∧
    ∀ i' k', Reached width cell n i' k' → cellIndex width cell i' k' ≤ cellIndex width cell i k

theorem Reached.lt {width : BitVec 32} {cell : BitVec 16 × BitVec 16} {n : Nat} {i : Fin 16}
    {k : Nat} (h : Reached width cell n i k) : n < 2 ^ 32 := by
  rw [← h.2]
  exact Nat.mod_lt _ (by decide)

theorem LastReached.unique {width : BitVec 32} {cell : BitVec 16 × BitVec 16}
    (hfits : Fits width cell) {n : Nat} {i i' : Fin 16} {k k' : Nat}
    (h : LastReached width cell n i k) (h' : LastReached width cell n i' k') :
    i = i' ∧ k = k' := by
  have hlt : k < 7 := h.1.1
  have hlt' : k' < 7 := h'.1.1
  exact cellIndex_inj hfits (by omega) (by omega) (Nat.le_antisymm (h'.2 i k h.1) (h.2 i' k' h'.1))

/-- The index of the round for row `i` and bit `j`. -/
theorem storeIndex_eq (width : BitVec 32) (cell : BitVec 16 × BitVec 16) (i : Fin 16) (j n : Nat) :
    cell.2.setWidth 32 * 16 * width + cell.1.setWidth 32 * 8 + BitVec.ofNat 32 (7 - j) +
        BitVec.ofNat 32 i * width = BitVec.ofNat 32 n ↔
      cellIndex width cell i (7 - j) % 2 ^ 32 = n % 2 ^ 32 := by
  rw [← BitVec.toNat_inj, cell_toNat, BitVec.toNat_ofNat]
  rfl

theorem mem_cellStores {width : BitVec 32} {cell : BitVec 16 × BitVec 16} {n : Nat}
    (hn : n < 2 ^ 32) :
    BitVec.ofNat 32 n ∈ cellStores width cell ↔ ∃ i k, Reached width cell n i k := by
  have hmod : n % 2 ^ 32 = n := Nat.mod_eq_of_lt hn
  rw [cellStores, List.mem_map]
  constructor
  · rintro ⟨⟨i, j⟩, hround, hkey⟩
    have hj := mem_glyphRounds.mp hround
    refine ⟨i, 7 - j, by omega, ?_⟩
    rw [← hmod]
    exact (storeIndex_eq width cell i j n).mp hkey
  · rintro ⟨i, k, hk, hindex⟩
    refine ⟨(i, 7 - k), mem_glyphRounds.mpr (by omega), (storeIndex_eq width cell i (7 - k) n).mpr ?_⟩
    rw [hmod, show 7 - (7 - k) = k by omega]
    exact hindex

/-- No round up to the one for row `i` and bit `j` has a larger index. -/
theorem round_le {width : BitVec 32} {cell : BitVec 16 × BitVec 16} (hfits : Fits width cell)
    {before behind : List (Fin 16 × Nat)} {i : Fin 16} {j : Nat}
    (hrounds : glyphRounds = before ++ (i, j) :: behind) {i' : Fin 16} {k' : Nat} (hk' : k' < 7) :
    (i', 7 - k') ∈ behind ∨ cellIndex width cell i' k' ≤ cellIndex width cell i (7 - j) := by
  have hsorted := glyphRounds_sorted
  have hmem : (i', 7 - k') ∈ glyphRounds := mem_glyphRounds.mpr (by omega)
  rw [hrounds, List.mem_append, List.mem_cons] at hmem
  rw [hrounds] at hsorted
  rcases hmem with hbefore | hsame | hbehind
  · right
    have horder := (List.pairwise_append.mp hsorted).2.2 _ hbefore (i, j) List.mem_cons_self
    refine Nat.le_of_lt (cellIndex_lt hfits (by omega) ?_)
    dsimp only at horder
    omega
  · right
    rw [Prod.mk.injEq] at hsame
    rw [hsame.1, ← hsame.2, show 7 - (7 - k') = k' by omega]
  · exact .inl hbehind

/-- Pixel `n` behind the glyph loops. -/
theorem drawGlyph_pixel (font : Font) (bold : Bool) (fb : Framebuffer) (w : Write)
    (hfits : Fits fb.width (w.x, w.y)) (beyond : Nat → BitVec 32) (n : Nat) :
    ((∀ i k, ¬Reached fb.width (w.x, w.y) n i k) ∧
        (drawGlyph font bold fb w).pixel beyond n = fb.pixel beyond n) ∨
      ∃ i k, LastReached fb.width (w.x, w.y) n i k ∧
        (drawGlyph font bold fb w).pixel beyond n = glyphColor font bold w i k := by
  by_cases hn : n < 2 ^ 32
  · have hmod : n % 2 ^ 32 = n := Nat.mod_eq_of_lt hn
    unfold Framebuffer.pixel
    rw [if_pos hn, if_pos hn, drawGlyph_ptr]
    rcases storeAll_cases fb.ptr (glyphStores font bold fb.width w) (BitVec.ofNat 32 n) with
      ⟨hmem, hval⟩ | ⟨before, v, behind, hsplit, hlast, hval⟩
    · left
      rw [glyphStores_keys, mem_cellStores hn] at hmem
      exact ⟨fun i k hreach => hmem ⟨i, k, hreach⟩, hval⟩
    · right
      obtain ⟨before, rest, hrounds, rfl, hrest⟩ := List.map_eq_append_iff.mp hsplit
      obtain ⟨⟨i, j⟩, behind, rfl, hround, rfl⟩ := List.map_eq_cons_iff.mp hrest
      rw [Prod.mk.injEq] at hround
      obtain ⟨hkey, hcolor⟩ := hround
      have hj := mem_glyphRounds.mp (hrounds ▸ List.mem_append_right _ List.mem_cons_self :
        (i, j) ∈ glyphRounds)
      have hreach := (storeIndex_eq fb.width (w.x, w.y) i j n).mp hkey
      rw [hmod] at hreach
      refine ⟨i, 7 - j, ⟨⟨by omega, hreach⟩, fun i' k' h' => ?_⟩, ?_⟩
      · -- a round that reaches the pixel is not behind this one
        obtain ⟨hk', hindex⟩ := h'
        refine (round_le hfits hrounds hk').resolve_left fun hbehind => hlast ?_
        refine List.mem_map.mpr ⟨_, List.mem_map.mpr ⟨_, hbehind, rfl⟩, ?_⟩
        refine (storeIndex_eq fb.width (w.x, w.y) i' (7 - k') n).mpr ?_
        rw [show 7 - (7 - k') = k' by omega, hmod]
        exact hindex
      · rw [hval, ← hcolor, glyphColor, show 7 - (7 - j) = j by omega]
  · left
    refine ⟨fun i k hreach => hn hreach.lt, ?_⟩
    rw [Framebuffer.pixel, if_neg hn, Framebuffer.pixel, if_neg hn]

theorem cellIndex_below {width : BitVec 32} {cell : BitVec 16 × BitVec 16}
    (hfits : Fits width cell) (hlast : cellIndex width cell 15 7 < 2 ^ 32) (i : Fin 16) {k : Nat}
    (hk : k < 8) : cellIndex width cell i k < 2 ^ 32 := by
  by_cases hend : i = 15 ∧ k = 7
  · rw [hend.1, hend.2]
    exact hlast
  · exact Nat.lt_trans (cellIndex_lt hfits hk (by omega)) hlast

/-- No index of the cell gets to `2 ^ 32`: each round reaches its own pixel only. -/
theorem reached_iff {width : BitVec 32} {cell : BitVec 16 × BitVec 16} (hfits : Fits width cell)
    (hlast : cellIndex width cell 15 7 < 2 ^ 32) {i : Fin 16} {k : Nat} (hk : k < 8)
    (i' : Fin 16) (k' : Nat) :
    Reached width cell (cellIndex width cell i k) i' k' ↔ k < 7 ∧ i' = i ∧ k' = k := by
  constructor
  · rintro ⟨hk', hindex⟩
    rw [Nat.mod_eq_of_lt (cellIndex_below hfits hlast i' (by omega))] at hindex
    obtain ⟨hi, hk''⟩ := cellIndex_inj hfits (by omega) hk hindex
    exact ⟨by omega, hi, hk''⟩
  · rintro ⟨hlt, rfl, rfl⟩
    exact ⟨hlt, Nat.mod_eq_of_lt (cellIndex_below hfits hlast i' hk)⟩

/-! ## The cell that is drawn -/

theorem drawn_fbCon (font : Font) (nested : Bool) (c : Console) (w : Write) :
    (drawn font nested c w).fbCon = drawGlyph font c.attrs.bold c.fbCon w := by
  unfold drawn
  dsimp only [Console.log]
  generalize drawGlyph font c.attrs.bold c.fbCon w = fb
  by_cases hend : c.width ≤ c.cursorX + 1
  · simp only [hend, if_true]
  · simp only [hend, if_false]

/-- All 16 rows and 8 columns of the cell have the colours of the character. -/
def CellDrawn (font : Font) (bold : Bool) (beyond : Nat → BitVec 32) (fb : Framebuffer)
    (w : Write) : Prop :=
  ∀ i k, k < 8 →
    fb.pixel beyond (cellIndex fb.width (w.x, w.y) i k) = glyphColor font bold w i k

/-- Before the character is drawn: the last round that reaches the pixel has its colour, or there
    is none and the pixel has it already. -/
def ComesOut (font : Font) (bold : Bool) (beyond : Nat → BitVec 32) (fb : Framebuffer)
    (w : Write) (i : Fin 16) (k : Nat) : Prop :=
  (∃ i' k', LastReached fb.width (w.x, w.y) (cellIndex fb.width (w.x, w.y) i k) i' k' ∧
      glyphColor font bold w i' k' = glyphColor font bold w i k) ∨
    (∀ i' k', ¬Reached fb.width (w.x, w.y) (cellIndex fb.width (w.x, w.y) i k) i' k') ∧
      fb.pixel beyond (cellIndex fb.width (w.x, w.y) i k) = glyphColor font bold w i k

theorem pixel_iff_comesOut (font : Font) (bold : Bool) (fb : Framebuffer) (w : Write)
    (hfits : Fits fb.width (w.x, w.y)) (beyond : Nat → BitVec 32) (i : Fin 16) (k : Nat) :
    (drawGlyph font bold fb w).pixel beyond (cellIndex fb.width (w.x, w.y) i k) =
        glyphColor font bold w i k ↔ ComesOut font bold beyond fb w i k := by
  rcases drawGlyph_pixel font bold fb w hfits beyond (cellIndex fb.width (w.x, w.y) i k) with
    ⟨hnone, hkept⟩ | ⟨i', k', hlast, hcolor⟩
  · rw [hkept]
    constructor
    · exact fun h => .inr ⟨hnone, h⟩
    · rintro (⟨i', k', hlast, -⟩ | ⟨-, h⟩)
      · exact absurd hlast.1 (hnone i' k')
      · exact h
  · rw [hcolor]
    constructor
    · exact fun h => .inl ⟨i', k', hlast, h⟩
    · rintro (⟨i'', k'', hlast', h⟩ | ⟨hnone, -⟩)
      · obtain ⟨rfl, rfl⟩ := hlast.unique hfits hlast'
        exact h
      · exact absurd hlast.1 (hnone i' k')

theorem comesOut_iff (font : Font) (bold : Bool) (fb : Framebuffer) (w : Write)
    (hfits : Fits fb.width (w.x, w.y)) (hlast : cellIndex fb.width (w.x, w.y) 15 7 < 2 ^ 32)
    (beyond : Nat → BitVec 32) (i : Fin 16) {k : Nat} (hk : k < 8) :
    ComesOut font bold beyond fb w i k ↔ (k = 7 →
      fb.pixel beyond (cellIndex fb.width (w.x, w.y) i 7) = glyphColor font bold w i 7) := by
  unfold ComesOut LastReached
  simp only [reached_iff hfits hlast hk]
  by_cases h7 : k = 7
  · subst h7
    simp
  · have hlt : k < 7 := by omega
    refine iff_of_true (.inl ⟨i, k, ⟨⟨hlt, rfl, rfl⟩, ?_⟩, rfl⟩) fun h => absurd h h7
    rintro i' k' ⟨-, rfl, rfl⟩
    exact Nat.le_refl _

theorem cellDrawn_iff (font : Font) (bold : Bool) (fb : Framebuffer) (w : Write)
    (hfits : Fits fb.width (w.x, w.y)) (beyond : Nat → BitVec 32) :
    CellDrawn font bold beyond (drawGlyph font bold fb w) w ↔
      ∀ i k, k < 8 → ComesOut font bold beyond fb w i k := by
  unfold CellDrawn
  rw [(drawGlyph_stores font bold fb w).2.1]
  simp only [pixel_iff_comesOut font bold fb w hfits beyond]

/-- The last column is not drawn. -/
theorem cellDrawn_iff_column (font : Font) (bold : Bool) (fb : Framebuffer) (w : Write)
    (hfits : Fits fb.width (w.x, w.y)) (hlast : cellIndex fb.width (w.x, w.y) 15 7 < 2 ^ 32)
    (beyond : Nat → BitVec 32) :
    CellDrawn font bold beyond (drawGlyph font bold fb w) w ↔
      ∀ i, fb.pixel beyond (cellIndex fb.width (w.x, w.y) i 7) = glyphColor font bold w i 7 := by
  rw [cellDrawn_iff font bold fb w hfits beyond]
  constructor
  · intro h i
    exact (comesOut_iff font bold fb w hfits hlast beyond i (by decide)).mp (h i 7 (by decide)) rfl
  · intro h i k hk
    exact (comesOut_iff font bold fb w hfits hlast beyond i hk).mpr fun _ => h i

/-- For every framebuffer, font, character with a glyph, colours, bold or not, and every cell of
    a row of `TTY_Width` characters: the whole cell is drawn exactly when each of its pixels is
    last reached by a store of its colour, or by none and has the colour already. Where no index
    is cut off those that no store reaches are the pixels of the last column. -/
theorem cell_drawn_iff (font : Font) {c : Console} (he : c.esc = false)
    (hwidth : c.width = (c.fbCon.width / 8).setWidth 16) {w : Write} (hch : Drawable w.ch)
    (hx : w.x < c.width) (beyond : Nat → BitVec 32) :
    ∃ c', fbconWrite font c w = some c' ∧
      (CellDrawn font c.attrs.bold beyond c'.fbCon w ↔
        ∀ i k, k < 8 → ComesOut font c.attrs.bold beyond c.fbCon w i k) ∧
      (cellIndex c.fbCon.width (w.x, w.y) 15 7 < 2 ^ 32 →
        (CellDrawn font c.attrs.bold beyond c'.fbCon w ↔
          ∀ i, c.fbCon.pixel beyond (cellIndex c.fbCon.width (w.x, w.y) i 7) =
            glyphColor font c.attrs.bold w i 7)) := by
  have hfits : Fits c.fbCon.width (w.x, w.y) := cells_have_room (d := 8) (by rwa [← hwidth])
  refine ⟨_, fbconWrite_drawn font he hch, ?_⟩
  rw [drawn_fbCon]
  exact ⟨cellDrawn_iff font _ _ w hfits beyond,
    fun hlast => cellDrawn_iff_column font _ _ w hfits hlast beyond⟩

/-- A font without a pixel. -/
def blankFont : Font := Vector.replicate 256 (Vector.replicate 16 0)

/-- A console of one cell, all black. -/
def oneCell : Console :=
  { bootConsole with
    width := 1
    height := 1
    writeFunc := .fbconWrite
    fbCon := ⟨8, 16, fun _ => colorBlack, []⟩ }

/-- On black the last column of a character is there already. -/
theorem cell_drawn_iff_black :
    ∃ c', fbconWrite letterFont oneCell
        ⟨chr 'A', 0, 0, colorLgray, colorBlack⟩ = some c' ∧
      CellDrawn letterFont false (fun _ => 0) c'.fbCon
        ⟨chr 'A', 0, 0, colorLgray, colorBlack⟩ := by
  obtain ⟨c', hrun, -, hiff⟩ := cell_drawn_iff letterFont
    (c := oneCell) rfl rfl (w := ⟨chr 'A', 0, 0, colorLgray, colorBlack⟩) (by decide) (by decide)
    fun _ => 0
  exact ⟨c', hrun, (hiff (by decide)).mpr (by decide +kernel)⟩

/-- On a red background it stays black. -/
theorem last_column_not_drawn :
    ¬∀ (font : Font) (c : Console) (w : Write) (beyond : Nat → BitVec 32), c.esc = false →
      c.width = (c.fbCon.width / 8).setWidth 16 → c.height = (c.fbCon.height / 16).setWidth 16 →
      Drawable w.ch → w.x < c.width → w.y < c.height →
      ∃ c', fbconWrite font c w = some c' ∧
        CellDrawn font c.attrs.bold beyond c'.fbCon w := by
  intro h
  obtain ⟨c', hrun, hdrawn⟩ := h blankFont oneCell
    ⟨chr 'A', 0, 0, colorLgray, colorRed⟩ (fun _ => 0) rfl rfl rfl (by decide) (by decide) (by decide)
  rw [fbconWrite_drawn _ rfl (by decide), Option.some_inj] at hrun
  rw [← hrun, drawn_fbCon, cellDrawn_iff_column _ _ _ _ (by unfold Fits; decide) (by decide)] at hdrawn
  exact absurd (hdrawn 0) (by decide)

/-! ## The last columns of a run -/

/-- A character leaves the framebuffer alone, or draws one glyph. -/
theorem putchar_fbCon {font : Font} {c c' : Console} (hf : c.writeFunc = .fbconWrite) {ch : Byte}
    (h : putchar font c ch = some c') :
    c'.fbCon = c.fbCon ∨ ∃ w, c'.fbCon = drawGlyph font c.attrs.bold c.fbCon w := by
  rcases putchar_cases hf h with ⟨-, hscreen, -⟩ | ⟨-, ⟨-, rfl⟩ | ⟨-, -, rfl⟩ | ⟨-, -, rfl⟩ |
    ⟨-, rfl⟩ | ⟨-, rfl⟩⟩
  · simp only [Console.screen, Prod.mk.injEq] at hscreen
    exact .inl hscreen.2.2.1
  · exact .inl rfl
  · exact .inl rfl
  · exact .inr ⟨_, drawn_fbCon font true c.erasing (c.erasing.write (chr ' '))⟩
  · exact .inl rfl
  · exact .inr ⟨_, drawn_fbCon font false c (c.write ch)⟩

/-- With rows of whole characters no index is in a last column, cut off or not. -/
theorem cellStores_column {width : BitVec 32} (hwidth : width.toNat % 8 = 0)
    (cell : BitVec 16 × BitVec 16) : ∀ key ∈ cellStores width cell, key.toNat % 8 ≠ 7 := by
  intro key hkey
  obtain ⟨⟨i, j⟩, hround, rfl⟩ := List.mem_map.mp hkey
  have hj := mem_glyphRounds.mp hround
  have hrows : (cell.2.toNat * 16 + i) * width.toNat % 8 = 0 := by
    rw [Nat.mul_mod, hwidth, Nat.mul_zero, Nat.zero_mod]
  dsimp only
  rw [cell_toNat]
  omega

/-- Whatever is output, the last column of every cell keeps the pixels that it had. -/
theorem lastColumns_kept {font : Font} {width : BitVec 32} (hwidth : width.toNat % 8 = 0)
    {c c' : Console} (hc : Shape width c) {outs : List Output}
    (hrun : outs.foldlM (output font) c = some c') {key : BitVec 32} (hkey : key.toNat % 8 = 7) :
    c'.fbCon.ptr key = c.fbCon.ptr key := by
  refine (foldlM_keeps (fun d => Shape width d ∧ d.fbCon.ptr key = c.fbCon.ptr key) ?_ outs
    ⟨hc, rfl⟩ hrun).2
  rintro d o d' ⟨hd, hkept⟩ ho
  refine ⟨output_shape hd ho, ?_⟩
  rw [← hkept]
  cases o with
  | com input =>
    obtain ⟨i, -, rfl⟩ := Option.map_eq_some_iff.mp ho
    rfl
  | put ch =>
    rcases putchar_fbCon hd.installed.writeFunc ho with hfb | ⟨w, hfb⟩
    · rw [hfb]
    · rw [hfb, drawGlyph_ptr]
      refine storeAll_of_notMem _ fun hmem => ?_
      rw [glyphStores_keys, hd.pixels] at hmem
      exact cellStores_column hwidth _ key hmem hkey

/-! ## Other cells -/

/-- A cell of a row of `TTY_Width` characters and of a column of `TTY_Height`. -/
structure OnScreen (fb : Framebuffer) (cell : BitVec 16 × BitVec 16) : Prop where
  fits : Fits fb.width cell
  above : cell.2.toNat * 16 + 16 ≤ fb.height.toNat

theorem onScreen_of_lt {fb : Framebuffer} {cell : BitVec 16 × BitVec 16}
    (hx : cell.1 < (fb.width / 8).setWidth 16) (hy : cell.2 < (fb.height / 16).setWidth 16) :
    OnScreen fb cell :=
  ⟨cells_have_room hx, cells_have_room hy⟩

theorem OnScreen.cellIndex_lt {cell : BitVec 16 × BitVec 16} (h : OnScreen fb cell) (i : Fin 16)
    {k : Nat} (hk : k < 8) :
    cellIndex fb.width cell i k < fb.width.toNat * fb.height.toNat := by
  have hfits := h.fits
  have habove := h.above
  unfold Fits at hfits
  rw [cellIndex, Nat.add_assoc, Nat.mul_comm fb.width.toNat]
  exact rowMajor_lt 0 (by omega) (.inl (by omega))

section Area

variable {fb : Framebuffer} (harea : fb.width.toNat * fb.height.toNat < 2 ^ 32)

include harea

/-- The round that reaches a pixel does so at the index of the pixel. -/
theorem OnScreen.reached_eq {cell : BitVec 16 × BitVec 16} (h : OnScreen fb cell) {n : Nat}
    {i : Fin 16} {k : Nat} (hreach : Reached fb.width cell n i k) :
    cellIndex fb.width cell i k = n := by
  have hk := hreach.1
  rw [← hreach.2]
  exact (Nat.mod_eq_of_lt (Nat.lt_trans (h.cellIndex_lt i (by omega)) harea)).symm

/-- Pixels outside of the cell are not reached. -/
theorem drawGlyph_outside (font : Font) (bold : Bool) {w : Write} (h : OnScreen fb (w.x, w.y))
    (beyond : Nat → BitVec 32) {row col : Nat} (hcol : col < fb.width.toNat)
    (hout : ¬((w.y.toNat * 16 ≤ row ∧ row < w.y.toNat * 16 + 16) ∧
      w.x.toNat * 8 ≤ col ∧ col < w.x.toNat * 8 + 8)) :
    (drawGlyph font bold fb w).pixel beyond (row * fb.width.toNat + col) =
      fb.pixel beyond (row * fb.width.toNat + col) := by
  rcases drawGlyph_pixel font bold fb w h.fits beyond (row * fb.width.toNat + col) with
    ⟨-, hkept⟩ | ⟨i, k, hlast, -⟩
  · exact hkept
  · have hk := hlast.1.1
    have hfits := h.fits
    have hindex := h.reached_eq harea hlast.1
    unfold Fits at hfits
    dsimp only at hfits
    rw [cellIndex, Nat.add_assoc] at hindex
    obtain ⟨hrow, hcol'⟩ := rowMajor_inj (by dsimp only; omega) hcol hindex
    dsimp only at hrow hcol'
    exact absurd ⟨⟨by omega, by omega⟩, by omega, by omega⟩ hout

/-- Two cells have no index in common. -/
theorem cellStores_disjoint {cell cell' : BitVec 16 × BitVec 16} (h : OnScreen fb cell)
    (h' : OnScreen fb cell') (hne : cell ≠ cell') :
    (cellStores fb.width cell).Disjoint (cellStores fb.width cell') := by
  intro key hkey hkey'
  have hnat : BitVec.ofNat 32 key.toNat = key := by simp
  rw [← hnat, mem_cellStores key.isLt] at hkey hkey'
  obtain ⟨i, k, hreach⟩ := hkey
  obtain ⟨i', k', hreach'⟩ := hkey'
  have hindex := (h.reached_eq harea hreach).trans (h'.reached_eq harea hreach').symm
  have hk := hreach.1
  have hk' := hreach'.1
  have hfits := h.fits
  have hfits' := h'.fits
  unfold Fits at hfits hfits'
  rw [cellIndex, cellIndex, Nat.add_assoc, Nat.add_assoc] at hindex
  obtain ⟨hrow, hcol⟩ := rowMajor_inj (by omega) (by omega) hindex
  refine hne (Prod.ext (BitVec.eq_of_toNat_eq ?_) (BitVec.eq_of_toNat_eq ?_))
  · omega
  · omega

theorem drawGlyph_comm (font : Font) (bold : Bool) {w w' : Write}
    (h : OnScreen fb (w.x, w.y)) (h' : OnScreen fb (w'.x, w'.y))
    (hne : (w.x, w.y) ≠ (w'.x, w'.y)) :
    (drawGlyph font bold (drawGlyph font bold fb w) w').ptr =
      (drawGlyph font bold (drawGlyph font bold fb w') w).ptr := by
  simp only [drawGlyph_ptr, (drawGlyph_stores font bold fb _).2.1]
  refine storeAll_comm fb.ptr ?_
  rw [glyphStores_keys, glyphStores_keys]
  exact cellStores_disjoint harea h h' hne

end Area

/-- The framebuffer behind two characters. -/
theorem feed_pair (font : Font) {c : Console} (he : c.esc = false) {w w' : Write}
    (hch : Drawable w.ch) (hch' : Drawable w'.ch) :
    ∃ c', feed font c [w, w'] = some c' ∧
      c'.fbCon = drawGlyph font c.attrs.bold (drawGlyph font c.attrs.bold c.fbCon w) w' := by
  obtain ⟨-, hparser, -⟩ := drawn_kept font false c w
  obtain ⟨hesc, hattrs⟩ := parser_eq hparser
  have hsecond := fbconWrite_drawn font (c := drawn font false c w) (hesc.trans he) hch'
  refine ⟨drawn font false (drawn font false c w) w', ?_, ?_⟩
  · rw [feed, foldlM_cons_of (fbconWrite_drawn font he hch), foldlM_cons_of hsecond]
    rfl
  · rw [drawn_fbCon, drawn_fbCon, hattrs]

/-- For every framebuffer of less than `2 ^ 32` pixels, every character with a glyph and every
    cell on the screen: drawing changes no pixel outside of the cell, no index wraps around, and
    with a character in another cell the order does not matter. -/
theorem cells_independent (font : Font) {c : Console} (he : c.esc = false)
    (hwidth : c.width = (c.fbCon.width / 8).setWidth 16)
    (hheight : c.height = (c.fbCon.height / 16).setWidth 16)
    (harea : c.fbCon.width.toNat * c.fbCon.height.toNat < 2 ^ 32) {w : Write}
    (hch : Drawable w.ch) (hx : w.x < c.width) (hy : w.y < c.height)
    (beyond : Nat → BitVec 32) :
    ∃ c', fbconWrite font c w = some c' ∧
      (∀ row col, col < c.fbCon.width.toNat →
        ¬((w.y.toNat * 16 ≤ row ∧ row < w.y.toNat * 16 + 16) ∧
          w.x.toNat * 8 ≤ col ∧ col < w.x.toNat * 8 + 8) →
        c'.fbCon.pixel beyond (row * c.fbCon.width.toNat + col) =
          c.fbCon.pixel beyond (row * c.fbCon.width.toNat + col)) ∧
      (∀ i j, (i, j) ∈ glyphRounds →
        (w.y.setWidth 32 * 16 * c.fbCon.width + w.x.setWidth 32 * 8 + BitVec.ofNat 32 (7 - j) +
            BitVec.ofNat 32 i * c.fbCon.width).toNat =
          (w.y.toNat * 16 + i) * c.fbCon.width.toNat + w.x.toNat * 8 + (7 - j)) ∧
      ∀ w', Drawable w'.ch → w'.x < c.width → w'.y < c.height → (w.x, w.y) ≠ (w'.x, w'.y) →
        ∃ c₁ c₂, feed font c [w, w'] = some c₁ ∧ feed font c [w', w] = some c₂ ∧
          c₁.fbCon.ptr = c₂.fbCon.ptr := by
  rw [hwidth] at hx
  rw [hheight] at hy
  have hcell : OnScreen c.fbCon (w.x, w.y) := onScreen_of_lt hx hy
  refine ⟨_, fbconWrite_drawn font he hch, ?_, ?_, ?_⟩
  · intro row col hcol hout
    rw [drawn_fbCon]
    exact drawGlyph_outside harea font c.attrs.bold hcell beyond hcol hout
  · intro i j hround
    have hj := mem_glyphRounds.mp hround
    rw [cell_toNat]
    exact Nat.mod_eq_of_lt
      (Nat.lt_trans (hcell.cellIndex_lt i (show 7 - j < 8 by omega)) harea)
  · intro w' hch' hx' hy' hne
    rw [hwidth] at hx'
    rw [hheight] at hy'
    obtain ⟨c₁, hrun₁, hfb₁⟩ := feed_pair font he hch hch'
    obtain ⟨c₂, hrun₂, hfb₂⟩ := feed_pair font he hch' hch
    refine ⟨c₁, c₂, hrun₁, hrun₂, ?_⟩
    rw [hfb₁, hfb₂]
    exact drawGlyph_comm harea font c.attrs.bold hcell (onScreen_of_lt hx' hy') hne

/-- A console of two cells side by side. -/
def twoCells : Console :=
  { bootConsole with
    width := 2
    height := 1
    writeFunc := .fbconWrite
    fbCon := ⟨16, 16, fun _ => colorBlack, []⟩ }

/-- Two letters side by side, in either order. -/
theorem cells_independent_two :
    ∃ c₁ c₂, feed letterFont twoCells [⟨chr 'A', 0, 0, colorLgray, colorBlack⟩,
        ⟨chr 'B', 1, 0, colorRed, colorBlack⟩] = some c₁ ∧
      feed letterFont twoCells [⟨chr 'B', 1, 0, colorRed, colorBlack⟩,
        ⟨chr 'A', 0, 0, colorLgray, colorBlack⟩] = some c₂ ∧ c₁.fbCon.ptr = c₂.fbCon.ptr := by
  obtain ⟨-, -, -, -, horder⟩ := cells_independent letterFont (c := twoCells) rfl rfl rfl (by decide)
    (w := ⟨chr 'A', 0, 0, colorLgray, colorBlack⟩) (by decide) (by decide) (by decide) fun _ => 0
  exact horder ⟨chr 'B', 1, 0, colorRed, colorBlack⟩ (by decide) (by decide) (by decide) (by decide)

end SeshOS.Video
