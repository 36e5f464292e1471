/-
  Drawing past the console: `putPixel`, `drawRect`, `drawImage` and `Clear` of video/video.c.

  `putPixel` takes the pixel it should set for an address and stores the colour there. A pixel has
  32 bits, and the framebuffer lies above what they reach, so no pixel ever changes
  (`putPixel_above`). The picture is right afterwards exactly when it was right before, and
  nothing else has changed exactly when the stray stores did no harm (`paints_iff`).
-/
import SeshOS.Video.Screen
import SeshOS.Video.Sequence

namespace SeshOS.Video

open Base Libc

/-! ## video.c -/

/-- `fbCon` as the bootloader hands it out, in the upper half of the address space. -/
structure Screen where
  ptr : Nat
  width : BitVec 32
  height : BitVec 32
  above : 2 ^ 32 + 3 ≤ ptr
  end_le : ptr + 4 * (width.toNat * height.toNat) ≤ 2 ^ 64

/-- The address of `fbCon.ptr[x + (y * fbCon.width)]`. -/
def Screen.pixel (s : Screen) (x y : BitVec 32) : Nat := s.ptr + 4 * (x + y * s.width).toNat

def putPixel (s : Screen) (m : Mem) (x y color : BitVec 32) : Mem :=
  m.storeLE (m.loadLE (s.pixel x y) 4) color.toNat 4

/-- `putPixel` in loops, with one colour. -/
def putPixels (s : Screen) (m : Mem) (ps : List (BitVec 32 × BitVec 32)) (color : BitVec 32) :
    Mem :=
  ps.foldl (fun m p => putPixel s m p.1 p.2 color) m

/-- A value of type `int`. A sum outside of it is undefined. -/
def FitsInt (n : Int) : Prop := -2 ^ 31 ≤ n ∧ n < 2 ^ 31

instance (n : Int) : Decidable (FitsInt n) := inferInstanceAs (Decidable (_ ∧ _))

/-- The rounds of the loops of `drawRect`. -/
def rectRounds (startx starty : BitVec 32) (endx endy : Int) : List (BitVec 32 × BitVec 32) :=
  (List.range (endx - startx.toInt).toNat).flatMap fun i =>
    (List.range (endy - starty.toInt).toNat).map fun j =>
      (startx + BitVec.ofNat 32 i, starty + BitVec.ofNat 32 j)

def drawRect (s : Screen) (m : Mem) (startx starty width height color : BitVec 32) : Option Mem :=
  let endx := startx.toInt + width.toInt
  let endy := starty.toInt + height.toInt
  if FitsInt endx ∧ FitsInt endy then
    some (putPixels s m (rectRounds startx starty endx endy) color)
  else none

/-- `icon[k]`. -/
def iconWord (m : Mem) (icon k : Nat) : BitVec 32 := .ofNat 32 (m.loadLE (icon + 4 * k) 4)

/-- `icon[0]` and `icon[1]`. -/
def iconWidth (m : Mem) (icon : Nat) : Int := (iconWord m icon 0).toInt
def iconHeight (m : Mem) (icon : Nat) : Int := (iconWord m icon 1).toInt

/-- `y * width + x + 2`, in a round. -/
def iconIndex (width : Int) (p : Nat × Nat) : Int := p.2 * width + p.1 + 2

/-- The rounds of the loops of `drawImage`: `x` and `y`. -/
def imageRounds (width height : Int) : List (Nat × Nat) :=
  (List.range height.toNat).flatMap fun y => (List.range width.toNat).map fun x => (x, y)

/-- The sums of a round are values of type `int`. -/
def RoundFits (width : Int) (posx posy : BitVec 32) (p : Nat × Nat) : Prop :=
  FitsInt (posx.toInt + p.1) ∧ FitsInt (posy.toInt + p.2) ∧ FitsInt (iconIndex width p)

instance (width : Int) (posx posy : BitVec 32) (p : Nat × Nat) :
    Decidable (RoundFits width posx posy p) := inferInstanceAs (Decidable (_ ∧ _ ∧ _))

def imageRound (s : Screen) (icon : Nat) (width : Int) (posx posy : BitVec 32) (m : Mem)
    (p : Nat × Nat) : Option Mem :=
  if RoundFits width posx posy p then
    some (putPixel s m (posx + BitVec.ofNat 32 p.1) (posy + BitVec.ofNat 32 p.2)
      (iconWord m icon (iconIndex width p).toNat))
  else none

def drawImage (s : Screen) (m : Mem) (icon : Nat) (posx posy : BitVec 32) : Option Mem :=
  let width := iconWidth m icon
  let height := iconHeight m icon
  (imageRounds width height).foldlM (imageRound s icon width posx posy) m

/-- What `Clear` prints. -/
def clearText : List Byte := escape "[2J " ++ escape "[H"

/-- Memory behind what the console has drawn. -/
def flushed (s : Screen) (m : Mem) (before after : Framebuffer) : Mem :=
  (after.stores.drop before.stores.length).foldl
    (fun m k => m.storeLE (s.ptr + 4 * k.toNat) (after.ptr k).toNat 4) m

/-- The rounds of the loops of `Clear`. -/
def clearRounds (s : Screen) : List (BitVec 32 × BitVec 32) :=
  (List.range s.width.toNat).flatMap fun x =>
    (List.range s.height.toNat).map fun y => (BitVec.ofNat 32 x, BitVec.ofNat 32 y)

/-- `Clear`. It does not use its argument. -/
def clear (font : Font) (s : Screen) (c : Console) (m : Mem) (_color : BitVec 32) :
    Option (Console × Mem) :=
  (clearText.foldlM (putchar font) c).map fun c' =>
    (c', putPixels s (flushed s m c.fbCon c'.fbCon) (clearRounds s) 0)

/-! ## What they should do -/

/-- A pixel of the screen. -/
def Screen.Has (s : Screen) (x y : BitVec 32) : Prop := x < s.width ∧ y < s.height

/-- The pixels to set, and their colours. -/
abbrev Picture := BitVec 32 → BitVec 32 → Option (BitVec 32)

/-- The pixels of the picture have their colours, and no other memory has changed. -/
structure Paints (s : Screen) (m m' : Mem) (p : Picture) : Prop where
  drawn : ∀ x y color, s.Has x y → p x y = some color →
    m'.loadLE (s.pixel x y) 4 = color.toNat
  others : ∀ a, (∀ x y color, s.Has x y → p x y = some color →
    a < s.pixel x y ∨ s.pixel x y + 4 ≤ a) → m' a = m a

/-- The screen shows the picture. -/
def Shown (s : Screen) (m : Mem) (p : Picture) : Prop :=
  ∀ x y color, s.Has x y → p x y = some color → m.loadLE (s.pixel x y) 4 = color.toNat

/-- Inside of `[startx, startx + width) x [starty, starty + height)`. -/
def InRect (startx starty width height : Int) (x y : BitVec 32) : Prop :=
  (startx ≤ x.toNat ∧ x.toNat < startx + width) ∧ starty ≤ y.toNat ∧ y.toNat < starty + height

instance (startx starty width height : Int) (x y : BitVec 32) :
    Decidable (InRect startx starty width height x y) :=
  inferInstanceAs (Decidable ((_ ∧ _) ∧ _ ∧ _))

/-- A rectangle on the screen. -/
def Screen.Holds (s : Screen) (startx starty width height : Int) : Prop :=
  (0 ≤ startx ∧ startx + width ≤ s.width.toNat) ∧ 0 ≤ starty ∧ starty + height ≤ s.height.toNat

def rectPicture (startx starty width height color : BitVec 32) : Picture := fun x y =>
  if InRect startx.toInt starty.toInt width.toInt height.toInt x y then some color else none

def imagePicture (m : Mem) (icon : Nat) (posx posy : BitVec 32) : Picture := fun x y =>
  if InRect posx.toInt posy.toInt (iconWidth m icon) (iconHeight m icon) x y then
    some (iconWord m icon
      ((y.toNat - posy.toInt) * iconWidth m icon + (x.toNat - posx.toInt) + 2).toNat)
  else none

/-! ## One pixel -/

section Pixel

variable {s : Screen} {m m' : Mem}

/-- A pixel of the screen lies above the reach of a pixel taken for an address. -/
theorem Screen.pixel_bounds (s : Screen) {x y : BitVec 32} (h : s.Has x y) :
    2 ^ 32 + 3 ≤ s.pixel x y ∧ s.pixel x y + 4 ≤ 2 ^ 64 := by
  have hx := BitVec.lt_def.mp h.1
  have hrow : (y.toNat + 1) * s.width.toNat ≤ s.height.toNat * s.width.toNat :=
    Nat.mul_le_mul_right _ (BitVec.lt_def.mp h.2)
  have hindex : (x + y * s.width).toNat ≤ x.toNat + y.toNat * s.width.toNat := by
    rw [BitVec.toNat_add, BitVec.toNat_mul, Nat.add_mod_mod]
    exact Nat.mod_le _ _
  have habove := s.above
  have hend := s.end_le
  rw [Nat.succ_mul] at hrow
  rw [Nat.mul_comm s.width.toNat] at hend
  unfold Screen.pixel
  omega

theorem putPixel_above (s : Screen) (m : Mem) (x y color : BitVec 32) {a : Nat}
    (ha : 2 ^ 32 + 3 ≤ a) : putPixel s m x y color a = m a := by
  have hlt : m.loadLE (s.pixel x y) 4 < 256 ^ 4 := Mem.loadLE_lt _ _ _
  exact Mem.storeLE_frame m _ (by omega) (by omega)

/-- Memory that agrees above the reach has the same pixels. -/
theorem pixel_congr (h : ∀ a, 2 ^ 32 + 3 ≤ a → m' a = m a) {x y : BitVec 32} (hxy : s.Has x y) :
    m'.loadLE (s.pixel x y) 4 = m.loadLE (s.pixel x y) 4 := by
  obtain ⟨habove, hend⟩ := s.pixel_bounds hxy
  exact Mem.loadLE_congr hend fun i _ => h _ (by omega)

/-- When no pixel has changed, the picture is painted exactly when it was shown before, and
    nothing has changed at all. -/
theorem paints_iff (h : ∀ a, 2 ^ 32 + 3 ≤ a → m' a = m a) (p : Picture) :
    Paints s m m' p ↔ Shown s m p ∧ m' = m := by
  constructor
  · rintro ⟨hdrawn, hothers⟩
    refine ⟨fun x y color hxy hp => ?_, funext fun a => ?_⟩
    · rw [← pixel_congr h hxy]
      exact hdrawn x y color hxy hp
    · by_cases ha : 2 ^ 32 + 3 ≤ a
      · exact h a ha
      · refine hothers a fun x y _ hxy _ => ?_
        have hpixel := (s.pixel_bounds hxy).1
        omega
  · rintro ⟨hshown, rfl⟩
    exact ⟨hshown, fun _ _ => rfl⟩

/-! ## Loops of one colour -/

/-- Two nested loops have no round exactly when one of them has none. -/
theorem nested_eq_nil_iff {α : Type} (f : Nat → Nat → α) (a b : Nat) :
    ((List.range a).flatMap fun i => (List.range b).map (f i)) = [] ↔ a = 0 ∨ b = 0 := by
  rw [List.flatMap_eq_nil_iff]
  constructor
  · intro hall
    cases a with
    | zero => exact Or.inl rfl
    | succ a =>
      have hfirst := hall 0 (List.mem_range.mpr a.succ_pos)
      exact Or.inr (List.range_eq_nil.mp (List.map_eq_nil_iff.mp hfirst))
  · rintro (rfl | rfl) i hi
    · cases hi
    · rfl

theorem putPixels_concat (s : Screen) (m : Mem) (ps : List (BitVec 32 × BitVec 32))
    (p : BitVec 32 × BitVec 32) (color : BitVec 32) :
    putPixels s m (ps ++ [p]) color = putPixel s (putPixels s m ps color) p.1 p.2 color := by
  rw [putPixels, List.foldl_append]
  rfl

theorem putPixels_above (s : Screen) (m : Mem) (ps : List (BitVec 32 × BitVec 32))
    (color : BitVec 32) : ∀ a, 2 ^ 32 + 3 ≤ a → putPixels s m ps color a = m a := by
  intro a ha
  induction ps using List.reverseRecOn with
  | nil => rfl
  | append_singleton ps p ih => rw [putPixels_concat, putPixel_above _ _ _ _ _ ha, ih]

/-- Over pixels of the colour `shown`, the stray stores do no harm exactly when there are none, or
    the colour is at the address `shown` already. -/
theorem putPixels_eq_iff {ps : List (BitVec 32 × BitVec 32)} {shown color : BitVec 32}
    (hps : ∀ p ∈ ps, s.Has p.1 p.2 ∧ m.loadLE (s.pixel p.1 p.2) 4 = shown.toNat) :
    putPixels s m ps color = m ↔ ps = [] ∨ m.loadLE shown.toNat 4 = color.toNat := by
  have hcolor : color.toNat % 256 ^ 4 = color.toNat := Nat.mod_eq_of_lt color.isLt
  have hstep : ∀ before p, before ++ [p] <+: ps → putPixels s m (before ++ [p]) color =
      (putPixels s m before color).storeLE shown.toNat color.toNat 4 := by
    intro before p hp
    obtain ⟨hhas, hshown⟩ := hps p (hp.subset (by simp))
    rw [putPixels_concat, putPixel, pixel_congr (putPixels_above s m before color) hhas, hshown]
  constructor
  · intro hsame
    rcases List.eq_nil_or_concat ps with rfl | ⟨before, p, rfl⟩
    · exact Or.inl rfl
    · -- the last store is still there
      rw [List.concat_eq_append] at hsame hstep
      rw [hstep before p (List.prefix_refl _)] at hsame
      refine Or.inr ?_
      rw [← hsame, Mem.loadLE_storeLE_self _ (by decide), hcolor]
  · rintro (rfl | hthere)
    · rfl
    · have hrun : ∀ qs, qs <+: ps → putPixels s m qs color = m := by
        intro qs
        induction qs using List.reverseRecOn with
        | nil => exact fun _ => rfl
        | append_singleton qs p ih =>
          intro hqs
          rw [hstep qs p hqs, ih ((List.prefix_append qs [p]).trans hqs)]
          exact Mem.storeLE_same _ (hthere.trans hcolor.symm)
      exact hrun ps (List.prefix_refl _)

end Pixel

/-! ## drawRect -/

section Rect

variable {s : Screen} {m : Mem} {startx starty width height color : BitVec 32}

/-- `drawRect` returns, and draws the rectangle. -/
def DrawsRect (s : Screen) (m : Mem) (startx starty width height color : BitVec 32) : Prop :=
  ∃ m', drawRect s m startx starty width height color = some m' ∧
    Paints s m m' (rectPicture startx starty width height color)

/-- A coordinate `i` behind the start. -/
theorem coordinate_toNat {start : BitVec 32} {i bound : Nat} (hstart : 0 ≤ start.toInt)
    (h : start.toInt + i < bound) (hbound : bound ≤ 2 ^ 32) :
    ((start + BitVec.ofNat 32 i).toNat : Int) = start.toInt + i := by
  have hmsb := BitVec.toInt_eq_toNat_cond start
  have hlt := start.isLt
  rw [BitVec.toNat_add, BitVec.toNat_ofNat]
  split at hmsb <;> omega

theorem rectRounds_has (h : s.Holds startx.toInt starty.toInt width.toInt height.toInt) :
    ∀ p ∈ rectRounds startx starty (startx.toInt + width.toInt) (starty.toInt + height.toInt),
      s.Has p.1 p.2 ∧ InRect startx.toInt starty.toInt width.toInt height.toInt p.1 p.2 := by
  intro p hp
  obtain ⟨⟨hx0, hx⟩, hy0, hy⟩ := h
  simp only [rectRounds, List.mem_flatMap, List.mem_map, List.mem_range] at hp
  obtain ⟨i, hi, j, hj, rfl⟩ := hp
  have hxi := coordinate_toNat hx0 (show startx.toInt + i < s.width.toNat by omega) (by omega)
  have hyj := coordinate_toNat hy0 (show starty.toInt + j < s.height.toNat by omega) (by omega)
  unfold Screen.Has InRect
  rw [BitVec.lt_def, BitVec.lt_def]
  dsimp only
  omega

theorem rectRounds_eq_nil_iff (startx starty : BitVec 32) (w h : Int) :
    rectRounds startx starty (startx.toInt + w) (starty.toInt + h) = [] ↔ w ≤ 0 ∨ h ≤ 0 := by
  rw [rectRounds, nested_eq_nil_iff]
  omega

/-- `drawRect` draws a rectangle of the screen exactly when its ends are values of type `int`, it
    is there already, and it is empty or its colour is, taken for an address, where it is stored. -/
theorem drawsRect_iff (h : s.Holds startx.toInt starty.toInt width.toInt height.toInt) :
    DrawsRect s m startx starty width height color ↔
      (FitsInt (startx.toInt + width.toInt) ∧ FitsInt (starty.toInt + height.toInt)) ∧
        Shown s m (rectPicture startx starty width height color) ∧
        ((width.toInt ≤ 0 ∨ height.toInt ≤ 0) ∨ m.loadLE color.toNat 4 = color.toNat) := by
  have hrun : ∀ ps, Paints s m (putPixels s m ps color)
      (rectPicture startx starty width height color) ↔
      Shown s m (rectPicture startx starty width height color) ∧ putPixels s m ps color = m :=
    fun ps => paints_iff (putPixels_above s m ps color) _
  unfold DrawsRect drawRect
  dsimp only
  by_cases hfits : FitsInt (startx.toInt + width.toInt) ∧ FitsInt (starty.toInt + height.toInt)
  · rw [if_pos hfits, and_iff_right hfits]
    simp only [Option.some.injEq, exists_eq_left']
    rw [hrun]
    refine and_congr_right fun hshown => ?_
    have hpixels : ∀ p ∈ rectRounds startx starty (startx.toInt + width.toInt)
        (starty.toInt + height.toInt),
        s.Has p.1 p.2 ∧ m.loadLE (s.pixel p.1 p.2) 4 = color.toNat := by
      intro p hp
      obtain ⟨hhas, hin⟩ := rectRounds_has h p hp
      exact ⟨hhas, hshown p.1 p.2 color hhas (if_pos hin)⟩
    rw [putPixels_eq_iff hpixels, rectRounds_eq_nil_iff]
  · rw [if_neg hfits]
    exact iff_of_false (fun ⟨_, hnone, _⟩ => by cases hnone) fun hall => hfits hall.1

end Rect

/-! ## drawImage -/

section Image

variable {s : Screen} {m : Mem} {icon : Nat} {posx posy : BitVec 32}

/-- `drawImage` returns, and draws the icon. -/
def DrawsImage (s : Screen) (m : Mem) (icon : Nat) (posx posy : BitVec 32) : Prop :=
  ∃ m', drawImage s m icon posx posy = some m' ∧ Paints s m m' (imagePicture m icon posx posy)

/-- The colour of a round, taken for an address, and there the colour that the icon, in `m'`, has
    by then. -/
def ownStore (m : Mem) (icon : Nat) (m' : Mem) (p : Nat × Nat) : Mem :=
  let k := (iconIndex (iconWidth m icon) p).toNat
  m'.storeLE (iconWord m icon k).toNat (iconWord m' icon k).toNat 4

/-- The stores of all rounds. -/
def ownStores (m : Mem) (icon : Nat) : Mem :=
  (imageRounds (iconWidth m icon) (iconHeight m icon)).foldl (ownStore m icon) m

theorem mem_imageRounds {width height : Int} {p : Nat × Nat} :
    p ∈ imageRounds width height ↔ (p.1 : Int) < width ∧ (p.2 : Int) < height := by
  obtain ⟨x, y⟩ := p
  simp only [imageRounds, List.mem_flatMap, List.mem_map, List.mem_range, Prod.mk.injEq]
  constructor
  · rintro ⟨j, hj, i, hi, rfl, rfl⟩
    omega
  · rintro ⟨hx, hy⟩
    exact ⟨y, by omega, x, by omega, rfl, rfl⟩

/-- A run that returns has changed nothing above the reach, and its sums were in range. -/
theorem imageRounds_run {width : Int} {ps : List (Nat × Nat)} {m m' : Mem}
    (h : ps.foldlM (imageRound s icon width posx posy) m = some m') :
    (∀ a, 2 ^ 32 + 3 ≤ a → m' a = m a) ∧ ∀ p ∈ ps, RoundFits width posx posy p := by
  induction ps generalizing m with
  | nil =>
    cases h
    exact ⟨fun _ _ => rfl, fun p hp => by cases hp⟩
  | cons p ps ih =>
    rw [List.foldlM_cons, imageRound] at h
    by_cases hfits : RoundFits width posx posy p
    · rw [if_pos hfits] at h
      obtain ⟨hkept, hrest⟩ := ih h
      refine ⟨fun a ha => ?_, List.forall_mem_cons.mpr ⟨hfits, hrest⟩⟩
      rw [hkept a ha, putPixel_above _ _ _ _ _ ha]
    · rw [if_neg hfits] at h
      cases h

/-- What a round meets on a screen that shows the icon: its own colour. -/
theorem imageRound_pixel
    (h : s.Holds posx.toInt posy.toInt (iconWidth m icon) (iconHeight m icon))
    (hshown : Shown s m (imagePicture m icon posx posy)) {p : Nat × Nat}
    (hp : p ∈ imageRounds (iconWidth m icon) (iconHeight m icon)) :
    s.Has (posx + BitVec.ofNat 32 p.1) (posy + BitVec.ofNat 32 p.2) ∧
      m.loadLE (s.pixel (posx + BitVec.ofNat 32 p.1) (posy + BitVec.ofNat 32 p.2)) 4 =
        (iconWord m icon (iconIndex (iconWidth m icon) p).toNat).toNat := by
  obtain ⟨⟨hx0, hx⟩, hy0, hy⟩ := h
  obtain ⟨hpx, hpy⟩ := mem_imageRounds.mp hp
  have hxp := coordinate_toNat hx0 (show posx.toInt + p.1 < s.width.toNat by omega) (by omega)
  have hyp := coordinate_toNat hy0 (show posy.toInt + p.2 < s.height.toNat by omega) (by omega)
  have hhas : s.Has (posx + BitVec.ofNat 32 p.1) (posy + BitVec.ofNat 32 p.2) := by
    unfold Screen.Has
    rw [BitVec.lt_def, BitVec.lt_def]
    omega
  refine ⟨hhas, hshown _ _ _ hhas ?_⟩
  have hin : InRect posx.toInt posy.toInt (iconWidth m icon) (iconHeight m icon)
      (posx + BitVec.ofNat 32 p.1) (posy + BitVec.ofNat 32 p.2) := by
    unfold InRect
    omega
  rw [imagePicture, if_pos hin, hxp, hyp, add_sub_cancel_left, add_sub_cancel_left]
  rfl

/-- On a screen that shows the icon, the stores of `drawImage` are those of its colours. -/
theorem drawImage_run
    (h : s.Holds posx.toInt posy.toInt (iconWidth m icon) (iconHeight m icon))
    (hshown : Shown s m (imagePicture m icon posx posy))
    (hfits : ∀ p ∈ imageRounds (iconWidth m icon) (iconHeight m icon),
      RoundFits (iconWidth m icon) posx posy p) :
    drawImage s m icon posx posy = some (ownStores m icon) := by
  have hfrom : ∀ (ps : List (Nat × Nat)) (m' : Mem),
      (∀ p ∈ ps, p ∈ imageRounds (iconWidth m icon) (iconHeight m icon)) →
      (∀ a, 2 ^ 32 + 3 ≤ a → m' a = m a) →
      ps.foldlM (imageRound s icon (iconWidth m icon) posx posy) m' =
        some (ps.foldl (ownStore m icon) m') := by
    intro ps
    induction ps with
    | nil => exact fun _ _ _ => rfl
    | cons p ps ih =>
      intro m' hps hkept
      rw [List.forall_mem_cons] at hps
      obtain ⟨hhas, hpixel⟩ := imageRound_pixel h hshown hps.1
      have hround : imageRound s icon (iconWidth m icon) posx posy m' p =
          some (ownStore m icon m' p) := by
        rw [imageRound, if_pos (hfits p hps.1), putPixel, pixel_congr hkept hhas, hpixel]
        rfl
      rw [foldlM_cons_of hround, List.foldl_cons]
      refine ih _ hps.2 fun a ha => ?_
      have hlt := (iconWord m icon (iconIndex (iconWidth m icon) p).toNat).isLt
      rw [ownStore, Mem.storeLE_frame _ _ (by omega) (by omega), hkept a ha]
  exact hfrom _ m (fun _ hp => hp) fun _ _ => rfl

/-- `drawImage` draws an icon on the screen exactly when its sums are values of type `int`, the
    screen shows the icon already, and storing its colours to where they lead changes nothing. -/
theorem drawsImage_iff
    (h : s.Holds posx.toInt posy.toInt (iconWidth m icon) (iconHeight m icon)) :
    DrawsImage s m icon posx posy ↔
      (∀ p ∈ imageRounds (iconWidth m icon) (iconHeight m icon),
        RoundFits (iconWidth m icon) posx posy p) ∧
      Shown s m (imagePicture m icon posx posy) ∧ ownStores m icon = m := by
  constructor
  · rintro ⟨m', hrun, hpaints⟩
    obtain ⟨hkept, hfits⟩ := imageRounds_run hrun
    obtain ⟨hshown, rfl⟩ := (paints_iff hkept _).mp hpaints
    refine ⟨hfits, hshown, ?_⟩
    rw [drawImage_run h hshown hfits] at hrun
    exact Option.some.inj hrun
  · rintro ⟨hfits, hshown, hstores⟩
    refine ⟨m, ?_, (paints_iff (fun _ _ => rfl) _).mpr ⟨hshown, rfl⟩⟩
    rw [drawImage_run h hshown hfits, hstores]

end Image

/-! ## Clear -/

section Clear

variable {s : Screen} {m : Mem} {c : Console} {color : BitVec 32}

/-- `Clear` returns, and every pixel has the colour. -/
def Clears (font : Font) (s : Screen) (c : Console) (m : Mem) (color : BitVec 32) : Prop :=
  ∃ c' m', clear font s c m color = some (c', m') ∧ Paints s m m' fun _ _ => some color

/-- A sequence that is not ended: its characters are collected, and nothing is drawn. -/
theorem unended_run (font : Font) {old : List Ev} {r : Reader} (h : Live old c r) {s : List Byte}
    (hs : ∀ ch ∈ s, ch ≠ escByte ∧ ch ≠ letterM)
    (hroom : (r.pending.getD []).length + s.length ≤ 255) :
    ∃ c', (escByte :: s).foldlM (putchar font) c = some c' ∧
      Live old c' { r with pending := some (r.pending.getD [] ++ s) } ∧ c'.screen = c.screen := by
  have hesc : r.step escByte = some { r with pending := some (r.pending.getD []) } := if_pos rfl
  obtain ⟨c₁, hput, h₁, hscreen₁⟩ := putchar_of_step font h hesc
  obtain ⟨c₂, hrun, h₂, hscreen₂⟩ := collect_run font h₁ rfl hs hroom
  refine ⟨c₂, ?_, h₂, hscreen₂.trans (hscreen₁ (Or.inl rfl))⟩
  rw [foldlM_cons_of hput]
  exact hrun

theorem clearText_plain : ∀ s ∈ [ascii "[2J ", ascii "[H"],
    ∀ ch ∈ s, ch ≠ escByte ∧ ch ≠ letterM := by
  decide

/-- With room for the six characters of its sequences `Clear` prints them, and nothing is drawn. -/
theorem clearText_returns (font : Font) {old : List Ev} {r : Reader} (h : Live old c r)
    (hroom : (r.pending.getD []).length ≤ 249) :
    ∃ c', clearText.foldlM (putchar font) c = some c' ∧ c'.screen = c.screen := by
  have hfirst : (ascii "[2J ").length = 4 := rfl
  have hsecond : (ascii "[H").length = 2 := rfl
  obtain ⟨c₁, hrun₁, h₁, hscreen₁⟩ := unended_run font h (clearText_plain _ (by simp))
    (show _ + (ascii "[2J ").length ≤ 255 by omega)
  obtain ⟨c₂, hrun₂, -, hscreen₂⟩ := unended_run font h₁ (clearText_plain _ (by simp))
    (show _ + (ascii "[H").length ≤ 255 by rw [Option.getD_some, List.length_append]; omega)
  exact ⟨c₂, (foldlM_append_of hrun₁ _).trans hrun₂, hscreen₂.trans hscreen₁⟩

/-- Without it the second sequence overflows at the latest. -/
theorem clearText_overflows (font : Font) {old : List Ev} {r : Reader} (h : Live old c r)
    (hroom : 249 < (r.pending.getD []).length) :
    clearText.foldlM (putchar font) c = none := by
  have hfirst : (ascii "[2J ").length = 4 := rfl
  have hsecond : (ascii "[H").length = 2 := rfl
  rw [rel_none_iff (run_live font h clearText), clearText, escape, escape, Reader.run_append,
    Reader.run_esc]
  by_cases hfull : 255 < (r.pending.getD []).length + (ascii "[2J ").length
  · rw [Reader.run_overflow rfl (clearText_plain _ (by simp)) (by decide) hfull]
    rfl
  · rw [Reader.run_collect rfl (clearText_plain _ (by simp)) (by omega), Option.bind_some,
      Reader.run_esc, Option.getD_some]
    refine Reader.run_overflow rfl (clearText_plain _ (by simp)) (by decide) ?_
    rw [List.length_append]
    omega

theorem clearText_run (font : Font) {old : List Ev} {r : Reader} (hshows : Shows old c r) :
    if c.writeFunc = .fbconWrite → c.escapeSequenceLength ≤ 249 then
      ∃ c', clearText.foldlM (putchar font) c = some c' ∧ c'.fbCon = c.fbCon
    else clearText.foldlM (putchar font) c = none := by
  cases hf : c.writeFunc with
  | comLogWrapper =>
    rw [if_pos nofun]
    obtain ⟨c', hrun, x, y, out, rfl⟩ := com_run font hf clearText
    exact ⟨_, hrun, rfl⟩
  | fbconWrite =>
    have hlive : Live old c r := ⟨hf, hshows⟩
    rw [hshows.length]
    by_cases hroom : (r.pending.getD []).length ≤ 249
    · rw [if_pos fun _ => hroom]
      obtain ⟨c', hrun, hscreen⟩ := clearText_returns font hlive hroom
      exact ⟨c', hrun, congrArg (fun q => q.2.2.1) hscreen⟩
    · rw [if_neg fun h => hroom (h rfl)]
      exact clearText_overflows font hlive (by omega)

theorem clearRounds_has (s : Screen) : ∀ p ∈ clearRounds s, s.Has p.1 p.2 := by
  intro p hp
  simp only [clearRounds, List.mem_flatMap, List.mem_map, List.mem_range] at hp
  obtain ⟨x, hx, y, hy, rfl⟩ := hp
  unfold Screen.Has
  rw [BitVec.lt_def, BitVec.lt_def, BitVec.toNat_ofNat, BitVec.toNat_ofNat]
  omega

theorem clearRounds_eq_nil_iff (s : Screen) :
    clearRounds s = [] ↔ s.width = 0 ∨ s.height = 0 := by
  rw [clearRounds, nested_eq_nil_iff, ← BitVec.toNat_inj, ← BitVec.toNat_inj]
  rfl

theorem flushed_eq {fb fb' : Framebuffer} (h : fb' = fb) : flushed s m fb fb' = m := by
  rw [h, flushed, List.drop_length]
  rfl

/-- `Clear` gives every pixel the colour exactly when its text fits into the parser, every pixel
    has it already, and there is no pixel or the colour, taken for an address, leads to zeros. -/
theorem clears_iff (font : Font) {old : List Ev} {r : Reader} (hshows : Shows old c r) :
    Clears font s c m color ↔ (c.writeFunc = .fbconWrite → c.escapeSequenceLength ≤ 249) ∧
      (Shown s m fun _ _ => some color) ∧
      ((s.width = 0 ∨ s.height = 0) ∨ m.loadLE color.toNat 4 = 0) := by
  have hprint := clearText_run font hshows
  unfold Clears clear
  by_cases hroom : c.writeFunc = .fbconWrite → c.escapeSequenceLength ≤ 249
  · rw [if_pos hroom] at hprint
    obtain ⟨c₁, hrun, hfb⟩ := hprint
    rw [hrun, and_iff_right hroom, Option.map_some, flushed_eq hfb]
    simp only [Option.some.injEq, Prod.mk.injEq, and_assoc, exists_eq_left',
      exists_and_left]
    rw [paints_iff (putPixels_above s m (clearRounds s) 0)]
    refine and_congr_right fun hshown => ?_
    have hpixels : ∀ p ∈ clearRounds s,
        s.Has p.1 p.2 ∧ m.loadLE (s.pixel p.1 p.2) 4 = color.toNat := by
      intro p hp
      have hhas := clearRounds_has s p hp
      exact ⟨hhas, hshown p.1 p.2 color hhas rfl⟩
    rw [putPixels_eq_iff hpixels, clearRounds_eq_nil_iff]
    rfl
  · rw [if_neg hroom] at hprint
    rw [hprint]
    exact iff_of_false (fun ⟨_, _, hnone, _⟩ => by cases hnone) fun hall => hroom hall.1

end Clear

/-! ## The three functions -/

/-- For every content of memory: a rectangle and an icon inside of the screen are drawn, and the
    screen is cleared to a colour, with nothing else changed, exactly when the screen shows the
    result already and the stores of the loops, which go to where the pixels lead when they are
    taken for addresses, change nothing. -/
theorem drawing_iff (font : Font) (s : Screen) (m : Mem) :
    (∀ startx starty width height color : BitVec 32,
      s.Holds startx.toInt starty.toInt width.toInt height.toInt →
      (DrawsRect s m startx starty width height color ↔
        (FitsInt (startx.toInt + width.toInt) ∧ FitsInt (starty.toInt + height.toInt)) ∧
          Shown s m (rectPicture startx starty width height color) ∧
          ((width.toInt ≤ 0 ∨ height.toInt ≤ 0) ∨ m.loadLE color.toNat 4 = color.toNat))) ∧
    (∀ (icon : Nat) (posx posy : BitVec 32),
      s.Holds posx.toInt posy.toInt (iconWidth m icon) (iconHeight m icon) →
      (DrawsImage s m icon posx posy ↔
        (∀ p ∈ imageRounds (iconWidth m icon) (iconHeight m icon),
          RoundFits (iconWidth m icon) posx posy p) ∧
          Shown s m (imagePicture m icon posx posy) ∧ ownStores m icon = m)) ∧
    ∀ (c : Console) (old : List Ev) (r : Reader) (color : BitVec 32), Shows old c r →
      (Clears font s c m color ↔
        (c.writeFunc = .fbconWrite → c.escapeSequenceLength ≤ 249) ∧
          (Shown s m fun _ _ => some color) ∧
          ((s.width = 0 ∨ s.height = 0) ∨ m.loadLE color.toNat 4 = 0)) :=
  ⟨fun _ _ _ _ _ h => drawsRect_iff h, fun _ _ _ h => drawsImage_iff h,
    fun _ _ _ _ hshows => clears_iff font hshows⟩

/-- Two pixels in the upper half. -/
def twoPixels : Screen := ⟨0xFFFF8000FD000000, 2, 1, by decide, by decide⟩

theorem twoPixels_has {x y : BitVec 32} (h : twoPixels.Has x y) : (x = 0 ∨ x = 1) ∧ y = 0 := by
  obtain ⟨hx, hy⟩ := h
  have hwidth : twoPixels.width = 2 := rfl
  have hheight : twoPixels.height = 1 := rfl
  rw [hwidth] at hx
  rw [hheight] at hy
  exact ⟨by bv_omega, by bv_omega⟩

/-- It is enough to look at the two pixels. -/
theorem twoPixels_shown {m : Mem} {p : Picture} {color : BitVec 32}
    (hpicture : p 0 0 = some color ∧ p 1 0 = some color)
    (hpixels : m.loadLE (twoPixels.pixel 0 0) 4 = color.toNat ∧
      m.loadLE (twoPixels.pixel 1 0) 4 = color.toNat) : Shown twoPixels m p := by
  intro x y color' hxy hp
  obtain ⟨rfl | rfl, rfl⟩ := twoPixels_has hxy
  · obtain rfl := Option.some.inj (hpicture.1.symm.trans hp)
    exact hpixels.1
  · obtain rfl := Option.some.inj (hpicture.2.symm.trans hp)
    exact hpixels.2

/-- Words, stored one after the other in memory of zeros. -/
def wordsMem (words : List (Nat × Nat)) : Mem :=
  words.foldl (fun m word => m.storeLE word.1 word.2 4) fun _ => 0

/-- Both pixels have the colour 0x2000, which is stored at the address 0x2000 too. At 0x3000 is an
    icon of two such pixels. -/
def paintedMem : Mem :=
  wordsMem [(twoPixels.ptr, 0x2000), (twoPixels.ptr + 4, 0x2000), (0x2000, 0x2000),
    (0x3000, 2), (0x3004, 1), (0x3008, 0x2000), (0x300c, 0x2000)]

/-- Both pixels have the colour 0x5000, and at the address 0x5000 are zeros. -/
def clearedMem : Mem := wordsMem [(twoPixels.ptr, 0x5000), (twoPixels.ptr + 4, 0x5000)]

/-- The two colours drawn again. -/
theorem drawing_again :
    DrawsRect twoPixels paintedMem 0 0 2 1 0x2000 ∧ DrawsImage twoPixels paintedMem 0x3000 0 0 ∧
      Clears letterFont twoPixels { bootConsole with writeFunc := .fbconWrite } clearedMem
        0x5000 := by
  have hpainted : paintedMem.loadLE (twoPixels.pixel 0 0) 4 = (0x2000 : BitVec 32).toNat ∧
      paintedMem.loadLE (twoPixels.pixel 1 0) 4 = (0x2000 : BitVec 32).toNat := by
    decide +kernel
  refine ⟨?_, ?_, ?_⟩
  · refine ((drawing_iff letterFont twoPixels paintedMem).1 0 0 2 1 0x2000
      (by unfold Screen.Holds; decide)).mpr ⟨by decide, ?_, Or.inr (by decide +kernel)⟩
    exact twoPixels_shown (by decide) hpainted
  · have hrounds : imageRounds (iconWidth paintedMem 0x3000) (iconHeight paintedMem 0x3000) =
        [(0, 0), (1, 0)] := by decide +kernel
    have hstore : ∀ p ∈ [(0, 0), (1, 0)], ownStore paintedMem 0x3000 paintedMem p = paintedMem :=
      fun p hp => Mem.storeLE_same _ (by revert p; decide +kernel)
    have hicon : imagePicture paintedMem 0x3000 0 0 0 0 = some 0x2000 ∧
        imagePicture paintedMem 0x3000 0 0 1 0 = some 0x2000 := by decide +kernel
    refine ((drawing_iff letterFont twoPixels paintedMem).2.1 0x3000 0 0
      (by unfold Screen.Holds; decide +kernel)).mpr ⟨?_, ?_, ?_⟩
    · rw [hrounds]
      decide +kernel
    · exact twoPixels_shown hicon hpainted
    · rw [ownStores, hrounds, List.foldl_cons, hstore (0, 0) (by decide), List.foldl_cons,
        hstore (1, 0) (by decide), List.foldl_nil]
  · refine ((drawing_iff letterFont twoPixels clearedMem).2.2 _ _ _ 0x5000
      (shows_of_ground ⟨rfl, rfl, rfl⟩)).mpr ⟨fun _ => by decide, ?_, Or.inr (by decide +kernel)⟩
    exact twoPixels_shown ⟨rfl, rfl⟩ (by decide +kernel)

/-- A pixel of the colour 1 is not set: the store goes to address 0. -/
theorem pixel_not_set :
    ¬∀ (font : Font) (s : Screen) (m : Mem),
      (∀ startx starty width height color : BitVec 32,
        s.Holds startx.toInt starty.toInt width.toInt height.toInt →
        DrawsRect s m startx starty width height color) ∧
      (∀ (icon : Nat) (posx posy : BitVec 32),
        s.Holds posx.toInt posy.toInt (iconWidth m icon) (iconHeight m icon) →
        DrawsImage s m icon posx posy) ∧
      ∀ (c : Console) (old : List Ev) (r : Reader) (color : BitVec 32), Shows old c r →
        Clears font s c m color := by
  intro h
  have hinside : twoPixels.Holds (0 : BitVec 32).toInt (0 : BitVec 32).toInt
      (1 : BitVec 32).toInt (1 : BitVec 32).toInt := by
    unfold Screen.Holds
    decide
  have hrect := (h (Vector.replicate 256 (Vector.replicate 16 0)) twoPixels fun _ => 0).1
    0 0 1 1 1 hinside
  obtain ⟨-, hshown, -⟩ := (drawsRect_iff hinside).mp hrect
  have hhas : twoPixels.Has 0 0 := by
    unfold Screen.Has
    decide
  have hpixel := hshown 0 0 1 hhas (by decide)
  rw [Mem.loadLE_zeros fun _ _ => rfl] at hpixel
  exact absurd hpixel (by decide)

end SeshOS.Video
