/-
  Escape sequences and text through `putchar`.

  `putchar` hands `FBCON_Write` the cursor and the attributes, so its runs are runs of the
  reader too. Inside of a sequence the screen does not change (`csi_run`); behind complete
  sequences and text without ESC the parser is in its ground state again (`Complete`).
-/
import SeshOS.Video.Putchar
import SeshOS.Video.Refinement

namespace SeshOS.Video

open Base Libc

/-! ## The reader behind putchar -/

/-- The console shows what the reader keeps, and `putchar` goes to it. -/
structure Live (old : List Ev) (c : Console) (r : Reader) : Prop where
  writeFunc : c.writeFunc = .fbconWrite
  shows : Shows old c r

theorem live_of_ground {c : Console} (hf : c.writeFunc = .fbconWrite) (hc : c.Ground) :
    Live c.trace c ⟨none, c.attrs, []⟩ := ⟨hf, shows_of_ground hc⟩

theorem putchar_live (font : Font) {old : List Ev} {c : Console} {r : Reader} (h : Live old c r)
    (ch : Byte) : Option.Rel (Live old) (putchar font c ch) (r.step ch) := by
  have hrel := fbconWrite_refines font h.shows (c.write ch)
  rw [← putchar_fbcon font h.writeFunc] at hrel
  have hsame : (c.write ch).ch = ch := rfl
  rw [hsame] at hrel
  cases hput : putchar font c ch with
  | none =>
    rw [(rel_none_iff hrel).mp hput]
    exact Option.Rel.none
  | some c' =>
    have hf : c'.writeFunc = c.writeFunc := congrArg (fun f => f.2.2) (putchar_frame h.writeFunc hput)
    rw [hput] at hrel
    obtain ⟨r', hr, hshows⟩ := rel_some_left hrel
    rw [hr]
    exact Option.Rel.some ⟨hf.trans h.writeFunc, hshows⟩

/-- One character, with the screen as it was inside of a sequence. -/
theorem putchar_of_step (font : Font) {old : List Ev} {c : Console} {r r' : Reader}
    (h : Live old c r) {ch : Byte} (hr : r.step ch = some r') :
    ∃ c', putchar font c ch = some c' ∧ Live old c' r' ∧
      (ch = escByte ∨ r.pending.isSome → c'.screen = c.screen) := by
  have hrel := putchar_live font h ch
  rw [hr] at hrel
  obtain ⟨c', hput, h'⟩ := rel_some_right hrel
  refine ⟨c', hput, h', fun hseq => ?_⟩
  rw [← h.shows.esc] at hseq
  exact (putchar_sequence h.writeFunc hseq hput).1

theorem run_live (font : Font) {old : List Ev} {c : Console} {r : Reader} (h : Live old c r)
    (chs : List Byte) : Option.Rel (Live old) (chs.foldlM (putchar font) c) (r.run chs) := by
  have hrel := foldlM_rel (Live old) id (fun _ _ ch h => putchar_live font h ch) chs h
  rwa [List.map_id] at hrel

/-- Where the reader gets, `putchar` gets. -/
theorem run_of_reader (font : Font) {old : List Ev} {c : Console} {r r' : Reader}
    (h : Live old c r) {chs : List Byte} (hr : r.run chs = some r') :
    ∃ c', chs.foldlM (putchar font) c = some c' ∧ Live old c' r' := by
  have hrel := run_live font h chs
  rw [hr] at hrel
  exact rel_some_right hrel

/-! ## Inside of a sequence -/

/-- Collected bytes leave the screen alone. -/
theorem collect_run (font : Font) {old : List Ev} {c : Console} {r : Reader} (h : Live old c r)
    {l : List Byte} (hl : r.pending = some l) {chs : List Byte}
    (hchs : ∀ ch ∈ chs, ch ≠ escByte ∧ ch ≠ letterM) (hroom : l.length + chs.length ≤ 255) :
    ∃ c', chs.foldlM (putchar font) c = some c' ∧
      Live old c' { r with pending := some (l ++ chs) } ∧ c'.screen = c.screen := by
  induction chs generalizing c r l with
  | nil =>
    refine ⟨c, rfl, ?_, rfl⟩
    rw [List.append_nil, ← hl]
    exact h
  | cons ch chs ih =>
    rw [List.length_cons] at hroom
    obtain ⟨c₁, hput, h₁, hscreen⟩ := putchar_of_step font h
      (Reader.step_collect hl (hchs ch List.mem_cons_self) (by omega))
    obtain ⟨c', hrun, h', hscreen'⟩ := ih h₁ (l := l ++ [ch]) rfl
      (fun b hb => hchs b (List.mem_cons_of_mem _ hb)) (by simp; omega)
    refine ⟨c', ?_, ?_, hscreen'.trans (hscreen (.inr (by rw [hl]; rfl)))⟩
    · rw [List.foldlM_cons, hput]
      exact hrun
    · rw [List.append_cons]
      exact h'

/-- A whole sequence sets the attributes and leaves the screen alone. -/
theorem sgr_run (font : Font) {c : Console} (hf : c.writeFunc = .fbconWrite) (hc : c.Ground)
    {params : List Byte} (hp : Params params) :
    ∃ c', (sgrBytes params).foldlM (putchar font) c = some c' ∧ c'.writeFunc = .fbconWrite ∧
      c'.Ground ∧ c'.attrs = sgrEffect params c.attrs ∧ c'.screen = c.screen := by
  have hroom := hp.room
  obtain ⟨c₁, hput₁, h₁, hscreen₁⟩ := putchar_of_step font (live_of_ground hf hc)
    (Reader.step_esc c.attrs)
  obtain ⟨c₂, hrun₂, h₂, hscreen₂⟩ := collect_run font h₁ rfl hp.collected.1
    (by rw [List.length_cons, List.length_nil]; omega)
  obtain ⟨c₃, hput₃, h₃, hscreen₃⟩ := putchar_of_step font h₂ (Reader.step_sgr hp rfl)
  refine ⟨c₃, ?_, h₃.writeFunc, ground_of_shows h₃.shows rfl, h₃.shows.attrs, ?_⟩
  · have hrest : (bracket :: params ++ [letterM]).foldlM (putchar font) c₁ = some c₃ :=
      foldlM_concat_of hrun₂ hput₃
    rw [sgrBytes, foldlM_cons_of hput₁]
    exact hrest
  · exact (hscreen₃ (.inr rfl)).trans (hscreen₂.trans (hscreen₁ (.inl rfl)))

/-! ## Back in the ground state -/

/-- From the ground state the bytes lead back to it, and do `f` to the attributes. -/
def Complete (s : List Byte) (f : Attrs → Attrs) : Prop :=
  ∀ a t, ∃ text, Reader.run ⟨none, a, t⟩ s = some ⟨none, f a, t ++ text⟩

theorem Complete.append {s t : List Byte} {f g : Attrs → Attrs} (hs : Complete s f)
    (ht : Complete t g) : Complete (s ++ t) (g ∘ f) := by
  intro a t₀
  obtain ⟨text, hrun⟩ := hs a t₀
  obtain ⟨text', hrun'⟩ := ht (f a) (t₀ ++ text)
  refine ⟨text ++ text', ?_⟩
  rw [Reader.run_append, hrun, Option.bind_some, hrun', List.append_assoc]
  rfl

theorem complete_sgr {params : List Byte} (hp : Params params) :
    Complete (sgrBytes params) (sgrEffect params) := by
  intro a t
  refine ⟨[], ?_⟩
  rw [Reader.run_sgr rfl hp, List.append_nil]

/-- Text without ESC. -/
theorem complete_text {s : List Byte} (h : escByte ∉ s) : Complete s id := by
  intro a t
  induction s generalizing t with
  | nil => exact ⟨[], by rw [List.append_nil]; rfl⟩
  | cons ch s ih =>
    have hch : ch ≠ escByte := (List.ne_of_not_mem_cons h).symm
    have hstep : Reader.step ⟨none, a, t⟩ ch = some ⟨none, a, t ++ [ch]⟩ := if_neg hch
    obtain ⟨text, hrun⟩ := ih (List.not_mem_of_not_mem_cons h) (t ++ [ch])
    refine ⟨ch :: text, ?_⟩
    rw [Reader.run_cons, hstep, Option.bind_some, hrun, List.append_assoc, List.singleton_append]

/-- Complete bytes through `putchar`. -/
theorem complete_run (font : Font) {c : Console} (hf : c.writeFunc = .fbconWrite) (hc : c.Ground)
    {s : List Byte} {f : Attrs → Attrs} (hs : Complete s f) :
    ∃ c', s.foldlM (putchar font) c = some c' ∧ c'.writeFunc = .fbconWrite ∧ c'.Ground ∧
      c'.attrs = f c.attrs ∧ ∃ evs, c'.trace = c.trace ++ evs := by
  obtain ⟨text, hrun⟩ := hs c.attrs []
  obtain ⟨c', hput, h'⟩ := run_of_reader font (live_of_ground hf hc) hrun
  obtain ⟨evs, ht, -, -⟩ := h'.shows.trace
  exact ⟨c', hput, h'.writeFunc, ground_of_shows h'.shows rfl, h'.shows.attrs, evs, ht⟩

end SeshOS.Video
