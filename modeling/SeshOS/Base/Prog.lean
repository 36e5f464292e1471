/-
  Programs that issue instructions to a world that also moves on its own.

  `Prog ι ρ α` is a program that returns an `α` or issues an instruction `i : ι` and goes on with
  the answer, of type `ρ i`. A `World` says how an instruction changes it and what it answers,
  and which steps it takes without being asked; both are relations, so a world may behave in
  many ways. `Reach` are the configurations of all interleavings.

  * `wp` and `wp_reach`: a program that is safe to run is safe wherever a run has got to.
  * `Triple` and its rules: sequence, repetition, a walk over a list. Every assertion between
    two instructions has to be `Stable`, since the world may move there.
  * `drive`: one run, for a world that answers by a function; `reach_ends`: a run to the end,
    for a program that has one.
  * `World.recorded`: the world with a record of what was issued and answered.
  * `Prog.answered`: the program alone, its `n`-th instruction answered by `a n`.
-/
import Mathlib

namespace Base

/-- `stuck` goes on no further and never returns. -/
inductive Prog (ι : Type) (ρ : ι → Type) (α : Type) where
  | ret (a : α)
  | op (i : ι) (k : ρ i → Prog ι ρ α)
  | stuck

namespace Prog

variable {ι : Type} {ρ : ι → Type} {α β : Type}

protected def bind : Prog ι ρ α → (α → Prog ι ρ β) → Prog ι ρ β
  | ret a, f => f a
  | op i k, f => op i fun x => (k x).bind f
  | stuck, _ => stuck

instance : Monad (Prog ι ρ) where
  pure := ret
  bind := Prog.bind

/-- Run `body` until it says it is done, at most `n` times. -/
def repeatUntil (body : Prog ι ρ Bool) : Nat → Prog ι ρ Unit
  | 0 => stuck
  | n + 1 => body >>= fun done => if done then ret () else repeatUntil body n

/-- Run the body for each element in turn. -/
def walk (body : β → Prog ι ρ Unit) : List β → Prog ι ρ Unit
  | [] => ret ()
  | b :: bs => body b >>= fun _ => walk body bs

/-- Every instruction the program may issue is `good`. -/
def Only (good : ι → Prop) : Prog ι ρ α → Prop
  | ret _ => True
  | op i k => good i ∧ ∀ x, (k x).Only good
  | stuck => True

theorem Only.mono {good good' : ι → Prop} {p : Prog ι ρ α} (h : ∀ i, good i → good' i)
    (hp : p.Only good) : p.Only good' := by
  induction p with
  | ret a => trivial
  | op i k ih => exact ⟨h i hp.1, fun x => ih x (hp.2 x)⟩
  | stuck => trivial

theorem Only.bind {good : ι → Prop} {p : Prog ι ρ α} {f : α → Prog ι ρ β} (hp : p.Only good)
    (hf : ∀ a, (f a).Only good) : (p >>= f).Only good := by
  induction p with
  | ret a => exact hf a
  | op i k ih => exact ⟨hp.1, fun x => ih x (hp.2 x)⟩
  | stuck => trivial

theorem Only.repeatUntil {good : ι → Prop} {body : Prog ι ρ Bool} (h : body.Only good) (n : Nat) :
    (Prog.repeatUntil body n).Only good := by
  induction n with
  | zero => trivial
  | succ n ih =>
    refine h.bind fun done => ?_
    cases done with
    | true => trivial
    | false => exact ih

/-- The program returns, whatever it is answered. -/
def Ends : Prog ι ρ α → Prop
  | ret _ => True
  | op _ k => ∀ x, (k x).Ends
  | stuck => False

theorem Ends.bind {p : Prog ι ρ α} {f : α → Prog ι ρ β} (hp : p.Ends) (hf : ∀ a, (f a).Ends) :
    (p >>= f).Ends := by
  induction p with
  | ret a => exact hf a
  | op i k ih => exact fun x => ih x (hp x)
  | stuck => exact hp.elim

theorem Ends.walk {body : β → Prog ι ρ Unit} (h : ∀ b, (body b).Ends) (bs : List β) :
    (Prog.walk body bs).Ends := by
  induction bs with
  | nil => trivial
  | cons b bs ih => exact (h b).bind fun _ => ih

end Prog

/-- What the instructions meet. -/
structure World (ι : Type) (ρ : ι → Type) (W : Type) where
  exec : (i : ι) → W → ρ i → W → Prop
  tick : W → W → Prop

variable {ι : Type} {ρ : ι → Type} {W α β : Type} (D : World ι ρ W)

/-- One step of a run: the program's next instruction, or a step of the world. -/
inductive Step : Prog ι ρ α × W → Prog ι ρ α × W → Prop
  | issue {i : ι} {k : ρ i → Prog ι ρ α} {w : W} {x : ρ i} {w' : W} (h : D.exec i w x w') :
      Step (.op i k, w) (k x, w')
  | tick {p : Prog ι ρ α} {w w' : W} (h : D.tick w w') : Step (p, w) (p, w')

/-- The configurations a run can get to. -/
abbrev Reach : Prog ι ρ α × W → Prog ι ρ α × W → Prop := Relation.ReflTransGen (Step D)

/-- The world left alone. -/
abbrev Idle : W → W → Prop := Relation.ReflTransGen D.tick

/-- The world on its own keeps `P`. -/
def Stable (P : W → Prop) : Prop := ∀ w w', P w → D.tick w w' → P w'

variable {D}

theorem Stable.idle {P : W → Prop} (h : Stable D P) {w w' : W} (hw : P w) (hi : Idle D w w') :
    P w' := by
  induction hi with
  | refl => exact hw
  | tail _ hstep ih => exact h _ _ ih hstep

theorem stable_const (P : Prop) : Stable D fun _ => P := fun _ _ h _ => h

theorem Stable.and {P Q : W → Prop} (hP : Stable D P) (hQ : Stable D Q) :
    Stable D fun w => P w ∧ Q w :=
  fun w w' h ht => ⟨hP w w' h.1 ht, hQ w w' h.2 ht⟩

/-! ## Safe programs -/

variable (D) (ok : ι → W → Prop)

/-- Run from `w`, `p` issues its instructions in worlds where they are `ok`, and `Q` holds of
    what it returns and of the world from then on. -/
def wp : Prog ι ρ α → (α → W → Prop) → W → Prop
  | .ret a, Q, w => ∀ w', Idle D w w' → Q a w'
  | .op i k, Q, w => ∀ w', Idle D w w' →
      ok i w' ∧ ∀ x w'', D.exec i w' x w'' → wp (k x) Q w''
  | .stuck, _, _ => True

variable {D ok}

theorem wp_idle {p : Prog ι ρ α} {Q : α → W → Prop} {w w' : W} (h : wp D ok p Q w)
    (hi : Idle D w w') : wp D ok p Q w' := by
  cases p with
  | ret a => exact fun v hv => h v (hi.trans hv)
  | op i k => exact fun v hv => h v (hi.trans hv)
  | stuck => trivial

theorem wp_step {c c' : Prog ι ρ α × W} {Q : α → W → Prop} (h : wp D ok c.1 Q c.2)
    (hs : Step D c c') : wp D ok c'.1 Q c'.2 := by
  cases hs with
  | issue hexec => exact (h _ Relation.ReflTransGen.refl).2 _ _ hexec
  | tick ht => exact wp_idle h (Relation.ReflTransGen.single ht)

/-- Safety holds wherever a run has got to. -/
theorem wp_reach {c c' : Prog ι ρ α × W} {Q : α → W → Prop} (h : wp D ok c.1 Q c.2)
    (hr : Reach D c c') : wp D ok c'.1 Q c'.2 := by
  induction hr with
  | refl => exact h
  | tail _ hs ih => exact wp_step ih hs

/-- An instruction about to be issued is `ok`. -/
theorem wp_ok {i : ι} {k : ρ i → Prog ι ρ α} {Q : α → W → Prop} {w : W}
    (h : wp D ok (.op i k) Q w) : ok i w :=
  (h w Relation.ReflTransGen.refl).1

theorem wp_ret {a : α} {Q : α → W → Prop} {w : W} (h : wp D ok (.ret a) Q w) : Q a w :=
  h w Relation.ReflTransGen.refl

theorem wp_bind {p : Prog ι ρ α} {f : α → Prog ι ρ β} {Q : β → W → Prop} {w : W}
    (h : wp D ok p (fun a w' => wp D ok (f a) Q w') w) : wp D ok (p >>= f) Q w := by
  induction p generalizing w with
  | ret a => exact h w Relation.ReflTransGen.refl
  | op i k ih => exact fun w' hi => ⟨(h w' hi).1, fun x w'' hx => ih x ((h w' hi).2 x w'' hx)⟩
  | stuck => trivial

theorem wp_mono {p : Prog ι ρ α} {Q Q' : α → W → Prop} {w : W} (hQ : ∀ a w, Q a w → Q' a w)
    (h : wp D ok p Q w) : wp D ok p Q' w := by
  induction p generalizing w with
  | ret a => exact fun w' hi => hQ a w' (h w' hi)
  | op i k ih => exact fun w' hi => ⟨(h w' hi).1, fun x w'' hx => ih x ((h w' hi).2 x w'' hx)⟩
  | stuck => trivial

/-- A program whose instructions are `ok` everywhere. -/
theorem wp_of_only {p : Prog ι ρ α} (hp : p.Only fun i => ∀ w, ok i w) (w : W) :
    wp D ok p (fun _ _ => True) w := by
  induction p generalizing w with
  | ret a => exact fun _ _ => trivial
  | op i k ih => exact fun w' _ => ⟨hp.1 w', fun x w'' _ => ih x (hp.2 x) w''⟩
  | stuck => trivial

/-! ## Triples -/

variable (D ok)

/-- From every world with `P`, `p` is safe and ends with `Q`. -/
def Triple (P : W → Prop) (p : Prog ι ρ α) (Q : α → W → Prop) : Prop :=
  ∀ w, P w → wp D ok p Q w

variable {D ok} {P : W → Prop}

theorem triple_ret {a : α} {Q : α → W → Prop} (hQ : Stable D (Q a)) (h : ∀ w, P w → Q a w) :
    Triple D ok P (.ret a) Q :=
  fun w hw _ hi => hQ.idle (h w hw) hi

theorem triple_op {i : ι} {k : ρ i → Prog ι ρ α} {Q : α → W → Prop} (hP : Stable D P)
    (hok : ∀ w, P w → ok i w)
    (h : ∀ w x w', P w → D.exec i w x w' → wp D ok (k x) Q w') :
    Triple D ok P (.op i k) Q :=
  fun _ hw w' hi => ⟨hok w' (hP.idle hw hi), fun x w'' hx => h w' x w'' (hP.idle hw hi) hx⟩

/-- One instruction. -/
theorem triple_issue {i : ι} {Q : ρ i → W → Prop} (hP : Stable D P) (hQ : ∀ x, Stable D (Q x))
    (hok : ∀ w, P w → ok i w) (h : ∀ w x w', P w → D.exec i w x w' → Q x w') :
    Triple D ok P (.op i .ret) Q :=
  triple_op hP hok fun w x w' hw hx => triple_ret (hQ x) (fun _ hw' => hw') w' (h w x w' hw hx)

theorem triple_bind {p : Prog ι ρ α} {f : α → Prog ι ρ β} {R : α → W → Prop}
    {Q : β → W → Prop} (hp : Triple D ok P p R) (hf : ∀ a, Triple D ok (R a) (f a) Q) :
    Triple D ok P (p >>= f) Q :=
  fun w hw => wp_bind (wp_mono hf (hp w hw))

theorem triple_weaken {p : Prog ι ρ α} {R : W → Prop} {Q Q' : α → W → Prop}
    (h : Triple D ok R p Q') (hP : ∀ w, P w → R w) (hQ : ∀ a w, Q' a w → Q a w) :
    Triple D ok P p Q :=
  fun w hw => wp_mono hQ (h w (hP w hw))

/-- An assertion about no world is a hypothesis. -/
theorem triple_fact {p : Prog ι ρ α} {F : Prop} {Q : α → W → Prop}
    (h : F → Triple D ok P p Q) : Triple D ok (fun w => P w ∧ F) p Q :=
  fun w hw => h hw.2 w hw.1

/-- A program keeps what each of its instructions keeps. -/
theorem triple_only {p : Prog ι ρ α} {good : ι → Prop} (hp : p.Only good) (hP : Stable D P)
    (hok : ∀ i w, good i → P w → ok i w)
    (h : ∀ i w x w', good i → P w → D.exec i w x w' → P w') :
    Triple D ok P p fun _ => P := by
  induction p with
  | ret a => exact triple_ret hP fun _ hw => hw
  | op i k ih =>
    exact triple_op hP (fun w hw => hok i w hp.1 hw)
      fun w x w' hw hx => ih x (hp.2 x) w' (h i w x w' hp.1 hw hx)
  | stuck => exact fun _ _ => trivial

/-- A repeated body keeps `P` while it is not done, and reaches `Q` when it is. -/
theorem triple_repeatUntil {body : Prog ι ρ Bool} {Q : W → Prop} (hQ : Stable D Q)
    (h : Triple D ok P body fun done w => if done then Q w else P w) (n : Nat) :
    Triple D ok P (.repeatUntil body n) fun _ => Q := by
  induction n with
  | zero => exact fun w hw => trivial
  | succ n ih =>
    refine triple_bind h fun done => ?_
    cases done with
    | true => exact triple_ret hQ fun _ hw => hw
    | false => exact ih

/-- A walk keeps what every round keeps. -/
theorem triple_walk {body : β → Prog ι ρ Unit} (hP : Stable D P) {bs : List β}
    (h : ∀ b ∈ bs, Triple D ok P (body b) fun _ => P) :
    Triple D ok P (.walk body bs) fun _ => P := by
  induction bs with
  | nil => exact triple_ret hP fun _ hw => hw
  | cons b bs ih =>
    exact triple_bind (h b List.mem_cons_self) fun _ =>
      ih fun b' hb' => h b' (List.mem_cons_of_mem b hb')

/-- A walk over `0, …, n - 1`, with an assertion for each round. -/
theorem triple_walk_range {body : Nat → Prog ι ρ Unit} {P : Nat → W → Prop} {n : Nat}
    (hP : Stable D (P n)) (h : ∀ i < n, Triple D ok (P i) (body i) fun _ => P (i + 1)) :
    Triple D ok (P 0) (.walk body (List.range n)) fun _ => P n := by
  have hfrom : ∀ k a, a + k = n →
      Triple D ok (P a) (.walk body (List.range' a k)) fun _ => P n := by
    intro k
    induction k with
    | zero =>
      rintro a rfl
      exact triple_ret hP fun _ hw => hw
    | succ k ih =>
      intro a ha
      rw [List.range'_succ]
      exact triple_bind (h a (by omega)) fun _ => ih (a + 1) (by omega)
  rw [List.range_eq_range']
  exact hfrom n 0 (Nat.zero_add n)

/-! ## One run -/

/-- `n` instructions of a run, answered by `host`. -/
def drive (host : (i : ι) → W → ρ i × W) : Nat → Prog ι ρ α × W → Prog ι ρ α × W
  | n + 1, (.op i k, w) => drive host n (k (host i w).1, (host i w).2)
  | _, c => c

theorem reach_idle {p : Prog ι ρ α} {w w' : W} (h : Idle D w w') : Reach D (p, w) (p, w') := by
  induction h with
  | refl => exact Relation.ReflTransGen.refl
  | tail _ ht ih => exact ih.tail (Step.tick ht)

theorem step_bind {p p' : Prog ι ρ α} {w w' : W} (f : α → Prog ι ρ β)
    (h : Step D (p, w) (p', w')) : Step D (p >>= f, w) (p' >>= f, w') := by
  cases h with
  | issue hexec => exact Step.issue hexec
  | tick ht => exact Step.tick ht

/-- What the first of two programs can get to, the two in sequence can. -/
theorem reach_bind {p : Prog ι ρ α} {w : W} {c : Prog ι ρ α × W} (f : α → Prog ι ρ β)
    (h : Reach D (p, w) c) : Reach D (p >>= f, w) (c.1 >>= f, c.2) := by
  induction h with
  | refl => exact Relation.ReflTransGen.refl
  | tail _ hs ih => exact ih.tail (step_bind f hs)

/-- When the first returns, the second goes on. -/
theorem reach_return {p : Prog ι ρ α} {w w' : W} {a : α} (f : α → Prog ι ρ β)
    (h : Reach D (p, w) (.ret a, w')) : Reach D (p >>= f, w) (f a, w') :=
  reach_bind f h

/-- The host may let the world move before it answers. -/
theorem reach_drive {host : (i : ι) → W → ρ i × W}
    (h : ∀ i w, ∃ v, Idle D w v ∧ D.exec i v (host i w).1 (host i w).2) (n : Nat)
    (c : Prog ι ρ α × W) : Reach D c (drive host n c) := by
  induction n generalizing c with
  | zero => exact Relation.ReflTransGen.refl
  | succ n ih =>
    obtain ⟨p, w⟩ := c
    cases p with
    | ret a => exact Relation.ReflTransGen.refl
    | op i k =>
      obtain ⟨v, hv, hexec⟩ := h i w
      exact ((reach_idle hv).tail (Step.issue hexec)).trans (ih _)
    | stuck => exact Relation.ReflTransGen.refl

/-- Where every instruction has an answer that keeps `P`, a program that ends has a run to its
    end. -/
theorem reach_ends_keeps {p : Prog ι ρ α} (hp : p.Ends) {P : W → Prop}
    (h : ∀ i w, P w → ∃ x w', D.exec i w x w' ∧ P w') {w : W} (hw : P w) :
    ∃ a w', Reach D (p, w) (.ret a, w') ∧ P w' := by
  induction p generalizing w with
  | ret a => exact ⟨a, w, Relation.ReflTransGen.refl, hw⟩
  | op i k ih =>
    obtain ⟨x, v, hx, hv⟩ := h i w hw
    obtain ⟨a, w', hr, hw'⟩ := ih x (hp x) hv
    exact ⟨a, w', Relation.ReflTransGen.head (Step.issue hx) hr, hw'⟩
  | stuck => exact hp.elim

theorem reach_ends {p : Prog ι ρ α} (hp : p.Ends) (h : ∀ i w, ∃ x w', D.exec i w x w') (w : W) :
    ∃ a w', Reach D (p, w) (.ret a, w') := by
  obtain ⟨a, w', hr, -⟩ := reach_ends_keeps hp (P := fun _ => True) (D := D)
    (fun i w _ => by obtain ⟨x, w', hx⟩ := h i w; exact ⟨x, w', hx, trivial⟩) (w := w) trivial
  exact ⟨a, w', hr⟩

/-! ## A record of the run -/

/-- An instruction that was issued, with its answer. -/
abbrev Event (ι : Type) (ρ : ι → Type) := (i : ι) × ρ i

variable (D)

/-- `D`, with what has been issued so far. -/
def World.recorded : World ι ρ (W × List (Event ι ρ)) where
  exec i s x s' := D.exec i s.1 x s'.1 ∧ s'.2 = s.2 ++ [⟨i, x⟩]
  tick s s' := D.tick s.1 s'.1 ∧ s'.2 = s.2

variable {D}

/-- The world on its own leaves the record. -/
theorem stable_record (P : List (Event ι ρ) → Prop) : Stable D.recorded fun s => P s.2 :=
  fun _ _ hs ht => (congrArg P ht.2).mpr hs

/-- Every run has a record. -/
theorem reach_recorded {c c' : Prog ι ρ α × W} (h : Reach D c c') (es : List (Event ι ρ)) :
    ∃ es', Reach D.recorded (c.1, (c.2, es)) (c'.1, (c'.2, es ++ es')) := by
  induction h with
  | refl => exact ⟨[], by rw [List.append_nil]⟩
  | tail _ hs ih =>
    obtain ⟨es', hr⟩ := ih
    cases hs with
    | @issue i k w x w' hexec =>
      refine ⟨es' ++ [⟨i, x⟩], hr.tail (Step.issue ⟨hexec, ?_⟩)⟩
      rw [List.append_assoc]
    | tick ht => exact ⟨es', hr.tail (Step.tick ⟨ht, rfl⟩)⟩

/-! ## Answers in advance -/

/-- What the program returns, and after how many instructions, when its `n`-th instruction is
    answered by `a n`; `none` when it gets stuck. -/
def Prog.answered (a : Nat → (i : ι) → ρ i) : Prog ι ρ α → Nat → Option (α × Nat)
  | .ret x, n => some (x, n)
  | .op i k, n => (k (a n i)).answered a (n + 1)
  | .stuck, _ => none

end Base
