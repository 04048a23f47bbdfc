import Mathlib.Logic.Function.Iterate
import Mathlib.Order.Nat

/-!
# What can be recorded of a run

A behaviour is the set of records that an observer can have made so far, at any time; the
empty record, which says nothing, is left out. A machine says what can be recorded from each of
its places, given what can be recorded from the places it goes to. What a machine does and what
a structured program does are the same if each is compared with the other by the same laws: in one
direction for the runs with at most so many steps, in the other for all of them. A `Comparison`
has the laws of both, so that one proof by them is enough.
-/

namespace LuaFltk.Lib

variable {E P : Type}

/-- The records that can have been made. -/
abbrev Behaviour (E : Type) := List E → Prop

namespace Behaviour

/-- Nothing is recorded. -/
def stop : Behaviour E := fun _ => False

/-- An event, and then the behaviour `B`. -/
def emit (e : E) (B : Behaviour E) : Behaviour E :=
  fun record => ∃ rest, record = e :: rest ∧ (rest = [] ∨ B rest)

/-- One behaviour or the other. -/
def either (A B : Behaviour E) : Behaviour E := fun record => A record ∨ B record

/-- A loop, which `F` runs once before it runs again. -/
def loop (F : Behaviour E → Behaviour E) : Behaviour E := fun record => ∃ n, F^[n] stop record

/-- `A` records no more than `B`. -/
def Within (A B : Behaviour E) : Prop := ∀ record, A record → B record

theorem Within.refl (A : Behaviour E) : Within A A := fun _ h => h

theorem Within.trans {A B C : Behaviour E} (h : Within A B) (h' : Within B C) : Within A C :=
  fun record hA => h' record (h record hA)

theorem Within.emit {A B : Behaviour E} (e : E) (h : Within A B) :
    Within (emit e A) (Behaviour.emit e B) := by
  rintro record ⟨rest, rfl, hrest⟩
  exact ⟨rest, rfl, hrest.imp_right (h rest)⟩

theorem Within.either {A A' B B' : Behaviour E} (h : Within A B) (h' : Within A' B') :
    Within (either A A') (Behaviour.either B B') :=
  fun record hrecord => hrecord.imp (h record) (h' record)

/-- What follows an event is done within some number of steps. -/
theorem emit_exists (e : E) (X : Nat → Behaviour E) :
    Within (emit e fun record => ∃ n, X n record) fun record => ∃ n, emit e (X n) record := by
  rintro record ⟨rest, rfl, rfl | ⟨n, hn⟩⟩
  · exact ⟨0, [], rfl, .inl rfl⟩
  · exact ⟨n, rest, rfl, .inr hn⟩

/-- So is what a choice leads to. -/
theorem either_exists {A B : Behaviour E} {X Y : Nat → Behaviour E}
    (hA : Within A fun record => ∃ n, X n record) (hB : Within B fun record => ∃ n, Y n record) :
    Within (either A B) fun record => ∃ n, either (X n) (Y n) record := by
  rintro record (h | h)
  · exact (hA record h).imp fun _ => .inl
  · exact (hB record h).imp fun _ => .inr

/-- Finitely many turns are part of the loop. -/
theorem within_loop (F : Behaviour E → Behaviour E) (n : Nat) : Within (F^[n] stop) (loop F) :=
  fun _ h => ⟨n, h⟩

end Behaviour

open Behaviour

/-! ## Machines -/

/-- What is recorded from each place, given what is recorded from the places behind it. -/
abbrev Machine (P E : Type) := (P → Behaviour E) → P → Behaviour E

/-- What can be recorded from a place within `n` steps. -/
def upTo (M : Machine P E) : Nat → P → Behaviour E
  | 0 => fun _ => stop
  | n + 1 => M (upTo M n)

/-- What can be recorded from a place. -/
def does (M : Machine P E) (p : P) : Behaviour E := fun record => ∃ n, upTo M n p record

/-- Finitely many steps are part of the run. -/
theorem within_does (M : Machine P E) (n : Nat) (p : P) : Within (upTo M n p) (does M p) :=
  fun _ h => ⟨n, h⟩

/-- A record of a machine needs one record of one place behind. -/
structure Sequential (M : Machine P E) : Prop where
  mono : ∀ {X Y : P → Behaviour E}, (∀ p, Within (X p) (Y p)) → ∀ p, Within (M X p) (M Y p)
  cont : ∀ (X : Nat → P → Behaviour E) (p : P),
    Within (M (fun q record => ∃ n, X n q record) p) fun record => ∃ n, M (X n) p record

section sequential

variable {M : Machine P E}

/-- More steps do more. -/
theorem Sequential.upTo_succ (h : Sequential M) (n : Nat) (p : P) :
    Within (upTo M n p) (upTo M (n + 1) p) := by
  induction n generalizing p with
  | zero => exact fun _ hrecord => hrecord.elim
  | succ n ih => exact h.mono ih p

theorem Sequential.upTo_mono (h : Sequential M) {m n : Nat} (hle : m ≤ n) (p : P) :
    Within (upTo M m p) (upTo M n p) := by
  induction hle with
  | refl => exact .refl _
  | step _ ih => exact ih.trans (h.upTo_succ _ p)

/-- What a machine does is what one step gives of it. -/
theorem Sequential.does_iff (h : Sequential M) (p : P) (record : List E) :
    does M p record ↔ M (does M) p record := by
  constructor
  · rintro ⟨n, hn⟩
    have hstep : Within (upTo M n p) (M (upTo M n) p) := h.upTo_succ n p
    exact h.mono (fun q => within_does M n q) p record (hstep record hn)
  · intro hrecord
    obtain ⟨n, hn⟩ := h.cont (upTo M) p record hrecord
    exact ⟨n + 1, hn⟩

end sequential

/-! ## Comparisons -/

/-- A way to compare what a machine does with other behaviours, step by step. `here n` is what
it does from a place at the level `n`, and one step later the level is `back n`. -/
structure Comparison (M : Machine P E) where
  R : Behaviour E → Behaviour E → Prop
  Level : Type
  order : Preorder Level
  back : Level → Level
  here : Level → P → Behaviour E
  refl : ∀ A, R A A
  trans : ∀ {A B C}, R A B → R B C → R A C
  emit : ∀ (e : E) {A B}, R A B → R (Behaviour.emit e A) (Behaviour.emit e B)
  either : ∀ {A A' B B'}, R A B → R A' B' → R (Behaviour.either A A') (Behaviour.either B B')
  step : ∀ n p, R (here n p) (M (here (back n)) p)
  /-- A step that only goes on adds nothing. -/
  thread : ∀ n p q, (∀ X, M X p = X q) → R (here (back n) q) (here n p)
  back_le : ∀ n, back n ≤ n
  back_mono : ∀ {m n}, m ≤ n → back m ≤ back n
  later : ∀ {m n} p, m ≤ n → R (here m p) (here n p)
  /-- What comes back to `p` as anything and from there does `F` of it does `F` again and
  again. -/
  loop : ∀ {F p n}, (∀ m A, m ≤ n → R (here (back m) p) A → R (here m p) (F A)) →
    R (here n p) (Behaviour.loop F)

namespace Comparison

variable {M : Machine P E}

instance (C : Comparison M) : Preorder C.Level := C.order

theorem older (C : Comparison M) (n : C.Level) (p : P) : C.R (C.here (C.back n) p) (C.here n p) :=
  C.later p (C.back_le n)

/-- The runs with at most so many steps, from below. -/
def atMost (h : Sequential M) : Comparison M where
  R := Within
  Level := Nat
  order := inferInstance
  back := Nat.pred
  here := upTo M
  refl := .refl
  trans := .trans
  emit := fun e => .emit e
  either := .either
  step
    | 0, _ => fun _ hrecord => hrecord.elim
    | _ + 1, p => .refl _
  thread
    | 0, _, _, _ => fun _ hrecord => hrecord.elim
    | n + 1, p, q, hpq => by
      have heq : upTo M (n + 1) p = upTo M n q := hpq (upTo M n)
      rw [heq]
      exact .refl _
  back_le := Nat.pred_le
  back_mono := Nat.pred_le_pred
  later p hle := h.upTo_mono hle p
  loop {F p n} hF := by
    have hall : ∀ m ≤ n, Within (upTo M m p) (F^[m] stop) := by
      intro m
      induction m with
      | zero => exact fun _ _ hrecord => hrecord.elim
      | succ m ih =>
        intro hle
        rw [Function.iterate_succ_apply']
        exact hF (m + 1) _ hle (ih (Nat.le_of_succ_le hle))
    exact (hall n le_rfl).trans (within_loop F n)

/-- All runs, from above. -/
def atLeast (h : Sequential M) : Comparison M where
  R A B := Within B A
  Level := Unit
  order := PUnit.instLinearOrder.toPartialOrder.toPreorder
  back := id
  here _ := does M
  refl := .refl
  trans hA hB := hB.trans hA
  emit := fun e _ _ hA => hA.emit e
  either := fun hA hB => hA.either hB
  step _ p := fun record hrecord => (h.does_iff p record).2 hrecord
  thread _ p q hpq := by
    intro record hrecord
    have hstep := (h.does_iff p record).1 hrecord
    rw [hpq] at hstep
    exact hstep
  back_le _ := le_rfl
  back_mono := id
  later _ _ := .refl _
  loop {F p n} hF := by
    have hall : ∀ m, Within (F^[m] stop) (does M p) := by
      intro m
      induction m with
      | zero => exact fun _ hrecord => hrecord.elim
      | succ m ih =>
        rw [Function.iterate_succ_apply']
        exact hF () _ le_rfl ih
    exact fun record ⟨m, hm⟩ => hall m record hm

end Comparison

/-- What holds in every comparison holds both ways. -/
theorem does_iff_of_comparison {M : Machine P E} (h : Sequential M) {p : P} {B : Behaviour E}
    (hall : ∀ (C : Comparison M) (n : C.Level), C.R (C.here n p) B) (record : List E) :
    does M p record ↔ B record := by
  constructor
  · rintro ⟨n, hn⟩
    exact hall (.atMost h) n record hn
  · exact hall (.atLeast h) () record

end LuaFltk.Lib
