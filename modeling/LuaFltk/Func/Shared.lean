import LuaFltk.Func.Loops

/-!
# Upvalues share variables

What upvalues are for: a local variable that closures have captured is one variable for all of
them and for its function, and goes on when the function has left its block. The variables are
cells here, without addresses, lists or a collector. Whatever addresses the allocator gives and
whenever the collector comes, a program reads the same values.
-/

namespace LuaFltk.Func

open Lib

variable {V : Type}

/-- What the interpreter does with variables, and what the allocator and the collector do. A
closure holds the upvalues that it captured; they are named by the number of the capture. -/
inductive Action (V : Type) where
  /-- `luaF_findupval`, with the address that a new upvalue would get. -/
  | capture (t k a : Nat)
  /-- `luaF_newupval` -/
  | create (a : Nat) (nil : V)
  /-- `luaF_close` -/
  | close (t k : Nat)
  | getSlot (t k : Nat)
  | setSlot (t k : Nat) (x : V)
  | getUp (n : Nat)
  | setUp (n : Nat) (x : V)
  /-- The last closure with the upvalue is gone. -/
  | drop (n : Nat)
  /-- The collector has not reached the upvalues. -/
  | mark (l : List Nat)
  | sweep (r : Root)

/-- The memory, and the upvalues that were captured; `none` when no closure has one any more. -/
structure System (V : Type) where
  g : Global V
  upvals : List (Option Nat)

namespace System

def upval (S : System V) (n : Nat) : Option Nat := S.upvals[n]?.join

/-- An action, and the value that it reads. -/
def exec (fuel : Nat) (S : System V) : Action V → Option (Option V × System V)
  | .capture t k a => do
    let (u, g) ← S.g.luaF_findupval fuel t k a
    some (none, ⟨g, S.upvals ++ [some u]⟩)
  | .create a nil => some (none, ⟨S.g.luaF_newupval a nil, S.upvals ++ [some a]⟩)
  | .close t k => do
    let g ← S.g.luaF_close t k fuel
    some (none, { S with g := g })
  | .getSlot t k => some (some (S.g.stack t k), S)
  | .setSlot t k x => some (none, { S with g := S.g.setStack t k x })
  | .getUp n => do
    let u ← S.upval n
    let x ← S.g.get u
    some (some x, S)
  | .setUp n x => do
    let u ← S.upval n
    let g ← S.g.set u x
    some (none, { S with g := g })
  | .drop n => some (none, { S with upvals := S.upvals.set n none })
  | .mark l => some (none, { S with g := { S.g with dead := fun a => S.g.dead a || l.contains a } })
  | .sweep r => do
    let g ← S.g.sweepwholelist fuel (.head r)
    some (none, { S with g := g })

/-- The allocator gives memory that is not in use, a closure that is gone is not called, and the
collector reaches what a closure holds. -/
def Allowed (S : System V) : Action V → Prop
  | .capture _ _ a | .create a _ => a ≠ uvhead ∧ S.g.alloc a = false
  | .getUp n | .setUp n _ => ∃ u, S.upval n = some u
  | .mark l => ∀ u ∈ l, some u ∉ S.upvals
  | _ => True

/-- What comes of an action when there is fuel enough. -/
def Does (S : System V) (a : Action V) (out : Option V) (S' : System V) : Prop :=
  ∃ n, ∀ fuel, n < fuel → S.exec fuel a = some (out, S')

/-- A run from a memory without upvalues, and the values it reads. -/
inductive Reach (stack : Nat → Nat → V) : List (Action V) → List (Option V) → System V → Prop where
  | start : Reach stack [] [] ⟨Global.start stack, []⟩
  | step {as : List (Action V)} {outs : List (Option V)} {S S' : System V} {a : Action V}
      {out : Option V} : Reach stack as outs S → S.Allowed a → S.Does a out S' →
      Reach stack (as ++ [a]) (outs ++ [out]) S'

end System

/-- Variables as cells: for a slot of a stack the cell that it shares, and for each capture the
cell captured. -/
structure Vars (V : Type) where
  shared : Nat → Nat → Option Nat
  slot : Nat → Nat → V
  cell : Nat → V
  upvals : List Nat

namespace Vars

def look (A : Vars V) (t k : Nat) : V :=
  match A.shared t k with
  | some c => A.cell c
  | none => A.slot t k

/-- A new cell for a capture. -/
def fresh (A : Vars V) (x : V) : Vars V :=
  { A with
    cell := Function.update A.cell A.upvals.length x
    upvals := A.upvals ++ [A.upvals.length] }

def share (A : Vars V) (t k c : Nat) : Vars V :=
  { A with shared := Function.update A.shared t (Function.update (A.shared t) k (some c)) }

def exec (A : Vars V) : Action V → Option V × Vars V
  | .capture t k _ =>
    match A.shared t k with
    | some c => (none, { A with upvals := A.upvals ++ [c] })
    | none => (none, (A.fresh (A.slot t k)).share t k A.upvals.length)
  | .create _ nil => (none, A.fresh nil)
  | .close t k => (none, { A with
      shared := fun t' j => if t' = t ∧ k ≤ j then none else A.shared t' j
      slot := A.look })
  | .getSlot t k => (some (A.look t k), A)
  | .setSlot t k x =>
    match A.shared t k with
    | some c => (none, { A with cell := Function.update A.cell c x })
    | none => (none, { A with
        slot := Function.update A.slot t (Function.update (A.slot t) k x) })
  | .getUp n => (A.upvals[n]?.map A.cell, A)
  | .setUp n x =>
    match A.upvals[n]? with
    | some c => (none, { A with cell := Function.update A.cell c x })
    | none => (none, A)
  -- nothing the program sees
  | .drop _ | .mark _ | .sweep _ => (none, A)

def start (stack : Nat → Nat → V) : Vars V where
  shared _ _ := none
  slot := stack
  cell _ := stack 0 0
  upvals := []

/-- The values that a program reads. -/
def run (A : Vars V) : List (Action V) → List (Option V) × Vars V
  | [] => ([], A)
  | a :: as =>
    let rest := (A.exec a).2.run as
    ((A.exec a).1 :: rest.1, rest.2)

end Vars

/-! ## The memory and the cells -/

/-- An upvalue of the program. -/
def Live (g : Global V) (u : Nat) : Prop := u ≠ uvhead ∧ g.alloc u = true

/-- The memory holds the variables: `cellOf` says which cell an upvalue is. A slot may still share
a cell whose upvalue was swept; then no upvalue is that cell. -/
structure Sim (S : System V) (A : Vars V) (cellOf : Nat → Nat) : Prop where
  inv : ∃ lists ring, Inv S.g lists ring
  length : S.upvals.length = A.upvals.length
  upvals : ∀ n u, S.upval n = some u →
    Live S.g u ∧ S.g.dead u = false ∧ A.upvals[n]? = some (cellOf u)
  look : ∀ t k, A.look t k = S.g.stack t k
  get : ∀ u, Live S.g u → S.g.get u = some (A.cell (cellOf u))
  shared_iff : ∀ u, Live S.g u → ∀ t k, A.shared t k = some (cellOf u) ↔ S.g.v u = .slot t k
  inj : ∀ u u', Live S.g u → Live S.g u' → cellOf u = cellOf u' → u = u'
  old : ∀ u, Live S.g u → cellOf u < A.upvals.length
  bound : ∀ t k c, A.shared t k = some c → c < A.upvals.length
  once : ∀ t k t' k' c, A.shared t k = some c → A.shared t' k' = some c → t = t' ∧ k = k'

theorem update₂_apply {β : Type} (f : Nat → Nat → β) (t k : Nat) (x : β) (t' k' : Nat) :
    Function.update f t (Function.update (f t) k x) t' k' =
      if t' = t ∧ k' = k then x else f t' k' := by
  by_cases ht : t' = t
  · subst ht
    rw [Function.update_self, Function.update_apply]
    simp
  · rw [Function.update_of_ne ht, if_neg fun h => ht h.1]

/-- What a slot shows after a cell is written. -/
theorem Vars.look_cell {A : Vars V} {c : Nat} {x : V} (t k : Nat) :
    ({ A with cell := Function.update A.cell c x } : Vars V).look t k =
      if A.shared t k = some c then x else A.look t k := by
  unfold Vars.look
  cases A.shared t k with
  | none => simp
  | some c' => simp only [Function.update_apply, Option.some.injEq]

namespace Sim

variable {S : System V} {A : Vars V} {cellOf : Nat → Nat} {fuel : Nat} {t k u : Nat} {x : V}

/-- The runs begin together. -/
theorem start (stack : Nat → Nat → V) :
    Sim ⟨Global.start stack, []⟩ (Vars.start stack) (fun _ => 0) := by
  have hnone : ∀ u, ¬ Live (Global.start stack) u := by
    rintro u ⟨hne, halloc⟩
    exact hne (by simpa [Global.start] using halloc)
  exact {
    inv := ⟨_, _, inv_start stack⟩
    length := rfl
    upvals := fun n u h => by simp [System.upval] at h
    look := fun _ _ => rfl
    get := fun u h => (hnone u h).elim
    shared_iff := fun u h => (hnone u h).elim
    inj := fun u _ h => (hnone u h).elim
    old := fun u h => (hnone u h).elim
    bound := fun _ _ _ h => absurd h (Option.some_ne_none _).symm
    once := fun _ _ _ _ _ h => absurd h (Option.some_ne_none _).symm }

/-- The upvalue that a slot has is the cell that it shares. -/
theorem shared_of_slot (h : Sim S A cellOf) (hu : Live S.g u) (hv : S.g.v u = .slot t k) :
    A.shared t k = some (cellOf u) := (h.shared_iff u hu t k).2 hv

/-- The same variables with other values. -/
theorem of_values {g' : Global V} {A' : Vars V} (h : Sim S A cellOf)
    (hinv : ∃ lists ring, Inv g' lists ring) (halloc : g'.alloc = S.g.alloc)
    (hv : g'.v = S.g.v) (hdead : g'.dead = S.g.dead) (hshared : A'.shared = A.shared)
    (hupvals : A'.upvals = A.upvals) (hlook : ∀ t k, A'.look t k = g'.stack t k)
    (hget : ∀ u, Live S.g u → g'.get u = some (A'.cell (cellOf u))) :
    Sim { S with g := g' } A' cellOf := by
  have hlive : ∀ u, Live g' u ↔ Live S.g u := fun u => by rw [Live, halloc, Live]
  refine ⟨hinv, by rw [hupvals]; exact h.length, fun n u hu => ?_, hlook,
    fun u hu => hget u ((hlive u).1 hu), fun u hu t k => ?_, fun u u' hu hu' => ?_, fun u hu => ?_,
    ?_, ?_⟩
  · rw [hlive, hdead, hupvals]
    exact h.upvals n u hu
  · rw [hshared, hv]
    exact h.shared_iff u ((hlive u).1 hu) t k
  · exact h.inj u u' ((hlive u).1 hu) ((hlive u').1 hu')
  · rw [hupvals]
    exact h.old u ((hlive u).1 hu)
  · rw [hshared, hupvals]
    exact h.bound
  · rw [hshared]
    exact h.once

theorem stack_setStack (g : Global V) (t k : Nat) (x : V) (t' k' : Nat) :
    (g.setStack t k x).stack t' k' = if t' = t ∧ k' = k then x else g.stack t' k' :=
  update₂_apply ..

/-- Of the upvalues, a write to a slot changes that of the slot. -/
theorem get_setStack {g : Global V} (halloc : g.alloc u = true) (t k : Nat) (x : V) :
    (g.setStack t k x).get u = if g.v u = .slot t k then some x else g.get u := by
  cases hv : g.v u with
  | own =>
    rw [if_neg Ptr.noConfusion]
    simp only [Global.get, Global.access, Global.setStack, hv]
    cases g.u u <;> rfl
  | slot t' k' =>
    rw [get_slot halloc hv, get_slot (g := g.setStack t k x) halloc hv, stack_setStack]
    simp only [Ptr.slot.injEq, apply_ite some]

/-- The lists say nothing about values. -/
theorem inv_setStack {g : Global V} {lists : Root → List Nat} {ring : List Nat}
    (h : Inv g lists ring) (t k : Nat) (x : V) : Inv (g.setStack t k x) lists ring :=
  ⟨h.holds, h.alloc, h.head, h.isopen, h.isclosed, h.sorted, h.linked, h.in_ring⟩

/-- A write to a slot. -/
theorem setSlot (h : Sim S A cellOf) (t k : Nat) (x : V) :
    Sim { S with g := S.g.setStack t k x } (A.exec (.setSlot t k x)).2 cellOf := by
  obtain ⟨lists, ring, hinv⟩ := h.inv
  have hinv' := inv_setStack hinv t k x
  cases hshared : A.shared t k with
  | some c =>
    have hexec : (A.exec (.setSlot t k x)).2 =
        { A with cell := Function.update A.cell c x } := by
      simp only [Vars.exec, hshared]
    rw [hexec]
    refine h.of_values ⟨lists, ring, hinv'⟩ rfl rfl rfl rfl rfl (fun t' k' => ?_) fun u hu => ?_
    · rw [Vars.look_cell, h.look, stack_setStack]
      congr 1
      rw [eq_iff_iff]
      constructor
      · exact fun hc => h.once _ _ _ _ _ hc hshared
      · rintro ⟨rfl, rfl⟩
        exact hshared
    · dsimp only
      rw [get_setStack hu.2, h.get u hu, Function.update_apply, apply_ite some]
      congr 1
      rw [← h.shared_iff u hu, hshared, Option.some.injEq, eq_iff_iff, eq_comm]
  | none =>
    have hexec : (A.exec (.setSlot t k x)).2 =
        { A with slot := Function.update A.slot t (Function.update (A.slot t) k x) } := by
      simp only [Vars.exec, hshared]
    rw [hexec]
    refine h.of_values ⟨lists, ring, hinv'⟩ rfl rfl rfl rfl rfl (fun t' k' => ?_) fun u hu => ?_
    · have hlook := h.look t' k'
      simp only [Vars.look, stack_setStack, update₂_apply] at hlook ⊢
      by_cases heq : t' = t ∧ k' = k
      · rw [if_pos heq, if_pos heq, heq.1, heq.2, hshared]
      · rw [if_neg heq, if_neg heq]
        exact hlook
    · rw [get_setStack hu.2, if_neg, h.get u hu]
      rw [← h.shared_iff u hu, hshared]
      exact fun heq => nomatch heq

/-- A write to an upvalue. -/
theorem setUp (h : Sim S A cellOf) (hu : Live S.g u) (x : V) : ∃ g', S.g.set u x = some g' ∧
    Sim { S with g := g' } { A with cell := Function.update A.cell (cellOf u) x } cellOf := by
  have haccess := access_of_alloc hu.2
  obtain ⟨lists, ring, hinv⟩ := h.inv
  cases hv : S.g.v u with
  | slot t k =>
    refine ⟨_, by simp only [Global.set, haccess, hv]; rfl, ?_⟩
    have hset := h.setSlot t k x
    simp only [Vars.exec, h.shared_of_slot hu hv] at hset
    exact hset
  | own =>
    have hmem := hinv.mem_rootgc hu.1 hu.2 hv
    obtain ⟨-, y, hy⟩ := hinv.isclosed u hmem
    refine ⟨_, by simp only [Global.set, haccess, hv, hy]; rfl, ?_⟩
    have hne : ∀ b ∈ uvhead :: ring, b ≠ u := by
      rintro b hb rfl
      exact hinv.notMem_ring hmem hb
    have hinv' : Inv { S.g with u := Function.update S.g.u u (.value x) } lists ring := by
      refine ⟨hinv.holds, hinv.alloc, hinv.head, hinv.isopen, fun b hb => ?_, hinv.sorted, ?_,
        hinv.in_ring⟩
      · refine ⟨(hinv.isclosed b hb).1, ?_⟩
        by_cases hbu : b = u
        · subst hbu
          exact ⟨x, Function.update_self ..⟩
        · obtain ⟨-, z, hz⟩ := hinv.isclosed b hb
          exact ⟨z, (Function.update_of_ne hbu ..).trans hz⟩
      · exact hinv.linked.congr (fun b hb => lnext_congr rfl (Function.update_of_ne (hne b hb) ..))
          fun b hb => lprev_congr rfl (Function.update_of_ne (hne b hb) ..)
    refine h.of_values ⟨lists, ring, hinv'⟩ rfl rfl rfl rfl rfl (fun t k => ?_) fun u' hu' => ?_
    · rw [Vars.look_cell, if_neg, h.look]
      rw [h.shared_iff u hu, hv]
      exact Ptr.noConfusion
    · by_cases huu : u' = u
      · subst huu
        simp [Global.get, Global.access, hv, hu.2, lua_assert]
      · dsimp only
        rw [Function.update_of_ne fun hc => huu (h.inj _ _ hu' hu hc), ← h.get u' hu']
        exact get_congr rfl rfl rfl fun _ => Function.update_of_ne huu ..

/-- Upvalues of the program are closed, and dead ones are freed. -/
theorem of_leaves {g' : Global V} {A' : Vars V} {F C : Nat → Prop} (h : Sim S A cellOf)
    (hinv : ∃ lists ring, Inv g' lists ring) (hleaves : Leaves F C S.g g')
    (hdead : ∀ u, F u → S.g.dead u = true) (hcell : A'.cell = A.cell)
    (hupvals : A'.upvals = A.upvals) (hlook : A'.look = A.look)
    (hshared : ∀ t k c, A'.shared t k = some c → A.shared t k = some c)
    (hiff : ∀ u, Live g' u → ∀ t k, A'.shared t k = some (cellOf u) ↔ g'.v u = .slot t k) :
    Sim { S with g := g' } A' cellOf := by
  have hlive : ∀ u, Live g' u → Live S.g u :=
    fun u hu => ⟨hu.1, ((hleaves.alloc u).1 hu.2).1⟩
  refine ⟨hinv, by rw [hupvals]; exact h.length, fun n u hu => ?_, fun t k => ?_, fun u hu => ?_,
    hiff, fun u u' hu hu' => h.inj u u' (hlive u hu) (hlive u' hu'), fun u hu => ?_,
    fun t k c hc => ?_, fun t k t' k' c hc hc' => ?_⟩
  · obtain ⟨⟨hne, halloc⟩, halive, hcap⟩ := h.upvals n u hu
    have hF : ¬ F u := by
      intro hF
      rw [hdead u hF] at halive
      cases halive
    rw [hupvals]
    refine ⟨⟨hne, (hleaves.alloc u).2 ⟨halloc, hF⟩⟩, ?_, hcap⟩
    exact (congrFun hleaves.dead u).trans halive
  · rw [hlook, h.look, hleaves.stack]
  · rw [hcell]
    exact (hleaves.get u hu.1 hu.2).trans (h.get u (hlive u hu))
  · rw [hupvals]
    exact h.old u (hlive u hu)
  · rw [hupvals]
    exact h.bound t k c (hshared t k c hc)
  · exact h.once t k t' k' c (hshared t k c hc) (hshared t' k' c hc')

/-- `luaF_close` ends, and cells take the values of their slots. -/
theorem close (h : Sim S A cellOf) (t level : Nat) : ∃ n g',
    (∀ fuel, n < fuel → S.g.luaF_close t level fuel = some g') ∧
      Sim { S with g := g' } (A.exec (.close t level)).2 cellOf := by
  obtain ⟨lists, ring, hinv⟩ := h.inv
  obtain ⟨g', lists', ring', hrun, hinv', hleaves⟩ := hinv.luaF_close (t := t) level rfl
  refine ⟨_, g', hrun, h.of_leaves ⟨lists', ring', hinv'⟩ hleaves (fun _ => And.right) rfl rfl ?_
    (fun t' k c => ?_) fun u hu t' k => ?_⟩
  · funext t' k
    simp only [Vars.exec, Vars.look]
    by_cases hin : t' = t ∧ level ≤ k
    · simp [hin]
    · simp only [if_neg hin]
      cases A.shared t' k <;> rfl
  · simp only [Vars.exec]
    split
    · exact fun heq => nomatch heq
    · exact id
  · obtain ⟨halloc, hF⟩ := (hleaves.alloc u).1 hu.2
    have hlive : Live S.g u := ⟨hu.1, halloc⟩
    have hiff := h.shared_iff u hlive t' k
    simp only [Vars.exec]
    by_cases hin : InRange S.g t level u
    · -- the upvalue is closed now
      have halive : S.g.dead u = false := by
        rw [Bool.eq_false_iff]
        exact fun hdead => hF ⟨hin, hdead⟩
      rw [hleaves.own u hu.2 ⟨hin, halive⟩]
      obtain ⟨-, -, j, hv, hj⟩ := hin
      refine iff_of_false ?_ Ptr.noConfusion
      split
      · exact fun heq => nomatch heq
      · next hnot =>
        rw [hiff, hv, Ptr.slot.injEq]
        rintro ⟨rfl, rfl⟩
        exact hnot ⟨rfl, hj⟩
    · rw [hleaves.v u hu.2 fun hC => hin hC.1, ← hiff]
      split
      · next hrange =>
        refine iff_of_false (fun heq => nomatch heq) fun heq => hin ⟨hu.1, halloc, k, ?_, hrange.2⟩
        rw [hiff.1 heq, hrange.1]
      · exact Iff.rfl

/-- `sweepwholelist` ends, and no cell that is in use is lost. -/
theorem sweep (h : Sim S A cellOf) (r : Root) : ∃ n g',
    (∀ fuel, n < fuel → S.g.sweepwholelist fuel (.head r) = some g') ∧
      Sim { S with g := g' } A cellOf := by
  obtain ⟨lists, ring, hinv⟩ := h.inv
  obtain ⟨g', lists', ring', hrun, hinv', hleaves⟩ :=
    hinv.sweepwholelist (show lists r = [] ++ lists r from rfl)
  refine ⟨_, g', hrun, h.of_leaves ⟨lists', ring', hinv'⟩ hleaves (fun _ => And.right) rfl rfl rfl
    (fun _ _ _ => id) fun u hu t k => ?_⟩
  rw [hleaves.v u hu.2 not_false]
  exact h.shared_iff u ⟨hu.1, ((hleaves.alloc u).1 hu.2).1⟩ t k

/-- The captures after one more. -/
theorem upval_append {l : List (Option Nat)} {g : Global V} {a n : Nat}
    (hu : (⟨g, l ++ [some a]⟩ : System V).upval n = some u) :
    l[n]?.join = some u ∨ n = l.length ∧ u = a := by
  rcases Nat.lt_trichotomy n l.length with hn | rfl | hn
  · left
    rwa [System.upval, List.getElem?_append_left hn] at hu
  · right
    simp [System.upval] at hu
    exact ⟨rfl, hu.symm⟩
  · have hnone : (l ++ [some a])[n]? = none := List.getElem?_eq_none (by simpa using hn)
    rw [System.upval, hnone] at hu
    cases hu

/-- A new upvalue is a cell that none was. -/
theorem add {g' : Global V} {A' : Vars V} {a c : Nat} (h : Sim S A cellOf)
    (hinv : ∃ lists ring, Inv g' lists ring) (hne : a ≠ uvhead) (hfree : S.g.alloc a = false)
    (hstack : g'.stack = S.g.stack) (halloc : g'.alloc = Function.update S.g.alloc a true)
    (hdead : g'.dead = Function.update S.g.dead a false) (hv : ∀ b, b ≠ a → g'.v b = S.g.v b)
    (hget : ∀ b, Live S.g b → g'.get b = S.g.get b) (hnew : g'.get a = some (A'.cell c))
    (hupvals : A'.upvals = A.upvals ++ [c]) (hcell : ∀ c', c' ≠ c → A'.cell c' = A.cell c')
    (hc : ∀ u, Live S.g u → cellOf u ≠ c) (hle : c ≤ A.upvals.length)
    (hshared : ∀ t k c', c' ≠ c → (A'.shared t k = some c' ↔ A.shared t k = some c'))
    (hslot : ∀ t k, A'.shared t k = some c ↔ g'.v a = .slot t k)
    (hlook : ∀ t k, A'.look t k = S.g.stack t k) :
    Sim ⟨g', S.upvals ++ [some a]⟩ A' (Function.update cellOf a c) := by
  have hold : ∀ u, Live S.g u → u ≠ a := by
    rintro u hu rfl
    cases hfree.symm.trans hu.2
  have hlive : ∀ u, Live g' u → u = a ∨ Live S.g u := by
    rintro u ⟨hu, hua⟩
    by_cases heq : u = a
    · exact .inl heq
    · rw [halloc, Function.update_of_ne heq] at hua
      exact .inr ⟨hu, hua⟩
  have hcellOf : ∀ u, Live S.g u → Function.update cellOf a c u = cellOf u :=
    fun u hu => Function.update_of_ne (hold u hu) ..
  refine ⟨hinv, by simp [hupvals, h.length], fun n u hu => ?_,
    fun t k => by rw [hstack]; exact hlook t k, fun u hu => ?_, fun u hu t k => ?_,
    fun u u' hu hu' heq => ?_, fun u hu => ?_, fun t k c' hc' => ?_, fun t k t' k' c' ht ht' => ?_⟩
  · rcases upval_append hu with hu | ⟨rfl, rfl⟩
    · obtain ⟨hlive, halive, hcap⟩ := h.upvals n u hu
      have hua := hold u hlive
      refine ⟨⟨hlive.1, ?_⟩, ?_, ?_⟩
      · exact (congrFun halloc u).trans ((Function.update_of_ne hua ..).trans hlive.2)
      · exact (congrFun hdead u).trans ((Function.update_of_ne hua ..).trans halive)
      · rw [hupvals, hcellOf u hlive]
        exact List.getElem?_append_left (List.getElem?_eq_some_iff.1 hcap).1 |>.trans hcap
    · refine ⟨⟨hne, ?_⟩, ?_, ?_⟩
      · exact (congrFun halloc u).trans (Function.update_self ..)
      · exact (congrFun hdead u).trans (Function.update_self ..)
      · rw [hupvals, h.length, Function.update_self]
        simp
  · rcases hlive u hu with rfl | hu
    · rw [Function.update_self]
      exact hnew
    · rw [hcellOf u hu, hcell _ (hc u hu), ← h.get u hu]
      exact hget u hu
  · rcases hlive u hu with rfl | hu
    · rw [Function.update_self]
      exact hslot t k
    · rw [hcellOf u hu, hshared t k _ (hc u hu), h.shared_iff u hu]
      exact Eq.congr_left (hv u (hold u hu)).symm
  · rcases hlive u hu with rfl | hold₁ <;> rcases hlive u' hu' with rfl | hold₂
    · rfl
    · rw [Function.update_self, hcellOf u' hold₂] at heq
      exact absurd heq.symm (hc u' hold₂)
    · rw [Function.update_self, hcellOf u hold₁] at heq
      exact absurd heq (hc u hold₁)
    · rw [hcellOf u hold₁, hcellOf u' hold₂] at heq
      exact h.inj u u' hold₁ hold₂ heq
  · rw [hupvals, List.length_append, List.length_singleton]
    rcases hlive u hu with rfl | hu
    · rw [Function.update_self]
      exact Nat.lt_succ_of_le hle
    · rw [hcellOf u hu]
      exact Nat.lt_succ_of_lt (h.old u hu)
  · rw [hupvals, List.length_append, List.length_singleton]
    by_cases heq : c' = c
    · rw [heq]
      exact Nat.lt_succ_of_le hle
    · exact Nat.lt_succ_of_lt (h.bound t k c' ((hshared t k c' heq).1 hc'))
  · by_cases heq : c' = c
    · subst heq
      have hslots := ((hslot t k).1 ht).symm.trans ((hslot t' k').1 ht')
      exact Ptr.slot.inj hslots
    · exact h.once t k t' k' c' ((hshared t k c' heq).1 ht) ((hshared t' k' c' heq).1 ht')

/-- A slot is captured whose upvalue is there. -/
theorem capture_again {g' : Global V} (h : Sim S A cellOf) (hinv : ∃ lists ring, Inv g' lists ring)
    (hfound : Found S.g g' t k u) (hlive : Live S.g u) (hv : S.g.v u = .slot t k) :
    Sim ⟨g', S.upvals ++ [some u]⟩ { A with upvals := A.upvals ++ [cellOf u] } cellOf := by
  have halloc : g'.alloc = S.g.alloc := by
    rw [hfound.alloc, Function.update_eq_self_iff]
    exact hlive.2.symm
  have hv' : g'.v = S.g.v := by
    rw [hfound.v, Function.update_eq_self_iff]
    exact hv.symm
  have hlive' : ∀ b, Live g' b ↔ Live S.g b := fun b => by rw [Live, halloc, Live]
  have hlt : ∀ {n}, n < A.upvals.length → n < (A.upvals ++ [cellOf u]).length := by
    intro n hn
    rw [List.length_append]
    exact Nat.lt_add_right _ hn
  refine ⟨hinv, by simp [h.length], fun n b hb => ?_, fun t' k' => ?_, fun b hb => ?_,
    fun b hb t' k' => ?_, fun b b' hb hb' => h.inj b b' ((hlive' b).1 hb) ((hlive' b').1 hb'),
    fun b hb => hlt (h.old b ((hlive' b).1 hb)), fun t' k' c hc => hlt (h.bound t' k' c hc), h.once⟩
  · rcases upval_append hb with hb | ⟨rfl, rfl⟩
    · obtain ⟨hb', halive, hcap⟩ := h.upvals n b hb
      refine ⟨(hlive' b).2 hb', ?_, ?_⟩
      · refine (congrFun hfound.dead b).trans ?_
        rw [Function.update_apply, halive, ite_self]
      · exact (List.getElem?_append_left (List.getElem?_eq_some_iff.1 hcap).1).trans hcap
    · refine ⟨(hlive' b).2 hlive, (congrFun hfound.dead b).trans (Function.update_self ..), ?_⟩
      simp [h.length]
  · exact (h.look t' k').trans (congrFun (congrFun hfound.stack t') k').symm
  · refine Eq.trans ?_ (h.get b ((hlive' b).1 hb))
    by_cases hbu : b = u
    · subst hbu
      rw [get_slot hlive.2 hv, get_slot (hb.2) ((congrFun hv' b).trans hv), hfound.stack]
    · exact hfound.get b hb.1 hbu ((hlive' b).1 hb).2
  · rw [h.shared_iff b ((hlive' b).1 hb)]
    exact Eq.congr_left (congrFun hv' b).symm

/-- A slot is captured that no upvalue is at: a new cell, or the one whose upvalue was swept. -/
theorem capture_new {g' : Global V} {a : Nat} (h : Sim S A cellOf)
    (hinv : ∃ lists ring, Inv g' lists ring) (hne : a ≠ uvhead) (hfree : S.g.alloc a = false)
    (hfound : Found S.g g' t k a)
    (hnone : ∀ b, b ≠ uvhead → S.g.alloc b = true → S.g.v b ≠ .slot t k) :
    ∃ c, Sim ⟨g', S.upvals ++ [some a]⟩ (A.exec (.capture t k a)).2 (Function.update cellOf a c) := by
  have hva : g'.v a = .slot t k := (congrFun hfound.v a).trans (Function.update_self ..)
  have hget : g'.get a = some (S.g.stack t k) := by
    rw [get_slot ((congrFun hfound.alloc a).trans (Function.update_self ..)) hva, hfound.stack]
  have hv : ∀ b, b ≠ a → g'.v b = S.g.v b :=
    fun b hb => (congrFun hfound.v b).trans (Function.update_of_ne hb ..)
  have hother : ∀ b, Live S.g b → g'.get b = S.g.get b := by
    intro b hb
    refine hfound.get b hb.1 ?_ hb.2
    rintro rfl
    cases hfree.symm.trans hb.2
  cases hshared : A.shared t k with
  | some c =>
    refine ⟨c, ?_⟩
    have hexec : (A.exec (.capture t k a)).2 = { A with upvals := A.upvals ++ [c] } := by
      simp only [Vars.exec, hshared]
    have hlook := h.look t k
    simp only [Vars.look, hshared] at hlook
    rw [hexec]
    refine h.add hinv hne hfree hfound.stack hfound.alloc hfound.dead hv hother ?_ rfl
      (fun _ _ => rfl) ?_ (Nat.le_of_lt (h.bound t k c hshared)) (fun _ _ _ _ => Iff.rfl) ?_ h.look
    · rw [hget, ← hlook]
    · rintro b hb rfl
      exact hnone b hb.1 hb.2 ((h.shared_iff b hb t k).1 hshared)
    · intro t' k'
      rw [hva, Ptr.slot.injEq]
      constructor
      · exact fun hc => h.once _ _ _ _ _ hshared hc
      · rintro ⟨rfl, rfl⟩
        exact hshared
  | none =>
    refine ⟨A.upvals.length, ?_⟩
    have hexec : (A.exec (.capture t k a)).2 =
        (A.fresh (A.slot t k)).share t k A.upvals.length := by
      simp only [Vars.exec, hshared]
    have hshare : ∀ t' k', ((A.fresh (A.slot t k)).share t k A.upvals.length).shared t' k' =
        if t' = t ∧ k' = k then some A.upvals.length else A.shared t' k' :=
      update₂_apply _ _ _ _
    have hcell : ((A.fresh (A.slot t k)).share t k A.upvals.length).cell =
        Function.update A.cell A.upvals.length (A.slot t k) := rfl
    have hbound : ∀ t' k', A.shared t' k' ≠ some A.upvals.length :=
      fun t' k' heq => lt_irrefl _ (h.bound t' k' _ heq)
    have hlook := h.look t k
    simp only [Vars.look, hshared] at hlook
    rw [hexec]
    refine h.add hinv hne hfree hfound.stack hfound.alloc hfound.dead hv hother ?_ rfl
      (fun c' hc' => Function.update_of_ne hc' ..) (fun b hb => Nat.ne_of_lt (h.old b hb)) le_rfl
      (fun t' k' c' hc' => ?_) (fun t' k' => ?_) fun t' k' => ?_
    · rw [hget, ← hlook, hcell, Function.update_self]
    · rw [hshare]
      split
      · next heq =>
        rw [heq.1, heq.2, hshared]
        simpa using Ne.symm hc'
      · exact Iff.rfl
    · rw [hshare, hva, Ptr.slot.injEq]
      split
      · next heq => simp [heq.1, heq.2]
      · next heq =>
        refine iff_of_false (hbound t' k') ?_
        rintro ⟨rfl, rfl⟩
        exact heq ⟨rfl, rfl⟩
    · rw [← h.look t' k']
      simp only [Vars.look, hshare, hcell]
      by_cases heq : t' = t ∧ k' = k
      · rw [if_pos heq, heq.1, heq.2, hshared]
        exact Function.update_self ..
      · rw [if_neg heq]
        cases hs : A.shared t' k' with
        | none => rfl
        | some c =>
          refine Function.update_of_ne ?_ ..
          rintro rfl
          exact hbound t' k' hs

/-- A new closed upvalue is a new cell. -/
theorem create {a : Nat} (h : Sim S A cellOf) (nil : V) (hne : a ≠ uvhead)
    (hfree : S.g.alloc a = false) : ∃ c, Sim ⟨S.g.luaF_newupval a nil, S.upvals ++ [some a]⟩
      (A.exec (.create a nil)).2 (Function.update cellOf a c) := by
  obtain ⟨lists, ring, hinv⟩ := h.inv
  have hpush := hinv.push_closed hne hfree nil
  have hbound : ∀ t k, A.shared t k ≠ some A.upvals.length :=
    fun t k heq => lt_irrefl _ (h.bound t k _ heq)
  have hold : ∀ b, Live S.g b → b ≠ a := by
    rintro b hb rfl
    cases hfree.symm.trans hb.2
  have hva : (S.g.luaF_newupval a nil).v a = .own := Function.update_self ..
  refine ⟨A.upvals.length, h.add ⟨_, _, ⟨hpush.holds, hpush.alloc, hpush.head, hpush.isopen,
    hpush.isclosed, hpush.sorted, hpush.linked, hpush.in_ring⟩⟩ hne hfree rfl rfl rfl
    (fun b hb => Function.update_of_ne hb ..) (fun b hb => ?_) ?_ rfl
    (fun c' hc' => Function.update_of_ne hc' ..) (fun b hb => Nat.ne_of_lt (h.old b hb)) le_rfl
    (fun _ _ _ _ => Iff.rfl) (fun t k => ?_) fun t k => ?_⟩
  · exact get_congr (Function.update_of_ne (hold b hb) ..) (Function.update_of_ne (hold b hb) ..) rfl
      fun _ => Function.update_of_ne (hold b hb) ..
  · have hcell : (A.exec (.create a nil)).2.cell A.upvals.length = nil := Function.update_self ..
    rw [hcell]
    simp [Global.get, Global.access, Global.luaF_newupval, Global.luaC_linkupval, lua_assert]
  · rw [hva]
    exact iff_of_false (hbound t k) Ptr.noConfusion
  · rw [← h.look t k]
    simp only [Vars.exec, Vars.look, Vars.fresh]
    cases hs : A.shared t k with
    | none => rfl
    | some c =>
      refine Function.update_of_ne ?_ ..
      rintro rfl
      exact hbound t k hs

/-- The collector marks what no closure holds. -/
theorem mark (h : Sim S A cellOf) {l : List Nat} (hl : ∀ u ∈ l, some u ∉ S.upvals) :
    Sim { S with g := { S.g with dead := fun a => S.g.dead a || l.contains a } } A cellOf := by
  obtain ⟨lists, ring, hinv⟩ := h.inv
  refine ⟨⟨lists, ring, hinv.holds, hinv.alloc, hinv.head, hinv.isopen, hinv.isclosed, hinv.sorted,
    hinv.linked, hinv.in_ring⟩, h.length, fun n u hu => ?_, h.look, h.get, h.shared_iff, h.inj,
    h.old, h.bound, h.once⟩
  obtain ⟨hlive, halive, hcap⟩ := h.upvals n u hu
  refine ⟨hlive, ?_, hcap⟩
  have hnot : u ∉ l := by
    intro hul
    exact hl u hul (List.mem_of_getElem? (Option.join_eq_some_iff.1 hu))
  simp [halive, hnot]

/-- A cell may be forgotten. -/
theorem drop (h : Sim S A cellOf) (n : Nat) :
    Sim { S with upvals := S.upvals.set n none } A cellOf := by
  refine ⟨h.inv, by simp [h.length], fun m u hu => h.upvals m u ?_, h.look, h.get, h.shared_iff,
    h.inj, h.old, h.bound, h.once⟩
  simp only [System.upval, List.getElem?_set] at hu
  split at hu
  · split at hu <;> cases hu
  · exact hu

/-- An allowed action meets no fault, reads the value of the variable, and keeps the memory and
the cells together. -/
theorem step (h : Sim S A cellOf) (a : Action V) (hallowed : S.Allowed a) : ∃ S' cellOf',
    S.Does a (A.exec a).1 S' ∧ Sim S' (A.exec a).2 cellOf' := by
  cases a with
  | capture t k a =>
    obtain ⟨hne, hfree⟩ := hallowed
    obtain ⟨lists, ring, hinv⟩ := h.inv
    obtain ⟨u, g', lists', ring', hrun, hinv', hfound, hu, hcase⟩ := hinv.luaF_findupval t k hne hfree
    have hout : (A.exec (.capture t k a)).1 = none := by
      simp only [Vars.exec]
      split <;> rfl
    have hdoes : S.Does (.capture t k a) none ⟨g', S.upvals ++ [some u]⟩ :=
      ⟨(lists (.openupval t)).length, fun fuel hfuel => by simp [System.exec, hrun fuel hfuel]⟩
    rw [hout]
    rcases hcase with ⟨halloc, hv⟩ | ⟨rfl, hnone⟩
    · have hshared := h.shared_of_slot ⟨hu, halloc⟩ hv
      refine ⟨_, cellOf, hdoes, ?_⟩
      simp only [Vars.exec, hshared]
      exact h.capture_again ⟨_, _, hinv'⟩ hfound ⟨hu, halloc⟩ hv
    · obtain ⟨c, hsim⟩ := h.capture_new ⟨_, _, hinv'⟩ hne hfree hfound hnone
      exact ⟨_, _, hdoes, hsim⟩
  | create a nil =>
    obtain ⟨c, hsim⟩ := h.create nil hallowed.1 hallowed.2
    exact ⟨_, _, ⟨0, fun _ _ => rfl⟩, hsim⟩
  | close t k =>
    obtain ⟨n, g', hrun, hsim⟩ := h.close t k
    exact ⟨_, cellOf, ⟨n, fun fuel hfuel => by simp [System.exec, hrun fuel hfuel, Vars.exec]⟩, hsim⟩
  | getSlot t k =>
    refine ⟨S, cellOf, ⟨0, fun _ _ => ?_⟩, h⟩
    rw [System.exec, Vars.exec, h.look]
  | setSlot t k x =>
    refine ⟨_, cellOf, ⟨0, fun _ _ => ?_⟩, h.setSlot t k x⟩
    rw [System.exec, Vars.exec]
    split <;> rfl
  | getUp n =>
    obtain ⟨u, hu⟩ := hallowed
    obtain ⟨hlive, -, hcap⟩ := h.upvals n u hu
    refine ⟨S, cellOf, ⟨0, fun _ _ => ?_⟩, h⟩
    simp [System.exec, Vars.exec, hu, h.get u hlive, hcap]
  | setUp n x =>
    obtain ⟨u, hu⟩ := hallowed
    obtain ⟨hlive, -, hcap⟩ := h.upvals n u hu
    obtain ⟨g', hset, hsim⟩ := h.setUp hlive x
    refine ⟨{ S with g := g' }, cellOf, ⟨0, fun _ _ => ?_⟩, ?_⟩
    · simp [System.exec, Vars.exec, hu, hset, hcap]
    · simp only [Vars.exec, hcap]
      exact hsim
  | drop n => exact ⟨_, cellOf, ⟨0, fun _ _ => rfl⟩, h.drop n⟩
  | mark l => exact ⟨_, cellOf, ⟨0, fun _ _ => rfl⟩, h.mark hallowed⟩
  | sweep r =>
    obtain ⟨n, g', hrun, hsim⟩ := h.sweep r
    exact ⟨_, cellOf, ⟨n, fun fuel hfuel => by simp [System.exec, hrun fuel hfuel, Vars.exec]⟩, hsim⟩

end Sim

/-! ## Whole runs -/

theorem Vars.run_append (A : Vars V) (as : List (Action V)) (a : Action V) :
    A.run (as ++ [a]) = ((A.run as).1 ++ [((A.run as).2.exec a).1], ((A.run as).2.exec a).2) := by
  induction as generalizing A with
  | nil => rfl
  | cons b as ih =>
    simp only [List.cons_append, Vars.run, ih]

/-- A step has one outcome. -/
theorem System.Does.unique {S S₁ S₂ : System V} {a : Action V} {o₁ o₂ : Option V}
    (h₁ : S.Does a o₁ S₁) (h₂ : S.Does a o₂ S₂) : o₁ = o₂ ∧ S₁ = S₂ := by
  obtain ⟨n₁, h₁⟩ := h₁
  obtain ⟨n₂, h₂⟩ := h₂
  have heq := (h₁ (max n₁ n₂ + 1) (by omega)).symm.trans (h₂ (max n₁ n₂ + 1) (by omega))
  exact Prod.mk.inj (Option.some.inj heq)

/-- By induction on the run. -/
theorem System.Reach.sim {stack : Nat → Nat → V} {as : List (Action V)} {outs : List (Option V)}
    {S : System V} (h : System.Reach stack as outs S) :
    outs = ((Vars.start stack).run as).1 ∧
      ∃ cellOf, Sim S ((Vars.start stack).run as).2 cellOf := by
  induction h with
  | start => exact ⟨rfl, _, Sim.start stack⟩
  | @step as outs S S' a out _ hallowed hdoes ih =>
    obtain ⟨houts, cellOf, hsim⟩ := ih
    obtain ⟨S₁, cellOf', hdoes', hsim'⟩ := hsim.step a hallowed
    obtain ⟨rfl, rfl⟩ := hdoes.unique hdoes'
    rw [Vars.run_append]
    exact ⟨by rw [houts], cellOf', hsim'⟩

/-- A captured slot is written on the stack, left, and read through the upvalue. -/
def counter : List (Action Nat) := [.capture 0 3 1, .setSlot 0 3 7, .close 0 2, .getUp 0]

theorem counter_reach :
    ∃ S, System.Reach (fun _ _ => 0) counter [none, none, none, some 7] S := by
  have hsucc : ∀ {fuel : Nat}, 1 < fuel → ∃ m, fuel = m + 2 :=
    fun {fuel} h => ⟨fuel - 2, by omega⟩
  have hstart : System.Reach (fun _ _ => 0) [] [] ⟨Global.start fun _ _ => 0, []⟩ := .start
  have hcapture := hstart.step (a := .capture 0 3 1) ⟨by decide, rfl⟩
    ⟨1, fun fuel h => by obtain ⟨m, rfl⟩ := hsucc h; rfl⟩
  have hset := hcapture.step (a := .setSlot 0 3 7) trivial ⟨1, fun _ _ => rfl⟩
  have hclose := hset.step (a := .close 0 2) trivial
    ⟨1, fun fuel h => by obtain ⟨m, rfl⟩ := hsucc h; rfl⟩
  exact ⟨_, hclose.step (a := .getUp 0) ⟨1, rfl⟩ ⟨1, fun _ _ => rfl⟩⟩

/-- Whatever addresses the allocator gives and whenever the collector comes, a program reads from
slots and upvalues what it reads from cells; and no action that is allowed meets a fault. -/
theorem upvalues_are_cells (stack : Nat → Nat → V) {as : List (Action V)} {outs : List (Option V)}
    {S : System V} (h : System.Reach stack as outs S) :
    outs = ((Vars.start stack).run as).1 ∧ ∀ a, S.Allowed a → ∃ out S', S.Does a out S' := by
  obtain ⟨houts, cellOf, hsim⟩ := h.sim
  refine ⟨houts, fun a ha => ?_⟩
  obtain ⟨S', -, hdoes, -⟩ := hsim.step a ha
  exact ⟨_, S', hdoes⟩

theorem upvalues_are_cells_counter :
    ∃ S, System.Reach (fun _ _ => 0) counter [none, none, none, some 7] S ∧
      [none, none, none, some 7] = ((Vars.start fun _ _ => 0).run counter).1 ∧
      ∀ a, S.Allowed a → ∃ out S', S.Does a out S' := by
  obtain ⟨S, h⟩ := counter_reach
  exact ⟨S, h, upvalues_are_cells _ h⟩

/-- In every state reached, the list of a thread has its open upvalues from the top of the stack
down, one for a slot, the ring has those of all threads, and what is allocated is on one list. -/
theorem open_upvalues_listed (stack : Nat → Nat → V) {as : List (Action V)}
    {outs : List (Option V)} {S : System V} (h : System.Reach stack as outs S) :
    (∃ lists ring, Inv S.g lists ring) ∧ ∀ u u' t k, Live S.g u → Live S.g u' →
      S.g.v u = .slot t k → S.g.v u' = .slot t k → u = u' := by
  obtain ⟨-, cellOf, hsim⟩ := h.sim
  obtain ⟨lists, ring, hinv⟩ := hsim.inv
  refine ⟨⟨lists, ring, hinv⟩, fun u u' t k hu hu' hv hv' => ?_⟩
  exact hinv.slot_unique hu.1 hu.2 hv hu'.1 hu'.2 hv'

/-- Two slots of a stack are captured, the lower one first. -/
def captures : List (Action Nat) := [.capture 0 3 1, .capture 0 5 2]

theorem open_upvalues_listed_captures :
    ∃ S, System.Reach (fun _ _ => 0) captures [none, none] S ∧
      Live S.g 1 ∧ S.g.v 1 = .slot 0 3 ∧ Live S.g 2 ∧ S.g.v 2 = .slot 0 5 ∧
      (∃ lists ring, Inv S.g lists ring) ∧ ∀ u u' t k, Live S.g u → Live S.g u' →
        S.g.v u = .slot t k → S.g.v u' = .slot t k → u = u' := by
  have hsucc : ∀ {fuel : Nat}, 1 < fuel → ∃ m, fuel = m + 2 :=
    fun {fuel} h => ⟨fuel - 2, by omega⟩
  have hstart : System.Reach (fun _ _ => 0) [] [] ⟨Global.start fun _ _ => 0, []⟩ := .start
  have hlower := hstart.step (a := .capture 0 3 1) ⟨by decide, rfl⟩
    ⟨1, fun fuel h => by obtain ⟨m, rfl⟩ := hsucc h; rfl⟩
  have hupper := hlower.step (a := .capture 0 5 2) ⟨by decide, rfl⟩
    ⟨1, fun fuel h => by obtain ⟨m, rfl⟩ := hsucc h; rfl⟩
  exact ⟨_, hupper, ⟨by decide, rfl⟩, rfl, ⟨by decide, rfl⟩, rfl, open_upvalues_listed _ hupper⟩

end LuaFltk.Func
