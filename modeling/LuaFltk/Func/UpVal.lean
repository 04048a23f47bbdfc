import LuaFltk.Lib.Place
import LuaFltk.Lib.Ring

/-!
# Upvalues

`luaF_findupval`, `luaF_close`, `luaF_freeupval` and `unlinkupval` of `lfunc.c`, and what the
collector does with upvalues: `luaC_linkupval` and `sweepwholelist` of `lgc.c`. The memory is
kept by field. An upvalue is on one of two kinds of lists through `next`, and an open one is in a
ring of all open upvalues besides, whose links take the place of its value. `none` is a fault: an
access to freed memory, to the wrong member of the union, or an assertion that fails.
-/

namespace LuaFltk.Func

open Lib

/-- `TValue *v`: a slot of the stack of a thread, or the upvalue's own `u.value`. -/
inductive Ptr where
  | slot (t k : Nat)
  | own
  deriving DecidableEq, Repr

/-- Pointers into one stack are compared; those of other objects are in no order. -/
def Ptr.ge : Ptr → Ptr → Bool
  | .slot t k, .slot t' k' => t == t' && decide (k' ≤ k)
  | _, _ => false

/-- The union `u`. -/
inductive Contents (V : Type) where
  | value (x : V)
  | l (prev next : Nat)

/-- The lists through `next`: the open upvalues of a thread, and those that are closed. -/
inductive Root where
  | openupval (t : Nat)
  | rootgc
  deriving DecidableEq, Repr

/-- The memory of upvalues and the stacks of the threads. `uvhead` lies at 0. `dead` is the mark
of the collector for what it has not reached. -/
structure Global (V : Type) where
  alloc : Nat → Bool
  v : Nat → Ptr
  u : Nat → Contents V
  next : Nat → Option Nat
  dead : Nat → Bool
  head : Root → Option Nat
  stack : Nat → Nat → V

def lua_assert (b : Bool) : Option Unit := if b then some () else none

/-- The address of `uvhead`. -/
def uvhead : Nat := 0

variable {V : Type}

namespace Global

/-- An access to the upvalue at `a`. -/
def access (g : Global V) (a : Nat) : Option Unit := lua_assert (g.alloc a)

def links (g : Global V) : Links Root Nat := ⟨g.head, g.next⟩

def read (g : Global V) : Place Root Nat → Option (Option Nat)
  | .head r => some (g.head r)
  | .next a => do
    g.access a
    some (g.next a)

def write (g : Global V) (p : Place Root Nat) (o : Option Nat) : Option (Global V) :=
  match p with
  | .head r => some { g with head := Function.update g.head r o }
  | .next a => do
    g.access a
    some { g with next := Function.update g.next a o }

/-- `u.l.next` -/
def lnext (g : Global V) (a : Nat) : Option Nat :=
  match g.alloc a, g.u a with
  | true, .l _ n => some n
  | _, _ => none

/-- `u.l.prev` -/
def lprev (g : Global V) (a : Nat) : Option Nat :=
  match g.alloc a, g.u a with
  | true, .l p _ => some p
  | _, _ => none

def setNext (a n : Nat) (g : Global V) : Option (Global V) := do
  let p ← g.lprev a
  some { g with u := Function.update g.u a (.l p n) }

def setPrev (a p : Nat) (g : Global V) : Option (Global V) := do
  let n ← g.lnext a
  some { g with u := Function.update g.u a (.l p n) }

/-- The assertion that the links next to an upvalue lead back to it. -/
def linkedBack (g : Global V) (a : Nat) : Bool :=
  decide ((g.lnext a).bind g.lprev = some a) && decide ((g.lprev a).bind g.lnext = some a)

/-- A write to a slot of a stack. -/
def setStack (g : Global V) (t k : Nat) (x : V) : Global V :=
  { g with stack := Function.update g.stack t (Function.update (g.stack t) k x) }

/-- `*uv->v` -/
def get (g : Global V) (a : Nat) : Option V := do
  g.access a
  match g.v a, g.u a with
  | .slot t k, _ => some (g.stack t k)
  | .own, .value x => some x
  | .own, .l _ _ => none

/-- `setobj` into `uv->v` -/
def set (g : Global V) (a : Nat) (x : V) : Option (Global V) := do
  g.access a
  match g.v a, g.u a with
  | .slot t k, _ => some (g.setStack t k x)
  | .own, .value _ => some { g with u := Function.update g.u a (.value x) }
  | .own, .l _ _ => none

/-- The loop of `luaF_findupval`: the upvalue of the slot, or the place where it belongs. -/
def findLoop (g : Global V) (level : Ptr) : Nat → Place Root Nat →
    Option (Option Nat × Place Root Nat)
  | 0, _ => none
  | fuel + 1, pp => do
    match ← g.read pp with
    | none => some (none, pp)
    | some p =>
      g.access p
      if (g.v p).ge level then
        lua_assert (g.v p != .own)
        if g.v p = level then some (some p, pp) else g.findLoop level fuel (.next p)
      else some (none, pp)

/-- A new upvalue for a slot, with the link to the next. -/
def luaM_new (a : Nat) (v : Ptr) (next : Option Nat) (g : Global V) : Global V :=
  { g with
    alloc := Function.update g.alloc a true
    v := Function.update g.v a v
    next := Function.update g.next a next
    dead := Function.update g.dead a false }

/-- Double link it in the `uvhead` list. -/
def linkuvhead (a : Nat) (g : Global V) : Option (Global V) := do
  let first ← g.lnext uvhead
  let g ← ({ g with u := Function.update g.u a (.l uvhead first) } : Global V).setPrev first a
  let g ← g.setNext uvhead a
  lua_assert (g.linkedBack a)
  some g

/-- `luaF_findupval`, when `luaM_new` would give the address `a`. -/
def luaF_findupval (fuel t level a : Nat) (g : Global V) : Option (Nat × Global V) := do
  let (found, pp) ← g.findLoop (.slot t level) fuel (.head (.openupval t))
  match found with
  | some p => some (p, { g with dead := Function.update g.dead p false })
  | none =>
    let rest ← g.read pp
    let g ← (g.luaM_new a (.slot t level) rest).write pp (some a)
    let g ← g.linkuvhead a
    some (a, g)

def unlinkupval (a : Nat) (g : Global V) : Option (Global V) := do
  lua_assert (g.linkedBack a)
  let n ← g.lnext a
  let p ← g.lprev a
  let g ← g.setPrev n p
  let p ← g.lprev a
  let n ← g.lnext a
  g.setNext p n

def luaF_freeupval (a : Nat) (g : Global V) : Option (Global V) := do
  g.access a
  let g ← if g.v a ≠ .own then g.unlinkupval a else some g
  some { g with alloc := Function.update g.alloc a false }

/-- `luaC_linkupval`; the list is that of all objects, of which the upvalues are kept. -/
def luaC_linkupval (a : Nat) (g : Global V) : Global V :=
  { g with
    next := Function.update g.next a (g.head .rootgc)
    head := Function.update g.head .rootgc (some a) }

/-- `luaF_newupval`: closed from the start, with nil in it. -/
def luaF_newupval (a : Nat) (nil : V) (g : Global V) : Global V :=
  ({ g with
    alloc := Function.update g.alloc a true
    u := Function.update g.u a (.value nil)
    v := Function.update g.v a .own
    dead := Function.update g.dead a false } : Global V).luaC_linkupval a

/-- What `luaF_close` does with an upvalue off the list. -/
def closeUpval (a : Nat) (g : Global V) : Option (Global V) := do
  if g.dead a then g.luaF_freeupval a
  else
    let g ← g.unlinkupval a
    let x ← g.get a
    let g : Global V := { g with
      u := Function.update g.u a (.value x)
      v := Function.update g.v a .own }
    some (g.luaC_linkupval a)

def luaF_close (t level : Nat) : Nat → Global V → Option (Global V)
  | 0, _ => none
  | fuel + 1, g =>
    match g.head (.openupval t) with
    | none => some g
    | some uv => do
      g.access uv
      if (g.v uv).ge (.slot t level) then
        lua_assert (g.v uv != .own)
        let g := { g with head := Function.update g.head (.openupval t) (g.next uv) }
        luaF_close t level fuel (← g.closeUpval uv)
      else some g

/-- `sweepwholelist`: the dead are freed. -/
def sweepwholelist : Nat → Place Root Nat → Global V → Option (Global V)
  | 0, _, _ => none
  | fuel + 1, p, g => do
    match ← g.read p with
    | none => some g
    | some curr =>
      g.access curr
      if g.dead curr then
        let g ← g.write p (g.next curr)
        let g ← g.luaF_freeupval curr
        sweepwholelist fuel p g
      else sweepwholelist fuel (.next curr) g

end Global

end LuaFltk.Func
