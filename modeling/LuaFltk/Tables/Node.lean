import LuaFltk.Lib.Scatter

/-!
# The hash part of tables

`ltable.c`: a chained scatter table with Brent's variation. A new key goes into its main position;
the key of another chain that is found there moves to a free place, and behind one of the same chain
the new key goes to a free place itself. When none is free the table is built anew with room for one
more, or there is an error when its vector would be too large. The tables here have no array part, and the keys are those that never go to one: neither nil
nor NaN, and no number that is an array index. A collectable key is its pointer, with one hash: that
a freed string's memory is given to another string, while the dead key is in a node, is left out.
-/

namespace LuaFltk.Tables

open Lib

def MAXBITS : Nat := 26

variable {K V : Type} [DecidableEq K]

/-- The key of a node: nil where none was ever put, `LUA_TDEADKEY` where the collector has cleared
the key of an empty node, which keeps its pointer. -/
inductive Key (K : Type) where
  | nil
  | dead (k : K)
  | live (k : K)
  deriving DecidableEq

/-- The index of the main position of a key, for each size of the vector. -/
structure Hash (K : Type) where
  index : Nat → K → Nat
  lt : ∀ size k, 0 < size → index size k < size

/-- The hash part of a `Table`, with the nodes by their fields `gkey`, `gval` and `gnext`. The
vector of an empty table is the one `dummynode`. -/
structure Table (K V : Type) where
  key : Nat → Key K
  val : Nat → Option V
  next : Nat → Option Nat
  sizenode : Nat
  lastfree : Nat
  dummy : Bool

namespace Table

def mainposition (H : Hash K) (t : Table K V) (k : K) : Nat := H.index t.sizenode k

/-- The vector that `setnodevector` makes for `size` elements. -/
def newvector (size : Nat) : Table K V where
  key := fun _ => .nil
  val := fun _ => none
  next := fun _ => none
  sizenode := 2 ^ Nat.clog 2 size
  lastfree := if size = 0 then 0 else 2 ^ Nat.clog 2 size
  dummy := size = 0

def setnodevector (size : Nat) : Except String (Table K V) :=
  if Nat.clog 2 size > MAXBITS then .error "table overflow" else .ok (newvector size)

/-- The loop of the search functions: the node with the key, where there is one. -/
def findLoop (t : Table K V) (k : K) : Nat → Nat → Option (Option Nat)
  | 0, _ => none
  | turns + 1, n =>
    if t.key n = .live k then some (some n)
    else
      match t.next n with
      | none => some none
      | some m => t.findLoop k turns m

/-- `luaH_get`, as the node it finds; a chain is left after as many turns as there are nodes. -/
def luaH_get (H : Hash K) (t : Table K V) (k : K) : Option (Option Nat) :=
  t.findLoop k t.sizenode (t.mainposition H k)

/-- The loop of `getfreepos`, with the place where `lastfree` is left. -/
def freeLoop (key : Nat → Key K) : Nat → Option Nat × Nat
  | 0 => (none, 0)
  | n + 1 => if key n = .nil then (some n, n) else freeLoop key n

def setLastfree (t : Table K V) (n : Nat) : Table K V := { t with lastfree := n }

def getfreepos (t : Table K V) : Option Nat × Table K V :=
  ((freeLoop t.key t.lastfree).1, t.setLastfree (freeLoop t.key t.lastfree).2)

/-- Find previous: the node that `mp` is linked behind. -/
def previous (next : Nat → Option Nat) (mp : Nat) : Nat → Nat → Option Nat
  | 0, _ => none
  | turns + 1, othern =>
    match next othern with
    | none => none
    | some m => if m = mp then some othern else previous next mp turns m

/-- Copy the colliding node `mp` into the free place `n`, with the chain redone behind `p`. -/
def moveNode (t : Table K V) (p mp n : Nat) : Table K V :=
  { t with
    key := Function.update t.key n (t.key mp)
    val := Function.update (Function.update t.val n (t.val mp)) mp none
    next := replaceBy t.next p mp n }

/-- Chain the free place `n` behind `mp`. -/
def linkNode (t : Table K V) (mp n : Nat) : Table K V := { t with next := putBehind t.next mp n }

def setKey (t : Table K V) (n : Nat) (k : K) : Table K V :=
  { t with key := Function.update t.key n (.live k) }

def setVal (t : Table K V) (n : Nat) (v : Option V) : Table K V :=
  { t with val := Function.update t.val n v }

/-- `newkey`: the node made for the key, or none where the table has to be rehashed. -/
def newkey (H : Hash K) (t : Table K V) (k : K) : Option (Option Nat × Table K V) :=
  let mp := t.mainposition H k
  if (t.val mp).isSome || t.dummy then
    match t.getfreepos with
    | (none, t) => some (none, t)
    | (some n, t) =>
      match t.key mp with
      | .live k' =>
        let othern := t.mainposition H k'
        if othern ≠ mp then
          match previous t.next mp t.sizenode othern with
          | none => none
          | some p => some (some mp, (t.moveNode p mp n).setKey mp k)
        else some (some n, (t.linkNode mp n).setKey n k)
      | _ => none
  else some (some mp, t.setKey mp k)

/-- `numusehash`, of the first `n` nodes. -/
def numusehash (t : Table K V) : Nat → Nat
  | 0 => 0
  | n + 1 => t.numusehash n + if (t.val n).isSome then 1 else 0

/-- Re-insert the elements of the first nodes of `old`, from the last one down. An error leaves the
table as far as it was filled. -/
def reinsert (set : Table K V → K → Option (Except String Nat × Table K V)) (old : Table K V) :
    Nat → Table K V → Option (Except String Unit × Table K V)
  | 0, t => some (.ok (), t)
  | i + 1, t =>
    match old.key i, old.val i with
    | .live k, some v =>
      match set t k with
      | none => none
      | some (.error e, t) => some (.error e, t)
      | some (.ok n, t) => reinsert set old i (t.setVal n (some v))
    | _, _ => reinsert set old i t

/-- `luaH_set`: the node of the key, with the table. When there is no place for a new key, `rehash`
counts it in and calls `resize`, which calls `luaH_set` for the elements, and `luaH_set` is called
again; `calls` are the calls that may be nested so. `resize` fails before it has changed the
table. -/
def luaH_set (H : Hash K) : Nat → Table K V → K → Option (Except String Nat × Table K V)
  | 0, _, _ => none
  | calls + 1, t, k =>
    match t.luaH_get H k with
    | none => none
    | some (some n) => some (.ok n, t)
    | some none =>
      match t.newkey H k with
      | none => none
      | some (some n, t) => some (.ok n, t)
      | some (none, t) =>
        match setnodevector (t.numusehash t.sizenode + 1) with
        | .error e => some (.error e, t)
        | .ok new =>
          match reinsert (luaH_set H calls) t t.sizenode new with
          | none => none
          | some (.error e, t) => some (.error e, t)
          | some (.ok _, t) => luaH_set H calls t k

end Table

end LuaFltk.Tables
