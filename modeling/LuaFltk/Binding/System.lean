import LuaFltk.Binding.Handler
import LuaFltk.Binding.Registration

/-!
# The bindings as a running system

A program that uses callbacks, idle functions and timers together. Beside the state of Lua
and FLTK the system keeps what the program knows: the log of its registrations, with the
handle each one returned and the function and data it was given. A handle is passed back by
the number of its registration, at any later time and any number of times.
-/

namespace LuaFltk.Binding

open Api

/-- What a registration is for. -/
inductive Kind where
  | widget (o : Nat)
  | menu_item (o : Nat)
  | idle
  | timeout
  deriving DecidableEq, Repr

/-- Whether the registration returned a handle. -/
def Kind.hasHandle : Kind → Bool
  | idle | timeout => true
  | _ => false

/-- One registration: `ref` is the handle, or for an object the reference in its
`user_data`. -/
structure Entry where
  kind : Kind
  ref : Int
  func : Value
  data : Value
  deriving DecidableEq, Repr

structure System where
  world : World
  /-- the registrations made so far, numbered from 0 -/
  log : Nat → Entry
  next : Nat
  /-- those that are neither removed nor replaced -/
  live : Set Nat
  /-- the last registration of each object -/
  owner : Nat → Option Nat
  /-- the registration a node of an FLTK list was made for, by the node's `ptr` -/
  origin : Nat → Nat

/-- The operations of a program, and what FLTK calls. -/
inductive Action where
  | set_fltk_widget_callback (o luaFunc data : Nat)
  | set_fltk_menu_item_callback (o luaFunc data : Nat)
  | set_fltk_fl_add_idle (luaFunc obj : Nat)
  | fltk_fl_remove_idle (k : Nat)
  | set_fltk_fl_add_timeout (pos luaFunc obj : Nat)
  | set_fltk_fl_repeat_timeout (pos k : Nat)
  | fltk_fl_remove_timeout (k : Nat)
  | user_data (o : Nat) (v : Int)
  | do_callback (menu o : Nat)
  | call_idle
  | fireTimeout
  | timeoutReturn
  deriving DecidableEq, Repr

namespace Action

/-- The C code that runs; the results are a new handle and the call made. -/
def code (S : System) : Action → Bind (Int × Call)
  | set_fltk_widget_callback o f d => do
    Binding.set_fltk_widget_callback o f d
    return (0, none)
  | set_fltk_menu_item_callback o f d => do
    Binding.set_fltk_menu_item_callback o f d
    return (0, none)
  | set_fltk_fl_add_idle f d => return (← Binding.set_fltk_fl_add_idle f d, none)
  | fltk_fl_remove_idle k => do
    Binding.fltk_fl_remove_idle (S.log k).ref
    return (0, none)
  | set_fltk_fl_add_timeout pos f d => return (← Binding.set_fltk_fl_add_timeout pos f d, none)
  | set_fltk_fl_repeat_timeout pos k => do
    Binding.set_fltk_fl_repeat_timeout pos (S.log k).ref
    return (0, none)
  | fltk_fl_remove_timeout k => do
    Binding.fltk_fl_remove_timeout (S.log k).ref
    return (0, none)
  | user_data o v => do
    modify fun W => { W with user_data := Function.update W.user_data o v }
    return (0, none)
  | do_callback menu o => return (0, ← Binding.do_callback menu o)
  | call_idle => return (0, ← Binding.call_idle)
  | fireTimeout => return (0, ← Binding.fireTimeout)
  | timeoutReturn => do
    lua_fltk_fl_timeout_return
    return (0, none)

/-- The call an action makes. -/
def call (a : Action) (S : System) : Call := (run (a.code S) S.world).1.2

/-- The state it leaves. -/
def after (a : Action) (S : System) : World := (run (a.code S) S.world).2

end Action

namespace System

/-- The log with one more registration. -/
def append (S : System) (e : Entry) : System :=
  { S with
    log := Function.update S.log S.next e
    next := S.next + 1
    live := if 0 < e.ref then insert S.next S.live else S.live }

/-- A registration for the object `o` replaces the one before. -/
def own (S : System) (o : Nat) (e : Entry) : System :=
  { { S with live := { k ∈ S.live | S.owner o ≠ some k } }.append e with
    owner := Function.update S.owner o (some S.next) }

/-- The next node FLTK's lists get is made for the registration `k`. -/
def mark (S : System) (k : Nat) : System :=
  { S with origin := Function.update S.origin S.world.nnodes k }

/-- One action. -/
def exec (S : System) (a : Action) : System :=
  let W := S.world
  let V := a.after S
  match a with
  | .set_fltk_widget_callback o f d =>
    { S.own o ⟨.widget o, V.user_data o, valueAt W f, given W d⟩ with world := V }
  | .set_fltk_menu_item_callback o f d =>
    { S.own o ⟨.menu_item o, V.user_data o, valueAt W f, given W d⟩ with world := V }
  | .set_fltk_fl_add_idle f d =>
    if f = 0 then { S with world := V }
    else { (S.mark S.next).append
      ⟨.idle, (run (a.code S) W).1.1, valueAt W f, given W d⟩ with world := V }
  | .set_fltk_fl_add_timeout _ f d =>
    if f = 0 then { S with world := V }
    else { (S.mark S.next).append
      ⟨.timeout, (run (a.code S) W).1.1, valueAt W f, given W d⟩ with world := V }
  | .set_fltk_fl_repeat_timeout _ k => { S.mark k with world := V }
  | .fltk_fl_remove_idle k | .fltk_fl_remove_timeout k =>
    { S with world := V, live := S.live \ {k} }
  | _ => { S with world := V }

/-- The call the program asked for when FLTK fires something. -/
def asked (S : System) : Action → Call
  | .do_callback menu o =>
    match S.owner o with
    | none => none
    | some k => match (S.log k).kind with
      | .widget _ => callOf (S.log k).func [.userdata o, (S.log k).data]
      | _ => callOf (S.log k).func [.userdata menu, (S.log k).data]
  | .call_idle => match S.world.idles with
    | [] => none
    | p :: _ => callOf (S.log (S.origin p.ptr)).func [(S.log (S.origin p.ptr)).data]
  | .fireTimeout => match S.world.timeouts with
    | [] => none
    | t :: _ => callOf (S.log (S.origin t.ptr)).func [(S.log (S.origin t.ptr)).data]
  | _ => none

end System

/-- The actions a program can take: arguments lie in the frame, and a handle comes from an
earlier registration. -/
def Allowed (S : System) : Action → Prop
  | .set_fltk_widget_callback _ f d | .set_fltk_menu_item_callback _ f d =>
    0 < f ∧ f ≤ S.world.top ∧ d ≤ S.world.top
  | .set_fltk_fl_add_idle f d | .set_fltk_fl_add_timeout _ f d =>
    f ≤ S.world.top ∧ d ≤ S.world.top
  | .fltk_fl_remove_idle k | .set_fltk_fl_repeat_timeout _ k | .fltk_fl_remove_timeout k =>
    k < S.next ∧ (S.log k).kind.hasHandle = true
  | _ => True

/-- What the rest of the program does between two actions: its stack and its own tables. -/
structure Between (W V : World) : Prop extends Frame W V where
  idles : V.idles = W.idles
  timeouts : V.timeouts = W.timeouts
  firing : V.firing = W.firing
  nnodes : V.nnodes = W.nnodes

/-- The states of the runs whose actions all satisfy `P`. -/
inductive Reach (P : System → Action → Prop) : System → Prop where
  | start {W : World} {free : List Int} (log : Nat → Entry) (origin : Nat → Nat) :
      RefInv W.registry free ∅ → W.registry.get (.number LUA_REFNIL) = .nil →
      (∀ o, W.callback o = none) → W.idles = [] → W.timeouts = [] → W.firing = [] →
      Reach P ⟨W, log, 0, ∅, fun _ => none, origin⟩
  | between {S : System} {V : World} : Reach P S → Between S.world V →
      Reach P { S with world := V }
  | act {S : System} (a : Action) : Reach P S → Allowed S a → P S a → Reach P (S.exec a)

/-- No two live registrations share a reference, and the free list ends and has none of
theirs. -/
structure Safe (S : System) : Prop where
  distinct : ∀ k ∈ S.live, ∀ k' ∈ S.live, (S.log k).ref = (S.log k').ref → k = k'
  free : ∃ free, Lib.Chain (link S.world.registry) (link S.world.registry FREELIST_REF) free ∧
    ∀ k ∈ S.live, (S.log k).ref ∉ free

end LuaFltk.Binding
