import Mathlib.Tactic

/-!
# The Lua API as the bindings use it

`lapi.c`, restricted to the functions `fl_lua_misc.cpp` calls, on a state that has the
stack of the running C function, the registry, the tables, and the FLTK objects the
bindings write to. Slots at and above the top keep whatever was there: an index of 0
reaches the first of them.
-/

namespace LuaFltk.Api

/-- Tables made by scripts, and the records the bindings make for themselves and keep in
the registry. -/
inductive TableId where
  | script (n : Nat)
  | record (n : Nat)
  deriving DecidableEq, Repr

/-- A Lua value. The numbers that matter here are references, links and indices. -/
inductive Value where
  | nil
  | boolean (b : Bool)
  | number (n : Int)
  | string (s : String)
  | table (t : TableId)
  | function (n : Nat)
  | userdata (p : Nat)
  deriving DecidableEq, Repr

instance : Inhabited Value := ⟨.nil⟩

namespace Value

def isnil : Value → Bool
  | nil => true
  | _ => false

def isfunction : Value → Bool
  | function _ => true
  | _ => false

def istable : Value → Bool
  | table _ => true
  | _ => false

def isboolean : Value → Bool
  | boolean _ => true
  | _ => false

/-- `lua_toboolean`: all values are true but `nil` and `false`. -/
def toboolean : Value → Bool
  | nil => false
  | boolean b => b
  | _ => true

/-- `lua_tointeger`: 0 for a value that is neither a number nor a numeral. -/
def tointeger : Value → Int
  | number n => n
  | string s => s.toInt?.getD 0
  | _ => 0

@[simp] theorem isnil_iff {v : Value} : v.isnil = true ↔ v = nil := by cases v <;> simp [isnil]

@[simp] theorem isnil_eq_false {v : Value} : v.isnil = false ↔ v ≠ nil := by
  cases v <;> simp [isnil]

theorem isfunction_iff {v : Value} : v.isfunction = true ↔ ∃ i, v = function i := by
  cases v <;> simp [isfunction]

theorem istable_iff {v : Value} : v.istable = true ↔ ∃ i, v = table i := by
  cases v <;> simp [istable]

end Value

/-- A table: finitely many positive integer keys are present. -/
structure Table where
  get : Value → Value
  bound : Nat
  above : ∀ n : Int, bound < n → get (.number n) = .nil

namespace Table

def empty : Table := ⟨fun _ => .nil, 0, fun _ _ => rfl⟩

/-- The new bound when the key `k` is written. -/
def boundWith (b : Nat) : Value → Nat
  | .number n => max b n.toNat
  | _ => b

/-- A primitive store. -/
def set (t : Table) (k v : Value) : Table where
  get j := if j = k then v else t.get j
  bound := boundWith t.bound k
  above := by
    intro n hn
    have hne : Value.number n ≠ k := by
      rintro rfl
      simp only [boundWith] at hn
      omega
    rw [if_neg hne]
    refine t.above n ?_
    cases k <;> simp only [boundWith] at hn <;> omega

@[simp] theorem get_set_self (t : Table) (k v : Value) : (t.set k v).get k = v :=
  if_pos rfl

theorem get_set_ne (t : Table) {k j : Value} (v : Value) (h : j ≠ k) :
    (t.set k v).get j = t.get j :=
  if_neg h

/-- `lua_objlen`: a border, the first one. -/
def objlen (t : Table) : Nat :=
  ((List.range (t.bound + 1)).find? fun n : Nat =>
    (t.get (.number ((n : Int) + 1))).isnil).getD t.bound

/-- The slot after the length is empty. -/
theorem get_objlen_succ (t : Table) : t.get (.number (t.objlen + 1)) = .nil := by
  unfold objlen
  cases h : (List.range (t.bound + 1)).find? fun n : Nat =>
      (t.get (.number ((n : Int) + 1))).isnil with
  | none => exact t.above _ (by simp only [Option.getD_none]; omega)
  | some n => simpa using List.find?_some h

end Table

/-- The C functions the bindings install as FLTK callbacks. -/
inductive Trampoline where
  | lua_fltk_widget_callback
  | lua_fltk_menu_item_callback
  deriving DecidableEq, Repr

/-- A node of FLTK's lists of idle functions and of timeouts: a number no other node has,
and `data` or `arg`. The function pointer beside it is always the trampoline of that list. -/
structure Node where
  ptr : Nat
  arg : Int
  deriving DecidableEq, Repr

/-- An activation of `lua_fltk_fl_timeout` while its Lua function runs: its argument, its
locals (`refTbl` is set when the argument led to a table) and its stack frame. -/
structure Firing where
  udata : Int
  savedTop : Nat
  refTbl : Option Nat
  stack : Nat → Value
  top : Nat

/-- The state: the Lua side and the FLTK side. -/
structure World where
  /-- the slots from `L->base` on -/
  stack : Nat → Value
  /-- `L->top - L->base` -/
  top : Nat
  registry : Table
  heap : TableId → Table
  /-- records made so far -/
  nrecords : Nat
  /-- `callback_` of the widgets and menu items, by address -/
  callback : Nat → Option Trampoline
  /-- `user_data_` of the widgets and menu items, by address -/
  user_data : Nat → Int
  /-- the ring of `Fl_add_idle.cxx`, from `first` to `last` -/
  idles : List Node
  /-- the list `first_timeout` of `Fl.cxx` -/
  timeouts : List Node
  /-- timers that are being fired, the innermost first -/
  firing : List Firing
  /-- nodes allocated so far -/
  nnodes : Nat
  /-- `shortcut_` of the menu items, as the Lua value it was set from -/
  shortcut : Nat → Value
  /-- what `luaH_getnum` finds when it is given an object that is no table -/
  misread : Value → Int → Value

attribute [ext] World

/-- The state without the frame of the running function. -/
def World.frameless (W : World) : World := { W with stack := fun _ => .nil, top := 0 }

/-- Worlds that differ in their stacks only. -/
theorem exists_frame {V W : World} (h : V.frameless = W.frameless) :
    ∃ stack top, V = { W with stack := stack, top := top } := by
  simp only [World.frameless, World.mk.injEq, true_and] at h
  exact ⟨V.stack, V.top, World.ext rfl rfl h.1 h.2.1 h.2.2.1 h.2.2.2.1 h.2.2.2.2.1 h.2.2.2.2.2.1
    h.2.2.2.2.2.2.1 h.2.2.2.2.2.2.2.1 h.2.2.2.2.2.2.2.2.1 h.2.2.2.2.2.2.2.2.2.1
    h.2.2.2.2.2.2.2.2.2.2⟩

/-- A C function that works on the state. -/
abbrev Bind := StateM World

/-- Run a C function. -/
def run {α : Type} (x : Bind α) (W : World) : α × World := Id.run (StateT.run x W)

section run

variable {α β : Type}

theorem run_bind (x : Bind α) (f : α → Bind β) (W : World) :
    run (x >>= f) W = run (f (run x W).1) (run x W).2 := rfl

theorem run_pure (a : α) (W : World) : run (pure a) W = (a, W) := rfl

theorem run_get (W : World) : run get W = (W, W) := rfl

theorem run_modify (f : World → World) (W : World) : run (modify f) W = ((), f W) := rfl

end run

/-- The value an index refers to (`index2adr`); a positive index at or above the top is
`luaO_nilobject`, and index 0 is the slot at the top. -/
def index2adr (W : World) : Int → Option Nat
  | .ofNat 0 => some W.top
  | .ofNat (n + 1) => if n < W.top then some n else none
  | .negSucc n => some (W.top - (n + 1))

def valueAt (W : World) (idx : Int) : Value :=
  match index2adr W idx with
  | some n => W.stack n
  | none => .nil

@[simp] theorem index2adr_neg_one (W : World) : index2adr W (-1) = some (W.top - 1) := rfl
@[simp] theorem valueAt_zero (W : World) : valueAt W 0 = W.stack W.top := rfl
@[simp] theorem valueAt_neg_one (W : World) : valueAt W (-1) = W.stack (W.top - 1) := rfl
@[simp] theorem valueAt_neg_two (W : World) : valueAt W (-2) = W.stack (W.top - 2) := rfl
@[simp] theorem valueAt_neg_three (W : World) : valueAt W (-3) = W.stack (W.top - 3) := rfl

/-- An index inside the frame. -/
theorem valueAt_stack {W : World} {idx : Nat} (h : 0 < idx) (ht : idx ≤ W.top) :
    valueAt W idx = W.stack (idx - 1) := by
  obtain ⟨n, rfl⟩ : ∃ n, idx = n + 1 := ⟨idx - 1, by omega⟩
  have hn : index2adr W ((n + 1 : Nat) : Int) = some n := if_pos ht
  simp only [valueAt, hn, Nat.add_sub_cancel]

/-- A positive index counts from the bottom of the stack. -/
theorem valueAt_succ {W : World} {n : Nat} (h : n < W.top) : valueAt W ((n : Int) + 1) = W.stack n :=
  valueAt_stack (Nat.succ_pos n) h

def lua_gettop : Bind Nat := do return (← get).top

def lua_settop (n : Nat) : Bind Unit :=
  modify fun W => { W with
    stack := fun i => if W.top ≤ i ∧ i < n then .nil else W.stack i
    top := n }

/-- `lua_pop(L, n)`. -/
def lua_pop (n : Nat) : Bind Unit := modify fun W => { W with top := W.top - n }

/-- Write the slot at the top and move the top over it. -/
def push (v : Value) : Bind Unit :=
  modify fun W => { W with stack := Function.update W.stack W.top v, top := W.top + 1 }

def lua_pushvalue (idx : Int) : Bind Unit := do push (valueAt (← get) idx)
def lua_pushnil : Bind Unit := push .nil
def lua_pushinteger (n : Int) : Bind Unit := push (.number n)
def lua_pushnumber (n : Int) : Bind Unit := push (.number n)
def lua_pushstring (s : String) : Bind Unit := push (.string s)
def lua_pushboolean (b : Bool) : Bind Unit := push (.boolean b)
/-- `tolua_pushusertype` of an FLTK object. -/
def tolua_pushusertype (p : Nat) : Bind Unit := push (.userdata p)

/-- `lua_isnil`: `lua_type` of an invalid index is `LUA_TNONE`, which is not nil. -/
def lua_isnil (idx : Int) : Bind Bool := do
  let W ← get
  match index2adr W idx with
  | some n => return (W.stack n).isnil
  | none => return false

theorem lua_isnil_run {W : World} {idx : Nat} (h : 0 < idx) (ht : idx ≤ W.top) :
    run (lua_isnil idx) W = ((valueAt W idx).isnil, W) := by
  obtain ⟨n, rfl⟩ : ∃ n, idx = n + 1 := ⟨idx - 1, by omega⟩
  have hn : index2adr W ((n + 1 : Nat) : Int) = some n := if_pos ht
  simp only [lua_isnil, run_bind, run_get, valueAt, hn]
  rfl

theorem lua_isnil_run_zero (W : World) : run (lua_isnil 0) W = ((W.stack W.top).isnil, W) := rfl

def lua_istable (idx : Int) : Bind Bool := do return (valueAt (← get) idx).istable
def lua_isfunction (idx : Int) : Bind Bool := do return (valueAt (← get) idx).isfunction
def lua_isboolean (idx : Int) : Bind Bool := do return (valueAt (← get) idx).isboolean
def lua_toboolean (idx : Int) : Bind Bool := do return (valueAt (← get) idx).toboolean
def lua_tointeger (idx : Int) : Bind Int := do return (valueAt (← get) idx).tointeger

/-- A table the API is given an index to: the registry or a table on the stack. -/
inductive TableArg where
  | LUA_REGISTRYINDEX
  | stack (idx : Int)

def tableAt (W : World) : TableArg → Table
  | .LUA_REGISTRYINDEX => W.registry
  | .stack idx =>
    match valueAt W idx with
    | .table t => W.heap t
    | _ => .empty

def setTableAt (W : World) (t : TableArg) (k v : Value) : World :=
  match t with
  | .LUA_REGISTRYINDEX => { W with registry := W.registry.set k v }
  | .stack idx =>
    match valueAt W idx with
    | .table i => { W with heap := Function.update W.heap i ((W.heap i).set k v) }
    | _ => W

/-- Element `n` of a table. The API does not check that the argument is one. -/
def rawgeti (W : World) (t : TableArg) (n : Int) : Value :=
  match t with
  | .LUA_REGISTRYINDEX => W.registry.get (.number n)
  | .stack idx =>
    match valueAt W idx with
    | .table i => (W.heap i).get (.number n)
    | v => W.misread v n

/-- `lua_rawgeti(L, t, n)`. -/
def lua_rawgeti (t : TableArg) (n : Int) : Bind Unit := do push (rawgeti (← get) t n)

/-- `lua_rawseti(L, t, n)`: the value is on top and is popped. -/
def lua_rawseti (t : TableArg) (n : Int) : Bind Unit := do
  modify fun W => setTableAt W t (.number n) (valueAt W (-1))
  lua_pop 1

/-- `lua_settable` and `lua_rawset`: the key and the value are on top and are popped. The
tables written here have no metatable. -/
def lua_settable (t : TableArg) : Bind Unit := do
  modify fun W => setTableAt W t (valueAt W (-2)) (valueAt W (-1))
  lua_pop 2

/-- `lua_gettable` and `lua_rawget`: the key on top is replaced by the value. -/
def lua_gettable (t : TableArg) : Bind Unit :=
  modify fun W => { W with
    stack := Function.update W.stack (W.top - 1) ((tableAt W t).get (valueAt W (-1))) }

/-- `lua_createtable` and `lua_newtable`. -/
def lua_createtable : Bind Unit := do
  let W ← get
  set { W with
    heap := Function.update W.heap (.record W.nrecords) Table.empty,
    nrecords := W.nrecords + 1 }
  push (.table (.record W.nrecords))

def lua_objlen (t : TableArg) : Bind Int := do return (tableAt (← get) t).objlen

end LuaFltk.Api
