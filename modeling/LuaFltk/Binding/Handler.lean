import LuaFltk.Binding.Callback

/-!
# Idle functions and timers

The part of `fl_lua_misc.cpp` that adds, repeats and removes idle functions and timers,
with FLTK's two lists. A handle is the reference of a record that holds the Lua function
and its data, and for a timer the flag `repeat`. A timer's trampoline is split where it
calls its Lua function, which may use all of these operations itself.
-/

namespace LuaFltk.Binding

open Api Api.TableArg

/-- `Fl::add_idle`: the new node goes behind `last`. -/
def Fl_add_idle (data : Int) : Bind Unit :=
  modify fun W => { W with idles := W.idles ++ [⟨W.nnodes, data⟩], nnodes := W.nnodes + 1 }

/-- `Fl::remove_idle` on the ring from `first` to `last`: the first node found is dropped,
and its successor becomes `first`. -/
def removeIdle (data : Int) (before : List Node) : List Node → List Node
  | [] => before
  | p :: after => if p.arg = data then after ++ before else removeIdle data (before ++ [p]) after

def Fl_remove_idle (data : Int) : Bind Unit :=
  modify fun W => { W with idles := removeIdle data [] W.idles }

/-- `Fl::repeat_timeout`: `pos` is where the insertion sort puts the new node. -/
def Fl_repeat_timeout (pos : Nat) (argp : Int) : Bind Unit :=
  modify fun W => { W with
    timeouts := W.timeouts.take pos ++ ⟨W.nnodes, argp⟩ :: W.timeouts.drop pos
    nnodes := W.nnodes + 1 }

/-- `Fl::add_timeout` brings the clock up to date first. -/
def Fl_add_timeout (pos : Nat) (argp : Int) : Bind Unit := Fl_repeat_timeout pos argp

/-- `Fl::remove_timeout`: all nodes with this argument, and every node when it is null. -/
def Fl_remove_timeout (argp : Int) : Bind Unit :=
  modify fun W => { W with timeouts := W.timeouts.filter fun t => t.arg ≠ argp ∧ argp ≠ 0 }

def lua_fltk_fl_idle (udata : Int) : Bind Call := do
  let savedTop ← lua_gettop
  let mut call : Call := none
  lua_rawgeti LUA_REGISTRYINDEX udata
  if ← lua_istable (-1) then
    lua_rawgeti (.stack (-1)) 1  -- recover the lua function parameter
    if ← lua_isfunction (-1) then
      lua_rawgeti (.stack (-2)) 2  -- recover the lua user_data parameter
      call ← lua_call 1
  lua_settop savedTop
  return call

/-- `if(obj) lua_pushvalue(L, obj); else lua_pushnil(L);` -/
def pushGiven (obj : Int) : Bind Unit :=
  if obj ≠ 0 then lua_pushvalue obj else lua_pushnil

/-- The table of a handler: element 1 the function, element 2 the data. -/
def handlerTable (luaFunc obj : Int) : Bind Unit := do
  lua_createtable  -- new table to store function to call and user_data
  lua_pushvalue luaFunc
  lua_rawseti (.stack (-2)) 1
  pushGiven obj
  lua_rawseti (.stack (-2)) 2

def set_fltk_fl_add_idle (luaFunc obj : Int) : Bind Int := do
  if luaFunc ≠ 0 then
    handlerTable luaFunc obj
    let ref ← luaL_ref LUA_REGISTRYINDEX
    Fl_add_idle ref
    return ref
  else return 0

def fltk_fl_remove_idle (ref : Int) : Bind Unit := do
  Fl_remove_idle ref
  luaL_unref LUA_REGISTRYINDEX ref

/-- `lua_fltk_fl_timeout` up to its call. -/
def lua_fltk_fl_timeout (udata : Int) : Bind Call := do
  let savedTop ← lua_gettop
  let mut call : Call := none
  let mut refTbl : Option Nat := none
  lua_rawgeti LUA_REGISTRYINDEX udata
  if ← lua_istable (-1) then
    let tbl ← lua_gettop
    refTbl := some tbl
    lua_rawgeti (.stack tbl) 1  -- recover the lua function parameter
    if ← lua_isfunction (-1) then
      lua_rawgeti (.stack tbl) 2  -- recover the lua user_data parameter
      call ← lua_call 1
  modify fun W => { W with firing := ⟨udata, savedTop, refTbl, W.stack, W.top⟩ :: W.firing }
  return call

/-- The rest of `lua_fltk_fl_timeout`, for the innermost activation. -/
def lua_fltk_fl_timeout_return : Bind Unit := do
  match (← get).firing with
  | [] => pure ()
  | f :: rest =>
    modify fun W => { W with firing := rest, stack := f.stack, top := f.top }
    match f.refTbl with
    | some refTbl =>
      lua_pushstring "repeat"
      lua_gettable (.stack refTbl)
      if !(← lua_isboolean (-1)) && !(← lua_toboolean (-1)) then
        luaL_unref LUA_REGISTRYINDEX f.udata
    | none => pure ()
    lua_settop f.savedTop

def set_fltk_fl_add_timeout (pos : Nat) (luaFunc obj : Int) : Bind Int := do
  if luaFunc ≠ 0 then
    handlerTable luaFunc obj
    lua_pushstring "repeat"
    lua_pushboolean false
    lua_settable (.stack (-3))
    let ref ← luaL_ref LUA_REGISTRYINDEX
    Fl_add_timeout pos ref
    return ref
  else return 0

def set_fltk_fl_repeat_timeout (pos : Nat) (ref : Int) : Bind Unit := do
  let savedTop ← lua_gettop
  lua_rawgeti LUA_REGISTRYINDEX ref
  if ← lua_istable (-1) then
    lua_pushstring "repeat"
    lua_pushboolean true
    lua_settable (.stack (-3))
    Fl_repeat_timeout pos ref
  lua_settop savedTop

def fltk_fl_remove_timeout (ref : Int) : Bind Unit := do
  Fl_remove_timeout ref
  luaL_unref LUA_REGISTRYINDEX ref

/-- `call_idle`: the ring turns, then the function that was first is called. -/
def call_idle : Bind Call := do
  match (← get).idles with
  | [] => return none
  | p :: rest =>
    modify fun W => { W with idles := rest ++ [p] }
    lua_fltk_fl_idle p.arg

/-- `Fl::wait` fires the first timer of the list, once it has left the list. -/
def fireTimeout : Bind Call := do
  match (← get).timeouts with
  | [] => return none
  | t :: rest =>
    modify fun W => { W with timeouts := rest }
    lua_fltk_fl_timeout t.arg

/-! ## What the functions do -/

/-- The record of a handler with function `f` and data `d`. -/
def handlerRecord (f d : Value) : Table :=
  (Table.empty.set (.number 1) f).set (.number 2) d

/-- One element of the table on top: push its value, `lua_rawseti`. -/
theorem setElem_run {W : World} {n : Int} {v : Value} {t : TableId} (ht : 0 < W.top)
    (h : W.stack (W.top - 1) = .table t) :
    run (lua_rawseti (.stack (-2)) n) (run (push v) W).2 = ((), { W with
      stack := Function.update W.stack W.top v
      heap := Function.update W.heap t ((W.heap t).set (.number n) v) }) := by
  have hk : W.top - 1 ≠ W.top := by omega
  simp [run, push, lua_rawseti, lua_pop, setTableAt, hk, h]

theorem lua_pushvalue_run (idx : Int) (W : World) :
    run (lua_pushvalue idx) W = run (push (valueAt W idx)) W := rfl

/-- An index in the frame reads the same with more slots pushed. -/
theorem valueAt_frame {V W : World} {idx : Nat} (h : 0 < idx) (hi : idx ≤ W.top)
    (htop : W.top ≤ V.top) (hs : ∀ i < W.top, V.stack i = W.stack i) :
    valueAt V idx = valueAt W idx := by
  rw [valueAt_stack h (by omega), valueAt_stack h hi]
  exact hs _ (by omega)

/-- The table of a handler holds the function and the data. -/
theorem handlerTable_run {W : World} {luaFunc obj : Nat} (hf : 0 < luaFunc)
    (hft : luaFunc ≤ W.top) (hd : obj ≤ W.top) :
    ∃ stack : Nat → Value, stack W.top = .table (.record W.nrecords) ∧
      run (handlerTable luaFunc obj) W = ((), { W with
        stack := stack
        top := W.top + 1
        nrecords := W.nrecords + 1
        heap := Function.update W.heap (.record W.nrecords)
          (handlerRecord (valueAt W luaFunc) (given W obj)) }) := by
  rw [handlerTable]
  simp only [run_bind, lua_pushvalue_run]
  generalize hV : (run lua_createtable W).2 = V
  have hstack : V.stack = Function.update W.stack W.top (.table (.record W.nrecords)) := by
    rw [← hV]; rfl
  have htop : V.top = W.top + 1 := by rw [← hV]; rfl
  have hbelow : ∀ i < W.top, V.stack i = W.stack i := fun i hi => by
    rw [hstack]; exact Function.update_of_ne hi.ne _ _
  have hf' : valueAt V luaFunc = valueAt W luaFunc := valueAt_frame hf hft (by omega) hbelow
  rw [hf', setElem_run (W := V) (t := .record W.nrecords) (by omega) (by simp [hstack, htop])]
  dsimp only
  generalize hV' : ({ V with
    stack := Function.update V.stack V.top (valueAt W luaFunc)
    heap := Function.update V.heap (.record W.nrecords)
      ((V.heap (.record W.nrecords)).set (.number 1) (valueAt W luaFunc)) } : World) = V'
  have htop' : V'.top = W.top + 1 := by rw [← hV', htop]
  have hslot : V'.stack W.top = .table (.record W.nrecords) := by
    rw [← hV']; simp [htop, hstack]
  have hd' : run (pushGiven obj) V' =
      run (push (given W obj)) V' := by
    rcases Nat.eq_zero_or_pos obj with rfl | hpos
    · rfl
    · have hne : (obj : Int) ≠ 0 := by omega
      rw [pushGiven, if_pos hne, lua_pushvalue_run, given, if_neg hpos.ne', valueAt_frame hpos hd (by omega)]
      intro i hi
      rw [← hV']
      simp only [htop]
      rw [Function.update_of_ne (by omega), hbelow i hi]
  rw [hd', setElem_run (W := V') (t := .record W.nrecords) (by omega) (by simp [htop', hslot])]
  refine ⟨_, ?_, Prod.ext rfl (World.ext rfl ?_ ?_ ?_ ?_ ?_ ?_ ?_ ?_ ?_ ?_ ?_ ?_)⟩
  · simp [htop', hslot]
  · exact htop'
  all_goals subst hV'; subst hV; simp [run, lua_createtable, push, handlerRecord]

/-- A reference to the table on the stack. -/
theorem luaL_ref_table {W : World} {t : TableId} (ht : 0 < W.top)
    (h : W.stack (W.top - 1) = .table t) :
    ∃ stack, run (luaL_ref LUA_REGISTRYINDEX) W = (newRef W.registry,
      { W with registry := refTable W.registry (.table t), top := W.top - 1, stack := stack }) :=
  ⟨_, by rw [luaL_ref_run (by simp [h]) ht, h]⟩

/-- All that adding an idle handler leaves behind. -/
theorem set_fltk_fl_add_idle_run {W : World} {luaFunc obj : Nat} (hf : 0 < luaFunc)
    (hft : luaFunc ≤ W.top) (hd : obj ≤ W.top) :
    ∃ stack top, run (set_fltk_fl_add_idle luaFunc obj) W = (newRef W.registry, { W with
      stack := stack
      top := top
      registry := refTable W.registry (.table (.record W.nrecords))
      nrecords := W.nrecords + 1
      heap := Function.update W.heap (.record W.nrecords)
        (handlerRecord (valueAt W luaFunc) (given W obj))
      idles := W.idles ++ [⟨W.nnodes, newRef W.registry⟩]
      nnodes := W.nnodes + 1 }) := by
  have hne : (luaFunc : Int) ≠ 0 := by omega
  obtain ⟨stack, hslot, hrun⟩ := handlerTable_run hf hft hd
  rw [set_fltk_fl_add_idle, if_pos hne, run_bind, hrun, run_bind]
  generalize hV : ({ W with stack := stack, top := W.top + 1, nrecords := W.nrecords + 1, heap := _ } : World) = V
  obtain ⟨stack', hrun'⟩ := luaL_ref_table (W := V) (t := .record W.nrecords) (by rw [← hV]; simp)
    (by rw [← hV]; exact hslot)
  rw [hrun']
  subst hV
  exact ⟨_, _, rfl⟩

/-- The record of a timer. -/
def timerRecord (f d : Value) : Table :=
  (handlerRecord f d).set (.string "repeat") (.boolean false)

/-- All that adding a timer leaves behind. -/
theorem set_fltk_fl_add_timeout_run {W : World} (pos : Nat) {luaFunc obj : Nat} (hf : 0 < luaFunc)
    (hft : luaFunc ≤ W.top) (hd : obj ≤ W.top) :
    ∃ stack top, run (set_fltk_fl_add_timeout pos luaFunc obj) W = (newRef W.registry, { W with
      stack := stack
      top := top
      registry := refTable W.registry (.table (.record W.nrecords))
      nrecords := W.nrecords + 1
      heap := Function.update W.heap (.record W.nrecords)
        (timerRecord (valueAt W luaFunc) (given W obj))
      timeouts := W.timeouts.take pos ++ ⟨W.nnodes, newRef W.registry⟩ :: W.timeouts.drop pos
      nnodes := W.nnodes + 1 }) := by
  have hne : (luaFunc : Int) ≠ 0 := by omega
  have hW : W.top ≠ W.top + 1 + 1 ∧ W.top + 1 + 1 ≠ W.top := by omega
  obtain ⟨stack, hslot, hrun⟩ := handlerTable_run hf hft hd
  rw [set_fltk_fl_add_timeout, if_pos hne, run_bind, hrun]
  simp only [run_bind]
  generalize hV : (run (lua_settable (.stack (-3))) _).2 = V
  have hV' : V = { W with
      stack := Function.update (Function.update stack (W.top + 1) (.string "repeat"))
        (W.top + 1 + 1) (.boolean false)
      top := W.top + 1
      nrecords := W.nrecords + 1
      heap := Function.update W.heap (.record W.nrecords)
        (timerRecord (valueAt W luaFunc) (given W obj)) } := by
    rw [← hV]
    simp [run, lua_pushstring, lua_pushboolean, push, lua_settable, lua_pop, setTableAt, hslot,
      hW, timerRecord]
  obtain ⟨stack', hrun'⟩ := luaL_ref_table (W := V) (t := .record W.nrecords)
    (by simp [hV']) (by simp [hV', hW, hslot])
  rw [hrun', hV']
  exact ⟨_, _, rfl⟩

/-- The handler leaves the ring, and its reference is free again. -/
theorem fltk_fl_remove_idle_run (ref : Int) (W : World) :
    ∃ stack, run (fltk_fl_remove_idle ref) W = ((), { W with
      stack := stack
      registry := unrefTable W.registry ref
      idles := removeIdle ref [] W.idles }) :=
  ⟨_, by rw [fltk_fl_remove_idle, run_bind, luaL_unref_run]; rfl⟩

/-- The timer leaves the queue, and its reference is free again. -/
theorem fltk_fl_remove_timeout_run (ref : Int) (W : World) :
    ∃ stack, run (fltk_fl_remove_timeout ref) W = ((), { W with
      stack := stack
      registry := unrefTable W.registry ref
      timeouts := W.timeouts.filter fun t => t.arg ≠ ref ∧ ref ≠ 0 }) :=
  ⟨_, by rw [fltk_fl_remove_timeout, run_bind, luaL_unref_run]; rfl⟩

/-- Repeating a timer whose reference leads to a table sets the flag and adds a node. -/
theorem set_fltk_fl_repeat_timeout_run {W : World} (pos : Nat) {ref : Int} {t : TableId}
    (h : W.registry.get (.number ref) = .table t) :
    ∃ stack top, (run (set_fltk_fl_repeat_timeout pos ref) W).2 = { W with
      stack := stack
      top := top
      heap := Function.update W.heap t ((W.heap t).set (.string "repeat") (.boolean true))
      timeouts := W.timeouts.take pos ++ ⟨W.nnodes, ref⟩ :: W.timeouts.drop pos
      nnodes := W.nnodes + 1 } := by
  have hW : W.top ≠ W.top + 1 + 1 := by omega
  refine exists_frame (W := { W with
    heap := Function.update W.heap t ((W.heap t).set (.string "repeat") (.boolean true))
    timeouts := W.timeouts.take pos ++ ⟨W.nnodes, ref⟩ :: W.timeouts.drop pos
    nnodes := W.nnodes + 1 }) ?_
  simp [World.frameless, run, set_fltk_fl_repeat_timeout, lua_gettop, lua_rawgeti, rawgeti, push,
    lua_istable, h, Value.istable, lua_pushstring, lua_pushboolean, lua_settable, lua_pop,
    setTableAt, Fl_repeat_timeout, lua_settop, hW]

/-- Without a table there is nothing to repeat. -/
theorem set_fltk_fl_repeat_timeout_run_none {W : World} (pos : Nat) {ref : Int}
    (h : (W.registry.get (.number ref)).istable = false) :
    ∃ stack top, (run (set_fltk_fl_repeat_timeout pos ref) W).2 =
      { W with stack := stack, top := top } := by
  apply exists_frame
  simp [World.frameless, run, set_fltk_fl_repeat_timeout, lua_gettop, lua_rawgeti, rawgeti, push,
    lua_istable, h, lua_settop]

/-- The call is made with what the record holds. -/
theorem lua_fltk_fl_idle_call {W : World} {udata : Int} {t : TableId}
    (h : W.registry.get (.number udata) = .table t) :
    (run (lua_fltk_fl_idle udata) W).1 =
      callOf ((W.heap t).get (.number 1)) [(W.heap t).get (.number 2)] := by
  by_cases hf : ((W.heap t).get (.number 1)).isfunction = true <;>
    simp [run, lua_fltk_fl_idle, lua_gettop, lua_rawgeti, rawgeti, push, lua_istable, h,
      Value.istable, lua_isfunction, hf, lua_call, lua_pop, lua_settop, callOf, List.range_succ]

/-- An idle function's trampoline changes its own frame only. -/
theorem lua_fltk_fl_idle_run (udata : Int) (W : World) :
    ∃ stack top, (run (lua_fltk_fl_idle udata) W).2 = { W with stack := stack, top := top } := by
  apply exists_frame
  cases ht : (W.registry.get (.number udata)).istable with
  | true =>
    obtain ⟨t, hv⟩ := Value.istable_iff.1 ht
    by_cases hf : ((W.heap t).get (.number 1)).isfunction = true <;>
      simp [World.frameless, run, lua_fltk_fl_idle, lua_gettop, lua_rawgeti, rawgeti, push,
        lua_istable, hv, Value.istable, lua_isfunction, hf, lua_call, lua_pop, lua_settop]
  | false =>
    simp [World.frameless, run, lua_fltk_fl_idle, lua_gettop, lua_rawgeti, rawgeti, push,
      lua_istable, ht, lua_settop]

/-- The activation has its table, `t`, at `refTbl`. -/
def Firing.Holds (f : Firing) (t : TableId) : Prop :=
  ∃ n, f.refTbl = some (n + 1) ∧ f.stack n = .table t ∧ n < f.top

/-- The same of a timer. -/
theorem lua_fltk_fl_timeout_call {W : World} {udata : Int} {t : TableId}
    (h : W.registry.get (.number udata) = .table t) :
    (run (lua_fltk_fl_timeout udata) W).1 =
      callOf ((W.heap t).get (.number 1)) [(W.heap t).get (.number 2)] := by
  by_cases hf : ((W.heap t).get (.number 1)).isfunction = true <;>
    simp [run, lua_fltk_fl_timeout, lua_gettop, lua_rawgeti, rawgeti, push, lua_istable, h,
      Value.istable, lua_isfunction, hf, lua_call, lua_pop, callOf, List.range_succ, valueAt_succ]

/-- While the function runs the record is on the stack. -/
theorem lua_fltk_fl_timeout_run {W : World} {udata : Int} {t : TableId}
    (h : W.registry.get (.number udata) = .table t) :
    ∃ stack top f, Firing.Holds f t ∧ f.udata = udata ∧
      (run (lua_fltk_fl_timeout udata) W).2 =
        { W with stack := stack, top := top, firing := f :: W.firing } := by
  have hW : W.top ≠ W.top + 1 + 1 := by omega
  let V := (run (lua_fltk_fl_timeout udata) W).2
  refine ⟨V.stack, V.top, ⟨udata, W.top, some (W.top + 1), V.stack, V.top⟩, ⟨W.top, rfl, ?_, ?_⟩, rfl, ?_⟩
  · by_cases hf : ((W.heap t).get (.number 1)).isfunction = true <;>
      simp [V, run, lua_fltk_fl_timeout, lua_gettop, lua_rawgeti, rawgeti, push, lua_istable, h,
        Value.istable, lua_isfunction, hf, lua_call, lua_pop, valueAt_succ, hW]
  · by_cases hf : ((W.heap t).get (.number 1)).isfunction = true <;>
      simp [V, run, lua_fltk_fl_timeout, lua_gettop, lua_rawgeti, rawgeti, push, lua_istable, h,
        Value.istable, lua_isfunction, hf, lua_call, lua_pop, valueAt_succ]
  · by_cases hf : ((W.heap t).get (.number 1)).isfunction = true <;>
      simp [V, run, lua_fltk_fl_timeout, lua_gettop, lua_rawgeti, rawgeti, push, lua_istable, h,
        Value.istable, lua_isfunction, hf, lua_call, lua_pop, valueAt_succ]

/-- The flag `repeat` is always a boolean, so that the reference is not released when a
timer's function returns. -/
theorem lua_fltk_fl_timeout_return_run {W : World} {f : Firing} {rest : List Firing} {t : TableId}
    (hw : W.firing = f :: rest) (h : Firing.Holds f t)
    (hflag : ((W.heap t).get (.string "repeat")).isboolean = true) :
    ∃ stack top, (run lua_fltk_fl_timeout_return W).2 =
      { W with stack := stack, top := top, firing := rest } := by
  obtain ⟨n, hn, hslot, htop⟩ := h
  have hlt : n < f.top + 1 := by omega
  have hne : n ≠ f.top := by omega
  refine exists_frame (W := { W with firing := rest }) ?_
  simp [World.frameless, run, lua_fltk_fl_timeout_return, hw, hn, lua_pushstring, push,
    lua_gettable, tableAt, valueAt_succ, hlt, hne, hslot, lua_isboolean, lua_toboolean, hflag,
    lua_settop]

end LuaFltk.Binding
