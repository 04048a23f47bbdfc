import LuaFltk.Binding.Handler
import LuaFltk.Binding.Hook

/-!
# Events and the height of the Lua stack

The trampolines of `fl_lua_misc.cpp`, through which FLTK calls Lua, with the calls carried
out: the Lua function called may do anything to the state but for the frame of its caller.
-/

namespace LuaFltk.Binding.Event

open Api Api.TableArg

/-- The state with the two references that `fl_lua_misc.cpp` keeps in static variables. -/
structure Session where
  world : World
  fltk_global_event_handler_ref : Int
  fltk_global_focus_changing_handler_ref : Int

/-- The Lua side: what a function does with its arguments, and how a number is written. -/
structure Lua where
  callee : Value → List Value → Session → List Value × Session
  number2str : Int → String

/-- A C function called by FLTK. -/
abbrev Tramp := StateM Session

/-- Use a function of the API. -/
def api {α : Type} (x : Bind α) : Tramp α := fun S =>
  ((run x S.world).1, { S with world := (run x S.world).2 })

/-- `lua_call(L, nargs, nresults)`: the results, as many as wanted, take the place of the
function and its arguments; the slots below are those of the caller. -/
def lua_call (L : Lua) (nargs nresults : Nat) : Tramp Unit := fun S =>
  let W := S.world
  let func := W.top - (nargs + 1)
  let args := (List.range nargs).map fun i => W.stack (W.top - nargs + i)
  let (results, S') := L.callee (W.stack func) args S
  let stack := fun i =>
    if i < func then W.stack i
    else if i < func + nresults then results[i - func]?.getD .nil
    else S'.world.stack i
  ((), { S' with world := { S'.world with stack := stack, top := func + nresults } })

/-- `lua_tostring(L, -1)`: a number is replaced by its numeral. -/
def lua_tostring (L : Lua) : Bind (Option String) := do
  let W ← get
  match valueAt W (-1) with
  | .string s => return some s
  | .number n =>
    set { W with stack := Function.update W.stack (W.top - 1) (.string (L.number2str n)) }
    return some (L.number2str n)
  | _ => return none

/-- `tolua_pushusertype` of an object that may be absent. -/
def pushWidget : Option Nat → Bind Unit
  | some w => tolua_pushusertype w
  | none => lua_pushnil

/-- `lua_tonumber`: the numbers are integers here. -/
def lua_tonumber (idx : Int) : Bind Int := lua_tointeger idx

def lua_fltk_widget_callback (L : Lua) (w : Nat) (data : Int) : Tramp Unit := do
  let savedTop ← api lua_gettop
  if (← api (lua_get_cptr_luafunction (CALLBACK_PTRSTR w))) = 0 then
    api (tolua_pushusertype w)
    if data ≠ 0 then api (lua_rawgeti LUA_REGISTRYINDEX data) else api lua_pushnil
    lua_call L 2 0
  api (lua_settop savedTop)

def lua_fltk_help_view_link (L : Lua) (w : Nat) (href : String) : Tramp (Option String) := do
  let savedTop ← api lua_gettop
  if (← api (lua_get_cptr_luafunction (LINK_PTRSTR w))) = 0 then
    api (tolua_pushusertype w)
    api (lua_pushstring href)
    lua_call L 2 1
    -- returns with the result still on the stack
    return ← api (lua_tostring L)
  api (lua_settop savedTop)
  return some href

def lua_fltk_widget_user_handle (L : Lua) (w : Nat) (event : Int) : Tramp Int := do
  let savedTop ← api lua_gettop
  if (← api (lua_get_cptr_luafunction (LINK_PTRSTR w))) = 0 then
    api (tolua_pushusertype w)
    api (lua_pushnumber event)
    lua_call L 2 1
    -- returns with the result still on the stack
    return ← api (lua_tointeger (-1))
  api (lua_settop savedTop)
  return 0

def lua_fltk_fl_callback_with_ref (L : Lua) (udata : Int) : Tramp Unit := do
  let savedTop ← api lua_gettop
  api (lua_rawgeti LUA_REGISTRYINDEX udata)
  if ← api (lua_isfunction (-1)) then
    lua_call L 0 0
  api (lua_settop savedTop)

def fltk_global_event_handler (L : Lua) (ev : Int) : Tramp Int := do
  let mut result := 0
  let oldtop ← api lua_gettop
  api (lua_rawgeti LUA_REGISTRYINDEX (← get).fltk_global_event_handler_ref)
  if ← api (lua_isfunction (-1)) then
    api (lua_pushnumber ev)
    lua_call L 1 1
    result ← api (lua_tonumber (-1))
  api (lua_settop oldtop)
  return result

def lua_fltk_fl_idle (L : Lua) (udata : Int) : Tramp Unit := do
  let savedTop ← api lua_gettop
  api (lua_rawgeti LUA_REGISTRYINDEX udata)
  if ← api (lua_istable (-1)) then
    api (lua_rawgeti (.stack (-1)) 1)  -- recover the lua function parameter
    if ← api (lua_isfunction (-1)) then
      api (lua_rawgeti (.stack (-2)) 2)  -- recover the lua user_data parameter
      lua_call L 1 0
  api (lua_settop savedTop)

def lua_fltk_fl_timeout (L : Lua) (udata : Int) : Tramp Unit := do
  let savedTop ← api lua_gettop
  api (lua_rawgeti LUA_REGISTRYINDEX udata)
  if ← api (lua_istable (-1)) then
    let refTbl ← api lua_gettop
    api (lua_rawgeti (.stack refTbl) 1)  -- recover the lua function parameter
    if ← api (lua_isfunction (-1)) then
      api (lua_rawgeti (.stack refTbl) 2)  -- recover the lua user_data parameter
      lua_call L 1 0
    api (lua_pushstring "repeat")
    api (lua_gettable (.stack refTbl))
    if !(← api (lua_isboolean (-1))) && !(← api (lua_toboolean (-1))) then
      api (luaL_unref LUA_REGISTRYINDEX udata)
  api (lua_settop savedTop)

def fltk_global_focus_changing_handler (L : Lua) (fro to' : Option Nat) : Tramp Int := do
  let oldtop ← api lua_gettop
  api (lua_rawgeti LUA_REGISTRYINDEX (← get).fltk_global_focus_changing_handler_ref)
  if ← api (lua_isfunction (-1)) then
    api (pushWidget fro)
    api (pushWidget to')
    lua_call L 2 1
    -- returns with the result still on the stack
    return ← api (lua_tonumber (-1))
  api (lua_settop oldtop)
  return 0

def lua_fltk_menu_item_callback (L : Lua) (w : Nat) (data : Int) : Tramp Unit := do
  let savedTop ← api lua_gettop
  api (lua_rawgeti LUA_REGISTRYINDEX data)
  if ← api (lua_istable (-1)) then
    api (lua_rawgeti (.stack (-1)) 1)
    if ← api (lua_isfunction (-1)) then
      api (tolua_pushusertype w)
      api (lua_rawgeti (.stack (-2)) 2)  -- userdata
      lua_call L 2 0
  api (lua_settop savedTop)

/-- An event that FLTK delivers to Lua, with what it passes. -/
inductive Delivery where
  | widgetCallback (w : Nat) (data : Int)
  | helpViewLink (w : Nat) (href : String)
  | userHandle (w : Nat) (event : Int)
  | callbackWithRef (udata : Int)
  | globalEvent (ev : Int)
  | idle (udata : Int)
  | timeout (udata : Int)
  | focusChanging (fro to' : Option Nat)
  | menuItemCallback (w : Nat) (data : Int)

/-- The state after an event. -/
def deliver (L : Lua) : Delivery → Session → Session
  | .widgetCallback w data, S => (lua_fltk_widget_callback L w data S).2
  | .helpViewLink w href, S => (lua_fltk_help_view_link L w href S).2
  | .userHandle w event, S => (lua_fltk_widget_user_handle L w event S).2
  | .callbackWithRef udata, S => (lua_fltk_fl_callback_with_ref L udata S).2
  | .globalEvent ev, S => (fltk_global_event_handler L ev S).2
  | .idle udata, S => (lua_fltk_fl_idle L udata S).2
  | .timeout udata, S => (lua_fltk_fl_timeout L udata S).2
  | .focusChanging fro to', S => (fltk_global_focus_changing_handler L fro to' S).2
  | .menuItemCallback w data, S => (lua_fltk_menu_item_callback L w data S).2

/-! ## Heights -/

/-- The frame has `m` slots above its first `h`, which are as they were in `S`. -/
structure Left (h m : Nat) (S S' : Session) : Prop where
  top : S'.world.top = h + m
  below : ∀ i < h, S'.world.stack i = S.world.stack i

/-- `x` takes the frame from `n` slots above `h` to `m`, and leaves the first `h` alone. -/
def Effect {α : Type} (h n m : Nat) (x : Tramp α) : Prop := ∀ S : Session,
  S.world.top = h + n → Left h m S (x S).2

section rules

variable {α β : Type} {h n k m : Nat} {x y : Tramp α} {f : α → Tramp β}

theorem Effect.pure (a : α) : Effect h n n (Pure.pure a) := fun _ hS => ⟨hS, fun _ _ => rfl⟩

/-- Effects add up. -/
theorem Effect.bind (hx : Effect h n k x) (hf : ∀ a, Effect h k m (f a)) :
    Effect h n m (x >>= f) := by
  intro S hS
  obtain ⟨ht, hb⟩ := hx S hS
  obtain ⟨ht', hb'⟩ := hf (x S).1 (x S).2 ht
  exact ⟨ht', fun i hi => (hb' i hi).trans (hb i hi)⟩

/-- Both branches leave the stack at one height. -/
theorem Effect.ite {c : Prop} [Decidable c] (hx : Effect h n m x) (hy : Effect h n m y) :
    Effect h n m (if c then x else y) := by
  split
  exacts [hx, hy]

end rules

section api

variable {h n : Nat}

theorem effect_read {α : Type} (g : World → α) :
    Effect h n n (api (do return g (← get))) := fun _ hS => ⟨hS, fun _ _ => rfl⟩

theorem effect_get : Effect h n n (get : Tramp Session) := fun _ hS => ⟨hS, fun _ _ => rfl⟩

theorem effect_push (v : Value) : Effect h n (n + 1) (api (push v)) := by
  intro S hS
  refine ⟨congrArg (· + 1) hS, fun i hi => ?_⟩
  exact Function.update_of_ne (by omega) _ _

theorem effect_rawgeti (t : TableArg) (i : Int) : Effect h n (n + 1) (api (lua_rawgeti t i)) :=
  fun S hS => effect_push (rawgeti S.world t i) S hS

theorem effect_gettable (t : TableArg) : Effect h (n + 1) (n + 1) (api (lua_gettable t)) := by
  intro S hS
  refine ⟨hS, fun i hi => ?_⟩
  exact Function.update_of_ne (by omega) _ _

theorem effect_unref (r : Int) : Effect h n n (api (luaL_unref LUA_REGISTRYINDEX r)) := by
  intro S hS
  unfold api
  rw [luaL_unref_run]
  refine ⟨hS, fun i hi => ?_⟩
  dsimp only
  split
  · exact Function.update_of_ne (by omega) _ _
  · rfl

/-- Whatever is above them, the frame is cut back to its first `h` slots. -/
theorem effect_settop : Effect h n 0 (api (lua_settop h)) :=
  fun S hS => ⟨rfl, fun i hi => if_neg (by omega)⟩

theorem api_bind {α β : Type} (x : Bind α) (f : α → Bind β) :
    api (x >>= f) = api x >>= fun a => api (f a) := rfl

/-- One value is pushed, function or not. -/
theorem effect_get_cptr_luafunction (key : String) :
    Effect h n (n + 1) (api (lua_get_cptr_luafunction key)) := by
  unfold lua_get_cptr_luafunction
  simp only [api_bind]
  refine .bind (effect_push _) fun _ => .bind (effect_gettable _) fun _ =>
    .bind (effect_read _) fun b => ?_
  cases b
  · exact .pure _
  · exact .pure _

/-- A call takes the function and its arguments and leaves the results. -/
theorem effect_call (L : Lua) (nargs nresults : Nat) :
    Effect h (n + (nargs + 1)) (n + nresults) (lua_call L nargs nresults) := by
  intro S hS
  refine ⟨?_, fun i hi => ?_⟩
  · show S.world.top - (nargs + 1) + nresults = _
    omega
  · exact if_pos (by omega)

theorem effect_pushWidget (w : Option Nat) : Effect h n (n + 1) (api (pushWidget w)) := by
  cases w with
  | none => exact effect_push _
  | some w => exact effect_push _

/-- Taking the numeral of a number on top writes above the first slots only. -/
theorem effect_tostring (L : Lua) : Effect h (n + 1) (n + 1) (api (lua_tostring L)) := by
  intro S hS
  unfold api lua_tostring
  simp only [run_bind, run_get]
  cases valueAt S.world (-1) with
  | number m => exact ⟨hS, fun i hi => Function.update_of_ne (by omega) _ _⟩
  | _ => exact ⟨hS, fun i hi => rfl⟩

end api

theorem Effect.gettop {β : Type} {h n m : Nat} {f : Nat → Tramp β} (hf : Effect h n m (f (h + n))) :
    Effect h n m (api lua_gettop >>= f) := by
  intro S hS
  have hval : (api lua_gettop >>= f) S = f (h + n) S := by rw [← hS]; rfl
  rw [hval]
  exact hf S hS

/-- The callback leaves the stack as it found it. -/
theorem lua_fltk_widget_callback_effect (L : Lua) (w : Nat) (data : Int) (h : Nat) :
    Effect h 0 0 (lua_fltk_widget_callback L w data) := by
  refine .gettop (.bind (effect_get_cptr_luafunction _) fun r => .ite ?_ effect_settop)
  refine .bind (effect_push _) fun _ => ?_
  refine .ite (.bind (effect_rawgeti _ _) fun _ => ?_) (.bind (effect_push _) fun _ => ?_)
  · exact .bind (effect_call L 2 0) fun _ => effect_settop
  · exact .bind (effect_call L 2 0) fun _ => effect_settop

theorem lua_fltk_fl_callback_with_ref_effect (L : Lua) (udata : Int) (h : Nat) :
    Effect h 0 0 (lua_fltk_fl_callback_with_ref L udata) := by
  refine .gettop (.bind (effect_rawgeti _ _) fun _ => .bind (effect_read _) fun _ => .ite ?_ ?_)
  · exact .bind (effect_call L 0 0) fun _ => effect_settop
  · exact effect_settop

theorem fltk_global_event_handler_effect (L : Lua) (ev : Int) (h : Nat) :
    Effect h 0 0 (fltk_global_event_handler L ev) := by
  refine .gettop (.bind effect_get fun _ => .bind (effect_rawgeti _ _) fun _ =>
    .bind (effect_read _) fun _ => .ite ?_ ?_)
  · exact .bind (effect_push _) fun _ => .bind (effect_call L 1 1) fun _ =>
      .bind (effect_read _) fun _ => .bind effect_settop fun _ => .pure _
  · exact .bind effect_settop fun _ => .pure _

theorem lua_fltk_fl_idle_effect (L : Lua) (udata : Int) (h : Nat) :
    Effect h 0 0 (lua_fltk_fl_idle L udata) := by
  refine .gettop (.bind (effect_rawgeti _ _) fun _ => .bind (effect_read _) fun _ =>
    .ite ?_ effect_settop)
  refine .bind (effect_rawgeti _ _) fun _ => .bind (effect_read _) fun _ => .ite ?_ effect_settop
  exact .bind (effect_rawgeti _ _) fun _ => .bind (effect_call L 1 0) fun _ => effect_settop

theorem lua_fltk_menu_item_callback_effect (L : Lua) (w : Nat) (data : Int) (h : Nat) :
    Effect h 0 0 (lua_fltk_menu_item_callback L w data) := by
  refine .gettop (.bind (effect_rawgeti _ _) fun _ => .bind (effect_read _) fun _ =>
    .ite ?_ effect_settop)
  refine .bind (effect_rawgeti _ _) fun _ => .bind (effect_read _) fun _ => .ite ?_ effect_settop
  exact .bind (effect_push _) fun _ => .bind (effect_rawgeti _ _) fun _ =>
    .bind (effect_call L 2 0) fun _ => effect_settop

/-- The second half of the timer's trampoline, which looks at the flag. -/
theorem repeat_effect (refTbl : Int) (udata : Int) (h n : Nat) :
    Effect h n 0 (do
      api (lua_pushstring "repeat")
      api (lua_gettable (.stack refTbl))
      if !(← api (lua_isboolean (-1))) && !(← api (lua_toboolean (-1))) then
        api (luaL_unref LUA_REGISTRYINDEX udata)
      api (lua_settop h)) := by
  refine .bind (effect_push _) fun _ => .bind (effect_gettable _) fun _ =>
    .bind (effect_read _) fun _ => .bind (effect_read _) fun _ => .ite ?_ effect_settop
  exact .bind (effect_unref _) fun _ => effect_settop

/-- Each exit of the timer leaves the stack as it found it. -/
theorem lua_fltk_fl_timeout_effect (L : Lua) (udata : Int) (h : Nat) :
    Effect h 0 0 (lua_fltk_fl_timeout L udata) := by
  refine .gettop (.bind (effect_rawgeti _ _) fun _ => .bind (effect_read _) fun _ =>
    .ite ?_ effect_settop)
  refine .gettop (.bind (effect_rawgeti _ _) fun _ => .bind (effect_read _) fun _ => .ite ?_ ?_)
  · exact .bind (effect_rawgeti _ _) fun _ => .bind (effect_call L 1 0) fun _ =>
      repeat_effect _ _ _ _
  · exact repeat_effect _ _ _ _

/-! ## The three that return early -/

/-- `Effect` from one state, when what the first step returns there is known. -/
theorem Effect.bind_at {α β : Type} {h n k m : Nat} {x : Tramp α} {f : α → Tramp β} {S : Session}
    (hx : Effect h n k x) (hS : S.world.top = h + n) (a : α) (ha : (x S).1 = a)
    (hf : Effect h k m (f a)) : Left h m S ((x >>= f) S).2 := by
  subst ha
  obtain ⟨ht, hb⟩ := hx S hS
  obtain ⟨ht', hb'⟩ := hf _ ht
  exact ⟨ht', fun i hi => (hb' i hi).trans (hb i hi)⟩

/-- The value says whether a function was stored. -/
theorem get_cptr_luafunction_value (key : String) (S : Session) :
    (api (lua_get_cptr_luafunction key) S).1 =
      if (S.world.registry.get (.string key)).isfunction then 0 else -1 := by
  cases hf : (S.world.registry.get (.string key)).isfunction <;>
    simp [api, run, lua_get_cptr_luafunction, lua_pushstring, push, lua_gettable, tableAt,
      lua_isfunction, hf]

/-- A trampoline that asks the registry for its function, and leaves one value behind when
there is one. -/
theorem cptr_left {α : Type} (key : String) (call : Tramp α) (rest : Nat → Tramp α) (S : Session)
    (hcall : Effect S.world.top 1 1 call) (hrest : Effect S.world.top 1 0 (rest S.world.top)) :
    Left S.world.top (S.world.registry.get (.string key)).isfunction.toNat S
      ((do
        let savedTop ← api lua_gettop
        if (← api (lua_get_cptr_luafunction key)) = 0 then call else rest savedTop :
          Tramp α) S).2 := by
  have hval := get_cptr_luafunction_value key S
  have hget := effect_get_cptr_luafunction key (h := S.world.top) (n := 0)
  show Left _ _ S ((api (lua_get_cptr_luafunction key) >>= fun r =>
    if r = 0 then call else rest S.world.top) S).2
  cases hf : (S.world.registry.get (.string key)).isfunction with
  | true =>
    rw [hf] at hval
    exact hget.bind_at rfl 0 hval (by rw [if_pos rfl]; exact hcall)
  | false =>
    rw [hf] at hval
    exact hget.bind_at rfl (-1) hval (by rw [if_neg (by decide)]; exact hrest)

/-- One value is left when a function was stored. -/
theorem lua_fltk_help_view_link_left (L : Lua) (w : Nat) (href : String) (S : Session) :
    Left S.world.top (S.world.registry.get (.string (LINK_PTRSTR w))).isfunction.toNat S
      (lua_fltk_help_view_link L w href S).2 := by
  refine cptr_left (LINK_PTRSTR w) _ _ S ?_ ?_
  · exact .bind (effect_push _) fun _ => .bind (effect_push _) fun _ =>
      .bind (effect_call L 2 1) fun _ => .bind (effect_tostring L) fun _ => .pure _
  · exact .bind effect_settop fun _ => .pure _

/-- The same of the user handler. -/
theorem lua_fltk_widget_user_handle_left (L : Lua) (w : Nat) (event : Int) (S : Session) :
    Left S.world.top (S.world.registry.get (.string (LINK_PTRSTR w))).isfunction.toNat S
      (lua_fltk_widget_user_handle L w event S).2 := by
  refine cptr_left (LINK_PTRSTR w) _ _ S ?_ ?_
  · exact .bind (effect_push _) fun _ => .bind (effect_push _) fun _ =>
      .bind (effect_call L 2 1) fun _ => .bind (effect_read _) fun _ => .pure _
  · exact .bind effect_settop fun _ => .pure _

theorem fltk_global_focus_changing_handler_left (L : Lua) (fro to' : Option Nat) (S : Session) :
    Left S.world.top (S.world.registry.get
        (.number S.fltk_global_focus_changing_handler_ref)).isfunction.toNat S
      (fltk_global_focus_changing_handler L fro to' S).2 := by
  have hpush : Effect S.world.top 0 1 (do
      api (lua_rawgeti LUA_REGISTRYINDEX S.fltk_global_focus_changing_handler_ref)
      api (lua_isfunction (-1))) :=
    .bind (effect_rawgeti _ _) fun _ => effect_read _
  have hval : ((do
      api (lua_rawgeti LUA_REGISTRYINDEX S.fltk_global_focus_changing_handler_ref)
      api (lua_isfunction (-1)) : Tramp Bool) S).1 =
      (S.world.registry.get (.number S.fltk_global_focus_changing_handler_ref)).isfunction := by
    show (valueAt _ (-1)).isfunction = _
    rw [valueAt_neg_one]
    exact congrArg Value.isfunction (Function.update_self _ _ _)
  cases hf : (S.world.registry.get
      (.number S.fltk_global_focus_changing_handler_ref)).isfunction with
  | true =>
    rw [hf] at hval
    refine hpush.bind_at (k := 1) (m := 1) (f := fun b => if b = true then _ else _) rfl true hval ?_
    rw [if_pos rfl]
    exact .bind (effect_pushWidget _) fun _ => .bind (effect_pushWidget _) fun _ =>
      .bind (effect_call L 2 1) fun _ => .bind (effect_read _) fun _ => .pure _
  | false =>
    rw [hf] at hval
    refine hpush.bind_at (k := 1) (m := 0) (f := fun b => if b = true then _ else _) rfl false hval ?_
    rw [if_neg (by decide)]
    exact .bind effect_settop fun _ => .pure _

/-- Whether the event reaches a function through one of the trampolines that return early. -/
def Delivery.leaves (S : Session) : Delivery → Bool
  | helpViewLink w _ | userHandle w _ =>
    (S.world.registry.get (.string (LINK_PTRSTR w))).isfunction
  | focusChanging _ _ =>
    (S.world.registry.get
      (.number S.fltk_global_focus_changing_handler_ref)).isfunction
  | _ => false

/-- What any event leaves on the stack. -/
theorem deliver_left (L : Lua) (e : Delivery) (S : Session) :
    Left S.world.top (e.leaves S).toNat S (deliver L e S) := by
  cases e with
  | widgetCallback w data => exact lua_fltk_widget_callback_effect L w data _ S rfl
  | helpViewLink w href => exact lua_fltk_help_view_link_left L w href S
  | userHandle w event => exact lua_fltk_widget_user_handle_left L w event S
  | callbackWithRef udata => exact lua_fltk_fl_callback_with_ref_effect L udata _ S rfl
  | globalEvent ev => exact fltk_global_event_handler_effect L ev _ S rfl
  | idle udata => exact lua_fltk_fl_idle_effect L udata _ S rfl
  | timeout udata => exact lua_fltk_fl_timeout_effect L udata _ S rfl
  | focusChanging fro to' => exact fltk_global_focus_changing_handler_left L fro to' S
  | menuItemCallback w data => exact lua_fltk_menu_item_callback_effect L w data _ S rfl

/-- Any number of events, one after the other. -/
def deliverAll (L : Lua) (es : List Delivery) (S : Session) : Session :=
  es.foldl (fun S e => deliver L e S) S

/-- No event of a sequence reaches a function through a trampoline that returns early. -/
def Quiet (L : Lua) : List Delivery → Session → Prop
  | [], _ => True
  | e :: es, S => e.leaves S = false ∧ Quiet L es (deliver L e S)

/-- What is left adds up. -/
theorem Left.trans {m n : Nat} {S S' S'' : Session} (h : Left S.world.top m S S')
    (h' : Left S'.world.top n S' S'') : Left S.world.top (m + n) S S'' := by
  refine ⟨by rw [h'.top, h.top, Nat.add_assoc], fun i hi => ?_⟩
  rw [h'.below i (by rw [h.top]; omega), h.below i hi]

/-- A sequence of events leaves a number of values behind, none exactly when it is quiet. -/
theorem deliverAll_left (L : Lua) (es : List Delivery) (S : Session) :
    ∃ n, Left S.world.top n S (deliverAll L es S) ∧ (n = 0 ↔ Quiet L es S) := by
  induction es generalizing S with
  | nil => exact ⟨0, ⟨rfl, fun _ _ => rfl⟩, by simp [Quiet]⟩
  | cons e es ih =>
    obtain ⟨n, hn, hq⟩ := ih (deliver L e S)
    refine ⟨(e.leaves S).toNat + n, (deliver_left L e S).trans hn, ?_⟩
    rw [Nat.add_eq_zero_iff, hq, Quiet]
    cases e.leaves S <;> simp

/-- The stack is as it was after an event, and after any sequence of events, exactly when no
event reaches a function through a trampoline that returns early. -/
theorem events_keep_stack_iff (L : Lua) :
    (∀ (e : Delivery) (S : Session),
      Left S.world.top 0 S (deliver L e S) ↔ e.leaves S = false) ∧
    ∀ (es : List Delivery) (S : Session),
      Left S.world.top 0 S (deliverAll L es S) ↔ Quiet L es S := by
  constructor
  · intro e S
    have h := deliver_left L e S
    constructor
    · intro h0
      have := h.top.symm.trans h0.top
      cases hl : e.leaves S <;> simp_all
    · intro hl
      rwa [hl] at h
  · intro es S
    obtain ⟨n, h, hq⟩ := deliverAll_left L es S
    rw [← hq]
    constructor
    · intro h0
      have := h.top.symm.trans h0.top
      omega
    · rintro rfl
      exact h

/-- A state whose help view at address 1 has a function for its links. -/
def linkedSession : Session where
  world :=
    { stack := fun _ => .nil
      top := 0
      registry := Table.empty.set (.string (LINK_PTRSTR 1)) (.function 7)
      heap := fun _ => Table.empty
      nrecords := 0
      callback := fun _ => none
      user_data := fun _ => 0
      idles := []
      timeouts := []
      firing := []
      nnodes := 0
      shortcut := fun _ => .nil
      misread := fun _ _ => .nil }
  fltk_global_event_handler_ref := 0
  fltk_global_focus_changing_handler_ref := 0

/-- Lua functions that return the string they got. -/
def echo : Lua := ⟨fun _ args S => (args.drop 1, S), fun n => toString n⟩

/-- Following a link leaves the result on the stack. -/
theorem link_leaves_result :
    (deliver echo (.helpViewLink 1 "a.html") linkedSession).world.top = 1 ∧
      ¬ Left linkedSession.world.top 0 linkedSession
        (deliver echo (.helpViewLink 1 "a.html") linkedSession) := by
  have htop : (deliver echo (.helpViewLink 1 "a.html") linkedSession).world.top = 1 := by
    decide +kernel
  refine ⟨htop, fun h => ?_⟩
  have := h.top
  rw [htop] at this
  cases this

/-! ## The calls that are made

`Callback` and `Handler` have four of these trampolines with the call recorded. Where the function
that is called does nothing the two agree, in the call and in the state.
-/

/-- A Lua whose functions do nothing but leave a note of their call. -/
def noting (note : List Value → Int) : Lua where
  callee func args S := ([], { S with fltk_global_event_handler_ref := note (func :: args) })
  number2str := toString

/-- The session after a function of the bindings, with a note of the call it records. -/
def noted (note : List Value → Int) (S : Session) (r : Call × World) : Session :=
  { S with
    world := r.2
    fltk_global_event_handler_ref := match r.1 with
      | none => S.fltk_global_event_handler_ref
      | some (func, args) => note (func :: args) }

/-- The trampoline `x` makes the call that `y` records, and leaves the state that `y` does. -/
def Notes (note : List Value → Int) (x : Tramp Unit) (y : Bind Call) : Prop :=
  ∀ S : Session, (x S).2 = noted note S (run y S.world)

section notes

variable {note : List Value → Int}

/-- Both use a function of the API. -/
theorem Notes.api {α : Type} {z : Bind α} {f : α → Tramp Unit} {g : α → Bind Call}
    (h : ∀ a, Notes note (f a) (g a)) : Notes note (api z >>= f) (z >>= g) :=
  fun S => h _ { S with world := (run z S.world).2 }

theorem Notes.ite {c : Prop} [Decidable c] {x x' : Tramp Unit} {y y' : Bind Call}
    (h : Notes note x y) (h' : Notes note x' y') :
    Notes note (if c then x else x') (if c then y else y') := by
  split
  exacts [h, h']

theorem notes_settop (n : Nat) :
    Notes note (Event.api (lua_settop n)) (do lua_settop n; return none) := fun _ => rfl

/-- A call takes the function and its arguments off the stack. -/
theorem lua_call_noting (nargs : Nat) (S : Session) :
    lua_call (noting note) nargs 0 S =
      ((), noted note S (run (Binding.lua_call nargs) S.world)) := by
  have hstack : (fun i => if i < S.world.top - (nargs + 1) then S.world.stack i
      else if i < S.world.top - (nargs + 1) + 0 then Value.nil else S.world.stack i) =
        S.world.stack := by
    funext i
    split
    · rfl
    · next h => rw [Nat.add_zero, if_neg h]
  refine congrArg (Prod.mk ()) ?_
  exact congrArg (fun stack => Session.mk
    { S.world with stack := stack, top := S.world.top - (nargs + 1) } _ _) hstack

theorem notes_call (nargs n : Nat) :
    Notes note (do lua_call (noting note) nargs 0; Event.api (lua_settop n))
      (do let call ← Binding.lua_call nargs; lua_settop n; return call) := by
  intro S
  show (Event.api (lua_settop n) (lua_call (noting note) nargs 0 S).2).2 = _
  rw [lua_call_noting]
  rfl

theorem lua_fltk_widget_callback_notes (w : Nat) (data : Int) :
    Notes note (lua_fltk_widget_callback (noting note) w data)
      (Binding.lua_fltk_widget_callback w data) := by
  refine .api fun _ => .api fun _ => .ite (.api fun _ => ?_) (notes_settop _)
  refine .ite (.api fun _ => notes_call 2 _) (.api fun _ => notes_call 2 _)

theorem lua_fltk_fl_idle_notes (udata : Int) :
    Notes note (lua_fltk_fl_idle (noting note) udata) (Binding.lua_fltk_fl_idle udata) := by
  refine .api fun _ => .api fun _ => .api fun _ => .ite ?_ (notes_settop _)
  refine .api fun _ => .api fun _ => .ite ?_ (notes_settop _)
  exact .api fun _ => notes_call 1 _

theorem lua_fltk_menu_item_callback_notes (w : Nat) (data : Int) :
    Notes note (lua_fltk_menu_item_callback (noting note) w data)
      (Binding.lua_fltk_menu_item_callback w data) := by
  refine .api fun _ => .api fun _ => .api fun _ => .ite ?_ (notes_settop _)
  refine .api fun _ => .api fun _ => .ite ?_ (notes_settop _)
  exact .api fun _ => .api fun _ => notes_call 2 _

/-- The half of `lua_fltk_fl_timeout` behind the call. -/
def timeoutRest (udata : Int) (savedTop : Nat) (refTbl : Option Nat) : Bind Unit := do
  match refTbl with
  | some refTbl =>
    lua_pushstring "repeat"
    lua_gettable (.stack refTbl)
    if !(← lua_isboolean (-1)) && !(← lua_toboolean (-1)) then
      luaL_unref LUA_REGISTRYINDEX udata
  | none => pure ()
  lua_settop savedTop

theorem timeout_return_run (udata : Int) (savedTop : Nat) (refTbl : Option Nat) (W : World) :
    (run lua_fltk_fl_timeout_return
      { W with firing := ⟨udata, savedTop, refTbl, W.stack, W.top⟩ :: W.firing }).2 =
        (run (timeoutRest udata savedTop refTbl) W).2 := by
  cases refTbl <;> rfl

theorem api_timeoutRest (udata : Int) (savedTop refTbl : Nat) :
    api (timeoutRest udata savedTop (some refTbl)) = (do
      api (lua_pushstring "repeat")
      api (lua_gettable (.stack refTbl))
      if !(← api (lua_isboolean (-1))) && !(← api (lua_toboolean (-1))) then
        api (luaL_unref LUA_REGISTRYINDEX udata)
      api (lua_settop savedTop)) := by
  simp only [timeoutRest, api_bind, apply_ite api]

/-- What the timer's trampoline does behind its function. -/
def thenReturn (x : Bind Call) : Bind Call := do
  let call ← x
  lua_fltk_fl_timeout_return
  return call

theorem Notes.api_then {α : Type} {z : Bind α} {f : α → Tramp Unit} {g : α → Bind Call}
    (h : ∀ a, Notes note (f a) (thenReturn (g a))) :
    Notes note (Event.api z >>= f) (thenReturn (z >>= g)) :=
  .api h

theorem Notes.ite_then {c : Prop} [Decidable c] {x x' : Tramp Unit} {y y' : Bind Call}
    (h : Notes note x (thenReturn y)) (h' : Notes note x' (thenReturn y')) :
    Notes note (if c then x else x') (thenReturn (if c then y else y')) := by
  split
  exacts [h, h']

/-- The activation is kept while the function runs, and taken up behind it. -/
def record (udata : Int) (savedTop : Nat) (refTbl : Option Nat) (call : Call) : Bind Call := do
  modify fun W => { W with firing := ⟨udata, savedTop, refTbl, W.stack, W.top⟩ :: W.firing }
  return call

/-- Behind the record of a call, what is left of the trampoline is done in the state of the call. -/
theorem run_thenReturn_record (udata : Int) (savedTop : Nat) (refTbl : Option Nat) (call : Call)
    (W : World) : run (thenReturn (record udata savedTop refTbl call)) W =
      (call, (run (timeoutRest udata savedTop refTbl) W).2) :=
  Prod.ext rfl (timeout_return_run udata savedTop refTbl W)

theorem lua_fltk_fl_timeout_notes (udata : Int) :
    Notes note (lua_fltk_fl_timeout (noting note) udata)
      (thenReturn (Binding.lua_fltk_fl_timeout udata)) := by
  refine .api_then fun n => .api_then fun _ => .api_then fun _ => .ite_then ?_ ?_
  · refine .api_then fun tbl => .api_then fun _ => .api_then fun _ => .ite_then ?_ ?_
    · refine .api_then fun _ S => ?_
      rw [← api_timeoutRest]
      show (api (timeoutRest udata n (some tbl)) (lua_call (noting note) 1 0 S).2).2 =
        noted note S
          (run (thenReturn (record udata n (some tbl) _)) (run (Binding.lua_call 1) S.world).2)
      rw [lua_call_noting, run_thenReturn_record]
      rfl
    · intro S
      rw [← api_timeoutRest]
      show _ = noted note S (run (thenReturn (record udata n (some tbl) none)) S.world)
      rw [run_thenReturn_record]
      rfl
  · intro S
    show _ = noted note S (run (thenReturn (record udata n none none)) S.world)
    rw [run_thenReturn_record]
    rfl

end notes

end LuaFltk.Binding.Event
