import LuaFltk.Api.Ref

/-!
# Callbacks of widgets and menu items

The part of `fl_lua_misc.cpp` that ties a Lua function and its data to a widget or a menu
item, and the trampolines FLTK calls. A widget keeps its function in the registry under a
key made from its address, and the reference of its data in `user_data_`; a menu item
keeps the reference of a two-element table in `user_data_`.
-/

namespace LuaFltk.Binding

open Api Api.TableArg

/-- `snprintf` of `"%p%s"`, the macro `MY_PTR_STR`. -/
def MY_PTR_STR (ptr : Nat) (funcName : String) : String :=
  "0x" ++ String.ofList (Nat.toDigits 16 ptr) ++ funcName

/-- `CALLBACK_PTRSTR(w)`. -/
def CALLBACK_PTRSTR (w : Nat) : String := MY_PTR_STR w "callback"

theorem hexDigits_injective {m n : Nat} (h : Nat.toDigits 16 m = Nat.toDigits 16 n) : m = n := by
  have hdigit : ∀ i < 16, ∀ j < 16, Nat.digitChar i = Nat.digitChar j → i = j := by decide
  induction m using Nat.strongRecOn generalizing n with
  | ind m ih =>
    rw [Nat.toDigits_eq_if (b := 16) (by decide), Nat.toDigits_eq_if (n := n) (by decide)] at h
    split at h <;> split at h
    · next hm hn => exact hdigit m hm n hn (by simpa using h)
    · simp [List.cons_eq_append_iff, Nat.toDigits_ne_nil] at h
    · simp [List.append_eq_cons_iff, Nat.toDigits_ne_nil] at h
    · next hm hn =>
      obtain ⟨h1, h2⟩ := List.append_inj' h rfl
      have hq := ih (m / 16) (by omega) h1
      have hr := hdigit _ (Nat.mod_lt m (by decide)) _ (Nat.mod_lt n (by decide)) (by simpa using h2)
      omega

/-- Different widgets have different keys. -/
theorem CALLBACK_PTRSTR_injective {w w' : Nat} (h : CALLBACK_PTRSTR w = CALLBACK_PTRSTR w') :
    w = w' := by
  have := congrArg String.toList h
  simp only [CALLBACK_PTRSTR, MY_PTR_STR, String.toList_append, String.toList_ofList] at this
  exact hexDigits_injective (by simpa using this)

def lua_set_cptr_luafunction (key : String) (luaFunctionIndex : Int) : Bind Unit := do
  lua_pushstring key  -- push the registry key
  lua_pushvalue luaFunctionIndex  -- push lua function index
  lua_settable LUA_REGISTRYINDEX

/-- Pushes the value under `key`; the result tells whether it is a function. -/
def lua_get_cptr_luafunction (key : String) : Bind Int := do
  lua_pushstring key
  lua_gettable LUA_REGISTRYINDEX
  if ← lua_isfunction (-1) then return 0 else return -1

/-- A call the trampolines make: the function and its arguments. -/
abbrev Call := Option (Value × List Value)

/-- `lua_call(L, nargs, 0)`, as the record of the call. -/
def lua_call (nargs : Nat) : Bind Call := do
  let W ← get
  let args := (List.range nargs).map fun i => W.stack (W.top - nargs + i)
  lua_pop (nargs + 1)
  return some (W.stack (W.top - (nargs + 1)), args)

/-- `Fl_Widget::callback(cb, p)` and `Fl_Menu_Item::callback(cb, p)`. -/
def setCallback (w : Nat) (cb : Trampoline) (p : Int) : Bind Unit :=
  modify fun W => { W with
    callback := Function.update W.callback w (some cb)
    user_data := Function.update W.user_data w p }

/-- The trampoline of a widget. -/
def lua_fltk_widget_callback (w : Nat) (data : Int) : Bind Call := do
  let savedTop ← lua_gettop
  let mut call : Call := none
  if (← lua_get_cptr_luafunction (CALLBACK_PTRSTR w)) = 0 then
    tolua_pushusertype w
    if data ≠ 0 then lua_rawgeti LUA_REGISTRYINDEX data else lua_pushnil
    call ← lua_call 2
  lua_settop savedTop
  return call

/-- `if(old_data) luaL_unref(L, LUA_REGISTRYINDEX, old_data)`. -/
def unrefOld (old_data : Int) : Bind Unit := do
  if old_data ≠ 0 then luaL_unref LUA_REGISTRYINDEX old_data

/-- The reference a widget gets for its data. -/
def refData (data : Int) : Bind Int := do
  if ← lua_isnil data then return 0 else luaL_ref LUA_REGISTRYINDEX

def set_fltk_widget_callback (w : Nat) (luaFunc data : Int) : Bind Unit := do
  lua_set_cptr_luafunction (CALLBACK_PTRSTR w) luaFunc
  unrefOld ((← get).user_data w)
  let ref_data ← refData data
  setCallback w .lua_fltk_widget_callback ref_data

/-- The trampoline of a menu item; `w` is the menu. -/
def lua_fltk_menu_item_callback (w : Nat) (data : Int) : Bind Call := do
  let savedTop ← lua_gettop
  let mut call : Call := none
  lua_rawgeti LUA_REGISTRYINDEX data
  if ← lua_istable (-1) then
    lua_rawgeti (.stack (-1)) 1
    if ← lua_isfunction (-1) then
      tolua_pushusertype w
      lua_rawgeti (.stack (-2)) 2  -- userdata
      call ← lua_call 2
  lua_settop savedTop
  return call

/-- The macro `MK_REF_FUNC_DATA`. -/
def MK_REF_FUNC_DATA (luaFunc data : Int) : Bind Int := do
  lua_createtable
  lua_pushnumber 1
  lua_pushvalue luaFunc
  lua_settable (.stack (-3))
  lua_pushnumber 2
  lua_pushvalue data
  lua_settable (.stack (-3))
  luaL_ref LUA_REGISTRYINDEX

def set_fltk_menu_item_callback (w : Nat) (luaFunc data : Int) : Bind Unit := do
  let ref_data ← MK_REF_FUNC_DATA luaFunc data
  unrefOld ((← get).user_data w)
  setCallback w .lua_fltk_menu_item_callback ref_data

/-- What `Fl_Menu_Item::insert` leaves in the item it fills in for the bindings, which pass
no callback and no data. -/
def fillItem (mi : Nat) : Bind Unit :=
  modify fun W => { W with
    shortcut := Function.update W.shortcut mi (.number 0)
    callback := Function.update W.callback mi none
    user_data := Function.update W.user_data mi 0 }

/-- The macro `SET_MENU_ITEM_PARAMS`, for the item `mi` that `menu_at(index)` gives. -/
def SET_MENU_ITEM_PARAMS (mi : Nat) (shortcut luaFunc data : Int) : Bind Unit := do
  let W ← get
  match valueAt W shortcut with
  | .string s => set { W with shortcut := Function.update W.shortcut mi (.string s) }
  | .number n => set { W with shortcut := Function.update W.shortcut mi (.number n) }
  | _ => pure ()
  if !(← lua_isnil luaFunc) then set_fltk_menu_item_callback mi luaFunc data

/-- `fltk_fl_menu_item_add`: `mi` is the item `self->add` filled in. -/
def fltk_fl_menu_item_add (mi : Nat) (shortcut luaFunc data : Int) : Bind Unit := do
  fillItem mi
  SET_MENU_ITEM_PARAMS mi shortcut luaFunc data

/-- `fltk_fl_menu_item_insert`: `mi` is the item `self->insert` filled in. -/
def fltk_fl_menu_item_insert (mi : Nat) (shortcut luaFunc data : Int) : Bind Unit := do
  fillItem mi
  SET_MENU_ITEM_PARAMS mi shortcut luaFunc data

/-- `fltk_fl_menu_add`: `mi` is the item `self->add` filled in. -/
def fltk_fl_menu_add (mi : Nat) (shortcut luaFunc data : Int) : Bind Unit := do
  fillItem mi
  SET_MENU_ITEM_PARAMS mi shortcut luaFunc data

/-- `fltk_fl_menu_insert`: `mi` is the item `self->insert` filled in. -/
def fltk_fl_menu_insert (mi : Nat) (shortcut luaFunc data : Int) : Bind Unit := do
  fillItem mi
  SET_MENU_ITEM_PARAMS mi shortcut luaFunc data

/-- FLTK invokes the callback of an object: a widget itself, or an item of the menu
`menu`. -/
def do_callback (menu o : Nat) : Bind Call := do
  let W ← get
  match W.callback o with
  | none => return none
  | some .lua_fltk_widget_callback => lua_fltk_widget_callback o (W.user_data o)
  | some .lua_fltk_menu_item_callback => lua_fltk_menu_item_callback menu (W.user_data o)

theorem do_callback_widget {W : World} {o : Nat} (menu : Nat)
    (h : W.callback o = some .lua_fltk_widget_callback) :
    run (do_callback menu o) W = run (lua_fltk_widget_callback o (W.user_data o)) W := by
  simp only [do_callback, run_bind, run_get, h]

theorem do_callback_menu_item {W : World} {o : Nat} (menu : Nat)
    (h : W.callback o = some .lua_fltk_menu_item_callback) :
    run (do_callback menu o) W = run (lua_fltk_menu_item_callback menu (W.user_data o)) W := by
  simp only [do_callback, run_bind, run_get, h]

theorem do_callback_none {W : World} {o : Nat} (menu : Nat) (h : W.callback o = none) :
    run (do_callback menu o) W = (none, W) := by
  simp only [do_callback, run_bind, run_get, h]
  rfl

/-! ## What the functions do -/

/-- The call a function value receives; a value that is no function is not called. -/
def callOf (f : Value) (args : List Value) : Call :=
  if f.isfunction then some (f, args) else none

/-- The call is made with what the registry has for the widget. -/
theorem lua_fltk_widget_callback_call (w : Nat) (data : Int) (W : World) :
    (run (lua_fltk_widget_callback w data) W).1 =
      callOf (W.registry.get (.string (CALLBACK_PTRSTR w)))
        [.userdata w, if data = 0 then .nil else W.registry.get (.number data)] := by
  have htop : W.top ≠ W.top + 1 + 1 := by omega
  by_cases hf : (W.registry.get (.string (CALLBACK_PTRSTR w))).isfunction = true
  · by_cases hd : data = 0 <;>
      simp [run, lua_fltk_widget_callback, lua_gettop, lua_get_cptr_luafunction, lua_pushstring,
        lua_gettable, tableAt, push, lua_isfunction, hf, hd, tolua_pushusertype,
        lua_pushnil, lua_rawgeti, rawgeti, lua_call, lua_pop, lua_settop, callOf,
        Function.update_apply, List.range_succ, htop]
  · simp [run, lua_fltk_widget_callback, lua_gettop, lua_get_cptr_luafunction, lua_pushstring,
      lua_gettable, tableAt, push, lua_isfunction, hf, lua_settop, callOf]

/-- A menu item calls element 1 of its table; the data it passes is read from the function
on the stack, not from the table. -/
theorem lua_fltk_menu_item_callback_call {w : Nat} {data : Int} {W : World} {t : TableId}
    (h : W.registry.get (.number data) = .table t) :
    (run (lua_fltk_menu_item_callback w data) W).1 =
      callOf ((W.heap t).get (.number 1))
        [.userdata w, W.misread ((W.heap t).get (.number 1)) 2] := by
  cases hf : ((W.heap t).get (.number 1)).isfunction with
  | true =>
    obtain ⟨f, hv⟩ := Value.isfunction_iff.1 hf
    simp [run, lua_fltk_menu_item_callback, lua_gettop, lua_rawgeti, rawgeti, push,
      lua_istable, h, hv, lua_isfunction, tolua_pushusertype, lua_call, lua_pop, lua_settop,
      callOf, Value.istable, Value.isfunction, Function.update_apply, List.range_succ]
  | false =>
    simp [run, lua_fltk_menu_item_callback, lua_gettop, lua_rawgeti, rawgeti, push,
      lua_istable, h, hf, lua_isfunction, lua_settop, callOf, Value.istable]

/-- `if (old) luaL_unref(..., old)`, on the registry. -/
def releaseOld (reg : Table) (old : Int) : Table :=
  if old = 0 then reg else unrefTable reg old

section releaseOld

variable {reg : Table} {free : List Int} {live : Set Int}

/-- Releasing the old reference: it is none, or it is not free. -/
theorem releaseOld_inv (old : Int) (inv : RefInv reg free live) (h : 0 < old → old ∉ free) :
    ∃ free', RefInv (releaseOld reg old) free' (live \ {old}) := by
  unfold releaseOld
  split
  · exact ⟨free, inv.mono Set.sdiff_subset⟩
  · rcases lt_or_ge 0 old with hpos | hneg
    · exact ⟨old :: free, inv.unref hpos (h hpos)⟩
    · rw [unrefTable_neg (by omega)]
      exact ⟨free, inv.mono Set.sdiff_subset⟩

/-- Releasing a reference changes no other number. -/
theorem get_releaseOld {old s : Int} (h0 : s ≠ 0) (hs : s = old → old < 0) :
    (releaseOld reg old).get (.number s) = reg.get (.number s) := by
  unfold releaseOld
  split
  · rfl
  · by_cases h : s = old
    · rw [unrefTable_neg (hs h)]
    · exact get_unrefTable h0 h

/-- The free list is kept in numbers. -/
theorem get_releaseOld_string (old : Int) (k : String) :
    (releaseOld reg old).get (.string k) = reg.get (.string k) := by
  unfold releaseOld
  split
  exacts [rfl, get_unrefTable_string k]

end releaseOld

/-- The reference `luaL_ref` returns for `v`, and the registry it leaves. -/
def takeRef (reg : Table) (v : Value) : Int × Table :=
  if v = .nil then (LUA_REFNIL, reg) else (newRef reg, refTable reg v)

/-- Nil gets `LUA_REFNIL` and every other value a new reference. -/
theorem taken_takeRef {reg : Table} {free : List Int} {live : Set Int} (inv : RefInv reg free live)
    (hnil : reg.get (.number LUA_REFNIL) = .nil) (v : Value) :
    ∃ live', Taken reg live v (takeRef reg v).1 (takeRef reg v).2 live' := by
  by_cases hv : v = .nil
  · simp only [takeRef, if_pos hv]
    exact ⟨live, hv ▸ taken_nil inv (.inr rfl) hnil⟩
  · simp only [takeRef, if_neg hv]
    exact ⟨_, taken_refTable inv hv⟩

theorem luaL_ref_takeRef {W : World} (ht : 0 < W.top) :
    ∃ stack, run (luaL_ref LUA_REGISTRYINDEX) W =
      ((takeRef W.registry (W.stack (W.top - 1))).1,
        { W with
          registry := (takeRef W.registry (W.stack (W.top - 1))).2
          top := W.top - 1
          stack := stack }) := by
  by_cases h : W.stack (W.top - 1) = .nil
  · exact ⟨W.stack, by simp [luaL_ref_run_nil h, takeRef, h]⟩
  · exact ⟨_, by rw [luaL_ref_run h ht]; simp [takeRef, h]; rfl⟩

/-- The registry after a registration of `f` for the widget `w` with old reference `old`,
before the data gets its reference. -/
def widgetRegistry (W : World) (w : Nat) (f : Value) : Table :=
  releaseOld (W.registry.set (.string (CALLBACK_PTRSTR w)) f) (W.user_data w)

/-- The function is stored under its key and nothing else is changed. -/
theorem lua_set_cptr_luafunction_run {W : World} {key : String} {idx : Nat}
    (h : 0 < idx) (ht : idx ≤ W.top) :
    run (lua_set_cptr_luafunction key idx) W = ((),
      { W with
        registry := W.registry.set (.string key) (valueAt W idx)
        stack := Function.update (Function.update W.stack W.top (.string key)) (W.top + 1)
          (valueAt W idx) }) := by
  have hkey : valueAt (run (lua_pushstring key) W).2 idx = valueAt W idx := by
    rw [valueAt_stack h (by simp [run, lua_pushstring, push]; omega), valueAt_stack h ht]
    simp [run, lua_pushstring, push, Function.update_apply]
    omega
  rw [lua_set_cptr_luafunction, run_bind, run_bind]
  simp only [lua_pushvalue, run_bind, run_get, hkey]
  simp [run, lua_pushstring, push, lua_settable, lua_pop, setTableAt]

/-- The old data is released where there is some. -/
theorem unrefOld_run (old : Int) (W : World) :
    run (unrefOld old) W = ((),
      { W with
        registry := releaseOld W.registry old
        stack := if 0 < old then Function.update W.stack W.top (.number old) else W.stack }) := by
  by_cases h : old = 0
  · subst h
    simp [unrefOld, releaseOld, run_pure]
  · have hpos : 0 ≤ old ↔ 0 < old := by omega
    simp [unrefOld, releaseOld, h, luaL_unref_run, hpos]

/-- The reference a widget gets for its data, and the registry that leaves. -/
def takeData (reg : Table) (W : World) (data : Nat) : Int × Table :=
  if data ≠ 0 ∧ valueAt W data = .nil then (0, reg) else takeRef reg (W.stack (W.top - 1))

/-- The data is referred to from the registry if it was given. -/
theorem refData_run {W : World} (data : Nat) (ht : 0 < W.top) (hd : data ≤ W.top)
    (h0 : W.stack W.top ≠ .nil) :
    ∃ stack top, run (refData data) W = ((takeData W.registry W data).1,
      { W with registry := (takeData W.registry W data).2, stack := stack, top := top }) := by
  have hnil : run (lua_isnil data) W = (decide (data ≠ 0 ∧ valueAt W data = .nil), W) := by
    rcases Nat.eq_zero_or_pos data with rfl | hpos
    · simpa [lua_isnil_run_zero] using h0
    · rw [lua_isnil_run hpos hd]
      cases h : valueAt W data <;> simp [Value.isnil, hpos.ne']
  rw [refData, run_bind, hnil]
  by_cases h : data ≠ 0 ∧ valueAt W data = .nil
  · exact ⟨W.stack, W.top, by simp [takeData, h, run_pure]⟩
  · obtain ⟨stack, hrun⟩ := luaL_ref_takeRef ht
    simp only [takeData, h, decide_false, Bool.false_eq_true, hrun, if_false]
    exact ⟨stack, _, rfl⟩

/-- All that a registration leaves behind. -/
theorem set_fltk_widget_callback_run {W : World} {w luaFunc data : Nat}
    (hf : 0 < luaFunc) (hft : luaFunc ≤ W.top) (hd : data ≤ W.top) :
    ∃ stack top, (run (set_fltk_widget_callback w luaFunc data) W).2 = { W with
      registry := (takeData (widgetRegistry W w (valueAt W luaFunc)) W data).2
      stack := stack
      top := top
      callback := Function.update W.callback w (some .lua_fltk_widget_callback)
      user_data := Function.update W.user_data w
        (takeData (widgetRegistry W w (valueAt W luaFunc)) W data).1 } := by
  rw [set_fltk_widget_callback, run_bind, lua_set_cptr_luafunction_run hf hft]
  simp only [run_bind, run_get, unrefOld_run]
  generalize hS : (if 0 < W.user_data w then
      Function.update (Function.update (Function.update W.stack W.top
        (Value.string (CALLBACK_PTRSTR w))) (W.top + 1) (valueAt W luaFunc)) W.top
        (Value.number (W.user_data w))
    else Function.update (Function.update W.stack W.top
      (Value.string (CALLBACK_PTRSTR w))) (W.top + 1) (valueAt W luaFunc)) = S
  have hbelow : ∀ i < W.top, S i = W.stack i := by
    intro i hi
    rw [← hS]
    split <;> simp [hi.ne, show i ≠ W.top + 1 by omega]
  -- the slot at the top holds the key, or the number `luaL_unref` pushed
  have htop : S W.top ≠ .nil := by
    rw [← hS]
    split <;> simp
  generalize hV : ({ W with
    stack := S
    registry := releaseOld (W.registry.set (.string (CALLBACK_PTRSTR w)) (valueAt W luaFunc))
      (W.user_data w) } : World) = V
  have hVtop : V.top = W.top := by rw [← hV]
  have hdata : data ≠ 0 → valueAt V data = valueAt W data := by
    intro h0
    rw [valueAt_stack (by omega) (by omega), valueAt_stack (by omega) hd, ← hV]
    exact hbelow _ (by omega)
  obtain ⟨stack, top, hrun⟩ := refData_run (W := V) data (by omega) (by omega)
    (by rw [← hV]; exact htop)
  refine ⟨stack, top, ?_⟩
  rw [hrun]
  have hcond : (data ≠ 0 ∧ valueAt V data = .nil) ↔ (data ≠ 0 ∧ valueAt W data = .nil) :=
    and_congr_right fun h0 => by rw [hdata h0]
  have hlast : V.stack (V.top - 1) = W.stack (W.top - 1) := by
    rw [← hV]
    exact hbelow _ (by simp only; omega)
  have hreg : V.registry = widgetRegistry W w (valueAt W luaFunc) := by rw [← hV]; rfl
  simp only [takeData, hcond, hlast, hreg]
  subst hV
  rfl

/-- The argument a caller gave: nil when it was omitted. -/
def given (W : World) (idx : Nat) : Value := if idx = 0 then .nil else valueAt W idx

/-- The value at `idx` once `n` values have been pushed: index 0 is then a slot higher up. -/
def argAfter (W : World) (n idx : Nat) : Value :=
  if idx = 0 then W.stack (W.top + n) else valueAt W idx

/-- What is pushed in between is only read by an index that points at it. -/
theorem argAfter_eq {V W : World} {n idx : Nat} (hi : idx ≤ W.top) (htop : V.top = W.top + n)
    (hs : ∀ i, i < W.top ∨ i = W.top + n → V.stack i = W.stack i) :
    valueAt V idx = argAfter W n idx := by
  rcases Nat.eq_zero_or_pos idx with rfl | hpos
  · exact (congrArg V.stack htop).trans (hs _ (.inr rfl))
  · rw [argAfter, if_neg (by omega), valueAt_stack hpos (by omega), valueAt_stack hpos hi]
    exact hs _ (.inl (by omega))

/-- One field of the record on top: push its key, push its value, `lua_settable`. -/
theorem setField_run {W : World} {n : Int} {idx : Nat} {t : TableId} (hi : idx ≤ W.top)
    (ht : 0 < W.top) (h : W.stack (W.top - 1) = .table t) :
    run (lua_settable (.stack (-3))) (run (lua_pushvalue idx) (run (lua_pushnumber n) W).2).2 =
      ((), { W with
        stack := Function.update (Function.update W.stack W.top (.number n)) (W.top + 1)
          (argAfter W 1 idx)
        heap := Function.update W.heap t ((W.heap t).set (.number n) (argAfter W 1 idx)) }) := by
  have hv : valueAt (run (lua_pushnumber n) W).2 idx = argAfter W 1 idx := by
    refine argAfter_eq hi rfl fun i hi => ?_
    have : i ≠ W.top := by omega
    simp [run, lua_pushnumber, push, this]
  have hk : W.top - 1 ≠ W.top ∧ W.top - 1 ≠ W.top + 1 := by omega
  simp only [lua_pushvalue, run_bind, run_get, hv]
  simp [run, lua_pushnumber, push, lua_settable, lua_pop, setTableAt, hk, h]

/-- The data `MK_REF_FUNC_DATA` stores: the stale slot index 0 reaches is the one the
function was pushed to. -/
def menuData (W : World) (luaFunc data : Nat) : Value :=
  if data = 0 then argAfter W 2 luaFunc else valueAt W data

/-- The record `MK_REF_FUNC_DATA` makes. -/
def menuRecord (W : World) (luaFunc data : Nat) : Table :=
  (Table.empty.set (.number 1) (argAfter W 2 luaFunc)).set (.number 2) (menuData W luaFunc data)

/-- A new table for the function and the data, and a reference to it. -/
theorem MK_REF_FUNC_DATA_run {W : World} {luaFunc data : Nat}
    (hft : luaFunc ≤ W.top) (hd : data ≤ W.top) :
    ∃ stack, run (MK_REF_FUNC_DATA luaFunc data) W = (newRef W.registry,
      { W with
        stack := stack
        registry := refTable W.registry (.table (.record W.nrecords))
        nrecords := W.nrecords + 1
        heap := Function.update W.heap (.record W.nrecords) (menuRecord W luaFunc data) }) := by
  have hW : W.top ≠ W.top + 1 + 1 ∧ W.top + 1 + 1 ≠ W.top := by omega
  rw [MK_REF_FUNC_DATA]
  simp only [run_bind]
  generalize hV : (run lua_createtable W).2 = V
  have hstack : V.stack = Function.update W.stack W.top (.table (.record W.nrecords)) := by
    rw [← hV]; rfl
  have htop : V.top = W.top + 1 := by rw [← hV]; rfl
  have hf : argAfter V 1 luaFunc = argAfter W 2 luaFunc := by
    rcases Nat.eq_zero_or_pos luaFunc with rfl | hpos
    · simp [argAfter, hstack, htop, hW]
    · simp only [argAfter, if_neg hpos.ne']
      rw [valueAt_stack hpos (by omega), valueAt_stack hpos hft, hstack]
      exact Function.update_of_ne (by omega) _ _
  rw [setField_run (W := V) (t := .record W.nrecords) (by omega) (by omega)
    (by simp [hstack, htop]), hf]
  generalize hV' : ({ V with
    stack := Function.update (Function.update V.stack V.top (Value.number 1)) (V.top + 1)
      (argAfter W 2 luaFunc)
    heap := Function.update V.heap (.record W.nrecords)
      ((V.heap (.record W.nrecords)).set (.number 1) (argAfter W 2 luaFunc)) } : World) = V'
  have hstack' : V'.stack = Function.update (Function.update V.stack (W.top + 1) (.number 1))
      (W.top + 1 + 1) (argAfter W 2 luaFunc) := by rw [← hV', htop]
  have htop' : V'.top = W.top + 1 := by rw [← hV', htop]
  have hd' : argAfter V' 1 data = menuData W luaFunc data := by
    rcases Nat.eq_zero_or_pos data with rfl | hpos
    · simp [argAfter, menuData, hstack', htop']
    · simp only [argAfter, if_neg hpos.ne', menuData]
      rw [valueAt_stack hpos (by omega), valueAt_stack hpos hd, hstack', hstack,
        Function.update_of_ne (by omega), Function.update_of_ne (by omega),
        Function.update_of_ne (by omega)]
  rw [setField_run (W := V') (t := .record W.nrecords) (by omega) (by omega)
    (by simp [hstack', htop', hstack, hW]), hd']
  rw [luaL_ref_run (by simp [hstack', htop', hstack, hW]) (by simp only; omega)]
  refine ⟨_, Prod.ext ?_ (World.ext rfl ?_ ?_ ?_ ?_ ?_ ?_ ?_ ?_ ?_ ?_ ?_ ?_)⟩ <;>
    simp [htop'] <;> subst hV' hV <;> simp [run, lua_createtable, push, menuRecord, hW]

/-- The record of the item replaces the one it had. -/
theorem set_fltk_menu_item_callback_run {W : World} {w luaFunc data : Nat}
    (hft : luaFunc ≤ W.top) (hd : data ≤ W.top) :
    ∃ stack, (run (set_fltk_menu_item_callback w luaFunc data) W).2 = { W with
      stack := stack
      registry :=
        releaseOld (refTable W.registry (.table (.record W.nrecords))) (W.user_data w)
      nrecords := W.nrecords + 1
      heap := Function.update W.heap (.record W.nrecords) (menuRecord W luaFunc data)
      callback := Function.update W.callback w (some .lua_fltk_menu_item_callback)
      user_data := Function.update W.user_data w (newRef W.registry) } := by
  obtain ⟨stack, hrun⟩ := MK_REF_FUNC_DATA_run hft hd
  rw [set_fltk_menu_item_callback, run_bind, hrun]
  simp only [run_bind, run_get, unrefOld_run]
  exact ⟨_, rfl⟩

/-- Whether `SET_MENU_ITEM_PARAMS` registers anything: the slot of `luaFunc` is not nil. -/
def hasFunc (W : World) (luaFunc : Nat) : Prop := valueAt W luaFunc ≠ .nil

instance (W : World) (luaFunc : Nat) : Decidable (hasFunc W luaFunc) :=
  inferInstanceAs (Decidable (_ ≠ _))

/-- Without a function the item keeps the callback it has. -/
theorem SET_MENU_ITEM_PARAMS_run {W : World} (mi : Nat) {shortcut luaFunc data : Nat}
    (hft : luaFunc ≤ W.top) :
    ∃ short, run (SET_MENU_ITEM_PARAMS mi shortcut luaFunc data) W =
      if hasFunc W luaFunc then
        run (set_fltk_menu_item_callback mi luaFunc data) { W with shortcut := short }
      else ((), { W with shortcut := short }) := by
  have hnil : ∀ short, run (lua_isnil luaFunc) { W with shortcut := short } =
      (!decide (hasFunc W luaFunc), { W with shortcut := short }) := by
    intro short
    rcases Nat.eq_zero_or_pos luaFunc with rfl | hpos
    · cases h : W.stack W.top <;> simp [lua_isnil_run_zero, Value.isnil, hasFunc, h]
    · rw [lua_isnil_run (W := { W with shortcut := short }) hpos hft]
      have hv : valueAt { W with shortcut := short } luaFunc = valueAt W luaFunc := by
        rw [valueAt_stack hpos hft, valueAt_stack (W := { W with shortcut := short }) hpos hft]
      rw [hv]
      cases h : valueAt W luaFunc <;> simp [Value.isnil, hasFunc, h]
  have hrest : ∀ short, run (do
      if !(← lua_isnil luaFunc) then set_fltk_menu_item_callback mi luaFunc data)
        { W with shortcut := short } =
      if hasFunc W luaFunc then
        run (set_fltk_menu_item_callback mi luaFunc data) { W with shortcut := short }
      else ((), { W with shortcut := short }) := by
    intro short
    rw [run_bind, hnil]
    by_cases h : hasFunc W luaFunc <;> simp [h, run_pure]
  rw [SET_MENU_ITEM_PARAMS, run_bind, run_get]
  dsimp only
  cases valueAt W shortcut with
  | string s => exact ⟨_, hrest (Function.update W.shortcut mi (.string s))⟩
  | number n => exact ⟨_, hrest (Function.update W.shortcut mi (.number n))⟩
  | _ => exact ⟨_, hrest W.shortcut⟩

/-- The trampolines of objects change their own frame only. -/
theorem do_callback_run (menu o : Nat) (W : World) :
    ∃ stack top, (run (do_callback menu o) W).2 = { W with stack := stack, top := top } := by
  apply exists_frame
  rcases hcb : W.callback o with _ | (_ | _)
  · rw [do_callback_none menu hcb]
  · rw [do_callback_widget menu hcb]
    by_cases hf : (W.registry.get (.string (CALLBACK_PTRSTR o))).isfunction = true <;>
      by_cases hd : W.user_data o = 0 <;>
      simp [World.frameless, run, lua_fltk_widget_callback, lua_gettop, lua_get_cptr_luafunction,
        lua_pushstring, lua_gettable, tableAt, push, lua_isfunction, hf, hd, tolua_pushusertype,
        lua_pushnil, lua_rawgeti, rawgeti, lua_call, lua_pop, lua_settop]
  · rw [do_callback_menu_item menu hcb]
    cases ht : (W.registry.get (.number (W.user_data o))).istable with
    | true =>
      obtain ⟨t, hv⟩ := Value.istable_iff.1 ht
      by_cases hf : ((W.heap t).get (.number 1)).isfunction = true <;>
        simp [World.frameless, run, lua_fltk_menu_item_callback, lua_gettop, lua_rawgeti, rawgeti,
          push, lua_istable, hv, hf, lua_isfunction, tolua_pushusertype, lua_call, lua_pop,
          lua_settop, Value.istable]
    | false =>
      simp [World.frameless, run, lua_fltk_menu_item_callback, lua_gettop, lua_rawgeti, rawgeti,
        push, lua_istable, ht, lua_settop]

end LuaFltk.Binding
