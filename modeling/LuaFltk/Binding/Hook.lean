import LuaFltk.Binding.Callback

/-!
# The hooks of a widget

A widget has up to three hooks that a script can set: its callback, the link function of a
help view, and the user handler of a group. `fl_lua_misc.cpp` keeps their Lua functions in
the registry, each under a key made from the address of the widget and a suffix. A help view
is a group, and so has all three.
-/

namespace LuaFltk.Binding

open Api Api.TableArg

/-- `LINK_PTRSTR(w)`. -/
def LINK_PTRSTR (w : Nat) : String := MY_PTR_STR w "link"

/-- The kinds of hooks. -/
inductive Hook where
  | callback
  | link
  | user_handler
  deriving DecidableEq, Repr

/-- The key a hook's functions use for its Lua function. -/
def Hook.key : Hook → Nat → String
  | callback, w => CALLBACK_PTRSTR w
  | link, w => LINK_PTRSTR w
  | user_handler, w => LINK_PTRSTR w

/-- The state with the fields `link_` of the help views and `user_handler_` of the groups, of
which it matters whether they hold the trampoline. -/
structure Hooks where
  world : World
  link : Nat → Bool
  user_handler : Nat → Bool

/-- Use a function that works on the rest of the state. -/
def Hooks.exec (H : Hooks) (x : Bind Unit) : Hooks := { H with world := (run x H.world).2 }

def Hooks.set_fltk_widget_callback (H : Hooks) (w luaFunc data : Nat) : Hooks :=
  H.exec (Binding.set_fltk_widget_callback w luaFunc data)

def Hooks.set_fltk_help_view_link (H : Hooks) (w luaFunc : Nat) : Hooks :=
  let H := H.exec (lua_set_cptr_luafunction (LINK_PTRSTR w) luaFunc)
  { H with link := Function.update H.link w true }

def Hooks.set_fltk_fl_widget_user_handler (H : Hooks) (w luaFunc : Nat) : Hooks :=
  let H := H.exec (lua_set_cptr_luafunction (LINK_PTRSTR w) luaFunc)
  { H with user_handler := Function.update H.user_handler w true }

/-- Whether FLTK calls the trampoline of a hook. -/
def Hooks.installed (H : Hooks) : Hook → Nat → Bool
  | .callback, w => H.world.callback w = some .lua_fltk_widget_callback
  | .link, w => H.link w
  | .user_handler, w => H.user_handler w

/-- The function the trampolines get for a key. -/
def lookup (W : World) (key : String) : Option Value :=
  let r := run (lua_get_cptr_luafunction key) W
  if r.1 = 0 then some (valueAt r.2 (-1)) else none

/-- The Lua function a hook invokes. -/
def Hooks.invokes (H : Hooks) (k : Hook) (w : Nat) : Option Value :=
  if H.installed k w then lookup H.world (k.key w) else none

/-- A registration: the kind of hook, the widget, and the stack it is called with. Arguments
are indices into it, and the data (of a callback only) may be omitted. -/
structure SetHook where
  kind : Hook
  w : Nat
  stack : Nat → Value
  top : Nat
  luaFunc : Nat
  data : Nat
  luaFunc_pos : 0 < luaFunc
  luaFunc_le : luaFunc ≤ top
  data_le : data ≤ top

/-- The function that is registered. -/
def SetHook.func (r : SetHook) : Value := r.stack (r.luaFunc - 1)

/-- The state with the stack of a registration. -/
def Hooks.withFrame (H : Hooks) (r : SetHook) : Hooks :=
  { H with world := { H.world with stack := r.stack, top := r.top } }

def Hooks.register (H : Hooks) (r : SetHook) : Hooks :=
  match r.kind with
  | .callback => (H.withFrame r).set_fltk_widget_callback r.w r.luaFunc r.data
  | .link => (H.withFrame r).set_fltk_help_view_link r.w r.luaFunc
  | .user_handler => (H.withFrame r).set_fltk_fl_widget_user_handler r.w r.luaFunc

/-! ## The keys -/

theorem MY_PTR_STR_toList (ptr : Nat) (funcName : String) :
    (MY_PTR_STR ptr funcName).toList = '0' :: 'x' :: (Nat.toDigits 16 ptr ++ funcName.toList) := by
  simp [MY_PTR_STR, String.toList_append, String.toList_ofList]

/-- Two widgets have two keys. -/
theorem LINK_PTRSTR_injective {w w' : Nat} (h : LINK_PTRSTR w = LINK_PTRSTR w') : w = w' := by
  have hl := congrArg String.toList h
  simp only [LINK_PTRSTR, MY_PTR_STR_toList, List.cons.injEq, true_and] at hl
  exact hexDigits_injective (List.append_cancel_right hl)

/-- The two kinds of keys differ in their ends. -/
theorem CALLBACK_PTRSTR_ne_LINK_PTRSTR (w w' : Nat) : CALLBACK_PTRSTR w ≠ LINK_PTRSTR w' := by
  intro h
  have hl := congrArg String.toList h
  simp only [CALLBACK_PTRSTR, LINK_PTRSTR, MY_PTR_STR_toList, List.cons.injEq, true_and] at hl
  -- the suffixes end in `back` and `link`
  have hback : "callback".toList = "call".toList ++ "back".toList := rfl
  rw [hback, ← List.append_assoc] at hl
  have hend := (List.append_inj' hl rfl).2
  exact absurd hend (by decide)

/-- Two hooks that share a function: the link function and the user handler of a widget. -/
def Hook.partner : Hook → Option Hook
  | callback => none
  | link => some user_handler
  | user_handler => some link

/-- Two hooks share a key only in one widget, and only the two that the source gives one name. -/
theorem Hook.key_eq_iff {k k' : Hook} {w w' : Nat} :
    k.key w = k'.key w' ↔ w = w' ∧ (k = k' ∨ k.partner = some k') := by
  constructor
  · intro h
    cases k <;> cases k' <;> simp only [Hook.key] at h
    case callback.callback => exact ⟨CALLBACK_PTRSTR_injective h, .inl rfl⟩
    case callback.link => exact absurd h (CALLBACK_PTRSTR_ne_LINK_PTRSTR _ _)
    case callback.user_handler => exact absurd h (CALLBACK_PTRSTR_ne_LINK_PTRSTR _ _)
    case link.callback => exact absurd h.symm (CALLBACK_PTRSTR_ne_LINK_PTRSTR _ _)
    case user_handler.callback => exact absurd h.symm (CALLBACK_PTRSTR_ne_LINK_PTRSTR _ _)
    all_goals exact ⟨LINK_PTRSTR_injective h, by simp [Hook.partner]⟩
  · rintro ⟨rfl, rfl | h⟩
    · rfl
    · cases k <;> simp only [Hook.partner, Option.some.injEq, reduceCtorEq] at h <;> subst h <;> rfl

/-! ## What a registration changes -/

/-- A value as a function that can be called. -/
def asFunction (v : Value) : Option Value := if v.isfunction then some v else none

theorem lookup_eq (W : World) (key : String) :
    lookup W key = asFunction (W.registry.get (.string key)) := by
  cases hf : (W.registry.get (.string key)).isfunction <;>
    simp [lookup, asFunction, run, lua_get_cptr_luafunction, lua_pushstring, push, lua_gettable,
      tableAt, lua_isfunction, hf]

/-- Data is kept under numbers. -/
theorem takeData_string (reg : Table) (W : World) (data : Nat) (key : String) :
    (takeData reg W data).2.get (.string key) = reg.get (.string key) := by
  unfold takeData takeRef
  split
  · rfl
  · split
    · rfl
    · exact get_refTable_string key

/-- What the registration of a callback comes to. -/
theorem widgetCallback_run (H : Hooks) (r : SetHook) :
    ∃ stack top, (run (Binding.set_fltk_widget_callback r.w r.luaFunc r.data)
      (H.withFrame r).world).2 = { (H.withFrame r).world with
        registry := (takeData (widgetRegistry (H.withFrame r).world r.w r.func)
          (H.withFrame r).world r.data).2
        stack := stack
        top := top
        callback := Function.update H.world.callback r.w (some .lua_fltk_widget_callback)
        user_data := Function.update H.world.user_data r.w
          (takeData (widgetRegistry (H.withFrame r).world r.w r.func)
            (H.withFrame r).world r.data).1 } := by
  have hfunc : valueAt (H.withFrame r).world r.luaFunc = r.func :=
    valueAt_stack r.luaFunc_pos r.luaFunc_le
  rw [← hfunc]
  exact set_fltk_widget_callback_run r.luaFunc_pos r.luaFunc_le r.data_le

/-- A registration writes the key of its hook, and no other one. -/
theorem register_get (H : Hooks) (r : SetHook) (key : String) :
    (H.register r).world.registry.get (.string key) =
      if key = r.kind.key r.w then r.func else H.world.registry.get (.string key) := by
  have hfunc : valueAt (H.withFrame r).world r.luaFunc = r.func :=
    valueAt_stack r.luaFunc_pos r.luaFunc_le
  have hset : ∀ k : String, (Table.set H.world.registry (.string k) r.func).get (.string key) =
      if key = k then r.func else H.world.registry.get (.string key) := by
    intro k
    by_cases h : key = k
    · rw [h, Table.get_set_self, if_pos rfl]
    · rw [Table.get_set_ne _ _ (by simpa using h), if_neg h]
  unfold Hooks.register
  cases hk : r.kind with
  | callback =>
    obtain ⟨stack, top, hrun⟩ := widgetCallback_run H r
    simp only [Hooks.set_fltk_widget_callback, Hooks.exec, hrun]
    rw [takeData_string, widgetRegistry, get_releaseOld_string]
    exact hset _
  | link =>
    simp only [Hooks.set_fltk_help_view_link, Hooks.exec]
    rw [lua_set_cptr_luafunction_run r.luaFunc_pos r.luaFunc_le, hfunc]
    exact hset _
  | user_handler =>
    simp only [Hooks.set_fltk_fl_widget_user_handler, Hooks.exec]
    rw [lua_set_cptr_luafunction_run r.luaFunc_pos r.luaFunc_le, hfunc]
    exact hset _

/-- A registration installs its hook, and no other one. -/
theorem register_installed (H : Hooks) (r : SetHook) (k : Hook) (w : Nat) :
    (H.register r).installed k w = (decide (k = r.kind ∧ w = r.w) || H.installed k w) := by
  unfold Hooks.register
  cases hk : r.kind with
  | callback =>
    obtain ⟨stack, top, hrun⟩ := widgetCallback_run H r
    cases k <;>
      simp only [Hooks.set_fltk_widget_callback, Hooks.exec, hrun, Hooks.installed,
        Function.update_apply] <;>
      by_cases hw : w = r.w <;> simp [hw, Hooks.withFrame]
  | link =>
    simp only [Hooks.set_fltk_help_view_link, Hooks.exec]
    rw [lua_set_cptr_luafunction_run r.luaFunc_pos r.luaFunc_le]
    cases k with
    | callback =>
      rw [decide_eq_false (by simp), Bool.false_or]
      rfl
    | link =>
      by_cases hw : w = r.w <;> simp [Hooks.installed, Function.update_apply, hw, Hooks.withFrame]
    | user_handler => simp [Hooks.installed, Hooks.withFrame]
  | user_handler =>
    simp only [Hooks.set_fltk_fl_widget_user_handler, Hooks.exec]
    rw [lua_set_cptr_luafunction_run r.luaFunc_pos r.luaFunc_le]
    cases k with
    | callback =>
      rw [decide_eq_false (by simp), Bool.false_or]
      rfl
    | link => simp [Hooks.installed, Hooks.withFrame]
    | user_handler =>
      by_cases hw : w = r.w <;> simp [Hooks.installed, Function.update_apply, hw, Hooks.withFrame]

/-- Every hook but the one registered invokes what it did. -/
def LeavesOthers (H : Hooks) (r : SetHook) : Prop :=
  ∀ k w, ¬ (k = r.kind ∧ w = r.w) → (H.register r).invokes k w = H.invokes k w

/-- The hook that shares the key is not installed on the widget, or invokes the function
being registered. -/
def Apart (H : Hooks) (r : SetHook) : Prop :=
  ∀ k, r.kind.partner = some k → H.installed k r.w = true → H.invokes k r.w = asFunction r.func

/-- One registration leaves the others alone if their keys are apart. -/
theorem leavesOthers_iff (H : Hooks) (r : SetHook) : LeavesOthers H r ↔ Apart H r := by
  have hother : ∀ k w, ¬ (k = r.kind ∧ w = r.w) → (H.register r).invokes k w =
      if H.installed k w then
        if w = r.w ∧ r.kind.partner = some k then asFunction r.func
        else lookup H.world (k.key w)
      else none := by
    intro k w hne
    have hkey : k.key w = r.kind.key r.w ↔ w = r.w ∧ r.kind.partner = some k := by
      rw [eq_comm, Hook.key_eq_iff]
      constructor
      · rintro ⟨hw, h | h⟩
        · exact absurd ⟨h.symm, hw.symm⟩ hne
        · exact ⟨hw.symm, h⟩
      · rintro ⟨hw, h⟩
        exact ⟨hw.symm, .inr h⟩
    unfold Hooks.invokes
    rw [register_installed, decide_eq_false hne, Bool.false_or, lookup_eq, register_get]
    simp only [hkey, lookup_eq]
    split
    · split <;> rfl
    · rfl
  constructor
  · intro h k hp hi
    have hne : ¬ (k = r.kind ∧ r.w = r.w) := by
      rintro ⟨rfl, -⟩
      revert hp
      cases r.kind <;> simp [Hook.partner]
    rw [← h k r.w hne, hother k r.w hne, if_pos hi, if_pos ⟨rfl, hp⟩]
  · intro h k w hne
    rw [hother k w hne]
    by_cases hi : H.installed k w = true
    · rw [if_pos hi]
      split
      · next hp =>
        obtain ⟨rfl, hp⟩ := hp
        exact (h k hp hi).symm
      · rw [Hooks.invokes, if_pos hi]
    · rw [if_neg hi, Hooks.invokes, if_neg hi]

/-- The registered hook invokes the function it was given. -/
theorem register_invokes_self (H : Hooks) (r : SetHook) :
    (H.register r).invokes r.kind r.w = asFunction r.func := by
  rw [Hooks.invokes, register_installed, decide_eq_true ⟨rfl, rfl⟩, Bool.true_or, if_pos rfl,
    lookup_eq, register_get, if_pos rfl]

/-- Every registration of a sequence leaves the other hooks as they are. -/
def AllLeaveOthers : List SetHook → Hooks → Prop
  | [], _ => True
  | r :: rs, H => LeavesOthers H r ∧ AllLeaveOthers rs (H.register r)

/-- Every registration of a sequence finds its hook apart. -/
def AllApart : List SetHook → Hooks → Prop
  | [], _ => True
  | r :: rs, H => Apart H r ∧ AllApart rs (H.register r)

/-- By induction on the registrations. -/
theorem allLeaveOthers_iff (rs : List SetHook) (H : Hooks) :
    AllLeaveOthers rs H ↔ AllApart rs H := by
  induction rs generalizing H with
  | nil => exact Iff.rfl
  | cons r rs ih => exact and_congr (leavesOthers_iff H r) (ih (H.register r))

/-- In a sequence whose registrations find their hooks apart, a hook invokes the function of
its last registration. -/
theorem invokes_last (rs : List SetHook) (H : Hooks) (r : SetHook)
    (hapart : AllApart rs (H.register r)) (hlast : ∀ r' ∈ rs, ¬ (r.kind = r'.kind ∧ r.w = r'.w)) :
    (rs.foldl Hooks.register (H.register r)).invokes r.kind r.w = asFunction r.func := by
  suffices hrun : ∀ H' : Hooks, AllApart rs H' → H'.invokes r.kind r.w = asFunction r.func →
      (rs.foldl Hooks.register H').invokes r.kind r.w = asFunction r.func from
    hrun _ hapart (register_invokes_self H r)
  clear hapart
  induction rs with
  | nil => exact fun H' _ h => h
  | cons r' rs ih =>
    intro H' hapart hself
    refine ih (fun r'' hr => hlast r'' (List.mem_cons_of_mem _ hr)) _ hapart.2 ?_
    rw [(leavesOthers_iff H' r').2 hapart.1 _ _ (hlast r' List.mem_cons_self), hself]

/-- The keys of two hooks are the same exactly for one hook, or for the link function and the
user handler of one widget; and the registrations of a sequence leave the other hooks alone
exactly when each finds its hook apart. -/
theorem hooks_apart_iff (rs : List SetHook) (H : Hooks) :
    (∀ (k k' : Hook) (w w' : Nat),
      k.key w = k'.key w' ↔ w = w' ∧ (k = k' ∨ k.partner = some k')) ∧
    (AllLeaveOthers rs H ↔ AllApart rs H) :=
  ⟨fun _ _ _ _ => Hook.key_eq_iff, allLeaveOthers_iff rs H⟩

/-- A help view at address 1 with nothing registered yet. -/
def freshView : Hooks where
  world :=
    { stack := fun _ => .nil
      top := 0
      registry := Table.empty
      heap := fun _ => Table.empty
      nrecords := 0
      callback := fun _ => none
      user_data := fun _ => 0
      idles := []
      timeouts := []
      firing := []
      nnodes := 0
      shortcut := fun _ => .nil
      misread := fun _ _ => .nil }
  link _ := false
  user_handler _ := false

/-- The registration of the function `f` for the help view. -/
def viewHook (kind : Hook) (f : Nat) : SetHook where
  kind := kind
  w := 1
  stack _ := .function f
  top := 1
  luaFunc := 1
  data := 0
  luaFunc_pos := by decide
  luaFunc_le := le_refl 1
  data_le := by decide

/-- A user handler replaces the link function of a help view. -/
theorem user_handler_replaces_link :
    (freshView.register (viewHook .link 7)).invokes .link 1 = some (.function 7) ∧
      ((freshView.register (viewHook .link 7)).register (viewHook .user_handler 8)).invokes .link 1 =
        some (.function 8) ∧
      ¬ AllLeaveOthers [viewHook .link 7, viewHook .user_handler 8] freshView := by
  have h7 : (freshView.register (viewHook .link 7)).invokes .link 1 = some (.function 7) := by
    decide +kernel
  have h8 : ((freshView.register (viewHook .link 7)).register
      (viewHook .user_handler 8)).invokes .link 1 = some (.function 8) := by
    decide +kernel
  refine ⟨h7, h8, ?_⟩
  rintro ⟨-, hother, -⟩
  have := hother .link 1 (by simp [viewHook])
  rw [h7, h8] at this
  exact absurd this (by decide)

end LuaFltk.Binding
