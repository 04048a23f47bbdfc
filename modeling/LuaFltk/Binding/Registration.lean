import LuaFltk.Binding.Callback

/-!
# Which function a callback calls

Runs of registrations on any number of widgets and menu items. Each registration may find
any stack; in between the program may do anything that leaves the registry, the records
and the objects alone. `Good` is the invariant: the references the objects hold are in use
and are held once. From it the call that an object's callback makes is the one its last
registration left, whatever happened to other objects since.
-/

namespace LuaFltk.Binding

open Api

/-- The ways to register a callback. An argument is its stack index, 0 when omitted. -/
inductive Registration where
  | set_fltk_widget_callback (luaFunc data : Nat)
  | set_fltk_menu_item_callback (luaFunc data : Nat)
  | fltk_fl_menu_item_add (shortcut luaFunc data : Nat)
  | fltk_fl_menu_item_insert (shortcut luaFunc data : Nat)
  | fltk_fl_menu_add (shortcut luaFunc data : Nat)
  | fltk_fl_menu_insert (shortcut luaFunc data : Nat)
  deriving DecidableEq, Repr

namespace Registration

def luaFunc : Registration → Nat
  | set_fltk_widget_callback f _ | set_fltk_menu_item_callback f _ => f
  | fltk_fl_menu_item_add _ f _ | fltk_fl_menu_item_insert _ f _ => f
  | fltk_fl_menu_add _ f _ | fltk_fl_menu_insert _ f _ => f

def data : Registration → Nat
  | set_fltk_widget_callback _ d | set_fltk_menu_item_callback _ d => d
  | fltk_fl_menu_item_add _ _ d | fltk_fl_menu_item_insert _ _ d => d
  | fltk_fl_menu_add _ _ d | fltk_fl_menu_insert _ _ d => d

/-- The C function that makes the registration for the object `o`. -/
def exec (o : Nat) : Registration → Bind Unit
  | set_fltk_widget_callback f d => Binding.set_fltk_widget_callback o f d
  | set_fltk_menu_item_callback f d => Binding.set_fltk_menu_item_callback o f d
  | fltk_fl_menu_item_add s f d => Binding.fltk_fl_menu_item_add o s f d
  | fltk_fl_menu_item_insert s f d => Binding.fltk_fl_menu_item_insert o s f d
  | fltk_fl_menu_add s f d => Binding.fltk_fl_menu_add o s f d
  | fltk_fl_menu_insert s f d => Binding.fltk_fl_menu_insert o s f d

/-- Whether the function may be omitted: only when an item is added to a menu. -/
def funcOptional : Registration → Bool
  | set_fltk_widget_callback .. | set_fltk_menu_item_callback .. => false
  | _ => true

/-- The indices lie in the frame. -/
structure Args (r : Registration) (W : World) : Prop where
  luaFunc_le : r.luaFunc ≤ W.top
  data_le : r.data ≤ W.top
  luaFunc_pos : r.funcOptional = false → 0 < r.luaFunc

end Registration

/-- What the callback's first argument is: the widget itself, or the menu of an item. -/
def sender (r : Registration) (o menu : Nat) : Nat :=
  match r with
  | .set_fltk_widget_callback .. => o
  | _ => menu

/-- The call a registration asks for. -/
def expected (r : Registration) (W : World) (w : Nat) : Call :=
  callOf (given W r.luaFunc) [.userdata w, given W r.data]

/-- The data a widget's callback gets. -/
def widgetData (W : World) (data : Nat) : Value :=
  if data ≠ 0 ∧ valueAt W data = .nil then .nil else W.stack (W.top - 1)

/-- The call a registration leaves the callback with. `misread` is the memory at the time
of the call. -/
def delivered (r : Registration) (W : World) (misread : Value → Int → Value) (w : Nat) : Call :=
  match r with
  | .set_fltk_widget_callback f d =>
    callOf (valueAt W f) [.userdata w, widgetData W d]
  | .set_fltk_menu_item_callback f _ =>
    callOf (argAfter W 2 f) [.userdata w, misread (argAfter W 2 f) 2]
  | .fltk_fl_menu_item_add _ f _ | .fltk_fl_menu_item_insert _ f _
  | .fltk_fl_menu_add _ f _ | .fltk_fl_menu_insert _ f _ =>
    if hasFunc W f then callOf (argAfter W 2 f) [.userdata w, misread (argAfter W 2 f) 2]
    else none

/-! ## The invariant -/

/-- The references of the objects. -/
structure GoodRefs (W : World) (free : List Int) (live : Set Int) : Prop where
  refs : RefInv W.registry free live
  refnil : W.registry.get (.number LUA_REFNIL) = .nil
  held : ∀ o, Held live (W.user_data o)
  once : ∀ o o', W.user_data o ∈ live → W.user_data o' = W.user_data o → o' = o
  record : ∀ o, W.callback o = some .lua_fltk_menu_item_callback → W.user_data o ∈ live ∧
    ∃ n < W.nrecords, W.registry.get (.number (W.user_data o)) = .table (.record n)

def Good (W : World) : Prop := ∃ free live, GoodRefs W free live

/-- Everything the callback of `o` reads is the same in `V` as in `W`. -/
structure Unchanged (W V : World) (o : Nat) : Prop where
  callback : V.callback o = W.callback o
  user_data : V.user_data o = W.user_data o
  func : V.registry.get (.string (CALLBACK_PTRSTR o)) =
    W.registry.get (.string (CALLBACK_PTRSTR o))
  ref : W.user_data o ≠ 0 →
    V.registry.get (.number (W.user_data o)) = W.registry.get (.number (W.user_data o))
  nrecords : W.nrecords ≤ V.nrecords
  record : ∀ n < W.nrecords, V.heap (.record n) = W.heap (.record n)

/-- What the program does between two registrations. -/
structure Frame (W V : World) : Prop where
  registry : V.registry = W.registry
  callback : V.callback = W.callback
  user_data : V.user_data = W.user_data
  nrecords : V.nrecords = W.nrecords
  record : ∀ n < W.nrecords, V.heap (.record n) = W.heap (.record n)

theorem Frame.unchanged {W V : World} (h : Frame W V) (o : Nat) : Unchanged W V o where
  callback := by rw [h.callback]
  user_data := by rw [h.user_data]
  func := by rw [h.registry]
  ref _ := by rw [h.registry]
  nrecords := h.nrecords.ge
  record := h.record

/-- What keeps the registry and the callbacks keeps what is good about them. -/
theorem Frame.good {W V : World} (h : Frame W V) (hW : Good W) : Good V := by
  obtain ⟨free, live, g⟩ := hW
  refine ⟨free, live, ?_, ?_, ?_, ?_, ?_⟩
  · rw [h.registry]; exact g.refs
  · rw [h.registry]; exact g.refnil
  · rw [h.user_data]; exact g.held
  · rw [h.user_data]; exact g.once
  · rw [h.user_data, h.callback, h.registry, h.nrecords]; exact g.record

theorem Unchanged.refl (W : World) (o : Nat) : Unchanged W W o :=
  ⟨rfl, rfl, rfl, fun _ => rfl, le_rfl, fun _ _ => rfl⟩

theorem Unchanged.trans {W V U : World} {o : Nat} (h : Unchanged W V o) (h' : Unchanged V U o) :
    Unchanged W U o where
  callback := h'.callback.trans h.callback
  user_data := h'.user_data.trans h.user_data
  func := h'.func.trans h.func
  ref h0 := by
    have := h'.ref (by rwa [h.user_data])
    rw [h.user_data] at this
    exact this.trans (h.ref h0)
  nrecords := h.nrecords.trans h'.nrecords
  record n hn := (h'.record n (by have := h.nrecords; omega)).trans (h.record n hn)

/-! ## One registration -/

section step

variable {free : List Int} {live : Set Int}

/-- An object gets another reference: the invariant holds again and the other objects are
as they were. -/
theorem GoodRefs.assign {W V : World} {o : Nat} {r : Int} {cb : Option Trampoline}
    {free' : List Int} {live' : Set Int} (g : GoodRefs W free live)
    (hcb : V.callback = Function.update W.callback o cb)
    (hud : V.user_data = Function.update W.user_data o r)
    (hn : W.nrecords ≤ V.nrecords)
    (hrec : ∀ n < W.nrecords, V.heap (.record n) = W.heap (.record n))
    (inv : RefInv V.registry free' live')
    (hnil : V.registry.get (.number LUA_REFNIL) = .nil)
    (hr : Held live' r)
    (hlive : ∀ o' ≠ o, W.user_data o' ∈ live → W.user_data o' ∈ live' ∧ W.user_data o' ≠ r)
    (hget : ∀ o' ≠ o, W.user_data o' ≠ 0 →
      V.registry.get (.number (W.user_data o')) = W.registry.get (.number (W.user_data o')))
    (hkey : ∀ o' ≠ o, V.registry.get (.string (CALLBACK_PTRSTR o')) =
      W.registry.get (.string (CALLBACK_PTRSTR o')))
    (hitem : cb = some .lua_fltk_menu_item_callback → r ∈ live' ∧
      ∃ n < V.nrecords, V.registry.get (.number r) = .table (.record n)) :
    Good V ∧ ∀ o' ≠ o, Unchanged W V o' := by
  have hne : ∀ o' ≠ o, V.user_data o' = W.user_data o' ∧ V.callback o' = W.callback o' := by
    intro o' h
    rw [hud, hcb, Function.update_of_ne h, Function.update_of_ne h]
    exact ⟨rfl, rfl⟩
  have hself : V.user_data o = r := by rw [hud, Function.update_self]
  -- a reference in use afterwards that another object holds was in use before
  have hback : ∀ o', W.user_data o' ∈ live' → W.user_data o' ∈ live := by
    intro o' h
    have hpos := inv.live_pos _ h
    rcases g.held o' with h0 | h0 | h0
    · omega
    · rw [h0] at hpos
      exact absurd hpos (by decide)
    · exact h0
  refine ⟨⟨free', live', inv, hnil, fun o' => ?_, fun o₁ o₂ h₁ h₂ => ?_, fun o' h => ?_⟩,
    fun o' h => ?_⟩
  · by_cases h : o' = o
    · rwa [h, hself]
    · rw [(hne o' h).1]
      exact (g.held o').imp_right (Or.imp_right fun hl => (hlive o' h hl).1)
  · by_cases e₁ : o₁ = o <;> by_cases e₂ : o₂ = o
    · rw [e₁, e₂]
    · subst e₁
      rw [hself] at h₁ h₂
      rw [(hne o₂ e₂).1] at h₂
      exact absurd h₂ (hlive o₂ e₂ (hback o₂ (h₂ ▸ h₁))).2
    · subst e₂
      rw [hself, (hne o₁ e₁).1] at h₂
      rw [(hne o₁ e₁).1] at h₁
      exact absurd h₂.symm (hlive o₁ e₁ (hback o₁ h₁)).2
    · rw [(hne o₁ e₁).1] at h₁ h₂
      rw [(hne o₂ e₂).1] at h₂
      exact g.once o₁ o₂ (hback o₁ h₁) h₂
  · by_cases e : o' = o
    · subst e
      rw [hself]
      rw [hcb, Function.update_self] at h
      exact hitem h
    · rw [(hne o' e).2] at h
      obtain ⟨hl, n, hlt, hreg⟩ := g.record o' h
      rw [(hne o' e).1, hget o' e (g.refs.live_pos _ hl).ne']
      exact ⟨(hlive o' e hl).1, n, hlt.trans_le hn, hreg⟩
  · exact ⟨(hne o' h).2, (hne o' h).1, hkey o' h, hget o' h, hn, hrec⟩

/-- What one registration `r` for the object `o` does. -/
structure Effect (r : Registration) (W V : World) (o : Nat) : Prop where
  good : Good V
  others : ∀ o' ≠ o, Unchanged W V o'
  delivers : ∀ U, Unchanged V U o → ∀ menu,
    (run (do_callback menu o) U).1 = delivered r W U.misread (sender r o menu)

theorem set_fltk_widget_callback_effect {W : World} {o f d : Nat} (hW : Good W)
    (hf : 0 < f) (hft : f ≤ W.top) (hd : d ≤ W.top) :
    Effect (.set_fltk_widget_callback f d) W (run (set_fltk_widget_callback o f d) W).2 o := by
  obtain ⟨free, live, g⟩ := hW
  obtain ⟨stack, top, hrun⟩ := set_fltk_widget_callback_run (w := o) hf hft hd
  rw [hrun]
  set reg := widgetRegistry W o (valueAt W f) with hreg
  -- the registry once the function is stored and the old reference released
  have inv₀ : RefInv (W.registry.set (.string (CALLBACK_PTRSTR o)) (valueAt W f)) free live :=
    g.refs.congr fun r => Table.get_set_ne _ _ (by simp)
  obtain ⟨free₁, inv₁⟩ := releaseOld_inv _ inv₀ (g.refs.held_notMem (g.held o))
  have hget₁ : ∀ s, s ≠ 0 → (s = W.user_data o → W.user_data o < 0) →
      reg.get (.number s) = W.registry.get (.number s) := by
    intro s h0 hs
    rw [hreg, widgetRegistry, get_releaseOld h0 hs, Table.get_set_ne _ _ (by simp)]
  have hnil₁ : reg.get (.number LUA_REFNIL) = .nil := by
    rw [hget₁ _ (by decide) (fun h => h ▸ by decide), g.refnil]
  have hkey₁ : ∀ o', reg.get (.string (CALLBACK_PTRSTR o')) =
      if o' = o then valueAt W f else W.registry.get (.string (CALLBACK_PTRSTR o')) := by
    intro o'
    rw [hreg, widgetRegistry, get_releaseOld_string]
    split
    · next h => rw [h, Table.get_set_self]
    · next h =>
      exact Table.get_set_ne _ _ fun e => h (CALLBACK_PTRSTR_injective (Value.string.inj e))
  obtain ⟨live₂, taken⟩ : ∃ live₂, Taken reg (live \ {W.user_data o}) (widgetData W d)
      (takeData reg W d).1 (takeData reg W d).2 live₂ := by
    unfold takeData widgetData
    split
    · exact ⟨_, taken_nil inv₁ (.inl rfl) hnil₁⟩
    · exact taken_takeRef inv₁ hnil₁ _
  generalize takeData reg W d = p at taken ⊢
  obtain ⟨r, reg'⟩ := p
  obtain ⟨free₂, inv₂⟩ := taken.refs
  have hother : ∀ o' ≠ o, W.user_data o' ∈ live → W.user_data o' ∈ live \ {W.user_data o} :=
    fun o' ho hl => ⟨hl, fun e => ho (g.once _ _ hl e.symm).symm⟩
  obtain ⟨good, others⟩ := g.assign (V := { W with
      registry := reg', stack := stack, top := top,
      callback := Function.update W.callback o (some .lua_fltk_widget_callback),
      user_data := Function.update W.user_data o r }) rfl rfl le_rfl (fun _ _ => rfl) inv₂
    (by rw [taken.get _ (.inr (by decide)), hnil₁]) taken.held
    (fun o' ho hl => ⟨taken.subset (hother o' ho hl), fun e => taken.fresh (e ▸ hother o' ho hl)⟩)
    (fun o' ho h0 => by
      rcases g.held o' with h | h | h
      · exact absurd h h0
      · rw [taken.get _ (.inr (h ▸ by decide)), hget₁ _ h0 fun e => e ▸ h ▸ by decide]
      · rw [taken.get _ (.inl (hother o' ho h)), hget₁ _ h0 fun e =>
          absurd (g.once _ _ h e.symm).symm ho])
    (fun o' ho => by rw [taken.string, hkey₁, if_neg ho]) (fun h => by cases h)
  refine ⟨good, others, fun U hU menu => ?_⟩
  have hud : U.user_data o = r := by rw [hU.user_data]; exact Function.update_self ..
  have hcb : U.callback o = some .lua_fltk_widget_callback := by
    rw [hU.callback]; exact Function.update_self ..
  have hfunc : U.registry.get (.string (CALLBACK_PTRSTR o)) = valueAt W f := by
    rw [hU.func, taken.string, hkey₁, if_pos rfl]
  have hdata : (if r = 0 then .nil else U.registry.get (.number r)) = widgetData W d := by
    rw [← taken.self]
    split
    · rfl
    · next h0 =>
      have := hU.ref (by rwa [← hU.user_data, hud])
      rwa [← hU.user_data, hud] at this
  rw [do_callback_widget menu hcb, lua_fltk_widget_callback_call, hud, hfunc, hdata]
  rfl

/-- What registering the item `o` with the arguments `f` and `d` in `W` does, whichever
function led to it. -/
theorem set_fltk_menu_item_callback_effect {W : World} {o f d : Nat} (hW : Good W)
    (hft : f ≤ W.top) (hd : d ≤ W.top) :
    let V := (run (set_fltk_menu_item_callback o f d) W).2
    Good V ∧ (∀ o' ≠ o, Unchanged W V o') ∧ ∀ U, Unchanged V U o → ∀ menu,
      (run (do_callback menu o) U).1 =
        callOf (argAfter W 2 f) [.userdata menu, U.misread (argAfter W 2 f) 2] := by
  obtain ⟨free, live, g⟩ := hW
  obtain ⟨stack, hrun⟩ := set_fltk_menu_item_callback_run (w := o) hft hd
  rw [hrun]
  have hrecord : Value.table (.record W.nrecords) ≠ .nil := by simp
  have taken := taken_refTable g.refs hrecord
  obtain ⟨free₁, inv₁⟩ := taken.refs
  have hold : Held (insert (newRef W.registry) live) (W.user_data o) :=
    (g.held o).imp_right (Or.imp_right (Set.mem_insert_of_mem _))
  obtain ⟨free₂, inv₂⟩ := releaseOld_inv _ inv₁ (inv₁.held_notMem hold)
  have hpos : 0 < newRef W.registry := g.refs.newRef_fresh.1
  have hne : newRef W.registry ≠ W.user_data o := by
    intro e
    rcases g.held o with h | h | h
    · omega
    · rw [e, h] at hpos
      exact absurd hpos (by decide)
    · exact taken.fresh (e ▸ h)
  have hmem : newRef W.registry ∈ insert (newRef W.registry) live \ {W.user_data o} :=
    ⟨Set.mem_insert _ _, hne⟩
  have hself : (releaseOld (refTable W.registry (.table (.record W.nrecords)))
      (W.user_data o)).get (.number (newRef W.registry)) = .table (.record W.nrecords) := by
    rw [get_releaseOld hpos.ne' fun e => absurd e hne, get_refTable_self]
  obtain ⟨good, others⟩ := g.assign (V := { W with
      stack := stack
      registry :=
        releaseOld (refTable W.registry (.table (.record W.nrecords))) (W.user_data o)
      nrecords := W.nrecords + 1
      heap := Function.update W.heap (.record W.nrecords) (menuRecord W f d)
      callback := Function.update W.callback o (some .lua_fltk_menu_item_callback)
      user_data := Function.update W.user_data o (newRef W.registry) })
    rfl rfl (Nat.le_succ _) (fun n hn => Function.update_of_ne (by simp; omega) _ _) inv₂
    (by rw [get_releaseOld (by decide) (fun e => e ▸ by decide), taken.get _ (.inr (by decide)),
      g.refnil])
    (.inr (.inr hmem))
    (fun o' ho hl => ⟨⟨Set.mem_insert_of_mem _ hl, fun e => ho (g.once _ _ hl e.symm).symm⟩,
      fun e => taken.fresh (e ▸ hl)⟩)
    (fun o' ho h0 => by
      rcases g.held o' with h | h | h
      · exact absurd h h0
      · rw [get_releaseOld h0 fun e => e ▸ h ▸ by decide, taken.get _ (.inr (h ▸ by decide))]
      · rw [get_releaseOld h0 fun e => absurd (g.once _ _ h e.symm).symm ho,
          taken.get _ (.inl h)])
    (fun o' _ => by rw [get_releaseOld_string, taken.string])
    (fun _ => ⟨hmem, W.nrecords, Nat.lt_succ_self _, hself⟩)
  refine ⟨good, others, fun U hU menu => ?_⟩
  have hud : U.user_data o = newRef W.registry := by
    rw [hU.user_data]; exact Function.update_self ..
  have hcb : U.callback o = some .lua_fltk_menu_item_callback := by
    rw [hU.callback]; exact Function.update_self ..
  have href : U.registry.get (.number (U.user_data o)) = .table (.record W.nrecords) := by
    have := hU.ref (by rw [← hU.user_data, hud]; exact hpos.ne')
    rw [← hU.user_data] at this
    rw [this, hud, hself]
  have hfunc : (U.heap (.record W.nrecords)).get (.number 1) = argAfter W 2 f := by
    rw [hU.record _ (Nat.lt_succ_self _)]
    simp [menuRecord, Table.get_set_ne]
  rw [do_callback_menu_item menu hcb, lua_fltk_menu_item_callback_call href, hfunc]

/-- The item FLTK has filled in has no callback. -/
theorem fillItem_effect {W : World} (o : Nat) (hW : Good W) :
    Good (run (fillItem o) W).2 ∧ ∀ o' ≠ o, Unchanged W (run (fillItem o) W).2 o' := by
  obtain ⟨free, live, g⟩ := hW
  exact g.assign (V := (run (fillItem o) W).2) rfl rfl le_rfl (fun _ _ => rfl) g.refs g.refnil
    (.inl rfl) (fun o' _ hl => ⟨hl, (g.refs.live_pos _ hl).ne'⟩) (fun _ _ _ => rfl)
    (fun _ _ => rfl) (fun h => by cases h)

/-- Adding an item to a menu: the four functions that do so run the same statements. -/
theorem addItem_effect {W : World} {o s f d : Nat} (hW : Good W) (hft : f ≤ W.top)
    (hd : d ≤ W.top) :
    let V := (run (do fillItem o; SET_MENU_ITEM_PARAMS o s f d) W).2
    Good V ∧ (∀ o' ≠ o, Unchanged W V o') ∧ ∀ U, Unchanged V U o → ∀ menu,
      (run (do_callback menu o) U).1 =
        if hasFunc W f then
          callOf (argAfter W 2 f) [.userdata menu, U.misread (argAfter W 2 f) 2]
        else none := by
  obtain ⟨good₁, others₁⟩ := fillItem_effect o hW
  rw [run_bind]
  obtain ⟨short, hrun⟩ := SET_MENU_ITEM_PARAMS_run (W := (run (fillItem o) W).2) o
    (by exact hft)
  rw [hrun]
  have hframe : Frame (run (fillItem o) W).2
      { (run (fillItem o) W).2 with shortcut := short } := ⟨rfl, rfl, rfl, rfl, fun _ _ => rfl⟩
  have hfunc : hasFunc (run (fillItem o) W).2 f ↔ hasFunc W f := Iff.rfl
  simp only [hfunc]
  by_cases h : hasFunc W f
  · simp only [h, if_true]
    obtain ⟨good, others, delivers⟩ := set_fltk_menu_item_callback_effect (o := o)
      (hframe.good good₁) (f := f) (d := d) hft hd
    exact ⟨good, fun o' ho => ((others₁ o' ho).trans (hframe.unchanged o')).trans (others o' ho),
      delivers⟩
  · simp only [h, if_false]
    refine ⟨hframe.good good₁, fun o' ho => (others₁ o' ho).trans (hframe.unchanged o'),
      fun U hU menu => ?_⟩
    have hcb : U.callback o = none := by rw [hU.callback]; exact Function.update_self ..
    rw [do_callback_none menu hcb]

/-- Each registration has the effect of its kind. -/
theorem exec_effect {r : Registration} {W : World} (o : Nat) (hW : Good W) (args : r.Args W) :
    Effect r W (run (r.exec o) W).2 o := by
  obtain ⟨hf, hd, hpos⟩ := args
  cases r with
  | set_fltk_widget_callback f d => exact set_fltk_widget_callback_effect hW (hpos rfl) hf hd
  | set_fltk_menu_item_callback f d =>
    obtain ⟨good, others, delivers⟩ := set_fltk_menu_item_callback_effect hW hf hd
    exact ⟨good, others, delivers⟩
  | fltk_fl_menu_item_add s f d | fltk_fl_menu_item_insert s f d | fltk_fl_menu_add s f d
  | fltk_fl_menu_insert s f d =>
    obtain ⟨good, others, delivers⟩ := addItem_effect hW hf hd
    exact ⟨good, others, delivers⟩

end step

/-! ## Runs -/

/-- The states a program reaches, with the last registration of each object and the state
it was made in. -/
inductive Registrations : World → (Nat → Option (Registration × World)) → Prop where
  | start {W : World} {free : List Int} {live : Set Int} : RefInv W.registry free live →
      W.registry.get (.number LUA_REFNIL) = .nil →
      (∀ o, W.callback o = none ∧ W.user_data o = 0) → Registrations W fun _ => none
  | frame {W V : World} {last : Nat → Option (Registration × World)} :
      Registrations W last → Frame W V → Registrations V last
  | register {W : World} {last : Nat → Option (Registration × World)} (r : Registration)
      (o : Nat) : Registrations W last → r.Args W →
      Registrations (run (r.exec o) W).2 (Function.update last o (some (r, W)))

/-- Along a run the invariant holds, and every callback makes the call its last
registration left. -/
theorem Registrations.delivers {W : World} {last : Nat → Option (Registration × World)}
    (h : Registrations W last) : Good W ∧ ∀ o r W₀, last o = some (r, W₀) →
      r.Args W₀ ∧ ∀ U, Unchanged W U o → ∀ menu,
        (run (do_callback menu o) U).1 = delivered r W₀ U.misread (sender r o menu) := by
  induction h with
  | start inv hnil hfresh =>
    refine ⟨⟨_, _, inv, hnil, fun o => .inl (hfresh o).2, fun o o' hl => ?_, fun o ho => ?_⟩,
      fun o r W₀ h => by cases h⟩
    · rw [(hfresh o).2] at hl
      exact absurd (inv.live_pos _ hl) (lt_irrefl _)
    · rw [(hfresh o).1] at ho
      cases ho
  | frame _ hframe ih =>
    refine ⟨hframe.good ih.1, fun o r W₀ hlast => ?_⟩
    obtain ⟨args, hcall⟩ := ih.2 o r W₀ hlast
    exact ⟨args, fun U hU => hcall U ((hframe.unchanged o).trans hU)⟩
  | register r o _ args ih =>
    have e := exec_effect o ih.1 args
    refine ⟨e.good, fun o' r' W₀ hlast => ?_⟩
    by_cases ho : o' = o
    · subst ho
      rw [Function.update_self] at hlast
      cases hlast
      exact ⟨args, e.delivers⟩
    · rw [Function.update_of_ne ho] at hlast
      obtain ⟨args', hcall⟩ := ih.2 o' r' W₀ hlast
      exact ⟨args', fun U hU => hcall U ((e.others o' ho).trans hU)⟩

/-- The registrations whose callback is called as asked: `W` is the state they are made in
and `misread` the memory when the callback is invoked. -/
def deliversAsAsked (r : Registration) (W : World) (misread : Value → Int → Value) : Prop :=
  match r with
  | .set_fltk_widget_callback f d =>
    (valueAt W f).isfunction = true →
      (d ≠ 0 ∧ valueAt W d = .nil) ∨ W.stack (W.top - 1) = given W d
  | .set_fltk_menu_item_callback f d =>
    (valueAt W f).isfunction = true → misread (valueAt W f) 2 = given W d
  | .fltk_fl_menu_item_add _ f d | .fltk_fl_menu_item_insert _ f d
  | .fltk_fl_menu_add _ f d | .fltk_fl_menu_insert _ f d =>
    if f = 0 then W.stack W.top = .nil ∨ (W.stack (W.top + 2)).isfunction = false
    else (valueAt W f).isfunction = true → misread (valueAt W f) 2 = given W d

/-- Two calls differ in their data only where a function is called. -/
theorem callOf_eq_iff {f : Value} {a b c : Value} :
    callOf f [a, b] = callOf f [a, c] ↔ (f.isfunction = true → b = c) := by
  unfold callOf
  by_cases h : f.isfunction = true <;> simp [h]

/-- The call is right where the data is delivered as asked. -/
theorem delivered_eq_expected_iff {r : Registration} {W : World} (args : r.Args W)
    (misread : Value → Int → Value) (w : Nat) :
    delivered r W misread w = expected r W w ↔ deliversAsAsked r W misread := by
  have hgiven : ∀ {f : Nat}, 0 < f → given W f = valueAt W f := fun h => if_neg h.ne'
  have hafter : ∀ {f n : Nat}, 0 < f → argAfter W n f = valueAt W f := fun h => if_neg h.ne'
  have hpos := args.luaFunc_pos
  -- an item is added with a function, or with none
  have hadd : ∀ f d : Nat, (if hasFunc W f then
      callOf (argAfter W 2 f) [.userdata w, misread (argAfter W 2 f) 2] else none) =
        callOf (given W f) [.userdata w, given W d] ↔
      if f = 0 then W.stack W.top = .nil ∨ (W.stack (W.top + 2)).isfunction = false
      else (valueAt W f).isfunction = true → misread (valueAt W f) 2 = given W d := by
    intro f d
    rcases Nat.eq_zero_or_pos f with rfl | hf
    · by_cases h : W.stack W.top = .nil <;>
        simp [hasFunc, argAfter, given, callOf, h, Value.isfunction]
    · rw [if_neg hf.ne', hafter hf, hgiven hf]
      by_cases h : valueAt W f = .nil
      · simp [hasFunc, h, callOf, Value.isfunction]
      · rw [if_pos (show hasFunc W f from h), callOf_eq_iff]
  cases r with
  | set_fltk_widget_callback f d =>
    have hf : 0 < f := hpos rfl
    simp only [delivered, expected, Registration.luaFunc, Registration.data, hgiven hf,
      callOf_eq_iff, deliversAsAsked]
    refine imp_congr_right fun _ => ?_
    unfold widgetData
    split
    · next h => simp [h, hgiven (Nat.pos_of_ne_zero h.1)]
    · next h => simp [h]
  | set_fltk_menu_item_callback f d =>
    have hf : 0 < f := hpos rfl
    simp only [delivered, expected, Registration.luaFunc, Registration.data, hgiven hf,
      hafter hf, callOf_eq_iff, deliversAsAsked]
  | fltk_fl_menu_item_add s f d | fltk_fl_menu_item_insert s f d | fltk_fl_menu_add s f d
  | fltk_fl_menu_insert s f d => exact hadd f d

/-- When FLTK invokes the callback of an object, it calls what the last registration for it
asked for exactly when that registration is one of `deliversAsAsked`. -/
theorem callback_calls_last_iff {W W₀ : World} {last : Nat → Option (Registration × World)}
    {o : Nat} {r : Registration} (h : Registrations W last) (hlast : last o = some (r, W₀))
    (menu : Nat) :
    (run (do_callback menu o) W).1 = expected r W₀ (sender r o menu) ↔
      deliversAsAsked r W₀ W.misread := by
  obtain ⟨args, hcall⟩ := h.delivers.2 o r W₀ hlast
  rw [hcall W (Unchanged.refl W o) menu, delivered_eq_expected_iff args]

/-- A program that has started: the stack of the running function holds `stack`. -/
def started (stack : List Value) : World where
  stack n := stack.getD n .nil
  top := stack.length
  registry := .empty
  heap _ := .empty
  nrecords := 0
  callback _ := none
  user_data _ := 0
  idles := []
  timeouts := []
  firing := []
  nnodes := 0
  shortcut _ := .nil
  misread _ _ := .nil

theorem refInv_empty : RefInv .empty [] ∅ where
  chain := .nil
  free_pos := by simp
  live_pos := by simp
  present := by simp
  apart := by simp

/-- At the start nothing is registered. -/
theorem started_registrations (stack : List Value) :
    Registrations (started stack) fun _ => none :=
  .start refInv_empty rfl fun _ => ⟨rfl, rfl⟩

/-- `w:callback(f, d)` with `d` on top of the stack calls `f` with `d`. -/
theorem callback_calls_last_iff_data :
    let W₀ := started [.function 1, .string "d"]
    let r := Registration.set_fltk_widget_callback 1 2
    (run (do_callback 0 7) (run (r.exec 7) W₀).2).1 = expected r W₀ 7 ↔
      deliversAsAsked r W₀ (run (r.exec 7) W₀).2.misread :=
  callback_calls_last_iff
    (.register _ 7 (started_registrations _) ⟨by decide, by decide, fun _ => by decide⟩)
    (Function.update_self ..) 0

/-- `w:callback(f)` calls `f` with `f` itself where the data was omitted. -/
theorem callback_without_data_gets_function :
    let W₀ := started [.function 1]
    let r := Registration.set_fltk_widget_callback 1 0
    Registrations (run (r.exec 7) W₀).2 (Function.update (fun _ => none) 7 (some (r, W₀))) ∧
      (run (do_callback 0 7) (run (r.exec 7) W₀).2).1 =
        some (.function 1, [.userdata 7, .function 1]) ∧
      expected r W₀ 7 = some (.function 1, [.userdata 7, .nil]) := by
  intro W₀ r
  have h : Registrations (run (r.exec 7) W₀).2 (Function.update (fun _ => none) 7 (some (r, W₀))) :=
    .register r 7 (started_registrations _) ⟨by decide, by decide, fun _ => by decide⟩
  refine ⟨h, ?_, rfl⟩
  obtain ⟨-, hcall⟩ := h.delivers.2 7 r W₀ (Function.update_self ..)
  rw [hcall _ (Unchanged.refl _ _) 0]
  rfl

end LuaFltk.Binding
