import LuaFltk.Binding.System

/-!
# Runs that release a reference once

`luaL_unref` is given whatever the program or a `user_data` slot holds. `Careful` says when
an action is harmless: what it releases is neither free already nor in use by another
registration, what it repeats is a timer that has not been removed, and a callback finds the
`user_data` its registration set. Along a run of careful actions `Inv` holds; each kind of
step has its own lemma.
-/

namespace LuaFltk.Binding

open Api Lib

/-- Releasing `r` does no harm: it is not free, and only the registrations `own` hold it. -/
def Releasable (S : System) (r : Int) (own : Nat → Prop) : Prop :=
  0 < r →
    (∀ free, Chain (link S.world.registry) (link S.world.registry FREELIST_REF) free → r ∉ free) ∧
    ∀ k ∈ S.live, (S.log k).ref = r → own k

/-- The harmless actions. -/
def Careful (S : System) : Action → Prop
  | .set_fltk_widget_callback o f d =>
    Releasable S (S.world.user_data o) (fun k => S.owner o = some k) ∧
      deliversAsAsked (.set_fltk_widget_callback f d) S.world S.world.misread
  | .set_fltk_menu_item_callback o _ _ =>
    Releasable S (S.world.user_data o) (fun k => S.owner o = some k) ∧
      S.world.user_data o ≠ newRef S.world.registry
  | .fltk_fl_remove_idle k =>
    Releasable S (S.log k).ref (· = k) ∧ (k ∈ S.live → (S.log k).kind = .idle)
  | .fltk_fl_remove_timeout k =>
    Releasable S (S.log k).ref (· = k) ∧ (k ∈ S.live → (S.log k).kind = .timeout)
  | .set_fltk_fl_repeat_timeout _ k =>
    (S.world.registry.get (.number (S.log k).ref)).istable = true →
      k ∈ S.live ∧ (S.log k).kind = .timeout
  | .do_callback _ o =>
    ∀ k, S.owner o = some k → S.world.user_data o = (S.log k).ref ∧
      ((S.log k).kind = .menu_item o → (S.log k).func.isfunction = true →
        S.world.misread (S.log k).func 2 = (S.log k).data)
  | _ => True

/-- The references of live registrations. -/
def System.refs (S : System) : Set Int := { r | ∃ k ∈ S.live, (S.log k).ref = r }

/-- The record a handle leads to holds what its registration was given. -/
structure Recorded (W : World) (e : Entry) : Prop where
  record : ∃ n < W.nrecords, W.registry.get (.number e.ref) = .table (.record n) ∧
    (W.heap (.record n)).get (.number 1) = e.func ∧
    (e.kind.hasHandle = true → (W.heap (.record n)).get (.number 2) = e.data) ∧
    (e.kind = .timeout → ((W.heap (.record n)).get (.string "repeat")).isboolean = true)

/-- The function and the data of a widget are where its callback looks for them. -/
structure WidgetStored (W : World) (o : Nat) (e : Entry) : Prop where
  callback : W.callback o = some .lua_fltk_widget_callback
  func : W.registry.get (.string (CALLBACK_PTRSTR o)) = e.func
  data : e.func.isfunction = true →
    (if e.ref = 0 then .nil else W.registry.get (.number e.ref)) = e.data

/-- The invariant of careful runs. -/
structure Inv (S : System) : Prop where
  refs : ∃ free, RefInv S.world.registry free S.refs
  refnil : S.world.registry.get (.number LUA_REFNIL) = .nil
  distinct : ∀ k ∈ S.live, ∀ k' ∈ S.live, (S.log k).ref = (S.log k').ref → k = k'
  live_lt : ∀ k ∈ S.live, k < S.next
  handle_pos : ∀ k < S.next, (S.log k).kind.hasHandle = true → 0 < (S.log k).ref
  recorded : ∀ k ∈ S.live, (∀ o, (S.log k).kind ≠ .widget o) → Recorded S.world (S.log k)
  idles : ∀ p ∈ S.world.idles, p.ptr < S.world.nnodes ∧ S.origin p.ptr ∈ S.live ∧
    (S.log (S.origin p.ptr)).kind = .idle ∧ (S.log (S.origin p.ptr)).ref = p.arg
  idles_nodup : (S.world.idles.map Node.arg).Nodup
  timeouts : ∀ t ∈ S.world.timeouts, t.ptr < S.world.nnodes ∧ S.origin t.ptr ∈ S.live ∧
    (S.log (S.origin t.ptr)).kind = .timeout ∧ (S.log (S.origin t.ptr)).ref = t.arg
  firing : ∀ f ∈ S.world.firing, ∃ n < S.world.nrecords, Firing.Holds f (.record n) ∧
    ((S.world.heap (.record n)).get (.string "repeat")).isboolean = true
  widget : ∀ o k, S.owner o = some k → (S.log k).kind = .widget o →
    WidgetStored S.world o (S.log k)
  menu_item : ∀ o k, S.owner o = some k → (S.log k).kind = .menu_item o →
    S.world.callback o = some .lua_fltk_menu_item_callback
  owned : ∀ o k, S.owner o = some k → k < S.next ∧
    ((S.log k).kind = .widget o ∨ (S.log k).kind = .menu_item o) ∧
    (0 < (S.log k).ref ∨ (S.log k).kind = .menu_item o → k ∈ S.live)
  unowned : ∀ o, S.owner o = none → S.world.callback o = none
  object : ∀ o, ∀ k ∈ S.live, (S.log k).kind = .widget o ∨ (S.log k).kind = .menu_item o →
    S.owner o = some k

/-- The invariant gives safety. -/
theorem Inv.safe {S : System} (inv : Inv S) : Safe S where
  distinct := inv.distinct
  free := by
    obtain ⟨free, h⟩ := inv.refs
    exact ⟨free, h.chain, fun k hk => h.apart _ ⟨k, hk, rfl⟩⟩

/-! ## What keeps the parts of the invariant -/

/-- The table still holds what matters of a record. -/
structure KeepsRecord (t t' : Table) : Prop where
  func : t'.get (.number 1) = t.get (.number 1)
  data : t'.get (.number 2) = t.get (.number 2)
  flag : (t.get (.string "repeat")).isboolean = true →
    (t'.get (.string "repeat")).isboolean = true

/-- A table that is not written. -/
theorem KeepsRecord.of_eq {t t' : Table} (h : t' = t) : KeepsRecord t t' := by
  subst h
  exact ⟨rfl, rfl, id⟩

/-- The records of `W` are still there in `V`. -/
structure KeepsRecords (W V : World) : Prop where
  nrecords : W.nrecords ≤ V.nrecords
  record : ∀ n < W.nrecords, KeepsRecord (W.heap (.record n)) (V.heap (.record n))

/-- A record is kept by what keeps its table and its reference. -/
theorem Recorded.mono {W V : World} {e : Entry} (h : Recorded W e) (hk : KeepsRecords W V)
    (hreg : V.registry.get (.number e.ref) = W.registry.get (.number e.ref)) : Recorded V e := by
  obtain ⟨n, hn, hr, hf, hd, hb⟩ := h.record
  have hrec := hk.record n hn
  exact ⟨n, hn.trans_le hk.nrecords, hreg.trans hr, hrec.func.trans hf,
    fun h => hrec.data.trans (hd h), fun h => hrec.flag (hb h)⟩

/-- The same of what is stored for a widget. -/
theorem WidgetStored.mono {W V : World} {o : Nat} {e : Entry} (h : WidgetStored W o e)
    (hcb : V.callback o = W.callback o)
    (hkey : V.registry.get (.string (CALLBACK_PTRSTR o)) =
      W.registry.get (.string (CALLBACK_PTRSTR o)))
    (hreg : e.ref ≠ 0 → V.registry.get (.number e.ref) = W.registry.get (.number e.ref)) :
    WidgetStored V o e where
  callback := hcb.trans h.callback
  func := hkey.trans h.func
  data hf := by
    rw [← h.data hf]
    split
    · rfl
    · next h0 => exact hreg h0

theorem firing_mono {W V : World} {f : Firing} (hk : KeepsRecords W V)
    (h : ∃ n < W.nrecords, Firing.Holds f (.record n) ∧
      ((W.heap (.record n)).get (.string "repeat")).isboolean = true) :
    ∃ n < V.nrecords, Firing.Holds f (.record n) ∧
      ((V.heap (.record n)).get (.string "repeat")).isboolean = true := by
  obtain ⟨n, hn, hf, hb⟩ := h
  exact ⟨n, hn.trans_le hk.nrecords, hf, (hk.record n hn).flag hb⟩

/-- A step that leaves the registry alone and makes no nodes and no records. -/
theorem Inv.quiet {S : System} {V : World} (inv : Inv S) (hk : KeepsRecords S.world V)
    (hreg : V.registry = S.world.registry) (hcb : V.callback = S.world.callback)
    (hid : V.idles.Perm S.world.idles) (hto : ∀ t ∈ V.timeouts, t ∈ S.world.timeouts)
    (hfi : ∀ f ∈ V.firing, f ∈ S.world.firing ∨ ∃ n < S.world.nrecords,
      Firing.Holds f (.record n) ∧
        ((S.world.heap (.record n)).get (.string "repeat")).isboolean = true)
    (hnn : V.nnodes = S.world.nnodes) : Inv { S with world := V } where
  refs := by
    obtain ⟨free, h⟩ := inv.refs
    exact ⟨free, hreg ▸ h⟩
  refnil := hreg ▸ inv.refnil
  distinct := inv.distinct
  live_lt := inv.live_lt
  handle_pos := inv.handle_pos
  recorded k hl ho := (inv.recorded k hl ho).mono hk (by rw [hreg])
  idles p hp := hnn ▸ inv.idles p (hid.mem_iff.1 hp)
  idles_nodup := (hid.map _).nodup_iff.2 inv.idles_nodup
  timeouts t ht := hnn ▸ inv.timeouts t (hto t ht)
  firing f hf := firing_mono hk ((hfi f hf).elim (inv.firing f) id)
  widget o k ho hw := (inv.widget o k ho hw).mono (by rw [hcb]) (by rw [hreg]) fun _ => by rw [hreg]
  menu_item o k ho hm := by
    rw [hcb]
    exact inv.menu_item o k ho hm
  owned := inv.owned
  unowned o ho := by
    rw [hcb]
    exact inv.unowned o ho
  object := inv.object

/-! ## Removing a handle -/

/-- A removal releases the reference of `k` and leaves no node made for it. -/
theorem Inv.remove {S : System} {V : World} {k : Nat} (inv : Inv S) (hlt : k < S.next)
    (hhandle : (S.log k).kind.hasHandle = true) (hr : Releasable S (S.log k).ref (· = k))
    (hreg : V.registry = unrefTable S.world.registry (S.log k).ref)
    (hheap : V.heap = S.world.heap) (hn : V.nrecords = S.world.nrecords)
    (hcb : V.callback = S.world.callback) (hfi : V.firing = S.world.firing)
    (hnn : V.nnodes = S.world.nnodes)
    (hid : ∀ p ∈ V.idles, p ∈ S.world.idles ∧ S.origin p.ptr ≠ k)
    (hnodup : (V.idles.map Node.arg).Nodup)
    (hto : ∀ t ∈ V.timeouts, t ∈ S.world.timeouts ∧ S.origin t.ptr ≠ k) :
    Inv { S with world := V, live := S.live \ {k} } := by
  have hpos : 0 < (S.log k).ref := inv.handle_pos k hlt hhandle
  obtain ⟨hfree, hown⟩ := hr hpos
  have hget : ∀ s : Int, s ≠ 0 → s ≠ (S.log k).ref →
      V.registry.get (.number s) = S.world.registry.get (.number s) := fun s h0 hs => by
    rw [hreg, get_unrefTable h0 hs]
  have hkeep : KeepsRecords S.world V :=
    ⟨hn.ge, fun n _ => .of_eq (by rw [hheap])⟩
  have hother : ∀ k' ∈ S.live, k' ≠ k → (S.log k').ref ≠ (S.log k).ref :=
    fun k' hl hne e => hne (hown k' hl e)
  obtain ⟨free, hrefs⟩ := inv.refs
  have hlive : ∀ k' ∈ S.live, 0 < (S.log k').ref := fun k' hl => hrefs.live_pos _ ⟨k', hl, rfl⟩
  refine
    { refs := ⟨(S.log k).ref :: free, ?_⟩
      refnil := ?_
      distinct := fun a ha b hb => inv.distinct a ha.1 b hb.1
      live_lt := fun a ha => inv.live_lt a ha.1
      handle_pos := inv.handle_pos
      recorded := fun a ha ho => (inv.recorded a ha.1 ho).mono hkeep
        (hget _ (hlive a ha.1).ne' (hother a ha.1 ha.2))
      idles := fun p hp => ?_
      idles_nodup := hnodup
      timeouts := fun t ht => ?_
      firing := fun f hf => firing_mono hkeep (inv.firing f (hfi ▸ hf))
      widget := fun o a ho hw => (inv.widget o a ho hw).mono (by rw [hcb])
        (by rw [hreg, get_unrefTable_string]) fun h0 => hget _ h0 ?_
      menu_item := fun o a ho hm => by
        rw [hcb]
        exact inv.menu_item o a ho hm
      owned := fun o a ho => ?_
      unowned := fun o ho => by
        rw [hcb]
        exact inv.unowned o ho
      object := fun o a ha ho => inv.object o a ha.1 ho }
  · rw [hreg]
    refine (hrefs.unref hpos (hfree free hrefs.chain)).mono ?_
    rintro r ⟨a, ha, rfl⟩
    exact ⟨⟨a, ha.1, rfl⟩, hother a ha.1 ha.2⟩
  · rw [hget _ (by decide) (by unfold LUA_REFNIL; omega), inv.refnil]
  · obtain ⟨hp, hne⟩ := hid p hp
    obtain ⟨h1, h2, h3⟩ := inv.idles p hp
    exact ⟨hnn ▸ h1, ⟨h2, hne⟩, h3⟩
  · obtain ⟨ht, hne⟩ := hto t ht
    obtain ⟨h1, h2, h3⟩ := inv.timeouts t ht
    exact ⟨hnn ▸ h1, ⟨h2, hne⟩, h3⟩
  · -- the reference of a widget is no handle
    intro e
    have hl := (inv.owned o a ho).2.2 (.inl (e ▸ hpos))
    have := hown a hl e
    rw [this] at hw
    rw [hw] at hhandle
    cases hhandle
  · obtain ⟨h1, h2, h3⟩ := inv.owned o a ho
    refine ⟨h1, h2, fun h => ⟨h3 h, ?_⟩⟩
    rintro rfl
    rcases h2 with h2 | h2 <;> rw [h2] at hhandle <;> cases hhandle

/-- The ring has no handler that it had not. -/
theorem mem_removeIdle {data : Int} {p : Node} {l before : List Node} :
    p ∈ removeIdle data before l → p ∈ before ∨ p ∈ l := by
  induction l generalizing before with
  | nil => exact .inl
  | cons q l ih =>
    unfold removeIdle
    split
    · simp only [List.mem_append, List.mem_cons]
      tauto
    · intro h
      have := ih h
      simp only [List.mem_append, List.mem_cons, List.not_mem_nil, or_false] at this ⊢
      tauto

/-- Removing the only node with this argument leaves none. -/
theorem removeIdle_arg {r : Int} {l b : List Node}
    (h : ((b ++ l).map Node.arg).Nodup) (hb : ∀ p ∈ b, p.arg ≠ r) :
    ((removeIdle r b l).map Node.arg).Nodup ∧
      ∀ p ∈ removeIdle r b l, p.arg ≠ r := by
  induction l generalizing b with
  | nil => exact ⟨by simpa [removeIdle] using h, hb⟩
  | cons q l ih =>
    unfold removeIdle
    split
    · next hq =>
      rw [List.map_append, List.map_cons, List.nodup_append] at h
      obtain ⟨h1, h2, h3⟩ := h
      rw [List.nodup_cons] at h2
      refine ⟨?_, fun p hp => ?_⟩
      · rw [List.map_append, List.nodup_append]
        exact ⟨h2.2, h1, fun a ha b hb e => h3 b hb a (List.mem_cons_of_mem _ ha) e.symm⟩
      · rcases List.mem_append.1 hp with hp | hp
        · rintro e
          exact h2.1 (List.mem_map.2 ⟨p, hp, e.trans hq.symm⟩)
        · exact hb p hp
    · next hq =>
      refine ih (by simpa using h) fun p hp => ?_
      rcases List.mem_append.1 hp with hp | hp
      · exact hb p hp
      · rw [List.mem_singleton.1 hp]
        exact hq

/-- A handler that is installed may be removed. -/
theorem Inv.remove_idle {S : System} {k : Nat} (inv : Inv S)
    (ha : Allowed S (.fltk_fl_remove_idle k)) (hc : Careful S (.fltk_fl_remove_idle k)) :
    Inv (S.exec (.fltk_fl_remove_idle k)) := by
  obtain ⟨stack, hrun⟩ := fltk_fl_remove_idle_run (S.log k).ref S.world
  have hV : Action.after (.fltk_fl_remove_idle k) S = { S.world with
      stack := stack
      registry := unrefTable S.world.registry (S.log k).ref
      idles := removeIdle (S.log k).ref [] S.world.idles } := by
    rw [Action.after, Action.code, run_bind, hrun]
    rfl
  have harg := removeIdle_arg (r := (S.log k).ref) (b := []) inv.idles_nodup (by simp)
  have hmem : ∀ p ∈ removeIdle (S.log k).ref [] S.world.idles, p ∈ S.world.idles := fun p hp => by
    simpa using mem_removeIdle hp
  refine inv.remove ha.1 ha.2 hc.1 ?_ ?_ ?_ ?_ ?_ ?_ ?_ ?_ ?_ <;> rw [hV]
  · intro p hp
    refine ⟨hmem p hp, fun e => harg.2 p hp ?_⟩
    rw [← (inv.idles p (hmem p hp)).2.2.2, e]
  · exact harg.1
  · intro t ht
    refine ⟨ht, fun e => ?_⟩
    obtain ⟨-, hl, ht, -⟩ := inv.timeouts t ht
    rw [e] at hl ht
    rw [hc.2 hl] at ht
    cases ht

/-- A timer that is armed may be removed. -/
theorem Inv.remove_timeout {S : System} {k : Nat} (inv : Inv S)
    (ha : Allowed S (.fltk_fl_remove_timeout k)) (hc : Careful S (.fltk_fl_remove_timeout k)) :
    Inv (S.exec (.fltk_fl_remove_timeout k)) := by
  obtain ⟨stack, hrun⟩ := fltk_fl_remove_timeout_run (S.log k).ref S.world
  have hV : Action.after (.fltk_fl_remove_timeout k) S = { S.world with
      stack := stack
      registry := unrefTable S.world.registry (S.log k).ref
      timeouts := S.world.timeouts.filter fun t =>
        t.arg ≠ (S.log k).ref ∧ (S.log k).ref ≠ 0 } := by
    rw [Action.after, Action.code, run_bind, hrun]
    rfl
  refine inv.remove ha.1 ha.2 hc.1 ?_ ?_ ?_ ?_ ?_ ?_ ?_ ?_ ?_ <;> rw [hV]
  · intro p hp
    refine ⟨hp, fun e => ?_⟩
    obtain ⟨-, hl, ht, -⟩ := inv.idles p hp
    rw [e] at hl ht
    rw [hc.2 hl] at ht
    cases ht
  · exact inv.idles_nodup
  · intro t ht
    obtain ⟨ht, harg⟩ := List.mem_filter.1 ht
    refine ⟨ht, fun e => ?_⟩
    have := (inv.timeouts t ht).2.2.2
    rw [e] at this
    simp [this] at harg

/-! ## Adding a handler -/

/-- A new handler: `tbl` is its record. -/
theorem Inv.add {S : System} {V : World} {e : Entry} {T : Table} (inv : Inv S)
    (hhandle : e.kind.hasHandle = true) (href : e.ref = newRef S.world.registry)
    (hreg : V.registry = refTable S.world.registry (.table (.record S.world.nrecords)))
    (hheap : V.heap = Function.update S.world.heap (.record S.world.nrecords) T)
    (hn : V.nrecords = S.world.nrecords + 1)
    (hfunc : T.get (.number 1) = e.func) (hdata : T.get (.number 2) = e.data)
    (hflag : e.kind = .timeout → (T.get (.string "repeat")).isboolean = true)
    (hcb : V.callback = S.world.callback) (hfi : V.firing = S.world.firing)
    (hnn : V.nnodes = S.world.nnodes + 1)
    (hid : V.idles = S.world.idles ∨
      e.kind = .idle ∧ V.idles = S.world.idles ++ [⟨S.world.nnodes, e.ref⟩])
    (hto : ∀ t ∈ V.timeouts, t ∈ S.world.timeouts ∨
      e.kind = .timeout ∧ t = ⟨S.world.nnodes, e.ref⟩) :
    Inv { (S.mark S.next).append e with world := V } := by
  obtain ⟨free, hrefs⟩ := inv.refs
  have htable : Value.table (.record S.world.nrecords) ≠ .nil := by simp
  have taken := taken_refTable hrefs htable
  have hpos : 0 < e.ref := href ▸ hrefs.newRef_fresh.1
  have hfresh : ∀ k ∈ S.live, (S.log k).ref ≠ e.ref :=
    fun k hl h => taken.fresh ⟨k, hl, h.trans href⟩
  have hkeep : KeepsRecords S.world V := by
    refine ⟨by omega, fun n hlt => .of_eq ?_⟩
    rw [hheap]
    exact Function.update_of_ne (by simp; omega) _ _
  have hlog : ∀ k, k < S.next → Function.update S.log S.next e k = S.log k :=
    fun k hk => Function.update_of_ne hk.ne _ _
  have hself : Function.update S.log S.next e S.next = e := Function.update_self ..
  have horigin : ∀ n, n < S.world.nnodes →
      Function.update S.origin S.world.nnodes S.next n = S.origin n :=
    fun n hn => Function.update_of_ne hn.ne _ _
  have hget : ∀ k ∈ S.live, V.registry.get (.number (S.log k).ref) =
      S.world.registry.get (.number (S.log k).ref) := fun k hl => by
    rw [hreg, taken.get _ (.inl ⟨k, hl, rfl⟩)]
  -- a node of the old lists
  have hnode : ∀ {p : Node} {kind : Kind}, (p.ptr < S.world.nnodes ∧ S.origin p.ptr ∈ S.live ∧
      (S.log (S.origin p.ptr)).kind = kind ∧ (S.log (S.origin p.ptr)).ref = p.arg) →
      p.ptr < V.nnodes ∧
      Function.update S.origin S.world.nnodes S.next p.ptr ∈ insert S.next S.live ∧
      (Function.update S.log S.next e (Function.update S.origin S.world.nnodes S.next p.ptr)).kind =
        kind ∧
      (Function.update S.log S.next e (Function.update S.origin S.world.nnodes S.next p.ptr)).ref =
        p.arg := by
    rintro p kind ⟨h1, h2, h3, h4⟩
    rw [horigin _ h1, hlog _ (inv.live_lt _ h2)]
    exact ⟨by omega, .inr h2, h3, h4⟩
  -- the new node
  have hnew : S.world.nnodes < V.nnodes ∧
      Function.update S.origin S.world.nnodes S.next S.world.nnodes ∈ insert S.next S.live ∧
      (Function.update S.log S.next e
        (Function.update S.origin S.world.nnodes S.next S.world.nnodes)).kind = e.kind ∧
      (Function.update S.log S.next e
        (Function.update S.origin S.world.nnodes S.next S.world.nnodes)).ref = e.ref := by
    rw [Function.update_self, hself]
    exact ⟨by omega, .inl rfl, rfl, rfl⟩
  simp only [System.append, System.mark, if_pos hpos]
  refine
    { refs := ⟨free.drop 1, ?_⟩
      refnil := ?_
      distinct := ?_
      live_lt := ?_
      handle_pos := ?_
      recorded := ?_
      idles := ?_
      idles_nodup := ?_
      timeouts := ?_
      firing := fun f hf => firing_mono hkeep (inv.firing f (hfi ▸ hf))
      widget := ?_
      menu_item := ?_
      owned := ?_
      unowned := fun o ho => ?_
      object := ?_ } <;> dsimp only
  · rw [hreg]
    refine (hrefs.ref htable).mono ?_
    rintro r ⟨k, rfl | hl, rfl⟩ <;> dsimp only
    · rw [hself, href]
      exact Set.mem_insert _ _
    · rw [hlog _ (inv.live_lt _ hl)]
      exact .inr ⟨k, hl, rfl⟩
  · rw [hreg, taken.get _ (.inr (by decide)), inv.refnil]
  · rintro a (rfl | ha) b (rfl | hb) h
    · rfl
    · rw [hself, hlog _ (inv.live_lt _ hb)] at h
      exact absurd h.symm (hfresh b hb)
    · rw [hself, hlog _ (inv.live_lt _ ha)] at h
      exact absurd h (hfresh a ha)
    · rw [hlog _ (inv.live_lt _ ha), hlog _ (inv.live_lt _ hb)] at h
      exact inv.distinct a ha b hb h
  · rintro a (rfl | ha)
    · omega
    · have := inv.live_lt a ha
      omega
  · intro a ha hk
    rcases Nat.lt_succ_iff_lt_or_eq.1 ha with ha | rfl
    · rw [hlog _ ha] at hk ⊢
      exact inv.handle_pos a ha hk
    · rw [hself]
      exact hpos
  · rintro a (rfl | ha) ho
    · rw [hself, hself] at *
      refine ⟨S.world.nrecords, by omega, ?_, ?_, fun _ => ?_, fun ht => ?_⟩
      · rw [hreg, href, get_refTable_self]
      all_goals rw [hheap, Function.update_self]
      exacts [hfunc, hdata, hflag ht]
    · rw [hlog _ (inv.live_lt _ ha)] at ho ⊢
      exact (inv.recorded a ha ho).mono hkeep (hget a ha)
  · intro p hp
    rcases hid with hid | ⟨hkind, hid⟩
    · exact hnode (inv.idles p (hid ▸ hp))
    · rw [hid, List.mem_append, List.mem_singleton] at hp
      rcases hp with hp | rfl
      · exact hnode (inv.idles p hp)
      · exact hkind ▸ hnew
  · rcases hid with hid | ⟨-, hid⟩
    · rw [hid]
      exact inv.idles_nodup
    · rw [hid, List.map_append, List.nodup_append]
      refine ⟨inv.idles_nodup, List.nodup_singleton _, fun a ha b hb => ?_⟩
      obtain ⟨p, hp, rfl⟩ := List.mem_map.1 ha
      rw [List.mem_singleton.1 hb, ← (inv.idles p hp).2.2.2]
      exact hfresh _ (inv.idles p hp).2.1
  · intro t ht
    rcases hto t ht with ht | ⟨hkind, rfl⟩
    · exact hnode (inv.timeouts t ht)
    · exact hkind ▸ hnew
  · intro o a ho hw
    obtain ⟨hlt, -, hl⟩ := inv.owned o a ho
    rw [hlog _ hlt] at hw ⊢
    have hst := inv.widget o a ho hw
    refine hst.mono (by rw [hcb]) (by rw [hreg, taken.string]) fun h0 => ?_
    rcases lt_or_gt_of_ne h0 with hneg | hpos
    · rw [hreg, taken.get _ (.inr hneg)]
    · exact hget a (hl (.inl hpos))
  · intro o a ho hm
    rw [hlog _ (inv.owned o a ho).1] at hm
    rw [hcb]
    exact inv.menu_item o a ho hm
  · intro o a ho
    obtain ⟨hlt, h2, h3⟩ := inv.owned o a ho
    rw [hlog _ hlt]
    exact ⟨by omega, h2, fun h => .inr (h3 h)⟩
  · rw [hcb]
    exact inv.unowned o ho
  · rintro o a (rfl | ha) h
    · rw [hself] at h
      rcases h with h | h <;> rw [h] at hhandle <;> cases hhandle
    · rw [hlog _ (inv.live_lt _ ha)] at h
      exact inv.object o a ha h

/-- A step that changes the frame only. -/
theorem Inv.frame {S : System} {V : World} (inv : Inv S) {stack : Nat → Value} {top : Nat}
    (hV : V = { S.world with stack := stack, top := top }) : Inv { S with world := V } := by
  subst hV
  exact inv.quiet ⟨le_rfl, fun _ _ => .of_eq rfl⟩ rfl rfl (.refl _) (fun _ h => h)
    (fun _ h => .inl h) rfl

/-- A new handler gets a reference of its own. -/
theorem Inv.add_idle {S : System} {f d : Nat} (inv : Inv S)
    (ha : Allowed S (.set_fltk_fl_add_idle f d)) : Inv (S.exec (.set_fltk_fl_add_idle f d)) := by
  rcases Nat.eq_zero_or_pos f with rfl | hf
  · exact inv
  · obtain ⟨stack, top, hrun⟩ := set_fltk_fl_add_idle_run hf ha.1 ha.2
    have hcode : run (Action.code S (.set_fltk_fl_add_idle f d)) S.world =
        (((run (set_fltk_fl_add_idle f d) S.world).1, none),
          (run (set_fltk_fl_add_idle f d) S.world).2) := rfl
    simp only [System.exec, if_neg hf.ne', Action.after]
    rw [hcode, hrun]
    refine inv.add (T := handlerRecord (valueAt S.world f) (given S.world d)) rfl rfl rfl rfl rfl
      ?_ ?_ (fun h => by cases h) rfl rfl rfl (.inr ⟨rfl, rfl⟩) (fun _ h => .inl h) <;>
      simp [handlerRecord, Table.get_set_ne]

/-- So does a new timer. -/
theorem Inv.add_timeout {S : System} {pos f d : Nat} (inv : Inv S)
    (ha : Allowed S (.set_fltk_fl_add_timeout pos f d)) :
    Inv (S.exec (.set_fltk_fl_add_timeout pos f d)) := by
  rcases Nat.eq_zero_or_pos f with rfl | hf
  · exact inv
  · obtain ⟨stack, top, hrun⟩ := set_fltk_fl_add_timeout_run pos hf ha.1 ha.2
    have hcode : run (Action.code S (.set_fltk_fl_add_timeout pos f d)) S.world =
        (((run (set_fltk_fl_add_timeout pos f d) S.world).1, none),
          (run (set_fltk_fl_add_timeout pos f d) S.world).2) := rfl
    simp only [System.exec, if_neg hf.ne', Action.after]
    rw [hcode, hrun]
    refine inv.add (T := timerRecord (valueAt S.world f) (given S.world d)) rfl rfl rfl rfl rfl
      ?_ ?_ (fun _ => ?_) rfl rfl rfl (.inl rfl) (fun t ht => ?_)
    · simp [timerRecord, handlerRecord, Table.get_set_ne]
    · simp [timerRecord, handlerRecord, Table.get_set_ne]
    · simp [timerRecord, Value.isboolean]
    · rcases List.mem_append.1 ht with ht | ht
      · exact .inl (List.mem_of_mem_take ht)
      · rcases List.mem_cons.1 ht with rfl | ht
        · exact .inr ⟨rfl, rfl⟩
        · exact .inl (List.mem_of_mem_drop ht)

/-- Repeating a live timer; with any other handle nothing happens. -/
theorem Inv.repeat_timeout {S : System} {pos k : Nat} (inv : Inv S)
    (hc : Careful S (.set_fltk_fl_repeat_timeout pos k)) :
    Inv (S.exec (.set_fltk_fl_repeat_timeout pos k)) := by
  have hafter : Action.after (.set_fltk_fl_repeat_timeout pos k) S =
      (run (set_fltk_fl_repeat_timeout pos (S.log k).ref) S.world).2 := rfl
  simp only [System.exec, hafter]
  -- nodes made so far keep their registration
  have horigin : ∀ n, n < S.world.nnodes →
      Function.update S.origin S.world.nnodes k n = S.origin n :=
    fun n hn => Function.update_of_ne hn.ne _ _
  by_cases ht : (S.world.registry.get (.number (S.log k).ref)).istable = true
  · obtain ⟨hl, hkind⟩ := hc ht
    obtain ⟨n, hlt, htbl, -⟩ := inv.recorded k hl (by simp [hkind])
    obtain ⟨stack, top, hrun⟩ := set_fltk_fl_repeat_timeout_run pos htbl
    rw [hrun]
    have hkeep : KeepsRecords S.world { S.world with
        stack := stack, top := top,
        heap := Function.update S.world.heap (.record n)
          ((S.world.heap (.record n)).set (.string "repeat") (.boolean true)),
        timeouts := S.world.timeouts.take pos ++
          ⟨S.world.nnodes, (S.log k).ref⟩ :: S.world.timeouts.drop pos,
        nnodes := S.world.nnodes + 1 } := by
      refine ⟨le_rfl, fun m _ => ?_⟩
      by_cases hm : m = n
      · subst hm
        simp only [Function.update_self]
        exact ⟨Table.get_set_ne _ _ (by simp), Table.get_set_ne _ _ (by simp),
          fun _ => by rw [Table.get_set_self]; rfl⟩
      · exact .of_eq (Function.update_of_ne (by simpa using hm) _ _)
    have hold : ∀ {p : Node} {kind : Kind}, (p.ptr < S.world.nnodes ∧ S.origin p.ptr ∈ S.live ∧
        (S.log (S.origin p.ptr)).kind = kind ∧ (S.log (S.origin p.ptr)).ref = p.arg) →
        p.ptr < S.world.nnodes + 1 ∧
        Function.update S.origin S.world.nnodes k p.ptr ∈ S.live ∧
        (S.log (Function.update S.origin S.world.nnodes k p.ptr)).kind = kind ∧
        (S.log (Function.update S.origin S.world.nnodes k p.ptr)).ref = p.arg := by
      rintro p kind ⟨h1, h2⟩
      rw [horigin _ h1]
      exact ⟨by omega, h2⟩
    exact
      { refs := inv.refs
        refnil := inv.refnil
        distinct := inv.distinct
        live_lt := inv.live_lt
        handle_pos := inv.handle_pos
        recorded := fun a ha ho => (inv.recorded a ha ho).mono hkeep rfl
        idles := fun p hp => hold (inv.idles p hp)
        idles_nodup := inv.idles_nodup
        timeouts := fun t ht => by
          have ht' : t ∈ S.world.timeouts ∨ t = ⟨S.world.nnodes, (S.log k).ref⟩ := by
            rcases List.mem_append.1 ht with ht | ht
            · exact .inl (List.mem_of_mem_take ht)
            · exact (List.mem_cons.1 ht).symm.imp_left List.mem_of_mem_drop
          rcases ht' with ht' | rfl
          · exact hold (inv.timeouts t ht')
          · have hself : Function.update S.origin S.world.nnodes k S.world.nnodes = k :=
              Function.update_self ..
            exact ⟨Nat.lt_succ_self _, by
              simp only [System.mark, hself]
              exact ⟨hl, hkind, trivial⟩⟩
        firing := fun f hf => firing_mono hkeep (inv.firing f hf)
        widget := fun o a ho hw => (inv.widget o a ho hw).mono rfl rfl fun _ => rfl
        menu_item := inv.menu_item
        owned := inv.owned
        unowned := inv.unowned
        object := inv.object }
  · obtain ⟨stack, top, hrun⟩ := set_fltk_fl_repeat_timeout_run_none pos (by simpa using ht)
    rw [hrun]
    have h := inv.frame (V := { S.world with stack := stack, top := top }) rfl
    exact { h with
      idles := fun p hp => by
        obtain ⟨h1, h2⟩ := inv.idles p hp
        simp only [System.mark, horigin _ h1]
        exact ⟨h1, h2⟩
      timeouts := fun t ht => by
        obtain ⟨h1, h2⟩ := inv.timeouts t ht
        simp only [System.mark, horigin _ h1]
        exact ⟨h1, h2⟩ }

/-! ## Registering the callback of an object -/

/-- The registrations that stay when `o` gets a new one. -/
def System.others (S : System) (o : Nat) : Set Nat := { k ∈ S.live | S.owner o ≠ some k }

/-- A registration for a widget or an item takes the place of the one before. -/
theorem Inv.own {S : System} {V : World} {o : Nat} {e : Entry} {live₂ : Set Int} {c : Trampoline}
    (inv : Inv S) (hkind : e.kind = .widget o ∨ e.kind = .menu_item o)
    (hrefs : ∃ free, RefInv V.registry free live₂)
    (hnil : V.registry.get (.number LUA_REFNIL) = .nil)
    (hothers : ∀ k ∈ S.others o, (S.log k).ref ∈ live₂ ∧ (S.log k).ref ≠ e.ref)
    (hself : 0 < e.ref → e.ref ∈ live₂)
    (hget : ∀ s : Int, (∃ k ∈ S.others o, (S.log k).ref = s) ∨ s < 0 →
      V.registry.get (.number s) = S.world.registry.get (.number s))
    (hkey : ∀ o' ≠ o, V.registry.get (.string (CALLBACK_PTRSTR o')) =
      S.world.registry.get (.string (CALLBACK_PTRSTR o')))
    (hkeep : KeepsRecords S.world V)
    (hcb : V.callback = Function.update S.world.callback o (some c))
    (hid : V.idles = S.world.idles) (hto : V.timeouts = S.world.timeouts)
    (hfi : V.firing = S.world.firing) (hnn : V.nnodes = S.world.nnodes)
    (hwidget : e.kind = .widget o → WidgetStored V o e)
    (hitem : e.kind = .menu_item o →
      c = .lua_fltk_menu_item_callback ∧ 0 < e.ref ∧ Recorded V e) :
    Inv { S.own o e with world := V } := by
  obtain ⟨free, hrefs⟩ := hrefs
  have hlog : ∀ k, k < S.next → Function.update S.log S.next e k = S.log k :=
    fun k hk => Function.update_of_ne hk.ne _ _
  have hnew : Function.update S.log S.next e S.next = e := Function.update_self ..
  have hlt : ∀ k ∈ S.others o, k < S.next := fun k hk => inv.live_lt k hk.1
  -- a registration of another kind stays live
  have hstay : ∀ k ∈ S.live, (S.log k).kind ≠ .widget o → (S.log k).kind ≠ .menu_item o →
      k ∈ S.others o := fun k hl hw hm => ⟨hl, fun ho => ((inv.owned o k ho).2.1).elim hw hm⟩
  have hne : ∀ o' ≠ o, ∀ k, S.owner o' = some k → S.owner o ≠ some k := by
    intro o' ho' k hk h
    rcases (inv.owned o' k hk).2.1 with h1 | h1 <;> rcases (inv.owned o k h).2.1 with h2 | h2 <;>
      rw [h1] at h2 <;> cases h2 <;> exact ho' rfl
  simp only [System.own, System.append]
  change Inv { world := V, log := Function.update S.log S.next e, next := S.next + 1
               live := if 0 < e.ref then insert S.next (S.others o) else S.others o
               owner := Function.update S.owner o (some S.next), origin := S.origin }
  have hmem : ∀ k, k ∈ (if 0 < e.ref then insert S.next (S.others o) else S.others o) →
      k = S.next ∧ 0 < e.ref ∨ k ∈ S.others o := by
    intro k hk
    split at hk
    · next h => exact hk.imp_left fun hk => ⟨hk, h⟩
    · exact .inr hk
  have hin : ∀ k ∈ S.others o, k ∈ (if 0 < e.ref then insert S.next (S.others o) else S.others o) := by
    intro k hk
    split
    · exact .inr hk
    · exact hk
  refine
    { refs := ⟨free, hrefs.mono ?_⟩
      refnil := hnil
      distinct := ?_
      live_lt := ?_
      handle_pos := ?_
      recorded := ?_
      idles := ?_
      idles_nodup := hid ▸ inv.idles_nodup
      timeouts := ?_
      firing := fun f hf => firing_mono hkeep (inv.firing f (hfi ▸ hf))
      widget := ?_
      menu_item := ?_
      owned := ?_
      unowned := ?_
      object := ?_ } <;> try dsimp only
  · rintro r ⟨k, hk, rfl⟩
    rcases hmem k hk with ⟨rfl, hpos⟩ | hk
    · simp only [hnew]
      exact hself hpos
    · simp only [hlog k (hlt k hk)]
      exact (hothers k hk).1
  · intro a ha b hb h
    rcases hmem a ha with ⟨rfl, -⟩ | ha <;> rcases hmem b hb with ⟨rfl, -⟩ | hb
    · rfl
    · rw [hnew, hlog b (hlt b hb)] at h
      exact absurd h.symm (hothers b hb).2
    · rw [hnew, hlog a (hlt a ha)] at h
      exact absurd h (hothers a ha).2
    · rw [hlog a (hlt a ha), hlog b (hlt b hb)] at h
      exact inv.distinct a ha.1 b hb.1 h
  · intro a ha
    rcases hmem a ha with ⟨rfl, -⟩ | ha
    · omega
    · have := hlt a ha
      omega
  · intro a ha hk
    rcases Nat.lt_succ_iff_lt_or_eq.1 ha with ha | rfl
    · rw [hlog a ha] at hk ⊢
      exact inv.handle_pos a ha hk
    · rw [hnew] at hk
      rcases hkind with h | h <;> rw [h] at hk <;> cases hk
  · intro a ha hw
    rcases hmem a ha with ⟨rfl, -⟩ | ha
    · rw [hnew] at hw ⊢
      exact (hitem (hkind.resolve_left (hw o))).2.2
    · rw [hlog a (hlt a ha)] at hw ⊢
      exact (inv.recorded a ha.1 hw).mono hkeep (hget _ (.inl ⟨a, ha, rfl⟩))
  · intro p hp
    obtain ⟨h1, h2, h3, h4⟩ := inv.idles p (hid ▸ hp)
    rw [hlog _ (inv.live_lt _ h2)]
    exact ⟨hnn ▸ h1, hin _ (hstay _ h2 (by simp [h3]) (by simp [h3])), h3, h4⟩
  · intro t ht
    obtain ⟨h1, h2, h3, h4⟩ := inv.timeouts t (hto ▸ ht)
    rw [hlog _ (inv.live_lt _ h2)]
    exact ⟨hnn ▸ h1, hin _ (hstay _ h2 (by simp [h3]) (by simp [h3])), h3, h4⟩
  · intro o' a ho hw
    by_cases ho' : o' = o
    · subst ho'
      rw [Function.update_self] at ho
      cases ho
      rw [hnew] at hw ⊢
      exact hwidget hw
    · rw [Function.update_of_ne ho'] at ho
      obtain ⟨h1, -, h3⟩ := inv.owned o' a ho
      rw [hlog a h1] at hw ⊢
      refine (inv.widget o' a ho hw).mono ?_ (hkey o' ho') fun h0 => hget _ ?_
      · rw [hcb, Function.update_of_ne ho']
      · rcases lt_or_gt_of_ne h0 with hneg | hpos
        · exact .inr hneg
        · exact .inl ⟨a, ⟨h3 (.inl hpos), hne o' ho' a ho⟩, rfl⟩
  · intro o' a ho hm
    by_cases ho' : o' = o
    · subst ho'
      rw [Function.update_self] at ho
      cases ho
      rw [hnew] at hm
      rw [hcb, Function.update_self, (hitem hm).1]
    · rw [Function.update_of_ne ho'] at ho
      rw [hlog a (inv.owned o' a ho).1] at hm
      rw [hcb, Function.update_of_ne ho']
      exact inv.menu_item o' a ho hm
  · intro o' a ho
    by_cases ho' : o' = o
    · subst ho'
      rw [Function.update_self] at ho
      cases ho
      rw [hnew]
      have hpos : 0 < e.ref ∨ e.kind = .menu_item o' → 0 < e.ref :=
        fun h => h.elim id fun h => (hitem h).2.1
      exact ⟨by omega, hkind, fun h => by rw [if_pos (hpos h)]; exact .inl rfl⟩
    · rw [Function.update_of_ne ho'] at ho
      obtain ⟨h1, h2, h3⟩ := inv.owned o' a ho
      rw [hlog a h1]
      exact ⟨by omega, h2, fun h => hin a ⟨h3 h, hne o' ho' a ho⟩⟩
  · intro o' ho
    by_cases ho' : o' = o
    · subst ho'
      rw [Function.update_self] at ho
      cases ho
    · rw [Function.update_of_ne ho'] at ho
      rw [hcb, Function.update_of_ne ho']
      exact inv.unowned o' ho
  · intro o' a ha hk
    rcases hmem a ha with ⟨rfl, -⟩ | ha
    · rw [hnew] at hk
      have : o' = o := by
        rcases hkind with h | h <;> rcases hk with h' | h' <;> rw [h] at h' <;> cases h' <;> rfl
      rw [this, Function.update_self]
    · rw [hlog a (hlt a ha)] at hk
      have ho := inv.object o' a ha.1 hk
      have hne' : o' ≠ o := by
        rintro rfl
        exact ha.2 ho
      rw [Function.update_of_ne hne', ho]

/-- The references of the other registrations are not the one `o` releases. -/
theorem Releasable.others {S : System} {o : Nat}
    (h : Releasable S (S.world.user_data o) fun k => S.owner o = some k)
    (hpos : ∀ k ∈ S.live, 0 < (S.log k).ref) :
    ∀ k ∈ S.others o, (S.log k).ref ∈ S.refs \ {S.world.user_data o} :=
  fun k hk => ⟨⟨k, hk.1, rfl⟩, fun e => hk.2 ((h (e ▸ hpos k hk.1)).2 k hk.1 e)⟩

/-- The data of the callback before is released. -/
theorem Inv.set_widget_callback {S : System} {o f d : Nat} (inv : Inv S)
    (ha : Allowed S (.set_fltk_widget_callback o f d))
    (hc : Careful S (.set_fltk_widget_callback o f d)) :
    Inv (S.exec (.set_fltk_widget_callback o f d)) := by
  obtain ⟨hf, hft, hd⟩ := ha
  obtain ⟨stack, top, hrun⟩ := set_fltk_widget_callback_run (w := o) hf hft hd
  have hafter : Action.after (.set_fltk_widget_callback o f d) S =
      (run (set_fltk_widget_callback o f d) S.world).2 := rfl
  simp only [System.exec, hafter]
  rw [hrun]
  set reg := widgetRegistry S.world o (valueAt S.world f) with hreg
  obtain ⟨free, hrefs⟩ := inv.refs
  have hpos : ∀ k ∈ S.live, 0 < (S.log k).ref := fun k hl => hrefs.live_pos _ ⟨k, hl, rfl⟩
  have hothers := hc.1.others hpos
  -- the registry once the function is stored and the old reference released
  have inv₀ : RefInv (S.world.registry.set (.string (CALLBACK_PTRSTR o)) (valueAt S.world f)) free
      S.refs := hrefs.congr fun r => Table.get_set_ne _ _ (by simp)
  obtain ⟨free₁, inv₁⟩ := releaseOld_inv _ inv₀ fun h => (hc.1 h).1 free hrefs.chain
  have hget₁ : ∀ s, s ∈ S.refs \ {S.world.user_data o} ∨ s < 0 →
      reg.get (.number s) = S.world.registry.get (.number s) := by
    intro s hs
    rw [hreg, widgetRegistry, get_releaseOld, Table.get_set_ne _ _ (by simp)]
    · rcases hs with hs | hs
      · exact (inv₁.live_pos s hs).ne'
      · omega
    · rintro rfl
      rcases hs with hs | hs
      · exact absurd rfl hs.2
      · exact hs
  have hnil₁ : reg.get (.number LUA_REFNIL) = .nil := by
    rw [hget₁ _ (.inr (by decide)), inv.refnil]
  have hkey₁ : ∀ o', reg.get (.string (CALLBACK_PTRSTR o')) =
      if o' = o then valueAt S.world f else S.world.registry.get (.string (CALLBACK_PTRSTR o')) := by
    intro o'
    rw [hreg, widgetRegistry, get_releaseOld_string]
    split
    · next h => rw [h, Table.get_set_self]
    · next h =>
      exact Table.get_set_ne _ _ fun e => h (CALLBACK_PTRSTR_injective (Value.string.inj e))
  obtain ⟨live₂, taken⟩ : ∃ live₂, Taken reg (S.refs \ {S.world.user_data o})
      (widgetData S.world d) (takeData reg S.world d).1 (takeData reg S.world d).2 live₂ := by
    unfold takeData widgetData
    split
    · exact ⟨_, taken_nil inv₁ (.inl rfl) hnil₁⟩
    · exact taken_takeRef inv₁ hnil₁ _
  generalize takeData reg S.world d = p at taken
  obtain ⟨r, reg'⟩ := p
  dsimp only at taken
  have hud : Function.update S.world.user_data o r o = r := Function.update_self ..
  refine inv.own (c := .lua_fltk_widget_callback) (.inl rfl) taken.refs
    (by rw [taken.get _ (.inr (by decide)), hnil₁])
    (fun k hk => ⟨taken.subset (hothers k hk), fun e => taken.fresh (by
      simp only [hud] at e
      exact e ▸ hothers k hk)⟩)
    (fun h => ?_) (fun s hs => ?_)
    (fun o' ho => by rw [taken.string, hkey₁, if_neg ho])
    ⟨le_rfl, fun _ _ => .of_eq rfl⟩ rfl rfl rfl rfl rfl (fun _ => ?_) (fun h => by cases h)
  · simp only [hud] at h ⊢
    rcases taken.held with h0 | h0 | h0
    · omega
    · rw [h0] at h
      exact absurd h (by decide)
    · exact h0
  · have hs' : s ∈ S.refs \ {S.world.user_data o} ∨ s < 0 := by
      rcases hs with hs | hs
      · obtain ⟨k, hk, e⟩ := hs
        exact .inl (e ▸ hothers k hk)
      · exact .inr hs
    rw [taken.get s hs', hget₁ s hs']
  · refine ⟨Function.update_self .., ?_, fun hfun => ?_⟩
    · rw [taken.string, hkey₁, if_pos rfl]
    · simp only [hud]
      rw [taken.self]
      have := hc.2 hfun
      unfold widgetData
      split
      · next h => rw [given, if_neg h.1, h.2]
      · next h => exact this.resolve_left h

/-- The record of the callback before is released. -/
theorem Inv.set_menu_item_callback {S : System} {o f d : Nat} (inv : Inv S)
    (ha : Allowed S (.set_fltk_menu_item_callback o f d))
    (hc : Careful S (.set_fltk_menu_item_callback o f d)) :
    Inv (S.exec (.set_fltk_menu_item_callback o f d)) := by
  obtain ⟨hf, hft, hd⟩ := ha
  obtain ⟨stack, hrun⟩ := set_fltk_menu_item_callback_run (w := o) hft hd
  have hafter : Action.after (.set_fltk_menu_item_callback o f d) S =
      (run (set_fltk_menu_item_callback o f d) S.world).2 := rfl
  simp only [System.exec, hafter]
  rw [hrun]
  obtain ⟨free, hrefs⟩ := inv.refs
  have hpos : ∀ k ∈ S.live, 0 < (S.log k).ref := fun k hl => hrefs.live_pos _ ⟨k, hl, rfl⟩
  have hothers := hc.1.others hpos
  have taken := taken_refTable hrefs (v := .table (.record S.world.nrecords)) (by simp)
  have inv₁ := hrefs.ref (v := .table (.record S.world.nrecords)) (by simp)
  obtain ⟨free₂, inv₂⟩ := releaseOld_inv (S.world.user_data o) inv₁ fun h hm =>
    (hc.1 h).1 free hrefs.chain (List.mem_of_mem_drop hm)
  have hnew : 0 < newRef S.world.registry := hrefs.newRef_fresh.1
  have hud : Function.update S.world.user_data o (newRef S.world.registry) o =
    newRef S.world.registry := Function.update_self ..
  have hget : ∀ s, s ∈ S.refs \ {S.world.user_data o} ∨ s < 0 →
      (releaseOld (refTable S.world.registry (.table (.record S.world.nrecords)))
        (S.world.user_data o)).get (.number s) = S.world.registry.get (.number s) := by
    intro s hs
    have h0 : s ≠ 0 := by
      rcases hs with hs | hs
      · exact (hrefs.live_pos s hs.1).ne'
      · omega
    rw [get_releaseOld h0, taken.get s (hs.imp_left And.left)]
    rintro rfl
    rcases hs with hs | hs
    · exact absurd rfl hs.2
    · exact hs
  have hself : (releaseOld (refTable S.world.registry (.table (.record S.world.nrecords)))
      (S.world.user_data o)).get (.number (newRef S.world.registry)) =
        .table (.record S.world.nrecords) := by
    rw [get_releaseOld hnew.ne' fun e => absurd e.symm hc.2, get_refTable_self]
  refine inv.own (c := .lua_fltk_menu_item_callback) (.inr rfl) ⟨free₂, inv₂⟩
    (by rw [hget _ (.inr (by decide)), inv.refnil])
    (fun k hk => ⟨⟨.inr (hothers k hk).1, (hothers k hk).2⟩, fun e => taken.fresh (by
      simp only [hud] at e
      exact e ▸ (hothers k hk).1)⟩)
    (fun _ => by
      simp only [hud]
      exact ⟨Set.mem_insert _ _, fun e => hc.2 e.symm⟩)
    (fun s hs => hget s (hs.imp_left fun ⟨k, hk, e⟩ => e ▸ hothers k hk))
    (fun o' _ => by rw [get_releaseOld_string, taken.string])
    ⟨Nat.le_succ _, fun n hn => .of_eq (Function.update_of_ne (by simp; omega) _ _)⟩
    rfl rfl rfl rfl rfl (fun h => by cases h)
    (fun _ => ⟨rfl, by simpa only [hud] using hnew, ⟨S.world.nrecords, Nat.lt_succ_self _, ?_⟩⟩)
  simp only [hud, Function.update_self, hself, true_and]
  refine ⟨?_, fun h => (by cases h), fun h => by cases h⟩
  have hafter : argAfter S.world 2 f = valueAt S.world f := if_neg hf.ne'
  simp [menuRecord, Table.get_set_ne, hafter]

/-! ## Firing -/

/-- The ring turns, and its handler is called with its data. -/
theorem Inv.call_idle {S : System} (inv : Inv S) : Inv (S.exec .call_idle) ∧
    Action.call .call_idle S = S.asked .call_idle := by
  have hexec : S.exec .call_idle = { S with world := (run Binding.call_idle S.world).2 } := rfl
  have hcall : Action.call .call_idle S = (run Binding.call_idle S.world).1 := rfl
  rw [hexec, hcall, Binding.call_idle, run_bind, run_get]
  cases hid : S.world.idles with
  | nil =>
    refine ⟨inv, ?_⟩
    simp [System.asked, hid, run_pure]
  | cons p rest =>
    simp only [run_bind, run_modify]
    obtain ⟨stack, top, hrun⟩ := lua_fltk_fl_idle_run p.arg
      { S.world with idles := rest ++ [p] }
    rw [hrun]
    constructor
    · refine inv.quiet ⟨le_rfl, fun _ _ => .of_eq rfl⟩ rfl rfl ?_ (fun _ h => h)
        (fun _ h => .inl h) rfl
      rw [hid]
      exact List.perm_append_singleton p rest
    · obtain ⟨-, hl, hkind, href⟩ := inv.idles p (by simp [hid])
      obtain ⟨n, -, htbl, hf, hd, -⟩ := inv.recorded _ hl (by simp [hkind])
      rw [href] at htbl
      rw [lua_fltk_fl_idle_call (W := { S.world with idles := rest ++ [p] }) htbl]
      simp only [System.asked, hid]
      rw [hf, hd (by simp [hkind, Kind.hasHandle])]

/-- The first timer leaves the queue and is called with its data. -/
theorem Inv.fireTimeout {S : System} (inv : Inv S) : Inv (S.exec .fireTimeout) ∧
    Action.call .fireTimeout S = S.asked .fireTimeout := by
  have hexec : S.exec .fireTimeout = { S with world := (run Binding.fireTimeout S.world).2 } := rfl
  have hcall : Action.call .fireTimeout S = (run Binding.fireTimeout S.world).1 := rfl
  rw [hexec, hcall, Binding.fireTimeout, run_bind, run_get]
  cases hto : S.world.timeouts with
  | nil =>
    refine ⟨inv, ?_⟩
    simp [System.asked, hto, run_pure]
  | cons t rest =>
    simp only [run_bind, run_modify]
    obtain ⟨-, hl, hkind, href⟩ := inv.timeouts t (by simp [hto])
    obtain ⟨n, hn, htbl, hf, hd, hb⟩ := inv.recorded _ hl (by simp [hkind])
    rw [href] at htbl
    obtain ⟨stack, top, fire, hholds, -, hrun⟩ := lua_fltk_fl_timeout_run
      (W := { S.world with timeouts := rest }) htbl
    rw [hrun]
    constructor
    · refine inv.quiet ⟨le_rfl, fun _ _ => .of_eq rfl⟩ rfl rfl (.refl _)
        (fun u hu => by rw [hto]; exact .tail _ hu) (fun g hg => ?_) rfl
      rcases List.mem_cons.1 hg with rfl | hg
      · exact .inr ⟨n, hn, hholds, hb hkind⟩
      · exact .inl hg
    · rw [lua_fltk_fl_timeout_call (W := { S.world with timeouts := rest }) htbl]
      simp only [System.asked, hto]
      rw [hf, hd (by simp [hkind, Kind.hasHandle])]

/-- A timer is armed again where its record asks for it. -/
theorem Inv.timeoutReturn {S : System} (inv : Inv S) : Inv (S.exec .timeoutReturn) := by
  have hexec : S.exec .timeoutReturn =
    { S with world := (run lua_fltk_fl_timeout_return S.world).2 } := rfl
  rw [hexec]
  cases hfi : S.world.firing with
  | nil =>
    rw [lua_fltk_fl_timeout_return, run_bind, run_get, hfi]
    exact inv
  | cons f rest =>
    obtain ⟨n, -, hholds, hb⟩ := inv.firing f (by simp [hfi])
    obtain ⟨stack, top, hrun⟩ := lua_fltk_fl_timeout_return_run hfi hholds hb
    rw [hrun]
    exact inv.quiet ⟨le_rfl, fun _ _ => .of_eq rfl⟩ rfl rfl (.refl _) (fun _ h => h)
      (fun g hg => .inl (by rw [hfi]; exact .tail _ hg)) rfl

/-- A callback is called with the data last given. -/
theorem Inv.do_callback {S : System} {menu o : Nat} (inv : Inv S)
    (hc : Careful S (.do_callback menu o)) : Inv (S.exec (.do_callback menu o)) ∧
      Action.call (.do_callback menu o) S = S.asked (.do_callback menu o) := by
  have hexec : S.exec (.do_callback menu o) =
    { S with world := (run (Binding.do_callback menu o) S.world).2 } := rfl
  have hcall : Action.call (.do_callback menu o) S = (run (Binding.do_callback menu o) S.world).1 := rfl
  rw [hexec, hcall]
  constructor
  · obtain ⟨stack, top, hrun⟩ := do_callback_run menu o S.world
    exact inv.frame hrun
  · cases ho : S.owner o with
    | none =>
      rw [do_callback_none menu (inv.unowned o ho)]
      simp [System.asked, ho]
    | some k =>
      obtain ⟨hud, hitem⟩ := hc k ho
      obtain ⟨-, hkind, hl⟩ := inv.owned o k ho
      rcases hkind with hkind | hkind
      · have hst := inv.widget o k ho hkind
        rw [do_callback_widget menu hst.callback, lua_fltk_widget_callback_call, hst.func, hud]
        simp only [System.asked, ho, hkind]
        by_cases hf : (S.log k).func.isfunction = true
        · rw [hst.data hf]
        · simp [callOf, hf]
      · obtain ⟨n, -, htbl, hf, -⟩ := inv.recorded k (hl (.inr hkind)) (by simp [hkind])
        rw [do_callback_menu_item menu (inv.menu_item o k ho hkind), hud,
          lua_fltk_menu_item_callback_call htbl, hf]
        simp only [System.asked, ho, hkind]
        by_cases hf : (S.log k).func.isfunction = true
        · rw [hitem hkind hf]
        · simp [callOf, hf]

/-! ## Runs -/

/-- One careful action keeps the invariant, and what it fires is what was asked for. -/
theorem Inv.step {S : System} {a : Action} (inv : Inv S) (ha : Allowed S a) (hc : Careful S a) :
    Inv (S.exec a) ∧ a.call S = S.asked a := by
  cases a with
  | set_fltk_widget_callback o f d => exact ⟨inv.set_widget_callback ha hc, rfl⟩
  | set_fltk_menu_item_callback o f d => exact ⟨inv.set_menu_item_callback ha hc, rfl⟩
  | set_fltk_fl_add_idle f d => exact ⟨inv.add_idle ha, rfl⟩
  | fltk_fl_remove_idle k => exact ⟨inv.remove_idle ha hc, rfl⟩
  | set_fltk_fl_add_timeout pos f d => exact ⟨inv.add_timeout ha, rfl⟩
  | set_fltk_fl_repeat_timeout pos k => exact ⟨inv.repeat_timeout hc, rfl⟩
  | fltk_fl_remove_timeout k => exact ⟨inv.remove_timeout ha hc, rfl⟩
  | user_data o v =>
    exact ⟨inv.quiet ⟨le_rfl, fun _ _ => .of_eq rfl⟩ rfl rfl (.refl _) (fun _ h => h)
      (fun _ h => .inl h) rfl, rfl⟩
  | do_callback menu o => exact inv.do_callback hc
  | call_idle => exact inv.call_idle
  | fireTimeout => exact inv.fireTimeout
  | timeoutReturn => exact ⟨inv.timeoutReturn, rfl⟩

/-- What Lua does in between keeps the invariant. -/
theorem Inv.between {S : System} {V : World} (inv : Inv S) (h : Between S.world V) :
    Inv { S with world := V } :=
  inv.quiet ⟨h.nrecords.ge, fun n hn => .of_eq (h.record n hn)⟩ h.registry h.callback
    (h.idles ▸ .refl _) (fun _ ht => h.timeouts ▸ ht) (fun _ hf => .inl (h.firing ▸ hf)) h.nnodes

/-- At the start nothing is registered. -/
theorem Inv.start {W : World} {free : List Int} (log : Nat → Entry) (origin : Nat → Nat)
    (hrefs : RefInv W.registry free ∅) (hnil : W.registry.get (.number LUA_REFNIL) = .nil)
    (hcb : ∀ o, W.callback o = none) (hid : W.idles = []) (hto : W.timeouts = [])
    (hfi : W.firing = []) : Inv ⟨W, log, 0, ∅, fun _ => none, origin⟩ where
  refs := ⟨free, hrefs.mono fun _ ⟨_, h, _⟩ => h.elim⟩
  refnil := hnil
  distinct := fun _ h => h.elim
  live_lt := fun _ h => h.elim
  handle_pos := fun _ h => absurd h (Nat.not_lt_zero _)
  recorded := fun _ h => h.elim
  idles := by simp [hid]
  idles_nodup := by simp [hid]
  timeouts := by simp [hto]
  firing := by simp [hfi]
  widget := fun _ _ h => by cases h
  menu_item := fun _ _ h => by cases h
  owned := fun _ _ h => by cases h
  unowned := fun o _ => hcb o
  object := fun _ _ h => h.elim

/-- The invariant of careful runs, by induction on the run. -/
theorem Reach.inv {S : System} (h : Reach Careful S) : Inv S := by
  induction h with
  | start log origin hrefs hnil hcb hid hto hfi =>
    exact Inv.start log origin hrefs hnil hcb hid hto hfi
  | between _ hb ih => exact ih.between hb
  | act a _ ha hc ih => exact (ih.step ha hc).1

/-- Along every run of careful actions the references are safe, and every firing runs the
function with the data that its registration was given. -/
theorem careful_run_safe {S : System} (h : Reach Careful S) :
    Safe S ∧ ∀ a, Allowed S a → Careful S a → a.call S = S.asked a :=
  ⟨h.inv.safe, fun _ ha hc => (h.inv.step ha hc).2⟩

/-- The system at the start, with one function on the stack. -/
def System.initial : System :=
  ⟨started [.function 1], fun _ => ⟨.idle, 0, .nil, .nil⟩, 0, ∅, fun _ => none, fun _ => 0⟩

theorem System.initial_reach (P : System → Action → Prop) : Reach P System.initial :=
  .start _ _ refInv_empty rfl (fun _ => rfl) rfl rfl rfl

/-- A handler that gets a reference is live. -/
theorem System.exec_add_idle_live {S : System} {f d : Nat} (hf : f ≠ 0)
    (hr : 0 < (run (Action.code S (.set_fltk_fl_add_idle f d)) S.world).1.1) :
    (S.exec (.set_fltk_fl_add_idle f d)).live = insert S.next S.live := by
  simp only [System.exec, if_neg hf, System.append, System.mark, if_pos hr]

/-- A live handle may be released. -/
theorem Inv.releasable {S : System} {k : Nat} (inv : Inv S) (hk : k ∈ S.live) :
    Releasable S (S.log k).ref (· = k) := by
  obtain ⟨free, hrefs⟩ := inv.refs
  refine fun _ => ⟨fun free' hfree' => ?_, fun j hj heq => inv.distinct j hj k hk heq⟩
  rw [hfree'.unique hrefs.chain]
  exact hrefs.apart _ ⟨k, hk, rfl⟩

/-- A program that adds two idle functions, takes the first one away, adds a third one, and lets
FLTK call the next. -/
def recycled : List Action :=
  [.set_fltk_fl_add_idle 1 0, .set_fltk_fl_add_idle 1 0, .fltk_fl_remove_idle 0,
    .set_fltk_fl_add_idle 1 0, .call_idle]

theorem recycled_reach : Reach Careful (recycled.foldl System.exec System.initial) := by
  have hadded : Reach Careful ((recycled.take 2).foldl System.exec System.initial) :=
    .act (.set_fltk_fl_add_idle 1 0) (.act (.set_fltk_fl_add_idle 1 0) (System.initial_reach _)
      ⟨by decide, by decide⟩ trivial) ⟨by decide, by decide⟩ trivial
  have hlive : 0 ∈ ((recycled.take 2).foldl System.exec System.initial).live := by
    change 0 ∈ (System.exec (System.exec System.initial (.set_fltk_fl_add_idle 1 0))
      (.set_fltk_fl_add_idle 1 0)).live
    rw [System.exec_add_idle_live (by decide) (by decide),
      System.exec_add_idle_live (by decide) (by decide)]
    exact .inr (.inl rfl)
  exact .act .call_idle (.act (.set_fltk_fl_add_idle 1 0) (.act (.fltk_fl_remove_idle 0) hadded
    ⟨by decide, by decide⟩ ⟨hadded.inv.releasable hlive, fun _ => by decide⟩)
    ⟨by decide, by decide⟩ trivial) trivial trivial

/-- The third function has the reference of the first. -/
theorem careful_run_safe_idle :
    ((recycled.foldl System.exec System.initial).log 2).ref =
        ((recycled.foldl System.exec System.initial).log 0).ref ∧
      Safe (recycled.foldl System.exec System.initial) ∧
      ∀ a, Allowed (recycled.foldl System.exec System.initial) a →
        Careful (recycled.foldl System.exec System.initial) a →
        a.call (recycled.foldl System.exec System.initial) =
          (recycled.foldl System.exec System.initial).asked a :=
  ⟨by decide, careful_run_safe recycled_reach⟩

/-- A program that removes the handle of an idle function twice, then adds two more. -/
def removedTwice : List Action :=
  [.set_fltk_fl_add_idle 1 0, .fltk_fl_remove_idle 0, .fltk_fl_remove_idle 0,
    .set_fltk_fl_add_idle 1 0, .set_fltk_fl_add_idle 1 0]

/-- The two are given the same reference. -/
theorem removed_twice_unsafe :
    Reach (fun _ _ => True) (removedTwice.foldl System.exec System.initial) ∧
      ¬ Safe (removedTwice.foldl System.exec System.initial) := by
  constructor
  · refine .act (.set_fltk_fl_add_idle 1 0) (.act (.set_fltk_fl_add_idle 1 0)
      (.act (.fltk_fl_remove_idle 0) (.act (.fltk_fl_remove_idle 0)
        (.act (.set_fltk_fl_add_idle 1 0) (System.initial_reach _) ?_ trivial) ?_ trivial)
        ?_ trivial) ?_ trivial) ?_ trivial
    · exact ⟨by decide, by decide⟩
    · exact ⟨by decide, by decide⟩
    · exact ⟨by decide, by decide⟩
    · exact ⟨by decide, by decide⟩
    · exact ⟨by decide, by decide⟩
  · intro h
    have h1 : 1 ∈ ((removedTwice.take 4).foldl System.exec System.initial).live := by
      change 1 ∈ (System.exec ((removedTwice.take 3).foldl System.exec System.initial)
        (.set_fltk_fl_add_idle 1 0)).live
      rw [System.exec_add_idle_live (by decide) (by decide)]
      exact .inl rfl
    have h12 : 1 ∈ (removedTwice.foldl System.exec System.initial).live ∧
        2 ∈ (removedTwice.foldl System.exec System.initial).live := by
      change 1 ∈ (System.exec ((removedTwice.take 4).foldl System.exec System.initial)
          (.set_fltk_fl_add_idle 1 0)).live ∧
        2 ∈ (System.exec ((removedTwice.take 4).foldl System.exec System.initial)
          (.set_fltk_fl_add_idle 1 0)).live
      rw [System.exec_add_idle_live (by decide) (by decide)]
      exact ⟨.inr h1, .inl rfl⟩
    have h2 := h.distinct 1 h12.1 2 h12.2 (by decide)
    exact absurd h2 (by decide)

end LuaFltk.Binding
