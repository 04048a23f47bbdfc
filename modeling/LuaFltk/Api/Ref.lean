import LuaFltk.Api.State
import LuaFltk.Lib.Chain

/-!
# References

`luaL_ref` and `luaL_unref` of `lauxlib.c`. A reference is an integer key of the registry.
Released references form a list threaded through their own slots, with its head in slot 0;
`RefInv` says that this list and the references in use do not meet, and each of the two
functions has one lemma about it.
-/

namespace LuaFltk.Api

open LuaFltk.Lib

def FREELIST_REF : Int := 0
def LUA_REFNIL : Int := -1

def luaL_ref (t : TableArg) : Bind Int := do
  if ← lua_isnil (-1) then
    lua_pop 1  -- remove from stack
    return LUA_REFNIL  -- `nil' has a unique fixed reference
  else
    lua_rawgeti t FREELIST_REF  -- get first free element
    let ref ← lua_tointeger (-1)  -- ref = t[FREELIST_REF]
    lua_pop 1
    if ref ≠ 0 then  -- any free element?
      lua_rawgeti t ref
      lua_rawseti t FREELIST_REF  -- (t[FREELIST_REF] = t[ref])
      lua_rawseti t ref
      return ref
    else  -- no free elements
      let ref ← lua_objlen t
      let ref := ref + 1  -- create new reference
      lua_rawseti t ref
      return ref

def luaL_unref (t : TableArg) (ref : Int) : Bind Unit := do
  if 0 ≤ ref then
    lua_rawgeti t FREELIST_REF
    lua_rawseti t ref  -- t[ref] = t[FREELIST_REF]
    lua_pushinteger ref
    lua_rawseti t FREELIST_REF  -- t[FREELIST_REF] = ref

/-! ## The two functions on the registry alone -/

/-- The link in slot `r` of the registry. -/
def link (reg : Table) (r : Int) : Option Int :=
  let n := (reg.get (.number r)).tointeger
  if n = 0 then none else some n

/-- The reference `luaL_ref` hands out for a value that is not nil. -/
def newRef (reg : Table) : Int :=
  match link reg FREELIST_REF with
  | some r => r
  | none => reg.objlen + 1

/-- The registry after `luaL_ref` of the value `v`. -/
def refTable (reg : Table) (v : Value) : Table :=
  match link reg FREELIST_REF with
  | some r => (reg.set (.number FREELIST_REF) (reg.get (.number r))).set (.number r) v
  | none => reg.set (.number (reg.objlen + 1)) v

/-- The registry after `luaL_unref` of `r`. -/
def unrefTable (reg : Table) (r : Int) : Table :=
  if 0 ≤ r then
    (reg.set (.number r) (reg.get (.number FREELIST_REF))).set (.number FREELIST_REF) (.number r)
  else reg

/-- `luaL_unref` is `unrefTable` on the registry. -/
theorem luaL_unref_run (r : Int) (W : World) :
    run (luaL_unref .LUA_REGISTRYINDEX r) W = ((),
      { W with
        registry := unrefTable W.registry r,
        stack := if 0 ≤ r then Function.update W.stack W.top (.number r) else W.stack }) := by
  by_cases h : 0 ≤ r
  · simp [run, luaL_unref, h, unrefTable, lua_rawgeti, lua_rawseti, lua_pushinteger, push,
      lua_pop, setTableAt, rawgeti, valueAt, FREELIST_REF]
  · simp [run, luaL_unref, h, unrefTable]

/-- Nil gets no reference of its own. -/
theorem luaL_ref_run_nil {W : World} (h : W.stack (W.top - 1) = .nil) :
    run (luaL_ref .LUA_REGISTRYINDEX) W = (LUA_REFNIL, { W with top := W.top - 1 }) := by
  simp [run, luaL_ref, lua_isnil, h, Value.isnil, lua_pop]

/-- Every other value gets a new reference. -/
theorem luaL_ref_run {W : World} (h : W.stack (W.top - 1) ≠ .nil) (ht : 0 < W.top) :
    run (luaL_ref .LUA_REGISTRYINDEX) W = (newRef W.registry,
      { W with
        registry := refTable W.registry (W.stack (W.top - 1)),
        top := W.top - 1,
        stack := Function.update W.stack W.top
          (W.registry.get (.number ((link W.registry FREELIST_REF).getD FREELIST_REF))) }) := by
  have htop : W.top - 1 ≠ W.top := by omega
  by_cases hf : (W.registry.get (.number 0)).tointeger = 0
  · simp [run, luaL_ref, lua_isnil, h, lua_rawgeti, lua_rawseti, lua_tointeger, push,
      lua_pop, setTableAt, tableAt, rawgeti, valueAt, FREELIST_REF, newRef, refTable, link,
      hf, lua_objlen, htop]
  · simp [run, luaL_ref, lua_isnil, h, lua_rawgeti, lua_rawseti, lua_tointeger, push,
      lua_pop, setTableAt, rawgeti, valueAt, FREELIST_REF, newRef, refTable, link, hf, htop]

/-! ## The invariant -/

/-- The registry's references: `free` is the free list and `live` the references in use. -/
structure RefInv (reg : Table) (free : List Int) (live : Set Int) : Prop where
  chain : Chain (link reg) (link reg FREELIST_REF) free
  free_pos : ∀ r ∈ free, 0 < r
  live_pos : ∀ r ∈ live, 0 < r
  present : ∀ r ∈ live, reg.get (.number r) ≠ .nil
  apart : ∀ r ∈ live, r ∉ free

section RefInv

variable {reg : Table} {free : List Int} {live : Set Int} {v : Value} {r s : Int}

theorem link_set_ne {k : Value} (h : Value.number r ≠ k) : link (reg.set k v) r = link reg r := by
  simp only [link, Table.get_set_ne _ _ h]

/-- With no released reference left, the next one is the first empty slot. -/
theorem RefInv.nil_free (inv : RefInv reg [] live) : link reg FREELIST_REF = none := by
  have h := inv.chain
  generalize link reg FREELIST_REF = l at h
  cases h
  rfl

/-- Otherwise it is the one released last. -/
theorem RefInv.cons_free {l : List Int} (inv : RefInv reg (r :: l) live) :
    link reg FREELIST_REF = some r ∧ Chain (link reg) (link reg r) l := by
  have h := inv.chain
  generalize link reg FREELIST_REF = k at h
  cases h with
  | cons h => exact ⟨rfl, h⟩

/-- A new reference is positive and is not in use. -/
theorem RefInv.newRef_fresh (inv : RefInv reg free live) :
    0 < newRef reg ∧ newRef reg ∉ live := by
  cases free with
  | nil =>
    simp only [newRef, inv.nil_free]
    exact ⟨by omega, fun hl => inv.present _ hl reg.get_objlen_succ⟩
  | cons r l =>
    simp only [newRef, inv.cons_free.1]
    exact ⟨inv.free_pos r (by simp), fun hl => inv.apart r hl (by simp)⟩

/-- Taking a reference writes its slot and slot 0 only. -/
theorem get_refTable (h0 : s ≠ 0) (hs : s ≠ newRef reg) :
    (refTable reg v).get (.number s) = reg.get (.number s) := by
  unfold newRef at hs
  unfold refTable
  split at hs
  · rw [Table.get_set_ne _ _ (by simpa using hs), Table.get_set_ne _ _ (by simpa [FREELIST_REF] using h0)]
  · rw [Table.get_set_ne _ _ (by simpa using hs)]

/-- A new reference refers to its value. -/
theorem get_refTable_self : (refTable reg v).get (.number (newRef reg)) = v := by
  unfold newRef refTable
  split <;> simp

/-- `luaL_ref` of a value that is not nil puts the new reference in use. -/
theorem RefInv.ref (inv : RefInv reg free live) (hv : v ≠ .nil) :
    RefInv (refTable reg v) (free.drop 1) (insert (newRef reg) live) := by
  obtain ⟨hpos, hfresh⟩ := inv.newRef_fresh
  have present : ∀ r ∈ insert (newRef reg) live, (refTable reg v).get (.number r) ≠ .nil := by
    rintro r (rfl | hr)
    · rwa [get_refTable_self]
    · have := inv.live_pos r hr
      rw [get_refTable (by omega) (by rintro rfl; exact hfresh hr)]
      exact inv.present r hr
  have live_pos : ∀ r ∈ insert (newRef reg) live, 0 < r := by
    rintro r (rfl | hr)
    exacts [hpos, inv.live_pos r hr]
  cases free with
  | nil =>
    refine ⟨?_, by simp, live_pos, present, by simp⟩
    have hne : (0 : Int) ≠ reg.objlen + 1 := by omega
    simp only [refTable, inv.nil_free, List.drop_nil]
    rw [link_set_ne (by simpa [FREELIST_REF] using hne), inv.nil_free]
    exact .nil
  | cons r l =>
    obtain ⟨hhead, hl⟩ := inv.cons_free
    have hr0 : 0 < r := inv.free_pos r (by simp)
    have hnodup := inv.chain.nodup
    have href : newRef reg = r := by simp only [newRef, hhead]
    refine ⟨?_, fun s hs => inv.free_pos s (by simp_all), live_pos, present, ?_⟩
    · have hlink : ∀ s, s ≠ 0 → s ≠ r → link (refTable reg v) s = link reg s := by
        intro s h0 hs
        simp only [link, get_refTable h0 (href ▸ hs)]
      have h0 : link (refTable reg v) FREELIST_REF = link reg r := by
        simp only [refTable, hhead]
        rw [link_set_ne (by simp [FREELIST_REF]; omega)]
        simp only [link, Table.get_set_self]
      rw [h0]
      refine hl.congr fun s hs => hlink s ?_ ?_
      · have := inv.free_pos s (by simp_all)
        omega
      · rintro rfl
        exact (List.nodup_cons.1 hnodup).1 hs
    · rintro s (rfl | hs) hmem
      · rw [href] at hmem
        exact (List.nodup_cons.1 hnodup).1 (by simpa using hmem)
      · exact inv.apart s hs (by simp_all)

/-- Releasing a reference writes its slot and slot 0 only. -/
theorem get_unrefTable (h0 : s ≠ 0) (hs : s ≠ r) :
    (unrefTable reg r).get (.number s) = reg.get (.number s) := by
  unfold unrefTable
  split
  · rw [Table.get_set_ne _ _ (by simpa [FREELIST_REF] using h0),
      Table.get_set_ne _ _ (by simpa using hs)]
  · rfl

theorem get_unrefTable_self (h : 0 < r) :
    (unrefTable reg r).get (.number r) = reg.get (.number FREELIST_REF) := by
  unfold unrefTable
  rw [if_pos (by omega), Table.get_set_ne _ _ (by simp [FREELIST_REF]; omega),
    Table.get_set_self]

/-- `luaL_unref` moves a reference to the head of the free list. It must not be there
already. -/
theorem RefInv.unref (inv : RefInv reg free live) (hpos : 0 < r) (hfree : r ∉ free) :
    RefInv (unrefTable reg r) (r :: free) (live \ {r}) := by
  refine ⟨?_, ?_, fun s hs => inv.live_pos s hs.1, fun s hs => ?_, fun s hs => ?_⟩
  · have hhead : link (unrefTable reg r) FREELIST_REF = some r := by
      simp only [link, unrefTable, if_pos hpos.le, Table.get_set_self, Value.tointeger]
      exact if_neg (by omega)
    rw [hhead]
    refine inv.chain.push ?_ fun s hs => ?_
    · simp only [link, get_unrefTable_self hpos]
    · have := inv.free_pos s hs
      have hne : s ≠ r := by
        rintro rfl
        exact hfree hs
      simp only [link, get_unrefTable (by omega : s ≠ 0) hne]
  · intro s hs
    rcases List.mem_cons.1 hs with rfl | hs
    exacts [hpos, inv.free_pos s hs]
  · have := inv.live_pos s hs.1
    rw [get_unrefTable (by omega) (by simpa using hs.2)]
    exact inv.present s hs.1
  · simp only [List.mem_cons, not_or]
    exact ⟨by simpa using hs.2, inv.apart s hs.1⟩

/-- A smaller set of references in use. -/
theorem RefInv.mono {live' : Set Int} (inv : RefInv reg free live) (h : live' ⊆ live) :
    RefInv reg free live' where
  chain := inv.chain
  free_pos := inv.free_pos
  live_pos r hr := inv.live_pos r (h hr)
  present r hr := inv.present r (h hr)
  apart r hr := inv.apart r (h hr)

/-- Only integer keys matter. -/
theorem RefInv.congr {reg' : Table} (inv : RefInv reg free live)
    (h : ∀ r : Int, reg'.get (.number r) = reg.get (.number r)) : RefInv reg' free live where
  chain := by
    have hlink : link reg' = link reg := by
      funext r
      simp only [link, h]
    rw [hlink]
    exact inv.chain
  free_pos := inv.free_pos
  live_pos := inv.live_pos
  present r hr := by
    rw [h]
    exact inv.present r hr
  apart := inv.apart

/-- References are numbers. -/
theorem get_refTable_string (k : String) :
    (refTable reg v).get (.string k) = reg.get (.string k) := by
  unfold refTable
  split
  · rw [Table.get_set_ne _ _ (by simp), Table.get_set_ne _ _ (by simp)]
  · rw [Table.get_set_ne _ _ (by simp)]

theorem get_unrefTable_string (k : String) :
    (unrefTable reg r).get (.string k) = reg.get (.string k) := by
  unfold unrefTable
  split
  · rw [Table.get_set_ne _ _ (by simp), Table.get_set_ne _ _ (by simp)]
  · rfl

/-- `luaL_unref` ignores a negative reference. -/
theorem unrefTable_neg (h : r < 0) : unrefTable reg r = reg := if_neg (by omega)

/-- No reference, or one in use. -/
def Held (live : Set Int) (r : Int) : Prop := r = 0 ∨ r = LUA_REFNIL ∨ r ∈ live

/-- A reference that is held is not free. -/
theorem RefInv.held_notMem (inv : RefInv reg free live) (h : Held live r) : 0 < r → r ∉ free := by
  intro hpos
  rcases h with rfl | rfl | h
  · exact absurd hpos (lt_irrefl _)
  · exact absurd hpos (by decide)
  · exact inv.apart r h

/-- What taking a reference for `v` does to the registry. -/
structure Taken (reg : Table) (live : Set Int) (v : Value) (r : Int) (reg' : Table)
    (live' : Set Int) : Prop where
  refs : ∃ free, RefInv reg' free live'
  subset : live ⊆ live'
  held : Held live' r
  fresh : r ∉ live
  get : ∀ s : Int, s ∈ live ∨ s < 0 → reg'.get (.number s) = reg.get (.number s)
  string : ∀ k, reg'.get (.string k) = reg.get (.string k)
  self : (if r = 0 then .nil else reg'.get (.number r)) = v

/-- A new reference is held from then on. -/
theorem taken_refTable {v : Value} (inv : RefInv reg free live) (hv : v ≠ .nil) :
    Taken reg live v (newRef reg) (refTable reg v) (insert (newRef reg) live) where
  refs := ⟨_, inv.ref hv⟩
  subset := Set.subset_insert _ _
  held := .inr (.inr (Set.mem_insert _ _))
  fresh := inv.newRef_fresh.2
  get s hs := by
    obtain ⟨hpos, hfresh⟩ := inv.newRef_fresh
    refine get_refTable ?_ ?_
    · rcases hs with hs | hs
      · exact (inv.live_pos s hs).ne'
      · omega
    · rintro rfl
      rcases hs with hs | hs
      · exact hfresh hs
      · omega
  string := get_refTable_string
  self := by rw [if_neg inv.newRef_fresh.1.ne', get_refTable_self]

/-- No reference is taken for nil: `luaL_ref` returns `LUA_REFNIL`, a widget uses 0. -/
theorem taken_nil {r : Int} (inv : RefInv reg free live) (hr : r = 0 ∨ r = LUA_REFNIL)
    (hnil : reg.get (.number LUA_REFNIL) = .nil) : Taken reg live .nil r reg live where
  refs := ⟨free, inv⟩
  subset := subset_rfl
  held := hr.imp_right .inl
  fresh h := by
    have := inv.live_pos r h
    rcases hr with rfl | rfl
    · exact lt_irrefl _ this
    · exact absurd this (by decide)
  get _ _ := rfl
  string _ := rfl
  self := by rcases hr with rfl | rfl <;> simp [hnil]

end RefInv

end LuaFltk.Api
