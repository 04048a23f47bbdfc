import LuaFltk.Func.UpVal

/-!
# The links of the ring

What a write of one link changes, and from it what linking a new upvalue behind `uvhead` and
unlinking an upvalue do to the ring.
-/

namespace LuaFltk.Func

open Lib

variable {V : Type} {g : Global V} {ring : List Nat} {a : Nat}

/-! ## The fields of the memory -/

@[simp] theorem lua_assert_eq_some {b : Bool} {u : Unit} : lua_assert b = some u ↔ b = true := by
  cases b <;> simp [lua_assert]

/-- Memory that is allocated may be read. -/
theorem access_of_alloc (h : g.alloc a = true) : g.access a = some () := by
  rw [Global.access, lua_assert_eq_some]
  exact h

section links

variable {b n p : Nat}

theorem lnext_eq_some : g.lnext a = some n ↔ g.alloc a = true ∧ ∃ p, g.u a = .l p n := by
  unfold Global.lnext
  split <;> simp_all

theorem lprev_eq_some : g.lprev a = some p ↔ g.alloc a = true ∧ ∃ n, g.u a = .l p n := by
  unfold Global.lprev
  split <;> simp_all

/-- Of what is read of the ring, only the fields `alloc` and `u` matter. -/
theorem lnext_congr {g' : Global V} (halloc : g'.alloc b = g.alloc b) (hu : g'.u b = g.u b) :
    g'.lnext b = g.lnext b := by
  rw [Global.lnext, halloc, hu, Global.lnext]

theorem lprev_congr {g' : Global V} (halloc : g'.alloc b = g.alloc b) (hu : g'.u b = g.u b) :
    g'.lprev b = g.lprev b := by
  rw [Global.lprev, halloc, hu, Global.lprev]

/-- A change of the links only. -/
structure Relinks (g g' : Global V) (l : List Nat) : Prop where
  eq : g' = { g with u := g'.u }
  u : ∀ b, b ∉ l → g'.u b = g.u b

/-- One link is written. -/
theorem setNext_spec (h : g.lprev a = some p) (n : Nat) : ∃ g', g.setNext a n = some g' ∧
    Relinks g g' [a] ∧ g'.lnext = Function.update g.lnext a (some n) ∧ g'.lprev = g.lprev := by
  obtain ⟨halloc, n', hu⟩ := lprev_eq_some.1 h
  refine ⟨_, by rw [Global.setNext, h]; rfl, ⟨rfl, fun b hb => ?_⟩, funext fun b => ?_,
    funext fun b => ?_⟩
  · exact Function.update_of_ne (by simpa using hb) ..
  · by_cases hb : b = a
    · subst hb
      rw [Function.update_self, lnext_eq_some]
      exact ⟨halloc, p, Function.update_self ..⟩
    · rw [Function.update_of_ne hb]
      exact lnext_congr rfl (Function.update_of_ne hb ..)
  · by_cases hb : b = a
    · subst hb
      rw [h, lprev_eq_some]
      exact ⟨halloc, n, Function.update_self ..⟩
    · exact lprev_congr rfl (Function.update_of_ne hb ..)

/-- The other link is written. -/
theorem setPrev_spec (h : g.lnext a = some n) (p : Nat) : ∃ g', g.setPrev a p = some g' ∧
    Relinks g g' [a] ∧ g'.lnext = g.lnext ∧ g'.lprev = Function.update g.lprev a (some p) := by
  obtain ⟨halloc, p', hu⟩ := lnext_eq_some.1 h
  refine ⟨_, by rw [Global.setPrev, h]; rfl, ⟨rfl, fun b hb => ?_⟩, funext fun b => ?_,
    funext fun b => ?_⟩
  · exact Function.update_of_ne (by simpa using hb) ..
  · by_cases hb : b = a
    · subst hb
      rw [h, lnext_eq_some]
      exact ⟨halloc, p, Function.update_self ..⟩
    · exact lnext_congr rfl (Function.update_of_ne hb ..)
  · by_cases hb : b = a
    · subst hb
      rw [Function.update_self, lprev_eq_some]
      exact ⟨halloc, n, Function.update_self ..⟩
    · rw [Function.update_of_ne hb]
      exact lprev_congr rfl (Function.update_of_ne hb ..)

theorem Relinks.trans {g g' g'' : Global V} {l l' : List Nat} (h : Relinks g g' l)
    (h' : Relinks g' g'' l') : Relinks g g'' (l ++ l') := by
  refine ⟨?_, fun b hb => ?_⟩
  · rw [h'.eq, h.eq]
  · rw [List.mem_append, not_or] at hb
    rw [h'.u b hb.2, h.u b hb.1]

/-- An upvalue between two others is linked back to from both. -/
theorem linkedBack_of_joined {q : Nat} (hp : Joined g.lnext g.lprev p a)
    (hq : Joined g.lnext g.lprev a q) : g.linkedBack a = true := by
  simp [Global.linkedBack, hp.1, hp.2, hq.1, hq.2]

end links

/-! ## The ring -/

/-- A new upvalue is linked behind `uvhead`. -/
theorem linkuvhead_spec (hring : Ring g.lnext g.lprev uvhead ring) (ha : a ∉ uvhead :: ring)
    (halloc : g.alloc a = true) : ∃ g', g.linkuvhead a = some g' ∧
      Relinks g g' (a :: uvhead :: ring) ∧ Ring g'.lnext g'.lprev uvhead (a :: ring) := by
  obtain ⟨q, hq, hhq⟩ := hring.head_joined
  have hqa : q ≠ a := fun h => ha (h ▸ hq)
  have hha : uvhead ≠ a := fun h => ha (h ▸ List.mem_cons_self)
  obtain ⟨⟨n, hn⟩, -⟩ := hring.links_of_mem hq
  let g₁ : Global V := { g with u := Function.update g.u a (.l uvhead q) }
  have hu₁ : ∀ b, b ≠ a → g₁.u b = g.u b := fun b hb => Function.update_of_ne hb ..
  have hnext₁ : ∀ b, b ≠ a → g₁.lnext b = g.lnext b := fun b hb => lnext_congr rfl (hu₁ b hb)
  have hprev₁ : ∀ b, b ≠ a → g₁.lprev b = g.lprev b := fun b hb => lprev_congr rfl (hu₁ b hb)
  have hau : g₁.u a = .l uvhead q := Function.update_self ..
  have hanext : g₁.lnext a = some q := lnext_eq_some.2 ⟨halloc, _, hau⟩
  have haprev : g₁.lprev a = some uvhead := lprev_eq_some.2 ⟨halloc, _, hau⟩
  obtain ⟨g₂, hset₂, hre₂, hnext₂, hprev₂⟩ := setPrev_spec ((hnext₁ q hqa).trans hn) a
  obtain ⟨p₀, hp₀⟩ : ∃ p, g₂.lprev uvhead = some p := by
    rw [hprev₂, Function.update_apply]
    split
    · exact ⟨a, rfl⟩
    · rw [hprev₁ uvhead hha]
      exact (hring.links_of_mem List.mem_cons_self).2
  obtain ⟨g₃, hset₃, hre₃, hnext₃, hprev₃⟩ := setNext_spec hp₀ a
  have hjoined : Joined g₃.lnext g₃.lprev uvhead a := by
    refine ⟨?_, ?_⟩
    · rw [hnext₃, Function.update_self]
    · rw [hprev₃, hprev₂, Function.update_of_ne (Ne.symm hqa), haprev]
  have hjoined' : Joined g₃.lnext g₃.lprev a q := by
    refine ⟨?_, ?_⟩
    · rw [hnext₃, Function.update_of_ne (Ne.symm hha), hnext₂, hanext]
    · rw [hprev₃, hprev₂, Function.update_self]
  refine ⟨g₃, ?_, ?_, ?_⟩
  · have hback := linkedBack_of_joined hjoined hjoined'
    simp only [Global.linkuvhead, hhq.1, Option.bind_eq_bind, Option.bind_some]
    change (g₁.setPrev q a).bind _ = _
    simp [hset₂, hset₃, hback, lua_assert]
  · have hre₁ : Relinks g g₁ [a] := ⟨rfl, fun b hb => hu₁ b (by simpa using hb)⟩
    have hre := (hre₁.trans hre₂).trans hre₃
    refine ⟨hre.eq, fun b hb => hre.u b fun hb' => hb ?_⟩
    simp only [List.mem_append, List.mem_singleton] at hb'
    rcases hb' with (rfl | rfl) | rfl
    · exact List.mem_cons_self
    · exact List.mem_cons_of_mem a hq
    · exact List.mem_cons_of_mem a List.mem_cons_self
  · apply hring.insert ha hhq.1 hjoined hjoined'
    · intro b hb
      have hne : b ≠ a := fun h => ha (h ▸ List.mem_cons_of_mem uvhead hb)
      have hne' : b ≠ uvhead := fun h => (List.nodup_cons.1 hring.nodup).1 (h ▸ hb)
      rw [hnext₃, Function.update_of_ne hne', hnext₂, hnext₁ b hne]
    · intro b hb hbq
      have hne : b ≠ a := fun h => ha (h ▸ hb)
      rw [hprev₃, hprev₂, Function.update_of_ne hbq, hprev₁ b hne]

/-- `unlinkupval` takes an upvalue out of the ring, wherever it is. -/
theorem unlinkupval_spec {s t : List Nat} (hring : Ring g.lnext g.lprev uvhead (s ++ a :: t)) :
    ∃ g', g.unlinkupval a = some g' ∧ Relinks g g' (uvhead :: (s ++ t)) ∧
      Ring g'.lnext g'.lprev uvhead (s ++ t) := by
  have ha : a ∈ s ++ a :: t := by simp
  obtain ⟨p, hp, q, hq, hpa, hqa, hjoined, hjoined'⟩ := hring.joined_of_mem ha
  obtain ⟨⟨n, hn⟩, -⟩ := hring.links_of_mem hq
  obtain ⟨g₁, hset₁, hre₁, hnext₁, hprev₁⟩ := setPrev_spec hn p
  have haprev : g₁.lprev a = some p := by
    rw [hprev₁, Function.update_of_ne (Ne.symm hqa), hjoined.2]
  have hanext : g₁.lnext a = some q := by rw [hnext₁, hjoined'.1]
  obtain ⟨p₀, hp₀⟩ : ∃ p₀, g₁.lprev p = some p₀ := by
    rw [hprev₁, Function.update_apply]
    split
    · exact ⟨p, rfl⟩
    · exact (hring.links_of_mem hp).2
  obtain ⟨g₂, hset₂, hre₂, hnext₂, hprev₂⟩ := setNext_spec hp₀ q
  refine ⟨g₂, ?_, ?_, ?_⟩
  · have hback := linkedBack_of_joined hjoined hjoined'
    simp [Global.unlinkupval, hback, lua_assert, hjoined'.1, hjoined.2, hset₁, haprev, hanext,
      hset₂]
  · have hre := hre₁.trans hre₂
    refine ⟨hre.eq, fun b hb => hre.u b fun hb' => hb ?_⟩
    simp only [List.mem_append, List.mem_cons, List.not_mem_nil, or_false] at hb' hp hq ⊢
    rcases hb' with rfl | rfl <;> tauto
  · apply hring.remove hjoined.2 hjoined'.1
    · refine ⟨?_, ?_⟩
      · rw [hnext₂, Function.update_self]
      · rw [hprev₂, hprev₁, Function.update_self]
    · intro b _ hb
      rw [hnext₂, Function.update_of_ne hb, hnext₁]
    · intro b _ hb
      rw [hprev₂, hprev₁, Function.update_of_ne hb]

end LuaFltk.Func
