import LuaFltk.Func.Open

/-!
# Finding, closing and sweeping

The loops over the lists of upvalues. Each ends when its fuel exceeds the length of the list, meets
no fault, and keeps the lists and the ring.
-/

namespace LuaFltk.Func

open Lib

variable {V : Type} {g : Global V} {lists : Root → List Nat} {ring : List Nat} {a : Nat}

/-! ## The loops -/

/-- An open upvalue at a slot from `level` on. -/
def InRange (g : Global V) (t level b : Nat) : Prop :=
  b ≠ uvhead ∧ g.alloc b = true ∧ ∃ k, g.v b = .slot t k ∧ level ≤ k

/-- What is to be closed is on the list of its thread. -/
theorem Inv.inRange_mem {t level b : Nat} (h : Inv g lists ring) (hb : InRange g t level b) :
    b ∈ lists (.openupval t) := by
  obtain ⟨hne, halloc, k, hv, -⟩ := hb
  exact h.mem_of_slot hne halloc hv

/-- One turn of `luaF_close`. -/
theorem Inv.close_turn {t k : Nat} {l : List Nat} (h : Inv g lists ring)
    (hl : lists (.openupval t) = a :: l) (hv : g.v a = .slot t k) : ∃ g' lists' ring',
    (g.relink (g.links.write (.head (.openupval t)) (g.next a))).closeUpval a = some g' ∧
      lists' (.openupval t) = l ∧ Inv g' lists' ring' ∧
      Leaves (fun b => b = a ∧ g.dead b = true) (fun b => b = a ∧ g.dead b = false) g g' := by
  cases hdead : g.dead a with
  | true =>
    obtain ⟨g', ring', hfree, hinv, hleaves⟩ := h.free (l := []) hl
    refine ⟨g', _, ring', ?_, Function.update_self .., hinv,
      hleaves.congr (fun b => ?_) fun b => ?_⟩
    · rw [Global.closeUpval]
      exact (if_pos hdead).trans hfree
    · constructor
      · rintro rfl
        exact ⟨rfl, hdead⟩
      · exact And.left
    · constructor
      · exact False.elim
      · rintro ⟨rfl, halive⟩
        cases hdead.symm.trans halive
  | false =>
    obtain ⟨g', lists', ring', hclose, hl', hinv, hleaves⟩ := h.close_top hl hv hdead
    refine ⟨g', lists', ring', hclose, hl', hinv, hleaves.congr (fun b => ?_) fun b => ?_⟩
    · constructor
      · exact False.elim
      · rintro ⟨rfl, hdead'⟩
        cases hdead.symm.trans hdead'
    · constructor
      · rintro rfl
        exact ⟨rfl, hdead⟩
      · exact And.left

/-- A turn takes one upvalue out of the range. -/
theorem inRange_of_turn {t level b : Nat} {g' : Global V}
    (hleaves : Leaves (fun b => b = a ∧ g.dead b = true) (fun b => b = a ∧ g.dead b = false) g g') :
    InRange g' t level b ↔ InRange g t level b ∧ b ≠ a := by
  constructor
  · rintro ⟨hne, halloc, k, hv, hk⟩
    obtain ⟨halloc', hfree⟩ := (hleaves.alloc b).1 halloc
    have hba : b ≠ a := by
      rintro rfl
      have halive : g.dead b = false := by
        rw [Bool.eq_false_iff]
        exact fun hdead => hfree ⟨rfl, hdead⟩
      cases hv.symm.trans (hleaves.own b halloc ⟨rfl, halive⟩)
    rw [hleaves.v b halloc fun hC => hba hC.1] at hv
    exact ⟨⟨hne, halloc', k, hv, hk⟩, hba⟩
  · rintro ⟨⟨hne, halloc, k, hv, hk⟩, hba⟩
    have halloc' := (hleaves.alloc b).2 ⟨halloc, fun hF => hba hF.1⟩
    refine ⟨hne, halloc', k, ?_, hk⟩
    rw [hleaves.v b halloc' fun hC => hba hC.1, hv]

/-- `luaF_close` closes what is at or above the level, and frees the dead among it. -/
theorem Inv.luaF_close {t : Nat} {l : List Nat} (h : Inv g lists ring) (level : Nat)
    (hl : lists (.openupval t) = l) : ∃ g' lists' ring',
    (∀ fuel, l.length < fuel → g.luaF_close t level fuel = some g') ∧ Inv g' lists' ring' ∧
      Leaves (fun b => InRange g t level b ∧ g.dead b = true)
        (fun b => InRange g t level b ∧ g.dead b = false) g g' := by
  induction l generalizing g lists ring with
  | nil =>
    have hhead : g.head (.openupval t) = none := by
      have hholds := h.holds (.openupval t)
      rw [hl] at hholds
      exact Chain.head_eq hholds
    have hnone : ∀ b, ¬ InRange g t level b := by
      intro b hb
      have hmem := h.inRange_mem hb
      rw [hl] at hmem
      cases hmem
    refine ⟨g, lists, ring, fun fuel hfuel => ?_, h,
      (Leaves.refl g).congr (fun b => by simp [hnone]) fun b => by simp [hnone]⟩
    obtain ⟨fuel, rfl⟩ := Nat.exists_eq_succ_of_ne_zero (Nat.ne_of_gt hfuel)
    simp [Global.luaF_close, hhead]
  | cons a l ih =>
    have ha : a ∈ lists (.openupval t) := by rw [hl]; simp
    have halloc := h.alloc_of_mem ha
    have hne : a ≠ uvhead := by
      rintro rfl
      exact h.head.2 _ ha
    obtain ⟨k, hv⟩ := h.isopen t a ha
    have hhead : g.head (.openupval t) = some a := by
      have hholds := h.holds (.openupval t)
      rw [hl] at hholds
      exact Chain.head_eq hholds
    by_cases hk : level ≤ k
    · -- the upvalue on top goes, then the rest
      obtain ⟨g₁, lists₁, ring₁, hturn, hl₁, hinv₁, hleaves₁⟩ := h.close_turn hl hv
      obtain ⟨g', lists', ring', hloop, hinv, hleaves⟩ := ih hinv₁ hl₁
      refine ⟨g', lists', ring', fun fuel hfuel => ?_, hinv,
        (hleaves₁.trans hleaves).congr (fun b => ?_) fun b => ?_⟩
      · obtain ⟨fuel, rfl⟩ := Nat.exists_eq_succ_of_ne_zero (Nat.ne_of_gt (Nat.zero_lt_of_lt hfuel))
        have hrest := hloop fuel (Nat.lt_of_succ_lt_succ hfuel)
        have hge : (g.v a).ge (.slot t level) = true := by simp [hv, Ptr.ge, hk]
        have hopen : (g.v a != .own) = true := by simp [hv]
        rw [Global.luaF_close, hhead]
        simp only [access_of_alloc halloc, Option.bind_eq_bind, Option.bind_some, hge, hopen,
          lua_assert, if_true]
        change ((g.relink (g.links.write (.head (.openupval t)) (g.next a))).closeUpval a).bind _ = _
        rw [hturn]
        exact hrest
      · rw [inRange_of_turn hleaves₁, hleaves₁.dead]
        by_cases hba : b = a
        · subst hba
          simp [InRange, hne, halloc, hv, hk]
        · simp [hba]
      · rw [inRange_of_turn hleaves₁, hleaves₁.dead]
        by_cases hba : b = a
        · subst hba
          simp [InRange, hne, halloc, hv, hk]
        · simp [hba]
    · have hnone : ∀ b, ¬ InRange g t level b := by
        intro b hb
        have hmem := h.inRange_mem hb
        obtain ⟨-, -, j, hvb, hj⟩ := hb
        have hsorted := h.sorted t
        rw [hl] at hmem hsorted
        rcases List.mem_cons.1 hmem with rfl | hmem
        · cases hv.symm.trans hvb
          exact hk hj
        · have hlt := (List.pairwise_cons.1 hsorted).1 b hmem
          rw [hv, hvb] at hlt
          exact hk (hj.trans (Nat.le_of_lt hlt))
      refine ⟨g, lists, ring, fun fuel hfuel => ?_, h,
        (Leaves.refl g).congr (fun b => by simp [hnone]) fun b => by simp [hnone]⟩
      obtain ⟨fuel, rfl⟩ := Nat.exists_eq_succ_of_ne_zero (Nat.ne_of_gt (Nat.zero_lt_of_lt hfuel))
      simp [Global.luaF_close, hhead, access_of_alloc halloc, hv, Ptr.ge, hk]

/-- `sweepwholelist` frees the dead of a list. -/
theorem Inv.sweepwholelist {r : Root} {l l' : List Nat} (h : Inv g lists ring)
    (hl : lists r = l ++ l') : ∃ g' lists' ring',
    (∀ fuel, l'.length < fuel → g.sweepwholelist fuel (.behind r l) = some g') ∧
      Inv g' lists' ring' ∧
      Leaves (fun b => b ∈ l' ∧ g.dead b = true) (fun _ => False) g g' := by
  induction l' generalizing g lists ring l with
  | nil =>
    refine ⟨g, lists, ring, fun fuel hfuel => ?_, h,
      (Leaves.refl g).congr (fun b => by simp) fun b => by simp⟩
    obtain ⟨fuel, rfl⟩ := Nat.exists_eq_succ_of_ne_zero (Nat.ne_of_gt hfuel)
    simp [Global.sweepwholelist, h.read hl]
  | cons a l' ih =>
    have ha : a ∈ lists r := by rw [hl]; simp
    have haccess := access_of_alloc (h.alloc_of_mem ha)
    have hread := h.read hl
    cases hdead : g.dead a with
    | true =>
      obtain ⟨g₁, ring₁, hfree, hinv₁, hleaves₁⟩ := h.free hl
      obtain ⟨g', lists', ring', hloop, hinv, hleaves⟩ := ih hinv₁ (Function.update_self ..)
      refine ⟨g', lists', ring', fun fuel hfuel => ?_, hinv,
        (hleaves₁.trans hleaves).congr (fun b => ?_) fun b => by simp⟩
      · obtain ⟨fuel, rfl⟩ := Nat.exists_eq_succ_of_ne_zero (Nat.ne_of_gt (Nat.zero_lt_of_lt hfuel))
        have hrest := hloop fuel (Nat.lt_of_succ_lt_succ hfuel)
        simp [Global.sweepwholelist, hread, haccess, hdead, h.write hl, hfree, hrest]
      · rw [hleaves₁.dead, List.mem_cons]
        constructor
        · rintro (rfl | ⟨hb, hdeadb⟩)
          · exact ⟨.inl rfl, hdead⟩
          · exact ⟨.inr hb, hdeadb⟩
        · rintro ⟨rfl | hb, hdeadb⟩
          · exact .inl rfl
          · exact .inr ⟨hb, hdeadb⟩
    | false =>
      have hl' : lists r = (l ++ [a]) ++ l' := by rw [hl, List.append_assoc]; rfl
      obtain ⟨g', lists', ring', hloop, hinv, hleaves⟩ := ih h hl'
      refine ⟨g', lists', ring', fun fuel hfuel => ?_, hinv,
        hleaves.congr (fun b => ?_) fun b => by simp⟩
      · obtain ⟨fuel, rfl⟩ := Nat.exists_eq_succ_of_ne_zero (Nat.ne_of_gt (Nat.zero_lt_of_lt hfuel))
        have hrest := hloop fuel (Nat.lt_of_succ_lt_succ hfuel)
        rw [Place.behind_append] at hrest
        simp [Global.sweepwholelist, hread, haccess, hdead, hrest]
      · rw [List.mem_cons]
        constructor
        · exact And.imp_left .inr
        · rintro ⟨rfl | hb, hdeadb⟩
          · cases hdead.symm.trans hdeadb
          · exact ⟨hb, hdeadb⟩

/-! ## Finding an upvalue -/

/-- The upvalue `u` is found or made for a slot. -/
structure Found (g g' : Global V) (t level u : Nat) : Prop where
  stack : g'.stack = g.stack
  alloc : g'.alloc = Function.update g.alloc u true
  v : g'.v = Function.update g.v u (.slot t level)
  dead : g'.dead = Function.update g.dead u false
  get : ∀ b, b ≠ uvhead → b ≠ u → g.alloc b = true → g'.get b = g.get b

/-- The loop stops at the upvalue of the slot, or where it belongs. -/
theorem Inv.findLoop {t : Nat} {l l' : List Nat} (h : Inv g lists ring) (level : Nat)
    (hl : lists (.openupval t) = l ++ l') : ∃ r,
    (∀ fuel, l'.length < fuel →
      g.findLoop (.slot t level) fuel (.behind (.openupval t) l) = some r) ∧
    ((∃ a ∈ l', g.v a = .slot t level ∧ r.1 = some a) ∨
      (r.1 = none ∧ ∃ s s', l' = s ++ s' ∧ r.2 = .behind (.openupval t) (l ++ s) ∧
        (∀ b ∈ s, level < (g.v b).level) ∧ ∀ b ∈ s', (g.v b).level < level)) := by
  induction l' generalizing l with
  | nil =>
    refine ⟨(none, .behind (.openupval t) l), fun fuel hfuel => ?_, .inr ⟨rfl, [], [], rfl, ?_⟩⟩
    · obtain ⟨fuel, rfl⟩ := Nat.exists_eq_succ_of_ne_zero (Nat.ne_of_gt hfuel)
      simp [Global.findLoop, h.read hl]
    · simp
  | cons a l' ih =>
    have ha : a ∈ lists (.openupval t) := by rw [hl]; simp
    have haccess := access_of_alloc (h.alloc_of_mem ha)
    have hread := h.read hl
    obtain ⟨k, hv⟩ := h.isopen t a ha
    have hsucc : ∀ fuel, (a :: l').length < fuel → ∃ n, fuel = n + 1 ∧ l'.length < n := by
      intro fuel hfuel
      rw [List.length_cons] at hfuel
      exact ⟨fuel - 1, by omega, by omega⟩
    rcases Nat.lt_trichotomy level k with hk | rfl | hk
    · -- the upvalue is of a slot above
      have hl' : lists (.openupval t) = (l ++ [a]) ++ l' := by rw [hl, List.append_assoc]; rfl
      obtain ⟨r, hloop, hr⟩ := ih hl'
      refine ⟨r, fun fuel hfuel => ?_, ?_⟩
      · obtain ⟨n, rfl, hn⟩ := hsucc fuel hfuel
        have hrest := hloop n hn
        rw [Place.behind_append] at hrest
        have hne : k ≠ level := Nat.ne_of_gt hk
        simp [Global.findLoop, hread, haccess, hv, Ptr.ge, Nat.le_of_lt hk, hne, hrest, lua_assert]
      · rcases hr with ⟨b, hb, hvb, hrb⟩ | ⟨hnone, s, s', rfl, hplace, habove, hbelow⟩
        · exact .inl ⟨b, List.mem_cons_of_mem a hb, hvb, hrb⟩
        · refine .inr ⟨hnone, a :: s, s', rfl, ?_, ?_, hbelow⟩
          · rw [hplace, List.append_assoc]
            rfl
          · rw [List.forall_mem_cons, hv]
            exact ⟨hk, habove⟩
    · refine ⟨(some a, .behind (.openupval t) l), fun fuel hfuel => ?_, .inl ⟨a, by simp, hv, rfl⟩⟩
      obtain ⟨n, rfl, hn⟩ := hsucc fuel hfuel
      simp [Global.findLoop, hread, haccess, hv, Ptr.ge, lua_assert]
    · refine ⟨(none, .behind (.openupval t) l), fun fuel hfuel => ?_,
        .inr ⟨rfl, [], a :: l', rfl, by simp, by simp, ?_⟩⟩
      · obtain ⟨n, rfl, hn⟩ := hsucc fuel hfuel
        simp [Global.findLoop, hread, haccess, hv, Ptr.ge, hk]
      · have hsorted := h.sorted t
        rw [hl] at hsorted
        have hright := (List.pairwise_append.1 hsorted).2.1
        rw [List.forall_mem_cons, hv]
        refine ⟨hk, fun b hb => ?_⟩
        have hlt := (List.pairwise_cons.1 hright).1 b hb
        rw [hv] at hlt
        exact hlt.trans hk

/-- The search ends with an open upvalue for the slot, found or new. -/
theorem Inv.luaF_findupval (h : Inv g lists ring) (t level : Nat) (hne : a ≠ uvhead)
    (hfree : g.alloc a = false) : ∃ u g' lists' ring',
    (∀ fuel, (lists (.openupval t)).length < fuel →
      g.luaF_findupval fuel t level a = some (u, g')) ∧
    Inv g' lists' ring' ∧ Found g g' t level u ∧ u ≠ uvhead ∧
    (g.alloc u = true ∧ g.v u = .slot t level ∨
      u = a ∧ ∀ b, b ≠ uvhead → g.alloc b = true → g.v b ≠ .slot t level) := by
  obtain ⟨⟨found, pp⟩, hloop, hr⟩ :=
    h.findLoop level (show lists (.openupval t) = [] ++ lists (.openupval t) from rfl)
  rcases hr with ⟨p, hp, hv, rfl⟩ | ⟨rfl, s, s', hl, rfl, habove, hbelow⟩
  · -- the upvalue is there, and is needed again
    have halloc := h.alloc_of_mem hp
    have hne' : p ≠ uvhead := by
      rintro rfl
      exact h.head.2 _ hp
    refine ⟨p, { g with dead := Function.update g.dead p false }, lists, ring, fun fuel hfuel => ?_,
      ⟨h.holds, h.alloc, h.head, h.isopen, h.isclosed, h.sorted, h.linked, h.in_ring⟩,
      ⟨rfl, ?_, ?_, rfl, fun _ _ _ _ => rfl⟩, hne', .inl ⟨halloc, hv⟩⟩
    · have hfound := hloop fuel hfuel
      rw [Place.behind_nil] at hfound
      simp [Global.luaF_findupval, hfound]
    · exact (Function.update_eq_self_iff.2 halloc.symm).symm
    · exact (Function.update_eq_self_iff.2 hv.symm).symm
  · rw [List.nil_append] at hloop
    have hread := h.read hl
    have hsalloc : ∀ b ∈ s, g.alloc b = true :=
      fun b hb => h.alloc_of_mem (r := .openupval t) (by rw [hl]; exact List.mem_append_left s' hb)
    have ha : a ∉ uvhead :: ring := by
      rw [List.mem_cons, not_or]
      refine ⟨hne, fun hring => ?_⟩
      obtain ⟨t', ht'⟩ := (h.in_ring a).1 hring
      rw [h.alloc_of_mem ht'] at hfree
      cases hfree
    have hnew : ∀ b ∈ uvhead :: ring, Function.update g.alloc a true b = g.alloc b :=
      fun b hb => Function.update_of_ne (ne_of_mem_of_not_mem hb ha) ..
    set g₁ := g.luaM_new a (.slot t level) s'.head? with hg₁
    have hwrite : g₁.write (.behind (.openupval t) s) (some a) =
        some (g₁.relink (g₁.links.write (.behind (.openupval t) s) (some a))) := by
      apply write_of_alloc
      intro b hb
      have hba : b ≠ a := by
        rintro rfl
        rw [hsalloc b hb] at hfree
        cases hfree
      exact (Function.update_of_ne hba ..).trans (hsalloc b hb)
    obtain ⟨g₃, hlink, hre, hring⟩ :=
      linkuvhead_spec (g := g₁.relink (g₁.links.write (.behind (.openupval t) s) (some a)))
        (h.linked.congr (fun b hb => lnext_congr (hnew b hb) rfl)
          fun b hb => lprev_congr (hnew b hb) rfl) ha (Function.update_self ..)
    have hstack₃ : g₃.stack = g.stack := by
      rw [hre.eq]
      rfl
    have halloc₃ : g₃.alloc = Function.update g.alloc a true := by
      rw [hre.eq]
      rfl
    have hv₃ : g₃.v = Function.update g.v a (.slot t level) := by
      rw [hre.eq]
      rfl
    have hinv : Inv g₃ (Function.update lists (.openupval t) (s ++ a :: s')) (a :: ring) := by
      refine h.insert hl hne hfree habove hbelow ?_ hv₃ (fun b hb => hre.u b hb) halloc₃ hring
      rw [hre.eq]
      rfl
    refine ⟨a, g₃, _, _, fun fuel hfuel => ?_, hinv, ⟨hstack₃, halloc₃, hv₃, ?_, ?_⟩, hne,
      .inr ⟨rfl, fun b hb hballoc hvb => ?_⟩⟩
    · have hfound := hloop fuel hfuel
      rw [Place.behind_nil] at hfound
      simp [Global.luaF_findupval, hfound, hread, ← hg₁, hwrite, hlink]
    · rw [hre.eq]
      rfl
    · intro b hb hba hballoc
      refine get_congr ?_ ?_ hstack₃ fun hown => hre.u b ?_
      · rw [halloc₃, Function.update_of_ne hba]
      · rw [hv₃, Function.update_of_ne hba]
      · rw [List.mem_cons, not_or]
        exact ⟨hba, h.notMem_ring (h.mem_rootgc hb hballoc hown)⟩
    · -- the levels of the list leave no room for the slot
      have hmem := h.mem_of_slot hb hballoc hvb
      rw [hl] at hmem
      rcases List.mem_append.1 hmem with hbs | hbs
      · have hlt := habove b hbs
        rw [hvb] at hlt
        exact lt_irrefl _ hlt
      · have hlt := hbelow b hbs
        rw [hvb] at hlt
        exact lt_irrefl _ hlt

/-- The memory at the start: no upvalues. -/
def Global.start (stack : Nat → Nat → V) : Global V where
  alloc a := a == uvhead
  v _ := .own
  u _ := .l uvhead uvhead
  next _ := none
  dead _ := false
  head _ := none
  stack := stack

/-- At the start there are no upvalues. -/
theorem inv_start (stack : Nat → Nat → V) : Inv (Global.start stack) (fun _ => []) [] where
  holds _ := .nil
  alloc a ha := by simp [Global.start, ha]
  head := ⟨rfl, fun _ => List.not_mem_nil⟩
  isopen _ _ h := (List.not_mem_nil h).elim
  isclosed _ h := (List.not_mem_nil h).elim
  sorted _ := .nil
  linked := .empty rfl rfl
  in_ring _ := by simp

end LuaFltk.Func
