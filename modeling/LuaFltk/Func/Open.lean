import LuaFltk.Func.Linked

/-!
# The lists of open upvalues

The open upvalues of a thread are listed from the top of its stack down, one for a slot, and those
of all threads are in the ring of `uvhead`. Freeing an upvalue, closing it and putting in a new one
keep this.
-/

namespace LuaFltk.Func

open Lib

variable {V : Type} {g : Global V} {lists : Root → List Nat} {ring : List Nat} {a : Nat}

/-- The slot of the stack that an open upvalue is at. -/
def Ptr.level : Ptr → Nat
  | .slot _ k => k
  | .own => 0

/-- The upvalues on each list, and in the ring. -/
structure Inv (g : Global V) (lists : Root → List Nat) (ring : List Nat) : Prop where
  holds : ∀ r, g.links.Holds r (lists r)
  alloc : ∀ a, a ≠ uvhead → (g.alloc a = true ↔ ∃ r, a ∈ lists r)
  head : g.alloc uvhead = true ∧ ∀ r, uvhead ∉ lists r
  isopen : ∀ t, ∀ a ∈ lists (.openupval t), ∃ k, g.v a = .slot t k
  isclosed : ∀ a ∈ lists .rootgc, g.v a = .own ∧ ∃ x, g.u a = .value x
  sorted : ∀ t, (lists (.openupval t)).Pairwise fun a b => (g.v b).level < (g.v a).level
  linked : Ring g.lnext g.lprev uvhead ring
  in_ring : ∀ a, a ∈ ring ↔ ∃ t, a ∈ lists (.openupval t)

/-! ## What the steps leave of the upvalues -/

/-- The memory with other lists. -/
def Global.relink (g : Global V) (L : Links Root Nat) : Global V :=
  { g with head := L.head, next := L.next }

/-- The upvalues in `F` are freed, and those in `C` get their value for their own. -/
structure Leaves (F C : Nat → Prop) (g g' : Global V) : Prop where
  stack : g'.stack = g.stack
  dead : g'.dead = g.dead
  alloc : ∀ b, g'.alloc b = true ↔ g.alloc b = true ∧ ¬ F b
  own : ∀ b, g'.alloc b = true → C b → g'.v b = .own
  v : ∀ b, g'.alloc b = true → ¬ C b → g'.v b = g.v b
  get : ∀ b, b ≠ uvhead → g'.alloc b = true → g'.get b = g.get b

theorem Leaves.refl (g : Global V) : Leaves (fun _ => False) (fun _ => False) g g :=
  ⟨rfl, rfl, fun _ => by simp, fun _ _ h => h.elim, fun _ _ _ => rfl, fun _ _ _ => rfl⟩

theorem Leaves.trans {F C F' C' : Nat → Prop} {g g' g'' : Global V} (h : Leaves F C g g')
    (h' : Leaves F' C' g' g'') : Leaves (fun b => F b ∨ F' b) (fun b => C b ∨ C' b) g g'' := by
  have halloc : ∀ b, g''.alloc b = true → g'.alloc b = true := fun b hb => ((h'.alloc b).1 hb).1
  refine ⟨h'.stack.trans h.stack, h'.dead.trans h.dead, fun b => ?_, fun b hb hC => ?_,
    fun b hb hC => ?_, fun b hne hb => ?_⟩
  · rw [h'.alloc, h.alloc]
    tauto
  · by_cases hC' : C' b
    · exact h'.own b hb hC'
    · rw [h'.v b hb hC']
      exact h.own b (halloc b hb) (hC.resolve_right hC')
  · rw [not_or] at hC
    rw [h'.v b hb hC.2, h.v b (halloc b hb) hC.1]
  · rw [h'.get b hne hb, h.get b hne (halloc b hb)]

theorem Leaves.congr {F C F' C' : Nat → Prop} {g g' : Global V} (h : Leaves F C g g')
    (hF : ∀ b, F b ↔ F' b) (hC : ∀ b, C b ↔ C' b) : Leaves F' C' g g' := by
  obtain rfl : F = F' := funext fun b => propext (hF b)
  obtain rfl : C = C' := funext fun b => propext (hC b)
  exact h

/-- What an upvalue holds depends on its own fields, and on the stack when it is open. -/
theorem get_congr {g' : Global V} (halloc : g'.alloc a = g.alloc a) (hv : g'.v a = g.v a)
    (hstack : g'.stack = g.stack) (hu : g.v a = .own → g'.u a = g.u a) : g'.get a = g.get a := by
  simp only [Global.get, Global.access, halloc, hv, hstack]
  cases hown : g.v a with
  | slot t k => rfl
  | own => rw [hu hown]

/-- An open upvalue has the value of its slot. -/
theorem get_slot {t k : Nat} (halloc : g.alloc a = true) (hv : g.v a = .slot t k) :
    g.get a = some (g.stack t k) := by
  simp [Global.get, access_of_alloc halloc, hv]

/-- A write to the place behind some upvalues. -/
theorem write_of_alloc {r : Root} {l : List Nat} {o : Option Nat}
    (h : ∀ b ∈ l, g.alloc b = true) :
    g.write (.behind r l) o = some (g.relink (g.links.write (.behind r l) o)) := by
  induction l using List.reverseRecOn with
  | nil => rfl
  | append_singleton l b _ =>
    rw [Place.behind_append]
    simp only [Global.write, access_of_alloc (h b (by simp))]
    rfl

namespace Inv

variable {l l' : List Nat} {r : Root}

/-- What is listed is allocated. -/
theorem alloc_of_mem (h : Inv g lists ring) (ha : a ∈ lists r) : g.alloc a = true := by
  refine (h.alloc a ?_).2 ⟨r, ha⟩
  rintro rfl
  exact h.head.2 r ha

/-- An upvalue is on one list. -/
theorem root_unique (h : Inv g lists ring) {r' : Root} (ha : a ∈ lists r) (ha' : a ∈ lists r') :
    r = r' := by
  cases r with
  | openupval t =>
    obtain ⟨k, hk⟩ := h.isopen t a ha
    cases r' with
    | openupval t' =>
      obtain ⟨k', hk'⟩ := h.isopen t' a ha'
      cases hk.symm.trans hk'
      rfl
    | rootgc => cases hk.symm.trans (h.isclosed a ha').1
  | rootgc =>
    cases r' with
    | openupval t' =>
      obtain ⟨k', hk'⟩ := h.isopen t' a ha'
      cases hk'.symm.trans (h.isclosed a ha).1
    | rootgc => rfl

/-- The upvalue of a slot is on the list of the thread. -/
theorem mem_of_slot (h : Inv g lists ring) {t k : Nat} (ha : a ≠ uvhead) (halloc : g.alloc a = true)
    (hv : g.v a = .slot t k) : a ∈ lists (.openupval t) := by
  obtain ⟨r, hr⟩ := (h.alloc a ha).1 halloc
  cases r with
  | openupval t' =>
    obtain ⟨k', hk'⟩ := h.isopen t' a hr
    cases hv.symm.trans hk'
    exact hr
  | rootgc => cases hv.symm.trans (h.isclosed a hr).1

/-- A slot has one upvalue at most. -/
theorem slot_unique (h : Inv g lists ring) {t k b : Nat} (ha : a ≠ uvhead)
    (halloc : g.alloc a = true) (hv : g.v a = .slot t k) (hb : b ≠ uvhead)
    (halloc' : g.alloc b = true) (hv' : g.v b = .slot t k) : a = b := by
  have hma := h.mem_of_slot ha halloc hv
  have hmb := h.mem_of_slot hb halloc' hv'
  by_contra hne
  have hsorted := h.sorted t
  have hlevel : ∀ c d, g.v c = .slot t k → g.v d = .slot t k →
      ¬ (g.v d).level < (g.v c).level := by
    intro c d hc hd
    rw [hc, hd]
    exact lt_irrefl _
  obtain ⟨s, u, hs⟩ := List.append_of_mem hma
  rw [hs] at hmb hsorted
  obtain ⟨-, hright, hleft⟩ := List.pairwise_append.1 hsorted
  rcases List.mem_append.1 hmb with hmb | hmb
  · exact hlevel b a hv' hv (hleft b hmb a List.mem_cons_self)
  · rcases List.mem_cons.1 hmb with rfl | hmb
    · exact hne rfl
    · exact hlevel a b hv hv' ((List.pairwise_cons.1 hright).1 b hmb)

/-- A list is read in any of its places. -/
theorem read (h : Inv g lists ring) (hl : lists r = l ++ l') :
    g.read (.behind r l) = some l'.head? := by
  have hholds : g.links.Holds r (l ++ l') := hl ▸ h.holds r
  have hread := hholds.read
  induction l using List.reverseRecOn with
  | nil => rw [Place.behind_nil] at hread ⊢; exact congrArg some hread
  | append_singleton l b _ =>
    have halloc : g.alloc b = true := h.alloc_of_mem (r := r) (by rw [hl]; simp)
    rw [Place.behind_append] at hread ⊢
    simp only [Global.read, access_of_alloc halloc]
    exact congrArg some hread

/-- A list is written in any of its places. -/
theorem write (h : Inv g lists ring) (hl : lists r = l ++ l') (o : Option Nat) :
    g.write (.behind r l) o = some (g.relink (g.links.write (.behind r l) o)) :=
  write_of_alloc fun b hb => h.alloc_of_mem (r := r) (by rw [hl]; exact List.mem_append_left l' hb)

/-- Off its list and out of the ring, an upvalue is freed. -/
theorem of_freed {g' : Global V} {ring' : List Nat} (h : Inv g lists ring)
    (hl : lists r = l ++ a :: l')
    (hlinks : g'.links = g.links.write (.behind r l) (g.next a)) (hv : g'.v = g.v)
    (hu : ∀ b ∈ lists .rootgc, g'.u b = g.u b) (halloc : g'.alloc = Function.update g.alloc a false)
    (hring : Ring g'.lnext g'.lprev uvhead ring') (hin : ∀ b, b ∈ ring' ↔ b ∈ ring ∧ b ≠ a) :
    Inv g' (Function.update lists r (l ++ l')) ring' := by
  have ha : a ∈ lists r := by rw [hl]; simp
  have hne : a ≠ uvhead := by
    rintro rfl
    exact h.head.2 r ha
  have hholds : g.links.Holds r (l ++ a :: l') := hl ▸ h.holds r
  have hnodup := Chain.nodup hholds
  rw [List.nodup_middle, List.nodup_cons] at hnodup
  -- the lists are those before, without `a`
  have hmem : ∀ b r', b ∈ Function.update lists r (l ++ l') r' ↔ b ∈ lists r' ∧ b ≠ a := by
    intro b r'
    by_cases hr : r' = r
    · subst hr
      rw [Function.update_self, hl]
      constructor
      · intro hb
        refine ⟨by simp only [List.mem_append, List.mem_cons] at hb ⊢; tauto, ?_⟩
        rintro rfl
        exact hnodup.1 hb
      · rintro ⟨hb, hba⟩
        simp only [List.mem_append, List.mem_cons] at hb ⊢
        tauto
    · rw [Function.update_of_ne hr]
      refine ⟨fun hb => ⟨hb, ?_⟩, And.left⟩
      rintro rfl
      exact hr (h.root_unique hb ha)
  refine ⟨fun r' => ?_, fun b hb => ?_, ⟨?_, fun r' hr' => h.head.2 r' ((hmem _ r').1 hr').1⟩,
    fun t b hb => ?_, fun b hb => ?_, fun t => ?_, hring, fun b => ?_⟩
  · rw [hlinks]
    by_cases hr : r' = r
    · subst hr
      rw [Function.update_self]
      exact hholds.remove
    · rw [Function.update_of_ne hr]
      refine (h.holds r').other hr fun b hb hbl => hr (h.root_unique hb ?_)
      rw [hl]
      exact List.mem_append_left _ hbl
  · simp only [hmem, exists_and_right, halloc]
    by_cases hba : b = a
    · simp [hba]
    · rw [Function.update_of_ne hba, h.alloc b hb]
      simp [hba]
  · rw [halloc, Function.update_of_ne (Ne.symm hne)]
    exact h.head.1
  · rw [hv]
    exact h.isopen t b ((hmem b _).1 hb).1
  · have hb' := ((hmem b _).1 hb).1
    rw [hv, hu b hb']
    exact h.isclosed b hb'
  · rw [hv]
    by_cases hr : Root.openupval t = r
    · subst hr
      rw [Function.update_self]
      have hsorted := h.sorted t
      rw [hl] at hsorted
      exact hsorted.sublist (by simp)
    · rw [Function.update_of_ne hr]
      exact h.sorted t
  · simp only [hin, h.in_ring, hmem, exists_and_right]

/-- An open upvalue in the ring. -/
theorem ring_split (h : Inv g lists ring) {t : Nat} (ha : a ∈ lists (.openupval t)) :
    ∃ s s', ring = s ++ a :: s' ∧ (∀ b, b ∈ s ++ s' ↔ b ∈ ring ∧ b ≠ a) := by
  obtain ⟨s, s', rfl⟩ := List.append_of_mem ((h.in_ring a).2 ⟨t, ha⟩)
  have hnodup := (List.nodup_cons.1 h.linked.nodup).2
  rw [List.nodup_middle, List.nodup_cons] at hnodup
  refine ⟨s, s', rfl, fun b => ?_⟩
  constructor
  · intro hb
    refine ⟨by simp only [List.mem_append, List.mem_cons] at hb ⊢; tauto, ?_⟩
    rintro rfl
    exact hnodup.1 hb
  · rintro ⟨hb, hba⟩
    simp only [List.mem_append, List.mem_cons] at hb ⊢
    tauto

/-- The closed upvalues are not in the ring. -/
theorem notMem_ring (h : Inv g lists ring) (ha : a ∈ lists .rootgc) : a ∉ uvhead :: ring := by
  rw [List.mem_cons, not_or]
  refine ⟨?_, fun hring => ?_⟩
  · rintro rfl
    exact h.head.2 _ ha
  · obtain ⟨t, ht⟩ := (h.in_ring a).1 hring
    cases h.root_unique ha ht

/-- The closed upvalues, by what is not the ring's. -/
theorem mem_rootgc (h : Inv g lists ring) (ha : a ≠ uvhead) (halloc : g.alloc a = true)
    (hown : g.v a = .own) : a ∈ lists .rootgc := by
  obtain ⟨r, hr⟩ := (h.alloc a ha).1 halloc
  cases r with
  | rootgc => exact hr
  | openupval t =>
    obtain ⟨k, hk⟩ := h.isopen t a hr
    cases hown.symm.trans hk

/-- The memory after an upvalue was taken off its list and out of the ring. -/
theorem of_unlinked {g₂ : Global V} {ring' : List Nat} (h : Inv g lists ring)
    (hl : lists r = l ++ a :: l')
    (hre : Relinks (g.relink (g.links.write (.behind r l) (g.next a))) g₂ (uvhead :: ring'))
    (hring' : Ring g₂.lnext g₂.lprev uvhead ring') (hin : ∀ b, b ∈ ring' ↔ b ∈ ring ∧ b ≠ a) :
    (∀ b ∈ lists .rootgc, g₂.u b = g.u b) ∧
      Inv { g₂ with alloc := Function.update g₂.alloc a false }
        (Function.update lists r (l ++ l')) ring' := by
  have ha : a ∈ lists r := by rw [hl]; simp
  have hne : a ≠ uvhead := by
    rintro rfl
    exact h.head.2 r ha
  have ha' : a ∉ uvhead :: ring' := by
    rw [List.mem_cons, hin, not_or]
    exact ⟨hne, fun hb => hb.2 rfl⟩
  have hsub : ∀ b ∈ uvhead :: ring', b ∈ uvhead :: ring := by
    intro b hb
    rw [List.mem_cons, hin] at hb
    exact List.mem_cons.2 (hb.imp_right And.left)
  have hu : ∀ b ∈ lists .rootgc, g₂.u b = g.u b :=
    fun b hb => hre.u b fun hb' => h.notMem_ring hb (hsub b hb')
  refine ⟨hu, h.of_freed hl ?_ ?_ hu ?_ ?_ hin⟩
  · rw [hre.eq]
    rfl
  · rw [hre.eq]
    rfl
  · rw [hre.eq]
    rfl
  · have hfree : ∀ b ∈ uvhead :: ring', Function.update g₂.alloc a false b = g₂.alloc b :=
      fun b hb => Function.update_of_ne (ne_of_mem_of_not_mem hb ha') ..
    exact hring'.congr (fun b hb => lnext_congr (hfree b hb) rfl)
      fun b hb => lprev_congr (hfree b hb) rfl

/-- `luaF_freeupval` of an upvalue that was taken off its list. -/
theorem free (h : Inv g lists ring) (hl : lists r = l ++ a :: l') : ∃ g' ring',
    (g.relink (g.links.write (.behind r l) (g.next a))).luaF_freeupval a = some g' ∧
      Inv g' (Function.update lists r (l ++ l')) ring' ∧
      Leaves (· = a) (fun _ => False) g g' := by
  have ha : a ∈ lists r := by rw [hl]; simp
  set g₁ := g.relink (g.links.write (.behind r l) (g.next a)) with hg₁
  have haccess : g₁.access a = some () := access_of_alloc (g := g₁) (h.alloc_of_mem ha)
  -- an open upvalue is taken out of the ring
  obtain ⟨g₂, ring', hfreed, hre, hring', hin⟩ : ∃ g₂ ring', g₁.luaF_freeupval a =
        some { g₂ with alloc := Function.update g₂.alloc a false } ∧
      Relinks g₁ g₂ (uvhead :: ring') ∧ Ring g₂.lnext g₂.lprev uvhead ring' ∧
      ∀ b, b ∈ ring' ↔ b ∈ ring ∧ b ≠ a := by
    cases r with
    | openupval t =>
      obtain ⟨k, hk⟩ := h.isopen t a ha
      obtain ⟨s, s', rfl, hin⟩ := h.ring_split ha
      obtain ⟨g₂, hunlink, hre, hring'⟩ := unlinkupval_spec (g := g₁) h.linked
      have hne : g₁.v a ≠ .own := by
        change g.v a ≠ .own
        rw [hk]
        exact Ptr.noConfusion
      refine ⟨g₂, s ++ s', ?_, hre, hring', hin⟩
      simp [Global.luaF_freeupval, haccess, hne, hunlink]
    | rootgc =>
      have hown : g₁.v a = .own := (h.isclosed a ha).1
      refine ⟨g₁, ring, ?_, ⟨rfl, fun _ _ => rfl⟩, h.linked, fun b => ⟨fun hb => ⟨hb, ?_⟩, And.left⟩⟩
      · simp [Global.luaF_freeupval, haccess, hown]
      · rintro rfl
        exact h.notMem_ring ha (List.mem_cons_of_mem _ hb)
  obtain ⟨hu, hinv⟩ := h.of_unlinked hl hre hring' hin
  refine ⟨_, ring', hfreed, hinv, ?_⟩
  rw [hre.eq]
  have hstay : ∀ b, Function.update g.alloc a false b = true ↔ g.alloc b = true ∧ ¬ b = a := by
    intro b
    by_cases hba : b = a
    · simp [hba]
    · rw [Function.update_of_ne hba]
      simp [hba]
  refine ⟨rfl, rfl, hstay, fun _ _ hC => hC.elim, fun _ _ _ => rfl, fun b hb hb' => ?_⟩
  obtain ⟨halloc', hba⟩ := (hstay b).1 hb'
  exact get_congr (g := g) (Function.update_of_ne hba ..) rfl rfl
    fun hown => hu b (h.mem_rootgc hb halloc' hown)

/-- A closed upvalue is linked in front of the objects. -/
theorem push_closed (h : Inv g lists ring) (hne : a ≠ uvhead) (hfree : g.alloc a = false) (x : V) :
    Inv (({ g with
        alloc := Function.update g.alloc a true
        u := Function.update g.u a (.value x)
        v := Function.update g.v a .own } : Global V).luaC_linkupval a)
      (Function.update lists .rootgc (a :: lists .rootgc)) ring := by
  have hmem : ∀ b r', b ∈ lists r' → b ≠ a := by
    rintro b r' hb rfl
    rw [h.alloc_of_mem hb] at hfree
    cases hfree
  have hopen : ∀ t, Function.update lists .rootgc (a :: lists .rootgc) (.openupval t) =
      lists (.openupval t) := fun t => Function.update_of_ne Root.noConfusion ..
  have hlists : ∀ b r', b ∈ Function.update lists .rootgc (a :: lists .rootgc) r' ↔
      b ∈ lists r' ∨ b = a ∧ r' = .rootgc := by
    intro b r'
    cases r' with
    | openupval t => simp
    | rootgc => simp [or_comm]
  have hring : ∀ b ∈ uvhead :: ring, b ≠ a := by
    intro b hb
    rcases List.mem_cons.1 hb with rfl | hb
    · exact Ne.symm hne
    · obtain ⟨t, ht⟩ := (h.in_ring b).1 hb
      exact hmem b _ ht
  refine ⟨fun r' => ?_, fun b hb => ?_, ⟨?_, fun r' hr' => ?_⟩, fun t b hb => ?_, fun b hb => ?_,
    fun t => ?_, ?_, fun b => ?_⟩
  · cases r' with
    | openupval t =>
      rw [hopen]
      exact (h.holds _).congr fun b hb => Function.update_of_ne (hmem b _ hb) ..
    | rootgc =>
      rw [Function.update_self]
      exact (h.holds .rootgc).push (Function.update_self ..)
        fun b hb => Function.update_of_ne (hmem b _ hb) ..
  · change Function.update g.alloc a true b = true ↔ _
    simp only [hlists]
    by_cases hba : b = a
    · simp [hba]
    · rw [Function.update_of_ne hba, h.alloc b hb]
      simp [hba]
  · exact (Function.update_of_ne (Ne.symm hne) ..).trans h.head.1
  · rcases (hlists _ _).1 hr' with hr' | ⟨hr', -⟩
    · exact h.head.2 r' hr'
    · exact hne hr'.symm
  · rw [hopen] at hb
    obtain ⟨k, hk⟩ := h.isopen t b hb
    exact ⟨k, (Function.update_of_ne (hmem b _ hb) ..).trans hk⟩
  · rw [Function.update_self] at hb
    rcases List.mem_cons.1 hb with rfl | hb
    · exact ⟨Function.update_self .., x, Function.update_self ..⟩
    · obtain ⟨hown, y, hy⟩ := h.isclosed b hb
      exact ⟨(Function.update_of_ne (hmem b _ hb) ..).trans hown, y,
        (Function.update_of_ne (hmem b _ hb) ..).trans hy⟩
  · rw [hopen]
    refine (h.sorted t).imp_of_mem fun {b c} hb hc hbc => ?_
    have hv : ∀ d ∈ lists (.openupval t), Function.update g.v a .own d = g.v d :=
      fun d hd => Function.update_of_ne (hmem d _ hd) ..
    change (Function.update g.v a .own c).level < (Function.update g.v a .own b).level
    rwa [hv b hb, hv c hc]
  · refine h.linked.congr (fun b hb => lnext_congr ?_ ?_) fun b hb => lprev_congr ?_ ?_ <;>
      exact Function.update_of_ne (hring b hb) ..
  · simp only [hopen, h.in_ring]

/-- `luaF_close` of the upvalue on top, which is not dead: it keeps the value of its slot. -/
theorem close_top (h : Inv g lists ring) {t k : Nat} (hl : lists (.openupval t) = a :: l')
    (hv : g.v a = .slot t k) (hdead : g.dead a = false) : ∃ g' lists' ring',
    (g.relink (g.links.write (.head (.openupval t)) (g.next a))).closeUpval a = some g' ∧
      lists' (.openupval t) = l' ∧ Inv g' lists' ring' ∧
      Leaves (fun _ => False) (· = a) g g' := by
  have ha : a ∈ lists (.openupval t) := by rw [hl]; simp
  have halloc := h.alloc_of_mem ha
  have hne : a ≠ uvhead := by
    rintro rfl
    exact h.head.2 _ ha
  set g₁ := g.relink (g.links.write (.head (.openupval t)) (g.next a)) with hg₁
  obtain ⟨s, s', rfl, hin⟩ := h.ring_split ha
  obtain ⟨g₂, hunlink, hre, hring'⟩ := unlinkupval_spec (g := g₁) h.linked
  obtain ⟨hu, hinv⟩ := h.of_unlinked (l := []) hl hre hring' hin
  have hget : g₂.get a = some (g.stack t k) := by
    rw [hre.eq]
    exact get_slot (g := { g₁ with u := g₂.u }) halloc hv
  have hclosed := hinv.push_closed hne (Function.update_self ..) (g.stack t k)
  have hstill : Function.update (Function.update g₂.alloc a false) a true = g₂.alloc := by
    rw [Function.update_idem, Function.update_eq_self_iff, hre.eq]
    exact halloc.symm
  simp only [hstill] at hclosed
  refine ⟨_, _, _, ?_, ?_, hclosed, ?_⟩
  · have hdead₁ : g₁.dead a = false := hdead
    simp [Global.closeUpval, hdead₁, hunlink, hget]
  · rw [Function.update_of_ne Root.noConfusion, Function.update_self, List.nil_append]
  · have halloc₂ : g₂.alloc = g.alloc := by
      rw [hre.eq]
      rfl
    have hv₂ : g₂.v = g.v := by
      rw [hre.eq]
      rfl
    have hstack₂ : g₂.stack = g.stack := by
      rw [hre.eq]
      rfl
    refine ⟨hstack₂, ?_, fun b => ?_, fun b _ hb => ?_, fun b _ hb => ?_, fun b hb hb' => ?_⟩
    · rw [Global.luaC_linkupval, hre.eq]
      rfl
    · rw [Global.luaC_linkupval, halloc₂]
      simp
    · subst hb
      exact Function.update_self ..
    · exact (Function.update_of_ne hb ..).trans (congrFun hv₂ b)
    · have hallocb : g.alloc b = true := by
        rwa [Global.luaC_linkupval, halloc₂] at hb'
      by_cases hba : b = a
      · subst hba
        rw [get_slot halloc hv]
        simp [Global.get, Global.luaC_linkupval, Global.access, halloc₂, hallocb, lua_assert]
      · refine get_congr (congrFun halloc₂ b) ((Function.update_of_ne hba ..).trans (congrFun hv₂ b))
          hstack₂ fun hown => (Function.update_of_ne hba ..).trans ?_
        exact hu b (h.mem_rootgc hb hallocb hown)

end Inv

/-- A new upvalue goes where the loop stopped, and into the ring. -/
theorem Inv.insert {t level : Nat} {s s' : List Nat} {g₃ : Global V} (h : Inv g lists ring)
    (hl : lists (.openupval t) = s ++ s') (hne : a ≠ uvhead) (hfree : g.alloc a = false)
    (habove : ∀ b ∈ s, level < (g.v b).level) (hbelow : ∀ b ∈ s', (g.v b).level < level)
    (hlinks : g₃.links = (g.luaM_new a (.slot t level) s'.head?).links.write
      (.behind (.openupval t) s) (some a))
    (hv : g₃.v = Function.update g.v a (.slot t level))
    (hu : ∀ b, b ∉ a :: uvhead :: ring → g₃.u b = g.u b)
    (halloc : g₃.alloc = Function.update g.alloc a true)
    (hring : Ring g₃.lnext g₃.lprev uvhead (a :: ring)) :
    Inv g₃ (Function.update lists (.openupval t) (s ++ a :: s')) (a :: ring) := by
  have hmem : ∀ b r', b ∈ lists r' → b ≠ a := by
    rintro b r' hb rfl
    rw [h.alloc_of_mem hb] at hfree
    cases hfree
  have hlists : ∀ b r', b ∈ Function.update lists (.openupval t) (s ++ a :: s') r' ↔
      b ∈ lists r' ∨ b = a ∧ r' = .openupval t := by
    intro b r'
    by_cases hr : r' = .openupval t
    · subst hr
      rw [Function.update_self, hl]
      simp only [List.mem_append, List.mem_cons, and_true]
      tauto
    · rw [Function.update_of_ne hr]
      simp [hr]
  have hvne : ∀ b r', b ∈ lists r' → g₃.v b = g.v b := by
    intro b r' hb
    rw [hv, Function.update_of_ne (hmem b r' hb)]
  have hnew : ∀ r', (g.luaM_new a (.slot t level) s'.head?).links.Holds r' (lists r') :=
    fun r' => (h.holds r').congr fun b hb => Function.update_of_ne (hmem b r' hb) ..
  refine ⟨fun r' => ?_, fun b hb => ?_, ⟨?_, fun r' hr' => ?_⟩, fun t' b hb => ?_, fun b hb => ?_,
    fun t' => ?_, hring, fun b => ?_⟩
  · rw [hlinks]
    by_cases hr : r' = .openupval t
    · subst hr
      rw [Function.update_self]
      have hholds := hnew (.openupval t)
      rw [hl] at hholds
      apply hholds.insert (Function.update_self ..)
      intro ha
      rw [← hl] at ha
      exact hmem a _ ha rfl
    · rw [Function.update_of_ne hr]
      refine (hnew r').other hr fun b hb hbs => hr (h.root_unique hb ?_)
      rw [hl]
      exact List.mem_append_left _ hbs
  · rw [halloc]
    simp only [hlists]
    by_cases hba : b = a
    · simp [hba]
    · rw [Function.update_of_ne hba, h.alloc b hb]
      simp [hba]
  · rw [halloc, Function.update_of_ne (Ne.symm hne)]
    exact h.head.1
  · rcases (hlists _ _).1 hr' with hr' | ⟨hr', -⟩
    · exact h.head.2 r' hr'
    · exact hne hr'.symm
  · rcases (hlists _ _).1 hb with hb | ⟨rfl, hr⟩
    · rw [hvne b _ hb]
      exact h.isopen t' b hb
    · cases hr
      exact ⟨level, by rw [hv, Function.update_self]⟩
  · rcases (hlists _ _).1 hb with hb | ⟨-, hr⟩
    · have hnot : b ∉ a :: uvhead :: ring := by
        rw [List.mem_cons, not_or]
        exact ⟨hmem b _ hb, h.notMem_ring hb⟩
      rw [hvne b _ hb, hu b hnot]
      exact h.isclosed b hb
    · cases hr
  · by_cases ht : t' = t
    · subst ht
      have hsorted := h.sorted t'
      rw [Function.update_self]
      rw [hl] at hsorted
      have hself : (g₃.v a).level = level := by
        rw [hv, Function.update_self]
        rfl
      have hs : ∀ b ∈ s, g₃.v b = g.v b :=
        fun b hb => hvne b (.openupval t') (by rw [hl]; exact List.mem_append_left s' hb)
      have hs' : ∀ b ∈ s', g₃.v b = g.v b :=
        fun b hb => hvne b (.openupval t') (by rw [hl]; exact List.mem_append_right s hb)
      obtain ⟨hleft, hright, hcross⟩ := List.pairwise_append.1 hsorted
      refine List.pairwise_append.2 ⟨?_, List.pairwise_cons.2 ⟨fun b hb => ?_, ?_⟩,
        fun b hb c hc => ?_⟩
      · exact hleft.imp_of_mem fun hb hc hbc => by rwa [hs _ hb, hs _ hc]
      · rw [hself, hs' b hb]
        exact hbelow b hb
      · exact hright.imp_of_mem fun hb hc hbc => by rwa [hs' _ hb, hs' _ hc]
      · rcases List.mem_cons.1 hc with rfl | hc
        · rw [hself, hs b hb]
          exact habove b hb
        · rw [hs b hb, hs' c hc]
          exact hcross b hb c hc
    · rw [Function.update_of_ne fun hr => ht (by cases hr; rfl)]
      exact (h.sorted t').imp_of_mem fun hb hc hbc => by rwa [hvne _ _ hb, hvne _ _ hc]
  · simp only [List.mem_cons, h.in_ring, hlists, Root.openupval.injEq]
    constructor
    · rintro (rfl | ⟨t', hb⟩)
      · exact ⟨t, .inr ⟨rfl, rfl⟩⟩
      · exact ⟨t', .inl hb⟩
    · rintro ⟨t', hb | ⟨rfl, -⟩⟩
      · exact .inr ⟨t', hb⟩
      · exact .inl rfl

end LuaFltk.Func
