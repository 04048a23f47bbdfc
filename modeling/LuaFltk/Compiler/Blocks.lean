import LuaFltk.Compiler.Patch

/-!
# Blocks and captures keep the scopes

A captured local belongs to a block that is marked, so a block which is left without an
`OP_CLOSE` has only free locals. `break` and `continue` look at the marks of the blocks they
leave at the time they are compiled.
-/

namespace LuaFltk.Compiler

variable {fs fs' fs'' : FuncState}

/-- What the parser relies on in a block, besides its lists and its mark. -/
def BlockCnt.key (bl : BlockCnt) : Nat × Bool := (bl.nactvar, bl.isbreakable)

/-- A piece of code that leaves the active locals and the blocks as they are. -/
structure Emits (fs fs' : FuncState) : Prop where
  good : Good fs'
  ext : Ext fs fs'
  actvar : fs'.actvar = fs.actvar
  blocks : fs'.bl.map BlockCnt.key = fs.bl.map BlockCnt.key

theorem Emits.refl (h : Good fs) : Emits fs fs := ⟨h, Ext.refl fs, rfl, rfl⟩

theorem Emits.trans (h : Emits fs fs') (h' : Emits fs' fs'') : Emits fs fs'' where
  good := h'.good
  ext := h.ext.trans h'.ext
  actvar := h'.actvar.trans h.actvar
  blocks := h'.blocks.trans h.blocks

theorem Emits.jump (h : Good fs) : Emits fs (luaK_jump fs).1 :=
  ⟨h.jump, Ext.jump fs, rfl, rfl⟩

/-- A list that may end up here is put on hold. -/
theorem Emits.patchtohere {list : List Nat} (h : Good fs)
    (hlist : ∀ q ∈ list, Pend fs q fs.actvar) : Emits fs (luaK_patchtohere list fs) :=
  ⟨h.patchtohere hlist, Ext.patchtohere list fs, rfl, rfl⟩

/-- The locals below a level are those whose registers are below it. -/
theorem mem_take_iff (h : Sound fs) {level : Nat} {v : Var} :
    v ∈ fs.actvar.take level ↔ v ∈ fs.actvar ∧ v.reg < level := by
  constructor
  · intro hv
    obtain ⟨r, hr⟩ := List.getElem?_of_mem hv
    rw [List.getElem?_take] at hr
    split at hr
    · next hlt =>
      rw [h.regs r v hr]
      exact ⟨List.mem_of_getElem? hr, hlt⟩
    · cases hr
  · intro ⟨hv, hlt⟩
    obtain ⟨r, hr⟩ := List.getElem?_of_mem hv
    rw [h.regs r v hr] at hlt
    apply List.mem_of_getElem? (i := r)
    rw [List.getElem?_take, if_pos hlt, hr]

/-! ## Marking blocks -/

/-- A mark changes at most the `upval` of an owner. -/
theorem owner_markupval (level r : Nat) (bl : List BlockCnt) :
    owner (markupval level bl) r = owner bl r ∨
      ∃ upval loop, owner bl r = some (upval, loop) ∧
        owner (markupval level bl) r = some (true, loop) := by
  induction bl with
  | nil => exact .inl rfl
  | cons b bl ih =>
    unfold markupval
    split
    · unfold owner
      split
      · exact .inl rfl
      · exact ih
    · by_cases hr : b.nactvar ≤ r
      · exact .inr ⟨b.upval, b.isbreakable, by simp [owner, hr], by simp [owner, hr]⟩
      · exact .inl (by simp [owner, hr])

/-- The level marked belongs to a block with an upvalue. -/
theorem marked_markupval_self (level : Nat) (bl : List BlockCnt) :
    Marked (markupval level bl) level := by
  induction bl with
  | nil => intro upval loop h; cases h
  | cons b bl ih =>
    unfold markupval
    split
    · next h =>
      unfold Marked owner
      rw [if_neg (by omega)]
      exact ih
    · next h =>
      intro upval loop ho
      unfold owner at ho
      rw [if_pos (by simpa using h)] at ho
      cases ho
      rfl

/-- Marks are not taken away. -/
theorem Marked.markupval {bl : List BlockCnt} {r : Nat} (h : Marked bl r) (level : Nat) :
    Marked (markupval level bl) r := by
  intro upval loop ho
  rcases owner_markupval level r bl with heq | ⟨upval', loop', -, hnew⟩
  · rw [heq] at ho
    exact h upval loop ho
  · rw [hnew] at ho
    cases ho
    rfl

/-- A marked block is as before but for the mark. -/
theorem mem_markupval {level : Nat} {bl : List BlockCnt} {b : BlockCnt}
    (h : b ∈ markupval level bl) : ∃ b' ∈ bl, ∃ upval, b = { b' with upval := upval } := by
  induction bl with
  | nil => cases h
  | cons c bl ih =>
    unfold markupval at h
    split at h
    · rcases List.mem_cons.1 h with rfl | h
      · exact ⟨b, by simp, b.upval, rfl⟩
      · obtain ⟨b', hb', heq⟩ := ih h
        exact ⟨b', List.mem_cons_of_mem _ hb', heq⟩
    · rcases List.mem_cons.1 h with rfl | h
      · exact ⟨c, by simp, true, rfl⟩
      · exact ⟨b, List.mem_cons_of_mem _ h, b.upval, rfl⟩

/-- Levels and loops stay as they are. -/
theorem map_key_markupval (level : Nat) (bl : List BlockCnt) :
    (markupval level bl).map BlockCnt.key = bl.map BlockCnt.key := by
  induction bl with
  | nil => rfl
  | cons b bl ih =>
    unfold markupval
    split
    · rw [List.map_cons, ih, List.map_cons]
    · rfl

/-- What all three change of a list of blocks have in common: levels, kinds and lists stay,
marks are only added. -/
structure Remarks (bl bl' : List BlockCnt) : Prop where
  keys : bl'.map BlockCnt.key = bl.map BlockCnt.key
  lists : ∀ b ∈ bl', ∃ b' ∈ bl, ∃ upval, b = { b' with upval := upval }
  marked : ∀ r, Marked bl r → Marked bl' r
  owners : ∀ r upval loop, owner bl' r = some (upval, loop) → ∃ upval, owner bl r = some (upval, loop)

theorem Remarks.refl (bl : List BlockCnt) : Remarks bl bl :=
  ⟨rfl, fun b hb => ⟨b, hb, b.upval, rfl⟩, fun _ h => h, fun _ upval _ h => ⟨upval, h⟩⟩

theorem Remarks.markupval (level : Nat) (bl : List BlockCnt) :
    Remarks bl (markupval level bl) where
  keys := map_key_markupval level bl
  lists _ hb := mem_markupval hb
  marked r hr := hr.markupval level
  owners r upval loop ho := by
    rcases owner_markupval level r bl with heq | ⟨upval', loop', hold, hnew⟩
    · rw [heq] at ho
      exact ⟨upval, ho⟩
    · rw [hnew] at ho
      cases ho
      exact ⟨upval', hold⟩

theorem Remarks.trans {bl bl' bl'' : List BlockCnt} (h : Remarks bl bl')
    (h' : Remarks bl' bl'') : Remarks bl bl'' where
  keys := h'.keys.trans h.keys
  lists b hb := by
    obtain ⟨b', hb', upval, rfl⟩ := h'.lists b hb
    obtain ⟨b'', hb'', upval', rfl⟩ := h.lists b' hb'
    exact ⟨b'', hb'', upval, rfl⟩
  marked r hr := h'.marked r (h.marked r hr)
  owners r upval loop ho := by
    obtain ⟨upval', ho'⟩ := h'.owners r upval loop ho
    exact h.owners r upval' loop ho'

/-- Marking the blocks of all captured locals. -/
theorem remarks_foldl (caps : List Var) (bl : List BlockCnt) :
    Remarks bl (caps.foldl (fun bl v => markupval v.reg bl) bl) ∧
      ∀ v ∈ caps, Marked (caps.foldl (fun bl v => markupval v.reg bl) bl) v.reg := by
  induction caps generalizing bl with
  | nil => exact ⟨Remarks.refl bl, fun _ hv => nomatch hv⟩
  | cons c caps ih =>
    obtain ⟨hrest, hmarked⟩ := ih (markupval c.reg bl)
    refine ⟨(Remarks.markupval c.reg bl).trans hrest, fun v hv => ?_⟩
    rcases List.mem_cons.1 hv with rfl | hv
    · exact hrest.marked _ (marked_markupval_self _ _)
    · exact hmarked v hv

/-- The order of the blocks is one of their levels. -/
theorem sorted_of_keys {bl bl' : List BlockCnt}
    (hk : bl'.map BlockCnt.key = bl.map BlockCnt.key)
    (h : bl.Pairwise fun b outer => outer.nactvar ≤ b.nactvar) :
    bl'.Pairwise fun b outer => outer.nactvar ≤ b.nactvar := by
  have hmap : ∀ l : List BlockCnt, (l.Pairwise fun b outer => outer.nactvar ≤ b.nactvar) ↔
      (l.map BlockCnt.key).Pairwise fun b outer => outer.1 ≤ b.1 := by
    intro l
    rw [List.pairwise_map]
    rfl
  rw [hmap] at h ⊢
  rwa [hk]

/-- A change of the blocks, and of the record of jumps. -/
theorem Good.of_blocks (h : Good fs) (hcode : fs'.code = fs.code) (hjpc : fs'.jpc = fs.jpc)
    (ha : fs'.actvar = fs.actvar) (hn : fs'.nlocvars = fs.nlocvars)
    (hb : ∀ q ∈ fs.breaks, q ∈ fs'.breaks) (hc : ∀ q ∈ fs.continues, q ∈ fs'.continues)
    (blocks : ∀ b ∈ fs'.bl, BlockGood fs' b)
    (sorted : fs'.bl.Pairwise fun b outer => outer.nactvar ≤ b.nactvar)
    (marked : ∀ v ∈ fs.actvar, Marked fs.bl v.reg → Marked fs'.bl v.reg)
    (owned : ∀ v ∈ fs.actvar, ∀ upval loop, owner fs'.bl v.reg = some (upval, loop) →
      ∃ upval, owner fs.bl v.reg = some (upval, loop)) : Good fs' := by
  have hs : fs'.shape = fs.shape := by rw [FuncState.shape, hcode]; rfl
  have hg : Grow fs fs' := (Ext.of_shape hs ha hn hb hc).toGrow
  constructor
  case toSound =>
    constructor
    case regs => rw [ha]; exact h.regs
    case ids => rw [ha, hn]; exact h.ids
    case caps => rw [hs]; exact h.caps
    case above => rw [hs]; exact h.above
    case flow =>
      rw [hs]
      exact fun q i t hi ht => (h.flow q i t hi ht).grow hg
    case jumps =>
      intro q i d hi hd
      rw [hcode] at hi
      obtain ⟨t, ht, hedge⟩ := h.jumps q i d hi hd
      have hq : q < fs.pc := (List.getElem?_eq_some_iff.1 hi).1
      exact ⟨t, hg.get ht, hedge.grow hg hq (lt_pc ht)⟩
    case blocks => exact blocks
    case sorted => exact sorted
    case marked =>
      rw [hs, ha]
      exact fun p v hp hv => marked v hv (h.marked p v hp hv)
    case owned =>
      rw [ha]
      intro v hv hname upval loop ho
      obtain ⟨upval', ho'⟩ := owned v hv upval loop ho
      exact h.owned v hv hname upval' loop ho'
  case pending =>
    rw [hjpc, ha]
    exact fun q hq => (h.pending q hq).grow hg
  case fresh => rw [hs, hn]; exact h.fresh
  case last =>
    rw [hs]
    exact fun i hi => (h.last i hi).of_shape hg ha

/-- More blocks may be marked than need be. -/
theorem Good.remark (h : Good fs) {bl : List BlockCnt} (hr : Remarks fs.bl bl) :
    Good { fs with bl := bl } := by
  have hext : Ext fs { fs with bl := bl } :=
    Ext.of_shape rfl rfl rfl (fun _ h => h) fun _ h => h
  refine h.of_blocks rfl rfl rfl rfl (fun _ h => h) (fun _ h => h) ?_
    (sorted_of_keys hr.keys h.sorted) (fun v _ => hr.marked v.reg) fun v _ => hr.owners v.reg
  intro b hb
  obtain ⟨b', hb', upval, rfl⟩ := hr.lists b hb
  have hgood := (h.blocks b' hb').grow hext.toGrow (h.blocks b' hb').level rfl
  exact ⟨hgood.level, hgood.breaks, hgood.continues⟩

/-- The search finds an active local of that name. -/
theorem searchvar_spec {n : String} {v : Var} (h : searchvar fs n = some v) :
    v ∈ fs.actvar ∧ v.name = some n := by
  unfold searchvar at h
  refine ⟨List.mem_reverse.1 (List.mem_of_find?_eq_some h), ?_⟩
  simpa using List.find?_some h

/-- What is captured is active and has a name. -/
theorem mem_caps {names : List String} {v : Var} (h : v ∈ (singlevaraux names fs).2) :
    v ∈ fs.actvar ∧ v.name.isSome := by
  obtain ⟨n, -, hn⟩ := List.mem_filterMap.1 h
  obtain ⟨hv, hname⟩ := searchvar_spec hn
  exact ⟨hv, by rw [hname]; rfl⟩

/-- Captures mark blocks and emit nothing. -/
theorem Emits.singlevaraux (h : Good fs) (names : List String) :
    Emits fs (singlevaraux names fs).1 :=
  have hr := (remarks_foldl (Compiler.singlevaraux names fs).2 fs.bl).1
  ⟨h.remark hr, Ext.of_shape rfl rfl rfl (fun _ h => h) fun _ h => h, rfl, hr.keys⟩

/-- Each captured variable is in scope, and its block is marked. -/
theorem capsOk_singlevaraux (op : Op) (names : List String) (fs : FuncState) :
    CapsOk (singlevaraux names fs).1 op (singlevaraux names fs).2 := by
  intro v hv
  have hm := (remarks_foldl (singlevaraux names fs).2 fs.bl).2 v hv
  exact ⟨(mem_caps hv).2, .inl ⟨(mem_caps hv).1, hm⟩⟩

/-! ## Entering and leaving blocks -/

theorem Ext.enterblock (isbreakable : Bool) (fs : FuncState) :
    Ext fs (enterblock isbreakable fs) :=
  Ext.of_shape rfl rfl rfl (fun _ h => h) fun _ h => h

/-- A new block owns no local yet. -/
theorem owner_enterblock {isbreakable : Bool} (h : Sound fs) {v : Var} (hv : v ∈ fs.actvar) :
    owner (enterblock isbreakable fs).bl v.reg = owner fs.bl v.reg := by
  have hlt := reg_lt h hv
  show owner (⟨[], [], fs.nactvar, false, isbreakable⟩ :: fs.bl) v.reg = _
  rw [owner, if_neg (by simpa using hlt)]

/-- A new block has no jumps and no locals yet. -/
theorem Good.enterblock (h : Good fs) (isbreakable : Bool) :
    Good (enterblock isbreakable fs) := by
  have hg := (Ext.enterblock isbreakable fs).toGrow
  refine h.of_blocks rfl rfl rfl rfl (fun _ h => h) (fun _ h => h) ?_
    (List.pairwise_cons.2 ⟨fun b hb => (h.blocks b hb).level, h.sorted⟩) ?_ ?_
  · intro b hb
    rcases List.mem_cons.1 hb with rfl | hb
    · exact ⟨Nat.le_refl _, List.forall_mem_nil _, List.forall_mem_nil _⟩
    · exact (h.blocks b hb).grow hg (h.blocks b hb).level rfl
  · intro v hv hm upval loop ho
    rw [owner_enterblock h.toSound hv] at ho
    exact hm upval loop ho
  · intro v hv upval loop ho
    rw [owner_enterblock h.toSound hv] at ho
    exact ⟨upval, ho⟩

section Leave

variable {b : BlockCnt} {previous : List BlockCnt}

/-- The state of `leaveblock` after `removevars`. -/
def leave (b : BlockCnt) (previous : List BlockCnt) (fs : FuncState) : FuncState :=
  removevars b.nactvar { fs with bl := previous }

/-- `leaveblock` in two steps: the block is taken away, and its breaks are put on hold behind an
`OP_CLOSE`. -/
theorem leaveblock_eq (hbl : fs.bl = b :: previous) :
    leaveblock fs = luaK_patchtohere b.breaklist
      (if b.upval then luaK_code (.close b.nactvar) [] (leave b previous fs)
       else leave b previous fs) := by
  unfold leaveblock
  rw [hbl]
  rfl

/-- The registers from the level of a block on are its own. -/
theorem owner_of_level {bl : List BlockCnt} {r : Nat} (h : b.nactvar ≤ r) :
    owner (b :: bl) r = some (b.upval, b.isbreakable) := by
  rw [owner, if_pos h]

/-- A local that ends with an unmarked block is free. -/
theorem free_leave (h : Good fs) (hbl : fs.bl = b :: previous) (hup : b.upval = false) {v : Var}
    (hv : v ∈ fs.actvar) (hv' : v ∉ fs.actvar.take b.nactvar) :
    Free (leave b previous fs) v := by
  refine ⟨h.ids v hv, hv', fun p hp => ?_⟩
  rw [mem_take_iff h.toSound, not_and] at hv'
  have ho : owner fs.bl v.reg = some (b.upval, b.isbreakable) := by
    rw [hbl]
    exact owner_of_level (Nat.not_lt.1 (hv' hv))
  have hm := h.marked p v hp hv _ _ ho
  rw [hup] at hm
  cases hm

theorem Grow.leave (b : BlockCnt) (previous : List BlockCnt) (fs : FuncState) :
    Grow fs (leave b previous fs) where
  shape := List.prefix_refl _
  breaks _ h := h
  continues _ h := h
  free _ hv := ⟨hv.1, fun hmem => hv.2.1 (List.mem_of_mem_take hmem), hv.2.2⟩

/-- Without an upvalue in the block its locals may end without an `OP_CLOSE`. -/
theorem drops_leave (h : Good fs) (hbl : fs.bl = b :: previous) (hup : b.upval = false) :
    Drops (leave b previous fs) fs.actvar fs.actvar (leave b previous fs).actvar :=
  ⟨List.take_subset _ _, fun _ hv hv' => free_leave h hbl hup hv hv'⟩

/-- The code emitted so far does not depend on the block that is left. -/
theorem Sound.leave (h : Good fs) (hbl : fs.bl = b :: previous) :
    Sound (leave b previous fs) := by
  have hg := Grow.leave b previous fs
  have hsub : ∀ v ∈ (Compiler.leave b previous fs).actvar, v ∈ fs.actvar ∧ v.reg < b.nactvar :=
    fun _ hv => (mem_take_iff h.toSound).1 hv
  have hsorted := h.sorted
  rw [hbl, List.pairwise_cons] at hsorted
  have howner : ∀ v ∈ (Compiler.leave b previous fs).actvar, owner previous v.reg = owner fs.bl v.reg := by
    intro v hv
    rw [hbl, owner, if_neg (Nat.not_le.2 (hsub v hv).2)]
  constructor
  case regs =>
    intro r v hr
    have hr' : (fs.actvar.take b.nactvar)[r]? = some v := hr
    rw [List.getElem?_take] at hr'
    split at hr'
    · exact h.regs r v hr'
    · cases hr'
  case ids => exact fun v hv => h.ids v (hsub v hv).1
  case caps => exact h.caps
  case above => exact h.above
  case flow => exact fun q i t hi ht => (h.flow q i t hi ht).grow hg
  case jumps =>
    intro q i d hi hd
    obtain ⟨t, ht, hedge⟩ := h.jumps q i d hi hd
    have hq : q < fs.pc := (List.getElem?_eq_some_iff.1 hi).1
    exact ⟨t, ht, hedge.grow hg hq (lt_pc ht)⟩
  case blocks =>
    intro c hc
    have hgood := h.blocks c (by rw [hbl]; exact List.mem_cons_of_mem _ hc)
    have hb := (h.blocks b (by rw [hbl]; exact List.mem_cons_self)).level
    have hle := hsorted.1 c hc
    apply hgood.grow hg
    · show c.nactvar ≤ (fs.actvar.take b.nactvar).length
      rw [List.length_take]
      exact Nat.le_min.2 ⟨hle, hgood.level⟩
    · show (fs.actvar.take b.nactvar).take c.nactvar = _
      rw [List.take_take, Nat.min_eq_left hle]
  case sorted => exact hsorted.2
  case marked =>
    intro p v hp hv upval loop ho
    have ho' : owner previous v.reg = some (upval, loop) := ho
    rw [howner v hv] at ho'
    exact h.marked p v hp (hsub v hv).1 upval loop ho'
  case owned =>
    intro v hv hname upval loop ho
    have ho' : owner previous v.reg = some (upval, loop) := ho
    rw [howner v hv] at ho'
    exact h.owned v (hsub v hv).1 hname upval loop ho'

/-- The `OP_CLOSE` of a block fits behind it: it covers all that ends. -/
theorem fits_close (h : Good fs) (b : BlockCnt) (previous : List BlockCnt) :
    Fits (leave b previous fs) ⟨.close b.nactvar, (leave b previous fs).actvar, [], none⟩ := by
  have hg := Grow.leave b previous fs
  have henters : Enters (leave b previous fs) fs.actvar fs.actvar
      ⟨.close b.nactvar, (leave b previous fs).actvar, [], none⟩ := by
    refine ⟨List.take_subset _ _, fun v hv hv' => .inl (.inr ⟨b.nactvar, rfl, ?_⟩)⟩
    have hv'' : v ∉ fs.actvar.take b.nactvar := hv'
    rw [mem_take_iff h.toSound, not_and] at hv''
    exact Nat.not_lt.1 (hv'' hv)
  constructor
  · intro i hi
    refine ⟨fun hf => (((h.last i hi).drops hf).grow hg).enters henters, fun a ha => .inr fun v hv => ?_⟩
    exact (h.last i hi).closes a ha v (List.mem_of_mem_take hv)
  · exact fun q hq => ⟨fs.actvar, (h.pending q hq).grow hg, henters⟩
  · exact fun _ i hi a ha v hv => (h.last i hi).closes a ha v (List.mem_of_mem_take hv)
  · exact List.forall_mem_nil _

/-- A block without upvalues is left as it stands. -/
theorem Good.leave (h : Good fs) (hbl : fs.bl = b :: previous) (hup : b.upval = false) :
    Good (leave b previous fs) := by
  have hg := Grow.leave b previous fs
  have hdrops := drops_leave h hbl hup
  refine ⟨Sound.leave h hbl, fun q hq => ((h.pending q hq).grow hg).drops hdrops, h.fresh, ?_⟩
  intro i hi
  refine ⟨fun hf => (((h.last i hi).drops hf).grow hg).trans hdrops, fun a ha v hv => ?_⟩
  exact (h.last i hi).closes a ha v (List.mem_of_mem_take hv)

/-- One with an upvalue is left by an `OP_CLOSE` for its level. -/
theorem Good.leave_close (h : Good fs) (hbl : fs.bl = b :: previous) :
    Good (luaK_code (.close b.nactvar) [] (Compiler.leave b previous fs)) where
  toSound := (Sound.leave h hbl).emit (capsOk_nil _ _) (fits_close h b previous)
  pending _ hq := nomatch hq
  fresh p v hp := by
    have hold := captures_luaK_code_nil hp
    exact h.fresh p v hold
  last i hi := by
    rw [shape_luaK_code, List.getLast?_concat] at hi
    cases hi
    refine ⟨fun _ => ?_, fun a ha v hv => ?_⟩
    · rw [Ins.after_eq rfl, Ins.held_eq rfl]
      exact Drops.refl _ _
    · cases ha
      exact ((mem_take_iff h.toSound).1 hv).2

theorem actvar_leaveblock (hbl : fs.bl = b :: previous) :
    (leaveblock fs).actvar = fs.actvar.take b.nactvar := by
  rw [leaveblock_eq hbl]
  split <;> rfl

theorem bl_leaveblock (hbl : fs.bl = b :: previous) : (leaveblock fs).bl = previous := by
  rw [leaveblock_eq hbl]
  split <;> rfl

/-- Both ways to leave a block. -/
theorem Good.leaveblock (h : Good fs) (hbl : fs.bl = b :: previous) : Good (leaveblock fs) := by
  have hbreaks := (h.blocks b (by rw [hbl]; exact List.mem_cons_self)).breaks
  rw [leaveblock_eq hbl]
  split
  · apply (h.leave_close hbl).patchtohere
    exact fun q hq => (hbreaks q hq).grow ((Grow.leave b previous fs).trans (Grow.emit (capsOk_nil _ _)))
  · next hup =>
    apply (h.leave hbl (by simpa using hup)).patchtohere
    exact fun q hq => (hbreaks q hq).grow (Grow.leave b previous fs)

theorem Ext.leaveblock (h : Good fs) (hbl : fs.bl = b :: previous) :
    Ext fs (leaveblock fs) := by
  rw [leaveblock_eq hbl]
  refine Ext.trans ?_ (Ext.patchtohere _ _)
  have hg := Grow.leave b previous fs
  split
  · have hemit : Grow (leave b previous fs) _ := Grow.emit (capsOk_nil _ (.close b.nactvar))
    refine ⟨hg.trans hemit, fun t ht => ?_, fun hpc => ?_⟩
    · have hnew := luaK_code_getElem? (.close b.nactvar) [] (Compiler.leave b previous fs)
      rw [show (Compiler.leave b previous fs).pc = fs.pc from rfl] at hnew
      rw [hnew] at ht
      cases ht
      have hsub : (Compiler.leave b previous fs).actvar ⊆ fs.actvar := List.take_subset _ _
      refine ⟨hsub, fun v hv hv' => .inl (.inr ⟨b.nactvar, rfl, ?_⟩)⟩
      have hv'' : v ∉ fs.actvar.take b.nactvar := hv'
      rw [mem_take_iff h.toSound, not_and] at hv''
      exact Nat.not_lt.1 (hv'' hv)
    · rw [pc_luaK_code, show (Compiler.leave b previous fs).pc = fs.pc from rfl] at hpc
      omega
  · next hup =>
    refine ⟨hg, fun t ht => ?_, fun _ => drops_leave h hbl (by simpa using hup)⟩
    have hnone := no_shape_at_pc fs
    rw [show (Compiler.leave b previous fs).shape = fs.shape from rfl, hnone] at ht
    cases ht

end Leave

/-! ## Jumps out of blocks -/

section Escape

variable {left outer : List BlockCnt} {b : BlockCnt}

/-- A register from the level of a block on is owned by that block or by one further in. -/
theorem owner_append {r : Nat} (h : b.nactvar ≤ r) (left outer : List BlockCnt) :
    ∃ c, (c ∈ left ∨ c = b) ∧ owner (left ++ b :: outer) r = some (c.upval, c.isbreakable) := by
  induction left with
  | nil => exact ⟨b, .inr rfl, owner_of_level h⟩
  | cons c left ih =>
    by_cases hc : c.nactvar ≤ r
    · exact ⟨c, .inl List.mem_cons_self, owner_of_level hc⟩
    · obtain ⟨c', hc', ho⟩ := ih
      refine ⟨c', hc'.imp_left (List.mem_cons_of_mem _), ?_⟩
      rw [List.cons_append, owner, if_neg hc]
      exact ho

/-- When none of the blocks that a jump leaves is marked, no instruction so far captures a
local that it leaves. -/
theorem not_captures_of_left (h : Sound fs) (hbl : fs.bl = left ++ b :: outer)
    (hloop : b.isbreakable = true) (hup : left.any (·.upval) = false) {v : Var}
    (hv : v ∈ fs.actvar) (hle : b.nactvar ≤ v.reg) (p : Nat) : ¬ Captures fs.shape p v := by
  intro hp
  have ⟨i, hi, hcap⟩ := hp
  obtain ⟨c, hc, ho⟩ := owner_append hle left outer
  rw [← hbl] at ho
  rcases hc with hc | rfl
  · have hm := h.marked p v hp hv _ _ ho
    rw [List.any_eq_false] at hup
    exact hup c hc hm
  · have hl := h.owned v hv (h.caps p i hi v hcap).2 _ _ ho
    rw [hloop] at hl
    cases hl

/-- A local that ends at a level is in a register from it on. -/
theorem not_mem_take (h : Sound fs) {level : Nat} {v : Var} (hv : v ∈ fs.actvar)
    (hv' : v ∉ fs.actvar.take level) : level ≤ v.reg := by
  rw [mem_take_iff h, not_and] at hv'
  exact Nat.not_lt.1 (hv' hv)

/-- The state after `closeJump` without and with an `OP_CLOSE`. -/
theorem closeJump_of_not (hup : left.any (·.upval) = false) (level : Nat) :
    closeJump left level fs = luaK_jump fs := by
  rw [closeJump, if_neg (by rw [hup]; exact Bool.false_ne_true)]

theorem closeJump_of_upval (hup : left.any (·.upval) = true) (level : Nat) :
    closeJump left level fs = luaK_jump (luaK_code (.close level) [] fs) := by
  rw [closeJump, if_pos hup]

theorem Ext.closeJump (left : List BlockCnt) (level : Nat) (fs : FuncState) :
    Ext fs (closeJump left level fs).1 := by
  rcases hup : left.any (·.upval) with _ | _
  · rw [closeJump_of_not hup]
    exact Ext.jump fs
  · rw [closeJump_of_upval hup]
    exact (Ext.emit (capsOk_nil _ _)).trans (Ext.jump _)

/-- A jump may stand behind any `OP_CLOSE` with the same scope. -/
theorem Good.close_jump (h : Good fs) (level : Nat) :
    Good (luaK_jump (luaK_code (.close level) [] fs)).1 := by
  have hclose : Sound (luaK_code (.close level) [] fs) :=
    h.toSound.emit (capsOk_nil _ _) (h.fits _ _ (List.forall_mem_nil _))
  have hfit : Fits (luaK_code (.close level) [] fs) ⟨.jmp, fs.actvar, [], none⟩ := by
    refine ⟨fun i hi => ?_, List.forall_mem_nil _, fun hne => absurd rfl hne, List.forall_mem_nil _⟩
    rw [shape_luaK_code, List.getLast?_concat] at hi
    cases hi
    refine ⟨fun _ => ?_, fun _ _ => .inl rfl⟩
    rw [Ins.after_eq rfl, Ins.held_eq rfl]
    exact (Drops.refl _ _).to_enters
  refine ⟨hclose.emit (capsOk_nil _ _) hfit, List.forall_mem_nil _, fun p v hp => ?_, fun i hi => ?_⟩
  · exact h.fresh p v (captures_luaK_code_nil (captures_luaK_code_nil hp))
  have hi' : (luaK_code .jmp [] (luaK_code (.close level) [] fs)).shape.getLast? = some i := hi
  rw [shape_luaK_code, List.getLast?_concat] at hi'
  cases hi'
  exact ⟨(fun hf => nomatch hf), fun _ ha => nomatch ha⟩

/-- What is left may have upvalues: the jump has an `OP_CLOSE` before it. -/
theorem Good.after_closeJump (h : Good fs) (left : List BlockCnt) (level : Nat) :
    Good (closeJump left level fs).1 := by
  rcases hup : left.any (·.upval) with _ | _
  · rw [closeJump_of_not hup]
    exact h.jump
  · rw [closeJump_of_upval hup]
    exact h.close_jump level

theorem actvar_closeJump (left : List BlockCnt) (level : Nat) (fs : FuncState) :
    (closeJump left level fs).1.actvar = fs.actvar := by
  unfold closeJump
  split <;> rfl

theorem bl_closeJump (left : List BlockCnt) (level : Nat) (fs : FuncState) :
    (closeJump left level fs).1.bl = fs.bl := by
  unfold closeJump
  split <;> rfl

/-- The jumps of a `break` or `continue` may go to the level of its loop: what they leave was
closed, or is captured by no instruction yet. -/
theorem Good.pend_closeJump (h : Good fs) (hbl : fs.bl = left ++ b :: outer)
    (hloop : b.isbreakable = true)
    (hs : fs'.shape = (closeJump left b.nactvar fs).1.shape)
    (hg : Grow (closeJump left b.nactvar fs).1 fs')
    (hmark : ∀ q ∈ (closeJump left b.nactvar fs).2, q ∈ fs'.breaks ∨ q ∈ fs'.continues) :
    ∀ q ∈ (closeJump left b.nactvar fs).2, Pend fs' q (fs.actvar.take b.nactvar) := by
  intro q hq
  have hm := hmark q hq
  rcases hup : left.any (·.upval) with _ | _
  · rw [closeJump_of_not hup] at hs hg hq
    obtain ⟨i, hi, hin, hout⟩ := (h.pend_jump q hq).grow hg
    refine ⟨i, hi, ?_, fun v hv hv' => ?_⟩
    · apply hin.imp_right
      intro ⟨hsub, hclosed⟩
      exact ⟨List.Subset.trans (List.take_subset _ _) hsub,
        fun v hv => hclosed v (List.mem_of_mem_take hv)⟩
    · by_cases hact : v ∈ fs.actvar
      · refine .inr (.inl ⟨hm, fun p hp => ?_⟩)
        have hp' : Captures (luaK_code .jmp [] { fs with jpc := [] }).shape p v := by
          rw [hs] at hp
          exact hp
        exact absurd (captures_luaK_code_nil hp') (not_captures_of_left h.toSound hbl hloop hup
          hact (not_mem_take h.toSound hact hv') p)
      · exact hout v hv hact
  · rw [closeJump_of_upval hup] at hs hg hq
    have hq' : q = (luaK_code (.close b.nactvar) [] fs).pc := List.mem_singleton.1 hq
    have hclose : fs'.shape[fs.pc]? = some ⟨.close b.nactvar, fs.actvar, [], none⟩ := by
      apply hg.get
      exact (Ext.jump _).get (luaK_code_getElem? (.close b.nactvar) [] fs)
    have hjmp : fs'.shape[q]? = some ⟨.jmp, fs.actvar, [], none⟩ := by
      rw [hq']
      exact hg.get (luaK_code_getElem? .jmp [] { luaK_code (.close b.nactvar) [] fs with jpc := [] })
    rw [pc_luaK_code] at hq'
    refine ⟨_, hjmp, .inr ⟨?_, ?_⟩, fun v hv hv' => .inl ?_⟩
    · rw [Ins.after_eq rfl]
      exact List.take_subset _ _
    · intro v hv ⟨p, i, j, a, hp, hi, ha, _, _, hle⟩
      obtain rfl : p = fs.pc := by omega
      rw [hclose] at hi
      cases hi
      cases ha
      have hlt := ((mem_take_iff h.toSound).1 hv).2
      omega
    · rw [Ins.held_eq rfl] at hv
      exact ⟨fs.pc, _, _, b.nactvar, hq', hclose, rfl, hjmp, rfl, not_mem_take h.toSound hv hv'⟩

/-- The lists of a block say nothing about who owns a register. -/
theorem owner_congr {b' : BlockCnt} (hn : b'.nactvar = b.nactvar) (hu : b'.upval = b.upval)
    (hl : b'.isbreakable = b.isbreakable) (left outer : List BlockCnt) (r : Nat) :
    owner (left ++ b' :: outer) r = owner (left ++ b :: outer) r := by
  induction left with
  | nil => simp only [List.nil_append, owner, hn, hu, hl]
  | cons c left ih => simp only [List.cons_append, owner, ih]

/-- Jumps that are added to the lists of a block on the way out. -/
theorem Good.extend_block (h : Good fs) (fs' : FuncState) (b' : BlockCnt)
    (hbl : fs.bl = left ++ b :: outer)
    (hn : b'.nactvar = b.nactvar) (hu : b'.upval = b.upval)
    (hl : b'.isbreakable = b.isbreakable) (hcode : fs'.code = fs.code)
    (hjpc : fs'.jpc = fs.jpc) (ha : fs'.actvar = fs.actvar) (hloc : fs'.nlocvars = fs.nlocvars)
    (hb : ∀ q ∈ fs.breaks, q ∈ fs'.breaks) (hc : ∀ q ∈ fs.continues, q ∈ fs'.continues)
    (hbl' : fs'.bl = left ++ b' :: outer) (hgood : BlockGood fs' b') :
    Good fs' ∧ fs'.bl.map BlockCnt.key = fs.bl.map BlockCnt.key := by
  have hs : fs'.shape = fs.shape := by rw [FuncState.shape, hcode]; rfl
  have hg : Grow fs fs' := (Ext.of_shape hs ha hloc hb hc).toGrow
  have hkeys : fs'.bl.map BlockCnt.key = fs.bl.map BlockCnt.key := by
    rw [hbl, hbl', List.map_append, List.map_append, List.map_cons, List.map_cons,
      BlockCnt.key, hn, hl]
    rfl
  refine ⟨h.of_blocks hcode hjpc ha hloc hb hc ?_ (sorted_of_keys hkeys h.sorted) ?_ ?_, hkeys⟩
  · intro c hc'
    by_cases heq : c = b'
    · rw [heq]
      exact hgood
    · have hmem : c ∈ fs.bl := by
        rw [hbl'] at hc'
        rw [hbl]
        simp only [List.mem_append, List.mem_cons] at hc' ⊢
        tauto
      apply (h.blocks c hmem).grow hg
      · rw [FuncState.nactvar, ha]
        exact (h.blocks c hmem).level
      · rw [ha]
  · intro v _ hm upval loop ho
    rw [hbl', owner_congr hn hu hl, ← hbl] at ho
    exact hm upval loop ho
  · intro v _ upval loop ho
    rw [hbl', owner_congr hn hu hl, ← hbl] at ho
    exact ⟨upval, ho⟩

/-- The search takes no block away. -/
theorem breakBlocks_append (n : Int) (bl : List BlockCnt) :
    (breakBlocks n bl).1 ++ (breakBlocks n bl).2 = bl := by
  induction bl generalizing n with
  | nil => rfl
  | cons b bl ih =>
    unfold breakBlocks
    split
    · simp [ih]
    · split
      · simp [ih]
      · rfl

/-- The walk out of the blocks ends at a loop. -/
theorem breakBlocks_loop (n : Int) (bl : List BlockCnt)
    (h : (breakBlocks n bl).2 = b :: outer) : b.isbreakable = true := by
  induction bl generalizing n with
  | nil => cases h
  | cons c bl ih =>
    unfold breakBlocks at h
    split at h
    · exact ih n h
    · next hc =>
      split at h
      · exact ih (n - 1) h
      · cases h
        simpa using hc

/-- The state after a jump out of blocks, with `b'` for the block of the target. -/
def escaped (left : List BlockCnt) (b' : BlockCnt) (outer : List BlockCnt)
    (breaks continues : List Nat) (fs : FuncState) : FuncState :=
  { fs with
    bl := left ++ b' :: outer
    breaks := fs.breaks ++ breaks
    continues := fs.continues ++ continues }

/-- A jump out of blocks, put on the lists of the target's block. -/
theorem Emits.escaped (h : Good fs) (b' : BlockCnt) (breaks continues : List Nat)
    (hbl : fs.bl = left ++ b :: outer)
    (hloop : b.isbreakable = true) (hn : b'.nactvar = b.nactvar) (hu : b'.upval = b.upval)
    (hl : b'.isbreakable = b.isbreakable)
    (hmark : ∀ q ∈ (closeJump left b.nactvar fs).2, q ∈ breaks ∨ q ∈ continues)
    (hbreak : ∀ q ∈ b'.breaklist, q ∈ b.breaklist ∨ q ∈ (closeJump left b.nactvar fs).2)
    (hcont : ∀ q ∈ b'.continuelist, q ∈ b.continuelist ∨
      q ∈ (closeJump left b.nactvar fs).2 ∧ q ∈ continues) :
    Emits fs (escaped left b' outer breaks continues (closeJump left b.nactvar fs).1) := by
  have hgood := h.after_closeJump left b.nactvar
  have hact := actvar_closeJump left b.nactvar fs
  have hbl1 := (bl_closeJump left b.nactvar fs).trans hbl
  have hext : Ext (closeJump left b.nactvar fs).1
      (Compiler.escaped left b' outer breaks continues (closeJump left b.nactvar fs).1) :=
    Ext.of_shape rfl rfl rfl (fun _ h => List.mem_append_left _ h)
      fun _ h => List.mem_append_left _ h
  have hmark' : ∀ q ∈ (closeJump left b.nactvar fs).2,
      q ∈ (closeJump left b.nactvar fs).1.breaks ++ breaks ∨
        q ∈ (closeJump left b.nactvar fs).1.continues ++ continues := fun q hq =>
    (hmark q hq).imp (List.mem_append_right _) (List.mem_append_right _)
  have hpend : ∀ q ∈ (closeJump left b.nactvar fs).2,
      Pend (Compiler.escaped left b' outer breaks continues (closeJump left b.nactvar fs).1) q
        ((closeJump left b.nactvar fs).1.actvar.take b.nactvar) := by
    rw [hact]
    exact h.pend_closeJump hbl hloop (by rfl) hext.toGrow hmark'
  have hb := hgood.blocks b (by rw [hbl1]; simp)
  have hold := hb.grow hext.toGrow hb.level rfl
  have hnew : BlockGood
      (Compiler.escaped left b' outer breaks continues (closeJump left b.nactvar fs).1) b' := by
    refine ⟨by rw [hn]; exact hold.level, fun q hq => ?_, fun q hq => ?_⟩
    · rw [hn]
      exact (hbreak q hq).elim (hold.breaks q) (hpend q)
    · rw [hn]
      rcases hcont q hq with hq | ⟨hq, hmem⟩
      · exact hold.continues q hq
      · exact ⟨List.mem_append_right _ hmem, hpend q hq⟩
  obtain ⟨hgood', hkeys⟩ := hgood.extend_block
    (Compiler.escaped left b' outer breaks continues (closeJump left b.nactvar fs).1) b' hbl1
    hn hu hl rfl rfl rfl rfl (fun _ h => List.mem_append_left _ h)
    (fun _ h => List.mem_append_left _ h) rfl hnew
  exact ⟨hgood', (Ext.closeJump left b.nactvar fs).trans hext, hact,
    hkeys.trans (by rw [bl_closeJump])⟩

end Escape

/-- A `break` leaves the blocks as they are, but for one list. -/
theorem Emits.breakstat (h : Good fs) {n : Int} (hr : breakstat n fs = .ok fs') :
    Emits fs fs' := by
  unfold Compiler.breakstat at hr
  have happ := breakBlocks_append n fs.bl
  have hloop : ∀ b outer, (breakBlocks n fs.bl).2 = b :: outer → b.isbreakable = true :=
    fun _ _ => breakBlocks_loop n fs.bl
  rcases hb : breakBlocks n fs.bl with ⟨left, _ | ⟨b, outer⟩⟩
  · rw [hb] at hr
    cases hr
  · rw [hb] at hr happ hloop
    cases hr
    have hesc := Emits.escaped h
      { b with breaklist := b.breaklist ++ (closeJump left b.nactvar fs).2 }
      (closeJump left b.nactvar fs).2 [] happ.symm (hloop b outer rfl) rfl rfl rfl
      (fun _ hq => .inl hq) (fun _ hq => List.mem_append.1 hq) fun _ hq => .inl hq
    rw [Compiler.escaped, List.append_nil] at hesc
    exact hesc

/-- So does a `continue`. -/
theorem Emits.continuestat (h : Good fs) (hr : continuestat fs = .ok fs') : Emits fs fs' := by
  unfold Compiler.continuestat at hr
  have happ := List.takeWhile_append_dropWhile (p := fun bl : BlockCnt => !bl.isbreakable) (l := fs.bl)
  have hloop := List.head?_dropWhile_not (fun bl : BlockCnt => !bl.isbreakable) fs.bl
  rw [List.span_eq_takeWhile_dropWhile] at hr
  rcases hd : fs.bl.dropWhile fun bl => !bl.isbreakable with _ | ⟨b, outer⟩
  · rw [hd] at hr
    cases hr
  · rw [hd] at hr happ hloop
    cases hr
    have hb : b.isbreakable = true := by simpa using hloop
    generalize (fs.bl.takeWhile fun bl => !bl.isbreakable) = left at happ
    have hesc := Emits.escaped h
      { b with continuelist := b.continuelist ++ (closeJump left b.nactvar fs).2 }
      [] (closeJump left b.nactvar fs).2 happ.symm hb rfl rfl rfl (fun _ hq => .inr hq)
      (fun _ hq => .inl hq) fun _ hq => (List.mem_append.1 hq).imp_right fun hq => ⟨hq, hq⟩
    rw [Compiler.escaped, List.append_nil] at hesc
    exact hesc

end LuaFltk.Compiler
