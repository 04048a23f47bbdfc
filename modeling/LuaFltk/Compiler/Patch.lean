import LuaFltk.Compiler.Scope

/-!
# Emitting and patching keep the scopes

`luaK_code`, `luaK_jump`, `luaK_patchtohere` and `luaK_patchlist` keep `Good`. `Ext` says, in
addition to `Grow`, what a label at the old position leads to.
-/

namespace LuaFltk.Compiler

variable {fs fs' fs'' : FuncState}

/-! ## Labels -/

/-- `fs'` continues `fs`, and the position of `fs` is reached with its active locals: those
that end before its instruction are free, or closed by it. -/
structure Ext (fs fs' : FuncState) : Prop extends Grow fs fs' where
  first : ∀ t, fs'.shape[fs.pc]? = some t → Enters fs' fs.actvar fs.actvar t
  same : fs'.pc = fs.pc → Drops fs' fs.actvar fs.actvar fs'.actvar

theorem no_shape_at_pc (fs : FuncState) : fs.shape[fs.pc]? = none := by
  rw [List.getElem?_eq_none_iff, FuncState.shape_length]

/-- A change that leaves the code and its scopes alone. -/
theorem Ext.of_shape (hs : fs'.shape = fs.shape) (ha : fs'.actvar = fs.actvar)
    (hn : fs'.nlocvars = fs.nlocvars) (hb : ∀ q ∈ fs.breaks, q ∈ fs'.breaks)
    (hc : ∀ q ∈ fs.continues, q ∈ fs'.continues) : Ext fs fs' where
  shape := by rw [hs]
  breaks := hb
  continues := hc
  free v hv := by
    unfold Free at *
    rwa [hs, ha, hn]
  first t ht := by
    rw [hs, no_shape_at_pc] at ht
    cases ht
  same _ := by
    rw [ha]
    exact Drops.refl _ _

theorem Ext.refl (fs : FuncState) : Ext fs fs :=
  Ext.of_shape rfl rfl rfl (fun _ h => h) fun _ h => h

theorem Ext.trans (h : Ext fs fs') (h' : Ext fs' fs'') : Ext fs fs'' where
  toGrow := h.toGrow.trans h'.toGrow
  first t ht := by
    by_cases hpc : fs'.pc = fs.pc
    · rw [← hpc] at ht
      exact ((h.same hpc).grow h'.toGrow).enters (h'.first t ht)
    · have hlt : fs.pc < fs'.pc := Nat.lt_of_le_of_ne h.pc_le (Ne.symm hpc)
      rw [h'.get_of_lt hlt] at ht
      exact (h.first t ht).grow h'.toGrow
  same hpc := by
    have h1 := h.pc_le
    have h2 := h'.pc_le
    exact ((h.same (by omega)).grow h'.toGrow).trans (h'.same (by omega))

/-- Once an instruction stands at the position of `fs`, what follows does not matter. -/
theorem Ext.then_grow (h : Ext fs fs') (hlt : fs.pc < fs'.pc) (h' : Grow fs' fs'') :
    Ext fs fs'' where
  toGrow := h.toGrow.trans h'
  first t ht := by
    rw [h'.get_of_lt hlt] at ht
    exact (h.first t ht).grow h'
  same hpc := by
    have h2 := h'.pc_le
    omega

/-- At the end of the code a jump stands behind an `OP_CLOSE` only if that is the last
instruction. -/
theorem Grow.not_closedBefore (h : Grow fs fs') {V : List Var}
    (hlast : ∀ i, fs.shape.getLast? = some i → ∀ a, i.op = .close a → ∀ v ∈ V, v.reg < a) :
    ∀ v ∈ V, ¬ ClosedBefore fs'.shape fs.pc v := by
  intro v hv ⟨p, i, j, a, hp, hi, ha, _, _, hle⟩
  have hl : fs.shape.getLast? = some i := by
    rw [List.getLast?_eq_getElem?, FuncState.shape_length, ← hi, h.get_of_lt (by omega), hp]
    rfl
  have hlt := hlast i hl a ha v hv
  omega

/-- No jump to a label lands between an `OP_CLOSE` and the jump that belongs to it. -/
theorem Good.lands (hg : Good fs) (h : Ext fs fs') {t : Ins}
    (ht : fs'.shape[fs.pc]? = some t) :
    ∀ v ∈ t.scope, ¬ ClosedBefore fs'.shape fs.pc v := fun v hv =>
  h.not_closedBefore (fun i hi => (hg.last i hi).closes) v ((h.first t ht).1 hv)

/-! ## Emitting -/

/-- The locals an instruction may capture: active ones whose block is marked, or the one
that it declares. -/
def CapsOk (fs : FuncState) (op : Op) (caps : List Var) : Prop :=
  ∀ v ∈ caps, v.name.isSome ∧
    (v ∈ fs.actvar ∧ Marked fs.bl v.reg ∨ v ∈ op.held ∧ fs.nlocvars ≤ v.id)

theorem capsOk_nil (fs : FuncState) (op : Op) : CapsOk fs op [] := fun _ hv => nomatch hv

/-- A variable is captured by the new instruction or by one before. -/
theorem captures_append {code : List Ins} {i : Ins} {p : Nat} {v : Var}
    (h : Captures (code ++ [i]) p v) : Captures code p v ∨ p = code.length ∧ v ∈ i.caps := by
  obtain ⟨j, hj, hv⟩ := h
  rcases Nat.lt_trichotomy p code.length with hlt | heq | hgt
  · rw [List.getElem?_append_left hlt] at hj
    exact .inl ⟨j, hj, hv⟩
  · subst heq
    rw [List.getElem?_concat_length] at hj
    cases hj
    exact .inr ⟨rfl, hv⟩
  · rw [List.getElem?_eq_none (by simp; omega)] at hj
    cases hj

/-- An instruction without an expression captures nothing. -/
theorem captures_luaK_code_nil {op : Op} {p : Nat} {v : Var}
    (h : Captures (luaK_code op [] fs).shape p v) : Captures fs.shape p v := by
  rw [shape_luaK_code] at h
  rcases captures_append h with hold | ⟨-, hnew⟩
  · exact hold
  · cases hnew

/-- An instruction is added behind the others. -/
theorem Grow.emit {op : Op} {caps : List Var} (hcaps : CapsOk fs op caps) :
    Grow fs (luaK_code op caps fs) where
  shape := by
    rw [shape_luaK_code]
    exact List.prefix_append _ _
  breaks _ h := h
  continues _ h := h
  free v hv := by
    refine ⟨hv.1, hv.2.1, fun p hp => ?_⟩
    rw [shape_luaK_code] at hp
    rcases captures_append hp with hold | ⟨-, hnew⟩
    · exact hv.2.2 p hold
    · rcases (hcaps v hnew).2 with ⟨hact, -⟩ | ⟨-, hid⟩
      · exact hv.2.1 hact
      · exact absurd hv.1 (by omega)

theorem Ext.emit {op : Op} {caps : List Var} (hcaps : CapsOk fs op caps) :
    Ext fs (luaK_code op caps fs) where
  toGrow := Grow.emit hcaps
  first t ht := by
    rw [shape_luaK_code, ← FuncState.shape_length, List.getElem?_concat_length] at ht
    cases ht
    exact (Drops.refl _ _).to_enters
  same hpc := by simp at hpc

/-- An instruction that may be emitted: control may go to it from the last instruction and
from the jumps that wait. -/
structure Fits (fs : FuncState) (t : Ins) : Prop where
  last : ∀ i, fs.shape.getLast? = some i → Follows fs i t
  pending : ∀ q ∈ fs.jpc, ∃ V, Pend fs q V ∧ Enters fs V V t
  lands : fs.jpc ≠ [] → ∀ i, fs.shape.getLast? = some i → ∀ a, i.op = .close a → ∀ v ∈ t.scope, v.reg < a
  above : ∀ w ∈ t.op.vars, fs.nactvar ≤ w.reg

/-- An active local is in one of the registers in use. -/
theorem reg_lt (h : Sound fs) {v : Var} (hv : v ∈ fs.actvar) : v.reg < fs.nactvar := by
  obtain ⟨r, hr⟩ := List.getElem?_of_mem hv
  rw [h.regs r v hr]
  exact (List.getElem?_eq_some_iff.1 hr).1

theorem luaK_code_getElem? (op : Op) (caps : List Var) (fs : FuncState) :
    (luaK_code op caps fs).shape[fs.pc]? = some ⟨op, fs.actvar, caps, none⟩ := by
  rw [shape_luaK_code, ← FuncState.shape_length, List.getElem?_concat_length]

/-- The edges after an instruction was emitted: those before, and those of the jumps that
waited for it. -/
theorem Sound.jumps_emit {op : Op} {caps : List Var} (h : Sound fs) (hcaps : CapsOk fs op caps)
    (hfit : Fits fs ⟨op, fs.actvar, caps, none⟩) (q : Nat) (i : Ins) (d : Nat)
    (hi : (luaK_code op caps fs).code[q]? = some i) (hd : i.dest = some d) :
    ∃ t, (luaK_code op caps fs).shape[d]? = some t ∧
      Edge (luaK_code op caps fs) q d i.shape t := by
  have hgrow : Grow fs (luaK_code op caps fs) := Grow.emit hcaps
  have hcode : (luaK_code op caps fs).code =
      patchlistaux fs.code fs.jpc fs.pc ++ [⟨op, fs.actvar, caps, none⟩] := rfl
  have hlen : (patchlistaux fs.code fs.jpc fs.pc).length = fs.pc := by
    have := congrArg List.length (map_shape_patchlistaux fs.code fs.jpc fs.pc)
    simpa [FuncState.pc] using this
  rw [hcode] at hi
  rcases Nat.lt_or_ge q fs.pc with hq | hq
  · rw [List.getElem?_append_left (by omega), getElem?_patchlistaux] at hi
    split at hi
    · -- a jump that waited for this position
      next hmem =>
      obtain ⟨j, hj, rfl⟩ := Option.map_eq_some_iff.1 hi
      cases hd
      refine ⟨_, luaK_code_getElem? op caps fs, ?_⟩
      have hlands : ∀ v ∈ fs.actvar, ¬ ClosedBefore (luaK_code op caps fs).shape fs.pc v :=
        hgrow.not_closedBefore (hfit.lands (List.ne_nil_of_mem hmem))
      obtain ⟨V, hp, ht⟩ := hfit.pending q hmem
      obtain ⟨k, hk, hedge⟩ := (hp.grow hgrow).edge (ht.grow hgrow) hlands
      have hshape : fs.shape[q]? = some j.shape := by
        rw [FuncState.shape, List.getElem?_map, hj]
        rfl
      rw [hgrow.get hshape] at hk
      cases hk
      exact hedge
    · -- an older jump
      obtain ⟨t, ht, hedge⟩ := h.jumps q i d hi hd
      exact ⟨t, hgrow.get ht, hedge.grow hgrow hq (lt_pc ht)⟩
  · rw [List.getElem?_append_right (by omega), List.getElem?_singleton] at hi
    split at hi
    · cases hi
      cases hd
    · cases hi

/-- An instruction that fits keeps the code sound. -/
theorem Sound.emit {op : Op} {caps : List Var} (h : Sound fs) (hcaps : CapsOk fs op caps)
    (hfit : Fits fs ⟨op, fs.actvar, caps, none⟩) : Sound (luaK_code op caps fs) := by
  have hgrow : Grow fs (luaK_code op caps fs) := Grow.emit hcaps
  have hnew := luaK_code_getElem? op caps fs
  constructor
  case regs => exact h.regs
  case ids => exact h.ids
  case caps =>
    intro q i hi v hv
    rcases Nat.lt_or_ge q fs.pc with hq | hq
    · rw [hgrow.get_of_lt hq] at hi
      exact h.caps q i hi v hv
    · have hq' := lt_pc hi
      rw [pc_luaK_code] at hq'
      obtain rfl : q = fs.pc := by omega
      rw [hnew] at hi
      cases hi
      refine ⟨?_, (hcaps v hv).1⟩
      rcases (hcaps v hv).2 with ⟨hact, -⟩ | ⟨hvars, -⟩
      · exact List.mem_append_left _ hact
      · exact List.mem_append_right _ hvars
  case above =>
    intro q i hi w hw v hv
    rcases Nat.lt_or_ge q fs.pc with hq | hq
    · rw [hgrow.get_of_lt hq] at hi
      exact h.above q i hi w hw v hv
    · have hq' := lt_pc hi
      rw [pc_luaK_code] at hq'
      obtain rfl : q = fs.pc := by omega
      rw [hnew] at hi
      cases hi
      exact Nat.lt_of_lt_of_le (reg_lt h hv) (hfit.above w hw)
  case flow =>
    intro q i t hi ht
    rcases Nat.lt_or_ge (q + 1) fs.pc with hq | hq
    · rw [hgrow.get_of_lt (by omega)] at hi
      rw [hgrow.get_of_lt hq] at ht
      exact (h.flow q i t hi ht).grow hgrow
    · have hq' := lt_pc ht
      rw [pc_luaK_code] at hq'
      have hpc : q + 1 = fs.pc := by omega
      rw [hpc, hnew] at ht
      cases ht
      rw [hgrow.get_of_lt (by omega)] at hi
      refine (hfit.last i ?_).grow hgrow
      rw [List.getLast?_eq_getElem?, FuncState.shape_length, ← hi, ← hpc]
      rfl
  case jumps => exact h.jumps_emit hcaps hfit
  case blocks => exact fun bl hbl => (h.blocks bl hbl).grow hgrow (h.blocks bl hbl).level rfl
  case sorted => exact h.sorted
  case marked =>
    intro p v hp hact
    rw [shape_luaK_code] at hp
    rcases captures_append hp with hold | ⟨-, hv⟩
    · exact h.marked p v hold hact
    · rcases (hcaps v hv).2 with ⟨-, hm⟩ | ⟨-, hid⟩
      · exact hm
      · exact absurd (h.ids v hact) (by omega)
  case owned => exact h.owned

/-- Any instruction with the active locals as its scope fits. -/
theorem Good.fits (h : Good fs) (op : Op) (caps : List Var)
    (habove : ∀ w ∈ op.vars, fs.nactvar ≤ w.reg) : Fits fs ⟨op, fs.actvar, caps, none⟩ where
  last i hi := ⟨fun hf => ((h.last i hi).drops hf).to_enters, fun a ha => .inr ((h.last i hi).closes a ha)⟩
  pending q hq := ⟨fs.actvar, h.pending q hq, (Drops.refl _ _).to_enters⟩
  lands _ i hi := (h.last i hi).closes
  above := habove

/-- Emitting an instruction that is no declaration and closes nothing active. -/
theorem Good.emit {op : Op} {caps : List Var} (h : Good fs) (hcaps : CapsOk fs op caps)
    (hheld : op.held = []) (habove : ∀ w ∈ op.vars, fs.nactvar ≤ w.reg)
    (hclose : ∀ a, op = .close a → ∀ v ∈ fs.actvar, v.reg < a) :
    Good (luaK_code op caps fs) where
  toSound := h.toSound.emit hcaps (h.fits op caps habove)
  pending _ hq := nomatch hq
  fresh p v hp := by
    rw [shape_luaK_code] at hp
    rcases captures_append hp with hold | ⟨-, hnew⟩
    · exact h.fresh p v hold
    · rcases (hcaps v hnew).2 with ⟨hact, -⟩ | ⟨hv, -⟩
      · exact h.ids v hact
      · rw [hheld] at hv
        cases hv
  last i hi := by
    rw [shape_luaK_code, List.getLast?_concat] at hi
    cases hi
    refine ⟨fun _ => ⟨List.subset_append_left _ _, fun v hv hact => ?_⟩, hclose⟩
    rw [Ins.held_eq hheld] at hv
    exact absurd hv hact

/-- The jump of an instruction just emitted may go wherever the active locals are in scope. -/
theorem Good.pend_emit {op : Op} {caps : List Var} (h : Good fs) (hcaps : CapsOk fs op caps)
    (hheld : op.held = []) : Pend (luaK_code op caps fs) fs.pc fs.actvar := by
  have hext : Ext fs (luaK_code op caps fs) := Ext.emit hcaps
  have hnew := luaK_code_getElem? op caps fs
  refine ⟨_, hnew, .inr ⟨List.subset_append_left _ _, ?_⟩, fun v hv hact => ?_⟩
  · exact fun v hv => h.lands hext hnew v hv
  · rw [Ins.held_eq hheld] at hv
    exact absurd hv hact

/-! ## Holding and patching jumps -/

/-- Whether a scope may end here is a matter of the instructions' shapes. -/
theorem Ends.of_shape {i : Ins} (h : Ends fs i) (hg : Grow fs fs') (ha : fs'.actvar = fs.actvar) :
    Ends fs' i where
  drops hi := by
    rw [ha]
    exact (h.drops hi).grow hg
  closes := by
    rw [ha]
    exact h.closes

/-- A change of the lists only: the waiting jumps may be others, and those in `moved` get a
target. -/
theorem Good.of_lists (h : Good fs) (hs : fs'.shape = fs.shape) (ha : fs'.actvar = fs.actvar)
    (hn : fs'.nlocvars = fs.nlocvars) (hbl : fs'.bl = fs.bl) (hb : fs'.breaks = fs.breaks)
    (hc : fs'.continues = fs.continues) (hpend : ∀ q ∈ fs'.jpc, Pend fs q fs.actvar)
    (hjumps : ∀ (q : Nat) (i : Ins) (d : Nat), fs'.code[q]? = some i → i.dest = some d →
      fs.code[q]? = some i ∨ ∃ t, fs.shape[d]? = some t ∧ Edge fs q d i.shape t) :
    Good fs' := by
  have hg : Grow fs fs' :=
    (Ext.of_shape hs ha hn (by rw [hb]; exact fun _ h => h) (by rw [hc]; exact fun _ h => h)).toGrow
  constructor
  case toSound =>
    constructor
    case regs => rw [ha]; exact h.regs
    case ids => rw [ha, hn]; exact h.ids
    case caps => rw [hs]; exact h.caps
    case above => rw [hs]; exact h.above
    case flow =>
      rw [hs]
      exact fun q i t hi ht => (h.flow q i t hi ht).grow hg
    case jumps =>
      intro q i d hi hd
      have hq : q < fs.pc := by
        rw [← FuncState.shape_length, ← hs, FuncState.shape_length]
        exact (List.getElem?_eq_some_iff.1 hi).1
      rcases hjumps q i d hi hd with hold | ⟨t, ht, hedge⟩
      · obtain ⟨t, ht, hedge⟩ := h.jumps q i d hold hd
        exact ⟨t, hg.get ht, hedge.grow hg hq (lt_pc ht)⟩
      · exact ⟨t, hg.get ht, hedge.grow hg hq (lt_pc ht)⟩
    case blocks =>
      rw [hbl]
      intro bl hbl'
      apply (h.blocks bl hbl').grow hg
      · rw [FuncState.nactvar, ha]
        exact (h.blocks bl hbl').level
      · rw [ha]
    case sorted => rw [hbl]; exact h.sorted
    case marked => rw [hs, ha, hbl]; exact h.marked
    case owned => rw [ha, hbl]; exact h.owned
  case pending =>
    rw [ha]
    exact fun q hq => (hpend q hq).grow hg
  case fresh => rw [hs, hn]; exact h.fresh
  case last =>
    rw [hs]
    exact fun i hi => (h.last i hi).of_shape hg ha

/-- The jumps on hold may be taken into another list. -/
theorem Good.hold (h : Good fs) : Good { fs with jpc := [] } :=
  h.of_lists rfl rfl rfl rfl rfl rfl (fun _ hq => nomatch hq) fun _ _ _ hi _ => .inl hi

/-- `luaK_patchtohere`, for jumps that may go to the active locals. -/
theorem Good.patchtohere {list : List Nat} (h : Good fs)
    (hlist : ∀ q ∈ list, Pend fs q fs.actvar) : Good (luaK_patchtohere list fs) := by
  refine h.of_lists rfl rfl rfl rfl rfl rfl (fun q hq => ?_) fun _ _ _ hi _ => .inl hi
  rcases List.mem_append.1 hq with hq | hq
  · exact h.pending q hq
  · exact hlist q hq

theorem Ext.patchtohere (list : List Nat) (fs : FuncState) :
    Ext fs (luaK_patchtohere list fs) :=
  Ext.of_shape rfl rfl rfl (fun _ h => h) fun _ h => h

/-- `luaK_jump` keeps the code good, and all jumps of its list may go wherever the active
locals are in scope. -/
theorem Good.jump (h : Good fs) : Good (luaK_jump fs).1 :=
  h.hold.emit (capsOk_nil _ _) rfl (List.forall_mem_nil _) fun _ ha => nomatch ha

theorem Ext.jump (fs : FuncState) : Ext fs (luaK_jump fs).1 := by
  have hold : Ext fs { fs with jpc := [] } :=
    Ext.of_shape rfl rfl rfl (fun _ h => h) fun _ h => h
  have hemit : Ext { fs with jpc := [] } (luaK_code .jmp [] { fs with jpc := [] }) :=
    Ext.emit (capsOk_nil _ _)
  exact hold.trans hemit

/-- All that was on hold, and the new jump, may end where the scope is the same. -/
theorem Good.pend_jump (h : Good fs) :
    ∀ q ∈ (luaK_jump fs).2, Pend (luaK_jump fs).1 q fs.actvar := by
  intro q hq
  rcases List.mem_cons.1 hq with rfl | hq
  · exact h.hold.pend_emit (capsOk_nil _ _) rfl
  · exact (h.pending q hq).grow (Ext.jump fs).toGrow

@[simp] theorem pc_luaK_jump (fs : FuncState) : (luaK_jump fs).1.pc = fs.pc + 1 :=
  pc_luaK_code _ _ _

/-- Patching sets destinations and nothing else. -/
theorem shape_patchlist (list : List Nat) (target : Nat) (fs : FuncState) :
    (luaK_patchlist list target fs).shape = fs.shape := by
  unfold luaK_patchlist
  split
  · rfl
  · exact map_shape_patchlistaux _ _ _

theorem Ext.patchlist (list : List Nat) (target : Nat) (fs : FuncState) :
    Ext fs (luaK_patchlist list target fs) := by
  have hs := shape_patchlist list target fs
  unfold luaK_patchlist at *
  split
  · exact Ext.patchtohere _ _
  · next hne =>
    rw [if_neg hne] at hs
    exact Ext.of_shape hs rfl rfl (fun _ h => h) fun _ h => h

/-- `luaK_patchlist` back to the label of `fs`: the jumps may go to the locals active there. -/
theorem Good.patchlist {list : List Nat} (hlabel : Good fs) (h : Good fs') (hext : Ext fs fs')
    (hlist : ∀ q ∈ list, Pend fs' q fs.actvar) :
    Good (luaK_patchlist list (luaK_getlabel fs) fs') := by
  unfold luaK_patchlist luaK_getlabel
  split
  · next hpc => exact h.patchtohere fun q hq => (hlist q hq).drops (hext.same hpc.symm)
  · next hpc =>
    have hs := map_shape_patchlistaux fs'.code list fs.pc
    refine h.of_lists hs rfl rfl rfl rfl rfl h.pending fun q i d hi hd => ?_
    dsimp only at hi
    rw [getElem?_patchlistaux] at hi
    split at hi
    · next hmem =>
      obtain ⟨j, hj, rfl⟩ := Option.map_eq_some_iff.1 hi
      cases hd
      have htlt : fs.pc < fs'.shape.length := by
        rw [FuncState.shape_length]
        exact Nat.lt_of_le_of_ne hext.pc_le hpc
      have ht : fs'.shape[fs.pc]? = some fs'.shape[fs.pc] := List.getElem?_eq_getElem htlt
      obtain ⟨k, hk, hedge⟩ :=
        (hlist q hmem).edge (hext.first _ ht) (hlabel.lands hext ht)
      rw [FuncState.shape, List.getElem?_map, hj] at hk
      cases hk
      exact .inr ⟨_, ht, hedge⟩
    · exact .inl hi

end LuaFltk.Compiler
