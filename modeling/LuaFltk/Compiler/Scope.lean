import LuaFltk.Compiler.Code

/-!
# Scopes along the code

What the code of one function keeps true while it grows, so that a jump can be patched
before its target is known. The places where control goes from an instruction are described
by the locals in scope at both ends: which may be new at the target, and which of those that
are left may still be captured. `Good` collects this for the code so far, the lists of jumps
that wait, and the active blocks. Each function of the code generator keeps it.
-/

namespace LuaFltk.Compiler

/-! ## The code without its jump targets -/

/-- All of an instruction but the target of its jump, which is what patching leaves. -/
def Ins.shape (i : Ins) : Ins := { i with dest := none }

@[simp] theorem Ins.shape_op (i : Ins) : i.shape.op = i.op := rfl
@[simp] theorem Ins.shape_scope (i : Ins) : i.shape.scope = i.scope := rfl
@[simp] theorem Ins.shape_caps (i : Ins) : i.shape.caps = i.caps := rfl

def FuncState.shape (fs : FuncState) : List Ins := fs.code.map Ins.shape

/-- Every instruction has a shape. -/
theorem FuncState.shape_length (fs : FuncState) : fs.shape.length = fs.pc := by
  simp [shape, pc]

theorem getElem?_fixjump (code : List Ins) (p dest q : Nat) :
    (fixjump code p dest)[q]? =
      if q = p then code[q]?.map fun i => { i with dest := some dest } else code[q]? := by
  rw [fixjump, List.getElem?_modify]
  by_cases h : p = q
  · simp [h]
  · simp [h, Ne.symm h]

/-- Patching a list sets the targets of its jumps and nothing else. -/
theorem getElem?_patchlistaux (list : List Nat) (target q : Nat) (code : List Ins) :
    (patchlistaux code list target)[q]? =
      if q ∈ list then code[q]?.map fun i => { i with dest := some target } else code[q]? := by
  induction list generalizing code with
  | nil => simp [patchlistaux]
  | cons p list ih =>
    have hstep : patchlistaux code (p :: list) target =
        patchlistaux (fixjump code p target) list target := rfl
    rw [hstep, ih, getElem?_fixjump]
    by_cases hp : q = p
    · subst hp
      cases code[q]? <;> simp
    · simp [hp]

/-- Patching sets destinations and nothing else. -/
theorem map_shape_patchlistaux (code : List Ins) (list : List Nat) (target : Nat) :
    (patchlistaux code list target).map Ins.shape = code.map Ins.shape := by
  apply List.ext_getElem?
  intro q
  rw [List.getElem?_map, List.getElem?_map, getElem?_patchlistaux]
  split
  · cases code[q]? <;> rfl
  · rfl

/-- Emitting adds one instruction to the shape, with the active locals as its scope. -/
@[simp] theorem shape_luaK_code (op : Op) (caps : List Var) (fs : FuncState) :
    (luaK_code op caps fs).shape = fs.shape ++ [⟨op, fs.actvar, caps, none⟩] := by
  show List.map Ins.shape (patchlistaux fs.code fs.jpc fs.pc ++ _) = _
  rw [List.map_append, map_shape_patchlistaux]
  rfl

@[simp] theorem actvar_luaK_code (op : Op) (caps : List Var) (fs : FuncState) :
    (luaK_code op caps fs).actvar = fs.actvar := rfl
@[simp] theorem nlocvars_luaK_code (op : Op) (caps : List Var) (fs : FuncState) :
    (luaK_code op caps fs).nlocvars = fs.nlocvars := rfl
@[simp] theorem bl_luaK_code (op : Op) (caps : List Var) (fs : FuncState) :
    (luaK_code op caps fs).bl = fs.bl := rfl
@[simp] theorem jpc_luaK_code (op : Op) (caps : List Var) (fs : FuncState) :
    (luaK_code op caps fs).jpc = [] := rfl
@[simp] theorem breaks_luaK_code (op : Op) (caps : List Var) (fs : FuncState) :
    (luaK_code op caps fs).breaks = fs.breaks := rfl
@[simp] theorem continues_luaK_code (op : Op) (caps : List Var) (fs : FuncState) :
    (luaK_code op caps fs).continues = fs.continues := rfl

@[simp] theorem pc_luaK_code (op : Op) (caps : List Var) (fs : FuncState) :
    (luaK_code op caps fs).pc = fs.pc + 1 := by
  rw [← FuncState.shape_length, shape_luaK_code, List.length_append, FuncState.shape_length]
  rfl

/-! ## Where control goes -/

/-- Control can go on to the next instruction. -/
def Op.falls : Op → Bool
  | .jmp | .ret => false
  | _ => true

/-- The locals an instruction gives a first value. -/
def Op.vars : Op → List Var
  | .decl vars | .forloop vars => vars
  | _ => []

/-- The locals that are in scope behind an instruction wherever control goes from it. The
variables of a `for` are not: they end where the loop is left. -/
def Op.held : Op → List Var
  | .decl vars => vars
  | _ => []

/-- The locals in scope at an instruction and those it declares. -/
def Ins.after (i : Ins) : List Var := i.scope ++ i.op.vars

/-- The locals that may be captured behind an instruction. -/
def Ins.held (i : Ins) : List Var := i.scope ++ i.op.held

theorem Ins.after_eq {i : Ins} (h : i.op.vars = []) : i.after = i.scope := by
  rw [after, h, List.append_nil]

theorem Ins.held_eq {i : Ins} (h : i.op.held = []) : i.held = i.scope := by
  rw [held, h, List.append_nil]

@[simp] theorem Ins.shape_after (i : Ins) : i.shape.after = i.after := rfl
@[simp] theorem Ins.shape_held (i : Ins) : i.shape.held = i.held := rfl

/-- The jump at `q` stands behind an `OP_CLOSE` that covers `v`. -/
def ClosedBefore (code : List Ins) (q : Nat) (v : Var) : Prop :=
  ∃ p i j a, q = p + 1 ∧ code[p]? = some i ∧ i.op = .close a ∧ code[q]? = some j ∧
    j.op = .jmp ∧ a ≤ v.reg

/-- The instruction at `p` captures `v`. -/
def Captures (code : List Ins) (p : Nat) (v : Var) : Prop :=
  ∃ i, code[p]? = some i ∧ v ∈ i.caps

/-- The instruction closes `v`: an `OP_CLOSE` that covers it, or an `OP_RETURN`, which closes
all. -/
def Ins.Covers (t : Ins) (v : Var) : Prop := t.op = .ret ∨ ∃ a, t.op = .close a ∧ a ≤ v.reg

/-- A local whose scope has ended and that no instruction captures. -/
def Free (fs : FuncState) (v : Var) : Prop :=
  v.id < fs.nlocvars ∧ v ∉ fs.actvar ∧ ∀ p, ¬ Captures fs.shape p v

/-- In the scope `W` there are only locals of `U`, and those of `V` that are not there are
free. -/
def Drops (fs : FuncState) (U V W : List Var) : Prop :=
  W ⊆ U ∧ ∀ v ∈ V, v ∉ W → Free fs v

/-- As `Drops`, for the scope of the instruction `t`, which may be an `OP_CLOSE` for the
locals that are left. -/
def Enters (fs : FuncState) (U V : List Var) (t : Ins) : Prop :=
  t.scope ⊆ U ∧ ∀ v ∈ V, v ∉ t.scope → t.Covers v ∨ Free fs v

/-- Why a jump at `q` may leave the scope of `v` without harm: `v` was closed just before it;
or, at a jump of a `break` or `continue`, only instructions behind it capture `v`; or `v` is
free. -/
def Left (fs : FuncState) (q : Nat) (v : Var) : Prop :=
  ClosedBefore fs.shape q v ∨
    (q ∈ fs.breaks ∨ q ∈ fs.continues) ∧ (∀ p, Captures fs.shape p v → q < p) ∨ Free fs v

/-- The jump at `q` may go to a place with the scope `W`: unless it is a `continue`, no local
is new there or has been closed, and those that are left are left without harm. -/
def Pend (fs : FuncState) (q : Nat) (W : List Var) : Prop :=
  ∃ i, fs.shape[q]? = some i ∧
    (q ∈ fs.continues ∨ W ⊆ i.after ∧ ∀ v ∈ W, ¬ ClosedBefore fs.shape q v) ∧
    ∀ v ∈ i.held, v ∉ W → Left fs q v

/-- A jump from `q` to the instruction `t` at `d`. -/
structure Edge (fs : FuncState) (q d : Nat) (i t : Ins) : Prop where
  enters : q ∈ fs.continues ∨ t.scope ⊆ i.after ∧ ∀ v ∈ t.scope, ¬ ClosedBefore fs.shape q v
  leaves : ∀ v ∈ i.held, v ∉ t.scope → t.Covers v ∨ Left fs q v
  lands : ∀ v ∈ t.scope, ¬ ClosedBefore fs.shape d v

/-- The instruction `t` may stand behind `i`. -/
structure Follows (fs : FuncState) (i t : Ins) : Prop where
  enters : i.op.falls → Enters fs i.after i.held t
  closes : ∀ a, i.op = .close a → t.op = .jmp ∨ ∀ v ∈ t.scope, v.reg < a

/-- The last instruction `i` and the active locals behind it. -/
structure Ends (fs : FuncState) (i : Ins) : Prop where
  drops : i.op.falls → Drops fs i.after i.held fs.actvar
  closes : ∀ a, i.op = .close a → ∀ v ∈ fs.actvar, v.reg < a

/-- The innermost active block that a local with register `r` belongs to: whether it has an
upvalue, and whether it is a loop. -/
def owner : List BlockCnt → Nat → Option (Bool × Bool)
  | [], _ => none
  | bl :: previous, r =>
    if bl.nactvar ≤ r then some (bl.upval, bl.isbreakable) else owner previous r

/-- The block of a local with register `r` is marked. The body of a function is never marked:
its `OP_RETURN` closes all. -/
def Marked (bl : List BlockCnt) (r : Nat) : Prop := ∀ upval loop, owner bl r = some (upval, loop) → upval = true

/-- The jumps in the lists of a block. -/
structure BlockGood (fs : FuncState) (bl : BlockCnt) : Prop where
  level : bl.nactvar ≤ fs.nactvar
  breaks : ∀ q ∈ bl.breaklist, Pend fs q (fs.actvar.take bl.nactvar)
  continues : ∀ q ∈ bl.continuelist, q ∈ fs.continues ∧ Pend fs q (fs.actvar.take bl.nactvar)

/-- The active locals, the code and the blocks. -/
structure Sound (fs : FuncState) : Prop where
  regs : ∀ (r : Nat) (v : Var), fs.actvar[r]? = some v → v.reg = r
  ids : ∀ v ∈ fs.actvar, v.id < fs.nlocvars
  caps : ∀ (q : Nat) (i : Ins), fs.shape[q]? = some i → ∀ v ∈ i.caps, v ∈ i.held ∧ v.name.isSome
  above : ∀ (q : Nat) (i : Ins), fs.shape[q]? = some i →
    ∀ w ∈ i.op.vars, ∀ v ∈ i.scope, v.reg < w.reg
  flow : ∀ (q : Nat) (i t : Ins), fs.shape[q]? = some i → fs.shape[q + 1]? = some t → Follows fs i t
  jumps : ∀ (q : Nat) (i : Ins) (d : Nat), fs.code[q]? = some i → i.dest = some d →
    ∃ t, fs.shape[d]? = some t ∧ Edge fs q d i.shape t
  blocks : ∀ bl ∈ fs.bl, BlockGood fs bl
  sorted : fs.bl.Pairwise fun bl outer => outer.nactvar ≤ bl.nactvar
  marked : ∀ p v, Captures fs.shape p v → v ∈ fs.actvar → Marked fs.bl v.reg
  owned : ∀ v ∈ fs.actvar, v.name.isSome → ∀ upval loop, owner fs.bl v.reg = some (upval, loop) → loop = false

/-- As `Sound`, and the code can be continued: by falling from its last instruction, and by
the jumps that wait. -/
structure Good (fs : FuncState) : Prop extends Sound fs where
  pending : ∀ q ∈ fs.jpc, Pend fs q fs.actvar
  fresh : ∀ p v, Captures fs.shape p v → v.id < fs.nlocvars
  last : ∀ i, fs.shape.getLast? = some i → Ends fs i

/-! ## Growing code -/

/-- `fs'` continues the code of `fs`: nothing but jump targets changes, and what is free
stays so. -/
structure Grow (fs fs' : FuncState) : Prop where
  shape : fs.shape <+: fs'.shape
  breaks : ∀ q ∈ fs.breaks, q ∈ fs'.breaks
  continues : ∀ q ∈ fs.continues, q ∈ fs'.continues
  free : ∀ v, Free fs v → Free fs' v

variable {fs fs' fs'' : FuncState}

theorem Grow.refl (fs : FuncState) : Grow fs fs :=
  ⟨List.prefix_refl _, fun _ h => h, fun _ h => h, fun _ h => h⟩

theorem Grow.trans (h : Grow fs fs') (h' : Grow fs' fs'') : Grow fs fs'' where
  shape := h.shape.trans h'.shape
  breaks q hq := h'.breaks q (h.breaks q hq)
  continues q hq := h'.continues q (h.continues q hq)
  free v hv := h'.free v (h.free v hv)

/-- What was emitted stays in its place. -/
theorem Grow.get (h : Grow fs fs') {q : Nat} {i : Ins} (hq : fs.shape[q]? = some i) :
    fs'.shape[q]? = some i := by
  obtain ⟨t, ht⟩ := h.shape
  have hlt : q < fs.shape.length := (List.getElem?_eq_some_iff.1 hq).1
  rw [← ht, List.getElem?_append_left hlt, hq]

theorem Grow.get_of_lt (h : Grow fs fs') {q : Nat} (hq : q < fs.pc) :
    fs'.shape[q]? = fs.shape[q]? := by
  obtain ⟨t, ht⟩ := h.shape
  rw [← ht, List.getElem?_append_left (by rwa [FuncState.shape_length])]

theorem Grow.pc_le (h : Grow fs fs') : fs.pc ≤ fs'.pc := by
  rw [← FuncState.shape_length, ← FuncState.shape_length]
  exact h.shape.length_le

theorem lt_pc {q : Nat} {i : Ins} (hq : fs.shape[q]? = some i) : q < fs.pc := by
  rw [← FuncState.shape_length]
  exact (List.getElem?_eq_some_iff.1 hq).1

/-- Whether a jump follows an `OP_CLOSE` was settled when it was emitted. -/
theorem Grow.closedBefore (h : Grow fs fs') {q : Nat} (hq : q < fs.pc) (v : Var) :
    ClosedBefore fs'.shape q v ↔ ClosedBefore fs.shape q v := by
  constructor
  · intro ⟨p, i, j, a, hp, hi, ha, hj, hjmp, hv⟩
    refine ⟨p, i, j, a, hp, ?_, ha, ?_, hjmp, hv⟩
    · rw [← h.get_of_lt (by omega), hi]
    · rw [← h.get_of_lt hq, hj]
  · intro ⟨p, i, j, a, hp, hi, ha, hj, hjmp, hv⟩
    exact ⟨p, i, j, a, hp, h.get hi, ha, h.get hj, hjmp, hv⟩

/-- A later instruction may capture what an earlier one did not, but it stands behind. -/
theorem Grow.captures (h : Grow fs fs') {p : Nat} {v : Var} (hp : Captures fs'.shape p v) :
    Captures fs.shape p v ∨ fs.pc ≤ p := by
  by_cases hlt : p < fs.pc
  · obtain ⟨i, hi, hv⟩ := hp
    rw [h.get_of_lt hlt] at hi
    exact .inl ⟨i, hi, hv⟩
  · exact .inr (by omega)

theorem Drops.grow {U V W : List Var} (hd : Drops fs U V W) (h : Grow fs fs') : Drops fs' U V W :=
  ⟨hd.1, fun v hv hw => h.free v (hd.2 v hv hw)⟩

theorem Enters.grow {U V : List Var} {t : Ins} (he : Enters fs U V t) (h : Grow fs fs') :
    Enters fs' U V t :=
  ⟨he.1, fun v hv ht => (he.2 v hv ht).imp_right (h.free v)⟩

theorem Left.grow {q : Nat} {v : Var} (hl : Left fs q v) (h : Grow fs fs') (hq : q < fs.pc) :
    Left fs' q v := by
  rcases hl with hc | ⟨hm, hp⟩ | hf
  · exact .inl ((h.closedBefore hq v).2 hc)
  · refine .inr (.inl ⟨hm.imp (h.breaks q) (h.continues q), fun p hcap => ?_⟩)
    rcases h.captures hcap with hold | hnew
    · exact hp p hold
    · omega
  · exact .inr (.inr (h.free v hf))

theorem Pend.grow {q : Nat} {W : List Var} (hp : Pend fs q W) (h : Grow fs fs') :
    Pend fs' q W := by
  obtain ⟨i, hi, hin, hout⟩ := hp
  have hq := lt_pc hi
  refine ⟨i, h.get hi, ?_, fun v hv hw => (hout v hv hw).grow h hq⟩
  apply hin.imp (h.continues q)
  intro ⟨hsub, hclosed⟩
  exact ⟨hsub, fun v hv hc => hclosed v hv ((h.closedBefore hq v).1 hc)⟩

theorem Edge.grow {q d : Nat} {i t : Ins} (he : Edge fs q d i t) (h : Grow fs fs')
    (hq : q < fs.pc) (hd : d < fs.pc) : Edge fs' q d i t where
  enters := by
    apply he.enters.imp (h.continues q)
    intro ⟨hsub, hclosed⟩
    exact ⟨hsub, fun v hv hc => hclosed v hv ((h.closedBefore hq v).1 hc)⟩
  leaves v hv ht := (he.leaves v hv ht).imp_right fun hl => hl.grow h hq
  lands v hv hc := he.lands v hv ((h.closedBefore hd v).1 hc)

theorem Follows.grow {i t : Ins} (hf : Follows fs i t) (h : Grow fs fs') : Follows fs' i t :=
  ⟨fun hi => (hf.enters hi).grow h, hf.closes⟩

/-- A block's lists stay good while the locals outside of it stay active. -/
theorem BlockGood.grow {bl : BlockCnt} (hb : BlockGood fs bl) (h : Grow fs fs')
    (hlevel : bl.nactvar ≤ fs'.nactvar)
    (hact : fs'.actvar.take bl.nactvar = fs.actvar.take bl.nactvar) : BlockGood fs' bl where
  level := hlevel
  breaks q hq := by rw [hact]; exact (hb.breaks q hq).grow h
  continues q hq := by
    rw [hact]
    exact ⟨h.continues q (hb.continues q hq).1, (hb.continues q hq).2.grow h⟩

/-! ## Scopes that shrink -/

theorem Drops.refl (fs : FuncState) (V : List Var) : Drops fs V V V :=
  ⟨List.Subset.refl V, fun _ hv hw => absurd hv hw⟩

/-- Locals that end one after the other. -/
theorem Drops.trans {T U V W : List Var} (h : Drops fs T U V) (h' : Drops fs V V W) :
    Drops fs T U W := by
  refine ⟨List.Subset.trans h'.1 h.1, fun v hv hw => ?_⟩
  by_cases hV : v ∈ V
  · exact h'.2 v hV hw
  · exact h.2 v hv hV

theorem Drops.enters {U V W : List Var} {t : Ins} (h : Drops fs U V W) (ht : Enters fs W W t) :
    Enters fs U V t := by
  refine ⟨List.Subset.trans ht.1 h.1, fun v hv hvt => ?_⟩
  by_cases hW : v ∈ W
  · exact ht.2 v hW hvt
  · exact .inr (h.2 v hv hW)

theorem Drops.to_enters {U V : List Var} {t : Ins} (h : Drops fs U V t.scope) : Enters fs U V t :=
  ⟨h.1, fun v hv ht => .inr (h.2 v hv ht)⟩

/-- A jump that may end in a scope may end where some of its locals have ended. -/
theorem Pend.drops {q : Nat} {V W : List Var} (hp : Pend fs q V) (h : Drops fs V V W) :
    Pend fs q W := by
  obtain ⟨i, hi, hin, hout⟩ := hp
  refine ⟨i, hi, ?_, fun v hv hw => ?_⟩
  · apply hin.imp_right
    intro ⟨hsub, hclosed⟩
    exact ⟨List.Subset.trans h.1 hsub, fun v hv => hclosed v (h.1 hv)⟩
  · by_cases hV : v ∈ V
    · exact .inr (.inr (h.2 v hV hw))
    · exact hout v hv hV

/-- A `continue` may also go to a place with more locals in scope. -/
theorem Pend.widen {q : Nat} {V W : List Var} (hp : Pend fs q V) (hq : q ∈ fs.continues)
    (hVW : V ⊆ W) : Pend fs q W := by
  obtain ⟨i, hi, -, hout⟩ := hp
  exact ⟨i, hi, .inl hq, fun v hv hw => hout v hv fun hV => hw (hVW hV)⟩

/-- A pending jump that is patched to an instruction which its scope enters. -/
theorem Pend.edge {q d : Nat} {V : List Var} {t : Ins} (hp : Pend fs q V)
    (ht : Enters fs V V t) (hlands : ∀ v ∈ t.scope, ¬ ClosedBefore fs.shape d v) :
    ∃ i, fs.shape[q]? = some i ∧ Edge fs q d i t := by
  obtain ⟨i, hi, hin, hout⟩ := hp
  refine ⟨i, hi, ?_, fun v hv hvt => ?_, hlands⟩
  · apply hin.imp_right
    intro ⟨hsub, hclosed⟩
    exact ⟨List.Subset.trans ht.1 hsub, fun v hv => hclosed v (ht.1 hv)⟩
  · by_cases hV : v ∈ V
    · exact (ht.2 v hV hvt).imp_right fun hf => .inr (.inr hf)
    · exact .inr (hout v hv hV)

end LuaFltk.Compiler
