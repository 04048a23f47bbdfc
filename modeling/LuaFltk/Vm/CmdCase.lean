import LuaFltk.Bytecode.Cmd
import LuaFltk.Vm.Equal

/-!
# `OP_CMD` on a stack that moves

The arm `CMD_CASE` of `OP_CMD` keeps `ra`, `left`, `right` and `oldtop` as addresses over all
its comparisons, while a metamethod that one of them calls can move the stack. The other
instructions that go on after a call fetch `RA(i)` again.
-/

namespace LuaFltk.Vm

open LuaFltk.Bytecode

variable {N : Type}

/-- The field `base`, as the address it is. -/
def LState.L_base (s : LState N) : StkId := ⟨s.stack, s.base⟩

/-- The case `OP_CMD` of `luaV_execute` with the sub-command `CMD_CASE`, for a `pc` behind the
instruction and the jump offset `GETARG_sBx(*pc)`: the variables `pc` and `base` after it. -/
def execCmdCase (env : Env N) (base : StkId) (i : Instruction) (pc jump : Int) :
    VmM N (Int × StkId) := do
  let ra := base + i.GETARG_A
  let nargs := i.GETARG_B
  let oldtop := (← getL).top
  modifyL fun s => { s with top := ra + nargs }
  let flag ← cmdCaseLoop (fun left right => equalobj env ⟨ra.block, left⟩ ⟨ra.block, right⟩)
    ra.offset (nargs - 1) 1
  let pc := if flag then pc + jump else pc
  let base := (← getL).L_base
  let pc := pc + 1
  modifyL fun s => { s with top := oldtop }
  return (pc, base)

/-- The comparisons of a record: both addresses, and the block of the stack at that time. -/
def comparisons (es : List Event) : List (StkId × StkId × Nat) :=
  es.filterMap fun
    | .compare left right stack => some (left, right, stack)
    | _ => none

/-- What a comparison needs of the stack, for the `CMD_CASE` instruction `i` and its result
`r` in the state `s`: the `j`-th comparison is between the registers `A` and `A+j` of the
stack as it is then; the functions called stand above the registers below `A+nargs`; and
after the instruction `top` is where it was, and `base` is the current one. -/
structure CaseSound (s : LState N) (i : Instruction) (r : Option (Int × StkId) × LState N) :
    Prop where
  compares : ∀ (j : Nat) (left right : StkId) (stack : Nat), (comparisons r.2.trace)[j]? = some (left, right, stack) →
    left = ⟨stack, s.base + i.GETARG_A⟩ ∧ right = ⟨stack, s.base + i.GETARG_A + (j + 1)⟩
  live : ∀ (func : StkId) (stack : Nat), .call func stack ∈ r.2.trace →
    func.block = stack ∧ s.base + i.GETARG_A + i.GETARG_B ≤ func.offset
  top : r.1.isSome → r.2.top = ⟨r.2.stack, s.top.offset⟩
  base : ∀ (pc : Int) (base : StkId), r.1 = some (pc, base) → base = ⟨r.2.stack, s.base⟩

/-- What is left behind by the turns of the loop that begin with `j`, when the registers are
taken to be in the block `blk`: the record `es` they add, and how `r` comes out. -/
structure LoopRun (blk ra top j : Nat) (s : LState N) (r : Option Bool × LState N)
    (es : List Event) : Prop where
  trace : r.2.trace = s.trace ++ es
  compares : ∀ (k : Nat) (left right : StkId) (stack : Nat), (comparisons es)[k]? = some (left, right, stack) →
    left = ⟨blk, ra⟩ ∧ right = ⟨blk, ra + (j + k)⟩
  calls : ∀ (func : StkId) (stack : Nat), .call func stack ∈ es → func = ⟨stack, top⟩
  finished : r.1.isSome → r.2.base = s.base ∧ r.2.top = ⟨r.2.stack, top⟩
  current : (∀ e ∈ comparisons es, e.2.2 = blk) ∧ (r.1.isSome → r.2.stack = blk) ↔
    s.stack = blk ∧ ∀ stack, .ret stack ∈ es → stack = blk

@[simp] theorem comparisons_nil : comparisons [] = [] := rfl

@[simp] theorem comparisons_compare (left right : StkId) (stack : Nat) (es : List Event) :
    comparisons (.compare left right stack :: es) = (left, right, stack) :: comparisons es := rfl

@[simp] theorem comparisons_call (func : StkId) (stack : Nat) (es : List Event) :
    comparisons (.call func stack :: es) = comparisons es := rfl

@[simp] theorem comparisons_ret (stack : Nat) (es : List Event) :
    comparisons (.ret stack :: es) = comparisons es := rfl

/-- What a comparison that comes to an answer adds to the record after itself: nothing, or a
call and its return. -/
structure Answered (blk top : Nat) (s s' : LState N) (cmp : Event) (es : List Event) : Prop where
  trace : s'.trace = s.trace ++ cmp :: es
  base : s'.base = s.base
  restored : s'.top = ⟨s'.stack, top⟩
  compares : comparisons es = []
  calls : ∀ (func : StkId) (stack : Nat), .call func stack ∈ es → func = ⟨stack, top⟩
  current : s.stack = blk → (s'.stack = blk ↔ ∀ stack, .ret stack ∈ es → stack = blk)

/-- A comparison comes to an answer, or the function it calls raises an error. -/
theorem equalobj_answered (env : Env N) (o1 o2 : StkId) (blk top : Nat) {s : LState N}
    (h : s.top = ⟨s.stack, top⟩) :
    (∃ b s' es, equalobj env o1 o2 s = (some b, s') ∧
        Answered blk top s s' (.compare o1 o2 s.stack) es) ∨
      ∃ s' st, equalobj env o1 o2 s = (none, s') ∧
        s'.trace = s.trace ++ [.compare o1 o2 s.stack, .call ⟨st, top⟩ st] := by
  have hone := equalobj_spec env o1 o2 (s := s) (by rw [h])
  generalize equalobj env o1 o2 s = r at hone ⊢
  cases hone with
  | @plain b s' hstack hbase htop htrace =>
    refine .inl ⟨b, s', [], rfl, htrace, hbase, ?_, rfl, by simp, ?_⟩
    · rw [htop, h, hstack]
    · intro hs
      simp [hstack, hs]
  | @returned b s' st hbase htop htrace =>
    rw [h] at htop htrace
    refine .inl ⟨b, s', _, rfl, htrace, hbase, htop, rfl, ?_, ?_⟩
    · intro func stack hf
      simp only [List.mem_cons, Event.call.injEq, reduceCtorEq, List.not_mem_nil, or_false] at hf
      rw [hf.1, hf.2]
    · simp
  | @raised s' st htrace =>
    rw [h] at htrace
    exact .inr ⟨s', st, rfl, htrace⟩

/-- A turn that goes on, and the turns after it. -/
theorem LoopRun.cons {blk ra top j : Nat} {s s' : LState N} {r : Option Bool × LState N}
    {mid es : List Event}
    (hone : Answered blk top s s' (.compare ⟨blk, ra⟩ ⟨blk, ra + j⟩ s.stack) mid)
    (h : LoopRun blk ra top (j + 1) s' r es) :
    LoopRun blk ra top j s r (.compare ⟨blk, ra⟩ ⟨blk, ra + j⟩ s.stack :: mid ++ es) := by
  have hcmp : comparisons (.compare ⟨blk, ra⟩ ⟨blk, ra + j⟩ s.stack :: mid ++ es) =
      (⟨blk, ra⟩, ⟨blk, ra + j⟩, s.stack) :: comparisons es := by
    rw [List.cons_append, comparisons_compare]
    unfold comparisons
    rw [List.filterMap_append]
    exact congrArg (_ :: ·) (congrArg (· ++ _) hone.compares)
  refine ⟨?_, ?_, ?_, ?_, ?_⟩
  · rw [h.trace, hone.trace, List.append_assoc]
  · intro k left right stack hk
    rw [hcmp] at hk
    cases k with
    | zero =>
      simp only [List.getElem?_cons_zero, Option.some.injEq, Prod.mk.injEq] at hk
      obtain ⟨rfl, rfl, -⟩ := hk
      exact ⟨rfl, rfl⟩
    | succ k =>
      rw [List.getElem?_cons_succ] at hk
      obtain ⟨hl, hr⟩ := h.compares k left right stack hk
      exact ⟨hl, by rw [hr, show j + 1 + k = j + (k + 1) by omega]⟩
  · intro func stack hf
    simp only [List.cons_append, List.mem_cons, reduceCtorEq, List.mem_append, false_or] at hf
    exact hf.elim (hone.calls func stack) (h.calls func stack)
  · intro hr
    obtain ⟨hb, ht⟩ := h.finished hr
    exact ⟨hb.trans hone.base, ht⟩
  · have hret : (∀ stack, .ret stack ∈ Event.compare ⟨blk, ra⟩ ⟨blk, ra + j⟩ s.stack :: mid ++ es →
        stack = blk) ↔ (∀ stack, .ret stack ∈ mid → stack = blk) ∧
          ∀ stack, .ret stack ∈ es → stack = blk := by
      simp only [List.cons_append, List.mem_cons, reduceCtorEq, List.mem_append, false_or, or_imp,
        forall_and]
    rw [hcmp, hret, List.forall_mem_cons, and_assoc, h.current]
    constructor
    · rintro ⟨hs, hs', hes⟩
      exact ⟨hs, (hone.current hs).1 hs', hes⟩
    · rintro ⟨hs, hmid, hes⟩
      exact ⟨hs, (hone.current hs).2 hmid, hes⟩

/-- No turn is left, or the loop is left with a result. -/
theorem LoopRun.done {blk ra top j : Nat} {s : LState N} (b : Bool) (h : s.top = ⟨s.stack, top⟩) :
    LoopRun blk ra top j s (some b, s) [] := by
  refine ⟨by simp, by simp, by simp, ?_, by simp⟩
  intro _
  exact ⟨rfl, h⟩

/-- The loop of the case is a run of comparisons, one for each register. -/
theorem cmdCaseLoop_run (env : Env N) (blk ra top n : Nat) :
    ∀ j (s : LState N), s.top = ⟨s.stack, top⟩ →
      ∃ es, LoopRun blk ra top j s
        (cmdCaseLoop (fun left right => equalobj env ⟨blk, left⟩ ⟨blk, right⟩) ra n j s) es := by
  induction n with
  | zero =>
    intro j s htop
    exact ⟨[], .done true htop⟩
  | succ n ih =>
    intro j s htop
    rw [cmdCaseLoop, bind_apply]
    obtain ⟨b, s', mid, hrun, hone⟩ | ⟨s', st, hrun, htrace⟩ :=
      equalobj_answered env ⟨blk, ra⟩ ⟨blk, ra + j⟩ blk top htop
    · rw [hrun]
      cases b with
      | true => exact ⟨_, .cons hone (.done false hone.restored)⟩
      | false =>
        obtain ⟨es, h⟩ := ih (j + 1) s' hone.restored
        exact ⟨_, .cons hone h⟩
    · rw [hrun]
      refine ⟨_, htrace, ?_, ?_, by simp, by simp⟩
      · intro k left right stack hk
        cases k with
        | zero =>
          simp only [comparisons_compare, List.getElem?_cons_zero, Option.some.injEq,
            Prod.mk.injEq] at hk
          obtain ⟨rfl, rfl, -⟩ := hk
          exact ⟨rfl, rfl⟩
        | succ k => simp at hk
      · intro func stack hf
        simp only [List.mem_cons, reduceCtorEq, Event.call.injEq, List.not_mem_nil, or_false,
          false_or] at hf
        rw [hf.1, hf.2]

/-- The instruction, with a record of its own. -/
def runCmdCase (env : Env N) (i : Instruction) (pc jump : Int) (s : LState N) :
    Option (Int × StkId) × LState N :=
  execCmdCase env s.L_base i pc jump { s with trace := [] }

/-- The instruction is its loop, and what comes after it. -/
theorem runCmdCase_eq (env : Env N) (i : Instruction) (pc jump : Int) (s : LState N) :
    runCmdCase env i pc jump s =
      match cmdCaseLoop (fun left right => equalobj env ⟨s.stack, left⟩ ⟨s.stack, right⟩)
        (s.base + i.GETARG_A) (i.GETARG_B - 1) 1
        { s with top := ⟨s.stack, s.base + i.GETARG_A + i.GETARG_B⟩, trace := [] } with
      | (some flag, s') =>
        (some ((if flag then pc + jump else pc) + 1, s'.L_base), { s' with top := s.top })
      | (none, s') => (none, s') := by
  have hra : s.L_base + i.GETARG_A = ⟨s.stack, s.base + i.GETARG_A⟩ := rfl
  have htop : (⟨s.stack, s.base + i.GETARG_A⟩ : StkId) + i.GETARG_B =
      ⟨s.stack, s.base + i.GETARG_A + i.GETARG_B⟩ := rfl
  unfold runCmdCase execCmdCase
  simp only [bind_apply, getL_apply, modifyL_apply, pure_apply, hra, htop]
  rcases (cmdCaseLoop (fun left right => equalobj env ⟨s.stack, left⟩ ⟨s.stack, right⟩)
    (s.base + i.GETARG_A) (i.GETARG_B - 1) 1 : VmM N Bool)
    { s with top := ⟨s.stack, s.base + i.GETARG_A + i.GETARG_B⟩, trace := [] } with ⟨_ | flag, s'⟩
  · rfl
  · rfl

/-- `OP_CMD` is sound for the stack exactly when no metamethod called by its comparisons
returns with the stack moved. -/
theorem cmdCase_sound_iff (env : Env N) (i : Instruction) (pc jump : Int) (s : LState N)
    (htop : s.top.block = s.stack) :
    CaseSound s i (runCmdCase env i pc jump s) ↔
      ∀ stack, .ret stack ∈ (runCmdCase env i pc jump s).2.trace → stack = s.stack := by
  obtain ⟨es, h⟩ := cmdCaseLoop_run env s.stack (s.base + i.GETARG_A)
    (s.base + i.GETARG_A + i.GETARG_B) (i.GETARG_B - 1) 1
    { s with top := ⟨s.stack, s.base + i.GETARG_A + i.GETARG_B⟩, trace := [] } rfl
  rw [runCmdCase_eq]
  generalize (cmdCaseLoop (fun left right => equalobj env ⟨s.stack, left⟩ ⟨s.stack, right⟩)
    (s.base + i.GETARG_A) (i.GETARG_B - 1) 1 : VmM N Bool)
    { s with top := ⟨s.stack, s.base + i.GETARG_A + i.GETARG_B⟩, trace := [] } = r at h ⊢
  obtain ⟨flag, s'⟩ := r
  have htrace : s'.trace = es := h.trace
  have hcur := h.current
  have hcmp := h.compares
  have hcalls : ∀ (func : StkId) (stack : Nat), .call func stack ∈ es →
      func.block = stack ∧ s.base + i.GETARG_A + i.GETARG_B ≤ func.offset := by
    intro func stack hf
    rw [h.calls func stack hf]
    exact ⟨rfl, le_refl _⟩
  have hsound : (∀ (j : Nat) (left right : StkId) (stack : Nat),
      (comparisons es)[j]? = some (left, right, stack) → left = ⟨stack, s.base + i.GETARG_A⟩ ∧
        right = ⟨stack, s.base + i.GETARG_A + (j + 1)⟩) ↔
      ∀ e ∈ comparisons es, e.2.2 = s.stack := by
    constructor
    · intro hs e he
      obtain ⟨k, hk⟩ := List.getElem?_of_mem he
      have hleft := (hs k e.1 e.2.1 e.2.2 hk).1
      rw [(hcmp k e.1 e.2.1 e.2.2 hk).1] at hleft
      exact (congrArg StkId.block hleft).symm
    · intro hs j left right stack hk
      have hst : stack = s.stack := hs _ (List.mem_of_getElem? hk)
      obtain ⟨hl, hr⟩ := hcmp j left right stack hk
      rw [hl, hr, hst, Nat.add_comm 1 j]
      exact ⟨rfl, rfl⟩
  cases flag with
  | none =>
    simp only [Option.isSome_none, Bool.false_eq_true, false_implies, and_true, true_and] at hcur
    show CaseSound s i (none, s') ↔ ∀ stack, .ret stack ∈ s'.trace → stack = s.stack
    rw [htrace, ← hcur]
    constructor
    · intro hs
      exact hsound.1 (htrace ▸ hs.compares)
    · intro hs
      exact ⟨by rw [htrace]; exact hsound.2 hs, by rw [htrace]; exact hcalls, by simp, by simp⟩
  | some flag =>
    obtain ⟨hb, -⟩ := h.finished rfl
    simp only [Option.isSome_some, true_implies, true_and] at hcur
    show CaseSound s i (some _, _) ↔ ∀ stack, .ret stack ∈ s'.trace → stack = s.stack
    rw [htrace, ← hcur]
    constructor
    · intro hs
      refine ⟨hsound.1 (htrace ▸ hs.compares), ?_⟩
      have := congrArg StkId.block (hs.top rfl)
      rw [← htop]
      exact this.symm
    · rintro ⟨hs, hst⟩
      refine ⟨hsound.2 hs, hcalls, fun _ => ?_, fun pc' base hbase => ?_⟩
      · show s.top = ⟨s'.stack, s.top.offset⟩
        rw [hst, ← htop]
      · simp only [Option.some.injEq, Prod.mk.injEq] at hbase
        rw [← hbase.2, LState.L_base, hb]

/-- Three tables in the registers 0 to 2, each with a metatable that has `__eq`. -/
def threeTables : LState Nat where
  stack := 0
  mem a := .table a.offset
  heap := ⟨fun _ => some 9, fun _ => some (.function 8)⟩
  base := 0
  top := ⟨0, 3⟩
  trace := []

/-- Metamethods that answer false; `moves` says how often the stack moves in each. -/
def falseEq (moves : Nat) : Env Nat where
  numeq a b := a == b
  room _ _ := true
  freed _ _ := .nil
  callee s _ := ⟨moves, fun _ => .boolean false, s.heap, true⟩

/-- A comparison that does not move the stack. -/
theorem cmdCase_sound_still :
    threeTables.top.block = threeTables.stack ∧
      CaseSound threeTables (CREATE_ABC .OP_CMD 0 2 CMD_CASE)
        (runCmdCase (falseEq 0) (CREATE_ABC .OP_CMD 0 2 CMD_CASE) 1 1 threeTables) := by
  refine ⟨rfl, (cmdCase_sound_iff _ _ _ _ threeTables rfl).2 ?_⟩
  have htrace : (runCmdCase (falseEq 0) (CREATE_ABC .OP_CMD 0 2 CMD_CASE) 1 1 threeTables).2.trace =
      [.compare ⟨0, 0⟩ ⟨0, 1⟩ 0, .call ⟨0, 2⟩ 0, .ret 0] := by
    decide
  intro stack hs
  rw [htrace] at hs
  simp only [List.mem_cons, reduceCtorEq, Event.ret.injEq, List.not_mem_nil, or_false,
    false_or] at hs
  exact hs

/-- The first comparison of `0, 1, 2` moves the stack: the second reads the old block, and
`top` is left pointing there. -/
theorem cmdCase_stale :
    (runCmdCase (falseEq 1) (CREATE_ABC .OP_CMD 0 3 CMD_CASE) 1 1 threeTables).2.trace =
        [.compare ⟨0, 0⟩ ⟨0, 1⟩ 0, .call ⟨0, 3⟩ 0, .ret 1, .compare ⟨0, 0⟩ ⟨0, 2⟩ 1] ∧
      ¬ CaseSound threeTables (CREATE_ABC .OP_CMD 0 3 CMD_CASE)
        (runCmdCase (falseEq 1) (CREATE_ABC .OP_CMD 0 3 CMD_CASE) 1 1 threeTables) := by
  refine ⟨by decide, fun h => ?_⟩
  have hblock : (runCmdCase (falseEq 1) (CREATE_ABC .OP_CMD 0 3 CMD_CASE) 1 1 threeTables).2.top ≠
      ⟨1, 3⟩ := by
    decide
  exact hblock (h.top rfl)

end LuaFltk.Vm
