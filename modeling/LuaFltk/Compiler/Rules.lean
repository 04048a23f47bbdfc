import LuaFltk.Compiler.Naming

/-!
# What emitted code does

Rules for a comparison of the final code with what a program means. An instruction does what it
records, and then what is done behind it; the jumps on a list do what is done where the list is
sent; a condition chooses between its list and the code behind it.
-/

namespace LuaFltk.Compiler

variable {fs fs' fs2 : FuncState} {code : List Ins} {ρ : Names} {used : Nat}

open Lib (Behaviour Comparison)
open Lib.Behaviour (stop emit either loop)
open Stage (Lists Known)

theorem Stage.Known.of_single {list : List Nat} (h : Known ⟨fs, used, [list]⟩ code) :
    Known ⟨fs, used, []⟩ code := by
  have hall : Known ⟨fs, used, [] ++ [list]⟩ code := h
  exact hall.of_held

/-! ## One instruction -/

section rules

variable {C : Comparison (codeStep code)} {n m : C.Level} {p : Nat} {i : Ins} {e e' : Event}
  {A B : Behaviour Event}

/-- A step is that of the instruction in its place. -/
theorem codeStep_at (hi : code[p]? = some i) (Z : Nat → Behaviour Event) :
    codeStep code Z p = i.does Z p := by
  rw [codeStep, hi]
  rfl

/-- What an instruction does is left to compare with. -/
theorem here_of_does (hi : code[p]? = some i) (h : C.R (i.does (C.here (C.back n)) p) B) :
    C.R (C.here n p) B := by
  have hstep := C.step n p
  rw [codeStep_at hi] at hstep
  exact C.trans hstep h

/-- An instruction does its event and goes on behind. -/
theorem here_emit (hi : code[p]? = some i) (hdoes : ∀ Z, i.does Z p = emit e (Z (p + 1)))
    (h : C.R (C.here n (p + 1)) B) : C.R (C.here n p) (emit e B) := by
  apply here_of_does hi
  rw [hdoes]
  exact C.emit e (C.trans (C.older n (p + 1)) h)

/-- An instruction at which the run ends. -/
theorem here_return (hi : code[p]? = some i) (hdoes : ∀ Z, i.does Z p = emit e stop) :
    C.R (C.here n p) (emit e stop) := by
  apply here_of_does hi
  rw [hdoes]
  exact C.refl _

/-- An instruction that goes to its target, or on. -/
theorem here_either {d : Nat} (hi : code[p]? = some i) (hd : destAt code p = some d)
    (hdoes : ∀ Z, i.does Z p = either (emit e (i.goes Z)) (emit e' (Z (p + 1))))
    (hjump : C.R (C.here (C.back n) d) A) (hnext : C.R (C.here n (p + 1)) B) :
    C.R (C.here n p) (either (emit e A) (emit e' B)) := by
  rw [destAt, hi, Option.bind_some] at hd
  apply here_of_does hi
  rw [hdoes, Ins.goes, hd]
  exact C.either (C.emit e hjump) (C.emit e' (C.trans (C.older n (p + 1)) hnext))

/-- A jump does nothing itself; where it goes back the level goes down. -/
theorem here_jmp {d : Nat} (hi : code[p]? = some i) (hop : i.op = .jmp)
    (hd : destAt code p = some d) (h : C.R (C.here (C.back n) d) B) : C.R (C.here n p) B := by
  rw [destAt, hi, Option.bind_some] at hd
  apply here_of_does hi
  rw [Ins.does, hop]
  change C.R (i.goes _) B
  rw [Ins.goes, hd]
  exact h

/-- An `OP_CLOSE` is no event. -/
theorem here_close {a : Nat} (hi : code[p]? = some i) (hop : i.op = .close a)
    (h : C.R (C.here n (p + 1)) B) : C.R (C.here n p) B := by
  apply here_of_does hi
  rw [Ins.does, hop]
  exact C.trans (C.older n (p + 1)) h

/-- The instruction that `luaK_code` emits is in the final code. -/
theorem Kept.emitted {op : Op} {caps : List Var} (fs : FuncState)
    (h : Kept (luaK_code op caps fs).code code) :
    ∃ i, code[fs.pc]? = some i ∧ i.op = op ∧ i.caps = caps := by
  obtain ⟨i, hi, hshape, -⟩ := h _ _ (Stage.getElem?_luaK_code op caps fs)
  exact ⟨i, hi, congrArg Ins.op hshape, congrArg Ins.caps hshape⟩

/-! ## Lists -/

/-- The jumps of a list lead to `B`. -/
def Lands (C : Comparison (codeStep code)) (n : C.Level) (list : List Nat)
    (B : Behaviour Event) : Prop :=
  ∀ q ∈ list, ∃ d, destAt code q = some d ∧ C.R (C.here (C.back n) d) B

variable {list list' : List Nat}

theorem Lands.mono (h : Lands C n list' B) (hsub : list ⊆ list') : Lands C n list B :=
  fun q hq => h q (hsub hq)

theorem Lands.later (h : Lands C n list B) (hle : m ≤ n) : Lands C m list B := by
  intro q hq
  obtain ⟨d, hd, hB⟩ := h q hq
  exact ⟨d, hd, C.trans (C.later d (C.back_mono hle)) hB⟩

/-- A list that was patched backwards. -/
theorem lands_of_dest {d : Nat} (h : ∀ q ∈ list, destAt code q = some d)
    (hB : C.R (C.here (C.back n) d) B) : Lands C n list B := fun q hq => ⟨d, h q hq, hB⟩

/-- Where a list arrives, or where the jump that stands there goes. -/
theorem lands_of_arrives {t : Nat} (h : Arrives code list t) (hB : C.R (C.here n t) B) :
    Lands C n list B := by
  obtain ⟨d, hd, rfl | ⟨i, hi, hop, hdest⟩⟩ := h
  · exact lands_of_dest hd (C.trans (C.older n d) hB)
  · refine lands_of_dest hd (C.trans (C.thread n t d fun X => ?_) hB)
    rw [codeStep_at hi, Ins.does, hop]
    change i.goes X = X d
    rw [Ins.goes, hdest]
    rfl

/-- An `OP_JMP` goes where its list lands. -/
theorem here_luaK_jump (hkept : Kept (luaK_jump fs).1.code code)
    (h : Lands C n (luaK_jump fs).2 B) : C.R (C.here n fs.pc) B := by
  obtain ⟨i, hi, hop, -⟩ := Kept.emitted { fs with jpc := [] } hkept
  obtain ⟨d, hd, hB⟩ := h fs.pc List.mem_cons_self
  exact here_jmp hi hop hd hB

/-- An expression, of which the event keeps what it captures. -/
theorem here_codeExpr {op : Op} {names : List String} (fs : FuncState) (event : List Nat → Event)
    (hdoes : ∀ (i : Ins) (p : Nat) (Z : Nat → Behaviour Event), i.op = op →
      i.does Z p = emit (event (i.caps.map Var.reg)) (Z (p + 1)))
    (hkept : Kept (codeExpr op names fs).code code) (hnamed : Named fs ρ)
    (h : C.R (C.here n (codeExpr op names fs).pc) B) :
    C.R (C.here n fs.pc) (emit (event (ρ.resolve names)) B) := by
  obtain ⟨i, hi, hop, hcaps⟩ := Kept.emitted (singlevaraux names fs).1 hkept
  have hpc : (codeExpr op names fs).pc = fs.pc + 1 := pc_luaK_code _ _ _
  have hregs : i.caps.map Var.reg = ρ.resolve names := by
    rw [← hnamed.caps names, hcaps]
    rfl
  rw [hpc] at h
  rw [← hregs]
  exact here_emit hi (fun Z => hdoes i fs.pc Z hop) h

/-! ## Conditions -/

/-- What is known behind the second of two conditions is known of each. -/
theorem known_both {c d : Cond} {on on' : Bool} (hS : ∃ L, Lists ⟨fs, used, []⟩ L)
    (h : Known ⟨(goif on d (goif on' c fs).1).1, used,
      [(goif on d (goif on' c fs).1).2, (goif on' c fs).2]⟩ code) :
    Known ⟨(goif on d (goif on' c fs).1).1, used, [(goif on d (goif on' c fs).1).2]⟩ code ∧
      Known ⟨(goif on' c fs).1, used, [(goif on' c fs).2]⟩ code := by
  have hfirst := Stage.lists_step hS (moves_goif c on' fs used).step
  have hsecond := (moves_goif d on (goif on' c fs).1 used).frame [(goif on' c fs).2]
  have hknown := h.before hfirst hsecond.step
  have hall : Known ⟨(goif on d (goif on' c fs).1).1, used,
    [(goif on d (goif on' c fs).1).2] ++ [(goif on' c fs).2]⟩ code := h
  exact ⟨hall.of_held, hknown⟩

/-- A test goes either way: to where its list lands, or on. -/
theorem here_test {names : List String} {k : Bool → Behaviour Event} {on : Bool}
    (hnamed : Named fs ρ)
    (hkept : Kept (condjump .test (singlevaraux names fs).2 (singlevaraux names fs).1).1.code code)
    (hlist : Lands C n [fs.pc] (k on)) (hnext : C.R (C.here n (fs.pc + 1)) (k !on)) :
    C.R (C.here n fs.pc) ((Cond.test names).does ρ on k) := by
  obtain ⟨i, hi, hop, hcaps⟩ := Kept.emitted (singlevaraux names fs).1 hkept
  obtain ⟨d, hd, hjump⟩ := hlist fs.pc (List.mem_singleton_self _)
  have hregs : i.caps.map Var.reg = ρ.resolve names := by
    rw [← hnamed.caps names, hcaps]
  rw [Cond.does, ← hregs]
  apply here_either hi hd ?_ hjump hnext
  intro Z
  rw [Ins.does, hop]

/-- What the code of a condition does, given what is done where its jumps go and behind it. -/
theorem here_goif (c : Cond) {on : Bool} {k : Bool → Behaviour Event} (hnamed : Named fs ρ)
    (hS : ∃ L, Lists ⟨fs, used, []⟩ L)
    (hknown : Known ⟨(goif on c fs).1, used, [(goif on c fs).2]⟩ code)
    (hlist : Lands C n (goif on c fs).2 (k on))
    (hnext : C.R (C.here n (goif on c fs).1.pc) (k !on)) :
    C.R (C.here n fs.pc) (c.does ρ on k) := by
  induction c generalizing on k fs with
  | const b =>
    unfold goif at hknown hlist hnext
    by_cases hb : b = on
    · rw [if_pos hb] at hknown hlist
      rw [Cond.does, hb]
      exact here_luaK_jump hknown.kept hlist
    · rw [if_neg hb] at hnext
      rw [Cond.does, Bool.eq_not_of_ne hb]
      exact hnext
  | test names =>
    have hpc : (goif on (.test names) fs).1.pc = fs.pc + 1 := pc_luaK_code _ _ _
    rw [hpc] at hnext
    exact here_test hnamed hknown.kept hlist hnext
  | not c ih =>
    apply ih hnamed hS hknown
    · rw [Bool.not_not]
      exact hlist
    · rw [Bool.not_not]
      exact hnext
  | and c d ihc ihd =>
    have hstart := Stage.lists_step hS (moves_goif c false fs used).step
    have hend := Stage.lists_step hstart
      ((moves_goif d on (goif false c fs).1 used).frame [(goif false c fs).2]).step
    have hstart' : ∃ L, Lists ⟨(goif false c fs).1, used, []⟩ L := Stage.lists_of_held hstart
    have hnamed' := hnamed.of_actvar (actvar_goif false c fs)
    unfold goif at hknown hlist hnext
    cases on with
    | true =>
      obtain ⟨hd, hc⟩ := known_both hS (hknown.before hend (Stage.step_patch_second _ _))
      have harrives := hknown.owes.jpc.mono (List.subset_append_right _ _)
      refine ihc (k := fun v => if v then d.does ρ true k else k false) hnamed hS hc
        (lands_of_arrives harrives hnext) ?_
      exact ihd hnamed' hstart' hd hlist hnext
    | false =>
      obtain ⟨hd, hc⟩ := known_both hS (hknown.before hend (Stage.step_concat _ _))
      refine ihc (k := fun v => if v then d.does ρ false k else k false) hnamed hS hc
        (hlist.mono (List.subset_append_right _ _)) ?_
      exact ihd hnamed' hstart' hd
        (hlist.mono (List.subset_append_left _ _)) hnext
  | or c d ihc ihd =>
    have hstart := Stage.lists_step hS (moves_goif c true fs used).step
    have hend := Stage.lists_step hstart
      ((moves_goif d on (goif true c fs).1 used).frame [(goif true c fs).2]).step
    have hstart' : ∃ L, Lists ⟨(goif true c fs).1, used, []⟩ L := Stage.lists_of_held hstart
    have hnamed' := hnamed.of_actvar (actvar_goif true c fs)
    unfold goif at hknown hlist hnext
    cases on with
    | true =>
      obtain ⟨hd, hc⟩ := known_both hS (hknown.before hend (Stage.step_concat _ _))
      refine ihc (k := fun v => if v then k true else d.does ρ true k) hnamed hS hc
        (hlist.mono (List.subset_append_right _ _)) ?_
      exact ihd hnamed' hstart' hd
        (hlist.mono (List.subset_append_left _ _)) hnext
    | false =>
      obtain ⟨hd, hc⟩ := known_both hS (hknown.before hend (Stage.step_patch_second _ _))
      have harrives := hknown.owes.jpc.mono (List.subset_append_right _ _)
      refine ihc (k := fun v => if v then k true else d.does ρ false k) hnamed hS hc
        (lands_of_arrives harrives hnext) ?_
      exact ihd hnamed' hstart' hd hlist hnext

/-! ## Blocks -/

/-- The end of a block is silent. -/
theorem here_leaveblock {b : BlockCnt} {previous : List BlockCnt} (hbl : fs.bl = b :: previous)
    (hkept : Kept (leaveblock fs).code code) (h : C.R (C.here n (leaveblock fs).pc) B) :
    C.R (C.here n fs.pc) B := by
  rw [leaveblock_eq hbl] at hkept h
  change Kept (if b.upval then _ else _ : FuncState).code code at hkept
  change C.R (C.here n (if b.upval then _ else _ : FuncState).pc) B at h
  split at hkept
  · next hup =>
    rw [if_pos hup, pc_luaK_code] at h
    obtain ⟨i, hi, hop, -⟩ := hkept.emitted _
    exact here_close hi hop h
  · next hup =>
    rw [if_neg hup] at h
    exact h

/-- A jump out of blocks. -/
theorem here_closeJump {left : List BlockCnt} {level : Nat}
    (hkept : Kept (closeJump left level fs).1.code code)
    (h : Lands C n (closeJump left level fs).2 B) : C.R (C.here n fs.pc) B := by
  unfold closeJump at hkept h
  split at hkept
  · next hup =>
    rw [if_pos hup] at h
    have hjump := here_luaK_jump hkept h
    rw [pc_luaK_code] at hjump
    have hclose : Kept (luaK_code (.close level) [] fs).code code := (Kept.append _ _).trans hkept
    obtain ⟨i, hi, hop, -⟩ := hclose.emitted _
    exact here_close hi hop hjump
  · next hup =>
    rw [if_neg hup] at h
    exact here_luaK_jump hkept h

/-! ## Where control leaves a piece -/

/-- The `breaklist`s of the loops lead to the behaviours of `brk`. -/
def Breaks (C : Comparison (codeStep code)) (n : C.Level) :
    List BlockCnt → (Nat → Behaviour Event) → Prop
  | [], _ => True
  | b :: bl, brk =>
    if b.isbreakable then Lands C n b.breaklist (brk 0) ∧ Breaks C n bl fun k => brk (k + 1)
    else Breaks C n bl brk

/-- The `continuelist` of the innermost loop leads to `next`. -/
def Continues (C : Comparison (codeStep code)) (n : C.Level) :
    List BlockCnt → Behaviour Event → Prop
  | [], _ => True
  | b :: bl, next => if b.isbreakable then Lands C n b.continuelist next else Continues C n bl next

section exits

variable {bl bl' : List BlockCnt} {brk : Nat → Behaviour Event} {next : Behaviour Event}
  {b : BlockCnt}

/-- Jumps that join the lists later land with them. -/
theorem Breaks.of_longer (h : Breaks C n bl' brk) (hlonger : Longer bl bl') : Breaks C n bl brk := by
  induction hlonger generalizing brk with
  | nil => trivial
  | cons hgrows _ ih =>
    unfold Breaks at h ⊢
    rw [hgrows.loop] at h
    split at h
    · next hb =>
      rw [if_pos hb]
      exact ⟨h.1.mono hgrows.breaks, ih h.2⟩
    · next hb =>
      rw [if_neg hb]
      exact ih h

/-- The same of the continues. -/
theorem Continues.of_longer (h : Continues C n bl' next) (hlonger : Longer bl bl') :
    Continues C n bl next := by
  induction hlonger with
  | nil => trivial
  | cons hgrows _ ih =>
    unfold Continues at h ⊢
    rw [hgrows.loop] at h
    split at h
    · next hb =>
      rw [if_pos hb]
      exact h.mono hgrows.continues
    · next hb =>
      rw [if_neg hb]
      exact ih h

theorem Breaks.later (h : Breaks C n bl brk) (hle : m ≤ n) : Breaks C m bl brk := by
  induction bl generalizing brk with
  | nil => trivial
  | cons b bl ih =>
    unfold Breaks at h ⊢
    split at h
    · next hb =>
      rw [if_pos hb]
      exact ⟨h.1.later hle, ih h.2⟩
    · next hb =>
      rw [if_neg hb]
      exact ih h

theorem Continues.later (h : Continues C n bl next) (hle : m ≤ n) : Continues C m bl next := by
  induction bl with
  | nil => trivial
  | cons b bl ih =>
    unfold Continues at h ⊢
    split at h
    · next hb =>
      rw [if_pos hb]
      exact h.later hle
    · next hb =>
      rw [if_neg hb]
      exact ih h

/-- `break` out of the loops of `left`, and of the next one. -/
theorem Breaks.get {left outer : List BlockCnt} (h : Breaks C n (left ++ b :: outer) brk)
    (hb : b.isbreakable = true) : Lands C n b.breaklist (brk (loops left)) := by
  induction left generalizing brk with
  | nil =>
    rw [List.nil_append, Breaks, if_pos hb] at h
    exact h.1
  | cons c left ih =>
    rw [List.cons_append, Breaks] at h
    split at h
    · next hc =>
      rw [loops_cons_of_loop hc]
      exact ih h.2
    · next hc =>
      rw [loops_cons_of_scope hc]
      exact ih h

/-- The continues of the innermost loop land in its next turn. -/
theorem Continues.get {left outer : List BlockCnt} (h : Continues C n (left ++ b :: outer) next)
    (hleft : loops left = 0) (hb : b.isbreakable = true) : Lands C n b.continuelist next := by
  induction left with
  | nil =>
    rw [List.nil_append, Continues, if_pos hb] at h
    exact h
  | cons c left ih =>
    have hc : ¬ c.isbreakable = true := by
      intro hc
      rw [loops_cons_of_loop hc] at hleft
      omega
    rw [List.cons_append, Continues, if_neg hc] at h
    rw [loops_cons_of_scope hc] at hleft
    exact ih h hleft

end exits

end rules

end LuaFltk.Compiler
