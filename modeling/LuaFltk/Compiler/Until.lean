import LuaFltk.Compiler.Exec

/-!
# Locals in scope are initialised

The condition of a `repeat` is in the scope of the locals of its body, and `continue` jumps to
the condition from any place of the body. So a local that is in scope there may not have
been declared in this iteration. Every other way to an instruction initialises the locals in
scope at it.
-/

namespace LuaFltk.Compiler

variable {fs : FuncState} {s s' : State}

/-- Every local in scope at the instruction has been initialised since it came into scope. -/
def Declared (fs : FuncState) (s : State) : Prop :=
  ∀ t, fs.code[s.pc]? = some t → ∀ v ∈ t.scope, s.cell v ≠ .unset

/-- If the step takes a jump of a `continue`, every local in scope at the target is in scope
at the jump. -/
def ContinueStays (fs : FuncState) (s s' : State) : Prop :=
  s.pc ∈ fs.continues → ∀ i t, fs.code[s.pc]? = some i → fs.code[s'.pc]? = some t →
    i.target = some s'.pc → t.scope ⊆ i.after

/-- The locals with a cell are those in scope. -/
def Confined (fs : FuncState) (s : State) : Prop :=
  ∃ t, fs.code[s.pc]? = some t ∧ ∀ v, s.cell v ≠ .unset → v ∈ t.scope

/-- What has a value on arrival had one before. -/
theorem arrive_ne_unset {t : Ins} {cell : Var → Cell} {v : Var} :
    t.arrive cell v ≠ .unset ↔ v ∈ t.scope ∧ cell v ≠ .unset := by
  unfold Ins.arrive
  split <;> simp_all

/-- A declaration gives its variables values. -/
theorem cells_ne_unset {i : Ins} {cell : Var → Cell} {v : Var} :
    i.cells cell v ≠ .unset ↔ v ∈ i.op.vars ∨ cell v ≠ .unset := by
  unfold Ins.cells Op.vars
  cases i.op with
  | decl vars => by_cases hv : v ∈ vars <;> simp [hv]
  | forloop vars => by_cases hv : v ∈ vars <;> simp [hv]
  | close a => by_cases ha : a ≤ v.reg ∧ cell v = .live <;> simp [ha]
  | _ => simp

/-- Only variables in scope are alive. -/
theorem Confined.step (h : Sound fs) (hs : Step fs.code s s') : Confined fs s' := by
  obtain ⟨i, t, -, ht, hcell, -, -⟩ := h.step hs
  refine ⟨t, ht, fun v hv => ?_⟩
  rw [hcell] at hv
  exact (arrive_ne_unset.1 hv).1

/-- What a step keeps: the way to an instruction initialises what is in scope at it. -/
theorem Declared.step (h : Sound fs) (hd : Declared fs s) (hs : Step fs.code s s')
    (hok : ContinueStays fs s s') : Declared fs s' := by
  obtain ⟨i, t, hi, ht, hcell, -, hgo⟩ := h.step hs
  intro t' ht' v hv
  rw [ht] at ht'
  cases ht'
  have hafter : v ∈ i.after := by
    rcases hgo with ⟨hf, -, hfollows⟩ | ⟨htarget, hedge⟩
    · exact (hfollows.enters hf).1 hv
    · rcases hedge.enters with hcont | ⟨hsub, -⟩
      · exact hok hcont i t hi ht htarget hv
      · exact hsub hv
  rw [hcell, arrive_ne_unset, cells_ne_unset]
  refine ⟨hv, ?_⟩
  rcases List.mem_append.1 hafter with hscope | hvars
  · exact .inr (hd i hi v hscope)
  · exact .inl hvars

/-- A `continue` that enters the scope of a local leaves it uninitialised. -/
theorem continueStays_of_declared (h : Sound fs) (hc : Confined fs s) (hs : Step fs.code s s')
    (hd : Declared fs s') : ContinueStays fs s s' := by
  obtain ⟨i, t, hi, ht, hcell, -, -⟩ := h.step hs
  obtain ⟨i₀, hi₀, hconf⟩ := hc
  rw [hi] at hi₀
  cases hi₀
  intro _ i' t' hi' ht' _ v hv
  rw [hi] at hi'
  rw [ht] at ht'
  cases hi'
  cases ht'
  have hset := hd t ht v hv
  rw [hcell, arrive_ne_unset, cells_ne_unset] at hset
  rcases hset.2 with hvars | hcell
  · exact List.mem_append_right _ hvars
  · exact List.mem_append_left _ (hconf v hcell)

/-- The parameters have their values. -/
theorem start_spec {params : List String} {c : Chunk} (h : funcBody params c = .ok fs) :
    Declared fs (start params fs) ∧ Confined fs (start params fs) := by
  obtain ⟨-, new, hnew, t, ht, hsub⟩ := funcBody_sound h
  rw [FuncState.shape, List.getElem?_map] at ht
  obtain ⟨i, hi, rfl⟩ := Option.map_eq_some_iff.1 ht
  have hhead : fs.code.head? = some i := by rw [List.head?_eq_getElem?, hi]
  have hparams : ∀ v ∈ i.scope, v ∈ (params.map some).mapIdx fun i name => (⟨name, i, i⟩ : Var) := by
    intro v hv
    have hv' := hsub hv
    unfold new_localvars at hnew
    split at hnew
    · cases hnew
    · cases hnew
      simpa [open_func, FuncState.nactvar] using hv'
  have hcell : ∀ v, (start params fs).cell v ≠ .unset ↔ v ∈ i.scope := by
    intro v
    unfold start
    rw [hhead]
    by_cases hv : v ∈ i.scope
    · have hp := hparams v hv
      simp only [Option.map_some, Option.getD_some, hv, hp, and_self, if_true]
      simp
    · simp [hv]
  exact ⟨fun t' ht' v hv => (hcell v).2 (by cases hi.symm.trans ht'; exact hv),
    i, hi, fun v hv => (hcell v).1 hv⟩

/-- In a run, every local in scope at every instruction is initialised, in particular at the
condition of each `repeat`, exactly when no `continue` that is taken enters the scope of a
local. -/
theorem scope_initialised_iff {params : List String} {c : Chunk} {ss : List State}
    (h : funcBody params c = .ok fs) (hrun : Lib.Run (Step fs.code) (start params fs) ss) :
    (∀ s ∈ start params fs :: ss, Declared fs s) ↔
      Lib.Run (ContinueStays fs) (start params fs) ss := by
  have hsound := (funcBody_sound h).1
  apply hrun.good_iff (fun s => Declared fs s ∧ Confined fs s) (start_spec h)
  · exact fun s s' hinv hs hok => ⟨hinv.1.step hsound hs hok, Confined.step hsound hs⟩
  · exact fun s s' hinv hs hd => continueStays_of_declared hsound hinv.2 hs hd
  · exact fun s hinv => hinv.1

/-- The first local of a function without parameters. -/
def firstLocal : Var := ⟨some "x", 0, 0⟩

/-- `repeat local x until x`. -/
def localLoop : Chunk :=
  .seq (.repeatstat (.seq (.localstat ["x"] []) .done) (.test [])) .done

def localLoopCode : FuncState where
  code := [⟨.decl [firstLocal], [], [], none⟩, ⟨.test, [firstLocal], [], some 0⟩,
    ⟨.ret, [], [], none⟩]
  jpc := []
  nlocvars := 1
  actvar := []
  bl := []
  breaks := []
  continues := []

/-- Two iterations of a loop without `continue`. -/
theorem scope_initialised_localLoop : ∃ ss,
    ss.map (fun s => (s.pc, s.cell firstLocal)) =
      [(1, .live), (0, .unset), (1, .live), (2, .unset)] ∧
    ∀ s ∈ start [] localLoopCode :: ss, Declared localLoopCode s := by
  have htrace : (trace localLoopCode.code (start [] localLoopCode) [1, 0, 1, 2]).map
      (List.map fun s => (s.pc, s.cell firstLocal)) =
        some [(1, .live), (0, .unset), (1, .live), (2, .unset)] := by decide
  obtain ⟨ss, hrun, hmap⟩ := exists_run htrace
  have hcode : funcBody [] localLoop = .ok localLoopCode := by decide +kernel
  refine ⟨ss, hmap, (scope_initialised_iff hcode hrun).2 ?_⟩
  exact hrun.imp fun _ _ _ hcont => nomatch hcont

/-- `repeat if c then continue end local x until x`. -/
def continueLoop : Chunk :=
  .seq (.repeatstat (.seq (.ifstat (.test []) .continuestat .done)
    (.seq (.localstat ["x"] []) .done)) (.test [])) .done

def continueLoopCode : FuncState where
  code := [⟨.test, [], [], some 2⟩, ⟨.jmp, [], [], some 3⟩, ⟨.decl [firstLocal], [], [], none⟩,
    ⟨.test, [firstLocal], [], some 0⟩, ⟨.ret, [], [], none⟩]
  jpc := []
  nlocvars := 1
  actvar := []
  bl := []
  breaks := []
  continues := [1]

/-- After the `continue` the condition reads `x`, which this iteration has not declared. -/
theorem until_reads_unset_local :
    ¬ ∀ (params : List String) (c : Chunk) (fs : FuncState) (ss : List State),
      funcBody params c = .ok fs → Lib.Run (Step fs.code) (start params fs) ss →
        ∀ s ∈ start params fs :: ss, Declared fs s := by
  intro hall
  have htrace : (trace continueLoopCode.code (start [] continueLoopCode) [1, 3]).map
      (List.map fun s => (s.pc, s.cell firstLocal)) = some [(1, .unset), (3, .unset)] := by decide
  obtain ⟨ss, hrun, hmap⟩ := exists_run htrace
  have hcode : funcBody [] continueLoop = .ok continueLoopCode := by decide +kernel
  have hmem : ((3 : Nat), Cell.unset) ∈ ss.map fun s => (s.pc, s.cell firstLocal) := by
    rw [hmap]
    decide
  obtain ⟨s, hs, heq⟩ := List.mem_map.1 hmem
  rw [Prod.mk.injEq] at heq
  have hget : continueLoopCode.code[s.pc]? = some ⟨.test, [firstLocal], [], some 0⟩ := by
    rw [heq.1]
    rfl
  have hset := hall [] continueLoop continueLoopCode ss hcode hrun s
    (List.mem_cons_of_mem _ hs) _ hget firstLocal (List.mem_singleton.2 rfl)
  exact hset heq.2

end LuaFltk.Compiler
