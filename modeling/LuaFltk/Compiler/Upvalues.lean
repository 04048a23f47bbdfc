import LuaFltk.Compiler.Until

/-!
# Upvalues are closed in time, and not before

An `OP_CLOSE` cuts the cells of the locals from its register on. While a local is in scope it
must not be cut, except at the jump behind the `OP_CLOSE` that `break` and `continue` emit. When
a captured local goes out of scope it must be cut before its register is used again.
-/

namespace LuaFltk.Compiler

variable {fs : FuncState} {s s' : State}

/-! ## Not before -/

/-- A local in scope is cut only at the jump that leaves its block, behind its `OP_CLOSE`. -/
def Uncut (fs : FuncState) (s : State) : Prop :=
  ∀ t, fs.code[s.pc]? = some t → ∀ v ∈ t.scope, v.name.isSome → s.cell v = .closed →
    ClosedBefore fs.shape s.pc v

/-- If the step takes a jump of a `continue`, no local that it leaves in scope is covered by
the `OP_CLOSE` before it. -/
def ContinueKeeps (fs : FuncState) (s s' : State) : Prop :=
  s.pc ∈ fs.continues → ∀ i t, fs.code[s.pc]? = some i → fs.code[s'.pc]? = some t →
    i.target = some s'.pc → ∀ v ∈ i.scope, v ∈ t.scope → v.name.isSome → s.cell v ≠ .unset →
      ¬ ClosedBefore fs.shape s.pc v

/-- The jump behind an `OP_CLOSE` is only reached through it. -/
def Cut (fs : FuncState) (s : State) : Prop :=
  ∀ v, ClosedBefore fs.shape s.pc v → s.cell v ≠ .live

theorem closedBefore_jmp {q : Nat} {v : Var} (h : ClosedBefore fs.shape q v) {i : Ins}
    (hi : fs.code[q]? = some i) : i.op = .jmp := by
  obtain ⟨p, c, j, a, -, -, -, hj, hjmp, -⟩ := h
  rw [shape_getElem? hi] at hj
  cases hj
  exact hjmp

/-- Behind an instruction that is no `OP_CLOSE` there is no jump of one. -/
theorem closedBefore_succ {p : Nat} {v : Var} (h : ClosedBefore fs.shape (p + 1) v) {i : Ins}
    (hi : fs.code[p]? = some i) : ∃ a, i.op = .close a ∧ a ≤ v.reg := by
  obtain ⟨p', c, j, a, hp, hc, ha, -, -, hle⟩ := h
  obtain rfl : p = p' := by omega
  rw [shape_getElem? hi] at hc
  cases hc
  exact ⟨a, ha, hle⟩

/-- Where an instruction is reached, variables out of scope are gone. -/
theorem arrive_eq {t : Ins} {cell : Var → Cell} {v : Var} {c : Cell} (hc : c ≠ .unset) :
    t.arrive cell v = c ↔ v ∈ t.scope ∧ cell v = c := by
  unfold Ins.arrive
  split
  · simp_all
  · simp_all [eq_comm]

/-- A cell is cut by an `OP_CLOSE`, or was before. -/
theorem cells_eq_closed {i : Ins} {cell : Var → Cell} {v : Var} (h : i.cells cell v = .closed) :
    cell v = .closed ∨ ∃ a, i.op = .close a ∧ a ≤ v.reg := by
  unfold Ins.cells at h
  split at h
  · split at h
    · cases h
    · exact .inl h
  · split at h
    · cases h
    · exact .inl h
  · next a ha =>
    split at h
    · next hlive => exact .inr ⟨a, ha, hlive.1⟩
    · exact .inl h
  · exact .inl h

theorem cells_jmp {i : Ins} (h : i.op = .jmp) (cell : Var → Cell) : i.cells cell = cell := by
  funext v
  unfold Ins.cells
  rw [h]

/-- A step that comes to a jump behind an `OP_CLOSE` has closed what that covers. -/
theorem Cut.step (h : Sound fs) (hs : Step fs.code s s') : Cut fs s' := by
  obtain ⟨i, t, hi, -, hcell, -, hgo⟩ := h.step hs
  intro v hclosed hlive
  rw [hcell, arrive_eq (by decide)] at hlive
  rcases hgo with ⟨-, hpc, -⟩ | ⟨-, hedge⟩
  · rw [hpc] at hclosed
    obtain ⟨a, ha, hle⟩ := closedBefore_succ hclosed hi
    have hcut := hlive.2
    unfold Ins.cells at hcut
    rw [ha] at hcut
    dsimp only at hcut
    split at hcut
    · cases hcut
    · next hn => exact hn ⟨hle, hcut⟩
  · exact hedge.lands v hlive.1 hclosed

/-- What is in scope is not cut, but where a `continue` does it. -/
theorem Uncut.step (h : Sound fs) (hc : Confined fs s) (hu : Uncut fs s)
    (hs : Step fs.code s s') (hok : ContinueKeeps fs s s') : Uncut fs s' := by
  obtain ⟨i, t, hi, ht, hcell, -, hgo⟩ := h.step hs
  obtain ⟨i₀, hi₀, hconf⟩ := hc
  rw [hi] at hi₀
  cases hi₀
  intro t' ht' v hv hname hcut
  rw [ht] at ht'
  cases ht'
  rw [hcell, arrive_eq (by decide)] at hcut
  rcases cells_eq_closed hcut.2 with hold | ⟨a, ha, hle⟩
  · -- cut before: the instruction is the jump behind the `OP_CLOSE`
    have hset : s.cell v ≠ .unset := by rw [hold]; decide
    have hscope := hconf v hset
    have hbefore := hu i hi v hscope hname hold
    have hjmp := closedBefore_jmp hbefore hi
    rcases hgo with ⟨hf, -, -⟩ | ⟨htarget, hedge⟩
    · rw [hjmp] at hf
      cases hf
    · rcases hedge.enters with hcont | ⟨-, hclosed⟩
      · exact absurd hbefore (hok hcont i t hi ht htarget v hscope hv hname hset)
      · exact absurd hbefore (hclosed v hv)
  · -- cut here: the next instruction is that jump
    rcases hgo with ⟨-, hpc, hfollows⟩ | ⟨htarget, -⟩
    · rw [hpc] at ht ⊢
      rcases hfollows.closes a ha with hjmp | hbelow
      · exact ⟨s.pc, _, _, a, rfl, shape_getElem? hi, ha, shape_getElem? ht, hjmp, hle⟩
      · have hlt := hbelow v hv
        omega
    · unfold Ins.target at htarget
      rw [ha] at htarget
      cases htarget

/-- A `continue` that cuts a local which stays in scope leaves it cut. -/
theorem continueKeeps_of_uncut (h : Sound fs) (hc : Cut fs s) (hs : Step fs.code s s')
    (hu : Uncut fs s') : ContinueKeeps fs s s' := by
  obtain ⟨i, t, hi, ht, hcell, -, hgo⟩ := h.step hs
  intro _ i' t' hi' ht' _ v _ hv hname hset hbefore
  rw [hi] at hi'
  rw [ht] at ht'
  cases hi'
  cases ht'
  have hjmp := closedBefore_jmp hbefore hi
  have hcut : s.cell v = .closed := by
    cases hcase : s.cell v with
    | unset => exact absurd hcase hset
    | live => exact absurd hcase (hc v hbefore)
    | closed => rfl
  have hcut' : s'.cell v = .closed := by
    rw [hcell, arrive_eq (by decide), cells_jmp hjmp]
    exact ⟨hv, hcut⟩
  have hafter := hu t ht v hv hname hcut'
  rcases hgo with ⟨hf, -, -⟩ | ⟨-, hedge⟩
  · rw [hjmp] at hf
    cases hf
  · exact hedge.lands v hv hafter

/-- At the start nothing is closed. -/
theorem start_cell {params : List String} (v : Var) :
    (start params fs).cell v ≠ .closed := by
  unfold start
  dsimp only
  split <;> decide

/-- In a run, no local in scope is cut, but for the jumps that leave its block, exactly when
no `continue` that is taken cuts a local which is in scope at its target. -/
theorem scope_uncut_iff {params : List String} {c : Chunk} {ss : List State}
    (h : funcBody params c = .ok fs) (hrun : Lib.Run (Step fs.code) (start params fs) ss) :
    (∀ s ∈ start params fs :: ss, Uncut fs s) ↔
      Lib.Run (ContinueKeeps fs) (start params fs) ss := by
  have hsound := (funcBody_sound h).1
  have hstart : Uncut fs (start params fs) ∧ Confined fs (start params fs) ∧
      Cut fs (start params fs) := by
    refine ⟨fun _ _ v _ _ hcut => absurd hcut (start_cell v), (start_spec h).2, ?_⟩
    intro v ⟨p, _, _, _, hp, _⟩
    cases hp
  apply hrun.good_iff (fun s => Uncut fs s ∧ Confined fs s ∧ Cut fs s) hstart
  · intro s s' ⟨hu, hc, _⟩ hs hok
    exact ⟨hu.step hsound hc hs hok, Confined.step hsound hs, Cut.step hsound hs⟩
  · exact fun s s' hinv hs hu => continueKeeps_of_uncut hsound hinv.2.2 hs hu
  · exact fun s hinv => hinv.1

/-- `repeat local x; f = function() return x end until x`. -/
def captureLoop : Chunk :=
  .seq (.repeatstat (.seq (.localstat ["x"] []) (.seq (.exprstat ["x"]) .done)) (.test [])) .done

def captureLoopCode : FuncState where
  code := [⟨.decl [firstLocal], [], [], none⟩, ⟨.eval, [firstLocal], [firstLocal], none⟩,
    ⟨.test, [firstLocal], [], some 5⟩, ⟨.close 0, [firstLocal], [], none⟩,
    ⟨.jmp, [firstLocal], [], some 7⟩, ⟨.close 0, [], [], none⟩, ⟨.jmp, [], [], some 0⟩,
    ⟨.ret, [], [], none⟩]
  jpc := []
  nlocvars := 1
  actvar := []
  bl := []
  breaks := [4]
  continues := []

/-- One iteration, which the `break` of the condition leaves. -/
theorem scope_uncut_captureLoop : ∃ ss,
    ss.map (fun s => (s.pc, s.cell firstLocal)) =
      [(1, .live), (2, .live), (3, .live), (4, .closed), (7, .unset)] ∧
    ∀ s ∈ start [] captureLoopCode :: ss, Uncut captureLoopCode s := by
  have htrace : (trace captureLoopCode.code (start [] captureLoopCode) [1, 2, 3, 4, 7]).map
      (List.map fun s => (s.pc, s.cell firstLocal)) =
        some [(1, .live), (2, .live), (3, .live), (4, .closed), (7, .unset)] := by decide
  obtain ⟨ss, hrun, hmap⟩ := exists_run htrace
  have hcode : funcBody [] captureLoop = .ok captureLoopCode := by decide +kernel
  refine ⟨ss, hmap, (scope_uncut_iff hcode hrun).2 ?_⟩
  exact hrun.imp fun _ _ _ hcont => nomatch hcont

/-- `repeat local x; f = function() return x end; if c then continue end until x`. -/
def captureContinue : Chunk :=
  .seq (.repeatstat (.seq (.localstat ["x"] []) (.seq (.exprstat ["x"])
    (.seq (.ifstat (.test []) .continuestat .done) .done))) (.test [])) .done

def captureContinueCode : FuncState where
  code := [⟨.decl [firstLocal], [], [], none⟩, ⟨.eval, [firstLocal], [firstLocal], none⟩,
    ⟨.test, [firstLocal], [], some 5⟩, ⟨.close 0, [firstLocal], [], none⟩,
    ⟨.jmp, [firstLocal], [], some 5⟩, ⟨.test, [firstLocal], [], some 8⟩,
    ⟨.close 0, [firstLocal], [], none⟩, ⟨.jmp, [firstLocal], [], some 10⟩,
    ⟨.close 0, [], [], none⟩, ⟨.jmp, [], [], some 0⟩, ⟨.ret, [], [], none⟩]
  jpc := []
  nlocvars := 1
  actvar := []
  bl := []
  breaks := [7]
  continues := [4]

/-- The `OP_CLOSE` of the `continue` cuts `x`, which the condition reads. -/
theorem until_reads_cut_local :
    ¬ ∀ (params : List String) (c : Chunk) (fs : FuncState) (ss : List State),
      funcBody params c = .ok fs → Lib.Run (Step fs.code) (start params fs) ss →
        ∀ s ∈ start params fs :: ss, Uncut fs s := by
  intro hall
  have htrace : (trace captureContinueCode.code (start [] captureContinueCode)
      [1, 2, 3, 4, 5]).map (List.map fun s => (s.pc, s.cell firstLocal)) =
        some [(1, .live), (2, .live), (3, .live), (4, .closed), (5, .closed)] := by decide
  obtain ⟨ss, hrun, hmap⟩ := exists_run htrace
  have hcode : funcBody [] captureContinue = .ok captureContinueCode := by decide +kernel
  have hmem : ((5 : Nat), Cell.closed) ∈ ss.map fun s => (s.pc, s.cell firstLocal) := by
    rw [hmap]
    decide
  obtain ⟨s, hs, heq⟩ := List.mem_map.1 hmem
  rw [Prod.mk.injEq] at heq
  have hget : captureContinueCode.code[s.pc]? = some ⟨.test, [firstLocal], [], some 8⟩ := by
    rw [heq.1]
    rfl
  have hbefore := hall [] captureContinue captureContinueCode ss hcode hrun s
    (List.mem_cons_of_mem _ hs) _ hget firstLocal (List.mem_singleton.2 rfl) rfl heq.2
  exact nomatch closedBefore_jmp hbefore hget

/-! ## In time -/

/-- Where control leaves the scope of a local with an open upvalue it meets the instruction
that closes it, and as long as the local is in scope its register is not given to another. -/
def ClosedInTime (fs : FuncState) (s : State) : Prop :=
  ∀ t, fs.code[s.pc]? = some t → ∀ v, s.opens v ≠ [] →
    t.Covers v ∨ v ∈ t.scope ∧ ∀ w ∈ t.op.vars, w.reg ≠ v.reg

/-- No local gets a register that an open upvalue refers to. -/
def NotReused (fs : FuncState) (s : State) : Prop :=
  ∀ t, fs.code[s.pc]? = some t → ∀ w ∈ t.op.vars, ∀ v, s.opens v ≠ [] → w.reg ≠ v.reg

/-- If the step takes a jump of a `break` or `continue` to an instruction that does not close
what it leaves, the closures that hold a local it leaves stand before it in the program. -/
def JumpFollows (fs : FuncState) (s s' : State) : Prop :=
  s.pc ∈ fs.breaks ∨ s.pc ∈ fs.continues → ∀ i t, fs.code[s.pc]? = some i →
    fs.code[s'.pc]? = some t → i.target = some s'.pc → ∀ v ∈ i.scope, v ∉ t.scope →
      ¬ t.Covers v → ∀ p ∈ s.opens v, p < s.pc

/-- A local with an open upvalue is in scope, or closed by the instruction at hand. -/
structure Held (fs : FuncState) (s : State) : Prop where
  scope : ∀ t, fs.code[s.pc]? = some t → ∀ v, s.opens v ≠ [] →
    t.Covers v ∨ v ∈ t.scope ∧ ¬ ClosedBefore fs.shape s.pc v
  captures : ∀ v, ∀ p ∈ s.opens v, Captures fs.shape p v

theorem Ins.covers_close {i : Ins} {a : Nat} (h : i.op = .close a) {v : Var} :
    i.Covers v ↔ a ≤ v.reg := by
  simp [Ins.Covers, h]

/-- A register is not used again while it has an open upvalue. -/
theorem ClosedInTime.notReused (h : ClosedInTime fs s) : NotReused fs s := by
  intro t ht w hw v hopen
  rcases h t ht v hopen with hcovers | ⟨-, hregs⟩
  · rcases hcovers with hret | ⟨a, ha, -⟩
    · rw [hret] at hw
      cases hw
    · rw [ha] at hw
      cases hw
  · exact hregs w hw

theorem Held.closedInTime (h : Sound fs) (hh : Held fs s) : ClosedInTime fs s := by
  intro t ht v hopen
  refine (hh.scope t ht v hopen).imp_right fun ⟨hv, _⟩ => ⟨hv, fun w hw => ?_⟩
  have hlt := h.above s.pc t.shape (shape_getElem? ht) w hw v hv
  omega

/-- What the instruction adds to the open upvalues, and what it leaves of them. -/
theorem mem_captures {i : Ins} {opens : Var → List Nat} {q p : Nat} {v : Var}
    (h : p ∈ i.captures q opens v) :
    (∀ a, i.op = .close a → v.reg < a) ∧
      (p ∈ opens v ∨ p = q ∧ v ∈ i.caps ∧ i.op ≠ .jmp) := by
  unfold Ins.captures at h
  split at h
  · next a ha =>
    split at h
    · cases h
    · next hlt =>
      refine ⟨fun a' ha' => ?_, .inl h⟩
      rw [ha] at ha'
      cases ha'
      omega
  · next hop => exact ⟨fun a ha => (nomatch hop.symm.trans ha), .inl h⟩
  · next hop => exact ⟨fun a ha => (nomatch hop.symm.trans ha), .inl h⟩
  · next hclose hjmp hfor =>
    refine ⟨fun a ha => absurd ha (hclose a), ?_⟩
    split at h
    · next hcaps =>
      rcases List.mem_cons.1 h with rfl | hold
      · exact .inr ⟨rfl, hcaps, hjmp⟩
      · exact .inl hold
    · exact .inl h

/-- Only an `OP_CLOSE` closes upvalues. -/
theorem captures_of_mem {i : Ins} {opens : Var → List Nat} {q p : Nat} {v : Var}
    (h : p ∈ opens v) (hop : ∀ a, i.op ≠ .close a) : p ∈ i.captures q opens v := by
  unfold Ins.captures
  split
  · next a ha => exact absurd ha (hop a)
  · exact h
  · exact h
  · split
    · exact List.mem_cons_of_mem _ h
    · exact h

/-- Control goes on from an instruction that does not close the local. -/
theorem Held.held (h : Sound fs) (hh : Held fs s) {i : Ins} (hi : fs.code[s.pc]? = some i)
    (hret : i.op ≠ .ret) {v : Var} {p : Nat} (hp : p ∈ i.captures s.pc s.opens v) :
    v ∈ i.held ∧ ¬ i.Covers v ∧ ¬ ClosedBefore fs.shape s.pc v ∧ Captures fs.shape p v := by
  obtain ⟨hclose, hmem⟩ := mem_captures hp
  have hcovers : ¬ i.Covers v := by
    rintro (hop | ⟨a, ha, hle⟩)
    · exact hret hop
    · have hlt := hclose a ha
      omega
  rcases hmem with hold | ⟨rfl, hcaps, hjmp⟩
  · rcases hh.scope i hi v (List.ne_nil_of_mem hold) with hcov | ⟨hscope, hbefore⟩
    · exact absurd hcov hcovers
    · exact ⟨List.mem_append_left _ hscope, hcovers, hbefore, hh.captures v p hold⟩
  · refine ⟨(h.caps s.pc i.shape (shape_getElem? hi) v hcaps).1, hcovers, ?_, i.shape,
      shape_getElem? hi, hcaps⟩
    exact fun hbefore => hjmp (closedBefore_jmp hbefore hi)

/-- A step keeps what is held where its jump follows an `OP_CLOSE`. -/
theorem Held.step (h : Sound fs) (hh : Held fs s) (hs : Step fs.code s s')
    (hok : JumpFollows fs s s') : Held fs s' := by
  obtain ⟨i, t, hi, ht, -, hopens, hgo⟩ := h.step hs
  have hret : i.op ≠ .ret := by
    intro hop
    rcases hgo with ⟨hf, -, -⟩ | ⟨htarget, -⟩
    · rw [hop] at hf
      cases hf
    · unfold Ins.target at htarget
      rw [hop] at htarget
      cases htarget
  constructor
  · intro t' ht' v hopen
    rw [ht] at ht'
    cases ht'
    obtain ⟨p, hp⟩ := List.exists_mem_of_ne_nil _ hopen
    rw [hopens] at hp
    obtain ⟨hheld, hcovers, hbefore, hcap⟩ := hh.held h hi hret hp
    by_cases hcov : t.Covers v
    · exact .inl hcov
    right
    rcases hgo with ⟨hf, hpc, hfollows⟩ | ⟨htarget, hedge⟩
    · have hscope : v ∈ t.scope := by
        by_contra hv
        rcases (hfollows.enters hf).2 v hheld hv with hc | hfree
        · exact hcov hc
        · exact hfree.2.2 p hcap
      refine ⟨hscope, fun hclosed => ?_⟩
      rw [hpc] at hclosed
      obtain ⟨a, ha, hle⟩ := closedBefore_succ hclosed hi
      exact hcovers ((Ins.covers_close ha).2 hle)
    · have hscope : v ∈ t.scope := by
        by_contra hv
        rcases hedge.leaves v hheld hv with hc | hclosed | ⟨hmem, hlater⟩ | hfree
        · exact hcov hc
        · exact hbefore hclosed
        · -- the closure stands behind the jump, so the condition rules it out
          have hlt := hlater p hcap
          rcases (mem_captures hp).2 with hold | ⟨rfl, -⟩
          · rcases hh.scope i hi v (List.ne_nil_of_mem hold) with hc | ⟨hin, -⟩
            · exact hcovers hc
            · have hgt := hok hmem i t hi ht htarget v hin hv hcov p hold
              omega
          · omega
        · exact hfree.2.2 p hcap
      exact ⟨hscope, hedge.lands v hscope⟩
  · intro v p hp
    rw [hopens] at hp
    exact (hh.held h hi hret hp).2.2.2

/-- A jump that leaves a local open leaves it open behind it. -/
theorem jumpFollows_of_closedInTime (hs : Step fs.code s s') (hc : ClosedInTime fs s') :
    JumpFollows fs s s' := by
  obtain ⟨i, t, hi, ht, -, -, hopens⟩ := step_spec hs
  intro _ i' t' hi' ht' htarget v _ hv hcov p hp
  rw [hi] at hi'
  rw [ht] at ht'
  cases hi'
  cases ht'
  have hnot : ∀ a, i.op ≠ .close a := by
    intro a ha
    unfold Ins.target at htarget
    rw [ha] at htarget
    cases htarget
  have hopen := captures_of_mem (q := s.pc) hp hnot
  rw [← hopens] at hopen
  rcases hc t ht v (List.ne_nil_of_mem hopen) with hcovers | ⟨hscope, -⟩
  · exact absurd hcovers hcov
  · exact absurd hscope hv

/-- In a run, a captured local is closed as soon as control leaves its scope exactly when the
closures that hold a local which a `break` or `continue` leaves stand before that jump in the
program. -/
theorem captured_closed_iff {params : List String} {c : Chunk} {ss : List State}
    (h : funcBody params c = .ok fs) (hrun : Lib.Run (Step fs.code) (start params fs) ss) :
    (∀ s ∈ start params fs :: ss, ClosedInTime fs s ∧ NotReused fs s) ↔
      Lib.Run (JumpFollows fs) (start params fs) ss := by
  have hsound := (funcBody_sound h).1
  have hstart : Held fs (start params fs) :=
    ⟨fun _ _ v hopen => absurd rfl hopen, fun v p hp => (nomatch hp)⟩
  apply hrun.good_iff (Held fs) hstart
  · exact fun s s' hinv hs hok => hinv.step hsound hs hok
  · exact fun s s' _ hs hgood => jumpFollows_of_closedInTime hs hgood.1
  · intro s hinv
    have hclosed := hinv.closedInTime hsound
    exact ⟨hclosed, hclosed.notReused⟩

/-- The `OP_CLOSE` of the `break` in the condition closes `x`. -/
theorem captured_closed_captureLoop : ∃ ss,
    ss.map (fun s => (s.pc, s.opens firstLocal)) = [(1, []), (2, [1]), (3, [1]), (4, []), (7, [])] ∧
    ∀ s ∈ start [] captureLoopCode :: ss,
      ClosedInTime captureLoopCode s ∧ NotReused captureLoopCode s := by
  have htrace : (trace captureLoopCode.code (start [] captureLoopCode) [1, 2, 3, 4, 7]).map
      (List.map fun s => (s.pc, s.opens firstLocal)) =
        some [(1, []), (2, [1]), (3, [1]), (4, []), (7, [])] := by decide
  obtain ⟨ss, hrun, hmap⟩ := exists_run htrace
  have hcode : funcBody [] captureLoop = .ok captureLoopCode := by decide +kernel
  refine ⟨ss, hmap, (captured_closed_iff hcode hrun).2 ?_⟩
  have hopens : ∀ s ∈ start [] captureLoopCode :: ss, s.pc = 4 → s.opens firstLocal = [] := by
    intro s hs hpc
    have hobs : (s.pc, s.opens firstLocal) ∈
        (start [] captureLoopCode :: ss).map fun s => (s.pc, s.opens firstLocal) :=
      List.mem_map_of_mem hs
    rw [List.map_cons, hmap, hpc] at hobs
    simpa [start] using hobs
  refine hrun.imp_of_mem_imp fun s s' hs _ _ hjump i t hi _ _ v hv _ _ p hp => ?_
  have hpc : s.pc = 4 := by simpa [captureLoopCode] using hjump
  rw [hpc] at hi
  cases hi
  rw [List.mem_singleton.1 hv, hopens s hs hpc] at hp
  cases hp

/-- `while a do local x; while b do if c then break 2 end; f = function() return x end end end;
local y`. -/
def breakTwice : Chunk :=
  .seq (.whilestat (.test []) (.seq (.localstat ["x"] [])
    (.seq (.whilestat (.test []) (.seq (.ifstat (.test []) (.breakstat 2) .done)
      (.seq (.exprstat ["x"]) .done))) .done)))
    (.seq (.localstat ["y"] []) .done)

def breakTwiceCode : FuncState where
  code := [⟨.test, [], [], some 9⟩, ⟨.decl [firstLocal], [], [], none⟩,
    ⟨.test, [firstLocal], [], some 7⟩, ⟨.test, [firstLocal], [], some 5⟩,
    ⟨.jmp, [firstLocal], [], some 9⟩, ⟨.eval, [firstLocal], [firstLocal], none⟩,
    ⟨.jmp, [firstLocal], [], some 2⟩, ⟨.close 0, [], [], none⟩, ⟨.jmp, [], [], some 0⟩,
    ⟨.decl [⟨some "y", 1, 0⟩], [], [], none⟩, ⟨.ret, [], [], none⟩]
  jpc := []
  nlocvars := 2
  actvar := []
  bl := []
  breaks := [4]
  continues := []

/-- The `break 2` stands before the closure and runs after it: `y` gets the register of `x`,
which the closure still refers to. -/
theorem break_leaves_upvalue_open :
    ¬ ∀ (params : List String) (c : Chunk) (fs : FuncState) (ss : List State),
      funcBody params c = .ok fs → Lib.Run (Step fs.code) (start params fs) ss →
        ∀ s ∈ start params fs :: ss, NotReused fs s := by
  intro hall
  have htrace : (trace breakTwiceCode.code (start [] breakTwiceCode)
      [1, 2, 3, 5, 6, 2, 3, 4, 9]).map (List.map fun s => (s.pc, s.opens firstLocal)) =
        some [(1, []), (2, []), (3, []), (5, []), (6, [5]), (2, [5]), (3, [5]), (4, [5]),
          (9, [5])] := by decide
  obtain ⟨ss, hrun, hmap⟩ := exists_run htrace
  have hcode : funcBody [] breakTwice = .ok breakTwiceCode := by decide +kernel
  have hmem : ((9 : Nat), [5]) ∈ ss.map fun s => (s.pc, s.opens firstLocal) := by
    rw [hmap]
    decide
  obtain ⟨s, hs, heq⟩ := List.mem_map.1 hmem
  rw [Prod.mk.injEq] at heq
  have hget : breakTwiceCode.code[s.pc]? = some ⟨.decl [⟨some "y", 1, 0⟩], [], [], none⟩ := by
    rw [heq.1]
    rfl
  have hregs := hall [] breakTwice breakTwiceCode ss hcode hrun s (List.mem_cons_of_mem _ hs) _
    hget _ (List.mem_singleton.2 rfl) firstLocal (by rw [heq.2]; decide)
  exact hregs rfl

end LuaFltk.Compiler
