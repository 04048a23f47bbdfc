import LuaFltk.Compiler.Scoped
import LuaFltk.Lib.Run

/-!
# Running the code

A run goes from instruction to instruction. What the expressions compute is left open, so a
test may go either way. The state keeps, for each local, its cell: whether the local has
been initialised since it came into scope, and whether an `OP_CLOSE` has cut the cell from
the register since then; and the instructions whose closures hold the cell as an open
upvalue.
-/

namespace LuaFltk.Compiler

inductive Cell where
  /-- Not in scope, or not initialised since it is. -/
  | unset
  /-- The value is in the register of the local. -/
  | live
  /-- An `OP_CLOSE` that covers the register was executed since the declaration. -/
  | closed
  deriving DecidableEq, Repr

structure State where
  pc : Nat
  cell : Var → Cell
  opens : Var → List Nat

/-- The cells behind an instruction. -/
def Ins.cells (i : Ins) (cell : Var → Cell) (v : Var) : Cell :=
  match i.op with
  | .decl vars | .forloop vars => if v ∈ vars then .live else cell v
  | .close a => if a ≤ v.reg ∧ cell v = .live then .closed else cell v
  | _ => cell v

/-- The open upvalues behind the instruction at `p`: `luaF_findupval` for what it captures,
`luaF_close` for an `OP_CLOSE`. -/
def Ins.captures (i : Ins) (p : Nat) (opens : Var → List Nat) (v : Var) : List Nat :=
  match i.op with
  | .close a => if a ≤ v.reg then [] else opens v
  | .jmp | .forloop _ => opens v
  | _ => if v ∈ i.caps then p :: opens v else opens v

/-- The target of a jump. -/
def Ins.target (i : Ins) : Option Nat :=
  match i.op with
  | .test | .jmp | .forloop _ => i.dest
  | _ => none

/-- Where control can go from the instruction at `p`. -/
def Ins.next (i : Ins) (p : Nat) : List Nat :=
  (if i.op.falls then [p + 1] else []) ++ i.target.toList

/-- Locals that are not in scope at an instruction have no cell there. -/
def Ins.arrive (t : Ins) (cell : Var → Cell) (v : Var) : Cell :=
  if v ∈ t.scope then cell v else .unset

/-- Execute one instruction and go on to the position `d`. -/
def exec (code : List Ins) (s : State) (d : Nat) : Option State := do
  let i ← code[s.pc]?
  let t ← code[d]?
  if d ∈ i.next s.pc then
    some ⟨d, t.arrive (i.cells s.cell), i.captures s.pc s.opens⟩
  else
    none

def Step (code : List Ins) (s s' : State) : Prop := exec code s s'.pc = some s'

/-- The call of a function: its parameters are initialised. -/
def start (params : List String) (fs : FuncState) : State where
  pc := 0
  cell v := if v ∈ (fs.code.head?.map (·.scope)).getD [] ∧
    v ∈ (params.map some).mapIdx (fun i name => (⟨name, i, i⟩ : Var)) then .live else .unset
  opens _ := []

/-- Execute the code along the given positions. -/
def trace (code : List Ins) (s : State) : List Nat → Option (List State)
  | [] => some []
  | d :: ds => do
    let s' ← exec code s d
    let ss ← trace code s' ds
    some (s' :: ss)

/-- The target is where the run goes on. -/
theorem exec_pc {code : List Ins} {s s' : State} {d : Nat} (h : exec code s d = some s') :
    s'.pc = d := by
  unfold exec at h
  cases hi : code[s.pc]? with
  | none => rw [hi] at h; cases h
  | some i =>
    cases ht : code[d]? with
    | none => rw [hi, ht] at h; cases h
    | some t =>
      rw [hi, ht] at h
      dsimp only [bind, Option.bind] at h
      split at h
      · cases h
        rfl
      · cases h

/-- Targets that can be taken make a run. -/
theorem trace_run {code : List Ins} {s : State} {ds : List Nat} {ss : List State}
    (h : trace code s ds = some ss) : Lib.Run (Step code) s ss := by
  induction ds generalizing s ss with
  | nil =>
    cases h
    exact .singleton s
  | cons d ds ih =>
    unfold trace at h
    cases he : exec code s d with
    | none => rw [he] at h; cases h
    | some s' =>
      cases ht : trace code s' ds with
      | none => rw [he] at h; simp [ht] at h
      | some rest =>
        rw [he] at h
        simp only [ht, bind, Option.bind, Option.some.injEq] at h
        subst h
        refine List.isChain_cons_cons.2 ⟨?_, ih ht⟩
        unfold Step
        rw [exec_pc he]
        exact he

/-- A run with given observations, from a trace that shows them. -/
theorem exists_run {β : Type} {code : List Ins} {s : State} {ds : List Nat} {f : State → β}
    {l : List β} (h : (trace code s ds).map (List.map f) = some l) :
    ∃ ss, Lib.Run (Step code) s ss ∧ ss.map f = l := by
  obtain ⟨ss, hss, hmap⟩ := Option.map_eq_some_iff.1 h
  exact ⟨ss, trace_run hss, hmap⟩

/-- All that a step can do. -/
theorem step_spec {code : List Ins} {s s' : State} (h : Step code s s') :
    ∃ i t, code[s.pc]? = some i ∧ code[s'.pc]? = some t ∧
      (i.op.falls ∧ s'.pc = s.pc + 1 ∨ i.target = some s'.pc) ∧
      s'.cell = t.arrive (i.cells s.cell) ∧ s'.opens = i.captures s.pc s.opens := by
  unfold Step exec at h
  cases hi : code[s.pc]? with
  | none => rw [hi] at h; cases h
  | some i =>
    cases ht : code[s'.pc]? with
    | none => rw [hi, ht] at h; cases h
    | some t =>
      rw [hi, ht] at h
      dsimp only [bind, Option.bind] at h
      split at h
      · next hnext =>
        have hs := Option.some.inj h
        refine ⟨i, t, rfl, rfl, ?_, by rw [← hs], by rw [← hs]⟩
        unfold Ins.next at hnext
        rcases List.mem_append.1 hnext with hf | hd
        · split at hf
          · next hfalls => exact .inl ⟨hfalls, List.mem_singleton.1 hf⟩
          · cases hf
        · exact .inr (Option.mem_toList.1 hd)
      · cases h

variable {fs : FuncState}

theorem shape_getElem? {q : Nat} {i : Ins} (h : fs.code[q]? = some i) :
    fs.shape[q]? = some i.shape := by
  rw [FuncState.shape, List.getElem?_map, h]
  rfl

theorem target_dest {i : Ins} {d : Nat} (h : i.target = some d) :
    i.dest = some d ∧ (i.op = .test ∨ i.op = .jmp ∨ ∃ vars, i.op = .forloop vars) := by
  unfold Ins.target at h
  split at h
  · next hop => exact ⟨h, .inl hop⟩
  · next hop => exact ⟨h, .inr (.inl hop)⟩
  · next vars hop => exact ⟨h, .inr (.inr ⟨vars, hop⟩)⟩
  · cases h

/-- A step of code that was compiled: it falls on to the next instruction, or takes a jump
to an instruction that the jump may enter. -/
theorem Sound.step (h : Sound fs) {s s' : State} (hs : Step fs.code s s') :
    ∃ i t, fs.code[s.pc]? = some i ∧ fs.code[s'.pc]? = some t ∧
      s'.cell = t.arrive (i.cells s.cell) ∧ s'.opens = i.captures s.pc s.opens ∧
      (i.op.falls ∧ s'.pc = s.pc + 1 ∧ Follows fs i.shape t.shape ∨
        i.target = some s'.pc ∧ Edge fs s.pc s'.pc i.shape t.shape) := by
  obtain ⟨i, t, hi, ht, hgo, hcell, hopens⟩ := step_spec hs
  refine ⟨i, t, hi, ht, hcell, hopens, ?_⟩
  rcases hgo with ⟨hf, hpc⟩ | hd
  · refine .inl ⟨hf, hpc, h.flow s.pc i.shape t.shape (shape_getElem? hi) ?_⟩
    rw [← hpc]
    exact shape_getElem? ht
  · obtain ⟨t', ht', hedge⟩ := h.jumps s.pc i s'.pc hi (target_dest hd).1
    rw [shape_getElem? ht] at ht'
    cases ht'
    exact .inr ⟨hd, hedge⟩

end LuaFltk.Compiler
