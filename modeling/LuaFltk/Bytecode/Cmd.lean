import LuaFltk.Bytecode.CheckCode

/-!
# What the verifier guarantees for `OP_CMD`

`OP_CMD` is the opcode this interpreter adds for `case` statements. The verifier treats it
with the generic operand checks of its row in `luaP_opmodes` and has no case of its own
for it in `symbexec`. This file runs one `OP_CMD` on an accepted prototype, with every
assumption of `luaV_execute` turned into a fault, and determines when no fault is possible.
-/

namespace LuaFltk.Bytecode

open OpMode OpArgMask Instruction

variable {N : Type}

/-- The comparison loop of `CMD_CASE`, `for (j=1; j<nargs; j++)` with `n` turns left: the
value of `flag` after it. `equalobj` compares two registers. -/
def cmdCaseLoop {m : Type → Type} [Monad m] (equalobj : Nat → Nat → m Bool) (ra : Nat) :
    Nat → Nat → m Bool
  | 0, _ => pure true
  | n + 1, j => do
    if ← equalobj ra (ra + j) then pure false else cmdCaseLoop equalobj ra n (j + 1)

/-- The ways an `OP_CMD` can break an assumption of `luaV_execute`: a sub-command that
makes it return in the middle of the function, a register outside the frame, a jump offset
read from a word that is no `OP_JMP`. -/
inductive CmdFault where
  | leaves (c : Nat)
  | frame (reg : Nat)
  | offset (pc : Nat)
  deriving DecidableEq, Repr

/-- `equalobj` on two registers of the frame of `pt`; `equal` says which registers hold
equal values. -/
def equalRegs (pt : Proto N) (equal : Nat → Nat → Bool) (left right : Nat) :
    Except CmdFault Bool :=
  if pt.maxstacksize ≤ left then .error (.frame left)
  else if pt.maxstacksize ≤ right then .error (.frame right)
  else .ok (equal left right)

/-- `GETARG_sBx(*pc)`. -/
def jumpOffset (pt : Proto N) (pc : Nat) : Except CmdFault Int :=
  match pt.code[pc]? with
  | none => .error (.offset pc)
  | some w => if w.GET_OPCODE = OP_JMP then .ok w.GETARG_sBx else .error (.offset pc)

/-- The case `OP_CMD` of `luaV_execute` for the instruction `i` at position `pc`: the
position where execution goes on. -/
def execCmd (pt : Proto N) (equal : Nat → Nat → Bool) (pc : Nat) (i : Instruction) :
    Except CmdFault Int :=
  let nargs := i.GETARG_B
  if i.GETARG_C = CMD_CASE then do
    let flag ← cmdCaseLoop (equalRegs pt equal) i.GETARG_A (nargs - 1) 1
    if flag then return (pc + 1) + (← jumpOffset pt (pc + 1)) + 1
    else return (pc + 1) + 1
  else .error (.leaves i.GETARG_C)

/-- The positions that hold instructions: all but the counts that follow an `OP_SETLIST`
with `C = 0`. -/
inductive IsInstr (code : List Instruction) : Nat → Prop where
  | entry : IsInstr code 0
  | next {pc : Nat} {i : Instruction} : IsInstr code pc → code[pc]? = some i →
      ¬ (i.GET_OPCODE = OP_SETLIST ∧ i.GETARG_C = 0) → IsInstr code (pc + 1)
  | count {pc : Nat} {i : Instruction} : IsInstr code pc → code[pc]? = some i →
      i.GET_OPCODE = OP_SETLIST ∧ i.GETARG_C = 0 → IsInstr code (pc + 2)

/-- Executing the instruction `i` at `pc` never faults and goes on inside the function,
whatever the registers hold. -/
def CmdSafe (pt : Proto N) (pc : Nat) (i : Instruction) : Prop :=
  ∀ equal, ∃ pc', execCmd pt equal pc i = .ok pc' ∧ 0 ≤ pc' ∧ pc' < pt.sizecode

/-- The tests `symbexec` makes for the opcodes that work like `OP_CMD` and does not make for
`OP_CMD`: the operand that selects the operation is one of its enumeration, the last
register is in the frame (as for `OP_CALL`), and the next instruction is a jump (as for the
test instructions). -/
def cmdTests (pt : Proto N) (pc : Nat) (i : Instruction) : Bool :=
  i.GETARG_C == CMD_CASE &&
  (i.GETARG_B == 0 || decide (i.GETARG_A + i.GETARG_B - 1 < pt.maxstacksize)) &&
  (pt.code[pc + 1]?.any fun w => w.GET_OPCODE == OP_JMP)

/-! ## The scan of an accepted prototype -/

/-- Everything one turn of `symbexec` has checked when it goes on. -/
theorem symbexecStep_inv {pt : Proto N} {lastpc reg pc last : Nat} {r : Nat × Nat}
    {i : Instruction} (hi : pt.code[pc]? = some i)
    (h : symbexecStep pt lastpc reg pc last = some r) :
    i.GET_OPCODE.defined = true ∧ i.GETARG_A < pt.maxstacksize ∧
      (testTMode i.GET_OPCODE = true → checkSkip pt pc = some ()) ∧
      ∃ b c last', checkOperands pt pc i = some (b, c) ∧
        checkOp pt lastpc reg pc i.GET_OPCODE i.GETARG_A b c last' = some r := by
  simp only [symbexecStep, hi, Option.bind_eq_bind, Option.bind_eq_some_iff, check_eq_some,
    checkreg_eq_some] at h
  obtain ⟨-, hdef, -, ha, ⟨b, c⟩, hops, h⟩ := h
  refine ⟨hdef, by omega, ?_, b, c,
    if testAMode i.GET_OPCODE ∧ i.GETARG_A = reg then pc else last, hops, ?_⟩
  · intro ht
    simp only [ht, ↓reduceIte, Option.bind_eq_some_iff] at h
    exact h.choose_spec.1
  · split at h
    · simp only [Option.bind_eq_some_iff] at h
      exact h.choose_spec.2
    · exact h

/-- The operands of an `iABC` instruction, when they pass. -/
theorem checkOperands_iABC {pt : Proto N} {pc : Nat} {i : Instruction} {b c : Int}
    (hm : getOpMode i.GET_OPCODE = iABC) (h : checkOperands pt pc i = some (b, c)) :
    b = i.GETARG_B ∧ c = i.GETARG_C := by
  simp only [checkOperands, hm, Option.bind_eq_bind, Option.bind_eq_some_iff] at h
  obtain ⟨-, -, -, -, h⟩ := h
  simpa [eq_comm] using h

/-- When `symbexec` checks a whole function it moves over one extra word exactly at an
`OP_SETLIST` with `C = 0`. -/
theorem checkOp_next {pt : Proto N} {lastpc pc last a : Nat} {op : OpCode} {b c : Int}
    {r : Nat × Nat} (h : checkOp pt lastpc NO_REG pc op a b c last = some r) :
    r.1 = if op = OP_SETLIST ∧ c = 0 then pc + 1 else pc := by
  cases op
  case OP_SETLIST =>
    simp only [checkOp] at h
    split at h <;> split at h <;> simp_all [Option.bind_eq_some_iff] <;> grind
  case OP_CLOSURE =>
    simp only [checkOp] at h
    split at h <;> simp_all [Option.bind_eq_some_iff]; grind
  all_goals
    simp only [checkOp] at h
    grind [Option.bind_eq_some_iff]

/-- Where one turn of `symbexec` goes when it checks a whole function. -/
theorem symbexecStep_next {pt : Proto N} {lastpc pc last : Nat} {r : Nat × Nat}
    {i : Instruction} (hi : pt.code[pc]? = some i)
    (h : symbexecStep pt lastpc NO_REG pc last = some r) :
    r.1 = if i.GET_OPCODE = OP_SETLIST ∧ i.GETARG_C = 0 then pc + 1 else pc := by
  obtain ⟨-, -, -, b, c, last', hops, hop⟩ := symbexecStep_inv hi h
  rw [checkOp_next hop]
  by_cases ho : i.GET_OPCODE = OP_SETLIST
  · obtain ⟨-, hc⟩ := checkOperands_iABC (by rw [ho]; rfl) hops
    simp [ho, hc]
  · simp [ho]

/-- A scan that ends well has made the turn at every instruction it still had to visit. -/
theorem symbexecLoop_visits {pt : Proto N} {fuel pc last : Nat} {r : Instruction}
    (h : symbexecLoop pt pt.sizecode NO_REG (fuel + 1) pc last = some r)
    (hpc : pc < pt.sizecode) :
    ∃ res, symbexecStep pt pt.sizecode NO_REG pc last = some res ∧
      symbexecLoop pt pt.sizecode NO_REG fuel (res.1 + 1) res.2 = some r := by
  simp only [symbexecLoop, hpc, ↓reduceIte] at h
  cases hs : symbexecStep pt pt.sizecode NO_REG pc last with
  | none => simp [hs] at h
  | some res => exact ⟨res, rfl, by simpa [hs] using h⟩

/-- The accepted prototype passed `precheck` and the scan from its first instruction. -/
theorem luaG_checkcode_inv {pt : Proto N} (h : luaG_checkcode pt = true) :
    precheck pt = some () ∧
      ∃ r, symbexecLoop pt pt.sizecode NO_REG pt.sizecode 0 (pt.sizecode - 1) = some r := by
  unfold luaG_checkcode symbexec at h
  cases hp : precheck pt with
  | none => simp [hp] at h
  | some u =>
    cases hl : symbexecLoop pt pt.sizecode NO_REG pt.sizecode 0 (pt.sizecode - 1) with
    | none => simp [hp, hl] at h
    | some r => exact ⟨rfl, r, rfl⟩

/-- The scan of an accepted prototype reaches every instruction with turns to spare. -/
theorem scan_at {pt : Proto N} (h : luaG_checkcode pt = true) {pc : Nat}
    (hpc : IsInstr pt.code pc) :
    pc ≤ pt.sizecode → ∃ fuel last r, pt.sizecode ≤ fuel + pc ∧
      symbexecLoop pt pt.sizecode NO_REG fuel pc last = some r := by
  induction hpc with
  | entry =>
    obtain ⟨-, r, hr⟩ := luaG_checkcode_inv h
    exact fun _ => ⟨pt.sizecode, _, r, by omega, hr⟩
  | @next pc i _ hi hop ih =>
    intro hle
    have hlt : pc < pt.sizecode := (List.getElem?_eq_some_iff.1 hi).1
    obtain ⟨fuel, last, r, hf, hl⟩ := ih (Nat.le_of_lt hlt)
    obtain ⟨fuel, rfl⟩ : ∃ k, fuel = k + 1 := ⟨fuel - 1, by omega⟩
    obtain ⟨res, hs, hl⟩ := symbexecLoop_visits hl hlt
    rw [symbexecStep_next hi hs, if_neg hop] at hl
    exact ⟨fuel, _, r, by omega, hl⟩
  | @count pc i _ hi hop ih =>
    intro hle
    have hlt : pc < pt.sizecode := (List.getElem?_eq_some_iff.1 hi).1
    obtain ⟨fuel, last, r, hf, hl⟩ := ih (Nat.le_of_lt hlt)
    obtain ⟨fuel, rfl⟩ : ∃ k, fuel = k + 1 := ⟨fuel - 1, by omega⟩
    obtain ⟨res, hs, hl⟩ := symbexecLoop_visits hl hlt
    rw [symbexecStep_next hi hs, if_pos hop] at hl
    exact ⟨fuel, _, r, by omega, hl⟩

/-- Every instruction of an accepted prototype passed its turn of the scan. -/
theorem accepted_step {pt : Proto N} (h : luaG_checkcode pt = true) {pc : Nat}
    {i : Instruction} (hpc : IsInstr pt.code pc) (hi : pt.code[pc]? = some i) :
    ∃ last res, symbexecStep pt pt.sizecode NO_REG pc last = some res := by
  have hlt : pc < pt.sizecode := (List.getElem?_eq_some_iff.1 hi).1
  obtain ⟨fuel, last, r, hf, hl⟩ := scan_at h hpc (Nat.le_of_lt hlt)
  obtain ⟨fuel, rfl⟩ : ∃ k, fuel = k + 1 := ⟨fuel - 1, by omega⟩
  obtain ⟨res, hs, -⟩ := symbexecLoop_visits hl hlt
  exact ⟨last, res, hs⟩

/-- The last instruction of an accepted prototype is an `OP_RETURN`. -/
theorem accepted_last {pt : Proto N} (h : luaG_checkcode pt = true) :
    ∃ i, pt.code[pt.sizecode - 1]? = some i ∧ i.GET_OPCODE = OP_RETURN := by
  have hp := (luaG_checkcode_inv h).1
  simp only [precheck, Option.bind_eq_bind, Option.bind_eq_some_iff, check_eq_some] at hp
  obtain ⟨-, -, -, -, -, -, -, -, -, -, hp⟩ := hp
  cases hl : pt.code.getLast? with
  | none => simp [hl] at hp
  | some i => exact ⟨i, by rw [← hl, List.getLast?_eq_getElem?]; rfl, by simpa [hl] using hp⟩

/-- The target of a jump of an accepted prototype lies in its code. -/
theorem accepted_jump {pt : Proto N} (h : luaG_checkcode pt = true) {pc : Nat}
    {i : Instruction} (hpc : IsInstr pt.code pc) (hi : pt.code[pc]? = some i)
    (ho : i.GET_OPCODE = OP_JMP) :
    0 ≤ (pc : Int) + 1 + i.GETARG_sBx ∧ (pc : Int) + 1 + i.GETARG_sBx < pt.sizecode := by
  obtain ⟨last, res, hs⟩ := accepted_step h hpc hi
  obtain ⟨-, -, -, b, c, -, hops, -⟩ := symbexecStep_inv hi hs
  simp [checkOperands, ho, getOpMode, getBMode, luaP_opmodes, Option.bind_eq_some_iff] at hops
  exact hops.1.1

/-! ## Running the comparison loop -/

section Loop

variable {pt : Proto N} {equal : Nat → Nat → Bool} {ra : Nat}

/-- Inside the frame the loop always ends with a value of `flag`. -/
theorem cmdCaseLoop_ok (n j : Nat) (h : ra + j + n ≤ pt.maxstacksize) (hra : 1 ≤ j) :
    ∃ flag, cmdCaseLoop (equalRegs pt equal) ra n j = .ok flag := by
  induction n generalizing j with
  | zero => exact ⟨true, rfl⟩
  | succ n ih =>
    have hl : ¬ pt.maxstacksize ≤ ra := by omega
    have hr : ¬ pt.maxstacksize ≤ ra + j := by omega
    obtain ⟨flag, hf⟩ := ih (j + 1) (by omega) (by omega)
    cases he : equal ra (ra + j) with
    | true => exact ⟨false, by simp [cmdCaseLoop, equalRegs, hl, hr, he]; rfl⟩
    | false => exact ⟨flag, by simp [cmdCaseLoop, equalRegs, hl, hr, he]; exact hf⟩

/-- With no two registers equal the loop reaches its end only inside the frame. -/
theorem cmdCaseLoop_frame (n j : Nat) (flag : Bool)
    (h : cmdCaseLoop (equalRegs pt fun _ _ => false) ra n j = .ok flag) :
    flag = true ∧ (n = 0 ∨ ra + j + n ≤ pt.maxstacksize) := by
  induction n generalizing j with
  | zero => simpa [cmdCaseLoop, pure, Except.pure, eq_comm] using h
  | succ n ih =>
    by_cases hr : pt.maxstacksize ≤ ra + j
    · by_cases hl : pt.maxstacksize ≤ ra <;>
        simp [cmdCaseLoop, equalRegs, hl, hr, bind, Except.bind] at h
    · have hl : ¬ pt.maxstacksize ≤ ra := by omega
      obtain ⟨rfl, hn⟩ := ih (j + 1)
        (by simpa [cmdCaseLoop, equalRegs, hl, hr, bind, Except.bind] using h)
      exact ⟨rfl, by omega⟩

end Loop

/-! ## When `OP_CMD` is safe -/

/-- An `OP_CMD` of an accepted prototype is safe exactly when it passes the tests that
`symbexec` leaves out. What the checker does test (the operands as registers, the jumps,
the final `OP_RETURN`) supplies the rest. -/
theorem cmdSafe_iff_tests {pt : Proto N} (h : luaG_checkcode pt = true) {pc : Nat}
    {i : Instruction} (hpc : IsInstr pt.code pc) (hi : pt.code[pc]? = some i)
    (ho : i.GET_OPCODE = OP_CMD) : CmdSafe pt pc i ↔ cmdTests pt pc i = true := by
  obtain ⟨last, res, hs⟩ := accepted_step h hpc hi
  have ha : i.GETARG_A < pt.maxstacksize := (symbexecStep_inv hi hs).2.1
  constructor
  · intro hsafe
    obtain ⟨pc', hrun, -, -⟩ := hsafe fun _ _ => false
    by_cases hc : i.GETARG_C = CMD_CASE
    · simp only [execCmd, hc, ↓reduceIte] at hrun
      cases hl : cmdCaseLoop (equalRegs pt fun _ _ => false) i.GETARG_A (i.GETARG_B - 1) 1 with
      | error e => simp [hl, bind, Except.bind] at hrun
      | ok flag =>
        obtain ⟨rfl, hframe⟩ := cmdCaseLoop_frame _ _ _ hl
        simp only [hl, bind, Except.bind, ↓reduceIte, jumpOffset] at hrun
        have hjmp : (pt.code[pc + 1]?.any fun w => w.GET_OPCODE == OP_JMP) = true := by
          cases hw : pt.code[pc + 1]? with
          | none => simp [hw] at hrun
          | some w =>
            by_cases hj : w.GET_OPCODE = OP_JMP
            · simpa using hj
            · simp [hw, hj] at hrun
        have hlast : i.GETARG_B = 0 ∨ i.GETARG_A + i.GETARG_B - 1 < pt.maxstacksize := by omega
        simp only [cmdTests, hc, hjmp, Bool.and_eq_true, Bool.or_eq_true, beq_iff_eq,
          decide_eq_true_eq]
        exact ⟨⟨trivial, hlast⟩, trivial⟩
    · simp [execCmd, hc] at hrun
  · intro htests equal
    simp only [cmdTests, Bool.and_eq_true, Bool.or_eq_true, beq_iff_eq, decide_eq_true_eq,
      Option.any_eq_true] at htests
    obtain ⟨⟨hc, hlast⟩, w, hw, hj⟩ := htests
    have hnext : IsInstr pt.code (pc + 1) := .next hpc hi (by simp [ho])
    have hwlt : pc + 1 < pt.sizecode := (List.getElem?_eq_some_iff.1 hw).1
    -- the jump is not the final `OP_RETURN`, so there is an instruction to skip to
    have hskip : pc + 2 < pt.sizecode := by
      obtain ⟨l, hl, hret⟩ := accepted_last h
      by_contra hge
      have he : pt.sizecode - 1 = pc + 1 := by omega
      rw [he, hw] at hl
      cases hl
      simp [hj] at hret
    have hflag : ∃ flag, cmdCaseLoop (equalRegs pt equal) i.GETARG_A (i.GETARG_B - 1) 1 =
        .ok flag := by
      by_cases hb : i.GETARG_B ≤ 1
      · exact ⟨true, by rw [show i.GETARG_B - 1 = 0 by omega]; rfl⟩
      · exact cmdCaseLoop_ok _ _ (by omega) (by omega)
    obtain ⟨flag, hflag⟩ := hflag
    cases flag with
    | true =>
      refine ⟨(pc + 1) + w.GETARG_sBx + 1, ?_, ?_⟩
      · simp [execCmd, hc, hflag, jumpOffset, hw, hj, bind, Except.bind, pure, Except.pure]
      · have := accepted_jump h hnext hw hj
        push_cast at this
        omega
    | false =>
      refine ⟨(pc + 1) + 1, ?_, by omega, by omega⟩
      simp [execCmd, hc, hflag, bind, Except.bind, pure, Except.pure]

/-- For every prototype the verifier accepts: every `OP_CMD` in it is safe to execute if
and only if every `OP_CMD` in it passes the tests that `symbexec` makes for its siblings
only. -/
theorem accepted_cmd_safe_iff (pt : Proto N) (h : luaG_checkcode pt = true) :
    (∀ pc i, IsInstr pt.code pc → pt.code[pc]? = some i → i.GET_OPCODE = OP_CMD →
      CmdSafe pt pc i) ↔
    (∀ pc i, IsInstr pt.code pc → pt.code[pc]? = some i → i.GET_OPCODE = OP_CMD →
      cmdTests pt pc i = true) :=
  ⟨fun hall pc i hpc hi ho => (cmdSafe_iff_tests h hpc hi ho).1 (hall pc i hpc hi ho),
    fun hall pc i hpc hi ho => (cmdSafe_iff_tests h hpc hi ho).2 (hall pc i hpc hi ho)⟩

/-- A prototype with the given code, as a binary chunk can hold it. -/
def chunkProto (maxstacksize : Nat) (code : List Instruction) : Proto Nat where
  code := code
  k := []
  p := []
  locvars := []
  upvalues := []
  sizelineinfo := 0
  nups := 0
  numparams := 0
  is_vararg := ⟨false, false, false⟩
  maxstacksize := maxstacksize

/-- `CMD 0 2 CASE; JMP; RETURN` in a frame of three registers. -/
def goodCmd : Proto Nat := chunkProto 3
  [CREATE_ABC OP_CMD 0 2 CMD_CASE, CREATE_ABx OP_JMP 0 MAXARG_sBx, CREATE_ABC OP_RETURN 0 1 0]

theorem goodCmd_safe : luaG_checkcode goodCmd = true ∧
    ((∀ pc i, IsInstr goodCmd.code pc → goodCmd.code[pc]? = some i → i.GET_OPCODE = OP_CMD →
      CmdSafe goodCmd pc i) ↔
    (∀ pc i, IsInstr goodCmd.code pc → goodCmd.code[pc]? = some i → i.GET_OPCODE = OP_CMD →
      cmdTests goodCmd pc i = true)) :=
  ⟨by decide, accepted_cmd_safe_iff goodCmd (by decide)⟩

/-- `CMD 0 1 1; RETURN` in a frame of two registers: accepted, and the sub-command makes
`luaV_execute` return in the middle of the function. -/
def leavingCmd : Proto Nat := chunkProto 2
  [CREATE_ABC OP_CMD 0 1 1, CREATE_ABC OP_RETURN 0 1 0]

theorem leavingCmd_accepted_unsafe : luaG_checkcode leavingCmd = true ∧
    ¬ ∀ pc i, IsInstr leavingCmd.code pc → leavingCmd.code[pc]? = some i →
      i.GET_OPCODE = OP_CMD → CmdSafe leavingCmd pc i := by
  refine ⟨by decide, fun h => ?_⟩
  obtain ⟨pc', hrun, -⟩ := h 0 (CREATE_ABC OP_CMD 0 1 1) .entry rfl rfl fun _ _ => false
  exact nomatch hrun

end LuaFltk.Bytecode
