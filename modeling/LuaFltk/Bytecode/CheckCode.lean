import LuaFltk.Bytecode.Proto

/-!
# The bytecode verifier

`precheck`, `checkArgMode`, `symbexec` and `luaG_checkcode` of `ldebug.c`. A failed
`check` returns 0 from the C function; here it is `none`.
-/

namespace LuaFltk.Bytecode

open OpMode OpArgMask Instruction

variable {N : Type}

/-- `MAXSTACK`, the largest frame. -/
def MAXSTACK : Nat := 250

/-- The macro `check`: leave the function when `x` is false. -/
def check (x : Bool) : Option Unit := if x then some () else none

@[simp] theorem check_eq_some {x : Bool} {u : Unit} : check x = some u ↔ x = true := by
  cases x <;> simp [check]

/-- `checkreg(pt, reg)`. Registers computed by the checker may be negative. -/
def checkreg (pt : Proto N) (reg : Int) : Option Unit := check (decide (reg < pt.maxstacksize))

@[simp] theorem checkreg_eq_some {pt : Proto N} {reg : Int} {u : Unit} :
    checkreg pt reg = some u ↔ reg < pt.maxstacksize := by
  simp [checkreg]

def precheck (pt : Proto N) : Option Unit := do
  check (pt.maxstacksize ≤ MAXSTACK)
  check (pt.numparams + pt.is_vararg.hasarg.toNat ≤ pt.maxstacksize)
  check (!pt.is_vararg.needsarg || pt.is_vararg.hasarg)
  check (pt.sizeupvalues ≤ pt.nups)
  check (pt.sizelineinfo == pt.sizecode || pt.sizelineinfo == 0)
  match pt.code.getLast? with
  | none => none
  | some i => check (i.GET_OPCODE == OP_RETURN)

/-- The instructions allowed after an open call. -/
def luaG_checkopenop (i : Instruction) : Bool :=
  match i.GET_OPCODE with
  | OP_CALL | OP_TAILCALL | OP_RETURN | OP_SETLIST => i.GETARG_B == 0
  | _ => false

def checkopenop (pt : Proto N) (pc : Nat) : Option Unit :=
  match pt.code[pc + 1]? with
  | none => none
  | some i => check (luaG_checkopenop i)

def checkArgMode (pt : Proto N) (r : Nat) : OpArgMask → Option Unit
  | OpArgN => check (r == 0)
  | OpArgU => some ()
  | OpArgR => checkreg pt r
  | OpArgK => check (if ISK r then INDEXK r < pt.sizek else r < pt.maxstacksize)

/-- How many `OP_SETLIST` with `C = 0` stand right before position `dest`. -/
def setlistRun (code : List Instruction) : Nat → Nat
  | 0 => 0
  | d + 1 =>
    match code[d]? with
    | some i => if i.GET_OPCODE = OP_SETLIST ∧ i.GETARG_C = 0 then setlistRun code d + 1 else 0
    | none => 0

/-- The operands of an instruction as `symbexec` holds them, checked against the mode
table. -/
def checkOperands (pt : Proto N) (pc : Nat) (i : Instruction) : Option (Int × Int) :=
  match getOpMode i.GET_OPCODE with
  | iABC => do
    checkArgMode pt i.GETARG_B (getBMode i.GET_OPCODE)
    checkArgMode pt i.GETARG_C (getCMode i.GET_OPCODE)
    some (i.GETARG_B, i.GETARG_C)
  | iABx => do
    check (getBMode i.GET_OPCODE != OpArgK || i.GETARG_Bx < pt.sizek)
    some (i.GETARG_Bx, 0)
  | iAsBx => do
    let dest : Int := pc + 1 + i.GETARG_sBx
    check (getBMode i.GET_OPCODE != OpArgR ||
      (decide (0 ≤ dest ∧ dest < pt.sizecode) && setlistRun pt.code dest.toNat % 2 == 0))
    some (i.GETARG_sBx, 0)

/-- The skip check of a test instruction. -/
def checkSkip (pt : Proto N) (pc : Nat) : Option Unit := do
  check (pc + 2 < pt.sizecode)
  match pt.code[pc + 1]? with
  | none => none
  | some i => check (i.GET_OPCODE == OP_JMP)

/-- The pseudo-instructions after an `OP_CLOSURE`. -/
def checkPseudo (pt : Proto N) (pc : Nat) : Nat → Option Unit
  | 0 => some ()
  | nup + 1 => do
    checkPseudo pt pc nup
    match pt.code[pc + nup + 1]? with
    | none => none
    | some i => check (i.GET_OPCODE == OP_GETUPVAL || i.GET_OPCODE == OP_MOVE)

/-- The `switch (op)` of `symbexec`: the value of `pc` at the end of the loop body and the
new `last`. -/
def checkOp (pt : Proto N) (lastpc reg pc : Nat) (op : OpCode) (a : Nat) (b c : Int)
    (last : Nat) : Option (Nat × Nat) :=
  match op with
  | OP_LOADBOOL =>
    if c = 1 then do
      check (pc + 2 < pt.sizecode)
      match pt.code[pc + 1]? with
      | none => none
      | some i => check (i.GET_OPCODE != OP_SETLIST || i.GETARG_C != 0)
      some (pc, last)
    else some (pc, last)
  | OP_LOADNIL => some (pc, if a ≤ reg ∧ (reg : Int) ≤ b then pc else last)
  | OP_GETUPVAL | OP_SETUPVAL => do
    check (b < pt.nups)
    some (pc, last)
  | OP_GETGLOBAL | OP_SETGLOBAL => do
    match pt.k[b.toNat]? with
    | none => none
    | some o => check o.ttisstring
    some (pc, last)
  | OP_SELF => do
    checkreg pt (a + 1)
    some (pc, if reg = a + 1 then pc else last)
  | OP_CONCAT => do
    check (b < c)
    some (pc, last)
  | OP_TFORLOOP => do
    check (1 ≤ c)
    checkreg pt (a + 2 + c)
    some (pc, if a + 2 ≤ reg then pc else last)
  | OP_FORLOOP | OP_FORPREP => do
    checkreg pt (a + 3)
    some (if reg ≠ NO_REG ∧ (pc : Int) < pc + 1 + b ∧ pc + 1 + b ≤ (lastpc : Int)
      then (pc + b).toNat else pc, last)
  | OP_JMP =>
    some (if reg ≠ NO_REG ∧ (pc : Int) < pc + 1 + b ∧ pc + 1 + b ≤ (lastpc : Int)
      then (pc + b).toNat else pc, last)
  | OP_CALL | OP_TAILCALL => do
    if b ≠ 0 then checkreg pt (a + b - 1)
    if c - 1 = -1 then checkopenop pt pc
    else if c - 1 ≠ 0 then checkreg pt (a + (c - 1) - 1)
    some (pc, if a ≤ reg then pc else last)
  | OP_RETURN => do
    if b - 1 > 0 then checkreg pt (a + (b - 1) - 1)
    some (pc, last)
  | OP_SETLIST => do
    if b > 0 then checkreg pt (a + b)
    if c = 0 then do
      check (pc + 1 < pt.sizecode - 1)
      some (pc + 1, last)
    else some (pc, last)
  | OP_CLOSURE =>
    match pt.p[b.toNat]? with
    | none => none
    | some f => do
      check (pc + f.nups < pt.sizecode)
      checkPseudo pt pc f.nups
      some (if reg ≠ NO_REG then pc + f.nups else pc, last)
  | OP_VARARG => do
    check (pt.is_vararg.isvararg && !pt.is_vararg.needsarg)
    if b - 1 = -1 then checkopenop pt pc
    checkreg pt (a + (b - 1) - 1)
    some (pc, last)
  | _ => some (pc, last)

/-- One turn of the loop of `symbexec`. -/
def symbexecStep (pt : Proto N) (lastpc reg pc last : Nat) : Option (Nat × Nat) :=
  match pt.code[pc]? with
  | none => none
  | some i => do
    check i.GET_OPCODE.defined
    checkreg pt i.GETARG_A
    let (b, c) ← checkOperands pt pc i
    let last := if testAMode i.GET_OPCODE ∧ i.GETARG_A = reg then pc else last
    if testTMode i.GET_OPCODE then checkSkip pt pc
    checkOp pt lastpc reg pc i.GET_OPCODE i.GETARG_A b c last

/-- The loop of `symbexec`; every turn moves `pc` forward, so `lastpc` turns are enough. -/
def symbexecLoop (pt : Proto N) (lastpc reg : Nat) : Nat → Nat → Nat → Option Instruction
  | 0, _, last => pt.code[last]?
  | fuel + 1, pc, last =>
    if pc < lastpc then
      match symbexecStep pt lastpc reg pc last with
      | none => none
      | some (pc', last') => symbexecLoop pt lastpc reg fuel (pc' + 1) last'
    else pt.code[last]?

/-- `symbexec`. -/
def symbexec (pt : Proto N) (lastpc reg : Nat) : Option Instruction := do
  precheck pt
  symbexecLoop pt lastpc reg lastpc 0 (pt.sizecode - 1)

/-- `luaG_checkcode`. -/
def luaG_checkcode (pt : Proto N) : Bool :=
  match symbexec pt pt.sizecode NO_REG with
  | some i => i.toWord != 0
  | none => false

end LuaFltk.Bytecode
