import LuaFltk.Bytecode.Cmd

/-!
# What instructions rely on

`luaV_execute` reads operands without a test: registers of the frame, constants, upvalues,
nested prototypes and further words of the code. For each instruction this file lists what its
case relies on, and where it goes. What the operands hold is left open, so a test may go either
way and a call may come back with any number of results.
-/

namespace LuaFltk.Bytecode

open Instruction

variable {N : Type}

/-- The slots of the stack behind the frame of a function, for the calls of the machine. -/
def EXTRA_STACK : Nat := 5

/-- What an instruction relies on. -/
inductive Use where
  /-- A register of the frame. -/
  | reg (r : Nat)
  /-- A slot of a call that the machine makes itself. -/
  | slot (r : Nat)
  | const (x : Nat)
  /-- A constant that is a string. -/
  | name (x : Nat)
  | upvalue (x : Nat)
  | proto (x : Nat)
  /-- The word at `pc` has one of the opcodes. -/
  | word (pc : Nat) (ops : List OpCode)
  /-- The function has variable arguments and no table for them. -/
  | vararg
  /-- A value with which the case goes on. -/
  | given (b : Bool)
  deriving DecidableEq, Repr

/-- The prototype has what an instruction relies on. -/
def Use.Fits (pt : Proto N) : Use → Prop
  | .reg r => r < pt.maxstacksize
  | .slot r => r < pt.maxstacksize + EXTRA_STACK
  | .const x => x < pt.sizek
  | .name x => ∃ o, pt.k[x]? = some o ∧ o.ttisstring = true
  | .upvalue x => x < pt.nups
  | .proto x => x < pt.sizep
  | .word pc ops => ∃ w, pt.code[pc]? = some w ∧ w.GET_OPCODE ∈ ops
  | .vararg => pt.is_vararg.isvararg = true ∧ pt.is_vararg.needsarg = false
  | .given b => b = true

/-- The registers from `a` on. -/
def regs (a n : Nat) : List Use := (List.range n).map fun j => .reg (a + j)

/-- `RKB` and `RKC`: a register or a constant. -/
def rk (x : Nat) : List Use := [if ISK x then .const (INDEXK x) else .reg x]

/-- The words that an `OP_CLOSURE` reads, and the operands it takes from them. -/
def pseudoUses (pt : Proto N) (pc : Nat) (nup : Nat) : List Use :=
  (List.range nup).flatMap fun j =>
    .word (pc + 1 + j) [OP_GETUPVAL, OP_MOVE] ::
      match pt.code[pc + 1 + j]? with
      | some w => [if w.GET_OPCODE = OP_GETUPVAL then .upvalue w.GETARG_B else .reg w.GETARG_B]
      | none => []

/-- What the case of `luaV_execute` for the instruction `i` at `pc` relies on. -/
def uses (pt : Proto N) (pc : Nat) (i : Instruction) : List Use :=
  let a := i.GETARG_A
  let b := i.GETARG_B
  let c := i.GETARG_C
  let bx := i.GETARG_Bx
  match i.GET_OPCODE with
  | OP_MOVE => [.reg a, .reg b]
  | OP_LOADK => [.reg a, .const bx]
  | OP_LOADBOOL => [.reg a]
  | OP_LOADNIL => .reg b :: regs a (b + 1 - a)
  | OP_GETUPVAL => [.reg a, .upvalue b]
  | OP_GETGLOBAL | OP_SETGLOBAL => [.name bx, .reg a]
  | OP_GETTABLE => .reg a :: .reg b :: rk c
  | OP_SETUPVAL => [.upvalue b, .reg a]
  | OP_SETTABLE => .reg a :: (rk b ++ rk c)
  | OP_NEWTABLE => [.reg a]
  | OP_SELF => .reg a :: .reg (a + 1) :: .reg b :: rk c
  -- the registers are read one by one, for the only sub-command there is
  | OP_CMD => [.given (c == CMD_CASE)] ++ regs a b ++ [.word (pc + 1) [OP_JMP]]
  | OP_ADD | OP_SUB | OP_MUL | OP_DIV | OP_MOD | OP_POW => .reg a :: (rk b ++ rk c)
  | OP_UNM | OP_NOT | OP_LEN => [.reg a, .reg b]
  -- `luaV_concat` joins the last two of the values, and so on; there must be two
  | OP_CONCAT => .reg a :: .given (b < c) :: regs b (c + 1 - b)
  | OP_JMP => []
  | OP_EQ | OP_LT | OP_LE => rk b ++ rk c ++ [.word (pc + 1) [OP_JMP]]
  | OP_TEST => [.reg a, .word (pc + 1) [OP_JMP]]
  | OP_TESTSET => [.reg a, .reg b, .word (pc + 1) [OP_JMP]]
  | OP_CALL => .reg a :: (regs a b ++ regs a (c - 1))
  | OP_TAILCALL => .reg a :: regs a b
  | OP_RETURN => .reg a :: regs a (b - 1)
  | OP_FORLOOP => regs a 4
  | OP_FORPREP => regs a 3
  | OP_TFORLOOP => regs a 3 ++ [.slot (a + 3), .slot (a + 4), .slot (a + 5)] ++
      regs (a + 3) c ++ [.word (pc + 1) [OP_JMP]]
  | OP_SETLIST => .reg a :: (regs (a + 1) b ++
      if c = 0 then [.given (pc + 1 < pt.sizecode)] else [])
  | OP_CLOSE => [.reg a]
  | OP_CLOSURE => .reg a :: .proto bx :: pseudoUses pt pc ((pt.p[bx]?.map (·.nups)).getD 0)
  | OP_VARARG => .reg a :: .vararg :: regs a (b - 1)
  | .undef _ => [.given false]

/-- `pc` at the head of the loop, and whether `top` was set by the instruction before; else `top`
is that of the call. -/
structure Frame where
  pc : Int
  isopen : Bool
  deriving DecidableEq, Repr

/-- `dojump` with the offset of the word at `pc`. -/
def jumpAt (pt : Proto N) (pc : Nat) (isopen : Bool) : List Frame :=
  match pt.code[pc]? with
  | some w => [⟨pc + 1 + w.GETARG_sBx, isopen⟩]
  | none => []

/-- The end of a test: the jump that follows is skipped, or done. -/
def skipOrJump (pt : Proto N) (pc : Nat) (isopen : Bool) : List Frame :=
  ⟨pc + 2, isopen⟩ :: jumpAt pt (pc + 1) isopen

/-- Where the instruction `i` at `pc` can go on in the same call. A tail call goes on here when
it has called a C function. -/
def next (pt : Proto N) (pc : Nat) (i : Instruction) (isopen : Bool) : List Frame :=
  match i.GET_OPCODE with
  | OP_LOADBOOL => [if i.GETARG_C ≠ 0 then ⟨pc + 2, isopen⟩ else ⟨pc + 1, isopen⟩]
  | OP_CMD => if i.GETARG_C = CMD_CASE then skipOrJump pt pc isopen else []
  | OP_JMP | OP_FORPREP => jumpAt pt pc isopen
  | OP_FORLOOP => ⟨pc + 1, isopen⟩ :: jumpAt pt pc isopen
  | OP_EQ | OP_LT | OP_LE | OP_TEST | OP_TESTSET | OP_TFORLOOP => skipOrJump pt pc isopen
  | OP_CALL => [⟨pc + 1, i.GETARG_C == 0⟩]
  | OP_TAILCALL => [⟨pc + 1, true⟩]
  | OP_RETURN => []
  | OP_SETLIST =>
    [⟨if i.GETARG_C = 0 then pc + 2 else pc + 1, if i.GETARG_B = 0 then false else isopen⟩]
  | OP_CLOSURE => [⟨pc + 1 + ((pt.p[i.GETARG_Bx]?.map (·.nups)).getD 0 : Nat), isopen⟩]
  | OP_VARARG => [⟨pc + 1, if i.GETARG_B = 0 then true else isopen⟩]
  | _ => [⟨pc + 1, isopen⟩]

def Frame.Step (pt : Proto N) (s s' : Frame) : Prop :=
  ∃ (pc : Nat) (i : Instruction), s.pc = pc ∧ pt.code[pc]? = some i ∧ s' ∈ next pt pc i s.isopen

/-- The start of a call. -/
def Frame.entry : Frame := ⟨0, false⟩

/-- Nothing goes wrong at the head of the loop: `pc` is at an instruction, `top` is that of the
call unless the instruction is one that takes it, and all that its case relies on is there. -/
structure Frame.Sound (pt : Proto N) (s : Frame) : Prop where
  at_instr : ∃ (pc : Nat) (i : Instruction), s.pc = pc ∧ IsInstr pt.code pc ∧
    pt.code[pc]? = some i ∧ i.GET_OPCODE.defined = true ∧
    (s.isopen = true → luaG_checkopenop i = true) ∧ ∀ u ∈ uses pt pc i, u.Fits pt

/-- The tests that `symbexec` leaves out. `OP_LOADBOOL` skips for every `C` that is not 0, and is
tested for `C = 1`; a tail call of a C function leaves `top` behind, and what follows is only
tested for `C = 0`; and those of `OP_CMD`. -/
def missingTests (pt : Proto N) (pc : Nat) (i : Instruction) : Bool :=
  match i.GET_OPCODE with
  | OP_LOADBOOL => i.GETARG_C == 0 || (decide (pc + 2 < pt.sizecode) &&
      pt.code[pc + 1]?.any fun w => w.GET_OPCODE != OP_SETLIST || w.GETARG_C != 0)
  | OP_TAILCALL => pt.code[pc + 1]?.any luaG_checkopenop
  | OP_CMD => cmdTests pt pc i
  | _ => true

end LuaFltk.Bytecode
