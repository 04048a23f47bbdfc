import Mathlib.Tactic

/-!
# Instructions of the virtual machine

`lopcodes.h` and `lopcodes.c`. An instruction is a 32-bit word cut into an opcode
(6 bits), `A` (8), `C` (9) and `B` (9); `Bx` is `B` and `C` read together and `sBx`
is `Bx` in excess `MAXARG_sBx`. The four fields fill the word, so the record below
is the word.
-/

namespace LuaFltk.Bytecode

/-- `OpCode`. The six opcode bits also hold the numbers 39 .. 63, which name nothing;
`undef` keeps them, so that every word decodes. -/
inductive OpCode where
  | OP_MOVE | OP_LOADK | OP_LOADBOOL | OP_LOADNIL | OP_GETUPVAL
  | OP_GETGLOBAL | OP_GETTABLE
  | OP_SETGLOBAL | OP_SETUPVAL | OP_SETTABLE
  | OP_NEWTABLE
  | OP_SELF
  | OP_CMD
  | OP_ADD | OP_SUB | OP_MUL | OP_DIV | OP_MOD | OP_POW | OP_UNM | OP_NOT | OP_LEN
  | OP_CONCAT
  | OP_JMP
  | OP_EQ | OP_LT | OP_LE
  | OP_TEST | OP_TESTSET
  | OP_CALL | OP_TAILCALL | OP_RETURN
  | OP_FORLOOP | OP_FORPREP
  | OP_TFORLOOP
  | OP_SETLIST
  | OP_CLOSE | OP_CLOSURE
  | OP_VARARG
  | undef (k : Fin 25)
  deriving DecidableEq, Repr

export OpCode (OP_MOVE OP_LOADK OP_LOADBOOL OP_LOADNIL OP_GETUPVAL OP_GETGLOBAL OP_GETTABLE
  OP_SETGLOBAL OP_SETUPVAL OP_SETTABLE OP_NEWTABLE OP_SELF OP_CMD OP_ADD OP_SUB OP_MUL OP_DIV
  OP_MOD OP_POW OP_UNM OP_NOT OP_LEN OP_CONCAT OP_JMP OP_EQ OP_LT OP_LE OP_TEST OP_TESTSET
  OP_CALL OP_TAILCALL OP_RETURN OP_FORLOOP OP_FORPREP OP_TFORLOOP OP_SETLIST OP_CLOSE
  OP_CLOSURE OP_VARARG)

/-- The `CmdCode` enumeration has one sub-command. -/
def CMD_CASE : Nat := 0

/-- `op < NUM_OPCODES`. -/
def OpCode.defined : OpCode → Bool
  | .undef _ => false
  | _ => true

/-- The position of an opcode in the enumeration, `ORDER OP`. -/
def OpCode.toNat : OpCode → Nat
  | OP_MOVE => 0 | OP_LOADK => 1 | OP_LOADBOOL => 2 | OP_LOADNIL => 3 | OP_GETUPVAL => 4
  | OP_GETGLOBAL => 5 | OP_GETTABLE => 6 | OP_SETGLOBAL => 7 | OP_SETUPVAL => 8
  | OP_SETTABLE => 9 | OP_NEWTABLE => 10 | OP_SELF => 11 | OP_CMD => 12 | OP_ADD => 13
  | OP_SUB => 14 | OP_MUL => 15 | OP_DIV => 16 | OP_MOD => 17 | OP_POW => 18 | OP_UNM => 19
  | OP_NOT => 20 | OP_LEN => 21 | OP_CONCAT => 22 | OP_JMP => 23 | OP_EQ => 24 | OP_LT => 25
  | OP_LE => 26 | OP_TEST => 27 | OP_TESTSET => 28 | OP_CALL => 29 | OP_TAILCALL => 30
  | OP_RETURN => 31 | OP_FORLOOP => 32 | OP_FORPREP => 33 | OP_TFORLOOP => 34
  | OP_SETLIST => 35 | OP_CLOSE => 36 | OP_CLOSURE => 37 | OP_VARARG => 38
  | .undef k => 39 + k

/-- The opcode a six-bit field holds. -/
def OpCode.ofFin (n : Fin 64) : OpCode :=
  if h : n.val < 39 then
    ([OP_MOVE, OP_LOADK, OP_LOADBOOL, OP_LOADNIL, OP_GETUPVAL, OP_GETGLOBAL, OP_GETTABLE,
      OP_SETGLOBAL, OP_SETUPVAL, OP_SETTABLE, OP_NEWTABLE, OP_SELF, OP_CMD, OP_ADD, OP_SUB,
      OP_MUL, OP_DIV, OP_MOD, OP_POW, OP_UNM, OP_NOT, OP_LEN, OP_CONCAT, OP_JMP, OP_EQ, OP_LT,
      OP_LE, OP_TEST, OP_TESTSET, OP_CALL, OP_TAILCALL, OP_RETURN, OP_FORLOOP, OP_FORPREP,
      OP_TFORLOOP, OP_SETLIST, OP_CLOSE, OP_CLOSURE, OP_VARARG] : List OpCode).get ⟨n.val, h⟩
  else .undef ⟨n.val - 39, by omega⟩

/-- `enum OpMode`, the instruction format. -/
inductive OpMode where
  | iABC | iABx | iAsBx
  deriving DecidableEq, Repr

/-- `enum OpArgMask`: not used, used, a register or jump offset, a constant or
register/constant. -/
inductive OpArgMask where
  | OpArgN | OpArgU | OpArgR | OpArgK
  deriving DecidableEq, Repr

open OpMode OpArgMask

/-- One row of `luaP_opmodes`: is the operator a test, does it set register `A`, the use
of `B` and of `C`, and the format. -/
structure OpModes where
  t : Bool
  a : Bool
  b : OpArgMask
  c : OpArgMask
  m : OpMode
  deriving DecidableEq, Repr

/-- The table `luaP_opmodes`. Its rows end at `OP_VARARG`; the checker reads no row of an
undefined opcode, and the value given to them here is never looked at. -/
def luaP_opmodes : OpCode → OpModes
  | OP_MOVE => ⟨false, true, OpArgR, OpArgN, iABC⟩
  | OP_LOADK => ⟨false, true, OpArgK, OpArgN, iABx⟩
  | OP_LOADBOOL => ⟨false, true, OpArgU, OpArgU, iABC⟩
  | OP_LOADNIL => ⟨false, true, OpArgR, OpArgN, iABC⟩
  | OP_GETUPVAL => ⟨false, true, OpArgU, OpArgN, iABC⟩
  | OP_GETGLOBAL => ⟨false, true, OpArgK, OpArgN, iABx⟩
  | OP_GETTABLE => ⟨false, true, OpArgR, OpArgK, iABC⟩
  | OP_SETGLOBAL => ⟨false, false, OpArgK, OpArgN, iABx⟩
  | OP_SETUPVAL => ⟨false, false, OpArgU, OpArgN, iABC⟩
  | OP_SETTABLE => ⟨false, false, OpArgK, OpArgK, iABC⟩
  | OP_NEWTABLE => ⟨false, true, OpArgU, OpArgU, iABC⟩
  | OP_SELF => ⟨false, true, OpArgR, OpArgK, iABC⟩
  | OP_CMD => ⟨false, true, OpArgR, OpArgR, iABC⟩
  | OP_ADD | OP_SUB | OP_MUL | OP_DIV | OP_MOD | OP_POW =>
      ⟨false, true, OpArgK, OpArgK, iABC⟩
  | OP_UNM | OP_NOT | OP_LEN => ⟨false, true, OpArgR, OpArgN, iABC⟩
  | OP_CONCAT => ⟨false, true, OpArgR, OpArgR, iABC⟩
  | OP_JMP => ⟨false, false, OpArgR, OpArgN, iAsBx⟩
  | OP_EQ | OP_LT | OP_LE => ⟨true, false, OpArgK, OpArgK, iABC⟩
  | OP_TEST | OP_TESTSET => ⟨true, true, OpArgR, OpArgU, iABC⟩
  | OP_CALL | OP_TAILCALL => ⟨false, true, OpArgU, OpArgU, iABC⟩
  | OP_RETURN => ⟨false, false, OpArgU, OpArgN, iABC⟩
  | OP_FORLOOP | OP_FORPREP => ⟨false, true, OpArgR, OpArgN, iAsBx⟩
  | OP_TFORLOOP => ⟨true, false, OpArgN, OpArgU, iABC⟩
  | OP_SETLIST => ⟨false, false, OpArgU, OpArgU, iABC⟩
  | OP_CLOSE => ⟨false, false, OpArgN, OpArgN, iABC⟩
  | OP_CLOSURE => ⟨false, true, OpArgU, OpArgN, iABx⟩
  | OP_VARARG => ⟨false, true, OpArgU, OpArgN, iABC⟩
  | .undef _ => ⟨false, false, OpArgN, OpArgN, iABC⟩

def getOpMode (o : OpCode) : OpMode := (luaP_opmodes o).m
def getBMode (o : OpCode) : OpArgMask := (luaP_opmodes o).b
def getCMode (o : OpCode) : OpArgMask := (luaP_opmodes o).c
def testAMode (o : OpCode) : Bool := (luaP_opmodes o).a
def testTMode (o : OpCode) : Bool := (luaP_opmodes o).t

def MAXARG_sBx : Nat := 131071
def MAXARG_A : Nat := 255

/-- `NO_REG`, an invalid register that fits in 8 bits. -/
def NO_REG : Nat := MAXARG_A

/-- A 32-bit instruction word, by fields. -/
structure Instruction where
  op : OpCode
  a : Fin 256
  b : Fin 512
  c : Fin 512
  deriving DecidableEq, Repr

namespace Instruction

/-- `GET_OPCODE`. -/
abbrev GET_OPCODE (i : Instruction) : OpCode := i.op
/-- `GETARG_A`. -/
abbrev GETARG_A (i : Instruction) : Nat := i.a.val
/-- `GETARG_B`. -/
abbrev GETARG_B (i : Instruction) : Nat := i.b.val
/-- `GETARG_C`. -/
abbrev GETARG_C (i : Instruction) : Nat := i.c.val
/-- `GETARG_Bx`: the fields `B` and `C` together. -/
def GETARG_Bx (i : Instruction) : Nat := i.b.val * 512 + i.c.val
/-- `GETARG_sBx`. -/
def GETARG_sBx (i : Instruction) : Int := (i.GETARG_Bx : Int) - MAXARG_sBx

/-- The word as a number. -/
def toWord (i : Instruction) : Nat :=
  i.op.toNat + i.a.val * 2 ^ 6 + i.c.val * 2 ^ 14 + i.b.val * 2 ^ 23

/-- `cast(Instruction, n)`: a number used as a word (the count that follows an
`OP_SETLIST` with `C = 0`). -/
def ofWord (n : Nat) : Instruction where
  op := .ofFin (Fin.ofNat 64 n)
  a := Fin.ofNat 256 (n / 2 ^ 6)
  c := Fin.ofNat 512 (n / 2 ^ 14)
  b := Fin.ofNat 512 (n / 2 ^ 23)

end Instruction

/-- `CREATE_ABC`. -/
def CREATE_ABC (o : OpCode) (a b c : Nat) : Instruction :=
  ⟨o, Fin.ofNat 256 a, Fin.ofNat 512 b, Fin.ofNat 512 c⟩

/-- `CREATE_ABx`. -/
def CREATE_ABx (o : OpCode) (a bc : Nat) : Instruction :=
  ⟨o, Fin.ofNat 256 a, Fin.ofNat 512 (bc / 512), Fin.ofNat 512 bc⟩

/-- `BITRK`: this bit set means a constant. -/
def BITRK : Nat := 256
/-- `ISK`, for nine-bit operands. -/
def ISK (x : Nat) : Bool := BITRK ≤ x
/-- `INDEXK`, the index of a constant operand. -/
def INDEXK (r : Nat) : Nat := r - BITRK

end LuaFltk.Bytecode
