import Mathlib.Tactic

/-!
# Code with scopes and pending jumps

What `lcode.c` and the block functions of `lparser.c` do to the code of one function. An
expression is one instruction, of which only the locals that its closures capture are kept; a
test stands for the instruction with its `OP_JMP`. A jump list, which the source threads
through the fields `sBx` of its jumps, is the list of their positions. Each instruction
keeps the locals that are active where it stands, which is what `startpc` and `endpc` say. As an
expression is one instruction here, positions are not the source's `pc`, and the limit of `fixjump`
on the length of a jump is left out.
-/

namespace LuaFltk.Compiler

def LUAI_MAXVARS : Nat := 200

/-- A local variable: its entry `id` in `locvars` and its register, which is its index in
`actvar`. The control variables of a `for` have names in parentheses, which no identifier
equals; their name is `none`. -/
structure Var where
  name : Option String
  id : Nat
  reg : Nat
  deriving DecidableEq, Repr

inductive Op where
  /-- Instructions that evaluate an expression or carry out an assignment or a call. -/
  | eval
  /-- Instructions that give new locals their first values. -/
  | decl (vars : List Var)
  /-- A test with the `OP_JMP` behind it. -/
  | test
  /-- `OP_JMP`, or `OP_FORPREP`. -/
  | jmp
  /-- `OP_FORLOOP`, or `OP_TFORLOOP` with the `OP_JMP` behind it. -/
  | forloop (vars : List Var)
  | close (a : Nat)
  | ret
  deriving DecidableEq, Repr

/-- An instruction with the locals in scope, those it captures, and the target of its jump,
`none` as long as that is `NO_JUMP`. -/
structure Ins where
  op : Op
  scope : List Var
  caps : List Var
  dest : Option Nat
  deriving DecidableEq, Repr

/-- `BlockCnt`. -/
structure BlockCnt where
  breaklist : List Nat
  continuelist : List Nat
  nactvar : Nat
  upval : Bool
  isbreakable : Bool
  deriving DecidableEq, Repr

/-- `FuncState`. The innermost block is the head of `bl`. A local is counted in `nlocvars` when
it becomes active, which no local of the function does between its `new_localvar` and that
point. The last two fields record every jump that was ever put on a `breaklist` or a
`continuelist`; no function reads them. -/
structure FuncState where
  code : List Ins
  jpc : List Nat
  nlocvars : Nat
  actvar : List Var
  bl : List BlockCnt
  breaks : List Nat
  continues : List Nat
  deriving DecidableEq, Repr

namespace FuncState

def pc (fs : FuncState) : Nat := fs.code.length

def nactvar (fs : FuncState) : Nat := fs.actvar.length

end FuncState

/-! ## Jumps -/

def fixjump (code : List Ins) (pc dest : Nat) : List Ins :=
  code.modify pc fun i => { i with dest := some dest }

def patchlistaux (code : List Ins) (list : List Nat) (target : Nat) : List Ins :=
  list.foldl (fun code pc => fixjump code pc target) code

def dischargejpc (fs : FuncState) : FuncState :=
  { fs with code := patchlistaux fs.code fs.jpc fs.pc, jpc := [] }

/-- `luaK_code`: the jumps that wait for this position are patched first. -/
def luaK_code (op : Op) (caps : List Var) (fs : FuncState) : FuncState :=
  let fs := dischargejpc fs
  { fs with code := fs.code ++ [⟨op, fs.actvar, caps, none⟩] }

/-- An instruction with a jump of its own, and the list of that jump: `condjump`, and the
instructions of the `for` loops. -/
def condjump (op : Op) (caps : List Var) (fs : FuncState) : FuncState × List Nat :=
  (luaK_code op caps fs, [fs.pc])

/-- `luaK_jump`: the jumps that wait for this position are kept on hold, in the list of the
new jump. -/
def luaK_jump (fs : FuncState) : FuncState × List Nat :=
  (luaK_code .jmp [] { fs with jpc := [] }, fs.pc :: fs.jpc)

def luaK_patchtohere (list : List Nat) (fs : FuncState) : FuncState :=
  { fs with jpc := fs.jpc ++ list }

def luaK_patchlist (list : List Nat) (target : Nat) (fs : FuncState) : FuncState :=
  if target = fs.pc then luaK_patchtohere list fs
  else { fs with code := patchlistaux fs.code list target }

def luaK_getlabel (fs : FuncState) : Nat := fs.pc

/-! ## Locals and blocks -/

/-- `new_localvar`, for the declared names in order; the locals are not active yet. -/
def new_localvars (names : List (Option String)) (fs : FuncState) : Except String (List Var) :=
  if fs.nactvar + names.length > LUAI_MAXVARS then
    .error "function has more than 200 local variables"
  else
    .ok (names.mapIdx fun i name => ⟨name, fs.nlocvars + i, fs.nactvar + i⟩)

def adjustlocalvars (vars : List Var) (fs : FuncState) : FuncState :=
  { fs with actvar := fs.actvar ++ vars, nlocvars := fs.nlocvars + vars.length }

def removevars (tolevel : Nat) (fs : FuncState) : FuncState :=
  { fs with actvar := fs.actvar.take tolevel }

def searchvar (fs : FuncState) (n : String) : Option Var :=
  fs.actvar.reverse.find? fun v => v.name == some n

def markupval (level : Nat) : List BlockCnt → List BlockCnt
  | [] => []
  | bl :: previous =>
    if bl.nactvar > level then bl :: markupval level previous
    else { bl with upval := true } :: previous

/-- `singlevaraux` for the names that closures in an expression refer to: each that is a
local of this function is marked and captured. -/
def singlevaraux (names : List String) (fs : FuncState) : FuncState × List Var :=
  let caps := names.filterMap (searchvar fs)
  ({ fs with bl := caps.foldl (fun bl v => markupval v.reg bl) fs.bl }, caps)

def enterblock (isbreakable : Bool) (fs : FuncState) : FuncState :=
  { fs with bl := ⟨[], [], fs.nactvar, false, isbreakable⟩ :: fs.bl }

/-- `leaveblock`: the block's locals end before its `OP_CLOSE`. -/
def leaveblock (fs : FuncState) : FuncState :=
  match fs.bl with
  | [] => fs
  | bl :: previous =>
    let fs := removevars bl.nactvar { fs with bl := previous }
    let fs := if bl.upval then luaK_code (.close bl.nactvar) [] fs else fs
    luaK_patchtohere bl.breaklist fs

/-- The `continuelist` of the innermost block. -/
def continuelist (fs : FuncState) : List Nat := (fs.bl.head?.map (·.continuelist)).getD []

/-! ## Jumps out of blocks -/

/-- The loop of `breakstat`: the blocks that are left, and the others from the target on. -/
def breakBlocks (n : Int) : List BlockCnt → List BlockCnt × List BlockCnt
  | [] => ([], [])
  | bl :: previous =>
    if !bl.isbreakable then (breakBlocks n previous).map (bl :: ·) id
    else if n - 1 ≠ 0 then (breakBlocks (n - 1) previous).map (bl :: ·) id
    else ([], bl :: previous)

/-- The end of `breakstat` and `continuestat`: an `OP_CLOSE` for the level of the target if
one of the blocks that are left has an upvalue so far, and the jump. -/
def closeJump (left : List BlockCnt) (level : Nat) (fs : FuncState) : FuncState × List Nat :=
  luaK_jump (if left.any (·.upval) then luaK_code (.close level) [] fs else fs)

def breakstat (n : Int) (fs : FuncState) : Except String FuncState :=
  match breakBlocks n fs.bl with
  | (_, []) => .error "no loop to break"
  | (left, bl :: outer) =>
    let (fs, jump) := closeJump left bl.nactvar fs
    .ok { fs with
      bl := left ++ { bl with breaklist := bl.breaklist ++ jump } :: outer
      breaks := fs.breaks ++ jump }

def continuestat (fs : FuncState) : Except String FuncState :=
  match fs.bl.span fun bl => !bl.isbreakable with
  | (_, []) => .error "no loop to continue"
  | (left, bl :: outer) =>
    let (fs, jump) := closeJump left bl.nactvar fs
    .ok { fs with
      bl := left ++ { bl with continuelist := bl.continuelist ++ jump } :: outer
      continues := fs.continues ++ jump }

end LuaFltk.Compiler
