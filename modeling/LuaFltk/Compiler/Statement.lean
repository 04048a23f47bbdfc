import LuaFltk.Compiler.Code

/-!
# The statements of a function

The statement functions of `lparser.c`, over syntax trees. A loop or a branch takes the
compiler of its body as a function, as the source calls `chunk` back.
-/

namespace LuaFltk.Compiler

/-- A condition. The names of a `test` are those its closures capture. A literal is folded
when it decides the jump. -/
inductive Cond where
  | const (b : Bool)
  | test (names : List String)
  | not (c : Cond)
  | and (c d : Cond)
  | or (c d : Cond)
  deriving Repr

/-- What decides an arm: the condition of an `elseif`, or the values of an `of`. -/
inductive Head where
  | elseif (c : Cond)
  | of (names : List String)
  deriving Repr

mutual

/-- A statement that need not be the last of its block. The list `names` holds the names
that closures in the statement's expressions capture. -/
inductive Stat where
  | exprstat (names : List String)
  | localstat (vars names : List String)
  | localfunc (var : String) (names : List String)
  | dostat (body : Chunk)
  | whilestat (c : Cond) (body : Chunk)
  | repeatstat (body : Chunk) (c : Cond)
  | fornum (var : String) (names : List String) (body : Chunk)
  | forlist (vars names : List String) (body : Chunk)
  | ifstat (c : Cond) (body : Chunk) (rest : Arms)
  | selectstat (names values : List String) (body : Chunk) (rest : Arms)

/-- Statements up to the end of a block, or to a statement that must be its last. A `return` of
no values, or of one local as it is, has nothing to evaluate: its `values` are `none`. -/
inductive Chunk where
  | done
  | retstat (values : Option (List String))
  | breakstat (n : Nat)
  | continuestat
  | seq (s : Stat) (rest : Chunk)

/-- The arms after the first one, up to `end` or `esac`. -/
inductive Arms where
  | done
  | otherwise (body : Chunk)
  | arm (head : Head) (body : Chunk) (rest : Arms)

end

/-- The compiler of a piece of the program. -/
abbrev Compile := FuncState → Except String FuncState

/-! ## Expressions -/

/-- An instruction for an expression whose closures capture `names`. -/
def codeExpr (op : Op) (names : List String) (fs : FuncState) : FuncState :=
  let (fs, caps) := singlevaraux names fs
  luaK_code op caps fs

/-- `luaK_goiftrue` (`on` is `false`) and `luaK_goiffalse` (`on` is `true`): the code of a
condition that falls through unless its value is `on`, and the list of its jumps otherwise. -/
def goif (on : Bool) : Cond → FuncState → FuncState × List Nat
  | .const b, fs => if b = on then luaK_jump fs else (fs, [])
  | .test names, fs =>
    let (fs, caps) := singlevaraux names fs
    condjump .test caps fs
  | .not c, fs => goif (!on) c fs
  | .and c d, fs =>
    let (fs, f) := goif false c fs
    let (fs, list) := goif on d fs
    if on then (luaK_patchtohere f fs, list) else (fs, list ++ f)
  | .or c d, fs =>
    let (fs, t) := goif true c fs
    let (fs, list) := goif on d fs
    if on then (fs, list ++ t) else (luaK_patchtohere t fs, list)

def cond (c : Cond) (fs : FuncState) : FuncState × List Nat := goif false c fs

/-! ## Statements -/

def exprstat (names : List String) (fs : FuncState) : FuncState := codeExpr .eval names fs

/-- `luaK_ret`. -/
def luaK_ret (fs : FuncState) : FuncState := luaK_code .ret [] fs

/-- The values are in their registers before `OP_RETURN`. -/
def retstat (values : Option (List String)) (fs : FuncState) : FuncState :=
  luaK_ret (match values with
    | none => fs
    | some names => codeExpr .eval names fs)

def localstat (vars names : List String) (fs : FuncState) : Except String FuncState := do
  let new ← new_localvars (vars.map some) fs
  .ok (adjustlocalvars new (codeExpr (.decl new) names fs))

/-- `localfunc`. The local is active in the function's body, but its `startpc` is only set
after the closure is there. -/
def localfunc (var : String) (names : List String) (fs : FuncState) : Except String FuncState := do
  let new ← new_localvars [some var] fs
  let (inner, caps) := singlevaraux names (adjustlocalvars new fs)
  .ok (adjustlocalvars new (luaK_code (.decl new) caps { fs with bl := inner.bl }))

def block (body : Compile) (fs : FuncState) : Except String FuncState := do
  let fs ← body (enterblock false fs)
  .ok (leaveblock fs)

def whilestat (c : Cond) (body : Compile) (fs : FuncState) : Except String FuncState := do
  let whileinit := luaK_getlabel fs
  let (fs, condexit) := cond c fs
  let fs ← block body (enterblock true fs)
  let (fs, jump) := luaK_jump fs
  let fs := luaK_patchlist jump whileinit fs
  let fs := luaK_patchlist (continuelist fs) whileinit fs
  .ok (luaK_patchtohere condexit (leaveblock fs))

def repeatstat (body : Compile) (c : Cond) (fs : FuncState) : Except String FuncState := do
  let repeat_init := luaK_getlabel fs
  let fs ← body (enterblock false (enterblock true fs))
  let fs := luaK_patchtohere (continuelist { fs with bl := fs.bl.tail }) fs
  let (fs, condexit) := cond c fs
  if !(fs.bl.head?.map (·.upval)).getD false then
    let fs := luaK_patchlist condexit repeat_init (leaveblock fs)
    .ok (leaveblock fs)
  else
    let fs ← breakstat 1 fs
    let fs := leaveblock (luaK_patchtohere condexit fs)
    let (fs, jump) := luaK_jump fs
    .ok (leaveblock (luaK_patchlist jump repeat_init fs))

def forbody (control vars : List Var) (isnum : Bool) (body : Compile) (fs : FuncState) :
    Except String FuncState := do
  let fs := adjustlocalvars control fs
  let prep := fs.pc
  let (fs, jump) := if isnum then condjump .jmp [] fs else luaK_jump fs
  let fs ← block body (adjustlocalvars vars (enterblock false fs))
  let fs := luaK_patchtohere jump (leaveblock fs)
  let fs := luaK_patchtohere (continuelist fs) fs
  let (fs, endfor) := condjump (.forloop vars) [] fs
  .ok (luaK_patchlist endfor (prep + 1) fs)

/-- `forstat` with `fornum` or `forlist`: the first three locals are the control variables. -/
def forstat (vars names : List String) (isnum : Bool) (body : Compile) (fs : FuncState) :
    Except String FuncState := do
  let fs := enterblock true fs
  let new ← new_localvars ([none, none, none] ++ vars.map some) fs
  let fs := codeExpr (.decl (new.take 3)) names fs
  let fs ← forbody (new.take 3) (new.drop 3) isnum body fs
  .ok (leaveblock fs)

/-- The list of jumps that `test_then_block` or `casestat` leaves for a head that fails. -/
def headJump (head : Head) (fs : FuncState) : FuncState × List Nat :=
  match head with
  | .elseif c => cond c fs
  | .of names =>
    let (fs, caps) := singlevaraux names fs
    condjump .test caps fs

/-- `test_then_block` and `casestat`. -/
def armBlock (head : Head) (body : Compile) (fs : FuncState) :
    Except String (FuncState × List Nat) := do
  let (fs, flist) := headJump head fs
  let fs ← block body fs
  .ok (fs, flist)

/-- The end of `ifstat` and `selectstat` without a further arm. -/
def lastArm (escapelist flist : List Nat) (fs : FuncState) : FuncState :=
  luaK_patchtohere (escapelist ++ flist) fs

/-- The jump over the next arm, which the failed head of the one before goes to. -/
def nextArm (escapelist flist : List Nat) (fs : FuncState) : FuncState × List Nat :=
  let (fs, jump) := luaK_jump fs
  (luaK_patchtohere flist fs, escapelist ++ jump)

def elseArm (body : Compile) (escapelist flist : List Nat) (fs : FuncState) :
    Except String FuncState := do
  let (fs, escapelist) := nextArm escapelist flist fs
  let fs ← block body fs
  .ok (luaK_patchtohere escapelist fs)

def ifstat (c : Cond) (body : Compile) (rest : List Nat → List Nat → Compile)
    (fs : FuncState) : Except String FuncState := do
  let (fs, flist) ← armBlock (.elseif c) body fs
  rest [] flist fs

def selectstat (names values : List String) (body : Compile)
    (rest : List Nat → List Nat → Compile) (fs : FuncState) : Except String FuncState := do
  let fs := codeExpr .eval names (enterblock false fs)
  let (fs, flist) ← armBlock (.of values) body fs
  let fs ← rest [] flist fs
  .ok (leaveblock fs)

mutual

def statement : Stat → Compile
  | .exprstat names => fun fs => .ok (exprstat names fs)
  | .localstat vars names => localstat vars names
  | .localfunc var names => localfunc var names
  | .dostat body => block (chunk body)
  | .whilestat c body => whilestat c (chunk body)
  | .repeatstat body c => repeatstat (chunk body) c
  | .fornum var names body => forstat [var] names true (chunk body)
  | .forlist vars names body => forstat vars names false (chunk body)
  | .ifstat c body rest => ifstat c (chunk body) (arms rest)
  | .selectstat names values body rest => selectstat names values (chunk body) (arms rest)

def chunk : Chunk → Compile
  | .done => fun fs => .ok fs
  | .retstat values => fun fs => .ok (retstat values fs)
  | .breakstat n => breakstat n
  | .continuestat => continuestat
  | .seq s rest => fun fs => do
    let fs ← statement s fs
    chunk rest fs

/-- The arms that follow, given the jumps behind the arms before and those of the last
head. -/
def arms : Arms → List Nat → List Nat → Compile
  | .done => fun escapelist flist fs => .ok (lastArm escapelist flist fs)
  | .otherwise body => elseArm (chunk body)
  | .arm head body rest => fun escapelist flist fs => do
    let (fs, escapelist) := nextArm escapelist flist fs
    let (fs, flist) ← armBlock head (chunk body) fs
    arms rest escapelist flist fs

end

/-! ## Functions -/

/-- `open_func`. -/
def open_func : FuncState := ⟨[], [], 0, [], [], [], []⟩

/-- `close_func`. -/
def close_func (fs : FuncState) : FuncState := luaK_ret (removevars 0 fs)

/-- `body`, with the names of the parameters. -/
def funcBody (params : List String) (c : Chunk) : Except String FuncState := do
  let new ← new_localvars (params.map some) open_func
  let fs ← chunk c (adjustlocalvars new open_func)
  .ok (close_func fs)

end LuaFltk.Compiler
