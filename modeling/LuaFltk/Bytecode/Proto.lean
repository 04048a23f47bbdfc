import LuaFltk.Bytecode.Opcodes

/-!
# Function prototypes

`lobject.h`: the constants and the prototype a compiled function becomes. Constants
carry numbers of an arbitrary type `N`, for `lua_Number`.
-/

namespace LuaFltk.Bytecode

/-- A constant of `k`. -/
inductive TValue (N : Type) where
  | nil
  | boolean (b : Bool)
  | number (n : N)
  | string (s : String)
  deriving DecidableEq, Repr

/-- `ttisstring`. -/
def TValue.ttisstring {N : Type} : TValue N → Bool
  | .string _ => true
  | _ => false

/-- The bits of `is_vararg`: `VARARG_HASARG`, `VARARG_ISVARARG`, `VARARG_NEEDSARG`. -/
structure Vararg where
  hasarg : Bool
  isvararg : Bool
  needsarg : Bool
  deriving DecidableEq, Repr

/-- `LocVar`. -/
structure LocVar where
  varname : String
  startpc : Nat
  endpc : Nat
  deriving DecidableEq, Repr

/-- `Proto`. The `size` fields of the C record are the lengths of the lists; line
information enters the checker by its length only. -/
structure Proto (N : Type) where
  code : List Instruction
  k : List (TValue N)
  p : List (Proto N)
  locvars : List LocVar
  upvalues : List String
  sizelineinfo : Nat
  nups : Nat
  numparams : Nat
  is_vararg : Vararg
  maxstacksize : Nat

variable {N : Type}

def Proto.sizecode (pt : Proto N) : Nat := pt.code.length
def Proto.sizek (pt : Proto N) : Nat := pt.k.length
def Proto.sizep (pt : Proto N) : Nat := pt.p.length
def Proto.sizeupvalues (pt : Proto N) : Nat := pt.upvalues.length

end LuaFltk.Bytecode
