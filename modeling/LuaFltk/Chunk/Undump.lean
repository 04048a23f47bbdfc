import LuaFltk.Chunk.Dump

/-!
# Reading binary chunks

`lundump.c`. A chunk is read from a stream, with an error where it ends too soon or holds something
a chunk cannot hold; every prototype read is checked by the bytecode verifier before it is given to
the prototype that encloses it.
-/

namespace LuaFltk.Chunk

open Bytecode Lib Lib.Reader

/-! ## What the verifier sees -/

def VARARG_HASARG : Nat := 0
def VARARG_ISVARARG : Nat := 1
def VARARG_NEEDSARG : Nat := 2

/-- The bits of `is_vararg`, by position. -/
def vararg (b : UInt8) : Vararg where
  hasarg := b.toNat.testBit VARARG_HASARG
  isvararg := b.toNat.testBit VARARG_ISVARARG
  needsarg := b.toNat.testBit VARARG_NEEDSARG

/-- A string as text, a character a byte; the verifier looks into no string. -/
def text (s : Option Bytes) : String := .ofList ((s.getD []).map fun b => Char.ofNat b.toNat)

def Constant.tvalue : Constant → TValue (BitVec 64)
  | .nil => .nil
  | .boolean b => .boolean b
  | .number n => .number n
  | .string s => .string (text s)

def LocVar.named (v : LocVar) : Bytecode.LocVar := ⟨text v.varname, v.startpc, v.endpc⟩

mutual

/-- The prototype the verifier is given. -/
def Proto.checked : Proto → Bytecode.Proto (BitVec 64)
  | .mk f ps => {
      code := f.code
      k := f.k.map Constant.tvalue
      p := Proto.checkeds ps
      locvars := f.locvars.map LocVar.named
      upvalues := f.upvalues.map text
      sizelineinfo := f.lineinfo.length
      nups := f.nups.toNat
      numparams := f.numparams.toNat
      is_vararg := vararg f.is_vararg
      maxstacksize := f.maxstacksize.toNat }

def Proto.checkeds : List Proto → List (Bytecode.Proto (BitVec 64))
  | [] => []
  | f :: ps => f.checked :: Proto.checkeds ps

end

/-! ## Reading -/

def LoadByte : Reader ZIO String UInt8 := do
  let x ← LoadBlock 1
  pure (x.headD 0)

/-- `LoadInt`: four bytes as an `int`, which is negative from `2 ^ 31` on. -/
def LoadInt : Reader ZIO String Nat := do
  let x ← LoadBlock 4
  if number x < 2 ^ 31 then pure (number x) else fail "bad integer"

def LoadNumber : Reader ZIO String (BitVec 64) := do
  let x ← LoadBlock 8
  pure (BitVec.ofNat 64 (number x))

/-- `LoadString`: `NULL` for the size 0, else the bytes without the trailing zero. -/
def LoadString : Reader ZIO String (Option Bytes) := do
  let x ← LoadBlock 8
  if number x = 0 then pure none
  else do
    let s ← LoadBlock (number x)
    pure (some (s.take (number x - 1)))

/-- The `n` elements of `size` bytes in a block. -/
def elements (size : Nat) : Nat → Bytes → List Nat
  | 0, _ => []
  | n + 1, b => number (b.take size) :: elements size n (b.drop size)

/-- `LoadVector`, after the number of elements. -/
def LoadVector (size n : Nat) : Reader ZIO String (List Nat) := do
  let b ← LoadBlock (n * size)
  pure (elements size n b)

def LoadCode : Reader ZIO String (List Instruction) := do
  let n ← LoadInt
  let code ← LoadVector 4 n
  pure (code.map Instruction.ofWord)

/-- The body of the loop over the constants in `LoadConstants`. -/
def LoadConstant : Reader ZIO String Constant := do
  let t ← LoadByte
  if t = LUA_TNIL then pure .nil
  else if t = LUA_TBOOLEAN then do
    let b ← LoadByte
    pure (.boolean (b != 0))
  else if t = LUA_TNUMBER then do
    let n ← LoadNumber
    pure (.number n)
  else if t = LUA_TSTRING then do
    let s ← LoadString
    pure (.string s)
  else fail "bad constant"

/-- `LoadConstants`, with the reader of a nested prototype. -/
def LoadConstants (LoadFunction : Reader ZIO String Proto) :
    Reader ZIO String (List Constant × List Proto) := do
  let n ← LoadInt
  let k ← times LoadConstant n
  let n ← LoadInt
  let p ← times LoadFunction n
  pure (k, p)

/-- The body of the loop over `locvars` in `LoadDebug`. -/
def LoadLocVar : Reader ZIO String LocVar := do
  let varname ← LoadString
  let startpc ← LoadInt
  let endpc ← LoadInt
  pure ⟨varname, startpc, endpc⟩

/-- The lists of a `Proto` for debugging. -/
structure Debug where
  lineinfo : List (BitVec 32)
  locvars : List LocVar
  upvalues : List (Option Bytes)

def LoadDebug : Reader ZIO String Debug := do
  let n ← LoadInt
  let lineinfo ← LoadVector 4 n
  let n ← LoadInt
  let locvars ← times LoadLocVar n
  let n ← LoadInt
  let upvalues ← times LoadString n
  pure ⟨lineinfo.map (BitVec.ofNat 32), locvars, upvalues⟩

/-- The fields at the beginning of a function; the lists come later. -/
def LoadFields (p : Bytes) : Reader ZIO String Fields := do
  let source ← LoadString
  let linedefined ← LoadInt
  let lastlinedefined ← LoadInt
  let nups ← LoadByte
  let numparams ← LoadByte
  let is_vararg ← LoadByte
  let maxstacksize ← LoadByte
  pure { source := source.getD p, linedefined, lastlinedefined, nups, numparams, is_vararg,
         maxstacksize, code := [], k := [], lineinfo := [], locvars := [], upvalues := [] }

/-- A `Proto` of which all lists are read. -/
def Fields.proto (f : Fields) (code : List Instruction) (k : List Constant) (p : List Proto)
    (debug : Debug) : Proto :=
  .mk { f with
    code := code, k := k, lineinfo := debug.lineinfo, locvars := debug.locvars,
    upvalues := debug.upvalues } p

/-- The check at the end of `LoadFunction`. -/
def accept (f : Proto) : Reader ZIO String Proto :=
  if luaG_checkcode f.checked = true then pure f else fail "bad code"

/-- `LoadFunction`, with so many C levels left before `LUAI_MAXCCALLS`. -/
def LoadFunction : Nat → Bytes → Reader ZIO String Proto
  | 0, _ => fail "code too deep"
  | levels + 1, p => do
    let f ← LoadFields p
    let code ← LoadCode
    let kp ← LoadConstants (LoadFunction levels f.source)
    let debug ← LoadDebug
    accept (f.proto code kp.1 kp.2 debug)

def LoadHeader : Reader ZIO String Unit := do
  let s ← LoadBlock LUAC_HEADERSIZE
  if s = luaU_header then pure () else fail "bad header"

def LUAI_MAXCCALLS : Nat := 200

/-- The name of a chunk in messages. -/
def chunkName (name : String) : String :=
  match name.toList with
  | [] => name
  | c :: rest =>
    if c = '@' ∨ c = '=' then .ofList rest
    else if c.toNat = 0x1b then "binary string"
    else name

/-- `error`: the message thrown with `LUA_ERRSYNTAX`. -/
def error (name why : String) : String := chunkName name ++ ": " ++ why ++ " in precompiled chunk"

/-- The source of the outermost function, where the chunk has none. -/
def unknownSource : Bytes := [0x3d, 0x3f]

/-- The body of `luaU_undump`, called with `nCcalls` C levels in use. -/
def load (nCcalls : Nat) : Reader ZIO String Proto := do
  LoadHeader
  LoadFunction (LUAI_MAXCCALLS - nCcalls) unknownSource

def luaU_undump (nCcalls : Nat) (Z : ZIO) (name : String) : Except String (Proto × ZIO) :=
  match load nCcalls Z with
  | .ok r => .ok r
  | .error why => .error (error name why)

end LuaFltk.Chunk
