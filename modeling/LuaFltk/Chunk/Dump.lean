import LuaFltk.Bytecode.CheckCode
import LuaFltk.Chunk.Zio

/-!
# Writing binary chunks

`ldump.c`: a prototype, with the prototypes nested in it, as the blocks of bytes that are handed to
a `lua_Writer` one by one. Numbers are written as a machine with four-byte integers and eight-byte
sizes and numbers holds them, the lowest byte first; `luaU_header` says so.
-/

namespace LuaFltk.Chunk

open Bytecode

/-! ## Numbers as bytes -/

/-- The lowest `n` bytes of `x`, the lowest first. -/
def bytes : Nat → Nat → Bytes
  | 0, _ => []
  | n + 1, x => UInt8.ofNat x :: bytes n (x / 256)

/-- The number the bytes hold. -/
def number : Bytes → Nat
  | [] => 0
  | b :: bs => b.toNat + 256 * number bs

@[simp] theorem length_bytes (n x : Nat) : (bytes n x).length = n := by
  induction n generalizing x with
  | zero => rfl
  | succ n ih => rw [bytes, List.length_cons, ih]

/-- A number that fits is read back from its bytes. -/
theorem number_bytes {n x : Nat} (h : x < 256 ^ n) : number (bytes n x) = x := by
  induction n generalizing x with
  | zero => rw [pow_zero, Nat.lt_one_iff] at h; exact h.symm
  | succ n ih =>
    rw [pow_succ, Nat.mul_comm] at h
    rw [bytes, number, ih (Nat.div_lt_of_lt_mul h), UInt8.toNat_ofNat']
    exact Nat.mod_add_div x 256

theorem number_lt (bs : Bytes) : number bs < 256 ^ bs.length := by
  induction bs with
  | nil => exact Nat.one_pos
  | cons b bs ih =>
    have hb := b.toNat_lt
    rw [number, List.length_cons, pow_succ]
    omega

/-! ## Prototypes -/

/-- A constant of `k`. A string is `NULL` where a chunk gives it the size 0. -/
inductive Constant where
  | nil
  | boolean (b : Bool)
  | number (n : BitVec 64)
  | string (s : Option Bytes)
  deriving DecidableEq, Repr

/-- `LocVar`. -/
structure LocVar where
  varname : Option Bytes
  startpc : Nat
  endpc : Nat
  deriving DecidableEq, Repr

/-- The fields of a `Proto` itself; the sizes are the lengths of the lists. -/
structure Fields where
  source : Bytes
  linedefined : Nat
  lastlinedefined : Nat
  nups : UInt8
  numparams : UInt8
  is_vararg : UInt8
  maxstacksize : UInt8
  code : List Instruction
  k : List Constant
  lineinfo : List (BitVec 32)
  locvars : List LocVar
  upvalues : List (Option Bytes)
  deriving DecidableEq, Repr

/-- `Proto`, with the prototypes `p` nested in it. -/
inductive Proto where
  | mk (f : Fields) (p : List Proto)

/-! ## Writing -/

def LUA_SIGNATURE : Bytes := [0x1b, 0x4c, 0x75, 0x61]

def LUAC_VERSION : UInt8 := 0x51

def LUAC_FORMAT : UInt8 := 0

def LUAC_HEADERSIZE : Nat := 12

/-- `luaU_header`: the byte order, the sizes of `int`, `size_t`, `Instruction` and `lua_Number`, and
that numbers are not integral. -/
def luaU_header : Bytes := LUA_SIGNATURE ++ [LUAC_VERSION, LUAC_FORMAT, 1, 4, 8, 4, 8, 0]

def LUA_TNIL : UInt8 := 0
def LUA_TBOOLEAN : UInt8 := 1
def LUA_TNUMBER : UInt8 := 3
def LUA_TSTRING : UInt8 := 4

def DumpChar (y : UInt8) : List Bytes := [[y]]

def DumpInt (x : Nat) : List Bytes := [bytes 4 x]

def DumpNumber (x : BitVec 64) : List Bytes := [bytes 8 x.toNat]

/-- `DumpVector`, of elements of `size` bytes. -/
def DumpVector (b : List Nat) (size : Nat) : List Bytes :=
  DumpInt b.length ++ [b.flatMap (bytes size)]

/-- `DumpString`: the size counts the trailing zero. -/
def DumpString : Option Bytes → List Bytes
  | none => [bytes 8 0]
  | some s => [bytes 8 (s.length + 1), s ++ [0]]

def DumpCode (f : Fields) : List Bytes := DumpVector (f.code.map Instruction.toWord) 4

/-- The body of the first loop of `DumpConstants`. -/
def DumpConstant : Constant → List Bytes
  | .nil => DumpChar LUA_TNIL
  | .boolean b => DumpChar LUA_TBOOLEAN ++ DumpChar (if b then 1 else 0)
  | .number n => DumpChar LUA_TNUMBER ++ DumpNumber n
  | .string s => DumpChar LUA_TSTRING ++ DumpString s

/-- The body of the second loop of `DumpDebug`. -/
def DumpLocVar (v : LocVar) : List Bytes :=
  DumpString v.varname ++ DumpInt v.startpc ++ DumpInt v.endpc

/-- What `DumpDebug` takes for the lists when it strips them. -/
def kept {α : Type} (strip : Bool) (xs : List α) : List α := if strip then [] else xs

def DumpDebug (f : Fields) (strip : Bool) : List Bytes :=
  DumpVector ((kept strip f.lineinfo).map BitVec.toNat) 4 ++
    DumpInt (kept strip f.locvars).length ++ (kept strip f.locvars).flatMap DumpLocVar ++
    DumpInt (kept strip f.upvalues).length ++ (kept strip f.upvalues).flatMap DumpString

/-- The beginning of `DumpFunction`. Strings are interned, so that the source of the function that
encloses this one is compared as a pointer. -/
def DumpFields (f : Fields) (p : Option Bytes) (strip : Bool) : List Bytes :=
  DumpString (if some f.source = p ∨ strip = true then none else some f.source) ++
    DumpInt f.linedefined ++ DumpInt f.lastlinedefined ++ DumpChar f.nups ++
    DumpChar f.numparams ++ DumpChar f.is_vararg ++ DumpChar f.maxstacksize

mutual

def DumpFunction (strip : Bool) (p : Option Bytes) : Proto → List Bytes
  | .mk f ps =>
    DumpFields f p strip ++ DumpCode f ++
      (DumpInt f.k.length ++ f.k.flatMap DumpConstant ++
        (DumpInt ps.length ++ DumpFunctions strip f.source ps)) ++
      DumpDebug f strip

/-- The second loop of `DumpConstants`, over the nested prototypes. -/
def DumpFunctions (strip : Bool) (source : Bytes) : List Proto → List Bytes
  | [] => []
  | f :: ps => DumpFunction strip (some source) f ++ DumpFunctions strip source ps

end

/-- The blocks of the chunk of `f`, in the order they are written. -/
def blocks (f : Proto) (strip : Bool) : List Bytes :=
  luaU_header :: DumpFunction strip none f

/-- The binary chunk of `f`. -/
def chunk (f : Proto) (strip : Bool) : Bytes := (blocks f strip).flatten

/-- A `lua_Writer`: what it does to its `data`, and the status it returns. -/
abbrev Writer (δ : Type) := Bytes → δ → Int × δ

/-- `DumpState`. -/
structure DumpState (δ : Type) where
  data : δ
  status : Int

/-- `DumpBlock`: once the writer has failed it is not called again. -/
def DumpBlock {δ : Type} (writer : Writer δ) (D : DumpState δ) (b : Bytes) : DumpState δ :=
  if D.status = 0 then ⟨(writer b D.data).2, (writer b D.data).1⟩ else D

def luaU_dump {δ : Type} (f : Proto) (w : Writer δ) (data : δ) (strip : Bool) : DumpState δ :=
  (blocks f strip).foldl (DumpBlock w) ⟨data, 0⟩

section Written

variable {δ : Type} {w : Writer δ} {written : δ → Bytes}

/-- Once the writer has failed nothing more is handed to it. -/
theorem dumpBlock_failed {D : DumpState δ} (h : D.status ≠ 0) (bs : List Bytes) :
    bs.foldl (DumpBlock w) D = D := by
  induction bs with
  | nil => rfl
  | cons b bs ih => rw [List.foldl_cons, DumpBlock, if_neg h, ih]

/-- A writer keeps what it takes with the status 0. -/
def Keeps (w : Writer δ) (written : δ → Bytes) : Prop :=
  ∀ b data, (w b data).1 = 0 → written (w b data).2 = written data ++ b

/-- While the writer does not fail, what was written is the blocks one behind the other. -/
theorem dumpBlocks_written (hw : Keeps w written) (bs : List Bytes) (D : DumpState δ)
    (h : (bs.foldl (DumpBlock w) D).status = 0) :
    written (bs.foldl (DumpBlock w) D).data = written D.data ++ bs.flatten := by
  induction bs generalizing D with
  | nil => exact (List.append_nil _).symm
  | cons b bs ih =>
    rw [List.foldl_cons] at h ⊢
    by_cases hD : (DumpBlock w D b).status = 0
    · have hstatus : D.status = 0 := by
        by_contra hne
        rw [DumpBlock, if_neg hne] at hD
        exact hne hD
      rw [ih _ h, DumpBlock, if_pos hstatus]
      rw [DumpBlock, if_pos hstatus] at hD
      rw [hw b D.data hD, List.flatten_cons, List.append_assoc]
    · rw [dumpBlock_failed hD] at h
      exact absurd h hD

/-- What a writer has taken when `luaU_dump` returns 0 is the chunk. -/
theorem luaU_dump_written (hw : Keeps w written) {f : Proto} {data : δ} {strip : Bool}
    (h : (luaU_dump f w data strip).status = 0) :
    written (luaU_dump f w data strip).data = written data ++ chunk f strip :=
  dumpBlocks_written hw _ _ h

end Written

end LuaFltk.Chunk
