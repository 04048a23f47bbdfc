import Mathlib.Tactic

/-!
# Comparisons that call metamethods

`equalobj`, `luaV_equalval` and `callTMres` of `lvm.c`. The Lua stack can move whenever it
grows, and a metamethod runs arbitrary code, so an address into the stack names the block of
memory it points into: a new block for each move. The record of a run lists the comparisons
made and the calls they led to.
-/

namespace LuaFltk.Vm

/-- An address in the Lua stack. -/
structure StkId where
  block : Nat
  offset : Nat
  deriving DecidableEq, Repr

instance : HAdd StkId Nat StkId := ⟨fun a n => ⟨a.block, a.offset + n⟩⟩

instance : HSub StkId Nat StkId := ⟨fun a n => ⟨a.block, a.offset - n⟩⟩

@[simp] theorem StkId.add_block (a : StkId) (n : Nat) : (a + n).block = a.block := rfl
@[simp] theorem StkId.add_offset (a : StkId) (n : Nat) : (a + n).offset = a.offset + n := rfl
@[simp] theorem StkId.sub_block (a : StkId) (n : Nat) : (a - n).block = a.block := rfl
@[simp] theorem StkId.sub_offset (a : StkId) (n : Nat) : (a - n).offset = a.offset - n := rfl

/-- A Lua value; what is collectable is the address of its object. -/
inductive TValue (N : Type) where
  | nil
  | boolean (b : Bool)
  | lightuserdata (p : Nat)
  | number (n : N)
  | string (gc : Nat)
  | table (gc : Nat)
  | function (gc : Nat)
  | userdata (gc : Nat)
  | thread (gc : Nat)
  deriving DecidableEq

variable {N : Type}

def TValue.ttype : TValue N → Nat
  | nil => 0
  | boolean _ => 1
  | lightuserdata _ => 2
  | number _ => 3
  | string _ => 4
  | table _ => 5
  | function _ => 6
  | userdata _ => 7
  | thread _ => 8

def TValue.gcvalue : TValue N → Option Nat
  | string gc | table gc | function gc | userdata gc | thread gc => some gc
  | _ => none

def TValue.l_isfalse : TValue N → Bool
  | nil => true
  | boolean b => !b
  | _ => false

/-- The metatables of tables and userdata, and the field `__eq` of a metatable. -/
structure Heap (N : Type) where
  metatable : Nat → Option Nat
  eqField : Nat → Option (TValue N)

/-- What happens in a run: a comparison of two addresses, a metamethod called with the stack
in the block `stack`, and its return. -/
inductive Event where
  | compare (left right : StkId) (stack : Nat)
  | call (func : StkId) (stack : Nat)
  | ret (stack : Nat)
  deriving DecidableEq, Repr

/-- The state: the block the stack is in, memory, the fields `base` (an offset, for moving
the stack moves it along) and `top`, and the record of the run. -/
structure LState (N : Type) where
  stack : Nat
  mem : StkId → TValue N
  heap : Heap N
  base : Nat
  top : StkId
  trace : List Event

/-- What a called function has done when it is over: how often the stack has moved, what
memory holds, and whether it returns or raises an error. -/
structure Outcome (N : Type) where
  moves : Nat
  mem : StkId → TValue N
  heap : Heap N
  returns : Bool

/-- What the interpreter meets: equality of numbers, whether there is room on the stack, what
freed memory holds, and what called functions do. -/
structure Env (N : Type) where
  numeq : N → N → Bool
  room : LState N → Nat → Bool
  freed : LState N → StkId → TValue N
  callee : LState N → StkId → Outcome N

/-- Steps of the interpreter. An error leaves the instruction, and the state stays. -/
abbrev VmM (N : Type) := OptionT (StateM (LState N))

/-- A part that fails ends the whole. -/
theorem bind_apply {α β : Type} (x : VmM N α) (f : α → VmM N β) (s : LState N) :
    (x >>= f) s = match x s with
      | (some a, s') => f a s'
      | (none, s') => (none, s') := by
  show (match x s with
    | (r, s') => (match r with
      | some a => f a
      | none => pure none : StateM (LState N) (Option β)) s') = _
  cases x s with
  | mk r s' => cases r <;> rfl

@[simp] theorem pure_apply {α : Type} (a : α) (s : LState N) :
    (pure a : VmM N α) s = (some a, s) := rfl

@[simp] theorem failure_apply {α : Type} (s : LState N) :
    (failure : VmM N α) s = (none, s) := rfl

def modifyL (f : LState N → LState N) : VmM N Unit := fun s => (some (), f s)

def getL : VmM N (LState N) := fun s => (some s, s)

@[simp] theorem modifyL_apply (f : LState N → LState N) (s : LState N) :
    modifyL f s = (some (), f s) := rfl

@[simp] theorem getL_apply (s : LState N) : getL s = (some s, s) := rfl

def record (e : Event) : VmM N Unit := modifyL fun s => { s with trace := s.trace ++ [e] }

def setobj (res : StkId) (v : TValue N) : VmM N Unit :=
  modifyL fun s => { s with mem := Function.update s.mem res v }

/-- `luaD_reallocstack` with a block elsewhere: the stack is copied, and `correctstack`
corrects `base` and `top`. -/
def moveStack (env : Env N) (s : LState N) : LState N :=
  { s with
    stack := s.stack + 1
    mem := fun a => if a.block = s.stack + 1 then s.mem ⟨s.stack, a.offset⟩ else env.freed s a
    top := ⟨s.stack + 1, s.top.offset⟩ }

def luaD_checkstack (env : Env N) (n : Nat) : VmM N Unit :=
  modifyL fun s => if env.room s n then s else moveStack env s

/-- `luaD_call` for one result, which it leaves where the function was. -/
def luaD_call (env : Env N) (func : StkId) : VmM N Unit := do
  let s ← getL
  record (.call func s.stack)
  let o := env.callee s func
  modifyL fun s => { s with stack := s.stack + o.moves, mem := o.mem, heap := o.heap }
  if o.returns then
    modifyL fun s => { s with top := ⟨s.stack, func.offset + 1⟩ }
    record (.ret (s.stack + o.moves))
  else failure

/-- `restorestack` of an offset that `savestack` gave. -/
def restorestack (s : LState N) (result : Nat) : StkId := ⟨s.stack, result⟩

def callTMres (env : Env N) (res : StkId) (f : TValue N) (p1 p2 : StkId) : VmM N Unit := do
  let result := res.offset
  setobj (← getL).top f
  setobj ((← getL).top + 1) ((← getL).mem p1)
  setobj ((← getL).top + 2) ((← getL).mem p2)
  luaD_checkstack env 3
  modifyL fun s => { s with top := s.top + 3 }
  luaD_call env ((← getL).top - 3)
  modifyL fun s => { s with top := s.top - 1 }
  setobj (restorestack (← getL) result) ((← getL).mem (← getL).top)

def fasttm (h : Heap N) : Option Nat → Option (TValue N)
  | none => none
  | some mt => h.eqField mt

def luaO_rawequalObj (env : Env N) (t1 t2 : TValue N) : Bool :=
  if t1.ttype ≠ t2.ttype then false
  else match t1, t2 with
    | .nil, _ => true
    | .number a, .number b => env.numeq a b
    | .boolean a, .boolean b => a == b
    | .lightuserdata a, .lightuserdata b => a == b
    | _, _ => t1.gcvalue == t2.gcvalue

/-- `get_compTM` for the event `__eq`. -/
def get_compTM (env : Env N) (h : Heap N) (mt1 mt2 : Option Nat) : Option (TValue N) :=
  match fasttm h mt1 with
  | none => none
  | some tm1 =>
    if mt1 = mt2 then some tm1
    else match fasttm h mt2 with
      | none => none
      | some tm2 => if luaO_rawequalObj env tm1 tm2 then some tm1 else none

/-- The first half of `luaV_equalval`: the answer, or the metamethod to ask (if any). -/
def equalRaw (env : Env N) (h : Heap N) (v1 v2 : TValue N) : Bool ⊕ Option (TValue N) :=
  match v1, v2 with
  | .nil, _ => .inl true
  | .number a, .number b => .inl (env.numeq a b)
  | .boolean a, .boolean b => .inl (a == b)
  | .lightuserdata a, .lightuserdata b => .inl (a == b)
  | .userdata a, .userdata b | .table a, .table b =>
    if a = b then .inl true else .inr (get_compTM env h (h.metatable a) (h.metatable b))
  | _, _ => .inl (v1.gcvalue == v2.gcvalue)

def luaV_equalval (env : Env N) (t1 t2 : StkId) : VmM N Bool := do
  let s ← getL
  match equalRaw env s.heap (s.mem t1) (s.mem t2) with
  | .inl eq => pure eq
  | .inr none => pure false
  | .inr (some tm) => do
    callTMres env s.top tm t1 t2
    let s ← getL
    pure (!(s.mem s.top).l_isfalse)

def equalobj (env : Env N) (o1 o2 : StkId) : VmM N Bool := do
  let s ← getL
  record (.compare o1 o2 s.stack)
  if (s.mem o1).ttype = (s.mem o2).ttype then luaV_equalval env o1 o2 else pure false

/-- When the stack moves, `base` and `top` move with it. -/
theorem checkstack_spec (env : Env N) (n : Nat) {s : LState N} (h : s.top.block = s.stack) :
    ∃ s', luaD_checkstack env n s = (some (), s') ∧ s'.base = s.base ∧
      s'.top = ⟨s'.stack, s.top.offset⟩ ∧ s'.trace = s.trace := by
  unfold luaD_checkstack
  rw [modifyL_apply]
  split
  · exact ⟨s, rfl, rfl, by rw [← h], rfl⟩
  · exact ⟨moveStack env s, rfl, rfl, rfl, rfl⟩

/-- A called function returns with its result where it stood, or raises an error. -/
theorem call_spec (env : Env N) (func : StkId) (s : LState N) :
    ∃ s', s'.base = s.base ∧
      ((luaD_call env func s = (some (), s') ∧ s'.top = ⟨s'.stack, func.offset + 1⟩ ∧
          s'.trace = s.trace ++ [.call func s.stack, .ret s'.stack]) ∨
        (luaD_call env func s = (none, s') ∧ s'.trace = s.trace ++ [.call func s.stack])) := by
  unfold luaD_call record
  simp only [bind_apply, getL_apply, modifyL_apply]
  by_cases h : (env.callee s func).returns = true
  · simp only [h, ↓reduceIte, bind_apply, modifyL_apply]
    refine ⟨_, ?_, .inl ⟨rfl, rfl, ?_⟩⟩
    · rfl
    · simp
  · rw [if_neg h]
    refine ⟨_, ?_, .inr ⟨rfl, rfl⟩⟩
    rfl

/-- What a run of `callTMres` leaves: the function called stands at the old `top`, and `top`
is there again when it returns. -/
inductive Called (s : LState N) : Option Unit × LState N → Prop where
  | returned {s' : LState N} (st : Nat) : s'.base = s.base →
      s'.top = ⟨s'.stack, s.top.offset⟩ →
      s'.trace = s.trace ++ [.call ⟨st, s.top.offset⟩ st, .ret s'.stack] → Called s (some (), s')
  | raised {s' : LState N} (st : Nat) :
      s'.trace = s.trace ++ [.call ⟨st, s.top.offset⟩ st] → Called s (none, s')

/-- A metamethod is called with the two values, and its result taken from the stack where that is
now. -/
theorem callTMres_spec (env : Env N) (f : TValue N) (p1 p2 : StkId) {s : LState N}
    (h : s.top.block = s.stack) : Called s (callTMres env s.top f p1 p2 s) := by
  unfold callTMres setobj
  simp only [bind_apply, getL_apply, modifyL_apply]
  generalize Function.update _ (s.top + 2) _ = m
  obtain ⟨s₁, hrun, hbase, htop, htrace⟩ := checkstack_spec env 3 (s := { s with mem := m }) h
  rw [hrun]
  dsimp only at hbase htop htrace ⊢
  have hfunc : s₁.top + 3 - 3 = ⟨s₁.stack, s.top.offset⟩ := by rw [htop]; rfl
  rw [hfunc]
  obtain ⟨s₂, hbase₂, ⟨hcall, htop₂, htrace₂⟩ | ⟨hcall, htrace₂⟩⟩ :=
    call_spec env ⟨s₁.stack, s.top.offset⟩ { s₁ with top := s₁.top + 3 }
  · rw [hcall]
    refine .returned s₁.stack (hbase₂.trans hbase) ?_ ?_
    · show s₂.top - 1 = _
      rw [htop₂]
      rfl
    · show s₂.trace = _
      rw [htrace₂]
      exact congrArg (· ++ _) htrace
  · rw [hcall]
    exact .raised s₁.stack (htrace₂.trans (congrArg (· ++ _) htrace))

/-- What one comparison leaves: the registers stay where they are in the stack, and if a
metamethod is called it stands at the old `top`, and `top` is there again when it returns. -/
inductive Compared (o1 o2 : StkId) (s : LState N) : Option Bool × LState N → Prop where
  | plain {b : Bool} {s' : LState N} : s'.stack = s.stack → s'.base = s.base → s'.top = s.top →
      s'.trace = s.trace ++ [.compare o1 o2 s.stack] → Compared o1 o2 s (some b, s')
  | returned {b : Bool} {s' : LState N} (st : Nat) : s'.base = s.base →
      s'.top = ⟨s'.stack, s.top.offset⟩ →
      s'.trace = s.trace ++ [.compare o1 o2 s.stack, .call ⟨st, s.top.offset⟩ st, .ret s'.stack] →
      Compared o1 o2 s (some b, s')
  | raised {s' : LState N} (st : Nat) :
      s'.trace = s.trace ++ [.compare o1 o2 s.stack, .call ⟨st, s.top.offset⟩ st] →
      Compared o1 o2 s (none, s')


/-- At most one metamethod is called in a comparison. -/
theorem equalobj_spec (env : Env N) (o1 o2 : StkId) {s : LState N} (h : s.top.block = s.stack) :
    Compared o1 o2 s (equalobj env o1 o2 s) := by
  unfold equalobj record
  simp only [bind_apply, getL_apply, modifyL_apply]
  split
  · unfold luaV_equalval
    simp only [bind_apply, getL_apply]
    rcases equalRaw env s.heap (s.mem o1) (s.mem o2) with eq | (_ | tm)
    · exact .plain rfl rfl rfl rfl
    · exact .plain rfl rfl rfl rfl
    · have hcall := callTMres_spec env tm o1 o2
        (s := { s with trace := s.trace ++ [.compare o1 o2 s.stack] }) h
      simp only [bind_apply]
      revert hcall
      generalize callTMres env s.top tm o1 o2 _ = r
      intro hcall
      cases hcall with
      | returned st hbase htop htrace =>
        refine .returned st hbase htop ?_
        rw [htrace]
        simp
      | raised st htrace =>
        refine .raised st ?_
        rw [htrace]
        simp
  · exact .plain rfl rfl rfl rfl

end LuaFltk.Vm
