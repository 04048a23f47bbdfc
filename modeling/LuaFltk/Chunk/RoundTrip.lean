import LuaFltk.Chunk.Undump

/-!
# Chunks read back

What `luaU_dump` has written of a prototype, `luaU_undump` reads: into the same prototype, or into
one without its debug information where that was stripped.
-/

namespace LuaFltk.Bytecode

/-! ## Instructions as words -/

theorem OpCode.toNat_lt (op : OpCode) : op.toNat < 64 := by
  cases op with
  | undef k => exact Nat.add_lt_add_left k.isLt 39
  | _ => decide

/-- An opcode is read from its own number. -/
theorem OpCode.ofFin_toNat (op : OpCode) : OpCode.ofFin ⟨op.toNat, op.toNat_lt⟩ = op := by
  cases op with
  | undef k =>
    have hge : ¬ (OpCode.undef k).toNat < 39 := Nat.not_lt.2 (Nat.le_add_right 39 k.val)
    rw [OpCode.ofFin, dif_neg hge]
    congr 1
    exact Fin.ext (Nat.add_sub_cancel_left 39 k.val)
  | _ => rfl

namespace Instruction

/-- An instruction fills 32 bits. -/
theorem toWord_lt (i : Instruction) : i.toWord < 2 ^ 32 := by
  have hop := i.op.toNat_lt
  have ha := i.a.isLt
  have hb := i.b.isLt
  have hc := i.c.isLt
  rw [toWord]
  omega

/-- The fields are read back from the word. -/
theorem ofWord_toWord (i : Instruction) : ofWord i.toWord = i := by
  obtain ⟨op, a, b, c⟩ := i
  have hop := op.toNat_lt
  have ha := a.isLt
  have hb := b.isLt
  have hc := c.isLt
  have hfin : Fin.ofNat 64 (toWord ⟨op, a, b, c⟩) = ⟨op.toNat, hop⟩ := by
    apply Fin.ext
    simp only [toWord, Fin.ofNat]
    omega
  rw [ofWord, hfin, OpCode.ofFin_toNat]
  simp only [toWord, mk.injEq, true_and, Fin.ext_iff, Fin.ofNat]
  omega

end Instruction

end LuaFltk.Bytecode

namespace LuaFltk.Chunk

open Bytecode Lib Lib.Reader

variable {α γ : Type}

/-! ## Blocks read -/

/-- What is written in blocks is read. -/
abbrev Loads (r : Reader ZIO String α) (b : List Bytes) (x : α) : Prop :=
  Reads ZIO.ahead r b.flatten x

/-- What is dumped in two parts is read in two parts. -/
theorem Loads.bind {r : Reader ZIO String α} {f : α → Reader ZIO String γ} {b b' : List Bytes}
    {x : α} {y : γ} (h : Loads r b x) (h' : Loads (f x) b' y) : Loads (r >>= f) (b ++ b') y := by
  rw [Loads, List.flatten_append]
  exact Reads.bind h h'

/-- A block is read as it was written. -/
theorem Loads.block (b : Bytes) : Loads (LoadBlock b.length) [b] b := by
  rw [Loads, List.flatten_singleton]
  exact Reads.take loadBlock_takes b

/-- A list is read element by element. -/
theorem Loads.times {r : Reader ZIO String α} {enc : γ → List Bytes} {dec : γ → α} {xs : List γ}
    (h : ∀ x ∈ xs, Loads r (enc x) (dec x)) :
    Loads (Reader.times r xs.length) (xs.flatMap enc) (xs.map dec) := by
  simpa only [Loads, List.flatten_eq_flatMap, List.flatMap_assoc] using Reads.times h

/-- What is written in blocks is refused. -/
abbrev Refused (r : Reader ZIO String α) (b : List Bytes) (e : String) : Prop :=
  Refuses ZIO.ahead r b.flatten e

/-- Behind an error nothing is read. -/
theorem Refused.bind {r : Reader ZIO String α} {b : List Bytes} {e : String} (h : Refused r b e)
    (f : α → Reader ZIO String γ) (b' : List Bytes) : Refused (r >>= f) (b ++ b') e := by
  rw [Refused, List.flatten_append]
  exact Refuses.bind h f b'.flatten

/-- An error in the second part is the error of both. -/
theorem Loads.refused {r : Reader ZIO String α} {f : α → Reader ZIO String γ} {b b' : List Bytes}
    {x : α} {e : String} (h : Loads r b x) (h' : Refused (f x) b' e) :
    Refused (r >>= f) (b ++ b') e := by
  rw [Refused, List.flatten_append]
  exact Reads.refuses h h'

/-- Each is read as what was written. -/
theorem Loads.list {r : Reader ZIO String α} {enc : α → List Bytes} {xs : List α}
    (h : ∀ x ∈ xs, Loads r (enc x) x) : Loads (Reader.times r xs.length) (xs.flatMap enc) xs := by
  have htimes : Loads (Reader.times r xs.length) (xs.flatMap enc) (xs.map id) := Loads.times h
  rwa [List.map_id] at htimes

theorem loadByte_loads (y : UInt8) : Loads LoadByte (DumpChar y) y :=
  Reads.map (Loads.block [y]) rfl

/-- `LoadInt` refuses a negative number only. -/
theorem loadInt_loads {x : Nat} (h : x < 2 ^ 31) : Loads LoadInt (DumpInt x) x := by
  refine Reads.map (x := bytes 4 x) ?_ ?_
  · have hblock := Loads.block (bytes 4 x)
    rwa [length_bytes] at hblock
  · have hnumber : number (bytes 4 x) = x := number_bytes (by omega)
    rw [hnumber, if_pos h]

theorem loadNumber_loads (n : BitVec 64) : Loads LoadNumber (DumpNumber n) n := by
  refine Reads.map (x := bytes 8 n.toNat) ?_ ?_
  · have hblock := Loads.block (bytes 8 n.toNat)
    rwa [length_bytes] at hblock
  · have hnumber : number (bytes 8 n.toNat) = n.toNat := number_bytes (by have := n.isLt; omega)
    rw [hnumber, BitVec.ofNat_toNat, BitVec.setWidth_eq]

/-- The size of a string, with the trailing zero, is a `size_t`. -/
def StringFits (s : Option Bytes) : Prop := ∀ b ∈ s, b.length + 1 < 2 ^ 64

/-- The size counts the zero byte behind a string, and is 0 for none. -/
theorem loadString_loads {s : Option Bytes} (h : StringFits s) :
    Loads LoadString (DumpString s) s := by
  cases s with
  | none => exact Reads.map (Loads.block (bytes 8 0)) rfl
  | some s =>
    have hsize : number (bytes 8 (s.length + 1)) = s.length + 1 :=
      number_bytes (Nat.lt_of_lt_of_eq (h s rfl) (by norm_num))
    refine Loads.bind (b := [bytes 8 (s.length + 1)]) (x := bytes 8 (s.length + 1)) ?_ ?_
    · have hblock := Loads.block (bytes 8 (s.length + 1))
      rwa [length_bytes] at hblock
    · rw [hsize, if_neg (Nat.succ_ne_zero _)]
      refine Reads.map (x := s ++ [0]) ?_ ?_
      · have hblock := Loads.block (s ++ [0])
        rwa [List.length_append] at hblock
      · rw [Nat.add_sub_cancel, List.take_left]

/-- A vector of numbers that fit is cut into them again. -/
theorem elements_flatMap {size : Nat} {xs : List Nat} (h : ∀ x ∈ xs, x < 256 ^ size) :
    elements size xs.length (xs.flatMap (bytes size)) = xs := by
  induction xs with
  | nil => rfl
  | cons x xs ih =>
    rw [List.forall_mem_cons] at h
    have hsize : (bytes size x).length = size := length_bytes size x
    rw [List.flatMap_cons, List.length_cons, elements, List.take_left' hsize, List.drop_left' hsize,
      number_bytes h.1, ih h.2]

theorem length_flatMap_bytes (size : Nat) (xs : List Nat) :
    (xs.flatMap (bytes size)).length = xs.length * size := by
  induction xs with
  | nil => exact (Nat.zero_mul size).symm
  | cons x xs ih =>
    rw [List.flatMap_cons, List.length_append, length_bytes, ih, List.length_cons]
    ring

/-- A vector is one block. -/
theorem loadVector_loads {size : Nat} {xs : List Nat} (h : ∀ x ∈ xs, x < 256 ^ size) :
    Loads (LoadVector size xs.length) [xs.flatMap (bytes size)] xs := by
  refine Reads.map (x := xs.flatMap (bytes size)) ?_ ?_
  · have hblock := Loads.block (xs.flatMap (bytes size))
    rwa [length_flatMap_bytes] at hblock
  · rw [elements_flatMap h]

theorem loadCode_loads {f : Fields} (h : f.code.length < 2 ^ 31) :
    Loads LoadCode (DumpCode f) f.code := by
  have hlength : (f.code.map Instruction.toWord).length = f.code.length := List.length_map _
  have hwords : ∀ x ∈ f.code.map Instruction.toWord, x < 256 ^ 4 := by
    intro x hx
    obtain ⟨i, -, rfl⟩ := List.mem_map.1 hx
    exact i.toWord_lt
  refine Loads.bind (loadInt_loads (by rwa [hlength])) (Reads.map (loadVector_loads hwords) ?_)
  rw [List.map_map, List.map_congr_left (g := id) fun i _ => i.ofWord_toWord, List.map_id]

/-! ## What fits -/

/-- The strings among the constants fit. -/
def Constant.Fits : Constant → Prop
  | .string s => StringFits s
  | _ => True

/-- The type of a constant stands before its value. -/
theorem loadConstant_loads {o : Constant} (h : o.Fits) : Loads LoadConstant (DumpConstant o) o := by
  cases o with
  | nil => exact Reads.map (loadByte_loads LUA_TNIL) rfl
  | boolean b =>
    refine Loads.bind (loadByte_loads LUA_TBOOLEAN) (Reads.map (loadByte_loads _) ?_)
    cases b <;> rfl
  | number n => exact Loads.bind (loadByte_loads LUA_TNUMBER) (Reads.map (loadNumber_loads n) rfl)
  | string s => exact Loads.bind (loadByte_loads LUA_TSTRING) (Reads.map (loadString_loads h) rfl)

structure LocVar.Fits (v : LocVar) : Prop where
  varname : StringFits v.varname
  startpc : v.startpc < 2 ^ 31
  endpc : v.endpc < 2 ^ 31

theorem loadLocVar_loads {v : LocVar} (h : v.Fits) : Loads LoadLocVar (DumpLocVar v) v := by
  rw [DumpLocVar, List.append_assoc]
  exact Loads.bind (loadString_loads h.varname)
    (Loads.bind (loadInt_loads h.startpc) (Reads.map (loadInt_loads h.endpc) rfl))

/-- The lines, the sizes of the lists and the strings fit the types of the source. -/
structure Fields.Fits (f : Fields) : Prop where
  source : StringFits (some f.source)
  linedefined : f.linedefined < 2 ^ 31
  lastlinedefined : f.lastlinedefined < 2 ^ 31
  code : f.code.length < 2 ^ 31
  k : f.k.length < 2 ^ 31 ∧ ∀ o ∈ f.k, o.Fits
  lineinfo : f.lineinfo.length < 2 ^ 31
  locvars : f.locvars.length < 2 ^ 31 ∧ ∀ v ∈ f.locvars, v.Fits
  upvalues : f.upvalues.length < 2 ^ 31 ∧ ∀ s ∈ f.upvalues, StringFits s

/-- A prototype that fits the format, and that the verifier accepts with all nested in it. -/
inductive Proto.Sound : Proto → Prop where
  | mk {f : Fields} {ps : List Proto} (fits : f.Fits) (sizep : ps.length < 2 ^ 31)
      (checked : luaG_checkcode (Proto.mk f ps).checked = true)
      (nested : ∀ g ∈ ps, Sound g) : Sound (.mk f ps)

mutual

/-- How deep prototypes are nested, this one counted. -/
def Proto.depth : Proto → Nat
  | .mk _ ps => Proto.depths ps + 1

def Proto.depths : List Proto → Nat
  | [] => 0
  | f :: ps => max f.depth (Proto.depths ps)

end

mutual

/-- The prototype without its debug information, under the given source. -/
def Proto.stripped (source : Bytes) : Proto → Proto
  | .mk f ps =>
    .mk { f with source := source, lineinfo := [], locvars := [], upvalues := [] }
      (Proto.strippeds source ps)

def Proto.strippeds (source : Bytes) : List Proto → List Proto
  | [] => []
  | f :: ps => f.stripped source :: Proto.strippeds source ps

end

/-- What is read back under the source `p` of the function around. -/
def Proto.restored (strip : Bool) (p : Bytes) (f : Proto) : Proto :=
  if strip then f.stripped p else f

theorem Proto.depths_le_iff {ps : List Proto} {n : Nat} :
    Proto.depths ps ≤ n ↔ ∀ g ∈ ps, g.depth ≤ n := by
  induction ps with
  | nil => simp [Proto.depths]
  | cons g ps ih => rw [Proto.depths, Nat.max_le, ih, List.forall_mem_cons]

theorem Proto.strippeds_eq (source : Bytes) (ps : List Proto) :
    Proto.strippeds source ps = ps.map (Proto.stripped source) := by
  induction ps with
  | nil => rfl
  | cons g ps ih => rw [Proto.strippeds, ih, List.map_cons]

theorem Proto.checkeds_eq (ps : List Proto) : Proto.checkeds ps = ps.map Proto.checked := by
  induction ps with
  | nil => rfl
  | cons g ps ih => rw [Proto.checkeds, ih, List.map_cons]

/-- The nested prototypes are dumped one behind the other, with the source of the one around
them. -/
theorem dumpFunctions_eq (strip : Bool) (source : Bytes) (ps : List Proto) :
    DumpFunctions strip source ps = ps.flatMap (DumpFunction strip (some source)) := by
  induction ps with
  | nil => rfl
  | cons g ps ih => rw [DumpFunctions, ih, List.flatMap_cons]

/-! ## The verifier and debug information -/

section Stripped

variable {N : Type} {pt pt' : Bytecode.Proto N}

/-- The same code, over the same frame and constants; of nested prototypes the upvalues count. -/
structure SameCode (pt pt' : Bytecode.Proto N) : Prop where
  code : pt'.code = pt.code
  k : pt'.k = pt.k
  p : pt'.p.map Bytecode.Proto.nups = pt.p.map Bytecode.Proto.nups
  nups : pt'.nups = pt.nups
  numparams : pt'.numparams = pt.numparams
  is_vararg : pt'.is_vararg = pt.is_vararg
  maxstacksize : pt'.maxstacksize = pt.maxstacksize

/-- The prototype is `pt` but for what is nested and the debug information. -/
theorem SameCode.eq (h : SameCode pt pt') :
    pt' = { pt with
      p := pt'.p, locvars := pt'.locvars, upvalues := pt'.upvalues,
      sizelineinfo := pt'.sizelineinfo } := by
  obtain ⟨code, k, p, locvars, upvalues, sizelineinfo, nups, numparams, is_vararg, size⟩ := pt'
  obtain ⟨rfl, rfl, -, rfl, rfl, rfl, rfl⟩ := h
  rfl

theorem SameCode.checkPseudo (h : SameCode pt pt') (pc nup : Nat) :
    checkPseudo pt' pc nup = checkPseudo pt pc nup := by
  induction nup with
  | zero => rfl
  | succ nup ih => rw [Bytecode.checkPseudo, ih, h.code, Bytecode.checkPseudo]

theorem SameCode.checkClosure (h : SameCode pt pt') (lastpc reg pc a : Nat) (b c : Int)
    (last : Nat) : checkOp pt' lastpc reg pc OP_CLOSURE a b c last =
      checkOp pt lastpc reg pc OP_CLOSURE a b c last := by
  have hp := congrArg (fun ns : List Nat => ns[b.toNat]?) h.p
  have hsize : pt'.sizecode = pt.sizecode := congrArg List.length h.code
  simp only [List.getElem?_map] at hp
  rw [checkOp, checkOp]
  cases hf : pt.p[b.toNat]? with
  | none =>
    rw [hf, Option.map_none, Option.map_eq_none_iff] at hp
    rw [hp]
  | some f =>
    rw [hf, Option.map_some, Option.map_eq_some_iff] at hp
    obtain ⟨f', hf', hnups⟩ := hp
    rw [hf']
    dsimp only
    rw [hnups, h.checkPseudo, hsize]

/-- The symbolic execution reads nothing that stripping takes away. -/
theorem SameCode.symbexecStep (h : SameCode pt pt') (lastpc reg pc last : Nat) :
    symbexecStep pt' lastpc reg pc last = symbexecStep pt lastpc reg pc last := by
  have hop : ∀ op a b c last,
      checkOp pt' lastpc reg pc op a b c last = checkOp pt lastpc reg pc op a b c last := by
    intro op a b c last
    by_cases hclosure : op = OP_CLOSURE
    · rw [hclosure, h.checkClosure]
    · rw [h.eq]
      cases op <;> first | rfl | exact absurd rfl hclosure
  rw [Bytecode.symbexecStep, Bytecode.symbexecStep]
  simp only [hop]
  rw [h.eq]
  rfl

/-- By induction on the steps that are left. -/
theorem SameCode.symbexecLoop (h : SameCode pt pt') (lastpc reg fuel pc last : Nat) :
    symbexecLoop pt' lastpc reg fuel pc last = symbexecLoop pt lastpc reg fuel pc last := by
  induction fuel generalizing pc last with
  | zero => rw [Bytecode.symbexecLoop, h.code, Bytecode.symbexecLoop]
  | succ fuel ih => simp only [Bytecode.symbexecLoop, h.symbexecStep, h.code, ih]

/-- Code that is accepted is accepted without its debug information. -/
theorem SameCode.accepted (h : SameCode pt pt') (hupvalues : pt'.upvalues = [])
    (hlineinfo : pt'.sizelineinfo = 0) (haccepted : luaG_checkcode pt = true) :
    luaG_checkcode pt' = true := by
  have hpre : precheck pt = some () → precheck pt' = some () := by
    intro hpt
    rw [h.eq, hupvalues, hlineinfo]
    simp only [precheck, Option.bind_eq_bind, Option.bind_eq_some_iff, check_eq_some] at hpt ⊢
    obtain ⟨_, hstack, _, hparams, _, hneeds, _, -, _, -, hreturn⟩ := hpt
    exact ⟨(), hstack, (), hparams, (), hneeds, (), by simp [Bytecode.Proto.sizeupvalues], (),
      by simp, hreturn⟩
  have hsize : pt'.sizecode = pt.sizecode := congrArg List.length h.code
  rw [luaG_checkcode, symbexec] at haccepted ⊢
  cases hpt : precheck pt with
  | none => simp [hpt] at haccepted
  | some u =>
    rw [hpre hpt, hsize]
    simp only [hpt, h.symbexecLoop] at haccepted ⊢
    exact haccepted

end Stripped

theorem Proto.stripped_nups (source : Bytes) (f : Proto) :
    (f.stripped source).checked.nups = f.checked.nups := by
  cases f
  rfl

theorem Proto.stripped_sameCode (source : Bytes) (f : Proto) :
    SameCode f.checked (f.stripped source).checked := by
  obtain ⟨f, ps⟩ := f
  refine ⟨rfl, rfl, ?_, rfl, rfl, rfl, rfl⟩
  change (Proto.checkeds (Proto.strippeds source ps)).map _ = (Proto.checkeds ps).map _
  rw [Proto.checkeds_eq, Proto.checkeds_eq, Proto.strippeds_eq, List.map_map, List.map_map,
    List.map_map]
  exact List.map_congr_left fun g _ => Proto.stripped_nups source g

/-- What a stripped chunk gives back passes the check as well. -/
theorem Proto.Sound.restored_accepted {f : Proto} (h : f.Sound) (strip : Bool) (source : Bytes) :
    luaG_checkcode (f.restored strip source).checked = true := by
  obtain ⟨-, -, hchecked, -⟩ := h
  cases strip with
  | false => exact hchecked
  | true => exact (Proto.stripped_sameCode source _).accepted rfl rfl hchecked

/-! ## Functions read back -/

/-- The fields before the lists. -/
def Fields.head (f : Fields) (source : Bytes) : Fields :=
  { f with source := source, code := [], k := [], lineinfo := [], locvars := [], upvalues := [] }

/-- The name of a nested prototype is left out where it is that of the prototype around it. -/
theorem loadFields_loads {f : Fields} (h : f.Fits) {p : Bytes} {around : Option Bytes}
    {strip : Bool} (hp : strip = false → ∀ q ∈ around, q = p) :
    Loads (LoadFields p) (DumpFields f around strip)
      (f.head (if strip = true then p else f.source)) := by
  have hsource :
      StringFits (if some f.source = around ∨ strip = true then none else some f.source) := by
    split
    · intro b hb
      cases hb
    · exact h.source
  have hget : (if some f.source = around ∨ strip = true then none else some f.source).getD p =
      if strip = true then p else f.source := by
    cases strip with
    | true => rw [if_pos (.inr rfl), if_pos rfl, Option.getD_none]
    | false =>
      rw [if_neg Bool.false_ne_true]
      split
      · next hor =>
        have haround := hor.resolve_right Bool.false_ne_true
        rw [Option.getD_none, hp rfl f.source haround.symm]
      · rw [Option.getD_some]
  simp only [DumpFields, List.append_assoc]
  apply Loads.bind (loadString_loads hsource)
  apply Loads.bind (loadInt_loads h.linedefined)
  apply Loads.bind (loadInt_loads h.lastlinedefined)
  apply Loads.bind (loadByte_loads f.nups)
  apply Loads.bind (loadByte_loads f.numparams)
  apply Loads.bind (loadByte_loads f.is_vararg)
  apply Reads.map (loadByte_loads f.maxstacksize)
  rw [hget, Fields.head]

/-- A list that stripping has emptied fits too. -/
theorem kept_fits {α : Type} {xs : List α} {P : α → Prop} {n : Nat}
    (h : xs.length < n ∧ ∀ x ∈ xs, P x) (strip : Bool) :
    (kept strip xs).length < n ∧ ∀ x ∈ kept strip xs, P x := by
  cases strip with
  | false => exact h
  | true => exact ⟨Nat.zero_lt_of_lt h.1, List.forall_mem_nil P⟩

/-- The line information, the locals and the names of the upvalues come last. -/
theorem loadDebug_loads {f : Fields} (h : f.Fits) (strip : Bool) :
    Loads LoadDebug (DumpDebug f strip)
      ⟨kept strip f.lineinfo, kept strip f.locvars, kept strip f.upvalues⟩ := by
  have hlineinfo := kept_fits ⟨h.lineinfo, fun x _ => x.isLt⟩ strip
  have hlocvars := kept_fits h.locvars strip
  have hupvalues := kept_fits h.upvalues strip
  have hlines : ∀ x ∈ (kept strip f.lineinfo).map BitVec.toNat, x < 256 ^ 4 := by
    intro x hx
    obtain ⟨line, -, rfl⟩ := List.mem_map.1 hx
    exact line.isLt
  simp only [DumpDebug, DumpVector, List.append_assoc]
  apply Loads.bind (loadInt_loads (by rw [List.length_map]; exact hlineinfo.1))
  apply Loads.bind (loadVector_loads hlines)
  apply Loads.bind (loadInt_loads hlocvars.1)
  apply Loads.bind (Loads.list fun v hv => loadLocVar_loads (hlocvars.2 v hv))
  apply Loads.bind (loadInt_loads hupvalues.1)
  apply Reads.map (Loads.list fun s hs => loadString_loads (hupvalues.2 s hs))
  simp only [List.map_map, Function.comp_def, BitVec.ofNat_toNat, BitVec.setWidth_eq, List.map_id']

/-- What is left to read of a function is put together to the prototype that was written. -/
theorem Fields.head_proto (f : Fields) (ps : List Proto) (strip : Bool) (source : Bytes) :
    (f.head (if strip = true then source else f.source)).proto f.code f.k
        (ps.map (Proto.restored strip (if strip = true then source else f.source)))
        ⟨kept strip f.lineinfo, kept strip f.locvars, kept strip f.upvalues⟩ =
      (Proto.mk f ps).restored strip source := by
  cases strip with
  | false =>
    have hid : ps.map (Proto.restored false f.source) = ps := List.map_id ps
    exact congrArg (Proto.mk f) hid
  | true =>
    change Proto.mk _ (ps.map (Proto.stripped source)) = Proto.mk _ (Proto.strippeds source ps)
    rw [Proto.strippeds_eq]
    rfl

/-- Constants and nested prototypes, with any reader for these. -/
theorem loadConstants_loads {f : Fields} (h : f.Fits) {ps : List Proto} (sizep : ps.length < 2 ^ 31)
    {load : Reader ZIO String Proto} {enc : Proto → List Bytes} {dec : Proto → Proto}
    (hps : ∀ g ∈ ps, Loads load (enc g) (dec g)) :
    Loads (LoadConstants load) (DumpInt f.k.length ++ f.k.flatMap DumpConstant ++
      (DumpInt ps.length ++ ps.flatMap enc)) (f.k, ps.map dec) := by
  rw [List.append_assoc]
  apply Loads.bind (loadInt_loads h.k.1)
  apply Loads.bind (Loads.list fun o ho => loadConstant_loads (h.k.2 o ho))
  apply Loads.bind (loadInt_loads sizep)
  exact Reads.map (Loads.times hps) rfl

/-- Where one nested prototype is refused, all are. -/
theorem loadConstants_refused {f : Fields} (h : f.Fits) {ps : List Proto}
    (sizep : ps.length < 2 ^ 31) {load : Reader ZIO String Proto} {enc : Proto → List Bytes}
    (dec : Proto → Proto) {e : String}
    (hps : ∀ g ∈ ps, Loads load (enc g) (dec g) ∨ Refused load (enc g) e)
    (hg : ∃ g ∈ ps, Refused load (enc g) e) :
    Refused (LoadConstants load) (DumpInt f.k.length ++ f.k.flatMap DumpConstant ++
      (DumpInt ps.length ++ ps.flatMap enc)) e := by
  have htimes : Refused (times load ps.length) (ps.flatMap enc) e := by
    simpa only [Refused, List.flatten_eq_flatMap, List.flatMap_assoc] using Refuses.times hps hg
  have hrest := htimes.bind (fun p => Pure.pure (f.k, p)) []
  rw [List.append_nil] at hrest
  rw [List.append_assoc]
  apply Loads.refused (loadInt_loads h.k.1)
  apply Loads.refused (Loads.list fun o ho => loadConstant_loads (h.k.2 o ho))
  exact Loads.refused (loadInt_loads sizep) hrest

/-- The source that is read for a function is the one its nested functions are written under. -/
theorem nested_around {f : Fields} {p : Bytes} {strip : Bool} (hs : strip = false) :
    ∀ q ∈ some f.source, q = if strip = true then p else f.source := by
  intro q hq
  rw [hs, if_neg Bool.false_ne_true]
  exact (Option.some.inj hq).symm

/-- A function is read back where the C levels are enough for its nesting. -/
theorem loadFunction_loads {f : Proto} (hf : f.Sound) {strip : Bool} :
    ∀ {levels : Nat} {p : Bytes} {around : Option Bytes}, f.depth ≤ levels →
      (strip = false → ∀ q ∈ around, q = p) →
      Loads (LoadFunction levels p) (DumpFunction strip around f) (f.restored strip p) := by
  induction hf with
  | @mk f ps fits sizep checked nested ih =>
    intro levels p around hdepth hp
    cases levels with
    | zero => cases hdepth
    | succ levels =>
      have hps := Proto.depths_le_iff.1 (Nat.le_of_succ_le_succ hdepth)
      have haccept := (Proto.Sound.mk fits sizep checked nested).restored_accepted strip p
      rw [DumpFunction, dumpFunctions_eq, List.append_assoc, List.append_assoc]
      apply Loads.bind (loadFields_loads fits hp)
      apply Loads.bind (loadCode_loads fits.code)
      apply Loads.bind (loadConstants_loads fits sizep fun g hg => ih g hg (hps g hg) nested_around)
      apply Reads.map (loadDebug_loads fits strip)
      rw [accept, Fields.head_proto, if_pos haccept]

/-- Where they are not enough, it is refused. -/
theorem loadFunction_refused {f : Proto} (hf : f.Sound) {strip : Bool} :
    ∀ {levels : Nat} {p : Bytes} {around : Option Bytes}, levels < f.depth →
      (strip = false → ∀ q ∈ around, q = p) →
      Refused (LoadFunction levels p) (DumpFunction strip around f) "code too deep" := by
  induction hf with
  | @mk f ps fits sizep checked nested ih =>
    intro levels p around hdepth hp
    cases levels with
    | zero => exact Refuses.fail _ _
    | succ levels =>
      have hdeep : ∃ g ∈ ps, levels < g.depth := by
        by_contra hall
        push Not at hall
        exact Nat.not_le.2 (Nat.lt_of_succ_lt_succ hdepth) (Proto.depths_le_iff.2 hall)
      rw [DumpFunction, dumpFunctions_eq, List.append_assoc, List.append_assoc]
      apply Loads.refused (loadFields_loads fits hp)
      apply Loads.refused (loadCode_loads fits.code)
      refine Refused.bind (loadConstants_refused fits sizep
        (Proto.restored strip (if strip = true then p else f.source)) (fun g hg => ?_) ?_) _ _
      · -- a nested function before the one that is too deep is read
        rcases Nat.lt_or_ge levels g.depth with hlt | hge
        · exact .inr (ih g hg hlt nested_around)
        · exact .inl (loadFunction_loads (nested g hg) hge nested_around)
      · obtain ⟨g, hg, hlt⟩ := hdeep
        exact ⟨g, hg, ih g hg hlt nested_around⟩

/-! ## Chunks read back -/

theorem loadHeader_loads : Loads LoadHeader [luaU_header] () :=
  Reads.map (Loads.block luaU_header) rfl

/-- A chunk that is not nested too deep is read whole. -/
theorem load_loads {f : Proto} (hf : f.Sound) {nCcalls : Nat} (strip : Bool)
    (hdepth : f.depth ≤ LUAI_MAXCCALLS - nCcalls) :
    Loads (load nCcalls) (blocks f strip) (f.restored strip unknownSource) :=
  Loads.bind loadHeader_loads (loadFunction_loads hf hdepth fun _ q hq => by cases hq)

/-- One that is nested too deep is refused. -/
theorem load_refused {f : Proto} (hf : f.Sound) {nCcalls : Nat} (strip : Bool)
    (hdepth : LUAI_MAXCCALLS - nCcalls < f.depth) :
    Refused (load nCcalls) (blocks f strip) "code too deep" :=
  Loads.refused loadHeader_loads (loadFunction_refused hf hdepth fun _ q hq => by cases hq)

section Written

variable {δ : Type} {w : Writer δ} {written : δ → Bytes}

/-- Whatever writer takes the blocks of a prototype that the verifier accepts, and however what was
written comes back cut into blocks, with more behind it: the prototype is read back, without its
debug information where that was stripped, and no byte behind it is taken; where it is nested deeper
than the C levels allow it is refused. -/
theorem dumped_undumped {f : Proto} (hf : f.Sound) (hw : Keeps w written) {data : δ} {strip : Bool}
    (hnew : written data = []) (hdump : (luaU_dump f w data strip).status = 0) {Z : ZIO}
    {rest : Bytes} (hZ : Z.ahead = written (luaU_dump f w data strip).data ++ rest) (nCcalls : Nat)
    (name : String) :
    if f.depth ≤ LUAI_MAXCCALLS - nCcalls then
      ∃ Z', luaU_undump nCcalls Z name = .ok (f.restored strip unknownSource, Z') ∧
        Z'.ahead = rest
    else luaU_undump nCcalls Z name = .error (error name "code too deep") := by
  rw [luaU_dump_written hw hdump, hnew, List.nil_append] at hZ
  rw [luaU_undump]
  split
  · next hdepth =>
    obtain ⟨Z', hload, hrest⟩ := load_loads hf strip hdepth Z rest hZ
    exact ⟨Z', by rw [hload], hrest⟩
  · next hdepth => rw [load_refused hf strip (Nat.lt_of_not_le hdepth) Z rest hZ]

end Written

/-! ## `string.dump` -/

/-- The writer of `string.dump`: it adds to a buffer. -/
def writer : Writer Bytes := fun b B => (0, B ++ b)

/-- The writer that appends never fails. -/
theorem writer_keeps : Keeps writer id := fun _ _ _ => rfl

theorem writer_status (f : Proto) (B : Bytes) (strip : Bool) :
    (luaU_dump f writer B strip).status = 0 := by
  have hrun : ∀ (bs : List Bytes) (D : DumpState Bytes), D.status = 0 →
      (bs.foldl (DumpBlock writer) D).status = 0 := by
    intro bs
    induction bs with
    | nil => exact fun D hD => hD
    | cons b bs ih =>
      intro D hD
      apply ih
      rw [DumpBlock, if_pos hD]
      rfl
  exact hrun _ _ rfl

/-- `function () end` in a chunk that makes it: `CLOSURE 0 0; RETURN 0 1`. -/
def closureChunk : Proto :=
  .mk (fieldsOf [CREATE_ABx OP_CLOSURE 0 0, CREATE_ABC OP_RETURN 0 1 0])
    [.mk (fieldsOf [CREATE_ABC OP_RETURN 0 1 0]) []]
where
  fieldsOf (code : List Instruction) : Fields := {
    source := [0x3d, 0x63], linedefined := 0, lastlinedefined := 1, nups := 0, numparams := 0
    is_vararg := 0, maxstacksize := 2, code := code, k := [], lineinfo := code.map fun _ => 1
    locvars := [], upvalues := [] }

/-- Both prototypes pass the check, and all sizes fit. -/
theorem closureChunk_sound : closureChunk.Sound := by
  have hfits : ∀ code : List Instruction, code.length < 2 ^ 31 →
      (closureChunk.fieldsOf code).Fits := by
    intro code hcode
    refine ⟨?_, Nat.two_pow_pos 31, Nat.one_lt_two_pow (by decide), hcode,
      ⟨Nat.two_pow_pos 31, List.forall_mem_nil _⟩, ?_, ⟨Nat.two_pow_pos 31, List.forall_mem_nil _⟩,
      ⟨Nat.two_pow_pos 31, List.forall_mem_nil _⟩⟩
    · intro b hb
      cases hb
      exact (by decide : 2 + 1 < 2 ^ 64)
    · rwa [closureChunk.fieldsOf, List.length_map]
  refine .mk (hfits _ (by decide)) (by decide) (by decide) fun g hg => ?_
  rw [List.mem_singleton.1 hg]
  exact .mk (hfits _ (by decide)) (by decide) (by decide) (List.forall_mem_nil _)

/-- The prototype is dumped without its names and read back without them. -/
theorem dumped_undumped_closureChunk :
    ∃ Z', luaU_undump 1 ⟨(luaU_dump closureChunk writer [] true).data, []⟩ "=closure" =
        .ok (closureChunk.stripped unknownSource, Z') ∧ Z'.ahead = [] := by
  have hstatus := writer_status closureChunk [] true
  have hread := dumped_undumped closureChunk_sound writer_keeps rfl hstatus
    (Z := ⟨(luaU_dump closureChunk writer [] true).data, []⟩) rfl 1 "=closure"
  rwa [if_pos (by decide)] at hread

end LuaFltk.Chunk
