import LuaFltk.Bytecode.Frame

/-!
# Every run of accepted code

What the verifier guarantees about runs. In code that `luaG_checkcode` accepts, every run finds
at each instruction what its case relies on, exactly if every instruction it reaches passes the
tests that `symbexec` leaves out. The invariant is the assertion at the head of the loop of
`luaV_execute`, and that `pc` is at an instruction: not at a count behind an `OP_SETLIST`.
-/

namespace LuaFltk.Bytecode

open OpMode OpArgMask Instruction

variable {N : Type} {pt : Proto N} {pc : Nat} {i : Instruction}

/-! ## Instructions and counts -/

/-- An `OP_SETLIST` with `C = 0`, or a count that looks like one. -/
def IsSetlist (i : Instruction) : Prop := i.GET_OPCODE = OP_SETLIST ∧ i.GETARG_C = 0

theorem setlistRun_succ {code : List Instruction} (hi : code[pc]? = some i) (h : IsSetlist i) :
    setlistRun code (pc + 1) = setlistRun code pc + 1 := by
  rw [setlistRun, hi]
  exact if_pos h

theorem setlistRun_succ_of_not {code : List Instruction} (hi : code[pc]? = some i)
    (h : ¬ IsSetlist i) : setlistRun code (pc + 1) = 0 := by
  rw [setlistRun, hi]
  exact if_neg h

/-- Behind an instruction stands an instruction, or its count. -/
theorem isInstr_succ_iff {code : List Instruction} (hi : code[pc]? = some i) :
    IsInstr code (pc + 1) ↔ IsInstr code pc ∧ ¬ IsSetlist i ∨
      ∃ p w, pc = p + 1 ∧ IsInstr code p ∧ code[p]? = some w ∧ IsSetlist w := by
  constructor
  · intro h
    generalize hp : pc + 1 = q at h
    cases h with
    | entry => omega
    | next h hw hnot =>
      obtain rfl := Nat.succ.inj hp
      cases hi.symm.trans hw
      exact .inl ⟨h, hnot⟩
    | @count p w h hw hset => exact .inr ⟨p, w, by omega, h, hw, hset⟩
  · rintro (⟨h, hnot⟩ | ⟨p, w, rfl, h, hw, hset⟩)
    · exact .next h hi hnot
    · exact .count h hw hset

/-- A count stands behind an `OP_SETLIST` that is an instruction. -/
theorem setlistRun_odd_iff {code : List Instruction} {pc : Nat} (hpc : pc ≤ code.length)
    (h : ∀ p < pc, IsInstr code p ↔ setlistRun code p % 2 = 0) :
    setlistRun code pc % 2 = 1 ↔
      ∃ p w, pc = p + 1 ∧ IsInstr code p ∧ code[p]? = some w ∧ IsSetlist w := by
  cases pc with
  | zero => simp [setlistRun]
  | succ p =>
    have hi := List.getElem?_eq_getElem (show p < code.length from hpc)
    constructor
    · intro hodd
      by_cases hset : IsSetlist code[p]
      · rw [setlistRun_succ hi hset] at hodd
        exact ⟨p, _, rfl, (h p (Nat.lt_succ_self p)).2 (by omega), hi, hset⟩
      · rw [setlistRun_succ_of_not hi hset] at hodd
        omega
    · rintro ⟨q, w, hq, hinstr, hw, hset⟩
      obtain rfl := Nat.succ.inj hq
      have heven := (h p (Nat.lt_succ_self p)).1 hinstr
      rw [setlistRun_succ hw hset]
      omega

/-- The test on the targets of jumps: a position is that of an instruction exactly if an even
number of words that look like an `OP_SETLIST` with `C = 0` stand right before it. -/
theorem isInstr_iff {code : List Instruction} {pc : Nat} (hpc : pc ≤ code.length) :
    IsInstr code pc ↔ setlistRun code pc % 2 = 0 := by
  induction pc using Nat.strong_induction_on with
  | _ pc ih =>
    cases pc with
    | zero => exact iff_of_true .entry rfl
    | succ pc =>
      have hlt : pc < code.length := hpc
      have hi := List.getElem?_eq_getElem hlt
      have hbefore : ∀ p < pc, IsInstr code p ↔ setlistRun code p % 2 = 0 :=
        fun p hp => ih p (by omega) (by omega)
      rw [isInstr_succ_iff hi, ← setlistRun_odd_iff (Nat.le_of_lt hlt) hbefore,
        ih pc (Nat.lt_succ_self pc) (Nat.le_of_lt hlt)]
      have hmod := Nat.mod_two_eq_zero_or_one (setlistRun code pc)
      by_cases hset : IsSetlist code[pc]
      · rw [setlistRun_succ hi hset]
        simp only [hset, not_true, and_false, false_or]
        omega
      · rw [setlistRun_succ_of_not hi hset]
        simpa [hset] using hmod

/-! ## What was checked of an instruction -/

/-- All that `symbexec` has checked of the instruction `i` at `pc`. -/
structure Checked (pt : Proto N) (pc : Nat) (i : Instruction) : Prop where
  defined : i.GET_OPCODE.defined = true
  a : i.GETARG_A < pt.maxstacksize
  skip : testTMode i.GET_OPCODE = true → checkSkip pt pc = some ()
  operands : ∃ b c last res, checkOperands pt pc i = some (b, c) ∧
    checkOp pt pt.sizecode NO_REG pc i.GET_OPCODE i.GETARG_A b c last = some res

theorem accepted_checked (h : luaG_checkcode pt = true) (hpc : IsInstr pt.code pc)
    (hi : pt.code[pc]? = some i) : Checked pt pc i := by
  obtain ⟨last, res, hs⟩ := accepted_step h hpc hi
  obtain ⟨hdef, ha, hskip, b, c, last', hops, hop⟩ := symbexecStep_inv hi hs
  exact ⟨hdef, ha, hskip, b, c, last', res, hops, hop⟩

/-- The uses of an operand with a mode. -/
def argUses (mode : OpArgMask) (r : Nat) : List Use :=
  match mode with
  | OpArgR => [.reg r]
  | OpArgK => rk r
  | _ => []

theorem checkArgMode_fits {r : Nat} {mode : OpArgMask} (h : checkArgMode pt r mode = some ()) :
    ∀ u ∈ argUses mode r, u.Fits pt := by
  cases mode with
  | OpArgN | OpArgU => exact List.forall_mem_nil _
  | OpArgR =>
    rw [checkArgMode, checkreg_eq_some] at h
    simpa [argUses, Use.Fits] using h
  | OpArgK =>
    simp only [checkArgMode, check_eq_some] at h
    simp only [argUses, rk, List.mem_singleton, forall_eq]
    split at h
    · next hk =>
      rw [if_pos hk]
      simpa [Use.Fits] using h
    · next hk =>
      rw [if_neg hk]
      simpa [Use.Fits] using h

namespace Checked

/-- The operands of an `iABC` instruction, and its own check. -/
theorem abc (h : Checked pt pc i) (hm : getOpMode i.GET_OPCODE = iABC) :
    (∀ u ∈ argUses (getBMode i.GET_OPCODE) i.GETARG_B, u.Fits pt) ∧
    (∀ u ∈ argUses (getCMode i.GET_OPCODE) i.GETARG_C, u.Fits pt) ∧
    ∃ last res, checkOp pt pt.sizecode NO_REG pc i.GET_OPCODE i.GETARG_A i.GETARG_B i.GETARG_C
      last = some res := by
  obtain ⟨b, c, last, res, hops, hop⟩ := h.operands
  obtain ⟨rfl, rfl⟩ := checkOperands_iABC hm hops
  simp only [checkOperands, hm, Option.bind_eq_bind, Option.bind_eq_some_iff] at hops
  obtain ⟨_, hb, _, hc, -⟩ := hops
  exact ⟨checkArgMode_fits hb, checkArgMode_fits hc, last, res, hop⟩

theorem abx (h : Checked pt pc i) (hm : getOpMode i.GET_OPCODE = iABx) :
    (getBMode i.GET_OPCODE = OpArgK → i.GETARG_Bx < pt.sizek) ∧
    ∃ last res, checkOp pt pt.sizecode NO_REG pc i.GET_OPCODE i.GETARG_A i.GETARG_Bx 0
      last = some res := by
  obtain ⟨b, c, last, res, hops, hop⟩ := h.operands
  simp only [checkOperands, hm, Option.bind_eq_bind, Option.bind_eq_some_iff, check_eq_some,
    Option.some.injEq, Prod.mk.injEq] at hops
  obtain ⟨-, hk, rfl, rfl⟩ := hops
  refine ⟨fun hb => ?_, last, res, hop⟩
  simpa [hb] using hk

/-- The target of a jump is an instruction. -/
theorem asbx (h : Checked pt pc i) (hm : getOpMode i.GET_OPCODE = iAsBx)
    (hb : getBMode i.GET_OPCODE = OpArgR) :
    (∃ m : Nat, (pc : Int) + 1 + i.GETARG_sBx = m ∧ m < pt.sizecode ∧ IsInstr pt.code m) ∧
    ∃ last res, checkOp pt pt.sizecode NO_REG pc i.GET_OPCODE i.GETARG_A i.GETARG_sBx 0
      last = some res := by
  obtain ⟨b, c, last, res, hops, hop⟩ := h.operands
  simp only [checkOperands, hm, hb, Option.bind_eq_bind, Option.bind_eq_some_iff, check_eq_some,
    Option.some.injEq, Prod.mk.injEq] at hops
  obtain ⟨-, hdest, rfl, rfl⟩ := hops
  simp only [bne_self_eq_false, Bool.false_or, Bool.and_eq_true, decide_eq_true_eq,
    beq_iff_eq] at hdest
  obtain ⟨⟨hnonneg, hlt⟩, heven⟩ := hdest
  obtain ⟨m, hm⟩ := Int.eq_ofNat_of_zero_le hnonneg
  rw [hm] at hlt heven
  have hmlt : m < pt.sizecode := by exact_mod_cast hlt
  exact ⟨⟨m, hm, hmlt, (isInstr_iff (Nat.le_of_lt hmlt)).2 heven⟩, last, res, hop⟩

end Checked

/-! ## The checks of single opcodes -/

/-- A check that is made under a condition. -/
theorem guarded {p : Prop} [Decidable p] {x : Option Unit} {α : Type} {k : Option α} {r : α}
    (h : (if p then x.bind fun _ => k else k) = some r) : (p → x = some ()) ∧ k = some r := by
  split at h
  · obtain ⟨u, hx, hk⟩ := Option.bind_eq_some_iff.1 h
    exact ⟨fun _ => hx, hk⟩
  · next hp => exact ⟨fun hp' => absurd hp' hp, h⟩

section checks

variable {lastpc reg a last : Nat} {b c : Int} {res : Nat × Nat}

theorem checkOp_upval {op : OpCode} (hop : op = OP_GETUPVAL ∨ op = OP_SETUPVAL)
    (h : checkOp pt lastpc reg pc op a b c last = some res) : b < pt.nups := by
  rcases hop with rfl | rfl <;>
  · simp only [checkOp, Option.bind_eq_bind, Option.bind_eq_some_iff, check_eq_some,
      decide_eq_true_eq] at h
    obtain ⟨-, hb, -⟩ := h
    exact hb

theorem checkOp_global {op : OpCode} (hop : op = OP_GETGLOBAL ∨ op = OP_SETGLOBAL)
    (h : checkOp pt lastpc reg pc op a b c last = some res) :
    ∃ o, pt.k[b.toNat]? = some o ∧ o.ttisstring = true := by
  rcases hop with rfl | rfl <;>
  · simp only [checkOp] at h
    split at h
    · cases h
    · next o hk =>
      simp only [Option.bind_eq_bind, Option.bind_eq_some_iff, check_eq_some] at h
      obtain ⟨-, ho, -⟩ := h
      exact ⟨o, hk, ho⟩

theorem checkOp_self (h : checkOp pt lastpc reg pc OP_SELF a b c last = some res) :
    a + 1 < pt.maxstacksize := by
  simp only [checkOp, Option.bind_eq_bind, Option.bind_eq_some_iff, checkreg_eq_some] at h
  obtain ⟨-, ha, -⟩ := h
  omega

theorem checkOp_concat (h : checkOp pt lastpc reg pc OP_CONCAT a b c last = some res) : b < c := by
  simp only [checkOp, Option.bind_eq_bind, Option.bind_eq_some_iff, check_eq_some,
    decide_eq_true_eq] at h
  obtain ⟨-, hb, -⟩ := h
  exact hb

theorem checkOp_tforloop (h : checkOp pt lastpc reg pc OP_TFORLOOP a b c last = some res) :
    1 ≤ c ∧ a + 2 + c < pt.maxstacksize := by
  simp only [checkOp, Option.bind_eq_bind, Option.bind_eq_some_iff, check_eq_some,
    checkreg_eq_some, decide_eq_true_eq] at h
  obtain ⟨-, hc, -, ha, -⟩ := h
  exact ⟨hc, ha⟩

theorem checkOp_for {op : OpCode} (hop : op = OP_FORLOOP ∨ op = OP_FORPREP)
    (h : checkOp pt lastpc reg pc op a b c last = some res) : a + 3 < pt.maxstacksize := by
  rcases hop with rfl | rfl <;>
  · simp only [checkOp, Option.bind_eq_bind, Option.bind_eq_some_iff, checkreg_eq_some] at h
    obtain ⟨-, ha, -⟩ := h
    omega

theorem checkOp_call {op : OpCode} (hop : op = OP_CALL ∨ op = OP_TAILCALL)
    (h : checkOp pt lastpc reg pc op a b c last = some res) :
    (b ≠ 0 → a + b - 1 < pt.maxstacksize) ∧ (c = 0 → checkopenop pt pc = some ()) ∧
      (1 < c → a + c - 2 < pt.maxstacksize) := by
  have hcase : checkOp pt lastpc reg pc OP_CALL a b c last = some res := by
    rcases hop with rfl | rfl <;> exact h
  simp only [checkOp, Option.bind_eq_bind] at hcase
  obtain ⟨hb, hresults⟩ := guarded hcase
  refine ⟨fun hne => checkreg_eq_some.1 (hb hne), fun hc => ?_, fun hc => ?_⟩
  · rw [if_pos (by omega)] at hresults
    obtain ⟨u, hopen, -⟩ := Option.bind_eq_some_iff.1 hresults
    exact hopen
  · rw [if_neg (by omega)] at hresults
    have hreg := checkreg_eq_some.1 ((guarded hresults).1 (by omega))
    omega

theorem checkOp_return (h : checkOp pt lastpc reg pc OP_RETURN a b c last = some res) (hb : 1 < b) :
    a + b - 2 < pt.maxstacksize := by
  simp only [checkOp, Option.bind_eq_bind] at h
  have hreg := checkreg_eq_some.1 ((guarded h).1 (by omega))
  omega

theorem checkOp_setlist (h : checkOp pt lastpc reg pc OP_SETLIST a b c last = some res) :
    (0 < b → a + b < pt.maxstacksize) ∧ (c = 0 → pc + 2 < pt.sizecode) := by
  simp only [checkOp, Option.bind_eq_bind] at h
  obtain ⟨hb, hcount⟩ := guarded h
  refine ⟨fun hpos => checkreg_eq_some.1 (hb hpos), fun hc => ?_⟩
  rw [if_pos hc, Option.bind_eq_some_iff] at hcount
  obtain ⟨u, hlt, -⟩ := hcount
  rw [check_eq_some, decide_eq_true_eq] at hlt
  omega

theorem checkOp_closure (h : checkOp pt lastpc reg pc OP_CLOSURE a b c last = some res) :
    ∃ f, pt.p[b.toNat]? = some f ∧ pc + f.nups < pt.sizecode ∧
      checkPseudo pt pc f.nups = some () := by
  simp only [checkOp] at h
  split at h
  · cases h
  · next f hf =>
    simp only [Option.bind_eq_bind, Option.bind_eq_some_iff, check_eq_some, decide_eq_true_eq] at h
    obtain ⟨-, hlt, _, hpseudo, -⟩ := h
    exact ⟨f, hf, hlt, hpseudo⟩

theorem checkOp_vararg (h : checkOp pt lastpc reg pc OP_VARARG a b c last = some res) :
    (pt.is_vararg.isvararg = true ∧ pt.is_vararg.needsarg = false) ∧
      (b = 0 → checkopenop pt pc = some ()) ∧ a + b - 2 < pt.maxstacksize := by
  simp only [checkOp, Option.bind_eq_bind] at h
  obtain ⟨u, hvararg, h⟩ := Option.bind_eq_some_iff.1 h
  obtain ⟨hopen, hreg⟩ := guarded h
  obtain ⟨u, hreg, -⟩ := Option.bind_eq_some_iff.1 hreg
  rw [check_eq_some, Bool.and_eq_true, Bool.not_eq_true'] at hvararg
  rw [checkreg_eq_some] at hreg
  exact ⟨hvararg, fun hb => hopen (by omega), by omega⟩

end checks

/-! ## What an instruction relies on is there -/

theorem regs_fit {a n : Nat} (h : n = 0 ∨ a + n ≤ pt.maxstacksize) :
    ∀ u ∈ regs a n, u.Fits pt := by
  intro u hu
  obtain ⟨j, hj, rfl⟩ := List.mem_map.1 hu
  rw [List.mem_range] at hj
  change a + j < pt.maxstacksize
  omega

theorem checkSkip_spec (h : checkSkip pt pc = some ()) :
    pc + 2 < pt.sizecode ∧ ∃ w, pt.code[pc + 1]? = some w ∧ w.GET_OPCODE = OP_JMP := by
  simp only [checkSkip, Option.bind_eq_bind] at h
  obtain ⟨u, hlt, h⟩ := Option.bind_eq_some_iff.1 h
  rw [check_eq_some, decide_eq_true_eq] at hlt
  split at h
  · cases h
  · next w hw =>
    rw [check_eq_some, beq_iff_eq] at h
    exact ⟨hlt, w, hw, h⟩

theorem checkPseudo_spec {nup : Nat} (h : checkPseudo pt pc nup = some ()) :
    ∀ j < nup, ∃ w, pt.code[pc + 1 + j]? = some w ∧
      (w.GET_OPCODE = OP_GETUPVAL ∨ w.GET_OPCODE = OP_MOVE) := by
  induction nup with
  | zero => exact fun j hj => absurd hj (Nat.not_lt_zero j)
  | succ nup ih =>
    simp only [checkPseudo, Option.bind_eq_bind] at h
    obtain ⟨u, hrest, h⟩ := Option.bind_eq_some_iff.1 h
    intro j hj
    rcases Nat.lt_succ_iff_lt_or_eq.1 hj with hlt | rfl
    · exact ih hrest j hlt
    · split at h
      · cases h
      · next w hw =>
        rw [check_eq_some, Bool.or_eq_true, beq_iff_eq, beq_iff_eq] at h
        rw [Nat.add_right_comm]
        exact ⟨w, hw, h⟩

/-- An instruction that is no `OP_RETURN` is not the last. -/
theorem succ_lt (h : luaG_checkcode pt = true) (hi : pt.code[pc]? = some i)
    (hop : i.GET_OPCODE ≠ OP_RETURN) : pc + 1 < pt.sizecode := by
  obtain ⟨w, hw, hret⟩ := accepted_last h
  have hlt : pc < pt.sizecode := (List.getElem?_eq_some_iff.1 hi).1
  by_contra hge
  have hlast : pt.sizecode - 1 = pc := by omega
  rw [hlast, hi] at hw
  cases hw
  exact hop hret

/-- The words of an `OP_CLOSURE` stand where instructions do, and there is one behind them. -/
theorem instr_behind (h : luaG_checkcode pt = true) (hpc : IsInstr pt.code pc)
    (hi : pt.code[pc]? = some i) (hop : i.GET_OPCODE = OP_CLOSURE) {nup : Nat}
    (hwords : ∀ j < nup, ∃ w, pt.code[pc + 1 + j]? = some w ∧
      (w.GET_OPCODE = OP_GETUPVAL ∨ w.GET_OPCODE = OP_MOVE)) :
    ∀ j ≤ nup, IsInstr pt.code (pc + 1 + j) ∧ pc + 1 + j < pt.sizecode := by
  intro j hj
  induction j with
  | zero =>
    exact ⟨.next hpc hi (by simp [hop]), succ_lt h hi (by rw [hop]; decide)⟩
  | succ j ih =>
    obtain ⟨hinstr, -⟩ := ih (Nat.le_of_succ_le hj)
    obtain ⟨w, hw, hpseudo⟩ := hwords j hj
    refine ⟨.next hinstr hw ?_, succ_lt h hw ?_⟩ <;>
      rcases hpseudo with hpseudo | hpseudo <;> simp [hpseudo]

/-- The operands that the mode table names. -/
def generalUses (i : Instruction) : List Use :=
  .reg i.GETARG_A :: (argUses (getBMode i.GET_OPCODE) i.GETARG_B ++
    argUses (getCMode i.GET_OPCODE) i.GETARG_C)

namespace Checked

theorem general (h : Checked pt pc i) (hm : getOpMode i.GET_OPCODE = iABC) :
    ∀ u ∈ generalUses i, u.Fits pt := by
  obtain ⟨hb, hc, -⟩ := h.abc hm
  rw [generalUses, List.forall_mem_cons, List.forall_mem_append]
  exact ⟨h.a, hb, hc⟩

/-- An instruction that relies on its operands, and on what is in `more`. -/
theorem fits_of_subset {more : List Use} (h : Checked pt pc i) (hm : getOpMode i.GET_OPCODE = iABC)
    (hsub : uses pt pc i ⊆ generalUses i ++ more) (hmore : ∀ u ∈ more, u.Fits pt) :
    ∀ u ∈ uses pt pc i, u.Fits pt := by
  intro u hu
  rcases List.mem_append.1 (hsub hu) with hu | hu
  · exact h.general hm u hu
  · exact hmore u hu

theorem word_jmp (h : Checked pt pc i) (ht : testTMode i.GET_OPCODE = true) :
    (Use.word (pc + 1) [OP_JMP]).Fits pt := by
  obtain ⟨-, w, hw, hop⟩ := checkSkip_spec (h.skip ht)
  exact ⟨w, hw, List.mem_singleton.2 hop⟩

/-- What an `OP_CLOSURE` takes from its words is there, as it is for the instructions they are. -/
theorem pseudo_fit {nup : Nat} (hwords : ∀ j < nup, ∃ w, pt.code[pc + 1 + j]? = some w ∧
      (w.GET_OPCODE = OP_GETUPVAL ∨ w.GET_OPCODE = OP_MOVE))
    (hpseudo : ∀ j < nup, ∀ w, pt.code[pc + 1 + j]? = some w → Checked pt (pc + 1 + j) w) :
    ∀ u ∈ pseudoUses pt pc nup, u.Fits pt := by
  intro u hu
  obtain ⟨j, hj, hu⟩ := List.mem_flatMap.1 hu
  rw [List.mem_range] at hj
  obtain ⟨w, hw, hop⟩ := hwords j hj
  rw [hw] at hu
  rcases List.mem_cons.1 hu with rfl | hu
  · exact ⟨w, hw, by simpa using hop⟩
  · rw [List.mem_singleton.1 hu]
    have hchecked := hpseudo j hj w hw
    obtain ⟨hb, -, last, res, hcheck⟩ := hchecked.abc (by rcases hop with h | h <;> rw [h] <;> rfl)
    split
    · next hup =>
      rw [hup] at hcheck
      exact Int.ofNat_lt.1 (checkOp_upval (by simp) hcheck)
    · next hup =>
      have hmove := hop.resolve_left hup
      rw [hmove] at hb
      exact hb _ (List.mem_singleton_self _)

/-- Of an accepted instruction that passes the tests left out, all that it relies on is there. -/
theorem fits (haccepted : luaG_checkcode pt = true) (hpc : IsInstr pt.code pc)
    (hi : pt.code[pc]? = some i) (htests : missingTests pt pc i = true) : ∀ u ∈ uses pt pc i, u.Fits pt := by
  have h := accepted_checked haccepted hpc hi
  have ha := h.a
  cases hop : i.GET_OPCODE with
  | OP_MOVE | OP_LOADBOOL | OP_GETTABLE | OP_SETTABLE | OP_NEWTABLE | OP_ADD | OP_SUB | OP_MUL
    | OP_DIV | OP_MOD | OP_POW | OP_UNM | OP_NOT | OP_LEN | OP_CLOSE =>
    apply h.fits_of_subset (by rw [hop]; rfl) _ (List.forall_mem_nil _)
    simp only [uses, generalUses, hop]
    simp [argUses, getBMode, getCMode, luaP_opmodes]
  | OP_EQ | OP_LT | OP_LE | OP_TEST | OP_TESTSET =>
    apply h.fits_of_subset (by rw [hop]; rfl) _
      (List.forall_mem_singleton.2 (h.word_jmp (by rw [hop]; rfl)))
    simp only [uses, generalUses, hop]
    simp [argUses, getBMode, getCMode, luaP_opmodes]
  | OP_GETUPVAL | OP_SETUPVAL =>
    obtain ⟨-, -, last, res, hcheck⟩ := h.abc (by rw [hop]; rfl)
    rw [hop] at hcheck
    have hup : (i.GETARG_B : Int) < pt.nups := checkOp_upval (by simp) hcheck
    have hfits : (Use.upvalue i.GETARG_B).Fits pt := Int.ofNat_lt.1 hup
    simp only [uses, hop, List.forall_mem_cons]
    exact ⟨by assumption, by assumption, List.forall_mem_nil _⟩
  | OP_LOADK =>
    obtain ⟨hk, -⟩ := h.abx (by rw [hop]; rfl)
    rw [hop] at hk
    simp only [uses, hop, List.forall_mem_cons]
    exact ⟨ha, hk rfl, List.forall_mem_nil _⟩
  | OP_GETGLOBAL | OP_SETGLOBAL =>
    obtain ⟨-, last, res, hcheck⟩ := h.abx (by rw [hop]; rfl)
    rw [hop] at hcheck
    have hname := checkOp_global (by simp) hcheck
    simp only [uses, hop, List.forall_mem_cons]
    exact ⟨hname, ha, List.forall_mem_nil _⟩
  | OP_LOADNIL =>
    obtain ⟨hb, -, -⟩ := h.abc (by rw [hop]; rfl)
    rw [hop] at hb
    have hlast : i.GETARG_B < pt.maxstacksize := hb _ (List.mem_singleton_self _)
    simp only [uses, hop, List.forall_mem_cons]
    exact ⟨hlast, regs_fit (by omega)⟩
  | OP_SELF =>
    obtain ⟨-, -, last, res, hcheck⟩ := h.abc (by rw [hop]; rfl)
    rw [hop] at hcheck
    have hfits : (Use.reg (i.GETARG_A + 1)).Fits pt := checkOp_self hcheck
    apply h.fits_of_subset (by rw [hop]; rfl) _ (List.forall_mem_singleton.2 hfits)
    simp only [uses, generalUses, hop]
    intro u hu
    simp only [argUses, getBMode, getCMode, luaP_opmodes, List.mem_append, List.mem_cons,
      List.not_mem_nil, or_false] at hu ⊢
    tauto
  | OP_CMD =>
    simp only [missingTests, hop, cmdTests, Bool.and_eq_true, Bool.or_eq_true, beq_iff_eq,
      decide_eq_true_eq, Option.any_eq_true] at htests
    obtain ⟨⟨hc, hlast⟩, w, hw, hjmp⟩ := htests
    simp only [uses, hop, List.forall_mem_append, List.forall_mem_singleton]
    exact ⟨⟨beq_iff_eq.2 hc, regs_fit (by omega)⟩, w, hw, List.mem_singleton.2 hjmp⟩
  | OP_CONCAT =>
    obtain ⟨-, hc, last, res, hcheck⟩ := h.abc (by rw [hop]; rfl)
    rw [hop] at hc hcheck
    have hlast : i.GETARG_C < pt.maxstacksize := hc _ (List.mem_singleton_self _)
    have htwo := checkOp_concat hcheck
    simp only [uses, hop, List.forall_mem_cons]
    exact ⟨ha, decide_eq_true (by omega), regs_fit (by omega)⟩
  | OP_JMP =>
    simp only [uses, hop]
    exact List.forall_mem_nil _
  | OP_CALL =>
    obtain ⟨-, -, last, res, hcheck⟩ := h.abc (by rw [hop]; rfl)
    rw [hop] at hcheck
    obtain ⟨hargs, -, hresults⟩ := checkOp_call (by simp) hcheck
    simp only [uses, hop, List.forall_mem_cons, List.forall_mem_append]
    exact ⟨ha, regs_fit (by omega), regs_fit (by omega)⟩
  | OP_TAILCALL =>
    obtain ⟨-, -, last, res, hcheck⟩ := h.abc (by rw [hop]; rfl)
    rw [hop] at hcheck
    obtain ⟨hargs, -, -⟩ := checkOp_call (by simp) hcheck
    simp only [uses, hop, List.forall_mem_cons]
    exact ⟨ha, regs_fit (by omega)⟩
  | OP_RETURN =>
    obtain ⟨-, -, last, res, hcheck⟩ := h.abc (by rw [hop]; rfl)
    rw [hop] at hcheck
    have hresults := checkOp_return hcheck
    simp only [uses, hop, List.forall_mem_cons]
    exact ⟨ha, regs_fit (by omega)⟩
  | OP_FORLOOP | OP_FORPREP =>
    obtain ⟨-, last, res, hcheck⟩ := h.asbx (by rw [hop]; rfl) (by rw [hop]; rfl)
    rw [hop] at hcheck
    have hlast := checkOp_for (by simp) hcheck
    simp only [uses, hop]
    exact regs_fit (by omega)
  | OP_TFORLOOP =>
    obtain ⟨-, -, last, res, hcheck⟩ := h.abc (by rw [hop]; rfl)
    rw [hop] at hcheck
    obtain ⟨hone, hresults⟩ := checkOp_tforloop hcheck
    have hjmp := h.word_jmp (by rw [hop]; rfl)
    simp only [uses, hop, List.forall_mem_append, List.forall_mem_cons]
    -- the call lies at most two slots behind the frame
    have hslot : ∀ r ≤ i.GETARG_A + 5, (Use.slot r).Fits pt := by
      intro r hr
      change r < pt.maxstacksize + 5
      omega
    exact ⟨⟨⟨regs_fit (by omega), hslot _ (by omega), hslot _ (by omega), hslot _ le_rfl,
      List.forall_mem_nil _⟩, regs_fit (by omega)⟩, hjmp, List.forall_mem_nil _⟩
  | OP_SETLIST =>
    obtain ⟨-, -, last, res, hcheck⟩ := h.abc (by rw [hop]; rfl)
    rw [hop] at hcheck
    obtain ⟨hitems, hcount⟩ := checkOp_setlist hcheck
    simp only [uses, hop, List.forall_mem_cons, List.forall_mem_append]
    refine ⟨ha, regs_fit (by omega), ?_⟩
    split
    · rw [List.forall_mem_singleton]
      exact decide_eq_true (by omega)
    · exact List.forall_mem_nil _
  | OP_CLOSURE =>
    obtain ⟨-, last, res, hcheck⟩ := h.abx (by rw [hop]; rfl)
    rw [hop] at hcheck
    obtain ⟨f, hf, hlt, hwords⟩ := checkOp_closure hcheck
    have hf' : pt.p[i.GETARG_Bx]? = some f := hf
    have hproto : (Use.proto i.GETARG_Bx).Fits pt := (List.getElem?_eq_some_iff.1 hf').1
    simp only [uses, hop, List.forall_mem_cons, hf', Option.map_some, Option.getD_some]
    have hspec := checkPseudo_spec hwords
    have hbehind := instr_behind haccepted hpc hi hop hspec
    exact ⟨ha, hproto, pseudo_fit hspec fun j hj w hw =>
      accepted_checked haccepted (hbehind j (Nat.le_of_lt hj)).1 hw⟩
  | OP_VARARG =>
    obtain ⟨-, -, last, res, hcheck⟩ := h.abc (by rw [hop]; rfl)
    rw [hop] at hcheck
    obtain ⟨hvararg, -, hlast⟩ := checkOp_vararg hcheck
    simp only [uses, hop, List.forall_mem_cons]
    exact ⟨ha, hvararg, regs_fit (by omega)⟩
  | undef k =>
    have hdef := h.defined
    rw [hop] at hdef
    cases hdef

end Checked

/-! ## Where an instruction goes -/

/-- The invariant: `pc` is at an instruction, which takes `top` if it was set. -/
def Frame.At (pt : Proto N) (s : Frame) : Prop :=
  ∃ (pc : Nat) (i : Instruction), s.pc = pc ∧ IsInstr pt.code pc ∧ pt.code[pc]? = some i ∧
    (s.isopen = true → luaG_checkopenop i = true)

/-- The instruction at `pc` passes the tests left out. -/
def Frame.Tested (pt : Proto N) (s : Frame) : Prop :=
  ∀ (pc : Nat) (i : Instruction), s.pc = pc → pt.code[pc]? = some i → missingTests pt pc i = true

section next

variable {m : Nat} {s : Frame}

theorem at_of_lt (hinstr : IsInstr pt.code m) (hlt : m < pt.sizecode) :
    Frame.At pt ⟨m, false⟩ :=
  ⟨m, _, rfl, hinstr, List.getElem?_eq_getElem hlt, fun h => nomatch h⟩

/-- Behind an instruction that may leave `top` behind. -/
theorem at_of_open (hinstr : IsInstr pt.code (pc + 1)) (h : checkopenop pt pc = some ())
    (isopen : Bool) : Frame.At pt ⟨(pc : Int) + 1, isopen⟩ := by
  unfold checkopenop at h
  split at h
  · cases h
  · next w hw => exact ⟨pc + 1, w, by push_cast; rfl, hinstr, hw, fun _ => check_eq_some.1 h⟩

theorem at_succ (h : luaG_checkcode pt = true) (hpc : IsInstr pt.code pc) (hi : pt.code[pc]? = some i)
    (hret : i.GET_OPCODE ≠ OP_RETURN) (hset : ¬ IsSetlist i) : Frame.At pt ⟨(pc : Int) + 1, false⟩ :=
  at_of_lt (.next hpc hi hset) (succ_lt h hi hret)

theorem at_jump (h : luaG_checkcode pt = true) (hpc : IsInstr pt.code pc)
    (hi : pt.code[pc]? = some i) (hm : getOpMode i.GET_OPCODE = iAsBx)
    (hb : getBMode i.GET_OPCODE = OpArgR) (hs : s ∈ jumpAt pt pc false) : s.At pt := by
  obtain ⟨⟨m, hdest, hlt, hinstr⟩, -⟩ := (accepted_checked h hpc hi).asbx hm hb
  rw [jumpAt, hi, List.mem_singleton, hdest] at hs
  rw [hs]
  exact at_of_lt hinstr hlt

/-- A test skips the jump behind it, or does it. -/
theorem at_skipOrJump (h : luaG_checkcode pt = true) (hpc : IsInstr pt.code (pc + 1))
    {w : Instruction} (hw : pt.code[pc + 1]? = some w) (hop : w.GET_OPCODE = OP_JMP)
    (hs : s ∈ skipOrJump pt pc false) : s.At pt := by
  rcases List.mem_cons.1 hs with rfl | hs
  · have hset : ¬ IsSetlist w := by
      rintro ⟨hset, -⟩
      rw [hop] at hset
      cases hset
    have hskip := at_succ h hpc hw (by rw [hop]; decide) hset
    push_cast at hskip
    rwa [Int.add_assoc] at hskip
  · exact at_jump h hpc hw (by rw [hop]; rfl) (by rw [hop]; rfl) hs

/-- Only the instructions that take `top` find it set. -/
theorem closed_of_op {isopen : Bool} (hopen : isopen = true → luaG_checkopenop i = true)
    (hop : luaG_checkopenop i = false) : isopen = false := by
  rw [Bool.eq_false_iff]
  intro htrue
  rw [hopen htrue] at hop
  cases hop

/-- One step keeps the invariant. -/
theorem Frame.At.step {s' : Frame} (h : luaG_checkcode pt = true) (hat : s.At pt)
    (htested : s.Tested pt) (hstep : s.Step pt s') : s'.At pt := by
  obtain ⟨pc, i, hpc', hpc, hi, hopen⟩ := hat
  obtain ⟨pc₂, i₂, hpc₂, hi₂, hs'⟩ := hstep
  obtain rfl : pc = pc₂ := by exact_mod_cast hpc'.symm.trans hpc₂
  cases hi.symm.trans hi₂
  have htests := htested pc i hpc' hi
  have hchecked := accepted_checked h hpc hi
  generalize s.isopen = isopen at hopen hs'
  cases hop : i.GET_OPCODE with
  | OP_MOVE | OP_LOADK | OP_LOADNIL | OP_GETUPVAL | OP_GETGLOBAL | OP_GETTABLE | OP_SETGLOBAL
    | OP_SETUPVAL | OP_SETTABLE | OP_NEWTABLE | OP_SELF | OP_ADD | OP_SUB | OP_MUL | OP_DIV | OP_MOD
    | OP_POW | OP_UNM | OP_NOT | OP_LEN | OP_CONCAT | OP_CLOSE =>
    have hclosed := closed_of_op hopen (by rw [luaG_checkopenop, hop])
    rw [next, hop, hclosed] at hs'
    rw [List.mem_singleton.1 hs']
    exact at_succ h hpc hi (by rw [hop]; decide) (by simp [IsSetlist, hop])
  | OP_LOADBOOL =>
    have hclosed := closed_of_op hopen (by rw [luaG_checkopenop, hop])
    rw [next, hop, hclosed] at hs'
    rw [List.mem_singleton.1 hs']
    have hset : ¬ IsSetlist i := by simp [IsSetlist, hop]
    split
    · next hc =>
      simp only [missingTests, hop, Bool.or_eq_true, beq_iff_eq, hc, false_or, Bool.and_eq_true,
        decide_eq_true_eq, Option.any_eq_true, bne_iff_ne] at htests
      obtain ⟨hlt, w, hw, hcount⟩ := htests
      refine at_of_lt (.next (.next hpc hi hset) hw ?_) hlt
      rintro ⟨hset, hzero⟩
      exact hcount.elim (· hset) (· hzero)
    · exact at_succ h hpc hi (by rw [hop]; decide) hset
  | OP_JMP | OP_FORPREP =>
    have hclosed := closed_of_op hopen (by rw [luaG_checkopenop, hop])
    rw [next, hop, hclosed] at hs'
    exact at_jump h hpc hi (by rw [hop]; rfl) (by rw [hop]; rfl) hs'
  | OP_FORLOOP =>
    have hclosed := closed_of_op hopen (by rw [luaG_checkopenop, hop])
    rw [next, hop, hclosed] at hs'
    rcases List.mem_cons.1 hs' with rfl | hs'
    · exact at_succ h hpc hi (by rw [hop]; decide) (by simp [IsSetlist, hop])
    · exact at_jump h hpc hi (by rw [hop]; rfl) (by rw [hop]; rfl) hs'
  | OP_EQ | OP_LT | OP_LE | OP_TEST | OP_TESTSET | OP_TFORLOOP =>
    have hclosed := closed_of_op hopen (by rw [luaG_checkopenop, hop])
    rw [next, hop, hclosed] at hs'
    obtain ⟨-, w, hw, hjmp⟩ := checkSkip_spec (hchecked.skip (by rw [hop]; rfl))
    exact at_skipOrJump h (.next hpc hi (by simp [hop])) hw hjmp hs'
  | OP_CMD =>
    have hclosed := closed_of_op hopen (by rw [luaG_checkopenop, hop])
    simp only [missingTests, hop, cmdTests, Bool.and_eq_true, beq_iff_eq, Option.any_eq_true]
      at htests
    obtain ⟨⟨hc, -⟩, w, hw, hjmp⟩ := htests
    rw [next, hop, hclosed] at hs'
    dsimp only at hs'
    rw [if_pos hc] at hs'
    exact at_skipOrJump h (.next hpc hi (by simp [hop])) hw hjmp hs'
  | OP_CALL =>
    obtain ⟨-, -, last, res, hcheck⟩ := hchecked.abc (by rw [hop]; rfl)
    rw [hop] at hcheck
    obtain ⟨-, hresults, -⟩ := checkOp_call (by simp) hcheck
    have hset : ¬ IsSetlist i := by simp [IsSetlist, hop]
    rw [next, hop] at hs'
    rw [List.mem_singleton.1 hs']
    by_cases hc : i.GETARG_C = 0
    · exact at_of_open (.next hpc hi hset) (hresults (by exact_mod_cast hc)) _
    · rw [beq_eq_false_iff_ne.2 hc]
      exact at_succ h hpc hi (by rw [hop]; decide) hset
  | OP_TAILCALL =>
    simp only [missingTests, hop, Option.any_eq_true] at htests
    obtain ⟨w, hw, hopen⟩ := htests
    rw [next, hop] at hs'
    rw [List.mem_singleton.1 hs']
    exact ⟨pc + 1, w, by push_cast; rfl, .next hpc hi (by simp [hop]), hw, fun _ => hopen⟩
  | OP_RETURN =>
    rw [next, hop] at hs'
    cases hs'
  | OP_SETLIST =>
    obtain ⟨-, -, last, res, hcheck⟩ := hchecked.abc (by rw [hop]; rfl)
    rw [hop] at hcheck
    obtain ⟨-, hcount⟩ := checkOp_setlist hcheck
    -- `top` is that of the call again
    have hclosed : (if i.GETARG_B = 0 then false else isopen) = false := by
      split
      · rfl
      · next hb => exact closed_of_op hopen (by simpa [luaG_checkopenop, hop] using hb)
    rw [next, hop] at hs'
    dsimp only at hs'
    rw [hclosed] at hs'
    rw [List.mem_singleton.1 hs']
    split
    · next hc => exact at_of_lt (.count hpc hi ⟨hop, hc⟩) (hcount (by exact_mod_cast hc))
    · next hc => exact at_succ h hpc hi (by rw [hop]; decide) fun hset => hc hset.2
  | OP_CLOSURE =>
    obtain ⟨-, last, res, hcheck⟩ := hchecked.abx (by rw [hop]; rfl)
    rw [hop] at hcheck
    obtain ⟨f, hf, -, hwords⟩ := checkOp_closure hcheck
    have hf' : pt.p[i.GETARG_Bx]? = some f := hf
    have hclosed := closed_of_op hopen (by rw [luaG_checkopenop, hop])
    rw [next, hop, hclosed] at hs'
    simp only [hf', Option.map_some, Option.getD_some, List.mem_singleton] at hs'
    obtain ⟨hinstr, hlt⟩ := instr_behind h hpc hi hop (checkPseudo_spec hwords) f.nups le_rfl
    rw [hs']
    exact_mod_cast at_of_lt hinstr hlt
  | OP_VARARG =>
    obtain ⟨-, -, last, res, hcheck⟩ := hchecked.abc (by rw [hop]; rfl)
    rw [hop] at hcheck
    obtain ⟨-, hresults, -⟩ := checkOp_vararg hcheck
    have hset : ¬ IsSetlist i := by simp [IsSetlist, hop]
    have hclosed := closed_of_op hopen (by rw [luaG_checkopenop, hop])
    rw [next, hop] at hs'
    rw [List.mem_singleton.1 hs']
    by_cases hb : i.GETARG_B = 0
    · exact at_of_open (.next hpc hi hset) (hresults (by exact_mod_cast hb)) _
    · rw [if_neg hb, hclosed]
      exact at_succ h hpc hi (by rw [hop]; decide) hset
  | undef k =>
    have hdef := hchecked.defined
    rw [hop] at hdef
    cases hdef

end next

/-! ## Whole runs -/

/-- The states that a call can reach. -/
abbrev Frame.Reachable (pt : Proto N) : Frame → Prop := Relation.ReflTransGen (Frame.Step pt) .entry

theorem Frame.entry_at (h : luaG_checkcode pt = true) : Frame.entry.At pt := by
  obtain ⟨w, hw, -⟩ := accepted_last h
  have hlast : pt.sizecode - 1 < pt.sizecode := (List.getElem?_eq_some_iff.1 hw).1
  exact at_of_lt .entry (Nat.zero_lt_of_lt hlast)

/-- Where the invariant holds and the tests are passed, nothing goes wrong. -/
theorem Frame.At.sound {s : Frame} (h : luaG_checkcode pt = true) (hat : s.At pt)
    (htested : s.Tested pt) : s.Sound pt := by
  obtain ⟨pc, i, hpc', hpc, hi, hopen⟩ := hat
  have hchecked := accepted_checked h hpc hi
  exact ⟨pc, i, hpc', hpc, hi, hchecked.defined, hopen,
    Checked.fits h hpc hi (htested pc i hpc' hi)⟩

/-- A run that goes over the word behind an instruction, to an instruction, has not gone over
the head of a count. -/
theorem skipped_word (hi : pt.code[pc]? = some i) (hset : ¬ IsSetlist i)
    (hskip : IsInstr pt.code (pc + 2)) {w : Instruction} (hw : pt.code[pc + 1]? = some w) :
    ¬ IsSetlist w := by
  rcases (isInstr_succ_iff hw).1 hskip with ⟨-, hnot⟩ | ⟨p, v, hp, -, hv, hcount⟩
  · exact hnot
  · obtain rfl := Nat.succ.inj hp
    cases hi.symm.trans hv
    exact absurd hcount hset

/-- A state from which every step is sound has passed the tests left out. -/
theorem Frame.Sound.tested {s : Frame} (hs : s.Sound pt)
    (hnext : ∀ s', s.Step pt s' → s'.Sound pt) : s.Tested pt := by
  obtain ⟨pc, i, hpc', hpc, hi, -, -, hfits⟩ := hs
  intro pc₂ i₂ hpc₂ hi₂
  obtain rfl : pc = pc₂ := by exact_mod_cast hpc'.symm.trans hpc₂
  cases hi.symm.trans hi₂
  have hsound : ∀ s' ∈ next pt pc i s.isopen, s'.Sound pt :=
    fun s' hs' => hnext s' ⟨pc, i, hpc', hi, hs'⟩
  unfold missingTests
  split
  · next hop =>
    rw [next, hop] at hsound
    dsimp only at hsound
    rw [List.forall_mem_singleton] at hsound
    rw [Bool.or_eq_true, beq_iff_eq, or_iff_not_imp_left]
    intro hc
    rw [if_pos hc] at hsound
    obtain ⟨m, v, hm, hinstr, hv, -⟩ := hsound
    have hm' : (pc : Int) + 2 = m := hm
    obtain rfl : pc + 2 = m := by exact_mod_cast hm'
    have hlt : pc + 2 < pt.sizecode := (List.getElem?_eq_some_iff.1 hv).1
    have hw := List.getElem?_eq_getElem (show pc + 1 < pt.code.length from Nat.lt_of_succ_lt hlt)
    have hcount := skipped_word hi (by simp [IsSetlist, hop]) hinstr hw
    simp only [hw, Option.any_some, Bool.and_eq_true, decide_eq_true_eq, Bool.or_eq_true,
      bne_iff_ne]
    exact ⟨hlt, not_and_or.1 hcount⟩
  · next hop =>
    rw [next, hop] at hsound
    obtain ⟨m, v, hm, -, hv, -, hopen, -⟩ := List.forall_mem_singleton.1 hsound
    have hm' : (pc : Int) + 1 = m := hm
    obtain rfl : pc + 1 = m := by exact_mod_cast hm'
    rw [hv]
    exact hopen rfl
  · next hop =>
    simp only [uses, hop, List.forall_mem_append, List.forall_mem_singleton] at hfits
    obtain ⟨⟨hc, hregs⟩, w, hw, hjmp⟩ := hfits
    have hlast : i.GETARG_B = 0 ∨ i.GETARG_A + i.GETARG_B - 1 < pt.maxstacksize := by
      rcases Nat.eq_zero_or_pos i.GETARG_B with hb | hb
      · exact .inl hb
      · have hreg : Use.Fits pt (.reg (i.GETARG_A + (i.GETARG_B - 1))) :=
          hregs _ (List.mem_map.2 ⟨i.GETARG_B - 1, List.mem_range.2 (by omega), rfl⟩)
        change i.GETARG_A + (i.GETARG_B - 1) < pt.maxstacksize at hreg
        omega
    have hc' : i.GETARG_C = CMD_CASE := beq_iff_eq.1 hc
    have hjmp' : w.GET_OPCODE = OP_JMP := List.mem_singleton.1 hjmp
    simp only [cmdTests, hw, Option.any_some, Bool.and_eq_true, beq_iff_eq, Bool.or_eq_true,
      decide_eq_true_eq]
    exact ⟨⟨hc', hlast⟩, hjmp'⟩
  · rfl

/-- In a call of an accepted prototype, whatever its tests and calls come to, nothing goes wrong
at any instruction exactly if every instruction reached passes the tests left out. -/
theorem accepted_runs_sound_iff (pt : Proto N) (h : luaG_checkcode pt = true) :
    (∀ s, Frame.Reachable pt s → s.Sound pt) ↔ ∀ s, Frame.Reachable pt s → s.Tested pt := by
  constructor
  · intro hsound s hs
    exact (hsound s hs).tested fun s' hstep => hsound s' (hs.tail hstep)
  · intro htested s hs
    have hat : s.At pt := by
      induction hs with
      | refl => exact Frame.entry_at h
      | tail hs hstep ih => exact ih.step h (htested _ hs) hstep
    exact hat.sound h (htested s hs)

theorem accepted_runs_sound_iff_goodCmd : luaG_checkcode goodCmd = true ∧
    ((∀ s, Frame.Reachable goodCmd s → s.Sound goodCmd) ↔
      ∀ s, Frame.Reachable goodCmd s → s.Tested goodCmd) :=
  ⟨by decide, accepted_runs_sound_iff goodCmd (by decide)⟩

/-- `LOADBOOL 0 0 2; RETURN`: accepted, and the skip goes over the end of the code. -/
def skippingBool : Proto Nat := chunkProto 2
  [CREATE_ABC OP_LOADBOOL 0 0 2, CREATE_ABC OP_RETURN 0 1 0]

theorem skippingBool_unsound : luaG_checkcode skippingBool = true ∧
    ∃ s, Frame.Reachable skippingBool s ∧ ¬ s.Sound skippingBool := by
  refine ⟨by decide, ⟨2, false⟩, .single ⟨0, _, rfl, rfl, by decide⟩, ?_⟩
  rintro ⟨pc, i, hpc, -, hi, -⟩
  have hpc' : (2 : Int) = pc := hpc
  obtain rfl : 2 = pc := by exact_mod_cast hpc'
  cases hi

/-- Without the three opcodes of the tests left out, acceptance is enough. -/
theorem accepted_runs_sound (h : luaG_checkcode pt = true)
    (hops : ∀ i ∈ pt.code, i.GET_OPCODE ∉ [OP_LOADBOOL, OP_TAILCALL, OP_CMD]) {s : Frame}
    (hs : Frame.Reachable pt s) : s.Sound pt := by
  refine (accepted_runs_sound_iff pt h).2 (fun s _ pc i _ hi => ?_) s hs
  have hop := hops i (List.mem_of_getElem? hi)
  simp only [List.mem_cons, List.not_mem_nil, or_false, not_or] at hop
  simp [missingTests, hop]

end LuaFltk.Bytecode
