import LuaFltk.Compiler.Rules

/-!
# The code means what the program means

What the code of a piece does, from where it starts, is what the piece means, given what is done
where control leaves it. Each statement has one proof, in any comparison: a loop is run once more
for each step back to its start.
-/

namespace LuaFltk.Compiler

variable {fs fs' fs2 : FuncState} {code : List Ins} {ρ : Names} {used : Nat}

open Lib (Behaviour Comparison)
open Lib.Behaviour (stop emit either loop)
open Stage (Lists Known)

section pieces

variable {C : Comparison (codeStep code)} {n m : C.Level} {A B : Behaviour Event}

/-! ## Pieces -/

/-- Control leaves a piece at `fs` for what `K` says. -/
structure Leads (C : Comparison (codeStep code)) (n : C.Level) (fs : FuncState) (K : Exits) :
    Prop where
  normal : C.R (C.here n fs.pc) K.normal
  next : Continues C n fs.bl K.next
  brk : Breaks C n fs.bl K.brk

/-- What holds at a level holds below it. -/
theorem Leads.later {K : Exits} (h : Leads C n fs K) (hle : m ≤ n) : Leads C m fs K :=
  ⟨C.trans (C.later _ hle) h.normal, h.next.later hle, h.brk.later hle⟩

/-- The code that `f` emits does what `sem` says. -/
def Means (code : List Ins) (f : Compile) (sem : Names → Exits → Behaviour Event) : Prop :=
  ∀ (C : Comparison (codeStep code)) ⦃n : C.Level⦄ ⦃fs fs' : FuncState⦄ ⦃ρ : Names⦄ ⦃K : Exits⦄,
    f fs = .ok fs' → Named fs ρ → (∃ L, Lists ⟨fs, 0, []⟩ L) → Known ⟨fs', 0, []⟩ code →
    Leads C n fs' K → C.R (C.here n fs.pc) (sem ρ K)

/-- An expression does its event and goes on. -/
theorem means_codeExpr {op : Op} {names : List String} (event : List Nat → Event)
    (hdoes : ∀ (i : Ins) (p : Nat) (Z : Nat → Behaviour Event), i.op = op →
      i.does Z p = emit (event (i.caps.map Var.reg)) (Z (p + 1))) :
    Means code (fun fs => .ok (codeExpr op names fs))
      fun ρ K => emit (event (ρ.resolve names)) K.normal := by
  intro C n fs fs' ρ K h hnamed _ hknown hleads
  cases h
  exact here_codeExpr _ event hdoes hknown.kept hnamed hleads.normal

/-- A `local` statement captures in the scope before it. -/
theorem means_localstat (vars names : List String) : Means code (localstat vars names)
    fun ρ K => emit (.decl vars.length (ρ.resolve names)) K.normal := by
  intro C n fs fs' ρ K h hnamed _ hknown hleads
  obtain ⟨new, hnew, h⟩ := bind_ok h
  cases h
  have hlength : new.length = vars.length := (length_new hnew).trans (List.length_map _)
  rw [← hlength]
  apply here_codeExpr fs (.decl new.length) ?_ hknown.kept hnamed hleads.normal
  intro i p Z hop
  rw [Ins.does, hop]

/-- A `local function` captures in its own scope. -/
theorem means_localfunc (var : String) (names : List String) : Means code (localfunc var names)
    fun ρ K => emit (.decl 1 (Names.resolve (ρ ++ [some var]) names)) K.normal := by
  intro C n fs fs' ρ K h hnamed _ hknown hleads
  obtain ⟨new, hnew, h⟩ := bind_ok h
  have hlength : new.length = 1 := length_new hnew
  have hcaps := (hnamed.adjust hnew).caps names
  generalize singlevaraux names (adjustlocalvars new fs) = inner at h hcaps
  have hend : adjustlocalvars new (luaK_code (.decl new) inner.2 { fs with bl := inner.1.bl }) = fs' :=
    Except.ok.inj h
  have hkept := hknown.kept
  have hnormal := hleads.normal
  rw [← hend] at hkept hnormal
  obtain ⟨i, hi, hop, hicaps⟩ := Kept.emitted { fs with bl := inner.1.bl } hkept
  have hpc : (luaK_code (.decl new) inner.2 { fs with bl := inner.1.bl }).pc = fs.pc + 1 :=
    pc_luaK_code _ _ _
  change C.R (C.here n (luaK_code _ _ _).pc) _ at hnormal
  rw [hpc] at hnormal
  dsimp only
  rw [← hcaps, ← hicaps]
  apply here_emit hi ?_ hnormal
  intro Z
  rw [Ins.does, hop, ← hlength]

/-- Nothing is done behind an `OP_RETURN`. -/
theorem here_luaK_ret (fs : FuncState) (hkept : Kept (luaK_ret fs).code code) :
    C.R (C.here n fs.pc) (emit .ret stop) := by
  obtain ⟨i, hi, hop, -⟩ := Kept.emitted fs hkept
  apply here_return hi
  intro Z
  rw [Ins.does, hop]

/-- A `return` without values. -/
theorem means_retstat_none : Means code (fun fs => .ok (retstat none fs))
    fun _ _ => emit .ret stop := by
  intro C n fs fs' ρ K h _ _ hknown _
  cases h
  exact here_luaK_ret fs hknown.kept

/-- A `return` evaluates its values first. -/
theorem means_retstat_some (names : List String) :
    Means code (fun fs => .ok (retstat (some names) fs))
      fun ρ _ => emit (.eval (ρ.resolve names)) (emit .ret stop) := by
  intro C n fs fs' ρ K h hnamed hS hknown _
  cases h
  have hvalues := (moves_codeExpr .eval names fs 0 rfl).step
  have hret := (moves_codeExpr .ret [] (codeExpr .eval names fs) 0 rfl).step
  have hkept := (hknown.before (Stage.lists_step hS hvalues) hret).kept
  apply here_codeExpr fs .eval ?_ hkept hnamed (here_luaK_ret _ hknown.kept)
  intro i p Z hop
  rw [Ins.does, hop]

/-- The jump of a `break` is on the `breaklist` of its loop. -/
theorem here_breakstat {k : Nat} {brk : Nat → Behaviour Event} (h : breakstat k fs = .ok fs')
    (hkept : Kept fs'.code code) (hbrk : Breaks C n fs'.bl brk) :
    C.R (C.here n fs.pc) (brk (k - 1)) := by
  have hcount := breakBlocks_loops k fs.bl
  have hloop : ∀ b outer, (breakBlocks k fs.bl).2 = b :: outer → b.isbreakable = true :=
    fun _ _ => breakBlocks_loop k fs.bl
  unfold breakstat at h
  rcases hb : breakBlocks k fs.bl with ⟨left, _ | ⟨b, outer⟩⟩
  · rw [hb] at h
    cases h
  · rw [hb] at h hcount hloop
    cases h
    have hk : (loops left : Int) + 1 = k := hcount (List.cons_ne_nil _ _)
    have hindex : k - 1 = loops left := by omega
    have hlist := hbrk.get (hloop b outer rfl)
    rw [hindex]
    exact here_closeJump hkept (hlist.mono (List.subset_append_right _ _))

/-- A `break` goes on behind its loop. -/
theorem means_breakstat (k : Nat) : Means code (breakstat k) fun _ K => K.brk (k - 1) :=
  fun _ _ _ _ _ _ h _ _ hknown hleads => here_breakstat h hknown.kept hleads.brk

/-- A `continue` goes on with the next turn. -/
theorem means_continuestat : Means code continuestat fun _ K => K.next := by
  intro C n fs fs' ρ K h _ _ hknown hleads
  have hloop := List.head?_dropWhile_not (fun bl : BlockCnt => !bl.isbreakable) fs.bl
  have hleft : loops (fs.bl.takeWhile fun bl => !bl.isbreakable) = 0 := by
    apply List.countP_eq_zero.2
    intro b hb
    have hscope := List.all_eq_true.1 List.all_takeWhile b hb
    simpa using hscope
  unfold continuestat at h
  rw [List.span_eq_takeWhile_dropWhile] at h
  rcases hd : fs.bl.dropWhile fun bl => !bl.isbreakable with _ | ⟨b, outer⟩
  · rw [hd] at h
    cases h
  · rw [hd] at h hloop
    cases h
    have hb : b.isbreakable = true := by simpa using hloop
    have hlist := hleads.next.get hleft hb
    exact here_closeJump hknown.kept (hlist.mono (List.subset_append_right _ _))

/-- A block means what its body means. -/
theorem means_block {body : Compile} {sem : Names → Exits → Behaviour Event} (hmoving : Moving body)
    (hbody : Means code body sem) : Means code (block body) sem := by
  intro C n fs fs' ρ K h hnamed hS hknown hleads
  obtain ⟨fs2, h2, h⟩ := bind_ok h
  cases h
  obtain ⟨s, previous, hbl, hs, -⟩ := (hmoving h2).blocks.scope (scope_enterblock _)
  have hstart := Stage.lists_step hS (step_enter false fs [])
  have hend := Stage.lists_step hstart (hmoving h2).step
  have hknown2 := hknown.before hend (hs.step_leaveblock hbl [])
  have hscope : ¬ s.isbreakable = true := by simp [hs.loop]
  have hnext := hleads.next
  have hbrk := hleads.brk
  rw [bl_leaveblock hbl] at hnext hbrk
  have hin : Named (enterblock false fs) ρ := hnamed
  have hleads2 : Leads C n fs2 K := by
    refine ⟨here_leaveblock hbl hknown.kept hleads.normal, ?_, ?_⟩
    · rw [hbl, Continues, if_neg hscope]
      exact hnext
    · rw [hbl, Breaks, if_neg hscope]
      exact hbrk
  have hdoes := hbody C h2 hin hstart hknown2 hleads2
  exact hdoes

/-! ## Loops -/

/-- Inside a loop, where its block has the lists. -/
theorem Leads.inside {b : BlockCnt} {scopes previous : List BlockCnt} {next : Behaviour Event}
    {K : Exits} (hbl : fs.bl = scopes ++ b :: previous) (hscopes : ∀ s ∈ scopes, Scope s)
    (hb : b.isbreakable = true) (hnormal : C.R (C.here n fs.pc) next)
    (hnext : Lands C n b.continuelist next) (hbreak : Lands C n b.breaklist K.normal)
    (hbrk : Breaks C n previous K.brk) : Leads C n fs (K.inside next) := by
  refine ⟨hnormal, ?_, ?_⟩
  · rw [hbl]
    clear hbl
    induction scopes with
    | nil =>
      rw [List.nil_append, Continues, if_pos hb]
      exact hnext
    | cons s scopes ih =>
      obtain ⟨hs, hscopes⟩ := List.forall_mem_cons.1 hscopes
      rw [List.cons_append, Continues, if_neg (by simp [hs.loop])]
      exact ih hscopes
  · rw [hbl]
    clear hbl
    induction scopes with
    | nil =>
      rw [List.nil_append, Breaks, if_pos hb]
      exact ⟨hbreak, hbrk⟩
    | cons s scopes ih =>
      obtain ⟨hs, hscopes⟩ := List.forall_mem_cons.1 hscopes
      rw [List.cons_append, Breaks, if_neg (by simp [hs.loop])]
      exact ih hscopes

/-- The jump back to the start of a loop. -/
theorem here_jumpBack {target : Nat} {held : List (List Nat)} (hle : target ≤ fs.pc)
    (hS : ∃ L, Lists ⟨fs, used, held⟩ L) (hknown : Known ⟨jumpBack target fs, used, held⟩ code)
    (h : C.R (C.here (C.back n) target) B) : C.R (C.here n fs.pc) B := by
  have hjump : Stage.Step ⟨fs, used, held⟩ ⟨(luaK_jump fs).1, used, (luaK_jump fs).2 :: held⟩ :=
    (Stage.step_jump used).frame held
  have hback : Stage.Step ⟨(luaK_jump fs).1, used, (luaK_jump fs).2 :: held⟩
      ⟨jumpBack target fs, used, held⟩ :=
    (Stage.step_patchlist (luaK_jump fs).2 target used).frame held
  have hkept := (hknown.before (Stage.lists_step hS hjump) hback).kept
  obtain ⟨i, hi, hop, -⟩ := Kept.emitted { fs with jpc := [] } hkept
  have hdest := (sets_jumpBack hle used held).targets hS hknown.kept
  exact here_jmp hi hop (hdest fs.pc (List.mem_singleton_self _)) h

/-- A `while` loop does its condition, and its body while that holds. -/
theorem means_whilestat {c : Cond} {body : Compile} {sem : Names → Exits → Behaviour Event}
    (hmoving : Moving body) (hbody : Means code (block body) sem) :
    Means code (whilestat c body) fun ρ K => loop fun again =>
      c.does ρ false fun v => if v then sem ρ (K.inside again) else K.normal := by
  intro C n fs fs' ρ K h hnamed hS hknown hleads
  obtain ⟨fs1, h1, h⟩ := bind_ok h
  have hend : whileEnd fs.pc (cond c fs).2 fs1 = fs' := Except.ok.inj h
  have hcond := moves_goif c false fs 0
  have hmoves := hmoving.block h1
  obtain ⟨b, previous, hbl, hb, -⟩ := hmoves.blocks.loop
  have hlast : fs'.bl = previous := by
    rw [← hend]
    exact bl_whileEnd hbl _ _
  have hbl'' : fs1.bl = [] ++ b :: previous := hbl
  have hexit : (cond c fs).2 ⊆ fs'.jpc := by
    rw [← hend]
    exact List.subset_append_right _ _
  -- the steps: the condition, the block of the loop, its body, the jump back, and the end
  have henter := step_enter true (cond c fs).1 [(cond c fs).2]
  have hbodystep := hmoves.step.frame [(cond c fs).2]
  have hjump : Stage.Step ⟨fs1, 0, [(cond c fs).2]⟩ ⟨jumpBack fs.pc fs1, 0, [(cond c fs).2]⟩ :=
    step_jumpBack fs.pc 0 [(cond c fs).2]
  have hbl' := (bl_jumpBack fs.pc fs1).trans hbl
  have hcont := step_continues hbl' fs.pc [(cond c fs).2]
  have hleaves := leaves_exit ((bl_patchlist b.continuelist fs.pc _).trans hbl') (cond c fs).2
  rw [← whileEnd_eq hbl, hend] at hleaves
  have hS1 := Stage.lists_step hS hcond.step
  have hS2 := Stage.lists_step hS1 henter
  have hS3 := Stage.lists_step hS2 hbodystep
  have hS4 := Stage.lists_step hS3 hjump
  have hknown4 := hknown.before hS4 (hcont.trans hleaves.step)
  have hknown3 := hknown4.before hS3 hjump
  have hknown1 := hknown3.before hS1 (henter.trans hbodystep)
  -- where the lists go
  have hle : fs.pc ≤ fs1.pc := (hcond.step.le_pc hS).trans (hbodystep.le_pc hS2)
  have hne : fs.pc ≠ (jumpBack fs.pc fs1).pc := by
    rw [jumpBack, Stage.pc_patchlist, pc_luaK_jump]
    omega
  have hnext := ((sets_continues hbl' hne [(cond c fs).2]).after hcont.lists hleaves.step).targets
    hS4 hknown.kept
  have hbreak := (hleaves.breaks.before hcont).arrives hS4 hknown
  apply C.loop
  intro m again hm hagain
  have hlater := hleads.later hm
  have hinside : Leads C m fs1 (K.inside again) := by
    apply Leads.inside hbl'' (List.forall_mem_nil _) hb.loop (here_jumpBack hle hS3 hknown4 hagain)
    · exact lands_of_dest hnext hagain
    · exact lands_of_arrives hbreak hlater.normal
    · rw [← hlast]
      exact hlater.brk
  have hcondnamed : Named (cond c fs).1 ρ := hnamed.of_actvar (actvar_goif false c fs)
  have hentered : Named (enterblock true (cond c fs).1) ρ := hcondnamed
  have hS2' : ∃ L, Lists ⟨enterblock true (cond c fs).1, 0, []⟩ L := Stage.lists_of_held hS2
  have hknown3' : Known ⟨fs1, 0, []⟩ code := hknown3.of_single
  have hdoes := hbody C h1 hentered hS2' hknown3' hinside
  exact here_goif c (k := fun v => if v then sem ρ (K.inside again) else K.normal) hnamed hS hknown1
    (lands_of_arrives (hknown.owes.jpc.mono hexit) hlater.normal) hdoes

theorem le_pc_goif (c : Cond) (on : Bool) (fs : FuncState) : fs.pc ≤ (goif on c fs).1.pc := by
  induction c generalizing on fs with
  | const b =>
    unfold goif
    split
    · rw [pc_luaK_jump]
      omega
    · exact le_rfl
  | test names => exact (Nat.le_succ _).trans_eq (pc_luaK_code _ _ _).symm
  | not c ih => exact ih (!on) fs
  | and c d ihc ihd =>
    have hboth := (ihc false fs).trans (ihd on (goif false c fs).1)
    unfold goif
    cases on <;> exact hboth
  | or c d ihc ihd =>
    have hboth := (ihc true fs).trans (ihd on (goif true c fs).1)
    unfold goif
    cases on <;> exact hboth

theorem lt_of_append_ne_nil {p q r : Nat} {list f : List Nat} (hpq : p ≤ q) (hqr : q ≤ r)
    (hf : f ≠ [] → p < q) (hlist : list ≠ [] → q < r) (h : list ++ f ≠ []) : p < r := by
  by_cases hnil : f = []
  · rw [hnil, List.append_nil] at h
    exact hpq.trans_lt (hlist h)
  · exact (hf hnil).trans_le hqr

/-- A condition whose code can jump has code. -/
theorem lt_pc_goif (c : Cond) (on : Bool) (fs : FuncState) (h : (goif on c fs).2 ≠ []) :
    fs.pc < (goif on c fs).1.pc := by
  induction c generalizing on fs with
  | const b =>
    unfold goif at h ⊢
    split at h
    · next hb =>
      rw [if_pos hb, pc_luaK_jump]
      omega
    · exact absurd rfl h
  | test names => exact (Nat.lt_succ_self _).trans_eq (pc_luaK_code _ _ _).symm
  | not c ih => exact ih (!on) fs h
  | and c d ihc ihd =>
    have hle := le_pc_goif c false fs
    have hle' := le_pc_goif d on (goif false c fs).1
    unfold goif at h ⊢
    cases on with
    | true => exact hle.trans_lt (ihd true _ h)
    | false => exact lt_of_append_ne_nil hle hle' (ihc false fs) (ihd false _) h
  | or c d ihc ihd =>
    have hle := le_pc_goif c true fs
    have hle' := le_pc_goif d on (goif true c fs).1
    unfold goif at h ⊢
    cases on with
    | true => exact lt_of_append_ne_nil hle hle' (ihc true fs) (ihd true _) h
    | false => exact hle.trans_lt (ihd false _ h)

/-- The list of a condition goes back to a place at or before it. -/
theorem lands_back {target : Nat} {condexit : List Nat} (hne : condexit ≠ [] → target < fs.pc)
    (hS : ∃ L, Lists ⟨fs, used, [condexit]⟩ L)
    (hkept : Kept (luaK_patchlist condexit target fs).code code)
    (hB : C.R (C.here (C.back n) target) B) : Lands C n condexit B := by
  by_cases hnil : condexit = []
  · rw [hnil]
    exact fun q hq => nomatch hq
  · have hsets := Stage.sets_patchlist (hne hnil).ne condexit used []
    exact lands_of_dest (hsets.targets hS hkept) hB

/-- What is done from the end of the condition of a `repeat`, and where its list goes. -/
theorem here_repeatEnd {s b : BlockCnt} {previous : List BlockCnt} {condexit : List Nat}
    {repeat_init : Nat} {K : Exits} (hbl : fs.bl = s :: b :: previous) (hs : ¬ s.isbreakable = true)
    (hb : b.isbreakable = true) (hle : repeat_init ≤ fs.pc)
    (hne : condexit ≠ [] → repeat_init < fs.pc) (hS : ∃ L, Lists ⟨fs, 2, [condexit]⟩ L)
    (h : (
      if !(fs.bl.head?.map (·.upval)).getD false then
        let fs := luaK_patchlist condexit repeat_init (leaveblock fs)
        .ok (leaveblock fs)
      else do
        let fs ← breakstat 1 fs
        let fs := leaveblock (luaK_patchtohere condexit fs)
        let (fs, jump) := luaK_jump fs
        .ok (leaveblock (luaK_patchlist jump repeat_init fs))) = Except.ok fs')
    (hknown : Known ⟨fs', 0, []⟩ code) (hleads : Leads C n fs' K)
    (hagain : C.R (C.here (C.back n) repeat_init) B) :
    Lands C n condexit B ∧ C.R (C.here n fs.pc) K.normal := by
  split at h
  · have hend : leaveblock (luaK_patchlist condexit repeat_init (leaveblock fs)) = fs' :=
      Except.ok.inj h
    have hbl' := (bl_patchlist condexit repeat_init (leaveblock fs)).trans (bl_leaveblock hbl)
    have hscope := step_leaveblock_used hbl 1 [condexit]
    have hback : Stage.Step ⟨leaveblock fs, 1, [condexit]⟩
        ⟨luaK_patchlist condexit repeat_init (leaveblock fs), 1, []⟩ :=
      Stage.step_patchlist condexit repeat_init 1
    have hlast := step_leaveblock_used hbl' 0 []
    rw [hend] at hlast
    have hS2 := Stage.lists_step hS hscope
    have hknown3 := hknown.before (Stage.lists_step hS2 hback) hlast
    have hknown2 := hknown3.before hS2 hback
    constructor
    · exact lands_back (fun h => (hne h).trans_le (hscope.le_pc hS)) hS2 hknown3.kept hagain
    · apply here_leaveblock hbl hknown2.kept
      have hnormal : C.R (C.here n (luaK_patchlist condexit repeat_init (leaveblock fs)).pc)
          K.normal := by
        apply here_leaveblock hbl'
        · rw [hend]
          exact hknown.kept
        · rw [hend]
          exact hleads.normal
      rwa [Stage.pc_patchlist] at hnormal
  · obtain ⟨fs3, h3, h⟩ := bind_ok h
    have hbreak := moves_breakstat 2 h3
    have hlonger := hbreak.blocks
    rw [hbl] at hlonger
    obtain ⟨s', rest, hbl3, hs', hrest⟩ := hlonger.loop
    obtain ⟨b', previous', rfl, hb', hprevious⟩ := hrest.loop
    have hend : leaveblock (jumpBack repeat_init (leaveblock (luaK_patchtohere condexit fs3))) = fs' :=
      Except.ok.inj h
    have hfalse : Stage.Step ⟨fs3, 2, [condexit]⟩ ⟨luaK_patchtohere condexit fs3, 2, []⟩ :=
      Stage.step_patchtohere condexit 2
    have hbl4 : (luaK_patchtohere condexit fs3).bl = s' :: b' :: previous' := hbl3
    have hscope := step_leaveblock_used hbl4 1 []
    have hback : Stage.Step ⟨leaveblock (luaK_patchtohere condexit fs3), 1, []⟩
        ⟨jumpBack repeat_init (leaveblock (luaK_patchtohere condexit fs3)), 1, []⟩ :=
      step_jumpBack repeat_init 1 []
    have hbl5 := (bl_jumpBack repeat_init (leaveblock (luaK_patchtohere condexit fs3))).trans
      (bl_leaveblock hbl4)
    have hleaves := leaves_leaveblock hbl5
    have hlast : fs'.bl = previous' := by
      rw [← hend]
      exact bl_leaveblock hbl5
    rw [hend] at hleaves
    have hS3 := Stage.lists_step hS (hbreak.step.frame [condexit])
    have hS4 := Stage.lists_step hS3 hfalse
    have hS5 := Stage.lists_step hS4 hscope
    have hS6 := Stage.lists_step hS5 hback
    have hknown6 := hknown.before hS6 hleaves.step
    have hknown5 := hknown6.before hS5 hback
    have hknown4 := hknown5.before hS4 hscope
    have hknown3 := hknown4.before hS3 hfalse
    have hle' : repeat_init ≤ (leaveblock (luaK_patchtohere condexit fs3)).pc :=
      (hle.trans ((hbreak.step.frame [condexit]).le_pc hS)).trans (hscope.le_pc hS4)
    constructor
    · apply lands_of_arrives (hknown4.owes.jpc.mono (List.subset_append_right _ _))
      exact here_leaveblock hbl4 hknown5.kept (here_jumpBack hle' hS5 hknown6 hagain)
    · have hbrk : Breaks C n fs3.bl (K.inside stop).brk := by
        rw [hbl3, Breaks, if_neg (by rw [hs'.loop]; exact hs), Breaks,
          if_pos (hb'.loop.trans hb), ← hlast]
        exact ⟨lands_of_arrives (hleaves.breaks.arrives hS6 hknown) hleads.normal, hleads.brk⟩
      exact here_breakstat (k := 1) h3 hknown3.kept hbrk

/-- A `repeat` loop does its body, then the condition in the scope of the body. -/
theorem means_repeatstat {c : Cond} {body : Compile} {sem : Names → Exits → Behaviour Event}
    {names : Names} (hmoving : Moving body) (hnaming : Naming body names)
    (hbody : Means code body sem) : Means code (repeatstat body c) fun ρ K => loop fun again =>
      sem ρ (K.inside (c.does (ρ ++ names) false fun v => if v then K.normal else again)) := by
  intro C n fs fs' ρ K h hnamed hS hknown hleads
  obtain ⟨fs2, h2, hloop⟩ := loopCode_repeatstat hmoving h
  obtain ⟨scopes, b₀, outer, hbl₀, hscopes, hb₀, hlonger, hcloses⟩ := hloop.closes
  obtain ⟨fs2', h2', h⟩ := bind_ok h
  cases h2.symm.trans h2'
  -- the steps: the body, and the condition behind the patched `continue`s
  have hin := (hmoving h2).step
  obtain ⟨s, rest, hbl, hs, hrest⟩ := (hmoving h2).blocks.scope (scope_enterblock _)
  obtain ⟨b, previous, rfl, hb, -⟩ := hrest.loop
  have hcont : continuelist { fs2 with bl := fs2.bl.tail } = b.continuelist := by
    rw [hbl]
    rfl
  rw [hcont] at h
  have htake : Stage.Step ⟨fs2, 0, []⟩ ⟨luaK_patchtohere b.continuelist fs2, 2, []⟩ :=
    (step_continuelist_scope hbl hs.continues).trans (Stage.step_patchtohere b.continuelist 2)
  have hcond := moves_goif c false (luaK_patchtohere b.continuelist fs2) 2
  have hgrown : Longer (s :: b :: previous) (goif false c (luaK_patchtohere b.continuelist fs2)).1.bl := by
    rw [← hbl]
    exact hcond.blocks
  obtain ⟨s', rest, hbl4, hs', hrest'⟩ := hgrown.loop
  obtain ⟨b', previous', rfl, hb', -⟩ := hrest'.loop
  have hS1 := Stage.lists_step hS hloop.enter
  have hS2 := Stage.lists_step hS1 hin
  have hS3 := Stage.lists_step hS2 htake
  have hS4 := Stage.lists_step hS3 hcond.step
  have hknown4 := hknown.before hS4 (leaves_repeat hbl4 h).1.step
  have hknown2 := (hknown4.before hS3 hcond.step).before hS2 htake
  have hle : fs.pc ≤ (luaK_patchtohere b.continuelist fs2).pc := hin.le_pc hS1
  have hnamed3 : Named (luaK_patchtohere b.continuelist fs2) (ρ ++ names) := by
    have hstart : Named (repeatStart fs) ρ := hnamed
    have hend := hnaming h2 hstart
    exact hend
  apply C.loop
  intro m again hm hagain
  have hlater := hleads.later hm
  have hloop' : b'.isbreakable = true := hb'.loop.trans hb.loop
  have hscope : ¬ s'.isbreakable = true := by simp [hs'.loop, hs.loop]
  obtain ⟨hlist, hnormal⟩ := here_repeatEnd hbl4 hscope hloop' (hle.trans (le_pc_goif c false _))
    (fun hne => hle.trans_lt (lt_pc_goif c false _ hne)) hS4 h hknown hlater hagain
  have htest : C.R (C.here m (luaK_patchtohere b.continuelist fs2).pc)
      (c.does (ρ ++ names) false fun v => if v then K.normal else again) :=
    here_goif c hnamed3 hS3 hknown4 hlist hnormal
  have hcontinues := hcloses.continues.arrives hS2 hknown
  have hbreaks := hcloses.breaks.arrives hS2 hknown
  have hinside : Leads C m fs2
      (K.inside (c.does (ρ ++ names) false fun v => if v then K.normal else again)) :=
    Leads.inside hbl₀ hscopes hb₀ htest (lands_of_arrives hcontinues htest)
      (lands_of_arrives hbreaks hlater.normal) (hlater.brk.of_longer hlonger)
  have hstart : Named (repeatStart fs) ρ := hnamed
  have hdoes := hbody C h2 hstart hS1 hknown2 hinside
  exact hdoes

/-- The first jump of a `for` is silent. -/
theorem here_forprep {isnum : Bool} (hkept : Kept (forprep isnum fs).1.code code)
    (h : Lands C n (forprep isnum fs).2 B) : C.R (C.here n fs.pc) B := by
  cases isnum with
  | true =>
    obtain ⟨i, hi, hop, -⟩ := Kept.emitted fs hkept
    obtain ⟨d, hd, hB⟩ := h fs.pc (List.mem_singleton_self _)
    exact here_jmp hi hop hd hB
  | false => exact here_luaK_jump hkept h

/-- The test of a `for`: its jump goes back behind the first jump, and the loop ends behind it. -/
theorem here_forEnd {b : BlockCnt} {previous : List BlockCnt} {vars : List Var} {prep : Nat}
    {jump : List Nat} (hbl : fs.bl = b :: previous) (hle : prep < fs.pc)
    (hS : ∃ L, Lists ⟨forTest vars jump fs, 1, [[fs.pc]]⟩ L)
    (hknown : Known ⟨forEnd vars prep jump fs, 0, []⟩ code)
    (hbody : C.R (C.here (C.back n) (prep + 1)) A)
    (hnormal : C.R (C.here n (forEnd vars prep jump fs).pc) B) :
    C.R (C.here n fs.pc) (either (emit (.iterate vars.length true) A)
      (emit (.iterate vars.length false) B)) := by
  have hpatch : Stage.Step ⟨forTest vars jump fs, 1, [[fs.pc]]⟩
      ⟨luaK_patchlist [fs.pc] (prep + 1) (forTest vars jump fs), 1, []⟩ :=
    Stage.step_patchlist [fs.pc] (prep + 1) 1
  have hbl' := (bl_patchlist [fs.pc] (prep + 1) (forTest vars jump fs)).trans hbl
  have hleave := step_leaveblock_used hbl' 0 []
  have hknown2 := hknown.before (Stage.lists_step hS hpatch) hleave
  have hpc : (forTest vars jump fs).pc = fs.pc + 1 := pc_luaK_code _ _ _
  have hne : prep + 1 ≠ (forTest vars jump fs).pc := by
    rw [hpc]
    omega
  have hdest := (Stage.sets_patchlist hne [fs.pc] 1 []).targets hS hknown2.kept
  have hnext : C.R (C.here n (luaK_patchlist [fs.pc] (prep + 1) (forTest vars jump fs)).pc) B :=
    here_leaveblock hbl' hknown.kept hnormal
  rw [Stage.pc_patchlist, hpc] at hnext
  obtain ⟨i, hi, hop, -⟩ := (hknown2.before hS hpatch).kept.emitted _
  apply here_either hi (hdest fs.pc (List.mem_singleton_self _)) ?_ hbody hnext
  intro Z
  rw [Ins.does, hop]

/-- A `for` loop evaluates its control values once, and its test before each turn. -/
theorem means_forstat {vars names : List String} {isnum : Bool} {body : Compile}
    {sem : Names → Exits → Behaviour Event} (hmoving : Moving body) (hbody : Means code body sem) :
    Means code (forstat vars names isnum body) fun ρ K =>
      emit (.decl 3 (ρ.resolve names)) (loop fun again =>
        either (emit (.iterate vars.length true) (sem (ρ ++ forNames vars) (K.inside again)))
          (emit (.iterate vars.length false) K.normal)) := by
  intro C n fs fs' ρ K h hnamed hS hknown hleads
  obtain ⟨new, fs2, hnew, h2, hend⟩ := forstat_parts h
  obtain ⟨-, hstart⟩ := named_forstat names isnum hnamed hnew
  have hlength := length_new hnew
  have hcontrol : (new.take 3).length = 3 := by
    rw [List.length_take, hlength, List.length_append, List.length_cons]
    simp
  have hvars : (new.drop 3).length = vars.length := by
    rw [List.length_drop, hlength, List.length_append, List.length_map]
    simp
  -- the steps: the values, the first jump, the body, its two blocks, and the test
  have hexpr := (moves_codeExpr (.decl (new.take 3)) names (enterblock true fs) 0 rfl).step
  have hlocals := (moves_adjustlocalvars (new.take 3)
    (codeExpr (.decl (new.take 3)) names (enterblock true fs))).step
  have hhead := moves_forHead (new.take 3) names isnum fs
  change Stage.Step _ ⟨forHead (new.take 3) names fs, 0, []⟩ at hlocals
  have hpc : (codeExpr (.decl (new.take 3)) names (enterblock true fs)).pc =
    (forHead (new.take 3) names fs).pc := rfl
  generalize forHead (new.take 3) names fs = d at h2 hend hstart hlocals hhead hpc
  have hprep := (moves_forprep isnum d).step
  have hprep_pc : (forprep isnum d).1.pc = d.pc + 1 := by
    cases isnum
    · exact pc_luaK_jump d
    · exact pc_luaK_code _ _ _
  have hinner := step_forInner (new.drop 3) (forprep isnum d).1 [(forprep isnum d).2]
  have hbodystep := (hmoving h2).step.frame [(forprep isnum d).2]
  obtain ⟨s, rest, hbl, hs, hrest⟩ := (hmoving h2).blocks.scope (scope_enterblock _)
  obtain ⟨s', rest, rfl, hs', hrest⟩ := hrest.scope (scope_enterblock _)
  obtain ⟨b, previous, rfl, hb, -⟩ := (hhead.blocks.trans hrest).loop
  have hbl' := bl_leaveblock hbl
  have hbl'' := bl_leaveblock hbl'
  have hscope := hs.step_leaveblock hbl [(forprep isnum d).2]
  have hscope' := hs'.step_leaveblock hbl' [(forprep isnum d).2]
  obtain ⟨htest, hfirst, hsend⟩ := sends_forTest hbl'' (new.drop 3) (forprep isnum d).2
  have hleaves := leaves_forEnd hbl'' (new.drop 3) d.pc (forprep isnum d).2
  have hS1 := Stage.lists_step hS (step_enter true fs [])
  have hS2 := Stage.lists_step hS1 hexpr
  have hS3 := Stage.lists_step hS2 hlocals
  have hS4 := Stage.lists_step hS3 hprep
  have hS5 := Stage.lists_step hS4 hinner
  have hS6 := Stage.lists_step hS5 hbodystep
  have hS7 := Stage.lists_step hS6 hscope
  have hS8 := Stage.lists_step hS7 hscope'
  have hS9 := Stage.lists_step hS8 htest
  have hlast : fs'.bl = previous := by
    rw [← hend]
    exact bl_forEnd hbl'' _ _ _
  rw [← hend] at hknown hleads
  have hknown9 := hknown.before hS9 hleaves.step
  have hknown8 := hknown9.before hS8 htest
  have hknown7 := hknown8.before hS7 hscope'
  have hknown6 := hknown7.before hS6 hscope
  have hknown4 := hknown6.before hS4 (hinner.trans hbodystep)
  have hknown2 := hknown4.before hS2 (hlocals.trans hprep)
  have hjump := (hfirst.after htest.lists hleaves.step).arrives hS8 hknown
  have hnext := (hsend.after htest.lists hleaves.step).arrives hS8 hknown
  have hbreak := (hleaves.breaks.before htest).arrives hS8 hknown
  have hle : d.pc < (leaveblock (leaveblock fs2)).pc := by
    have hbefore : d.pc + 1 ≤ fs2.pc := hprep_pc.ge.trans (hbodystep.le_pc hS5)
    exact hbefore.trans ((hscope.le_pc hS6).trans (hscope'.le_pc hS7))
  have hloop : C.R (C.here n (leaveblock (leaveblock fs2)).pc) (loop fun again =>
      either (emit (.iterate vars.length true) (sem (ρ ++ forNames vars) (K.inside again)))
        (emit (.iterate vars.length false) K.normal)) := by
    apply C.loop
    intro m again hm hagain
    have hlater := hleads.later ((C.back_le m).trans hm)
    have hexit : C.R (C.here (C.back m) fs2.pc) again :=
      here_leaveblock hbl hknown7.kept (here_leaveblock hbl' hknown8.kept hagain)
    have hbl2 : fs2.bl = [s, s'] ++ b :: previous := hbl
    have hbrk := hlater.brk
    rw [hend, hlast] at hbrk
    have hinside : Leads C (C.back m) fs2 (K.inside again) :=
      Leads.inside hbl2 (by simpa using ⟨hs, hs'⟩) hb.loop hexit (lands_of_arrives hnext hagain)
        (lands_of_arrives hbreak hlater.normal) hbrk
    have hS5' : ∃ L, Lists ⟨forInner (new.drop 3) (forprep isnum d).1, 0, []⟩ L :=
      Stage.lists_of_held hS5
    have hdoes := hbody C h2 hstart hS5' hknown6.of_single hinside
    change C.R (C.here (C.back m) (forprep isnum d).1.pc) _ at hdoes
    rw [hprep_pc] at hdoes
    have hdone := here_forEnd hbl'' hle hS9 hknown hdoes (hleads.later hm).normal
    rw [hvars] at hdone
    exact hdone
  have hvalues := here_forprep hknown4.kept (lands_of_arrives hjump hloop)
  rw [← hpc] at hvalues
  have hentered : Named (enterblock true fs) ρ := hnamed
  refine here_codeExpr (enterblock true fs) (.decl 3) ?_ hknown2.kept hentered hvalues
  intro i p Z hop
  rw [Ins.does, hop]
  change emit (Event.decl (new.take 3).length _) _ = _
  rw [hcontrol]

/-! ## Branches -/

/-- The code of the arms behind the first one: control comes to it from the end of an arm, from
the arms before by `escapelist`, and from the last head by `flist`. -/
def MeansArms (code : List Ins) (rest : List Nat → List Nat → Compile)
    (sem : Names → Exits → Behaviour Event) : Prop :=
  ∀ (C : Comparison (codeStep code)) ⦃n : C.Level⦄ ⦃escapelist flist : List Nat⦄
    ⦃fs fs' : FuncState⦄ ⦃ρ : Names⦄ ⦃K : Exits⦄,
    rest escapelist flist fs = .ok fs' → Named fs ρ → (∃ L, Lists ⟨fs, 0, [escapelist, flist]⟩ L) →
    Known ⟨fs', 0, []⟩ code → Leads C n fs' K →
    C.R (C.here n fs.pc) K.normal ∧ Lands C n escapelist K.normal ∧ Lands C n flist (sem ρ K)

theorem Leads.of_longer {K : Exits} (h : Leads C n fs' K) (hlonger : Longer fs.bl fs'.bl)
    (hnormal : C.R (C.here n fs.pc) K.normal) : Leads C n fs K :=
  ⟨hnormal, h.next.of_longer hlonger, h.brk.of_longer hlonger⟩

/-- The head of an arm decides between the arm and the next one. -/
theorem here_headJump (head : Head) {k : Bool → Behaviour Event} (hnamed : Named fs ρ)
    (hS : ∃ L, Lists ⟨fs, 0, []⟩ L)
    (hknown : Known ⟨(headJump head fs).1, 0, [(headJump head fs).2]⟩ code)
    (hlist : Lands C n (headJump head fs).2 (k false))
    (hnext : C.R (C.here n (headJump head fs).1.pc) (k true)) :
    C.R (C.here n fs.pc) (head.does ρ k) := by
  cases head with
  | elseif c => exact here_goif c hnamed hS hknown hlist hnext
  | of names => exact here_goif (.test names) hnamed hS hknown hlist hnext

/-- The jump over the next arm. -/
theorem here_nextArm {escapelist flist : List Nat}
    (hknown : Known ⟨(nextArm escapelist flist fs).1, 0, [(nextArm escapelist flist fs).2]⟩ code)
    (hescape : Lands C n (nextArm escapelist flist fs).2 A)
    (harm : C.R (C.here n (nextArm escapelist flist fs).1.pc) B) :
    C.R (C.here n fs.pc) A ∧ Lands C n escapelist A ∧ Lands C n flist B := by
  refine ⟨here_luaK_jump hknown.kept (hescape.mono (List.subset_append_right _ _)),
    hescape.mono (List.subset_append_left _ _), ?_⟩
  exact lands_of_arrives (hknown.owes.jpc.mono (List.subset_append_right _ _)) harm

/-- Without an `else` nothing is left to do. -/
theorem meansArms_lastArm : MeansArms code (fun escapelist flist fs => .ok (lastArm escapelist flist fs))
    fun _ K => K.normal := by
  intro C n escapelist flist fs fs' ρ K h _ _ hknown hleads
  cases h
  have harrives : Arrives code (escapelist ++ flist) fs.pc :=
    hknown.owes.jpc.mono (List.subset_append_right _ _)
  have hlands := lands_of_arrives harrives hleads.normal
  exact ⟨hleads.normal, hlands.mono (List.subset_append_left _ _),
    hlands.mono (List.subset_append_right _ _)⟩

/-- An `else` is done when no arm was. -/
theorem meansArms_elseArm {body : Compile} {sem : Names → Exits → Behaviour Event}
    (hmoving : Moving body) (hbody : Means code (block body) sem) :
    MeansArms code (elseArm body) sem := by
  intro C n escapelist flist fs fs' ρ K h hnamed hS hknown hleads
  obtain ⟨fs1, h1, h⟩ := bind_ok h
  have hend : luaK_patchtohere (nextArm escapelist flist fs).2 fs1 = fs' := Except.ok.inj h
  rw [← hend] at hknown hleads
  have hnext := (moves_nextArm escapelist flist fs).step
  have hin := (hmoving.block h1).frame [(nextArm escapelist flist fs).2]
  have hS1 := Stage.lists_step hS hnext
  have hS2 := Stage.lists_step hS1 hin.step
  have hknown2 := hknown.before hS2 (Stage.step_patchtohere _ 0)
  have hknown1 := hknown2.before hS1 hin.step
  have hescape := hknown.owes.jpc.mono (List.subset_append_right fs1.jpc _)
  apply here_nextArm hknown1 (lands_of_arrives hescape hleads.normal)
  have hentered : Named (nextArm escapelist flist fs).1 ρ := hnamed
  have hS1' : ∃ L, Lists ⟨(nextArm escapelist flist fs).1, 0, []⟩ L := Stage.lists_of_held hS1
  have hleads1 : Leads C n fs1 K := ⟨hleads.normal, hleads.next, hleads.brk⟩
  exact hbody C h1 hentered hS1' hknown2.of_single hleads1

/-- An arm, and those behind it. -/
theorem here_branch {head : Head} {body : Compile} {rest : List Nat → List Nat → Compile}
    {sem semRest : Names → Exits → Behaviour Event} {escapelist : List Nat} {K : Exits}
    (hmoving : Moving body) (hmoves : MovingArms rest) (hnaming : Naming (block body) [])
    (hbody : Means code (block body) sem) (hrest : MeansArms code rest semRest)
    (h : branch head body rest escapelist fs = .ok fs') (hnamed : Named fs ρ)
    (hS : ∃ L, Lists ⟨fs, 0, [escapelist]⟩ L) (hknown : Known ⟨fs', 0, []⟩ code)
    (hleads : Leads C n fs' K) :
    C.R (C.here n fs.pc) (head.does ρ fun v => if v then sem ρ K else semRest ρ K) ∧
      Lands C n escapelist K.normal := by
  obtain ⟨r, h1, h⟩ := bind_ok h
  obtain ⟨fs1, hblock, h1⟩ := bind_ok h1
  cases h1
  have hhead := (moves_headJump head fs).frame [escapelist]
  have hin := (hmoving.block hblock).frame [(headJump head fs).2, escapelist]
  have hswap : Stage.Step ⟨fs1, 0, [(headJump head fs).2, escapelist]⟩
      ⟨fs1, 0, [escapelist, (headJump head fs).2]⟩ := Stage.step_swap _ _
  have harms := hmoves h
  have hS1 := Stage.lists_step hS hhead.step
  have hS2 := Stage.lists_step hS1 hin.step
  have hS3 := Stage.lists_step hS2 hswap
  have hknown3 := hknown.before hS3 harms.step
  have hknown2 := hknown3.before hS2 hswap
  have hknown1 := hknown2.before hS1 hin.step
  have hheadnamed := named_headJump head hnamed
  obtain ⟨hnormal, hescape, hflist⟩ :=
    hrest C h (hnaming.block_same hblock hheadnamed) hS3 hknown hleads
  refine ⟨?_, hescape⟩
  have hknown2' : Known ⟨fs1, 0, [] ++ [(headJump head fs).2, escapelist]⟩ code := hknown2
  have hknown1' : Known ⟨(headJump head fs).1, 0, [(headJump head fs).2] ++ [escapelist]⟩ code := hknown1
  have hS1' : ∃ L, Lists ⟨(headJump head fs).1, 0, []⟩ L := Stage.lists_of_held hS1
  have hdoes := hbody C hblock hheadnamed hS1' hknown2'.of_held
    (hleads.of_longer harms.blocks hnormal)
  exact here_headJump head (k := fun v => if v then sem ρ K else semRest ρ K) hnamed
    (Stage.lists_of_held hS) hknown1'.of_held hflist hdoes

theorem meansArms_arm {head : Head} {body : Compile} {rest : List Nat → List Nat → Compile}
    {sem semRest : Names → Exits → Behaviour Event} (hmoving : Moving body)
    (hmoves : MovingArms rest) (hnaming : Naming (block body) [])
    (hbody : Means code (block body) sem) (hrest : MeansArms code rest semRest) :
    MeansArms code (fun escapelist flist fs =>
      branch head body rest (nextArm escapelist flist fs).2 (nextArm escapelist flist fs).1)
      fun ρ K => head.does ρ fun v => if v then sem ρ K else semRest ρ K := by
  intro C n escapelist flist fs fs' ρ K h hnamed hS hknown hleads
  have hnext := (moves_nextArm escapelist flist fs).step
  have hS1 := Stage.lists_step hS hnext
  have hknown1 := hknown.before hS1 (moves_branch hmoving hmoves h).step
  have hentered : Named (nextArm escapelist flist fs).1 ρ := hnamed
  obtain ⟨hdoes, hescape⟩ :=
    here_branch hmoving hmoves hnaming hbody hrest h hentered hS1 hknown hleads
  exact here_nextArm hknown1 hescape hdoes

/-- An `if` statement does its first arm that holds. -/
theorem means_ifstat {c : Cond} {body : Compile} {rest : List Nat → List Nat → Compile}
    {sem semRest : Names → Exits → Behaviour Event} (hmoving : Moving body)
    (hmoves : MovingArms rest) (hnaming : Naming (block body) [])
    (hbody : Means code (block body) sem) (hrest : MeansArms code rest semRest) :
    Means code (ifstat c body rest) fun ρ K =>
      c.does ρ false fun v => if v then sem ρ K else semRest ρ K := by
  intro C n fs fs' ρ K h hnamed hS hknown hleads
  have hbranch : branch (.elseif c) body rest [] fs = .ok fs' := h
  exact (here_branch hmoving hmoves hnaming hbody hrest hbranch hnamed
    (Stage.lists_step hS Stage.step_nil) hknown hleads).1

/-- A `select` statement compares its value with one arm after the other. -/
theorem means_selectstat {names values : List String} {body : Compile}
    {rest : List Nat → List Nat → Compile} {sem semRest : Names → Exits → Behaviour Event}
    (hmoving : Moving body) (hmoves : MovingArms rest) (hnaming : Naming (block body) [])
    (hbody : Means code (block body) sem) (hrest : MeansArms code rest semRest) :
    Means code (selectstat names values body rest) fun ρ K => emit (.eval (ρ.resolve names))
      ((Head.of values).does ρ fun v => if v then sem ρ K else semRest ρ K) := by
  intro C n fs fs' ρ K h hnamed hS hknown hleads
  obtain ⟨fs2, harms, rfl⟩ := selectstat_branch h
  have hin := moves_branch hmoving hmoves harms
  obtain ⟨s, previous, hbl, hs, -⟩ := leave_select hin
  have hscope : ¬ s.isbreakable = true := by simp [hs.loop]
  have hS1 := Stage.lists_step hS (moves_selectStart names fs).1
  have hS2 := Stage.lists_step hS1 hin.step
  have hknown2 := hknown.before hS2 (hs.step_leaveblock hbl [])
  have hknown1 := hknown2.before hS1 hin.step
  have hleads2 : Leads C n fs2 K := by
    have hnext := hleads.next
    have hbrk := hleads.brk
    rw [bl_leaveblock hbl] at hnext hbrk
    refine ⟨here_leaveblock hbl hknown.kept hleads.normal, ?_, ?_⟩
    · rw [hbl, Continues, if_neg hscope]
      exact hnext
    · rw [hbl, Breaks, if_neg hscope]
      exact hbrk
  have hstart : Named (selectStart names fs) ρ := hnamed
  have hdoes := (here_branch hmoving hmoves hnaming hbody hrest harms hstart hS1 hknown2 hleads2).1
  have hentered : Named (enterblock false fs) ρ := hnamed
  refine here_codeExpr (enterblock false fs) .eval ?_ hknown1.kept hentered hdoes
  intro i p Z hop
  rw [Ins.does, hop]

end pieces

/-! ## All programs -/

mutual

/-- The code of a statement does what the statement does, by induction on the syntax. -/
theorem Stat.means (code : List Ins) : ∀ s : Stat, Means code (statement s) fun ρ => s.does ρ
  | .exprstat names => means_codeExpr .eval fun i p Z hop => by rw [Ins.does, hop]
  | .localstat vars names => means_localstat vars names
  | .localfunc var names => means_localfunc var names
  | .dostat body => means_block (Chunk.moving body) (Chunk.means code body)
  | .whilestat c body =>
    means_whilestat (Chunk.moving body) (means_block (Chunk.moving body) (Chunk.means code body))
  | .repeatstat body c =>
    means_repeatstat (Chunk.moving body) (Chunk.naming body) (Chunk.means code body)
  | .fornum var names body => means_forstat (Chunk.moving body) (Chunk.means code body)
  | .forlist vars names body => means_forstat (Chunk.moving body) (Chunk.means code body)
  | .ifstat c body rest =>
    means_ifstat (Chunk.moving body) (Arms.moving rest)
      (naming_block (Chunk.moving body) (Chunk.naming body))
      (means_block (Chunk.moving body) (Chunk.means code body)) (Arms.means code rest)
  | .selectstat names values body rest =>
    means_selectstat (Chunk.moving body) (Arms.moving rest)
      (naming_block (Chunk.moving body) (Chunk.naming body))
      (means_block (Chunk.moving body) (Chunk.means code body)) (Arms.means code rest)

theorem Chunk.means (code : List Ins) : ∀ c : Chunk, Means code (chunk c) fun ρ => c.does ρ
  | .done => by
    intro C n fs fs' ρ K h _ _ _ hleads
    cases h
    exact hleads.normal
  | .retstat none => means_retstat_none
  | .retstat (some names) => means_retstat_some names
  | .breakstat n => means_breakstat n
  | .continuestat => means_continuestat
  | .seq s rest => by
    intro C n fs fs' ρ K h hnamed hS hknown hleads
    obtain ⟨fs1, h1, h⟩ := bind_ok h
    have hfirst := Stat.moving s h1
    have hsecond := Chunk.moving rest h
    have hS1 := Stage.lists_step hS hfirst.step
    have hrest := Chunk.means code rest C h (Stat.naming s h1 hnamed) hS1 hknown hleads
    have hleads1 : Leads C n fs1 { K with normal := rest.does (ρ ++ s.declares) K } :=
      ⟨hrest, hleads.next.of_longer hsecond.blocks, hleads.brk.of_longer hsecond.blocks⟩
    exact Stat.means code s C h1 hnamed hS (hknown.before hS1 hsecond.step) hleads1

theorem Arms.means (code : List Ins) : ∀ a : Arms, MeansArms code (arms a) fun ρ => a.does ρ
  | .done => meansArms_lastArm
  | .otherwise body =>
    meansArms_elseArm (Chunk.moving body) (means_block (Chunk.moving body) (Chunk.means code body))
  | .arm _ body rest =>
    meansArms_arm (Chunk.moving body) (Arms.moving rest)
      (naming_block (Chunk.moving body) (Chunk.naming body))
      (means_block (Chunk.moving body) (Chunk.means code body)) (Arms.means code rest)

end

/-- `local x; while a do local y; f(function() return x, y end); continue end`. -/
def rememberLoop : Chunk :=
  .seq (.localstat ["x"] []) (.seq (.whilestat (.test []) (.seq (.localstat ["y"] [])
    (.seq (.exprstat ["x", "y"]) .continuestat))) .done)

def rememberLoopCode : FuncState where
  code :=
    let x : Var := ⟨some "x", 0, 0⟩
    let y : Var := ⟨some "y", 1, 1⟩
    [⟨.decl [x], [], [], none⟩, ⟨.test, [x], [], some 8⟩, ⟨.decl [y], [x], [], none⟩,
      ⟨.eval, [x, y], [x, y], none⟩, ⟨.close 1, [x, y], [], none⟩, ⟨.jmp, [x, y], [], some 1⟩,
      ⟨.close 1, [x], [], none⟩, ⟨.jmp, [x], [], some 1⟩, ⟨.ret, [], [], none⟩]
  jpc := []
  nlocvars := 2
  actvar := []
  bl := []
  breaks := []
  continues := [5]

end LuaFltk.Compiler
