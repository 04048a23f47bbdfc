import LuaFltk.Compiler.Lists

/-!
# The lists of every statement

What each statement function does with the lists. A loop takes its own two lists from its block
and sends them behind the loop and to its next test; a block that is no loop has none. From this,
by induction on the syntax tree, every piece of a program is a step that keeps the blocks.
-/

namespace LuaFltk.Compiler

variable {fs fs' fs2 : FuncState} {used : Nat} {held : List (List Nat)}

open Stage (Step Lists Owes)

/-! ## Blocks that are no loops -/

/-- The compiler of a piece that keeps the lists and the blocks. -/
def Moving (f : Compile) : Prop :=
  ∀ {fs fs' : FuncState}, f fs = .ok fs' → Moves ⟨fs, 0, []⟩ ⟨fs', 0, []⟩

/-- The innermost block is no loop, and has no jumps on its lists. -/
structure Scope (s : BlockCnt) : Prop where
  loop : s.isbreakable = false
  breaks : s.breaklist = []
  continues : s.continuelist = []

/-- A block that is no loop is there, with its empty lists, when the code in it ends. -/
theorem Longer.scope {s : BlockCnt} {bl bl' : List BlockCnt} (h : Longer (s :: bl) bl')
    (hs : Scope s) : ∃ s' previous, bl' = s' :: previous ∧ Scope s' ∧ Longer bl previous := by
  cases h with
  | cons hgrows hbl =>
    obtain ⟨hbreak, hcont⟩ := hgrows.still hs.loop
    exact ⟨_, _, rfl, ⟨hgrows.loop.trans hs.loop, hbreak.trans hs.breaks, hcont.trans hs.continues⟩,
      hbl⟩

theorem scope_enterblock (n : Nat) : Scope ⟨[], [], n, false, false⟩ := ⟨rfl, rfl, rfl⟩

/-- A block that is no loop is left. -/
theorem Scope.step_leaveblock {s : BlockCnt} {previous : List BlockCnt} (hs : Scope s)
    (hbl : fs.bl = s :: previous) (held : List (List Nat)) :
    Step ⟨fs, 0, held⟩ ⟨leaveblock fs, 0, held⟩ :=
  (Compiler.step_leaveblock hbl fun _ => hs.continues).frame held

theorem step_enter (isbreakable : Bool) (fs : FuncState) (held : List (List Nat)) :
    Step ⟨fs, 0, held⟩ ⟨enterblock isbreakable fs, 0, held⟩ :=
  (step_enterblock isbreakable fs).frame held

/-- The block of a body has no jumps of its own. -/
theorem Moving.block {body : Compile} (hbody : Moving body) : Moving (block body) := by
  intro fs fs' h
  obtain ⟨fs2, h2, h⟩ := bind_ok h
  cases h
  have hin := hbody h2
  obtain ⟨s, previous, hbl, hs, hlonger⟩ := hin.blocks.scope (scope_enterblock _)
  refine ⟨((step_enter false fs []).trans hin.step).trans (hs.step_leaveblock hbl []), ?_⟩
  rw [bl_leaveblock hbl]
  exact hlonger

/-! ## Loops -/

/-- The block `b` of a loop is left on the way from `S` to `fs'`, which stands behind the loop. -/
structure Leaves (b : BlockCnt) (S : Stage) (fs' : FuncState) : Prop where
  step : S.Step ⟨fs', 0, []⟩
  breaks : S.Sends ⟨fs', 0, []⟩ b.breaklist fs'.pc

/-- What happens behind the body of a loop with the block `b`: the jumps on its lists arrive
behind the loop and at `next`. -/
structure Closes (b : BlockCnt) (next : Nat) (S : Stage) (fs' : FuncState) : Prop
    extends Leaves b S fs' where
  continues : S.Sends ⟨fs', 0, []⟩ b.continuelist next

/-- The stage in which the loop is left may be an earlier one. -/
theorem Leaves.before {b : BlockCnt} {S S' : Stage} (h : Leaves b S' fs') (hstep : S.Step S') :
    Leaves b S fs' :=
  ⟨hstep.trans h.step, h.breaks.before hstep⟩

/-- So may the one in which it is closed. -/
theorem Closes.before {b : BlockCnt} {next : Nat} {S S' : Stage} (h : Closes b next S' fs')
    (hstep : S.Step S') : Closes b next S fs' :=
  ⟨h.toLeaves.before hstep, h.continues.before hstep⟩

/-- A loop with more jumps has those it had. -/
theorem Leaves.of_grows {b b' : BlockCnt} {S : Stage} (h : Leaves b' S fs') (hb : b.Grows b') :
    Leaves b S fs' :=
  ⟨h.step, fun L code hL hcode howes => (h.breaks L code hL hcode howes).mono hb.breaks⟩

/-- The code of a loop: from `fs` to the body at `start`, and from `fs2` behind the body to
`fs'`. -/
structure LoopCode (fs start fs2 fs' : FuncState) (next : Nat) (held : List (List Nat)) : Prop where
  enter : Step ⟨fs, 0, []⟩ ⟨start, 0, held⟩
  blocks : Longer fs.bl fs'.bl
  closes : ∃ scopes b previous, fs2.bl = scopes ++ b :: previous ∧ (∀ s ∈ scopes, Scope s) ∧
    b.isbreakable = true ∧ Longer previous fs'.bl ∧ Closes b next ⟨fs2, 0, held⟩ fs'

/-- A loop keeps all jumps if its body does. -/
theorem LoopCode.moves {start : FuncState} {next : Nat} (h : LoopCode fs start fs2 fs' next held)
    (hbody : Moves ⟨start, 0, []⟩ ⟨fs2, 0, []⟩) : Moves ⟨fs, 0, []⟩ ⟨fs', 0, []⟩ := by
  obtain ⟨_, _, _, _, _, _, _, hcloses⟩ := h.closes
  exact ⟨(h.enter.trans (hbody.step.frame held)).trans hcloses.step, h.blocks⟩

/-- The block of a loop is there when its body ends. -/
theorem Longer.loop {b : BlockCnt} {bl bl' : List BlockCnt} (h : Longer (b :: bl) bl') :
    ∃ b' previous, bl' = b' :: previous ∧ b.Grows b' ∧ Longer bl previous := by
  cases h with
  | cons hgrows hbl => exact ⟨_, _, rfl, hgrows, hbl⟩

theorem continuelist_eq {b : BlockCnt} {previous : List BlockCnt} (hbl : fs.bl = b :: previous) :
    continuelist fs = b.continuelist := by
  rw [continuelist, hbl]
  rfl

section closes

variable {b : BlockCnt} {previous : List BlockCnt}

/-- The block of a loop is left when its `continue`s were patched. -/
theorem step_leaveblock_used (hbl : fs.bl = b :: previous) (used : Nat) (held : List (List Nat)) :
    Step ⟨fs, used + 1, held⟩ ⟨leaveblock fs, used, held⟩ :=
  (step_leaveblock hbl fun h => absurd h (Nat.succ_ne_zero used)).frame held

/-- The breaks go behind the loop. -/
theorem leaves_leaveblock (hbl : fs.bl = b :: previous) : Leaves b ⟨fs, 1, []⟩ (leaveblock fs) :=
  ⟨step_leaveblock_used hbl 0 [], sends_leaveblock hbl 1 []⟩

/-- The jump back to the start of a loop. -/
def jumpBack (target : Nat) (fs : FuncState) : FuncState :=
  luaK_patchlist (luaK_jump fs).2 target (luaK_jump fs).1

theorem bl_jumpBack (target : Nat) (fs : FuncState) : (jumpBack target fs).bl = fs.bl :=
  bl_patchlist _ _ _

/-- The jump back is patched as soon as it is emitted. -/
theorem step_jumpBack (target used : Nat) (held : List (List Nat)) :
    Step ⟨fs, used, held⟩ ⟨jumpBack target fs, used, held⟩ :=
  ((Stage.step_jump used).trans (Stage.step_patchlist _ target used)).frame held

/-- It goes back to its label. -/
theorem sets_jumpBack {target : Nat} (h : target ≤ fs.pc) (used : Nat) (held : List (List Nat)) :
    Stage.Sets ⟨fs, used, held⟩ ⟨jumpBack target fs, used, held⟩ [fs.pc] target := by
  have hjump : Step ⟨fs, used, held⟩ ⟨(luaK_jump fs).1, used, (luaK_jump fs).2 :: held⟩ :=
    (Stage.step_jump used).frame held
  have hne : target ≠ (luaK_jump fs).1.pc := by
    rw [pc_luaK_jump]
    omega
  have hsets := (Stage.sets_patchlist hne (luaK_jump fs).2 used held).before hjump
  intro L code hL hcode q hq
  rw [List.mem_singleton.1 hq]
  exact hsets L code hL hcode fs.pc List.mem_cons_self

/-- The `continue`s of a loop are patched. -/
theorem step_continues (hbl : fs.bl = b :: previous) (target : Nat) (held : List (List Nat)) :
    Step ⟨fs, 0, held⟩ ⟨luaK_patchlist b.continuelist target fs, 1, held⟩ :=
  ((step_continuelist hbl).trans (Stage.step_patchlist _ target 1)).frame held

/-- The continues go to the place they are patched to. -/
theorem sends_continues (hbl : fs.bl = b :: previous) (target : Nat) (held : List (List Nat)) :
    Stage.Sends ⟨fs, 0, held⟩ ⟨luaK_patchlist b.continuelist target fs, 1, held⟩
      b.continuelist target :=
  (Stage.sends_patchlist fs b.continuelist target 1 held).before ((step_continuelist hbl).frame held)

/-- A place further up they have at once. -/
theorem sets_continues (hbl : fs.bl = b :: previous) {target : Nat} (h : target ≠ fs.pc)
    (held : List (List Nat)) :
    Stage.Sets ⟨fs, 0, held⟩ ⟨luaK_patchlist b.continuelist target fs, 1, held⟩
      b.continuelist target :=
  (Stage.sets_patchlist h b.continuelist 1 held).before ((step_continuelist hbl).frame held)

/-- The end of a loop whose `continue`s were patched, and the list of its false test. -/
theorem leaves_exit (hbl : fs.bl = b :: previous) (condexit : List Nat) :
    Leaves b ⟨fs, 1, [condexit]⟩ (luaK_patchtohere condexit (leaveblock fs)) := by
  have hleave := step_leaveblock_used hbl 0 [condexit]
  have hexit : Step ⟨leaveblock fs, 0, [condexit]⟩ ⟨luaK_patchtohere condexit (leaveblock fs), 0, []⟩ :=
    Stage.step_patchtohere condexit 0
  exact ⟨hleave.trans hexit, (sends_leaveblock hbl 1 [condexit]).after hleave.lists hexit⟩

/-- The end of `whilestat`, behind the block of its body. -/
def whileEnd (whileinit : Nat) (condexit : List Nat) (fs : FuncState) : FuncState :=
  let fs := jumpBack whileinit fs
  luaK_patchtohere condexit (leaveblock (luaK_patchlist (continuelist fs) whileinit fs))

theorem bl_whileEnd (hbl : fs.bl = b :: previous) (whileinit : Nat) (condexit : List Nat) :
    (whileEnd whileinit condexit fs).bl = previous :=
  bl_leaveblock ((bl_patchlist _ _ _).trans ((bl_jumpBack _ _).trans hbl))

/-- The end of a `while` loop, in the order of the source. -/
theorem whileEnd_eq (hbl : fs.bl = b :: previous) (whileinit : Nat) (condexit : List Nat) :
    whileEnd whileinit condexit fs = luaK_patchtohere condexit (leaveblock
      (luaK_patchlist b.continuelist whileinit (jumpBack whileinit fs))) := by
  rw [← continuelist_eq ((bl_jumpBack whileinit fs).trans hbl)]
  rfl

/-- `continue` goes to the test, and a false test behind the loop. -/
theorem closes_whileEnd (hbl : fs.bl = b :: previous) (whileinit : Nat) (condexit : List Nat) :
    Closes b whileinit ⟨fs, 0, [condexit]⟩ (whileEnd whileinit condexit fs) := by
  rw [whileEnd_eq hbl]
  apply Closes.before ?_ (step_jumpBack whileinit 0 [condexit])
  have hbl' := (bl_jumpBack whileinit fs).trans hbl
  generalize jumpBack whileinit fs = fs at hbl'
  have hcont := step_continues hbl' whileinit [condexit]
  have hexit := leaves_exit ((bl_patchlist b.continuelist whileinit fs).trans hbl') condexit
  exact ⟨hexit.before hcont,
    (sends_continues hbl' whileinit [condexit]).after hcont.lists hexit.step⟩

end closes

/-- Where the body of a `while` is compiled. -/
def whileStart (c : Cond) (fs : FuncState) : FuncState :=
  enterblock false (enterblock true (cond c fs).1)

/-- A `while` loop continues with its condition. -/
theorem loopCode_whilestat {c : Cond} {body : Compile} (hbody : Moving body)
    (h : whilestat c body fs = .ok fs') : ∃ fs2, body (whileStart c fs) = .ok fs2 ∧
      LoopCode fs (whileStart c fs) fs2 fs' fs.pc [(cond c fs).2] := by
  obtain ⟨fs1, h1, h⟩ := bind_ok h
  obtain ⟨fs2, h2, h1⟩ := bind_ok h1
  cases h1
  have hend : whileEnd fs.pc (cond c fs).2 (leaveblock fs2) = fs' := Except.ok.inj h
  obtain ⟨s, rest, hbl, hs, hrest⟩ := (hbody h2).blocks.scope (scope_enterblock _)
  obtain ⟨b, previous, rfl, hb, hprevious⟩ := hrest.loop
  have hcond := moves_goif c false fs 0
  have hcloses := (closes_whileEnd (bl_leaveblock hbl) fs.pc (cond c fs).2).before
    (hs.step_leaveblock hbl [(cond c fs).2])
  have hbl' : fs'.bl = previous := by
    rw [← hend]
    exact bl_whileEnd (bl_leaveblock hbl) _ _
  refine ⟨fs2, h2, ?_, ?_, [s], b, previous, hbl, by simpa using hs, hb.loop, ?_, ?_⟩
  · exact (hcond.step.trans (step_enter true _ _)).trans (step_enter false _ _)
  · rw [hbl']
    exact hcond.blocks.trans hprevious
  · rw [hbl']
    exact .refl previous
  · rw [← hend]
    exact hcloses

/-- Where the body of a `repeat` is compiled. -/
def repeatStart (fs : FuncState) : FuncState := enterblock false (enterblock true fs)

/-- The end of `repeatstat`, behind the condition. -/
theorem leaves_repeat {s b : BlockCnt} {previous : List BlockCnt} {condexit : List Nat}
    {repeat_init : Nat} (hbl : fs.bl = s :: b :: previous) (h : (
      if !(fs.bl.head?.map (·.upval)).getD false then
        let fs := luaK_patchlist condexit repeat_init (leaveblock fs)
        .ok (leaveblock fs)
      else do
        let fs ← breakstat 1 fs
        let fs := leaveblock (luaK_patchtohere condexit fs)
        let (fs, jump) := luaK_jump fs
        .ok (leaveblock (luaK_patchlist jump repeat_init fs))) = Except.ok fs') :
    Leaves b ⟨fs, 2, [condexit]⟩ fs' ∧ Longer previous fs'.bl := by
  split at h
  · have hend : leaveblock (luaK_patchlist condexit repeat_init (leaveblock fs)) = fs' :=
      Except.ok.inj h
    have hbl' := (bl_patchlist condexit repeat_init (leaveblock fs)).trans (bl_leaveblock hbl)
    have hscope := step_leaveblock_used hbl 1 [condexit]
    have hback : Step ⟨leaveblock fs, 1, [condexit]⟩
        ⟨luaK_patchlist condexit repeat_init (leaveblock fs), 1, []⟩ :=
      Stage.step_patchlist condexit repeat_init 1
    rw [← hend, bl_leaveblock hbl']
    exact ⟨(leaves_leaveblock hbl').before (hscope.trans hback), .refl previous⟩
  · obtain ⟨fs3, h3, h⟩ := bind_ok h
    have hbreak := moves_breakstat 2 h3
    have hlonger := hbreak.blocks
    rw [hbl] at hlonger
    obtain ⟨s', rest, hbl3, -, hrest⟩ := hlonger.loop
    obtain ⟨b', previous', rfl, hb, hprevious⟩ := hrest.loop
    have hend : leaveblock (jumpBack repeat_init (leaveblock (luaK_patchtohere condexit fs3))) = fs' :=
      Except.ok.inj h
    have hfalse : Step ⟨fs, 2, [condexit]⟩ ⟨luaK_patchtohere condexit fs3, 2, []⟩ :=
      (hbreak.step.frame [condexit]).trans (Stage.step_patchtohere condexit 2)
    have hbl4 : (luaK_patchtohere condexit fs3).bl = s' :: b' :: previous' := hbl3
    have hscope := hfalse.trans (step_leaveblock_used hbl4 1 [])
    have hback := hscope.trans (step_jumpBack repeat_init 1 [])
    have hbl5 := (bl_jumpBack repeat_init (leaveblock (luaK_patchtohere condexit fs3))).trans
      (bl_leaveblock hbl4)
    rw [← hend, bl_leaveblock hbl5]
    exact ⟨((leaves_leaveblock hbl5).before hback).of_grows hb, hprevious⟩

/-- A `repeat` loop continues with the code behind its body. -/
theorem loopCode_repeatstat {c : Cond} {body : Compile} (hbody : Moving body)
    (h : repeatstat body c fs = .ok fs') : ∃ fs2, body (repeatStart fs) = .ok fs2 ∧
      LoopCode fs (repeatStart fs) fs2 fs' fs2.pc [] := by
  obtain ⟨fs2, h2, h⟩ := bind_ok h
  obtain ⟨s, rest, hbl, hs, hrest⟩ := (hbody h2).blocks.scope (scope_enterblock _)
  obtain ⟨b, previous, rfl, hb, hprevious⟩ := hrest.loop
  have hcont : continuelist { fs2 with bl := fs2.bl.tail } = b.continuelist := by
    rw [hbl]
    rfl
  rw [hcont] at h
  have htake : Step ⟨fs2, 0, []⟩ ⟨fs2, 2, [b.continuelist]⟩ :=
    step_continuelist_scope hbl hs.continues
  have hhere : Step ⟨fs2, 2, [b.continuelist]⟩ ⟨luaK_patchtohere b.continuelist fs2, 2, []⟩ :=
    Stage.step_patchtohere b.continuelist 2
  -- the condition may mark blocks
  have hcond := moves_goif c false (luaK_patchtohere b.continuelist fs2) 2
  have hlonger := hcond.blocks
  have hbl3 : (luaK_patchtohere b.continuelist fs2).bl = s :: b :: previous := hbl
  rw [hbl3] at hlonger
  obtain ⟨s', rest, hbl4, -, hrest'⟩ := hlonger.loop
  obtain ⟨b', previous', rfl, hb', hprevious'⟩ := hrest'.loop
  obtain ⟨hleaves, hlast⟩ := leaves_repeat hbl4 h
  have hbefore := (hleaves.before hcond.step).of_grows hb'
  refine ⟨fs2, h2, ?_, ?_, [s], b, previous, hbl, by simpa using hs, hb.loop, ?_, ?_⟩
  · exact (step_enter true fs []).trans (step_enter false _ [])
  · exact (hprevious.trans hprevious').trans hlast
  · exact hprevious'.trans hlast
  · have hsend := Stage.sends_patchtohere fs2 b.continuelist 2 []
    exact ⟨hbefore.before (htake.trans hhere),
      (hsend.after hhere.lists hbefore.step).before htake⟩

/-- The code of a `for` loop from behind the block of its variables to its test. -/
def forTest (vars : List Var) (jump : List Nat) (fs : FuncState) : FuncState :=
  luaK_code (.forloop vars) [] (luaK_patchtohere (continuelist fs) (luaK_patchtohere jump fs))

/-- The end of `forbody` behind that block, and of `forstat`. -/
def forEnd (vars : List Var) (prep : Nat) (jump : List Nat) (fs : FuncState) : FuncState :=
  leaveblock (luaK_patchlist [fs.pc] (prep + 1) (forTest vars jump fs))

section forEnd

variable {b : BlockCnt} {previous : List BlockCnt}

theorem bl_forEnd (hbl : fs.bl = b :: previous) (vars : List Var) (prep : Nat) (jump : List Nat) :
    (forEnd vars prep jump fs).bl = previous :=
  bl_leaveblock ((bl_patchlist _ _ _).trans hbl)

/-- A `for` loop is left behind its test. -/
theorem leaves_forEnd (hbl : fs.bl = b :: previous) (vars : List Var) (prep : Nat)
    (jump : List Nat) : Leaves b ⟨forTest vars jump fs, 1, [[fs.pc]]⟩ (forEnd vars prep jump fs) := by
  have hback : Step ⟨forTest vars jump fs, 1, [[fs.pc]]⟩
      ⟨luaK_patchlist [fs.pc] (prep + 1) (forTest vars jump fs), 1, []⟩ :=
    Stage.step_patchlist [fs.pc] (prep + 1) 1
  have hbl' := (bl_patchlist [fs.pc] (prep + 1) (forTest vars jump fs)).trans hbl
  exact (leaves_leaveblock hbl').before hback

/-- The first jump and the `continue`s go to the test. -/
theorem sends_forTest (hbl : fs.bl = b :: previous) (vars : List Var) (jump : List Nat) :
    Step ⟨fs, 0, [jump]⟩ ⟨forTest vars jump fs, 1, [[fs.pc]]⟩ ∧
      Stage.Sends ⟨fs, 0, [jump]⟩ ⟨forTest vars jump fs, 1, [[fs.pc]]⟩ jump fs.pc ∧
      Stage.Sends ⟨fs, 0, [jump]⟩ ⟨forTest vars jump fs, 1, [[fs.pc]]⟩ b.continuelist fs.pc := by
  rw [forTest, continuelist_eq hbl]
  have hfirst : Step ⟨fs, 0, [jump]⟩ ⟨luaK_patchtohere jump fs, 0, []⟩ :=
    Stage.step_patchtohere jump 0
  have hbl' : (luaK_patchtohere jump fs).bl = b :: previous := hbl
  have htake := step_continuelist hbl'
  have hhere : Step ⟨luaK_patchtohere jump fs, 1, [b.continuelist]⟩
      ⟨luaK_patchtohere b.continuelist (luaK_patchtohere jump fs), 1, []⟩ :=
    Stage.step_patchtohere b.continuelist 1
  have htest : Step ⟨luaK_patchtohere b.continuelist (luaK_patchtohere jump fs), 1, []⟩
      ⟨luaK_code (.forloop vars) [] (luaK_patchtohere b.continuelist (luaK_patchtohere jump fs)),
        1, [[fs.pc]]⟩ :=
    Stage.step_condjump 1 rfl
  have hjump := Stage.sends_patchtohere fs jump 0 []
  have hsend := Stage.sends_patchtohere (luaK_patchtohere jump fs) b.continuelist 1 []
  exact ⟨(hfirst.trans htake).trans (hhere.trans htest),
    hjump.after hfirst.lists (htake.trans (hhere.trans htest)),
    (hsend.after hhere.lists htest).before (hfirst.trans htake)⟩

/-- A `for` loop continues with its test. -/
theorem closes_forEnd (hbl : fs.bl = b :: previous) (vars : List Var) (prep : Nat)
    (jump : List Nat) : Closes b fs.pc ⟨fs, 0, [jump]⟩ (forEnd vars prep jump fs) := by
  obtain ⟨htest, -, hsend⟩ := sends_forTest hbl vars jump
  have hleaves := leaves_forEnd hbl vars prep jump
  exact ⟨hleaves.before htest, hsend.after htest.lists hleaves.step⟩

/-- The test of a `for` loop stands where `continue` goes. -/
theorem forloop_forEnd (hbl : fs.bl = b :: previous) (vars : List Var) (prep : Nat)
    (jump : List Nat) {L : List Nat} (hL : Lists ⟨fs, 0, [jump]⟩ L) :
    ∃ i, (forEnd vars prep jump fs).code[fs.pc]? = some i ∧ i.op = .forloop vars := by
  have htest : (forTest vars jump fs).code[fs.pc]? = some ⟨.forloop vars, fs.actvar, [], none⟩ :=
    Stage.getElem?_luaK_code _ _ _
  have hkept := (leaves_forEnd hbl vars prep jump).step.kept L
    ((sends_forTest hbl vars jump).1.lists L hL)
  obtain ⟨i, hi, hshape, -⟩ := hkept _ _ htest
  exact ⟨i, hi, congrArg Ins.op hshape⟩

end forEnd

/-- The first jump of a `for`. -/
def forprep (isnum : Bool) (fs : FuncState) : FuncState × List Nat :=
  if isnum then condjump .jmp [] fs else luaK_jump fs

/-- The jump to the test is in hand while the body is compiled. -/
theorem moves_forprep (isnum : Bool) (fs : FuncState) :
    Moves ⟨fs, 0, []⟩ ⟨(forprep isnum fs).1, 0, [(forprep isnum fs).2]⟩ := by
  cases isnum with
  | true => exact .of_bl (Stage.step_condjump 0 rfl) rfl
  | false => exact moves_jump fs 0

/-- Where the body of a `for` is compiled, given its locals and what stands behind the first
jump. -/
def forInner (vars : List Var) (fs : FuncState) : FuncState :=
  enterblock false (adjustlocalvars vars (enterblock false fs))

/-- Where the body of a `for` is compiled, and the first jump. -/
def forStart (vars names : List String) (isnum : Bool) (fs : FuncState) :
    Except String (FuncState × List Nat) := do
  let fs := enterblock true fs
  let new ← new_localvars ([none, none, none] ++ vars.map some) fs
  let fs := adjustlocalvars (new.take 3) (codeExpr (.decl (new.take 3)) names fs)
  let (fs, jump) := forprep isnum fs
  .ok (forInner (new.drop 3) fs, jump)

/-- Where the test of a `for` is, when its body ends at `fs`. -/
def forNext (fs : FuncState) : Nat := (leaveblock (leaveblock fs)).pc

theorem moves_adjustlocalvars (vars : List Var) (fs : FuncState) :
    Moves ⟨fs, 0, []⟩ ⟨adjustlocalvars vars fs, 0, []⟩ :=
  .of_bl (.of_same rfl rfl rfl) rfl

theorem step_forInner (vars : List Var) (fs : FuncState) (held : List (List Nat)) :
    Step ⟨fs, 0, held⟩ ⟨forInner vars fs, 0, held⟩ :=
  ((step_enter false fs held).trans ((moves_adjustlocalvars vars _).step.frame held)).trans
    (step_enter false _ held)

/-- What stands before the first jump of a `for`. -/
def forHead (vars : List Var) (names : List String) (fs : FuncState) : FuncState :=
  adjustlocalvars vars (codeExpr (.decl vars) names (enterblock true fs))

/-- What stands before the body of a `for`. -/
theorem moves_forHead (vars : List Var) (names : List String) (isnum : Bool) (fs : FuncState) :
    Moves ⟨enterblock true fs, 0, []⟩ ⟨(forprep isnum (forHead vars names fs)).1, 0,
      [(forprep isnum (forHead vars names fs)).2]⟩ :=
  ((moves_codeExpr (.decl vars) names _ 0 rfl).trans (moves_adjustlocalvars vars _)).trans
    (moves_forprep isnum _)

/-- `forstat` in four pieces: the head, the first jump, the body, and the end. -/
theorem forstat_parts {vars names : List String} {isnum : Bool} {body : Compile}
    (h : forstat vars names isnum body fs = .ok fs') : ∃ new fs2,
      new_localvars ([none, none, none] ++ vars.map some) (enterblock true fs) = .ok new ∧
      body (forInner (new.drop 3) (forprep isnum (forHead (new.take 3) names fs)).1) = .ok fs2 ∧
      forEnd (new.drop 3) (forHead (new.take 3) names fs).pc
        (forprep isnum (forHead (new.take 3) names fs)).2 (leaveblock (leaveblock fs2)) = fs' := by
  obtain ⟨new, hnew, h⟩ := bind_ok h
  obtain ⟨fs3, h3, h⟩ := bind_ok h
  obtain ⟨fs1, h1, h3⟩ := bind_ok h3
  obtain ⟨fs2, h2, h1⟩ := bind_ok h1
  cases h1
  refine ⟨new, fs2, hnew, h2, ?_⟩
  rw [← Except.ok.inj h, ← Except.ok.inj h3]
  rfl

/-- The beginning of a `for` loop, in the order of the source. -/
theorem forStart_eq {vars : List String} {new : List Var} (names : List String) (isnum : Bool)
    (hnew : new_localvars ([none, none, none] ++ vars.map some) (enterblock true fs) = .ok new) :
    forStart vars names isnum fs = .ok (forInner (new.drop 3) (forprep isnum
      (forHead (new.take 3) names fs)).1, (forprep isnum (forHead (new.take 3) names fs)).2) := by
  rw [forStart, hnew]
  rfl

/-- A `for` loop is code around its body, and its test jumps back. -/
theorem loopCode_forstat {vars names : List String} {isnum : Bool} {body : Compile}
    (hbody : Moving body) (h : forstat vars names isnum body fs = .ok fs') :
    ∃ r fs2, forStart vars names isnum fs = .ok r ∧ body r.1 = .ok fs2 ∧
      LoopCode fs r.1 fs2 fs' (forNext fs2) [r.2] ∧
      ∀ L, Lists ⟨fs, 0, []⟩ L → ∃ i vars, fs'.code[forNext fs2]? = some i ∧ i.op = .forloop vars := by
  obtain ⟨new, fs2, hnew, h2, hend⟩ := forstat_parts h
  have hstart := forStart_eq names isnum hnew
  have hhead := moves_forHead (new.take 3) names isnum fs
  generalize forHead (new.take 3) names fs = d at hstart hhead h2 hend
  -- the blocks
  obtain ⟨b₀, outer, hbl₀, hb₀, houter⟩ := hhead.blocks.loop
  obtain ⟨s, rest, hbl, hs, hrest⟩ := (hbody h2).blocks.scope (scope_enterblock _)
  obtain ⟨s', rest, rfl, hs', hrest⟩ := hrest.scope (scope_enterblock _)
  have hrest' : Longer (b₀ :: outer) rest := by
    rw [← hbl₀]
    exact hrest
  obtain ⟨b, previous, rfl, hb, hprevious⟩ := hrest'.loop
  have hbl' := bl_leaveblock hbl
  have hbl'' := bl_leaveblock hbl'
  have hscopes := (hs.step_leaveblock hbl [(forprep isnum d).2]).trans (hs'.step_leaveblock hbl' _)
  have hlast : fs'.bl = previous := by
    rw [← hend]
    exact bl_forEnd hbl'' _ _ _
  have henter : Step ⟨fs, 0, []⟩ ⟨forInner (new.drop 3) (forprep isnum d).1, 0, [(forprep isnum d).2]⟩ :=
    ((step_enter true fs []).trans hhead.step).trans (step_forInner _ _ _)
  refine ⟨_, fs2, hstart, h2, ⟨henter, ?_, [s, s'], b, previous, hbl, ?_, ?_, ?_, ?_⟩, ?_⟩
  · rw [hlast]
    exact houter.trans hprevious
  · simpa using ⟨hs, hs'⟩
  · rw [hb.loop, hb₀.loop]
  · rw [hlast]
    exact .refl previous
  · rw [← hend]
    exact (closes_forEnd hbl'' _ _ _).before hscopes
  · intro L hL
    rw [← hend]
    have hin := ((hbody h2).step.frame [(forprep isnum d).2]).lists L (henter.lists L hL)
    obtain ⟨i, hi, hop⟩ := forloop_forEnd hbl'' (new.drop 3) d.pc (forprep isnum d).2
      (hscopes.lists L hin)
    exact ⟨i, _, hi, hop⟩

/-! ## Branches -/

/-- The compiler of the arms behind the first one. -/
def MovingArms (rest : List Nat → List Nat → Compile) : Prop :=
  ∀ {escapelist flist : List Nat} {fs fs' : FuncState}, rest escapelist flist fs = .ok fs' →
    Moves ⟨fs, 0, [escapelist, flist]⟩ ⟨fs', 0, []⟩

/-- An arm and those behind it, after the jump over it. -/
def branch (head : Head) (body : Compile) (rest : List Nat → List Nat → Compile)
    (escapelist : List Nat) (fs : FuncState) : Except String FuncState := do
  let (fs, flist) ← armBlock head body fs
  rest escapelist flist fs

/-- The head of an arm leaves the jumps that skip it. -/
theorem moves_headJump (head : Head) (fs : FuncState) :
    Moves ⟨fs, 0, []⟩ ⟨(headJump head fs).1, 0, [(headJump head fs).2]⟩ := by
  cases head with
  | elseif c => exact moves_goif c false fs 0
  | of names => exact moves_test names fs 0

/-- An arm hands on the jumps that skip it. -/
theorem moves_armBlock {head : Head} {body : Compile} {r : FuncState × List Nat}
    (hbody : Moving body) (h : armBlock head body fs = .ok r) :
    Moves ⟨fs, 0, []⟩ ⟨r.1, 0, [r.2]⟩ := by
  obtain ⟨fs1, h1, h⟩ := bind_ok h
  cases h
  exact (moves_headJump head fs).trans ((hbody.block h1).frame [(headJump head fs).2])

/-- Up to the arms behind an arm. -/
theorem moves_arm {head : Head} {body : Compile} {r : FuncState × List Nat} (hbody : Moving body)
    (h : armBlock head body fs = .ok r) (escapelist : List Nat) :
    Moves ⟨fs, 0, [escapelist]⟩ ⟨r.1, 0, [escapelist, r.2]⟩ :=
  ((moves_armBlock hbody h).frame [escapelist]).trans (.of_bl (Stage.step_swap _ _) rfl)

/-- An arm and those behind it keep the jumps that leave the statement. -/
theorem moves_branch {head : Head} {body : Compile} {rest : List Nat → List Nat → Compile}
    {escapelist : List Nat} (hbody : Moving body) (hrest : MovingArms rest)
    (h : branch head body rest escapelist fs = .ok fs') :
    Moves ⟨fs, 0, [escapelist]⟩ ⟨fs', 0, []⟩ := by
  obtain ⟨r, h1, h⟩ := bind_ok h
  exact (moves_arm hbody h1 escapelist).trans (hrest h)

/-- Behind an arm the jump out joins the others, and those that skipped it are here. -/
theorem moves_nextArm (escapelist flist : List Nat) (fs : FuncState) :
    Moves ⟨fs, 0, [escapelist, flist]⟩
      ⟨(nextArm escapelist flist fs).1, 0, [(nextArm escapelist flist fs).2]⟩ := by
  have hjump := (moves_jump fs 0).frame [escapelist, flist]
  have hjoin : Step ⟨(luaK_jump fs).1, 0, [(luaK_jump fs).2, escapelist, flist]⟩
      ⟨(luaK_jump fs).1, 0, [flist, escapelist ++ (luaK_jump fs).2]⟩ := by
    apply Stage.step_held
    · intro q
      simp only [List.flatten_cons, List.flatten_nil, List.count_append, List.count_nil]
      omega
    · intro code h
      simp only [List.forall_mem_cons, List.not_mem_nil, false_imp_iff, implies_true,
        and_true] at h ⊢
      exact ⟨h.2.mono (List.subset_append_right _ _), h.2.mono (List.subset_append_left _ _), h.1⟩
  have hfirst : Step ⟨(luaK_jump fs).1, 0, [flist, escapelist ++ (luaK_jump fs).2]⟩
      ⟨(nextArm escapelist flist fs).1, 0, [escapelist ++ (luaK_jump fs).2]⟩ :=
    (Stage.step_patchtohere flist 0).frame [escapelist ++ (luaK_jump fs).2]
  exact hjump.trans (.of_bl (hjoin.trans hfirst) rfl)

/-- Without an `else` both lists end here. -/
theorem movingArms_lastArm :
    MovingArms fun escapelist flist fs => .ok (lastArm escapelist flist fs) := by
  intro escapelist flist fs fs' h
  cases h
  exact .of_bl ((Stage.step_concat escapelist flist).trans (Stage.step_patchtohere _ 0)) rfl

/-- An `else` is skipped by the arms before. -/
theorem movingArms_elseArm {body : Compile} (hbody : Moving body) : MovingArms (elseArm body) := by
  intro escapelist flist fs fs' h
  obtain ⟨fs1, h1, h⟩ := bind_ok h
  cases h
  have hnext := moves_nextArm escapelist flist fs
  have hin := (hbody.block h1).frame [(nextArm escapelist flist fs).2]
  exact (hnext.trans hin).trans (.of_bl (Stage.step_patchtohere _ 0) rfl)

theorem movingArms_arm {head : Head} {body : Compile} {rest : List Nat → List Nat → Compile}
    (hbody : Moving body) (hrest : MovingArms rest) :
    MovingArms fun escapelist flist fs =>
      branch head body rest (nextArm escapelist flist fs).2 (nextArm escapelist flist fs).1 :=
  fun h => (moves_nextArm _ _ _).trans (moves_branch hbody hrest h)

/-- An `if` statement begins with no jump out. -/
theorem moving_ifstat {c : Cond} {body : Compile} {rest : List Nat → List Nat → Compile}
    (hbody : Moving body) (hrest : MovingArms rest) : Moving (ifstat c body rest) := by
  intro fs fs' h
  have hnil : Moves ⟨fs, 0, []⟩ ⟨fs, 0, [[]]⟩ := .of_bl Stage.step_nil rfl
  exact hnil.trans (moves_branch hbody hrest h)

/-- Where the arms of a `case` are compiled. -/
def selectStart (names : List String) (fs : FuncState) : FuncState :=
  codeExpr .eval names (enterblock false fs)

theorem moves_selectStart (names : List String) (fs : FuncState) :
    Step ⟨fs, 0, []⟩ ⟨selectStart names fs, 0, [[]]⟩ ∧
      Longer (enterblock false fs).bl (selectStart names fs).bl := by
  have heval := moves_codeExpr .eval names (enterblock false fs) 0 rfl
  exact ⟨((step_enter false fs []).trans heval.step).trans Stage.step_nil, heval.blocks⟩

/-- The end of a `case` behind its arms. -/
theorem leave_select {names : List String} (h : Moves ⟨selectStart names fs, 0, [[]]⟩ ⟨fs', 0, []⟩) :
    ∃ s previous, fs'.bl = s :: previous ∧ Scope s ∧ Longer fs.bl previous :=
  ((moves_selectStart names fs).2.trans h.blocks).scope (scope_enterblock _)

/-- A `select` is its arms in a block. -/
theorem selectstat_branch {names values : List String} {body : Compile}
    {rest : List Nat → List Nat → Compile} (h : selectstat names values body rest fs = .ok fs') :
    ∃ fs2, branch (.of values) body rest [] (selectStart names fs) = .ok fs2 ∧ leaveblock fs2 = fs' := by
  obtain ⟨r, h1, h⟩ := bind_ok h
  obtain ⟨fs2, h2, h⟩ := bind_ok h
  refine ⟨fs2, ?_, Except.ok.inj h⟩
  rw [branch, show armBlock _ body (selectStart names fs) = .ok r from h1]
  exact h2

/-- A `select` statement keeps the jumps that leave its arms. -/
theorem moving_selectstat {names values : List String} {body : Compile}
    {rest : List Nat → List Nat → Compile} (hbody : Moving body) (hrest : MovingArms rest) :
    Moving (selectstat names values body rest) := by
  intro fs fs' h
  obtain ⟨fs2, harms, rfl⟩ := selectstat_branch h
  have hin := moves_branch hbody hrest harms
  obtain ⟨s, previous, hbl, hs, hprevious⟩ := leave_select hin
  refine ⟨((moves_selectStart names fs).1.trans hin.step).trans (hs.step_leaveblock hbl []), ?_⟩
  rw [bl_leaveblock hbl]
  exact hprevious

/-! ## Counting loops -/

/-- The number of loops among the blocks. -/
def loops (bl : List BlockCnt) : Nat := bl.countP (·.isbreakable)

/-- Growing lists make no loops. -/
theorem Longer.loops {bl bl' : List BlockCnt} (h : Longer bl bl') : loops bl' = loops bl := by
  unfold Compiler.loops
  induction h with
  | nil => rfl
  | cons hgrows _ ih => rw [List.countP_cons, List.countP_cons, ih, hgrows.loop]

theorem loops_cons_of_loop {b : BlockCnt} (hb : b.isbreakable = true) (bl : List BlockCnt) :
    loops (b :: bl) = loops bl + 1 := List.countP_cons_of_pos hb

theorem loops_cons_of_scope {b : BlockCnt} (hb : ¬ b.isbreakable = true) (bl : List BlockCnt) :
    loops (b :: bl) = loops bl := List.countP_cons_of_neg hb

/-- The walk of `breakstat` ends where it has counted `n` loops. -/
theorem breakBlocks_loops (n : Int) (bl : List BlockCnt) (h : (breakBlocks n bl).2 ≠ []) :
    (loops (breakBlocks n bl).1 : Int) + 1 = n := by
  induction bl generalizing n with
  | nil => exact absurd rfl h
  | cons b bl ih =>
    unfold breakBlocks at h ⊢
    split at h
    · next hb =>
      rw [if_pos hb]
      exact (congrArg (fun k : Nat => (k : Int) + 1) (loops_cons_of_scope (by simpa using hb) _)).trans (ih n h)
    · next hb =>
      have hloop : b.isbreakable = true := by simpa using hb
      rw [if_neg hb]
      split at h
      · next hn =>
        rw [if_pos hn]
        have hrest := ih (n - 1) h
        have hcons := loops_cons_of_loop hloop (breakBlocks (n - 1) bl).1
        change (loops (b :: (breakBlocks (n - 1) bl).1) : Int) + 1 = n
        omega
      · next hn =>
        rw [if_neg hn]
        change (0 : Int) + 1 = n
        omega

/-- `breakstat` finds a loop if there are as many as it counts. -/
theorem breakBlocks_nil_iff (n : Int) (bl : List BlockCnt) :
    (breakBlocks n bl).2 = [] ↔ ¬ (1 ≤ n ∧ n ≤ loops bl) := by
  induction bl generalizing n with
  | nil =>
    have hzero : loops [] = 0 := rfl
    rw [hzero]
    refine ⟨fun _ => ?_, fun _ => rfl⟩
    omega
  | cons b bl ih =>
    unfold breakBlocks
    split
    · next hb =>
      rw [loops_cons_of_scope (by simpa using hb)]
      exact ih n
    · next hb =>
      rw [loops_cons_of_loop (by simpa using hb)]
      split
      · refine (ih (n - 1)).trans ?_
        omega
      · simp only [reduceCtorEq, false_iff]
        omega

/-! ## All programs -/

theorem moving_localstat (vars names : List String) : Moving (localstat vars names) := by
  intro fs fs' h
  obtain ⟨new, -, h⟩ := bind_ok h
  cases h
  exact (moves_codeExpr (.decl new) names fs 0 rfl).trans (moves_adjustlocalvars new _)

theorem moving_localfunc (var : String) (names : List String) : Moving (localfunc var names) := by
  intro fs fs' h
  obtain ⟨new, -, h⟩ := bind_ok h
  cases h
  have hmark := blockLists_singlevaraux names (adjustlocalvars new fs) 0
  have hinner : Moves ⟨fs, 0, []⟩
      ⟨{ fs with bl := (singlevaraux names (adjustlocalvars new fs)).1.bl }, 0, []⟩ :=
    ⟨.of_same rfl rfl hmark.1, hmark.2⟩
  have hdecl : (Op.decl new).jumps = false := rfl
  apply (hinner.trans ?_).trans (moves_adjustlocalvars new _)
  exact .of_bl (Stage.step_luaK_code 0 hdecl) rfl

mutual

/-- Every statement keeps the jumps, by induction on the syntax. -/
theorem Stat.moving : ∀ s : Stat, Moving (statement s)
  | .exprstat names => by
    intro h
    cases h
    exact moves_codeExpr .eval names _ 0 rfl
  | .localstat vars names => moving_localstat vars names
  | .localfunc var names => moving_localfunc var names
  | .dostat body => Moving.block (Chunk.moving body)
  | .whilestat c body => fun h => by
    obtain ⟨fs2, h2, hloop⟩ := loopCode_whilestat (Chunk.moving body) h
    exact hloop.moves (Chunk.moving body h2)
  | .repeatstat body c => fun h => by
    obtain ⟨fs2, h2, hloop⟩ := loopCode_repeatstat (Chunk.moving body) h
    exact hloop.moves (Chunk.moving body h2)
  | .fornum var names body => fun h => by
    obtain ⟨r, fs2, -, h2, hloop, -⟩ := loopCode_forstat (Chunk.moving body) h
    exact hloop.moves (Chunk.moving body h2)
  | .forlist vars names body => fun h => by
    obtain ⟨r, fs2, -, h2, hloop, -⟩ := loopCode_forstat (Chunk.moving body) h
    exact hloop.moves (Chunk.moving body h2)
  | .ifstat c body rest => moving_ifstat (Chunk.moving body) (Arms.moving rest)
  | .selectstat names values body rest => moving_selectstat (Chunk.moving body) (Arms.moving rest)

theorem Chunk.moving : ∀ c : Chunk, Moving (chunk c)
  | .done => by
    intro h
    cases h
    exact .refl _
  | .retstat none => by
    intro h
    cases h
    exact moves_codeExpr .ret [] _ 0 rfl
  | .retstat (some names) => by
    intro h
    cases h
    exact (moves_codeExpr .eval names _ 0 rfl).trans (moves_codeExpr .ret [] _ 0 rfl)
  | .breakstat n => moves_breakstat 0
  | .continuestat => moves_continuestat
  | .seq s rest => by
    intro h
    obtain ⟨fs1, h1, h⟩ := bind_ok h
    exact (Stat.moving s h1).trans (Chunk.moving rest h)

theorem Arms.moving : ∀ a : Arms, MovingArms (arms a)
  | .done => movingArms_lastArm
  | .otherwise body => movingArms_elseArm (Chunk.moving body)
  | .arm _ body rest => movingArms_arm (Chunk.moving body) (Arms.moving rest)

end

/-! ## Functions -/

theorem listed_nil : Listed [] [] := by
  refine ⟨List.nodup_nil, fun q => ?_, fun q i hi => ?_⟩
  · simp [Waits]
  · cases hi

section function

variable {new : List Var}

/-- At the end of a function all blocks have been left. -/
theorem bl_function (h : Moves ⟨adjustlocalvars new open_func, 0, []⟩ ⟨fs, 0, []⟩) : fs.bl = [] :=
  List.forall₂_nil_left_iff.1 h.blocks

/-- At the end of a function no list is left. -/
theorem known_close_func (h : Moves ⟨adjustlocalvars new open_func, 0, []⟩ ⟨fs, 0, []⟩) :
    Stage.Known ⟨fs, 0, []⟩ (close_func fs).code := by
  have hvars : Step ⟨fs, 0, []⟩ ⟨removevars 0 fs, 0, []⟩ := .of_same rfl rfl rfl
  have hret : Step ⟨removevars 0 fs, 0, []⟩ ⟨close_func fs, 0, []⟩ := Stage.step_luaK_code 0 rfl
  have hstart : ∃ L, Lists ⟨adjustlocalvars new open_func, 0, []⟩ L := ⟨[], listed_nil⟩
  have hend := Stage.lists_step hstart h.step
  have hbl := bl_function h
  have hblocks : (close_func fs).bl = [] := hbl
  have hlast : Owes ⟨close_func fs, 0, []⟩ (close_func fs).code := by
    refine ⟨arrives_nil _ _, fun list hlist => ?_⟩
    rw [Stage.lists, hblocks] at hlist
    cases hlist
  have hknown : Stage.Known ⟨close_func fs, 0, []⟩ (close_func fs).code :=
    ⟨Stage.lists_step hend (hvars.trans hret), Kept.refl _, hlast⟩
  exact hknown.before hend (hvars.trans hret)

end function

end LuaFltk.Compiler
