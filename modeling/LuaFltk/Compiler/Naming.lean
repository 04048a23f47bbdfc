import LuaFltk.Compiler.Loops
import LuaFltk.Compiler.Meaning

/-!
# Locals and their registers

The compiler looks a name up among the active locals, and the meaning of a program in its
environment. Both find the same register: behind every piece the active locals are those of the
environment, with what the piece declares.
-/

namespace LuaFltk.Compiler

variable {fs fs' fs2 : FuncState} {ρ : Names}

/-- The active locals have the names of the environment, each in its register. -/
def Named (fs : FuncState) (ρ : Names) : Prop :=
  fs.actvar.map (fun v => (v.name, v.reg)) = ρ.zipIdx

/-- As many names as locals. -/
theorem Named.length (h : Named fs ρ) : fs.nactvar = ρ.length := by
  have hlength := congrArg List.length h
  rwa [List.length_map, List.length_zipIdx] at hlength

/-- A name is found in the register that its place gives. -/
theorem Named.find (h : Named fs ρ) (x : String) : (searchvar fs x).map Var.reg = ρ.find x := by
  unfold searchvar Names.find
  rw [← h, ← List.map_reverse, List.find?_map, Option.map_map]
  rfl

/-- The same of a list of names. -/
theorem Named.caps (h : Named fs ρ) (names : List String) :
    (singlevaraux names fs).2.map Var.reg = ρ.resolve names := by
  unfold singlevaraux Names.resolve
  rw [List.map_filterMap]
  exact congrArg (List.filterMap · names) (funext h.find)

/-- New locals get the names declared. -/
theorem Named.adjust {names : Names} {new : List Var} (h : Named fs ρ)
    (hnew : new_localvars names fs = .ok new) : Named (adjustlocalvars new fs) (ρ ++ names) := by
  have hlength := h.length
  unfold new_localvars at hnew
  split at hnew
  · cases hnew
  · cases hnew
    unfold Named at h ⊢
    rw [adjustlocalvars, List.map_append, h, List.zipIdx_append, hlength]
    congr 1
    apply List.ext_getElem?
    intro r
    rw [List.getElem?_map, List.getElem?_mapIdx, List.getElem?_zipIdx, Option.map_map, Nat.zero_add]
    rfl

theorem length_new {names : Names} {new : List Var} (h : new_localvars names fs = .ok new) :
    new.length = names.length := by
  unfold new_localvars at h
  split at h
  · cases h
  · cases h
    exact List.length_mapIdx

/-- At the end of a block the names are those before it. -/
theorem Named.take {names : Names} (h : Named fs (ρ ++ names)) :
    Named (removevars ρ.length fs) ρ := by
  unfold Named at h ⊢
  rw [removevars, List.map_take, h, List.zipIdx_append, List.take_left' List.length_zipIdx]

theorem Named.of_actvar (h : Named fs ρ) (ha : fs'.actvar = fs.actvar) : Named fs' ρ := by
  unfold Named at h ⊢
  rw [ha, h]

theorem actvar_goif (on : Bool) (c : Cond) (fs : FuncState) : (goif on c fs).1.actvar = fs.actvar := by
  induction c generalizing on fs with
  | const b =>
    unfold goif
    split <;> rfl
  | test names => rfl
  | not c ih => exact ih (!on) fs
  | and c d ihc ihd =>
    have hboth := (ihd on (goif false c fs).1).trans (ihc false fs)
    unfold goif
    cases on <;> exact hboth
  | or c d ihc ihd =>
    have hboth := (ihd on (goif true c fs).1).trans (ihc true fs)
    unfold goif
    cases on <;> exact hboth

/-- The compiler of a piece that declares `names`. -/
def Naming (f : Compile) (names : Names) : Prop :=
  ∀ ⦃fs fs' : FuncState⦄ ⦃ρ : Names⦄, f fs = .ok fs' → Named fs ρ → Named fs' (ρ ++ names)

theorem Longer.level {b b' : BlockCnt} {bl bl' : List BlockCnt} (h : Longer (b :: bl) (b' :: bl')) :
    b'.nactvar = b.nactvar := by
  cases h with
  | cons hgrows _ => exact hgrows.level

/-- The locals of a block end with it. -/
theorem Named.leaveblock {names : Names} {b : BlockCnt} {previous : List BlockCnt}
    (h : Named fs (ρ ++ names)) (hbl : fs.bl = b :: previous) (hlevel : b.nactvar = ρ.length) :
    Named (leaveblock fs) ρ := by
  apply h.take.of_actvar
  rw [actvar_leaveblock hbl, hlevel]
  rfl

/-- The locals of a loop's block are those of the code around it. -/
theorem Named.leave_loop {b : BlockCnt} {previous : List BlockCnt} (h : Named fs ρ)
    (hbl : fs.bl = b :: previous) (hlevel : b.nactvar = ρ.length) : Named (Compiler.leaveblock fs) ρ := by
  have hnil : Named fs (ρ ++ []) := by
    rw [List.append_nil]
    exact h
  exact hnil.leaveblock hbl hlevel

/-- A block declares nothing outside. -/
theorem naming_block {body : Compile} {names : Names} (hmoving : Moving body)
    (hbody : Naming body names) : Naming (block body) [] := by
  intro fs fs' ρ h hnamed
  obtain ⟨fs2, h2, h⟩ := bind_ok h
  cases h
  have hlonger := (hmoving h2).blocks
  obtain ⟨s, previous, hbl, -, -⟩ := hlonger.scope (scope_enterblock _)
  rw [hbl] at hlonger
  rw [List.append_nil]
  exact (hbody h2 hnamed).leaveblock hbl (hlonger.level.trans hnamed.length)

/-- Nor does a loop. -/
theorem naming_whilestat {c : Cond} {body : Compile} {names : Names} (hmoving : Moving body)
    (hbody : Naming body names) : Naming (whilestat c body) [] := by
  intro fs fs' ρ h hnamed
  obtain ⟨fs1, h1, h⟩ := bind_ok h
  have hcond : Named (enterblock true (cond c fs).1) ρ := hnamed.of_actvar (actvar_goif false c fs)
  have hblock := naming_block hmoving hbody h1 hcond
  have hlonger := (hmoving.block h1).blocks
  obtain ⟨b, previous, hbl, hb, -⟩ := hlonger.loop
  rw [List.append_nil] at hblock
  have hend : whileEnd fs.pc (cond c fs).2 fs1 = fs' := Except.ok.inj h
  rw [List.append_nil, ← hend]
  have hpatch : Named (luaK_patchlist (luaK_jump fs1).2 fs.pc (luaK_jump fs1).1) ρ :=
    hblock.of_actvar (actvar_patchlist _ _ _)
  have hbl' := (bl_patchlist (luaK_jump fs1).2 fs.pc (luaK_jump fs1).1).trans hbl
  have hpatch' := hpatch.of_actvar (actvar_patchlist (continuelist (luaK_patchlist (luaK_jump fs1).2
    fs.pc (luaK_jump fs1).1)) fs.pc _)
  have hleave := hpatch'.leave_loop ((bl_patchlist _ _ _).trans hbl')
    (hb.level.trans hcond.length)
  exact hleave.of_actvar rfl

theorem actvar_breakstat {m : Int} (h : breakstat m fs = .ok fs') : fs'.actvar = fs.actvar := by
  unfold breakstat at h
  rcases hb : breakBlocks m fs.bl with ⟨left, _ | ⟨b, outer⟩⟩
  · rw [hb] at h
    cases h
  · rw [hb] at h
    cases h
    exact actvar_closeJump left b.nactvar fs

/-- The condition of a `repeat` loop sees the locals of the body, and they end with it. -/
theorem naming_repeatstat {c : Cond} {body : Compile} {names : Names} (hmoving : Moving body)
    (hbody : Naming body names) : Naming (repeatstat body c) [] := by
  intro fs fs' ρ h hnamed
  rw [List.append_nil]
  obtain ⟨fs2, h2, h⟩ := bind_ok h
  have hstart : Named (repeatStart fs) ρ := hnamed
  generalize hlist : continuelist { fs2 with bl := fs2.bl.tail } = list at h
  have hcond := moves_goif c false (luaK_patchtohere list fs2) 0
  have hlonger : Longer (repeatStart fs).bl (goif false c (luaK_patchtohere list fs2)).1.bl :=
    (hmoving h2).blocks.trans hcond.blocks
  have htest : Named (goif false c (luaK_patchtohere list fs2)).1 (ρ ++ names) :=
    (hbody h2 hstart).of_actvar (actvar_goif false c _)
  dsimp only [cond] at h
  generalize goif false c (luaK_patchtohere list fs2) = r at h hlonger htest
  obtain ⟨s, rest, hbl, hs, hrest⟩ := hlonger.loop
  obtain ⟨b, previous, rfl, hb, -⟩ := hrest.loop
  have hlevels : s.nactvar = ρ.length ∧ b.nactvar = ρ.length :=
    ⟨hs.level.trans hnamed.length, hb.level.trans hnamed.length⟩
  split at h
  · have hscope := htest.leaveblock hbl hlevels.1
    have hback := hscope.of_actvar (actvar_patchlist r.2 fs.pc _)
    have hbl' := (bl_patchlist r.2 fs.pc (leaveblock r.1)).trans (bl_leaveblock hbl)
    rw [← Except.ok.inj h]
    exact hback.leave_loop hbl' hlevels.2
  · obtain ⟨fs3, h3, h⟩ := bind_ok h
    have hlonger3 := (moves_breakstat 0 h3).blocks
    rw [hbl] at hlonger3
    obtain ⟨s', rest, hbl3, hs', hrest⟩ := hlonger3.loop
    obtain ⟨b', previous', rfl, hb', -⟩ := hrest.loop
    have h3' : Named fs3 (ρ ++ names) := htest.of_actvar (actvar_breakstat h3)
    have hhere : Named (luaK_patchtohere r.2 fs3) (ρ ++ names) := h3'
    have hbl4 : (luaK_patchtohere r.2 fs3).bl = s' :: b' :: previous' := hbl3
    have hscope := hhere.leaveblock hbl4 (hs'.level.trans hlevels.1)
    have hjump : Named (luaK_jump (leaveblock (luaK_patchtohere r.2 fs3))).1 ρ := hscope
    have hback := hjump.of_actvar (actvar_patchlist (luaK_jump (leaveblock
      (luaK_patchtohere r.2 fs3))).2 fs.pc _)
    have hbl5 := (bl_patchlist (luaK_jump (leaveblock (luaK_patchtohere r.2 fs3))).2 fs.pc
      (luaK_jump (leaveblock (luaK_patchtohere r.2 fs3))).1).trans (bl_leaveblock hbl4)
    rw [← Except.ok.inj h]
    exact hback.leave_loop hbl5 (hb'.level.trans hlevels.2)

/-! ## `for` -/

/-- The locals of a `for` at its first jump, and at its body. -/
theorem named_forstat {vars : List String} {new : List Var} (names : List String) (isnum : Bool)
    (hnamed : Named fs ρ)
    (hnew : new_localvars ([none, none, none] ++ vars.map some) (enterblock true fs) = .ok new) :
    Named (forHead (new.take 3) names fs) (ρ ++ [none, none, none]) ∧
      Named (forInner (new.drop 3) (forprep isnum (forHead (new.take 3) names fs)).1)
        (ρ ++ forNames vars) := by
  have hstart : Named (enterblock true fs) ρ := hnamed
  have hall : Named (adjustlocalvars new (enterblock true fs)) (ρ ++ forNames vars) :=
    hstart.adjust hnew
  constructor
  · rw [forNames, ← List.append_assoc] at hall
    apply hall.take.of_actvar
    have hthree : ((fs.actvar ++ new).take (fs.actvar.length + 3)) = fs.actvar ++ new.take 3 :=
      List.take_length_add_append 3
    have hbefore : (ρ ++ [none, none, none]).length = fs.actvar.length + 3 := by
      rw [List.length_append, ← hnamed.length]
      rfl
    rw [hbefore]
    exact hthree.symm
  · apply hall.of_actvar
    have hprep : ∀ fs : FuncState, (forprep isnum fs).1.actvar = fs.actvar := by
      intro fs
      cases isnum <;> rfl
    change (forprep isnum (forHead (new.take 3) names fs)).1.actvar ++ new.drop 3 = fs.actvar ++ new
    rw [hprep]
    change fs.actvar ++ new.take 3 ++ new.drop 3 = fs.actvar ++ new
    rw [List.append_assoc, List.take_append_drop]


/-- The variables of a `for` loop end with it. -/
theorem naming_forstat {vars names : List String} {isnum : Bool} {body : Compile} {inner : Names}
    (hmoving : Moving body) (hbody : Naming body inner) :
    Naming (forstat vars names isnum body) [] := by
  intro fs fs' ρ h hnamed
  rw [List.append_nil]
  obtain ⟨new, fs2, hnew, h2, hend⟩ := forstat_parts h
  obtain ⟨hhead, hstart⟩ := named_forstat names isnum hnamed hnew
  have hin := hbody h2 hstart
  -- the three blocks, from the inside
  have hlonger := (hmoving h2).blocks
  obtain ⟨s, rest, hbl, hs, hrest⟩ := hlonger.loop
  obtain ⟨s', rest, rfl, hs', hrest⟩ := hrest.loop
  have hloop := (moves_forHead (new.take 3) names isnum fs).blocks.trans hrest
  obtain ⟨b, previous, rfl, hb, -⟩ := hloop.loop
  have hprep : (forprep isnum (forHead (new.take 3) names fs)).1.nactvar =
      (ρ ++ [none, none, none]).length := by
    rw [← hhead.length]
    cases isnum <;> rfl
  have hvars : Named (leaveblock fs2) (ρ ++ forNames vars) :=
    hin.leaveblock hbl (hs.level.trans hstart.length)
  rw [forNames, ← List.append_assoc] at hvars
  have hbl' := bl_leaveblock hbl
  have hcontrol : Named (leaveblock (leaveblock fs2)) (ρ ++ [none, none, none]) :=
    hvars.leaveblock hbl' (hs'.level.trans hprep)
  have hbl'' := bl_leaveblock hbl'
  have htest : Named (luaK_patchlist [(leaveblock (leaveblock fs2)).pc]
      ((forHead (new.take 3) names fs).pc + 1) (forTest (new.drop 3)
        (forprep isnum (forHead (new.take 3) names fs)).2 (leaveblock (leaveblock fs2))))
      (ρ ++ [none, none, none]) :=
    hcontrol.of_actvar (actvar_patchlist _ _ _)
  rw [← hend]
  exact htest.leaveblock ((bl_patchlist _ _ _).trans hbl'') (hb.level.trans hnamed.length)

/-! ## Branches -/

/-- The compiler of the arms behind the first one. -/
def NamingArms (rest : List Nat → List Nat → Compile) : Prop :=
  ∀ ⦃escapelist flist : List Nat⦄ ⦃fs fs' : FuncState⦄ ⦃ρ : Names⦄,
    rest escapelist flist fs = .ok fs' → Named fs ρ → Named fs' ρ

/-- Behind a block the names are as before. -/
theorem Naming.block_same {body : Compile} (h : Naming (block body) []) (h2 : block body fs = .ok fs')
    (hnamed : Named fs ρ) : Named fs' ρ := by
  have hend := h h2 hnamed
  rwa [List.append_nil] at hend

theorem named_headJump (head : Head) (h : Named fs ρ) : Named (headJump head fs).1 ρ := by
  cases head with
  | elseif c => exact h.of_actvar (actvar_goif false c fs)
  | of names => exact h

/-- All arms begin with the same names. -/
theorem named_branch {head : Head} {body : Compile} {rest : List Nat → List Nat → Compile}
    {escapelist : List Nat} (hbody : Naming (block body) []) (hrest : NamingArms rest)
    (h : branch head body rest escapelist fs = .ok fs') (hnamed : Named fs ρ) : Named fs' ρ := by
  obtain ⟨r, h1, h⟩ := bind_ok h
  obtain ⟨fs1, hblock, h1⟩ := bind_ok h1
  cases h1
  exact hrest h (hbody.block_same hblock (named_headJump head hnamed))

theorem naming_ifstat {c : Cond} {body : Compile} {rest : List Nat → List Nat → Compile}
    (hbody : Naming (block body) []) (hrest : NamingArms rest) : Naming (ifstat c body rest) [] := by
  intro fs fs' ρ h hnamed
  rw [List.append_nil]
  have hbranch : branch (.elseif c) body rest [] fs = .ok fs' := h
  exact named_branch hbody hrest hbranch hnamed

theorem namingArms_arm {head : Head} {body : Compile} {rest : List Nat → List Nat → Compile}
    (hbody : Naming (block body) []) (hrest : NamingArms rest) :
    NamingArms fun escapelist flist fs =>
      branch head body rest (nextArm escapelist flist fs).2 (nextArm escapelist flist fs).1 :=
  fun _ _ _ _ _ h hnamed => named_branch hbody hrest h hnamed

theorem namingArms_elseArm {body : Compile} (hbody : Naming (block body) []) :
    NamingArms (elseArm body) := by
  intro escapelist flist fs fs' ρ h hnamed
  obtain ⟨fs1, h1, h⟩ := bind_ok h
  cases h
  have hnext : Named (nextArm escapelist flist fs).1 ρ := hnamed
  have hend : Named fs1 ρ := hbody.block_same h1 hnext
  exact hend

theorem naming_selectstat {names values : List String} {body : Compile}
    {rest : List Nat → List Nat → Compile} (hmoving : Moving body) (hmoves : MovingArms rest)
    (hbody : Naming (block body) []) (hrest : NamingArms rest) :
    Naming (selectstat names values body rest) [] := by
  intro fs fs' ρ h hnamed
  obtain ⟨fs2, harms, rfl⟩ := selectstat_branch h
  have hstart : Named (selectStart names fs) ρ := hnamed
  have hend := named_branch hbody hrest harms hstart
  have hlonger := (moves_selectStart names fs).2.trans (moves_branch hmoving hmoves harms).blocks
  obtain ⟨s, previous, hbl, hs, -⟩ := hlonger.loop
  rw [List.append_nil]
  exact hend.leave_loop hbl (hs.level.trans hnamed.length)

/-! ## All programs -/

/-- A `local` statement declares its names. -/
theorem naming_localstat (vars names : List String) :
    Naming (localstat vars names) (vars.map some) := by
  intro fs fs' ρ h hnamed
  obtain ⟨new, hnew, h⟩ := bind_ok h
  cases h
  exact (hnamed.adjust hnew).of_actvar rfl

/-- A `local function` declares one. -/
theorem naming_localfunc (var : String) (names : List String) :
    Naming (localfunc var names) [some var] := by
  intro fs fs' ρ h hnamed
  obtain ⟨new, hnew, h⟩ := bind_ok h
  cases h
  exact (hnamed.adjust hnew).of_actvar rfl

/-- What leaves the locals alone declares nothing. -/
theorem Naming.nil {f : Compile} (h : ∀ {fs fs' : FuncState}, f fs = .ok fs' → fs'.actvar = fs.actvar) :
    Naming f [] := by
  intro fs fs' ρ hf hnamed
  rw [List.append_nil]
  exact hnamed.of_actvar (h hf)

theorem actvar_continuestat (h : continuestat fs = .ok fs') : fs'.actvar = fs.actvar := by
  unfold continuestat at h
  rcases hb : fs.bl.span fun bl => !bl.isbreakable with ⟨left, _ | ⟨b, outer⟩⟩
  · rw [hb] at h
    cases h
  · rw [hb] at h
    cases h
    exact actvar_closeJump left b.nactvar fs

mutual

/-- What a statement declares can be read off the syntax. -/
theorem Stat.naming : ∀ s : Stat, Naming (statement s) s.declares
  | .exprstat names => Naming.nil fun h => by
    cases h
    rfl
  | .localstat vars names => naming_localstat vars names
  | .localfunc var names => naming_localfunc var names
  | .dostat body => naming_block (Chunk.moving body) (Chunk.naming body)
  | .whilestat c body => naming_whilestat (Chunk.moving body) (Chunk.naming body)
  | .repeatstat body c => naming_repeatstat (Chunk.moving body) (Chunk.naming body)
  | .fornum var names body => naming_forstat (Chunk.moving body) (Chunk.naming body)
  | .forlist vars names body => naming_forstat (Chunk.moving body) (Chunk.naming body)
  | .ifstat c body rest =>
    naming_ifstat (naming_block (Chunk.moving body) (Chunk.naming body)) (Arms.naming rest)
  | .selectstat names values body rest =>
    naming_selectstat (Chunk.moving body) (Arms.moving rest)
      (naming_block (Chunk.moving body) (Chunk.naming body)) (Arms.naming rest)

theorem Chunk.naming : ∀ c : Chunk, Naming (chunk c) c.declares
  | .done => Naming.nil fun h => by
    cases h
    rfl
  | .retstat values => Naming.nil fun h => by
    cases h
    cases values <;> rfl
  | .breakstat n => Naming.nil actvar_breakstat
  | .continuestat => Naming.nil actvar_continuestat
  | .seq s rest => by
    intro fs fs' ρ h hnamed
    obtain ⟨fs1, h1, h⟩ := bind_ok h
    rw [Chunk.declares, ← List.append_assoc]
    exact Chunk.naming rest h (Stat.naming s h1 hnamed)

theorem Arms.naming : ∀ a : Arms, NamingArms (arms a)
  | .done => by
    intro escapelist flist fs fs' ρ h hnamed
    cases h
    exact hnamed
  | .otherwise body => namingArms_elseArm (naming_block (Chunk.moving body) (Chunk.naming body))
  | .arm _ body rest =>
    namingArms_arm (naming_block (Chunk.moving body) (Chunk.naming body)) (Arms.naming rest)

end

end LuaFltk.Compiler
