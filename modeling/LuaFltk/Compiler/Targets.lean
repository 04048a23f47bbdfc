import LuaFltk.Compiler.Loops

/-!
# Where `break` and `continue` go

The compiler of a function comes to each of its parts inside the loops that enclose the part.
`break n` counts these loops. What is compiled later patches each list of jumps once: the jumps
of a `break` arrive behind the loop that it names, those of a `continue` at the next test of the
innermost loop.
-/

namespace LuaFltk.Compiler

variable {fs fs' fs2 : FuncState} {code : List Ins}

open Stage (Step Lists Owes)

/-! ## Parts of a function -/

/-- A part of a program that the compiler comes to, with the lists it has to patch. -/
inductive Part where
  | chunk (c : Chunk)
  | stat (s : Stat)
  | branch (head : Head) (body : Chunk) (rest : Arms) (escapelist : List Nat)
  | arms (a : Arms) (escapelist flist : List Nat)

def Part.compile : Part → Compile
  | .chunk c => Compiler.chunk c
  | .stat s => statement s
  | .branch head body rest escapelist =>
    Compiler.branch head (Compiler.chunk body) (Compiler.arms rest) escapelist
  | .arms a escapelist flist => Compiler.arms a escapelist flist

def Part.held : Part → List (List Nat)
  | .chunk _ | .stat _ => []
  | .branch _ _ _ escapelist => [escapelist]
  | .arms _ escapelist flist => [escapelist, flist]

theorem Part.moves (x : Part) (h : x.compile fs = .ok fs') :
    Moves ⟨fs, 0, x.held⟩ ⟨fs', 0, []⟩ := by
  cases x with
  | chunk c => exact Chunk.moving c h
  | stat s => exact Stat.moving s h
  | branch head body rest escapelist => exact moves_branch (Chunk.moving body) (Arms.moving rest) h
  | arms a escapelist flist => exact Arms.moving a h

/-- A loop, and where its compilation starts. -/
structure Loop where
  stat : Stat
  start : FuncState

/-- The position behind a loop. -/
def Loop.after (l : Loop) : Except String Nat := (statement l.stat l.start).map FuncState.pc

/-- The position of the next test of a loop: the condition of a `while`, which stands before the
body, the condition of a `repeat` behind it, or the instruction at the end of a `for`. -/
def Loop.next (l : Loop) : Except String Nat :=
  match l.stat with
  | .whilestat _ _ => .ok l.start.pc
  | .repeatstat body _ => (chunk body (repeatStart l.start)).map FuncState.pc
  | .fornum var names body => do
    let (start, _) ← forStart [var] names true l.start
    (chunk body start).map forNext
  | .forlist vars names body => do
    let (start, _) ← forStart vars names false l.start
    (chunk body start).map forNext
  | _ => .error "no loop"

/-- At the next test of a `for` stands its `OP_FORLOOP` or `OP_TFORLOOP`. -/
def Loop.Tests (l : Loop) (code : List Ins) (t : Nat) : Prop :=
  match l.stat with
  | .fornum .. | .forlist .. => ∃ i vars, code[t]? = some i ∧ i.op = .forloop vars
  | _ => True

/-- The compiler of the function with parameters `params` and body `c` comes to a part, inside
loops of which the innermost is the first. -/
inductive Comes (params : List String) (c : Chunk) : List Loop → Part → FuncState → Prop where
  | body {new : List Var} : new_localvars (params.map some) open_func = .ok new →
      Comes params c [] (.chunk c) (adjustlocalvars new open_func)
  | first {env : List Loop} {s : Stat} {rest : Chunk} {fs : FuncState} :
      Comes params c env (.chunk (.seq s rest)) fs → Comes params c env (.stat s) fs
  | next {env : List Loop} {s : Stat} {rest : Chunk} {fs fs' : FuncState} :
      Comes params c env (.chunk (.seq s rest)) fs → statement s fs = .ok fs' →
      Comes params c env (.chunk rest) fs'
  | dostat {env : List Loop} {body : Chunk} {fs : FuncState} :
      Comes params c env (.stat (.dostat body)) fs →
      Comes params c env (.chunk body) (enterblock false fs)
  | whilestat {env : List Loop} {d : Cond} {body : Chunk} {fs : FuncState} :
      Comes params c env (.stat (.whilestat d body)) fs →
      Comes params c (⟨.whilestat d body, fs⟩ :: env) (.chunk body) (whileStart d fs)
  | repeatstat {env : List Loop} {body : Chunk} {d : Cond} {fs : FuncState} :
      Comes params c env (.stat (.repeatstat body d)) fs →
      Comes params c (⟨.repeatstat body d, fs⟩ :: env) (.chunk body) (repeatStart fs)
  | fornum {env : List Loop} {var : String} {names : List String} {body : Chunk} {fs : FuncState}
      {r : FuncState × List Nat} : Comes params c env (.stat (.fornum var names body)) fs →
      forStart [var] names true fs = .ok r →
      Comes params c (⟨.fornum var names body, fs⟩ :: env) (.chunk body) r.1
  | forlist {env : List Loop} {vars names : List String} {body : Chunk} {fs : FuncState}
      {r : FuncState × List Nat} : Comes params c env (.stat (.forlist vars names body)) fs →
      forStart vars names false fs = .ok r →
      Comes params c (⟨.forlist vars names body, fs⟩ :: env) (.chunk body) r.1
  | ifstat {env : List Loop} {d : Cond} {body : Chunk} {rest : Arms} {fs : FuncState} :
      Comes params c env (.stat (.ifstat d body rest)) fs →
      Comes params c env (.branch (.elseif d) body rest []) fs
  | selectstat {env : List Loop} {names values : List String} {body : Chunk} {rest : Arms}
      {fs : FuncState} : Comes params c env (.stat (.selectstat names values body rest)) fs →
      Comes params c env (.branch (.of values) body rest []) (selectStart names fs)
  | armBody {env : List Loop} {head : Head} {body : Chunk} {rest : Arms} {escapelist : List Nat}
      {fs : FuncState} : Comes params c env (.branch head body rest escapelist) fs →
      Comes params c env (.chunk body) (enterblock false (headJump head fs).1)
  | armRest {env : List Loop} {head : Head} {body : Chunk} {rest : Arms} {escapelist : List Nat}
      {fs : FuncState} {r : FuncState × List Nat} :
      Comes params c env (.branch head body rest escapelist) fs →
      armBlock head (chunk body) fs = .ok r → Comes params c env (.arms rest escapelist r.2) r.1
  | otherwise {env : List Loop} {body : Chunk} {escapelist flist : List Nat} {fs : FuncState} :
      Comes params c env (.arms (.otherwise body) escapelist flist) fs →
      Comes params c env (.chunk body) (enterblock false (nextArm escapelist flist fs).1)
  | arm {env : List Loop} {head : Head} {body : Chunk} {rest : Arms}
      {escapelist flist : List Nat} {fs : FuncState} :
      Comes params c env (.arms (.arm head body rest) escapelist flist) fs →
      Comes params c env (.branch head body rest (nextArm escapelist flist fs).2)
        (nextArm escapelist flist fs).1

/-! ## Counting loops -/

/-- Only a block that can be left by `break` is a loop. -/
theorem loops_enterblock (isbreakable : Bool) (fs : FuncState) :
    loops (enterblock isbreakable fs).bl = loops fs.bl + if isbreakable then 1 else 0 :=
  List.countP_cons

/-- The body of a `while` loop has a loop more around it. -/
theorem loops_whileStart (c : Cond) (fs : FuncState) :
    loops (whileStart c fs).bl = loops fs.bl + 1 := by
  rw [whileStart, loops_enterblock, loops_enterblock, cond, (moves_goif c false fs 0).blocks.loops]
  rfl

/-- So does the body of a `for` loop. -/
theorem loops_forStart {vars names : List String} {isnum : Bool} {r : FuncState × List Nat}
    (h : forStart vars names isnum fs = .ok r) : loops r.1.bl = loops fs.bl + 1 := by
  obtain ⟨new, -, h⟩ := bind_ok h
  have hhead := (moves_forHead (new.take 3) names isnum fs).blocks.loops
  rw [loops_enterblock] at hhead
  rw [← Except.ok.inj h]
  exact ((loops_enterblock false _).trans (loops_enterblock false _)).trans hhead

/-- The blocks that are loops are the loops that enclose the part. -/
theorem Comes.loops {params : List String} {c : Chunk} {env : List Loop} {x : Part}
    (h : Comes params c env x fs) : loops fs.bl = env.length := by
  induction h with
  | body hnew => rfl
  | first _ ih => exact ih
  | next _ hs ih => exact (Stat.moving _ hs).blocks.loops.trans ih
  | dostat _ ih => exact (loops_enterblock false _).trans ih
  | whilestat _ ih => rw [loops_whileStart, ih, List.length_cons]
  | repeatstat _ ih =>
    rw [repeatStart, loops_enterblock, loops_enterblock, ih, List.length_cons]
    rfl
  | fornum _ hr ih => rw [loops_forStart hr, ih, List.length_cons]
  | forlist _ hr ih => rw [loops_forStart hr, ih, List.length_cons]
  | ifstat _ ih => exact ih
  | selectstat _ ih => exact ((moves_selectStart _ _).2.loops.trans (loops_enterblock false _)).trans ih
  | armBody _ ih =>
    exact ((loops_enterblock false _).trans (moves_headJump _ _).blocks.loops).trans ih
  | armRest _ hr ih => exact (moves_armBlock (Chunk.moving _) hr).blocks.loops.trans ih
  | @otherwise _ _ escapelist flist fs _ ih =>
    exact ((loops_enterblock false _).trans (moves_nextArm escapelist flist fs).blocks.loops).trans ih
  | @arm _ _ _ _ escapelist flist fs _ ih =>
    exact (moves_nextArm escapelist flist fs).blocks.loops.trans ih

theorem bind_error {α β : Type} {x : Except String α} {f : α → Except String β} {e : String}
    (h : x = .error e) : (x >>= f) = .error e := by
  rw [h]
  rfl

theorem bind_of_ok {α β : Type} {x : Except String α} {a : α} {f : α → Except String β}
    {r : Except String β} (h : x = .ok a) (hf : f a = r) : (x >>= f) = r := by
  rw [h]
  exact hf

/-- An error in the body is the error of the loop. -/
theorem forstat_error {vars names : List String} {isnum : Bool} {body : Compile}
    {r : FuncState × List Nat} {e : String} (hr : forStart vars names isnum fs = .ok r)
    (h : body r.1 = .error e) : forstat vars names isnum body fs = .error e := by
  obtain ⟨new, hnew, hr⟩ := bind_ok hr
  rw [← Except.ok.inj hr] at h
  exact bind_of_ok hnew (bind_error (bind_error (bind_error h)))

/-- A part that does not compile stops the compiler. -/
theorem Comes.error {params : List String} {c : Chunk} {env : List Loop} {x : Part} {e : String}
    (h : Comes params c env x fs) (hx : x.compile fs = .error e) :
    funcBody params c = .error e := by
  induction h with
  | body hnew => exact bind_of_ok hnew (bind_error hx)
  | first _ ih => exact ih (bind_error hx)
  | next _ hs ih => exact ih (bind_of_ok hs hx)
  | dostat _ ih => exact ih (bind_error hx)
  | whilestat _ ih => exact ih (bind_error (bind_error hx))
  | repeatstat _ ih => exact ih (bind_error hx)
  | fornum _ hr ih => exact ih (forstat_error hr hx)
  | forlist _ hr ih => exact ih (forstat_error hr hx)
  | ifstat _ ih => exact ih hx
  | @selectstat _ names values body rest fs _ ih =>
    apply ih
    have hbind := bind_error (f := fun fs => Except.ok (leaveblock fs)) hx
    rw [Part.compile, branch, bind_assoc] at hbind
    exact hbind
  | armBody _ ih => exact ih (bind_error (bind_error (bind_error hx)))
  | armRest _ hr ih => exact ih (bind_of_ok hr hx)
  | otherwise _ ih => exact ih (bind_error (bind_error hx))
  | arm _ ih => exact ih hx

/-! ## What the rest of the function does with the lists -/

/-- The lists of a loop's block go behind the loop and to its next test. -/
structure Loop.Gets (l : Loop) (code : List Ins) (b : BlockCnt) : Prop where
  breaks : ∃ t, l.after = .ok t ∧ Arrives code b.breaklist t
  continues : ∃ t, l.next = .ok t ∧ l.Tests code t ∧ Arrives code b.continuelist t

/-- The blocks that are loops belong to the loops that enclose a part. -/
inductive Due (code : List Ins) : List BlockCnt → List Loop → Prop where
  | done : Due code [] []
  | scope {b : BlockCnt} {bl : List BlockCnt} {env : List Loop} : b.isbreakable = false →
      Due code bl env → Due code (b :: bl) env
  | loop {b : BlockCnt} {bl : List BlockCnt} {l : Loop} {env : List Loop} :
      b.isbreakable = true → l.Gets code b → Due code bl env → Due code (b :: bl) (l :: env)

/-- What later joins a list is due with it. -/
theorem Due.of_longer {bl bl' : List BlockCnt} {env : List Loop} (h : Due code bl' env)
    (hlonger : Longer bl bl') : Due code bl env := by
  induction hlonger generalizing env with
  | nil => exact h
  | cons hgrows _ ih =>
    cases h with
    | scope hb h => exact .scope (hgrows.loop.symm.trans hb) (ih h)
    | loop hb hgets h =>
      obtain ⟨⟨t, ht, hbreak⟩, t', ht', htest, hcont⟩ := hgets
      exact .loop (hgrows.loop.symm.trans hb)
        ⟨⟨t, ht, hbreak.mono hgrows.breaks⟩, t', ht', htest, hcont.mono hgrows.continues⟩ (ih h)

theorem Due.scopes {scopes bl : List BlockCnt} {env : List Loop} (h : Due code bl env)
    (hscopes : ∀ s ∈ scopes, Scope s) : Due code (scopes ++ bl) env := by
  induction scopes with
  | nil => exact h
  | cons s scopes ih =>
    obtain ⟨hs, hscopes⟩ := List.forall_mem_cons.1 hscopes
    exact .scope hs.loop (ih hscopes)

/-- The block of a loop that encloses a part, and the loop. -/
theorem Due.get {left bl : List BlockCnt} {b : BlockCnt} {env : List Loop}
    (h : Due code (left ++ b :: bl) env) (hb : b.isbreakable = true) :
    ∃ l, env[loops left]? = some l ∧ l.Gets code b := by
  induction left generalizing env with
  | nil =>
    cases h with
    | scope hb' => cases hb.symm.trans hb'
    | loop _ hgets => exact ⟨_, rfl, hgets⟩
  | cons s left ih =>
    cases h with
    | scope hs h =>
      obtain ⟨l, hl, hgets⟩ := ih h
      refine ⟨l, ?_, hgets⟩
      rw [loops, List.countP_cons_of_neg (by simp [hs])]
      exact hl
    | loop hs _ h =>
      obtain ⟨l, hl, hgets⟩ := ih h
      refine ⟨l, ?_, hgets⟩
      rw [loops, List.countP_cons_of_pos (by simp [hs])]
      exact hl

/-- The final code does what a stage relies on, inside loops. -/
structure Future (code : List Ins) (env : List Loop) (S : Stage) : Prop extends
    toKnown : S.Known code where
  due : Due code S.fs.bl env

section future

variable {env : List Loop} {S S' : Stage} {held : List (List Nat)}

/-- What becomes of the jumps of a later stage becomes of those of the earlier one. -/
theorem Future.before (h : Future code env S') (hS : ∃ L, S.Lists L) (hmoves : Moves S S') :
    Future code env S :=
  ⟨h.toKnown.before hS hmoves.step, h.due.of_longer hmoves.blocks⟩

theorem Future.of_held (h : Future code env ⟨fs, 0, held⟩) : Future code env ⟨fs, 0, []⟩ := by
  have hknown : Stage.Known ⟨fs, 0, [] ++ held⟩ code := h.toKnown
  exact ⟨hknown.of_held, h.due⟩

/-- Behind the body of a block that is no loop. -/
theorem Future.leave {s : BlockCnt} {previous : List BlockCnt} (hs : Scope s)
    (hbl : fs.bl = s :: previous) (hS : ∃ L, Lists ⟨fs, 0, held⟩ L)
    (h : Future code env ⟨leaveblock fs, 0, held⟩) : Future code env ⟨fs, 0, held⟩ := by
  have hdue := h.due
  rw [bl_leaveblock hbl] at hdue
  refine ⟨h.toKnown.before hS (hs.step_leaveblock hbl held), ?_⟩
  rw [hbl]
  exact .scope hs.loop hdue

/-- Behind the body of a loop. -/
theorem Future.leave_loop {start : FuncState} {next : Nat} {l : Loop}
    (hloop : LoopCode fs start fs2 fs' next held) (hS : ∃ L, Lists ⟨fs2, 0, held⟩ L)
    (hafter : l.after = .ok fs'.pc) (hnext : l.next = .ok next) (htest : l.Tests code next)
    (h : Future code env ⟨fs', 0, []⟩) : Future code (l :: env) ⟨fs2, 0, []⟩ := by
  obtain ⟨scopes, b, previous, hbl, hscopes, hb, hlonger, hcloses⟩ := hloop.closes
  have hgets : l.Gets code b :=
    ⟨⟨_, hafter, hcloses.breaks.arrives hS h.toKnown⟩,
      ⟨_, hnext, htest, hcloses.continues.arrives hS h.toKnown⟩⟩
  have hdue : Due code fs2.bl (l :: env) := by
    rw [hbl]
    exact (Due.loop hb hgets (h.due.of_longer hlonger)).scopes hscopes
  have hall : Future code (l :: env) ⟨fs2, 0, held⟩ := ⟨h.toKnown.before hS hcloses.step, hdue⟩
  exact hall.of_held

end future

/-- The compiler comes through a part to its end, and on from there. -/
structure Toward (code : List Ins) (env : List Loop) (x : Part) (fs : FuncState) : Prop where
  lists : ∃ L, Lists ⟨fs, 0, x.held⟩ L
  future : ∃ fs', x.compile fs = .ok fs' ∧ Future code env ⟨fs', 0, []⟩

section toward

variable {env : List Loop} {body : Chunk}

/-- Into the body of a block that is no loop. -/
theorem toward_block {held : List (List Nat)} (hS : ∃ L, Lists ⟨fs, 0, held⟩ L)
    (hr : block (chunk body) fs = .ok fs') (h : Future code env ⟨fs', 0, held⟩) :
    Toward code env (.chunk body) (enterblock false fs) := by
  obtain ⟨fs2, h2, hr⟩ := bind_ok hr
  cases hr
  have hin := Chunk.moving body h2
  obtain ⟨s, previous, hbl, hs, -⟩ := hin.blocks.scope (scope_enterblock _)
  have hstart := Stage.lists_step hS (step_enter false fs held)
  have hend := Stage.lists_step hstart (hin.step.frame held)
  exact ⟨Stage.lists_of_held hstart, fs2, h2, (h.leave hs hbl hend).of_held⟩

/-- Into the body of a loop. -/
theorem toward_loop {start : FuncState} {next : Nat} {l : Loop} {held : List (List Nat)}
    (hS : ∃ L, Lists ⟨fs, 0, []⟩ L) (h2 : chunk body start = .ok fs2)
    (hloop : LoopCode fs start fs2 fs' next held) (hafter : l.after = .ok fs'.pc)
    (hnext : l.next = .ok next) (htest : l.Tests code next) (h : Future code env ⟨fs', 0, []⟩) :
    Toward code (l :: env) (.chunk body) start := by
  have hstart := Stage.lists_step hS hloop.enter
  have hend := Stage.lists_step hstart ((Chunk.moving body h2).step.frame held)
  exact ⟨Stage.lists_of_held hstart, fs2, h2, h.leave_loop hloop hend hafter hnext htest⟩

/-- Through a `for` loop, from its body outwards. -/
theorem toward_for {vars names : List String} {isnum : Bool} {r : FuncState × List Nat} {l : Loop}
    (hS : ∃ L, Lists ⟨fs, 0, []⟩ L) (hstart : forStart vars names isnum fs = .ok r)
    (hr : forstat vars names isnum (chunk body) fs = .ok fs') (hafter : l.after = .ok fs'.pc)
    (hnext : ∀ fs2, chunk body r.1 = .ok fs2 → l.next = .ok (forNext fs2))
    (htest : ∀ t, (∃ i vars, code[t]? = some i ∧ i.op = .forloop vars) → l.Tests code t)
    (h : Future code env ⟨fs', 0, []⟩) : Toward code (l :: env) (.chunk body) r.1 := by
  obtain ⟨r', fs2, hstart', h2, hloop, hforloop⟩ := loopCode_forstat (Chunk.moving body) hr
  cases hstart.symm.trans hstart'
  obtain ⟨L, hL⟩ := hS
  obtain ⟨i, vars', hi, hop⟩ := hforloop L hL
  obtain ⟨j, hj, hshape, -⟩ := h.kept _ _ hi
  have hat := htest (forNext fs2) ⟨j, vars', hj, (congrArg Ins.op hshape).trans hop⟩
  exact toward_loop ⟨L, hL⟩ h2 hloop hafter (hnext fs2 h2) hat h

/-- At the end of a function all is done. -/
theorem future_close_func {new : List Var}
    (h : Moves ⟨adjustlocalvars new open_func, 0, []⟩ ⟨fs, 0, []⟩) :
    Future (close_func fs).code [] ⟨fs, 0, []⟩ := by
  refine ⟨known_close_func h, ?_⟩
  rw [bl_function h]
  exact .done

/-- Whatever part the compiler comes to, the final code does what is relied on there. -/
theorem Comes.toward {params : List String} {c : Chunk} {final : FuncState} {x : Part}
    (h : Comes params c env x fs) (hf : funcBody params c = .ok final) :
    Toward final.code env x fs := by
  induction h with
  | body hnew =>
    obtain ⟨new, hnew', hf⟩ := bind_ok hf
    cases hnew.symm.trans hnew'
    obtain ⟨fs1, h1, hf⟩ := bind_ok hf
    cases hf
    exact ⟨⟨[], listed_nil⟩, fs1, h1, future_close_func (Chunk.moving c h1)⟩
  | first _ ih =>
    obtain ⟨hlists, fs', hr, hfuture⟩ := ih
    obtain ⟨fs1, h1, hr⟩ := bind_ok hr
    have hend := Stage.lists_step hlists (Stat.moving _ h1).step
    exact ⟨hlists, fs1, h1, hfuture.before hend (Chunk.moving _ hr)⟩
  | next _ hs ih =>
    obtain ⟨hlists, fs', hr, hfuture⟩ := ih
    obtain ⟨fs1, h1, hr⟩ := bind_ok hr
    cases hs.symm.trans h1
    exact ⟨Stage.lists_step hlists (Stat.moving _ h1).step, fs', hr, hfuture⟩
  | dostat _ ih =>
    obtain ⟨hlists, fs', hr, hfuture⟩ := ih
    exact toward_block hlists hr hfuture
  | whilestat _ ih =>
    obtain ⟨hlists, fs', hr, hfuture⟩ := ih
    obtain ⟨fs2, h2, hloop⟩ := loopCode_whilestat (Chunk.moving _) hr
    exact toward_loop hlists h2 hloop (congrArg (Except.map _) hr) rfl trivial hfuture
  | repeatstat _ ih =>
    obtain ⟨hlists, fs', hr, hfuture⟩ := ih
    obtain ⟨fs2, h2, hloop⟩ := loopCode_repeatstat (Chunk.moving _) hr
    exact toward_loop hlists h2 hloop (congrArg (Except.map _) hr) (congrArg (Except.map _) h2)
      trivial hfuture
  | fornum _ hr ih =>
    obtain ⟨hlists, fs', hr', hfuture⟩ := ih
    exact toward_for hlists hr hr' (congrArg (Except.map _) hr')
      (fun fs2 h2 => bind_of_ok hr (congrArg (Except.map _) h2)) (fun _ ht => ht) hfuture
  | forlist _ hr ih =>
    obtain ⟨hlists, fs', hr', hfuture⟩ := ih
    exact toward_for hlists hr hr' (congrArg (Except.map _) hr')
      (fun fs2 h2 => bind_of_ok hr (congrArg (Except.map _) h2)) (fun _ ht => ht) hfuture
  | ifstat _ ih =>
    obtain ⟨hlists, fs', hr, hfuture⟩ := ih
    exact ⟨Stage.lists_step hlists Stage.step_nil, fs', hr, hfuture⟩
  | @selectstat _ names values body rest fs _ ih =>
    obtain ⟨hlists, fs', hr, hfuture⟩ := ih
    obtain ⟨fs2, harms, rfl⟩ := selectstat_branch hr
    have hin := moves_branch (Chunk.moving body) (Arms.moving rest) harms
    obtain ⟨s, previous, hbl, hs, -⟩ := leave_select hin
    have hstart := Stage.lists_step hlists (moves_selectStart names fs).1
    exact ⟨hstart, fs2, harms, hfuture.leave hs hbl (Stage.lists_step hstart hin.step)⟩
  | @armBody _ head body rest escapelist fs _ ih =>
    obtain ⟨hlists, fs', hr, hfuture⟩ := ih
    obtain ⟨r, h1, hr⟩ := bind_ok hr
    have harm := Stage.lists_step hlists (moves_arm (Chunk.moving body) h1 escapelist).step
    have hrest := hfuture.before harm (Arms.moving rest hr)
    obtain ⟨fs1, hblock, h1⟩ := bind_ok h1
    cases h1
    have hhead := ((moves_headJump head fs).frame [escapelist]).step.trans (Stage.step_swap _ _)
    exact toward_block (Stage.lists_step hlists hhead) hblock hrest
  | armRest _ h1 ih =>
    obtain ⟨hlists, fs', hr, hfuture⟩ := ih
    obtain ⟨r, h1', hr⟩ := bind_ok hr
    cases h1.symm.trans h1'
    exact ⟨Stage.lists_step hlists (moves_arm (Chunk.moving _) h1 _).step, fs', hr, hfuture⟩
  | @otherwise _ body escapelist flist fs _ ih =>
    obtain ⟨hlists, fs', hr, hfuture⟩ := ih
    obtain ⟨fs1, h1, hr⟩ := bind_ok hr
    cases hr
    have hstart := Stage.lists_step hlists (moves_nextArm escapelist flist fs).step
    have hend := Stage.lists_step hstart ((Moving.block (Chunk.moving body) h1).frame [_]).step
    exact toward_block hstart h1 (hfuture.before hend (.of_bl (Stage.step_patchtohere _ 0) rfl))
  | @arm _ head body rest escapelist flist fs _ ih =>
    obtain ⟨hlists, fs', hr, hfuture⟩ := ih
    exact ⟨Stage.lists_step hlists (moves_nextArm escapelist flist fs).step, fs', hr, hfuture⟩

end toward

/-! ## The jumps -/

/-- The instruction at `q` is a jump to `t`, or to where a jump that stands at `t` goes. -/
def GoesTo (code : List Ins) (q t : Nat) : Prop :=
  ∃ i d, code[q]? = some i ∧ i.op = .jmp ∧ i.dest = some d ∧
    (d = t ∨ ∃ j, code[t]? = some j ∧ j.op = .jmp ∧ j.dest = some d)

theorem GoesTo.of_arrives {list : List Nat} {q t : Nat} (h : Arrives code list t) (hq : q ∈ list)
    {i : Ins} (hi : code[q]? = some i) (hop : i.op = .jmp) : GoesTo code q t := by
  obtain ⟨d, hd, ht⟩ := h
  have hdest := hd q hq
  rw [destAt, hi] at hdest
  exact ⟨i, d, hi, hop, hdest, ht⟩

/-- The search of a `break n` finds the `n`-th loop that encloses it in the function, and without
one the function does not compile. -/
theorem breakstat_counts {params : List String} {c : Chunk} {env : List Loop} {n : Nat}
    (h : Comes params c env (.chunk (.breakstat n)) fs) :
    (1 ≤ n ∧ n ≤ env.length → ∃ left b outer, breakBlocks n fs.bl = (left, b :: outer) ∧
        fs.bl = left ++ b :: outer ∧ b.isbreakable = true ∧ loops left + 1 = n) ∧
      (¬ (1 ≤ n ∧ n ≤ env.length) → funcBody params c = .error "no loop to break") := by
  have hnil := breakBlocks_nil_iff n fs.bl
  have happend := breakBlocks_append n fs.bl
  have hcount := breakBlocks_loops n fs.bl
  have hloop : ∀ b outer, (breakBlocks n fs.bl).2 = b :: outer → b.isbreakable = true :=
    fun _ _ => breakBlocks_loop n fs.bl
  rw [h.loops] at hnil
  rcases hb : breakBlocks n fs.bl with ⟨left, _ | ⟨b, outer⟩⟩
  · rw [hb] at hnil
    have hfew := hnil.1 rfl
    refine ⟨fun hn => absurd (by omega) hfew, fun _ => h.error ?_⟩
    rw [Part.compile, chunk, breakstat, hb]
  · rw [hb] at hnil happend hcount hloop
    have henough : 1 ≤ (n : Int) ∧ (n : Int) ≤ env.length := by
      by_contra hfew
      cases hnil.2 hfew
    have hn : (loops left : Int) + 1 = n := hcount (List.cons_ne_nil _ _)
    refine ⟨fun _ => ?_, fun hfew => absurd (by omega) hfew⟩
    exact ⟨left, b, outer, rfl, happend.symm, hloop b outer rfl, by omega⟩

/-- `while a do while b do break 2 end end`. -/
def breakOuter : Chunk :=
  .seq (.whilestat (.test []) (.seq (.whilestat (.test []) (.breakstat 2)) .done)) .done

theorem breakstat_counts_breakOuter : ∃ (fs : FuncState) (left : List BlockCnt) (b : BlockCnt)
    (outer : List BlockCnt),
    fs.bl.map (·.isbreakable) = [false, true, false, true] ∧
      breakBlocks 2 fs.bl = (left, b :: outer) ∧ b.isbreakable = true ∧ loops left + 1 = 2 :=
  have hcomes : Comes [] breakOuter _ (.chunk (.breakstat 2)) _ :=
    .whilestat (.first (.whilestat (.first (.body rfl))))
  let ⟨left, b, outer, hb, _, hloop, hcount⟩ := (breakstat_counts hcomes).1 (by decide)
  ⟨_, left, b, outer, rfl, hb, hloop, hcount⟩

section lands

variable {env : List Loop} {left outer : List BlockCnt} {b : BlockCnt}

/-- The jump that `closeJump` leaves is the last instruction. -/
theorem closeJump_last (left : List BlockCnt) (level : Nat) (fs : FuncState) :
    (closeJump left level fs).1.pc - 1 ∈ (closeJump left level fs).2 ∧
      ∃ i, (closeJump left level fs).1.code[(closeJump left level fs).1.pc - 1]? = some i ∧
        i.op = .jmp := by
  unfold closeJump
  generalize (if left.any (·.upval) then luaK_code (.close level) [] fs else fs) = fs
  have hpc : (luaK_jump fs).1.pc = fs.pc + 1 := pc_luaK_code .jmp [] { fs with jpc := [] }
  rw [hpc, Nat.add_sub_cancel]
  exact ⟨List.mem_cons_self, _, Stage.getElem?_luaK_code .jmp [] { fs with jpc := [] }, rfl⟩

/-- A jump out of blocks goes where the block of its target says. -/
theorem goesTo_closeJump {level : Nat} {list : List Nat} {t : Nat}
    (hkept : Kept (closeJump left level fs).1.code code)
    (h : Arrives code (list ++ (closeJump left level fs).2) t) :
    GoesTo code ((closeJump left level fs).1.pc - 1) t := by
  obtain ⟨hmem, i, hi, hop⟩ := closeJump_last left level fs
  obtain ⟨j, hj, hshape, -⟩ := hkept _ _ hi
  exact .of_arrives h (List.mem_append_right _ hmem) hj ((congrArg Ins.op hshape).trans hop)

/-- A `break` lands behind the loop that its number says. -/
theorem breakstat_lands {n : Nat} (hr : breakstat n fs = .ok fs')
    (h : Future code env ⟨fs', 0, []⟩) : ∃ l t, env[n - 1]? = some l ∧ l.after = .ok t ∧
      GoesTo code (fs'.pc - 1) t := by
  unfold breakstat at hr
  have hcount := breakBlocks_loops n fs.bl
  have hloop : ∀ b outer, (breakBlocks n fs.bl).2 = b :: outer → b.isbreakable = true :=
    fun _ _ => breakBlocks_loop n fs.bl
  rcases hb : breakBlocks n fs.bl with ⟨left, _ | ⟨b, outer⟩⟩
  · rw [hb] at hr
    cases hr
  · rw [hb] at hr hcount hloop
    cases hr
    have hn : (loops left : Int) + 1 = n := hcount (List.cons_ne_nil _ _)
    have hkept := h.kept
    obtain ⟨l, hl, ⟨t, ht, harrives⟩, -⟩ := h.due.get (hloop b outer rfl)
    have hindex : n - 1 = loops left := by omega
    rw [hindex]
    exact ⟨l, t, hl, ht, goesTo_closeJump hkept harrives⟩

/-- A `continue` lands where the innermost loop continues. -/
theorem continuestat_lands (hr : continuestat fs = .ok fs') (h : Future code env ⟨fs', 0, []⟩) :
    ∃ l t, env.head? = some l ∧ l.next = .ok t ∧ l.Tests code t ∧ GoesTo code (fs'.pc - 1) t := by
  unfold continuestat at hr
  have hloop := List.head?_dropWhile_not (fun bl : BlockCnt => !bl.isbreakable) fs.bl
  have hleft : loops (fs.bl.takeWhile fun bl => !bl.isbreakable) = 0 := by
    apply List.countP_eq_zero.2
    intro b hb
    have hscope := List.all_eq_true.1 List.all_takeWhile b hb
    simpa using hscope
  rw [List.span_eq_takeWhile_dropWhile] at hr
  rcases hd : fs.bl.dropWhile fun bl => !bl.isbreakable with _ | ⟨b, outer⟩
  · rw [hd] at hr
    cases hr
  · rw [hd] at hr hloop
    cases hr
    have hb : b.isbreakable = true := by simpa using hloop
    have hkept := h.kept
    obtain ⟨l, hl, -, t, ht, htest, harrives⟩ := h.due.get hb
    rw [hleft, ← List.head?_eq_getElem?] at hl
    exact ⟨l, t, hl, ht, htest, goesTo_closeJump hkept harrives⟩

end lands

/-- Where the jumps of a finished function go. -/
structure JumpsLand (params : List String) (c : Chunk) (final : FuncState) : Prop where
  /-- No jump waits, and nothing but a jump has a target. -/
  done : Listed [] final.code
  /-- From any part on, instructions and targets that are set stay, the jumps that wait for the
  next instruction arrive there, and every other list goes to one place. -/
  patched : ∀ {env : List Loop} {x : Part} {fs : FuncState}, Comes params c env x fs →
    Kept fs.code final.code ∧ Owes ⟨fs, 0, x.held⟩ final.code
  /-- `break n` goes behind the `n`-th loop that encloses it. -/
  breaks : ∀ {env : List Loop} {n : Nat} {fs : FuncState},
    Comes params c env (.chunk (.breakstat n)) fs → ∃ fs' l t, breakstat n fs = .ok fs' ∧
      env[n - 1]? = some l ∧ l.after = .ok t ∧ GoesTo final.code (fs'.pc - 1) t
  /-- `continue` goes to the next test of the innermost loop. -/
  continues : ∀ {env : List Loop} {fs : FuncState},
    Comes params c env (.chunk .continuestat) fs → ∃ fs' l t, continuestat fs = .ok fs' ∧
      env.head? = some l ∧ l.next = .ok t ∧ l.Tests final.code t ∧
        GoesTo final.code (fs'.pc - 1) t

/-- At the end no jump waits. -/
theorem listed_final {params : List String} {c : Chunk} {final : FuncState}
    (hf : funcBody params c = .ok final) : Listed [] final.code := by
  obtain ⟨new, -, hf⟩ := bind_ok hf
  obtain ⟨fs1, h1, hf⟩ := bind_ok hf
  cases hf
  have hin := Chunk.moving c h1
  have hbl : fs1.bl = [] := bl_function hin
  have hvars : Step ⟨fs1, 0, []⟩ ⟨removevars 0 fs1, 0, []⟩ := .of_same rfl rfl rfl
  have hret : Step ⟨removevars 0 fs1, 0, []⟩ ⟨close_func fs1, 0, []⟩ := Stage.step_luaK_code 0 rfl
  have hlists := ((hin.step.trans hvars).trans hret).lists [] listed_nil
  rw [Stage.Lists, Stage.lists, show (close_func fs1).bl = [] from hbl] at hlists
  exact hlists

/-- Every jump of a function lands where its statement says, in every nesting of loops, branches
and blocks. -/
theorem jumps_land {params : List String} {c : Chunk} {final : FuncState}
    (hf : funcBody params c = .ok final) : JumpsLand params c final := by
  constructor
  case done => exact listed_final hf
  case patched =>
    intro env x fs h
    obtain ⟨⟨L, hL⟩, fs', hr, hfuture⟩ := h.toward hf
    have hstep := (x.moves hr).step
    exact ⟨(hstep.kept L hL).trans hfuture.kept, hstep.owes L _ hL hfuture.kept hfuture.owes⟩
  case breaks =>
    intro env n fs h
    obtain ⟨-, fs', hr, hfuture⟩ := h.toward hf
    obtain ⟨l, t, hl, ht, hgoes⟩ := breakstat_lands hr hfuture
    exact ⟨fs', l, t, hr, hl, ht, hgoes⟩
  case continues =>
    intro env fs h
    obtain ⟨-, fs', hr, hfuture⟩ := h.toward hf
    obtain ⟨l, t, hl, ht, htest, hgoes⟩ := continuestat_lands hr hfuture
    exact ⟨fs', l, t, hr, hl, ht, htest, hgoes⟩

def breakOuterCode : FuncState where
  code := [⟨.test, [], [], some 5⟩, ⟨.test, [], [], some 0⟩, ⟨.jmp, [], [], some 5⟩,
    ⟨.jmp, [], [], some 1⟩, ⟨.jmp, [], [], some 0⟩, ⟨.ret, [], [], none⟩]
  jpc := []
  nlocvars := 0
  actvar := []
  bl := []
  breaks := [2]
  continues := []

theorem jumps_land_breakOuter : JumpsLand [] breakOuter breakOuterCode :=
  jumps_land (by decide +kernel)

end LuaFltk.Compiler
