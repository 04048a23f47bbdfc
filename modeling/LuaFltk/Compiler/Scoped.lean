import LuaFltk.Compiler.Blocks
import LuaFltk.Compiler.Statement

/-!
# Every statement keeps the scopes

One lemma for each statement function, from what it assumes of the compilers of its parts,
and from them the result for all programs by induction on the syntax tree.
-/

namespace LuaFltk.Compiler

variable {fs fs' fs'' : FuncState}

theorem bind_ok {α β : Type} {x : Except String α} {f : α → Except String β} {b : β}
    (h : (x >>= f) = .ok b) : ∃ a, x = .ok a ∧ f a = .ok b := by
  cases x with
  | error e => cases h
  | ok a => exact ⟨a, rfl, h⟩

/-! ## Expressions and conditions -/

/-- A piece of code and a list of its jumps, which may go wherever the active locals are in
scope. -/
structure Jumps (fs : FuncState) (r : FuncState × List Nat) : Prop where
  emits : Emits fs r.1
  pend : ∀ q ∈ r.2, Pend r.1 q fs.actvar

theorem Jumps.jump (h : Good fs) : Jumps fs (luaK_jump fs) := ⟨Emits.jump h, h.pend_jump⟩

/-- The jumps of a list stay as they are while the code goes on. -/
theorem Jumps.pend_after {r : FuncState × List Nat} (h : Jumps fs r) (h' : Grow r.1 fs') :
    ∀ q ∈ r.2, Pend fs' q fs.actvar := fun q hq => (h.pend q hq).grow h'

theorem Emits.then_jumps {r : FuncState × List Nat} (h : Emits fs fs') (h' : Jumps fs' r) :
    Jumps fs r :=
  ⟨h.trans h'.emits, by rw [← h.actvar]; exact h'.pend⟩

/-- An expression captures what it names, and nothing comes to life. -/
theorem Emits.codeExpr (h : Good fs) (op : Op) (names : List String) (hvars : op.vars = [])
    (hheld : op.held = []) (hclose : ∀ a, op ≠ .close a) : Emits fs (codeExpr op names fs) := by
  have hm := Emits.singlevaraux h names
  have hcaps := capsOk_singlevaraux op names fs
  have habove : ∀ w ∈ op.vars, (Compiler.singlevaraux names fs).1.nactvar ≤ w.reg := by
    rw [hvars]
    exact List.forall_mem_nil _
  have hgood := hm.good.emit hcaps hheld habove fun a ha => absurd ha (hclose a)
  exact hm.trans ⟨hgood, Ext.emit hcaps, rfl, rfl⟩

/-- A test has a jump of its own. -/
theorem Jumps.condjump (h : Good fs) {op : Op} {caps : List Var} (hcaps : CapsOk fs op caps)
    (hheld : op.held = []) (habove : ∀ w ∈ op.vars, fs.nactvar ≤ w.reg)
    (hclose : ∀ a, op ≠ .close a) : Jumps fs (condjump op caps fs) := by
  refine ⟨⟨h.emit hcaps hheld habove fun a ha => absurd ha (hclose a), Ext.emit hcaps, rfl, rfl⟩, ?_⟩
  intro q hq
  rw [List.mem_singleton.1 hq]
  exact h.pend_emit hcaps hheld

theorem Jumps.test (h : Good fs) (names : List String) :
    Jumps fs (Compiler.condjump .test (singlevaraux names fs).2 (singlevaraux names fs).1) := by
  have hm := Emits.singlevaraux h names
  exact hm.then_jumps (Jumps.condjump hm.good (capsOk_singlevaraux .test names fs)
    rfl (List.forall_mem_nil _) fun _ ha => nomatch ha)

/-- By induction on the condition. -/
theorem Jumps.goif (c : Cond) : ∀ (on : Bool) {fs : FuncState}, Good fs → Jumps fs (goif on c fs) := by
  induction c with
  | const b =>
    intro on fs h
    unfold Compiler.goif
    split
    · exact Jumps.jump h
    · exact ⟨Emits.refl h, List.forall_mem_nil _⟩
  | test names =>
    intro on fs h
    exact Jumps.test h names
  | not c ih =>
    intro on fs h
    exact ih (!on) h
  | and c d ihc ihd =>
    intro on fs h
    have hc := ihc false h
    have hd := hc.emits.then_jumps (ihd on hc.emits.good)
    have hf := hc.pend_after (ihd on hc.emits.good).emits.ext.toGrow
    unfold Compiler.goif
    cases on with
    | true =>
      have hhere := Emits.patchtohere hd.emits.good (by rw [hd.emits.actvar]; exact hf)
      exact ⟨hd.emits.trans hhere, hd.pend_after hhere.ext.toGrow⟩
    | false => exact ⟨hd.emits, List.forall_mem_append.2 ⟨hd.pend, hf⟩⟩
  | or c d ihc ihd =>
    intro on fs h
    have hc := ihc true h
    have hd := hc.emits.then_jumps (ihd on hc.emits.good)
    have ht := hc.pend_after (ihd on hc.emits.good).emits.ext.toGrow
    unfold Compiler.goif
    cases on with
    | true => exact ⟨hd.emits, List.forall_mem_append.2 ⟨hd.pend, ht⟩⟩
    | false =>
      have hhere := Emits.patchtohere hd.emits.good (by rw [hd.emits.actvar]; exact ht)
      exact ⟨hd.emits.trans hhere, hd.pend_after hhere.ext.toGrow⟩

theorem Jumps.cond (h : Good fs) (c : Cond) : Jumps fs (cond c fs) := Jumps.goif c false h

/-! ## Declarations -/

/-- Locals that are numbered on from the registers and entries in use. -/
def Numbered (nactvar nlocvars : Nat) (vars : List Var) : Prop :=
  ∀ (r : Nat) (v : Var), vars[r]? = some v → v.reg = nactvar + r ∧ v.id = nlocvars + r

/-- New locals get the next registers and numbers. -/
theorem numbered_new_localvars {names : List (Option String)} {new : List Var}
    (h : new_localvars names fs = .ok new) : Numbered fs.nactvar fs.nlocvars new := by
  unfold new_localvars at h
  split at h
  · cases h
  · cases h
    intro r v hr
    rw [List.getElem?_mapIdx] at hr
    obtain ⟨name, -, rfl⟩ := Option.map_eq_some_iff.1 hr
    exact ⟨rfl, rfl⟩

/-- They get the names in order. -/
theorem name_new_localvars {names : List (Option String)} {new : List Var}
    (h : new_localvars names fs = .ok new) {r : Nat} {v : Var} (hr : new[r]? = some v) :
    names[r]? = some v.name := by
  unfold new_localvars at h
  split at h
  · cases h
  · cases h
    rw [List.getElem?_mapIdx] at hr
    obtain ⟨name, hname, rfl⟩ := Option.map_eq_some_iff.1 hr
    exact hname

section Adjust

variable {vars : List Var}

theorem Numbered.id (h : Numbered fs.nactvar fs.nlocvars vars) {v : Var} (hv : v ∈ vars) :
    fs.nlocvars ≤ v.id ∧ v.id < fs.nlocvars + vars.length := by
  obtain ⟨r, hr⟩ := List.getElem?_of_mem hv
  have hlt := (List.getElem?_eq_some_iff.1 hr).1
  have hid := (h r v hr).2
  omega

theorem Numbered.reg (h : Numbered fs.nactvar fs.nlocvars vars) {v : Var} (hv : v ∈ vars) :
    fs.nactvar ≤ v.reg := by
  obtain ⟨r, hr⟩ := List.getElem?_of_mem hv
  have hreg := (h r v hr).1
  omega

theorem Grow.adjust (h : Numbered fs.nactvar fs.nlocvars vars) :
    Grow fs (adjustlocalvars vars fs) where
  shape := List.prefix_refl _
  breaks _ hq := hq
  continues _ hq := hq
  free v hv := by
    refine ⟨Nat.lt_add_right _ hv.1, fun hmem => ?_, hv.2.2⟩
    rcases List.mem_append.1 hmem with hold | hnew
    · exact hv.2.1 hold
    · have hid := (h.id hnew).1
      have hlt := hv.1
      omega

/-- A new local belongs to the innermost block. -/
theorem owner_new (h : Sound fs) (hn : Numbered fs.nactvar fs.nlocvars vars) {v : Var}
    (hv : v ∈ vars) : owner fs.bl v.reg = fs.bl.head?.map fun b => (b.upval, b.isbreakable) := by
  have hreg := hn.reg hv
  cases hbl : fs.bl with
  | nil => rfl
  | cons b previous =>
    have hlevel := (h.blocks b (by rw [hbl]; exact List.mem_cons_self)).level
    exact owner_of_level (by omega)

/-- New locals are added behind the active ones. -/
theorem Sound.adjust (h : Sound fs) (hn : Numbered fs.nactvar fs.nlocvars vars)
    (hmarked : ∀ p, ∀ v ∈ vars, Captures fs.shape p v → Marked fs.bl v.reg)
    (hhead : ∀ v ∈ vars, v.name.isSome → ∀ b, fs.bl.head? = some b → b.isbreakable = false) :
    Sound (adjustlocalvars vars fs) := by
  have hg := Grow.adjust hn
  constructor
  case regs =>
    intro r v hr
    have hr' : (fs.actvar ++ vars)[r]? = some v := hr
    rcases Nat.lt_or_ge r fs.actvar.length with hlt | hge
    · rw [List.getElem?_append_left hlt] at hr'
      exact h.regs r v hr'
    · rw [List.getElem?_append_right hge] at hr'
      have hreg := (hn _ v hr').1
      rw [FuncState.nactvar] at hreg
      omega
  case ids =>
    intro v hv
    show v.id < fs.nlocvars + vars.length
    rcases List.mem_append.1 hv with hold | hnew
    · exact Nat.lt_add_right _ (h.ids v hold)
    · exact (hn.id hnew).2
  case caps => exact h.caps
  case above => exact h.above
  case flow => exact fun q i t hi ht => (h.flow q i t hi ht).grow hg
  case jumps =>
    intro q i d hi hd
    obtain ⟨t, ht, hedge⟩ := h.jumps q i d hi hd
    have hq : q < fs.pc := (List.getElem?_eq_some_iff.1 hi).1
    exact ⟨t, ht, hedge.grow hg hq (lt_pc ht)⟩
  case blocks =>
    intro b hb
    have hgood := h.blocks b hb
    have hlevel := hgood.level
    apply hgood.grow hg
    · show b.nactvar ≤ (fs.actvar ++ vars).length
      rw [List.length_append]
      exact Nat.le_add_right_of_le hlevel
    · exact List.take_append_of_le_length hlevel
  case sorted => exact h.sorted
  case marked =>
    intro p v hp hv
    rcases List.mem_append.1 hv with hold | hnew
    · exact h.marked p v hp hold
    · exact hmarked p v hnew hp
  case owned =>
    intro v hv hname upval loop ho
    rcases List.mem_append.1 hv with hold | hnew
    · exact h.owned v hold hname upval loop ho
    · have ho' : owner fs.bl v.reg = some (upval, loop) := ho
      rw [owner_new h hn hnew] at ho'
      obtain ⟨b, hb, heq⟩ := Option.map_eq_some_iff.1 ho'
      cases heq
      exact hhead v hnew hname b hb

/-- The locals of a loop's body become active behind the jump to its test. -/
theorem Good.adjust (h : Good fs) (hn : Numbered fs.nactvar fs.nlocvars vars)
    (hjpc : fs.jpc = [])
    (hlast : ∀ i, fs.shape.getLast? = some i → i.op = .jmp)
    (hhead : ∀ b, fs.bl.head? = some b → b.isbreakable = false) :
    Good (adjustlocalvars vars fs) where
  toSound := by
    apply h.toSound.adjust hn
    · intro p v hv hp
      exact absurd (h.fresh p v hp) (by have := (hn.id hv).1; omega)
    · exact fun _ _ _ => hhead
  pending q hq := by
    have hq' : q ∈ fs.jpc := hq
    rw [hjpc] at hq'
    cases hq'
  fresh p v hp := Nat.lt_add_right _ (h.fresh p v hp)
  last i hi := by
    have hop := hlast i hi
    refine ⟨fun hf => ?_, fun a ha => ?_⟩
    · rw [hop] at hf
      cases hf
    · rw [hop] at ha
      cases ha

/-- The instruction that declares locals, which are active behind it. A closure in it may
capture them. -/
theorem Good.declare (h : Good fs) (caps : List Var)
    (hn : Numbered fs.nactvar fs.nlocvars vars)
    (hcaps : ∀ v ∈ caps, v.name.isSome ∧ Marked fs.bl v.reg ∧ (v ∈ fs.actvar ∨ v ∈ vars))
    (hhead : ∀ v ∈ vars, v.name.isSome → ∀ b, fs.bl.head? = some b → b.isbreakable = false) :
    Good (adjustlocalvars vars (luaK_code (.decl vars) caps fs)) ∧
      Ext fs (adjustlocalvars vars (luaK_code (.decl vars) caps fs)) := by
  have hok : CapsOk fs (.decl vars) caps := by
    intro v hv
    obtain ⟨hname, hm, hmem⟩ := hcaps v hv
    exact ⟨hname, hmem.imp (fun hact => ⟨hact, hm⟩) fun hnew => ⟨hnew, (hn.id hnew).1⟩⟩
  have hsound : Sound (luaK_code (.decl vars) caps fs) :=
    h.toSound.emit hok (h.fits _ _ fun _ hw => hn.reg hw)
  have hn' : Numbered (luaK_code (.decl vars) caps fs).nactvar
      (luaK_code (.decl vars) caps fs).nlocvars vars := hn
  refine ⟨⟨hsound.adjust hn' ?_ hhead, List.forall_mem_nil _, ?_, ?_⟩, ?_⟩
  · intro p v hv hp
    rw [shape_luaK_code] at hp
    rcases captures_append hp with hold | ⟨-, hnew⟩
    · exact absurd (h.fresh p v hold) (by have := (hn.id hv).1; omega)
    · exact (hcaps v hnew).2.1
  · intro p v hp
    have hp' : Captures (luaK_code (.decl vars) caps fs).shape p v := hp
    show v.id < fs.nlocvars + vars.length
    rw [shape_luaK_code] at hp'
    rcases captures_append hp' with hold | ⟨-, hnew⟩
    · exact Nat.lt_add_right _ (h.fresh p v hold)
    · rcases (hcaps v hnew).2.2 with hact | hv
      · exact Nat.lt_add_right _ (h.ids v hact)
      · exact (hn.id hv).2
  · intro i hi
    have hi' : (luaK_code (.decl vars) caps fs).shape.getLast? = some i := hi
    rw [shape_luaK_code, List.getLast?_concat] at hi'
    cases hi'
    exact ⟨fun _ => Drops.refl _ _, fun a ha => nomatch ha⟩
  · exact (Ext.emit hok).then_grow (by rw [pc_luaK_code]; omega) (Grow.adjust hn')

end Adjust

/-! ## Blocks -/

/-- A piece of code that may declare locals and leaves the blocks as they are. -/
structure Compiled (fs fs' : FuncState) : Prop where
  good : Good fs'
  ext : Ext fs fs'
  actvar : fs.actvar <+: fs'.actvar
  blocks : fs'.bl.map BlockCnt.key = fs.bl.map BlockCnt.key

theorem Emits.compiled (h : Emits fs fs') : Compiled fs fs' :=
  ⟨h.good, h.ext, by rw [h.actvar], h.blocks⟩

theorem Compiled.trans (h : Compiled fs fs') (h' : Compiled fs' fs'') : Compiled fs fs'' where
  good := h'.good
  ext := h.ext.trans h'.ext
  actvar := h.actvar.trans h'.actvar
  blocks := h'.blocks.trans h.blocks

/-- The innermost block is no loop, as where statements stand. -/
def Plain (fs : FuncState) : Prop := ∀ b, fs.bl.head? = some b → b.isbreakable = false

/-- The block of a body is no loop. -/
theorem plain_enterblock (fs : FuncState) : Plain (enterblock false fs) := by
  intro b hb
  cases hb
  rfl

theorem Plain.of_keys (h : Plain fs) (hk : fs'.bl.map BlockCnt.key = fs.bl.map BlockCnt.key) :
    Plain fs' := by
  intro b hb
  have hhead := congrArg List.head? hk
  rw [List.head?_map, List.head?_map, hb] at hhead
  obtain ⟨b', hb', heq⟩ := Option.map_eq_some_iff.1 hhead.symm
  have hkey : b'.isbreakable = b.isbreakable := congrArg Prod.snd heq
  rw [← hkey]
  exact h b' hb'

/-- The compiler of a body. -/
def Compiles (body : Compile) : Prop :=
  ∀ {fs fs' : FuncState}, Good fs → Plain fs → body fs = .ok fs' → Compiled fs fs'

theorem cons_of_keys {l : List BlockCnt} {k : Nat × Bool} {ks : List (Nat × Bool)}
    (h : l.map BlockCnt.key = k :: ks) : ∃ b previous, l = b :: previous ∧
      b.nactvar = k.1 ∧ b.isbreakable = k.2 ∧ previous.map BlockCnt.key = ks := by
  obtain ⟨b, previous, rfl, rfl, hks⟩ := List.map_eq_cons_iff.1 h
  exact ⟨b, previous, rfl, rfl, rfl, hks⟩

/-- Leaving the block that was entered at `fs` restores the locals of `fs`. -/
theorem Compiled.leaveblock {isbreakable : Bool}
    (h : Compiled (enterblock isbreakable fs) fs') : Emits fs (leaveblock fs') := by
  obtain ⟨b, previous, hbl, hlevel, -, hkeys⟩ := cons_of_keys h.blocks
  refine ⟨h.good.leaveblock hbl, ?_, ?_, ?_⟩
  · exact ((Ext.enterblock isbreakable fs).trans h.ext).trans (Ext.leaveblock h.good hbl)
  · rw [actvar_leaveblock hbl, hlevel]
    exact (List.prefix_iff_eq_take.1 h.actvar).symm
  · rw [bl_leaveblock hbl]
    exact hkeys

/-- A block around a body. -/
theorem Emits.block {body : Compile} (hbody : Compiles body) (h : Good fs)
    (hr : block body fs = .ok fs') : Emits fs fs' := by
  obtain ⟨fs1, h1, hr⟩ := bind_ok hr
  cases hr
  exact (hbody (h.enterblock false) (plain_enterblock fs) h1).leaveblock

/-! ## Loops -/

theorem actvar_patchlist (list : List Nat) (target : Nat) (fs : FuncState) :
    (luaK_patchlist list target fs).actvar = fs.actvar := by
  unfold luaK_patchlist
  split <;> rfl

theorem bl_patchlist (list : List Nat) (target : Nat) (fs : FuncState) :
    (luaK_patchlist list target fs).bl = fs.bl := by
  unfold luaK_patchlist
  split <;> rfl

/-- Jumps back to a label land in the scope of the label. -/
theorem Emits.patchlist {list : List Nat} (hlabel : Good fs) (h : Good fs') (hext : Ext fs fs')
    (hlist : ∀ q ∈ list, Pend fs' q fs.actvar) :
    Emits fs' (luaK_patchlist list (luaK_getlabel fs) fs') :=
  ⟨hlabel.patchlist h hext hlist, Ext.patchlist _ _ _, actvar_patchlist _ _ _,
    congrArg _ (bl_patchlist _ _ _)⟩

/-- The `continue` jumps of a loop, seen where its locals are active again. -/
theorem pend_continuelist {ks : List (Nat × Bool)} {level : Nat} {loop : Bool} (h : Good fs)
    (hk : fs.bl.map BlockCnt.key = (level, loop) :: ks) :
    ∀ q ∈ continuelist fs, q ∈ fs.continues ∧ Pend fs q (fs.actvar.take level) := by
  obtain ⟨b, previous, hbl, hlevel, -, -⟩ := cons_of_keys hk
  intro q hq
  have hgood := h.blocks b (by rw [hbl]; exact List.mem_cons_self)
  unfold continuelist at hq
  rw [hbl] at hq
  have hp := hgood.continues q hq
  rw [hlevel] at hp
  exact hp

theorem take_nactvar (fs : FuncState) : fs.actvar.take fs.nactvar = fs.actvar :=
  List.take_length

/-- The condition and the body of a `while` loop, and the jump back. -/
theorem Emits.whilestat {c : Cond} {body : Compile} (hbody : Compiles body) (h : Good fs)
    (hr : whilestat c body fs = .ok fs') : Emits fs fs' := by
  obtain ⟨fs2, h2, hr⟩ := bind_ok hr
  cases hr
  have hcond := Jumps.cond h c
  have hin := Emits.block hbody (hcond.emits.good.enterblock true) h2
  have hjump := Jumps.jump hin.good
  have hstart : ∀ {fs4}, Emits (enterblock true (Compiler.cond c fs).1) fs4 → Ext fs fs4 :=
    fun h4 => (hcond.emits.ext.trans (Ext.enterblock true _)).trans h4.ext
  have hact : ∀ {fs4}, Emits (enterblock true (Compiler.cond c fs).1) fs4 →
      fs4.actvar = fs.actvar := fun h4 => h4.actvar.trans hcond.emits.actvar
  -- the jump back to the condition
  have h3 := hin.trans hjump.emits
  have hback : ∀ q ∈ (luaK_jump fs2).2, Pend (luaK_jump fs2).1 q fs.actvar := by
    rw [← hact hin]
    exact hjump.pend
  have h4 := h3.trans (Emits.patchlist h h3.good (hstart h3) hback)
  -- `continue` goes there, too
  have hcont : ∀ q ∈ continuelist (luaK_patchlist (luaK_jump fs2).2 (luaK_getlabel fs) (luaK_jump fs2).1),
      Pend (luaK_patchlist (luaK_jump fs2).2 (luaK_getlabel fs) (luaK_jump fs2).1) q fs.actvar := by
    intro q hq
    have hp := (pend_continuelist h4.good h4.blocks q hq).2
    rw [hact h4, ← hcond.emits.actvar] at hp
    rw [← hcond.emits.actvar]
    have htake := take_nactvar (Compiler.cond c fs).1
    exact htake ▸ hp
  have h5 := h4.trans (Emits.patchlist h h4.good (hstart h4) hcont)
  -- a false condition leaves the loop
  have hout := h5.compiled.leaveblock
  refine (hcond.emits.trans hout).trans (Emits.patchtohere hout.good ?_)
  rw [hout.actvar, hcond.emits.actvar]
  exact hcond.pend_after hout.ext.toGrow

/-- Leaving an unmarked block emits nothing, and the locals that end are free. -/
theorem drops_leaveblock (h : Good fs) {b : BlockCnt} {previous : List BlockCnt}
    (hbl : fs.bl = b :: previous) (hup : b.upval = false) :
    Drops (leaveblock fs) fs.actvar fs.actvar (leaveblock fs).actvar := by
  apply (Ext.leaveblock h hbl).same
  rw [leaveblock_eq hbl, hup]
  rfl

/-- The body of a `repeat` loop, its condition in the scope of the body, and the jump back. -/
theorem Emits.repeatstat {c : Cond} {body : Compile} (hbody : Compiles body) (h : Good fs)
    (hr : repeatstat body c fs = .ok fs') : Emits fs fs' := by
  obtain ⟨fs1, h1, hr⟩ := bind_ok hr
  have hscope := hbody ((h.enterblock true).enterblock false) (plain_enterblock _) h1
  obtain ⟨b2, rest, hbl, -, -, hkeys⟩ := cons_of_keys hscope.blocks
  obtain ⟨b1, outer, rfl, hlevel, -, -⟩ := cons_of_keys hkeys
  -- `continue` goes to the condition, where locals of the body may be in scope
  have hcont : ∀ q ∈ continuelist { fs1 with bl := fs1.bl.tail }, Pend fs1 q fs1.actvar := by
    intro q hq
    have hgood := hscope.good.blocks b1 (by rw [hbl]; simp)
    have hq' : q ∈ b1.continuelist := by
      unfold continuelist at hq
      rw [hbl] at hq
      exact hq
    obtain ⟨hmem, hp⟩ := hgood.continues q hq'
    exact hp.widen hmem (List.take_subset _ _)
  have h2 := Emits.patchtohere hscope.good hcont
  have hcond := Jumps.cond h2.good c
  have h3 := hscope.trans (h2.trans hcond.emits).compiled
  obtain ⟨b2', rest', hbl', -, -, hkeys'⟩ := cons_of_keys h3.blocks
  dsimp only at hr
  rw [hbl'] at hr
  split at hr
  · next hup =>
    cases hr
    have hup' : b2'.upval = false := by simpa using hup
    have h4 := h3.leaveblock
    have hdrops := drops_leaveblock h3.good hbl' hup'
    have hexit : ∀ q ∈ (Compiler.cond c (luaK_patchtohere (continuelist { fs1 with bl := fs1.bl.tail }) fs1)).2,
        Pend (leaveblock (Compiler.cond c (luaK_patchtohere (continuelist { fs1 with bl := fs1.bl.tail }) fs1)).1) q fs.actvar := by
      intro q hq
      have hp := hcond.pend_after (Ext.leaveblock hcond.emits.good hbl').toGrow q hq
      rw [← hcond.emits.actvar] at hp
      have hp' := hp.drops hdrops
      rw [h4.actvar] at hp'
      exact hp'
    have h5 := h4.trans (Emits.patchlist h h4.good ((Ext.enterblock true fs).trans h4.ext) hexit)
    exact h5.compiled.leaveblock
  · obtain ⟨fs4, hbreak, hr⟩ := bind_ok hr
    cases hr
    have h4 := Emits.breakstat hcond.emits.good hbreak
    have hexit := hcond.pend_after h4.ext.toGrow
    rw [← hcond.emits.actvar, ← h4.actvar] at hexit
    have h5 := h3.trans (h4.trans (Emits.patchtohere h4.good hexit)).compiled
    have h6 := h5.leaveblock
    have hjump := Jumps.jump h6.good
    have h7 := h6.trans hjump.emits
    have hback := hjump.pend
    rw [h6.actvar] at hback
    have h8 := h7.trans (Emits.patchlist h h7.good ((Ext.enterblock true fs).trans h7.ext) hback)
    exact h8.compiled.leaveblock

/-- A `continue` may end in the scope that is reached now. -/
theorem pend_continuelist_here (h : Good fs) : ∀ q ∈ continuelist fs, Pend fs q fs.actvar := by
  intro q hq
  cases hbl : fs.bl with
  | nil =>
    unfold continuelist at hq
    rw [hbl] at hq
    cases hq
  | cons b previous =>
    have hk : fs.bl.map BlockCnt.key = (b.nactvar, b.isbreakable) :: previous.map BlockCnt.key := by
      rw [hbl]
      rfl
    have hp := pend_continuelist h hk q hq
    exact hp.2.widen hp.1 (List.take_subset _ _)

/-- The jump of `OP_FORLOOP` may go to where the variables of the loop are in scope. -/
theorem pend_forloop (vars : List Var) (fs : FuncState) :
    Pend (luaK_code (.forloop vars) [] fs) fs.pc (fs.actvar ++ vars) := by
  have hnew := luaK_code_getElem? (.forloop vars) [] fs
  refine ⟨_, hnew, .inr ⟨List.Subset.refl _, ?_⟩, ?_⟩
  · intro v _ ⟨p, i, j, a, _, _, _, hj, hjmp, _⟩
    rw [hnew] at hj
    cases hj
    cases hjmp
  · intro v hv hv'
    rw [Ins.held_eq rfl] at hv
    exact absurd (List.mem_append_left _ hv) hv'

/-- The first jump of a `for` loop. -/
theorem forprep_spec (h : Good fs) (isnum : Bool) :
    Jumps fs (if isnum then condjump .jmp [] fs else luaK_jump fs) ∧
      (if isnum then condjump .jmp [] fs else luaK_jump fs).1.jpc = [] ∧
      (if isnum then condjump .jmp [] fs else luaK_jump fs).1.nlocvars = fs.nlocvars ∧
      (if isnum then condjump .jmp [] fs else luaK_jump fs).1.shape =
        fs.shape ++ [⟨.jmp, fs.actvar, [], none⟩] := by
  cases isnum with
  | true =>
    refine ⟨Jumps.condjump h (capsOk_nil _ _) rfl (List.forall_mem_nil _) (fun _ ha => nomatch ha), rfl, rfl, ?_⟩
    exact shape_luaK_code .jmp [] fs
  | false => exact ⟨Jumps.jump h, rfl, rfl, shape_luaK_code .jmp [] { fs with jpc := [] }⟩

/-- The test of a `for` loop stands behind its body. -/
theorem Emits.forbody {control vars : List Var} {isnum : Bool} {body : Compile}
    (hbody : Compiles body) (h : Good (adjustlocalvars control fs))
    (hn : Numbered (adjustlocalvars control fs).nactvar (adjustlocalvars control fs).nlocvars vars)
    (hr : forbody control vars isnum body fs = .ok fs') :
    Emits (adjustlocalvars control fs) fs' := by
  unfold Compiler.forbody at hr
  generalize adjustlocalvars control fs = d at h hn hr
  obtain ⟨hprep, hjpc, hloc, hshape⟩ := forprep_spec h isnum
  dsimp only at hr
  generalize (if isnum then condjump .jmp [] d else luaK_jump d) = r at hprep hjpc hloc hshape hr
  obtain ⟨fs2, h2, hr⟩ := bind_ok hr
  cases hr
  have hpc : r.1.pc = d.pc + 1 := by
    rw [← FuncState.shape_length, hshape, List.length_append, FuncState.shape_length]
    rfl
  -- the locals of the body
  have hn' : Numbered (enterblock false r.1).nactvar (enterblock false r.1).nlocvars vars := by
    show Numbered r.1.actvar.length r.1.nlocvars vars
    rw [hprep.emits.actvar, hloc]
    exact hn
  have ha : Good (adjustlocalvars vars (enterblock false r.1)) := by
    apply (hprep.emits.good.enterblock false).adjust hn' hjpc
    · intro i hi
      have hi' : r.1.shape.getLast? = some i := hi
      rw [hshape, List.getLast?_concat] at hi'
      cases hi'
      rfl
    · exact plain_enterblock _
  have hin := Emits.block hbody ha h2
  obtain ⟨b, previous, hbl, hlevel, -, hkeys⟩ := cons_of_keys hin.blocks
  have h3 := hin.good.leaveblock hbl
  have hleave := Ext.leaveblock hin.good hbl
  have hact : (leaveblock fs2).actvar = d.actvar := by
    have hfull : (adjustlocalvars vars (enterblock false r.1)).actvar = d.actvar ++ vars := by
      show r.1.actvar ++ vars = _
      rw [hprep.emits.actvar]
    have hlevel' : b.nactvar = d.actvar.length := by
      rw [hlevel, ← hprep.emits.actvar]
      rfl
    rw [actvar_leaveblock hbl, hin.actvar, hfull, hlevel', List.take_left]
  have hgrow : Grow r.1 (leaveblock fs2) :=
    (((Ext.enterblock false r.1).toGrow.trans (Grow.adjust hn')).trans hin.ext.toGrow).trans
      hleave.toGrow
  have hbody' : Emits d (leaveblock fs2) := by
    refine ⟨h3, hprep.emits.ext.then_grow (by omega) hgrow, hact, ?_⟩
    rw [bl_leaveblock hbl, hkeys]
    exact hprep.emits.blocks
  -- the jumps to the test
  have htest := hprep.pend_after hgrow
  rw [← hact] at htest
  have h4 := hbody'.trans (Emits.patchtohere h3 htest)
  have h5 := h4.trans (Emits.patchtohere h4.good (pend_continuelist_here h4.good))
  have habove : ∀ w ∈ vars, (luaK_patchtohere (continuelist (luaK_patchtohere r.2 (leaveblock fs2)))
      (luaK_patchtohere r.2 (leaveblock fs2))).nactvar ≤ w.reg := by
    intro w hw
    rw [FuncState.nactvar, h5.actvar]
    exact hn.reg hw
  have hnot : ∀ a, Op.forloop vars ≠ .close a := by
    intro a ha
    cases ha
  have hloop := Jumps.condjump h5.good (capsOk_nil _ (.forloop vars)) rfl habove hnot
  have h6 := h5.trans hloop.emits
  -- the jump back to the body
  have hlabel : d.pc + 1 = luaK_getlabel (adjustlocalvars vars (enterblock false r.1)) := hpc.symm
  have hext : Ext (adjustlocalvars vars (enterblock false r.1)) _ :=
    (((hin.ext.trans hleave).trans (Ext.patchtohere r.2 _)).trans (Ext.patchtohere _ _)).trans
      hloop.emits.ext
  rw [hlabel]
  refine h6.trans (Emits.patchlist ha h6.good hext fun q hq => ?_)
  rw [List.mem_singleton.1 hq]
  have hp := pend_forloop vars (luaK_patchtohere (continuelist (luaK_patchtohere r.2 (leaveblock fs2)))
    (luaK_patchtohere r.2 (leaveblock fs2)))
  have hfull : (adjustlocalvars vars (enterblock false r.1)).actvar = d.actvar ++ vars := by
    show r.1.actvar ++ vars = _
    rw [hprep.emits.actvar]
  rw [hfull, ← h5.actvar]
  exact hp

/-! ## Local declarations -/

theorem actvar_prefix (vars : List Var) (fs : FuncState) :
    fs.actvar <+: (adjustlocalvars vars fs).actvar := List.prefix_append _ _

/-- A declaration whose expression cannot see the new locals. -/
theorem codeExpr_decl (vars : List Var) (h : Good fs) (names : List String)
    (hn : Numbered fs.nactvar fs.nlocvars vars)
    (hhead : ∀ v ∈ vars, v.name.isSome → ∀ b, fs.bl.head? = some b → b.isbreakable = false) :
    Compiled fs (adjustlocalvars vars (codeExpr (.decl vars) names fs)) := by
  have hm := Emits.singlevaraux h names
  have hhead' : ∀ v ∈ vars, v.name.isSome → ∀ b,
      (singlevaraux names fs).1.bl.head? = some b → b.isbreakable = false := fun v hv hname =>
    Plain.of_keys (hhead v hv hname) hm.blocks
  have hd := hm.good.declare (singlevaraux names fs).2 hn (fun v hv => ?_) hhead'
  · exact ⟨hd.1, hm.ext.trans hd.2, actvar_prefix _ _, hm.blocks⟩
  · have hok := (remarks_foldl (singlevaraux names fs).2 fs.bl).2 v hv
    exact ⟨(mem_caps hv).2, hok, .inl (mem_caps hv).1⟩

/-- The locals are given their values before they come to life. -/
theorem Compiled.localstat {vars names : List String} (h : Good fs) (hp : Plain fs)
    (hr : localstat vars names fs = .ok fs') : Compiled fs fs' := by
  obtain ⟨new, hnew, hr⟩ := bind_ok hr
  cases hr
  exact codeExpr_decl new h names (numbered_new_localvars hnew) fun _ _ _ => hp

/-- A local function may capture itself. -/
theorem Compiled.localfunc {var : String} {names : List String} (h : Good fs) (hp : Plain fs)
    (hr : localfunc var names fs = .ok fs') : Compiled fs fs' := by
  obtain ⟨new, hnew, hr⟩ := bind_ok hr
  cases hr
  have hn := numbered_new_localvars hnew
  have hremarks := remarks_foldl (singlevaraux names (adjustlocalvars new fs)).2 fs.bl
  have hmarked : Good { fs with bl := (singlevaraux names (adjustlocalvars new fs)).1.bl } :=
    h.remark hremarks.1
  have hext : Ext fs { fs with bl := (singlevaraux names (adjustlocalvars new fs)).1.bl } :=
    Ext.of_shape rfl rfl rfl (fun _ h => h) fun _ h => h
  have hplain : Plain { fs with bl := (singlevaraux names (adjustlocalvars new fs)).1.bl } :=
    hp.of_keys hremarks.1.keys
  have hd := hmarked.declare (singlevaraux names (adjustlocalvars new fs)).2 hn
    (fun v hv => ?_) fun _ _ _ => hplain
  · exact ⟨hd.1, hext.trans hd.2, actvar_prefix _ _, hremarks.1.keys⟩
  · exact ⟨(mem_caps hv).2, hremarks.2 v hv, List.mem_append.1 (mem_caps hv).1⟩

theorem numbered_take {n m k : Nat} {vars : List Var} (h : Numbered n m vars) :
    Numbered n m (vars.take k) := by
  intro r v hr
  rw [List.getElem?_take] at hr
  split at hr
  · exact h r v hr
  · cases hr

theorem numbered_drop {n m k : Nat} {vars : List Var} (h : Numbered n m vars) :
    Numbered (n + k) (m + k) (vars.drop k) := by
  intro r v hr
  rw [List.getElem?_drop] at hr
  have hv := h (k + r) v hr
  omega

/-- The control variables of a `for` loop are around its body. -/
theorem Emits.forstat {vars names : List String} {isnum : Bool} {body : Compile}
    (hbody : Compiles body) (h : Good fs) (hr : forstat vars names isnum body fs = .ok fs') :
    Emits fs fs' := by
  obtain ⟨new, hnew, hr⟩ := bind_ok hr
  obtain ⟨fs2, h2, hr⟩ := bind_ok hr
  cases hr
  have hn := numbered_new_localvars hnew
  have hlen : (new.take 3).length = 3 := by
    have hnames := congrArg List.length (show new = _ from (by
      unfold new_localvars at hnew
      split at hnew
      · cases hnew
      · cases hnew
        rfl : new = ([none, none, none] ++ vars.map some).mapIdx fun i name =>
          ⟨name, (Compiler.enterblock true fs).nlocvars + i,
            (Compiler.enterblock true fs).nactvar + i⟩))
    rw [List.length_take, hnames]
    simp
  -- the control variables have no names
  have hcontrol := codeExpr_decl (new.take 3) (h.enterblock true) names (numbered_take hn)
    fun v hv hname => by
      obtain ⟨r, hr⟩ := List.getElem?_of_mem hv
      rw [List.getElem?_take] at hr
      split at hr
      · next hlt =>
        have hnone := name_new_localvars hnew hr
        obtain rfl | rfl | rfl : r = 0 ∨ r = 1 ∨ r = 2 := by omega
        all_goals
          simp only [List.cons_append, List.getElem?_cons_zero, List.getElem?_cons_succ,
            Option.some.injEq] at hnone
          rw [← hnone] at hname
          cases hname
      · cases hr
  have hact : (Compiler.adjustlocalvars (new.take 3)
      (Compiler.codeExpr (.decl (new.take 3)) names (Compiler.enterblock true fs))).nactvar =
        (Compiler.enterblock true fs).nactvar + 3 := by
    show (fs.actvar ++ new.take 3).length = fs.actvar.length + 3
    rw [List.length_append, hlen]
  have hloc : (Compiler.adjustlocalvars (new.take 3)
      (Compiler.codeExpr (.decl (new.take 3)) names (Compiler.enterblock true fs))).nlocvars =
        (Compiler.enterblock true fs).nlocvars + 3 := by
    show fs.nlocvars + (new.take 3).length = fs.nlocvars + 3
    rw [hlen]
  have hin := Emits.forbody hbody hcontrol.good (by rw [hact, hloc]; exact numbered_drop hn) h2
  exact (hcontrol.trans hin.compiled).leaveblock

/-! ## Branches -/

theorem Jumps.headJump (h : Good fs) (head : Head) : Jumps fs (headJump head fs) := by
  cases head with
  | elseif c => exact Jumps.cond h c
  | of names => exact Jumps.test h names

/-- The head of an arm and its block. -/
theorem Jumps.armBlock {head : Head} {body : Compile} {r : FuncState × List Nat}
    (hbody : Compiles body) (h : Good fs) (hr : armBlock head body fs = .ok r) : Jumps fs r := by
  obtain ⟨fs1, h1, hr⟩ := bind_ok hr
  cases hr
  have hhead := Jumps.headJump h head
  have hin := Emits.block hbody hhead.emits.good h1
  exact ⟨hhead.emits.trans hin, hhead.pend_after hin.ext.toGrow⟩

/-- The compiler of the arms behind the first one. -/
def CompilesArms (rest : List Nat → List Nat → Compile) : Prop :=
  ∀ {escapelist flist : List Nat} {fs fs' : FuncState}, Good fs →
    (∀ q ∈ escapelist, Pend fs q fs.actvar) → (∀ q ∈ flist, Pend fs q fs.actvar) →
    rest escapelist flist fs = .ok fs' → Emits fs fs'

/-- Behind an arm all that has run goes to the end. -/
theorem Jumps.nextArm {escapelist flist : List Nat} (h : Good fs)
    (hesc : ∀ q ∈ escapelist, Pend fs q fs.actvar) (hf : ∀ q ∈ flist, Pend fs q fs.actvar) :
    Jumps fs (nextArm escapelist flist fs) := by
  have hjump := Jumps.jump h
  have hgrow := hjump.emits.ext.toGrow
  have hflist : ∀ q ∈ flist, Pend (luaK_jump fs).1 q (luaK_jump fs).1.actvar := fun q hq => by
    rw [hjump.emits.actvar]
    exact (hf q hq).grow hgrow
  have hhere := Emits.patchtohere hjump.emits.good hflist
  refine ⟨hjump.emits.trans hhere, fun q hq => ?_⟩
  rcases List.mem_append.1 hq with hq | hq
  · exact (hesc q hq).grow (hgrow.trans hhere.ext.toGrow)
  · exact (hjump.pend q hq).grow hhere.ext.toGrow

/-- The end of the arms without an `else`. -/
theorem compilesArms_lastArm :
    CompilesArms fun escapelist flist fs => .ok (lastArm escapelist flist fs) := by
  intro escapelist flist fs fs' h hesc hf hr
  cases hr
  exact Emits.patchtohere h (List.forall_mem_append.2 ⟨hesc, hf⟩)

/-- The end of the arms with one. -/
theorem compilesArms_elseArm {body : Compile} (hbody : Compiles body) :
    CompilesArms (elseArm body) := by
  intro escapelist flist fs fs' h hesc hf hr
  obtain ⟨fs1, h1, hr⟩ := bind_ok hr
  cases hr
  have hnext := Jumps.nextArm h hesc hf
  have hin := Emits.block hbody hnext.emits.good h1
  have hboth := hnext.emits.trans hin
  refine hboth.trans (Emits.patchtohere hboth.good ?_)
  rw [hboth.actvar]
  exact hnext.pend_after hin.ext.toGrow

/-- A further arm, and those behind it. -/
theorem compilesArms_arm {head : Head} {body : Compile} {rest : List Nat → List Nat → Compile}
    (hbody : Compiles body) (hrest : CompilesArms rest) :
    CompilesArms (fun escapelist flist fs => do
      let (fs, escapelist) := nextArm escapelist flist fs
      let (fs, flist) ← armBlock head body fs
      rest escapelist flist fs) := by
  intro escapelist flist fs fs' h hesc hf hr
  obtain ⟨r, h1, hr⟩ := bind_ok hr
  have hnext := Jumps.nextArm h hesc hf
  have harm := Jumps.armBlock hbody hnext.emits.good h1
  have hboth := hnext.emits.trans harm.emits
  have hesc' := hnext.pend_after harm.emits.ext.toGrow
  have hf' := harm.pend
  rw [← hboth.actvar] at hesc'
  rw [← harm.emits.actvar] at hf'
  exact hboth.trans (hrest hboth.good hesc' hf' hr)

/-- The arms of an `if` statement. -/
theorem Emits.ifstat {c : Cond} {body : Compile} {rest : List Nat → List Nat → Compile}
    (hbody : Compiles body) (hrest : CompilesArms rest) (h : Good fs)
    (hr : ifstat c body rest fs = .ok fs') : Emits fs fs' := by
  obtain ⟨r, h1, hr⟩ := bind_ok hr
  have harm := Jumps.armBlock hbody h h1
  have hf := harm.pend
  rw [← harm.emits.actvar] at hf
  exact harm.emits.trans (hrest harm.emits.good (List.forall_mem_nil _) hf hr)

/-- The arms of a `select` statement, with its value in a block of its own. -/
theorem Emits.selectstat {names values : List String} {body : Compile}
    {rest : List Nat → List Nat → Compile} (hbody : Compiles body) (hrest : CompilesArms rest)
    (h : Good fs) (hr : selectstat names values body rest fs = .ok fs') : Emits fs fs' := by
  obtain ⟨r, h1, hr⟩ := bind_ok hr
  obtain ⟨fs2, h2, hr⟩ := bind_ok hr
  cases hr
  have hsel := Emits.codeExpr (h.enterblock false) .eval names rfl rfl fun _ ha => nomatch ha
  have harm := Jumps.armBlock hbody hsel.good h1
  have hf := harm.pend
  rw [← harm.emits.actvar] at hf
  have hall := hsel.trans (harm.emits.trans
    (hrest harm.emits.good (List.forall_mem_nil _) hf h2))
  exact hall.compiled.leaveblock

/-! ## All programs -/

mutual

/-- Every statement keeps the invariant, by induction on the syntax. -/
theorem Stat.compiles : ∀ s : Stat, Compiles (statement s)
  | .exprstat names => by
    intro h _ hr
    cases hr
    exact (Emits.codeExpr h .eval names rfl rfl fun _ ha => nomatch ha).compiled
  | .localstat vars names => fun h hp hr => Compiled.localstat h hp hr
  | .localfunc var names => fun h hp hr => Compiled.localfunc h hp hr
  | .dostat body => fun h _ hr => (Emits.block (Chunk.compiles body) h hr).compiled
  | .whilestat c body => fun h _ hr => (Emits.whilestat (Chunk.compiles body) h hr).compiled
  | .repeatstat body c => fun h _ hr => (Emits.repeatstat (Chunk.compiles body) h hr).compiled
  | .fornum var names body => fun h _ hr => (Emits.forstat (Chunk.compiles body) h hr).compiled
  | .forlist vars names body => fun h _ hr => (Emits.forstat (Chunk.compiles body) h hr).compiled
  | .ifstat c body rest => fun h _ hr =>
    (Emits.ifstat (Chunk.compiles body) (Arms.compiles rest) h hr).compiled
  | .selectstat names values body rest => fun h _ hr =>
    (Emits.selectstat (Chunk.compiles body) (Arms.compiles rest) h hr).compiled

theorem Chunk.compiles : ∀ c : Chunk, Compiles (chunk c)
  | .done => by
    intro h _ hr
    cases hr
    exact (Emits.refl h).compiled
  | .retstat none => by
    intro h _ hr
    cases hr
    exact (Emits.codeExpr h .ret [] rfl rfl fun _ ha => nomatch ha).compiled
  | .retstat (some names) => by
    intro h _ hr
    cases hr
    have hvalues := Emits.codeExpr h .eval names rfl rfl fun _ ha => nomatch ha
    have hret := Emits.codeExpr hvalues.good .ret [] rfl rfl fun _ ha => nomatch ha
    exact (hvalues.trans hret).compiled
  | .breakstat n => fun h _ hr => (Emits.breakstat h hr).compiled
  | .continuestat => fun h _ hr => (Emits.continuestat h hr).compiled
  | .seq s rest => by
    intro h hp hr
    obtain ⟨fs1, h1, hr⟩ := bind_ok hr
    have hs := Stat.compiles s h hp h1
    exact hs.trans (Chunk.compiles rest hs.good (hp.of_keys hs.blocks) hr)

theorem Arms.compiles : ∀ a : Arms, CompilesArms (arms a)
  | .done => compilesArms_lastArm
  | .otherwise body => compilesArms_elseArm (Chunk.compiles body)
  | .arm _ body rest => compilesArms_arm (Chunk.compiles body) (Arms.compiles rest)

end

/-- A function begins without code and without blocks. -/
theorem good_open_func : Good open_func := by
  refine ⟨⟨?_, ?_, ?_, ?_, ?_, ?_, ?_, ?_, ?_, ?_⟩, ?_, ?_, ?_⟩ <;>
    simp [open_func, FuncState.shape, Captures]

/-- The locals of a function end with its last `OP_RETURN`, which closes them. -/
theorem fits_close_func (h : Good fs) :
    Fits (removevars 0 fs) ⟨.ret, [], [], none⟩ ∧ Grow fs (removevars 0 fs) := by
  have hgrow : Grow fs (removevars 0 fs) :=
    ⟨List.prefix_refl _, fun _ h => h, fun _ h => h, fun _ hv => ⟨hv.1, List.not_mem_nil, hv.2.2⟩⟩
  have henters : ∀ U V, Enters (removevars 0 fs) U V ⟨.ret, [], [], none⟩ := fun _ _ =>
    ⟨List.nil_subset _, fun _ _ _ => .inl (.inl rfl)⟩
  refine ⟨⟨fun i hi => ⟨fun _ => henters _ _, fun a ha => .inr (List.forall_mem_nil _)⟩, ?_, ?_, ?_⟩, hgrow⟩
  · exact fun q hq => ⟨fs.actvar, (h.pending q hq).grow hgrow, henters _ _⟩
  · exact fun _ _ _ _ _ => List.forall_mem_nil _
  · exact List.forall_mem_nil _

/-- The function ends with an `OP_RETURN`. -/
theorem Sound.close_func (h : Good fs) (hbl : fs.bl = []) : Sound (close_func fs) := by
  obtain ⟨hfit, hgrow⟩ := fits_close_func h
  apply Sound.emit ?_ (capsOk_nil _ _) hfit
  constructor
  case regs => intro r v hr; cases hr
  case ids => exact List.forall_mem_nil _
  case caps => exact h.caps
  case above => exact h.above
  case flow => exact fun q i t hi ht => (h.flow q i t hi ht).grow hgrow
  case jumps =>
    intro q i d hi hd
    obtain ⟨t, ht, hedge⟩ := h.jumps q i d hi hd
    have hq : q < fs.pc := (List.getElem?_eq_some_iff.1 hi).1
    exact ⟨t, ht, hedge.grow hgrow hq (lt_pc ht)⟩
  case blocks =>
    intro b hb
    have hb' : b ∈ fs.bl := hb
    rw [hbl] at hb'
    cases hb'
  case sorted => exact h.sorted
  case marked => intro p v _ hv; cases hv
  case owned => intro v hv; cases hv

/-- The code of a function, and the scope at its first instruction. -/
theorem funcBody_sound {params : List String} {c : Chunk} (h : funcBody params c = .ok fs) :
    Sound fs ∧ ∃ new, new_localvars (params.map some) open_func = .ok new ∧
      ∃ t, fs.shape[0]? = some t ∧ t.scope ⊆ new := by
  obtain ⟨new, hnew, h⟩ := bind_ok h
  obtain ⟨fs1, h1, h⟩ := bind_ok h
  cases h
  have hopen : Good (adjustlocalvars new open_func) := by
    apply good_open_func.adjust (numbered_new_localvars hnew) rfl
    · intro i hi
      cases hi
    · intro b hb
      cases hb
  have hbody := Chunk.compiles c hopen (fun b hb => nomatch hb) h1
  have hbl : fs1.bl = [] := List.map_eq_nil_iff.1 hbody.blocks
  refine ⟨Sound.close_func hbody.good hbl, new, hnew, ?_⟩
  have hret : (close_func fs1).shape = fs1.shape ++ [⟨.ret, [], [], none⟩] :=
    shape_luaK_code .ret [] (removevars 0 fs1)
  rw [hret]
  cases hs : fs1.shape with
  | nil => exact ⟨_, rfl, List.nil_subset _⟩
  | cons t rest =>
    refine ⟨t, rfl, ?_⟩
    have hfirst : fs1.shape[(adjustlocalvars new open_func).pc]? = some t := by
      rw [hs]
      rfl
    exact (hbody.ext.first t hfirst).1

end LuaFltk.Compiler
