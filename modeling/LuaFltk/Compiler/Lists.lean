import LuaFltk.Compiler.Scoped

/-!
# Every jump on one list

The jumps that wait for their targets stand on the lists, each on one of them, and no other
instruction waits. So a list is patched as a whole and once, and what patching sets stays. Each
function of the compiler is a step between stages, which hold the lists its caller has.
-/

namespace LuaFltk.Compiler

variable {fs fs' : FuncState}

/-! ## Code -/

/-- The instructions with a jump. -/
def Op.jumps : Op → Bool
  | .test | .jmp | .forloop _ => true
  | _ => false

/-- The jump at `q` has no target yet. -/
def Waits (code : List Ins) (q : Nat) : Prop :=
  ∃ i, code[q]? = some i ∧ i.op.jumps = true ∧ i.dest = none

/-- The jumps without targets are those of `P`, and nothing but a jump has a target. -/
structure Listed (P : List Nat) (code : List Ins) : Prop where
  nodup : P.Nodup
  waits : ∀ q, q ∈ P ↔ Waits code q
  plain : ∀ (q : Nat) (i : Ins), code[q]? = some i → i.op.jumps = false → i.dest = none

/-- Later code keeps all instructions and the targets that are set. -/
def Kept (code code' : List Ins) : Prop :=
  ∀ (q : Nat) (i : Ins), code[q]? = some i →
    ∃ i', code'[q]? = some i' ∧ i'.shape = i.shape ∧ (i.dest ≠ none → i'.dest = i.dest)

theorem Kept.refl (code : List Ins) : Kept code code := fun _ i hi => ⟨i, hi, rfl, fun _ => rfl⟩

/-- What was settled stays settled. -/
theorem Kept.trans {code code' code'' : List Ins} (h : Kept code code') (h' : Kept code' code'') :
    Kept code code'' := by
  intro q i hi
  obtain ⟨i', hi', hshape, hdest⟩ := h q i hi
  obtain ⟨i'', hi'', hshape', hdest'⟩ := h' q i' hi'
  refine ⟨i'', hi'', hshape'.trans hshape, fun hne => ?_⟩
  rw [hdest' (by rwa [hdest hne]), hdest hne]

/-- Code is added behind. -/
theorem Kept.append (code l : List Ins) : Kept code (code ++ l) := by
  intro q i hi
  have hq := (List.getElem?_eq_some_iff.1 hi).1
  exact ⟨i, by rw [List.getElem?_append_left hq, hi], rfl, fun _ => rfl⟩

theorem Kept.length_le {code code' : List Ins} (h : Kept code code') : code.length ≤ code'.length := by
  by_contra hlt
  have hlast : code'.length < code.length := by omega
  obtain ⟨i, hi, -⟩ := h code'.length _ (List.getElem?_eq_getElem hlast)
  exact absurd (List.getElem?_eq_some_iff.1 hi).1 (lt_irrefl _)

/-- The target of the jump at `q`. -/
def destAt (code : List Ins) (q : Nat) : Option Nat := code[q]?.bind Ins.dest

/-- A jump with a destination keeps it. -/
theorem Kept.destAt {code code' : List Ins} (h : Kept code code') {q d : Nat}
    (hd : destAt code q = some d) : Compiler.destAt code' q = some d := by
  obtain ⟨i, hi, hdest⟩ := Option.bind_eq_some_iff.1 hd
  obtain ⟨i', hi', -, hkeep⟩ := h q i hi
  rw [Compiler.destAt, hi', Option.bind_some, hkeep (by simp [hdest]), hdest]

section patch

variable {list P P' : List Nat} {code : List Ins}

/-- The order of the lists says nothing. -/
theorem Listed.perm (h : Listed P code) (hp : P.Perm P') : Listed P' code :=
  ⟨hp.nodup_iff.1 h.nodup, fun q => by rw [← hp.mem_iff, h.waits], h.plain⟩

/-- The targets of a list are set, and its jumps wait no longer. -/
theorem Listed.patch (h : Listed (list ++ P) code) (target : Nat) :
    Listed P (patchlistaux code list target) := by
  have hapart := List.disjoint_of_nodup_append h.nodup
  refine ⟨h.nodup.of_append_right, fun q => ?_, fun q i hi hop => ?_⟩
  · constructor
    · intro hq
      obtain ⟨i, hi, hop⟩ := (h.waits q).1 (List.mem_append_right _ hq)
      refine ⟨i, ?_, hop⟩
      rw [getElem?_patchlistaux, if_neg fun hlist => hapart hlist hq, hi]
    · rintro ⟨i, hi, hop, hdest⟩
      rw [getElem?_patchlistaux] at hi
      by_cases hlist : q ∈ list
      · rw [if_pos hlist] at hi
        obtain ⟨j, -, rfl⟩ := Option.map_eq_some_iff.1 hi
        cases hdest
      · rw [if_neg hlist] at hi
        exact (List.mem_append.1 ((h.waits q).2 ⟨i, hi, hop, hdest⟩)).resolve_left hlist
  · rw [getElem?_patchlistaux] at hi
    by_cases hlist : q ∈ list
    · obtain ⟨j, hj, hjop, -⟩ := (h.waits q).1 (List.mem_append_left _ hlist)
      rw [if_pos hlist, hj] at hi
      cases hi
      rw [hjop] at hop
      cases hop
    · rw [if_neg hlist] at hi
      exact h.plain q i hi hop

/-- The jumps of a list have no destination before they are patched. -/
theorem Listed.kept_patch (h : Listed (list ++ P) code) (target : Nat) :
    Kept code (patchlistaux code list target) := by
  intro q i hi
  rw [getElem?_patchlistaux]
  by_cases hlist : q ∈ list
  · obtain ⟨j, hj, -, hdest⟩ := (h.waits q).1 (List.mem_append_left _ hlist)
    rw [hi] at hj
    cases hj
    exact ⟨{ i with dest := some target }, by rw [if_pos hlist, hi]; rfl, rfl,
      fun hne => absurd hdest hne⟩
  · exact ⟨i, by rw [if_neg hlist, hi], rfl, fun _ => rfl⟩

/-- Behind a patch each jump of the list has the target. -/
theorem Listed.destAt_patch (h : Listed (list ++ P) code) (target : Nat) {q : Nat} (hq : q ∈ list) :
    destAt (patchlistaux code list target) q = some target := by
  obtain ⟨j, hj, -⟩ := (h.waits q).1 (List.mem_append_left _ hq)
  rw [destAt, getElem?_patchlistaux, if_pos hq, hj]
  rfl

/-- A new jump waits, and those before go on waiting. -/
theorem waits_append {i : Ins} {q : Nat} :
    Waits (code ++ [i]) q ↔
      Waits code q ∨ q = code.length ∧ i.op.jumps = true ∧ i.dest = none := by
  unfold Waits
  obtain hlt | rfl | hgt := Nat.lt_trichotomy q code.length
  · have hne : q ≠ code.length := by omega
    rw [List.getElem?_append_left hlt]
    simp [hne]
  · have hend : code[code.length]? = none := List.getElem?_eq_none le_rfl
    rw [List.getElem?_concat_length, hend]
    simp
  · have hne : q ≠ code.length := by omega
    have hend : code[q]? = none := List.getElem?_eq_none (by omega)
    have hend' : (code ++ [i])[q]? = none := List.getElem?_eq_none (by simp; omega)
    rw [hend, hend']
    simp [hne]

/-- Only jumps that were emitted are in a list. -/
theorem Listed.lt (h : Listed P code) {q : Nat} (hq : q ∈ P) : q < code.length := by
  obtain ⟨i, hi, -⟩ := (h.waits q).1 hq
  exact (List.getElem?_eq_some_iff.1 hi).1

/-- A new instruction has no destination. -/
theorem Listed.plain_append (h : Listed P code) {i : Ins} (hdest : i.dest = none) (q : Nat) (j : Ins)
    (hj : (code ++ [i])[q]? = some j) (hop : j.op.jumps = false) : j.dest = none := by
  obtain hlt | heq | hgt := Nat.lt_trichotomy q code.length
  · rw [List.getElem?_append_left hlt] at hj
    exact h.plain q j hj hop
  · rw [heq, List.getElem?_concat_length] at hj
    cases hj
    exact hdest
  · rw [List.getElem?_eq_none (by simp; omega)] at hj
    cases hj

/-- An instruction without a jump is added. -/
theorem Listed.push (h : Listed P code) {i : Ins} (hop : i.op.jumps = false) (hdest : i.dest = none) :
    Listed P (code ++ [i]) := by
  refine ⟨h.nodup, fun q => ?_, h.plain_append hdest⟩
  rw [waits_append, h.waits]
  simp [hop]

/-- A jump is added. -/
theorem Listed.push_jump (h : Listed P code) {i : Ins} (hop : i.op.jumps = true)
    (hdest : i.dest = none) : Listed (code.length :: P) (code ++ [i]) := by
  refine ⟨List.nodup_cons.2 ⟨fun hmem => absurd (h.lt hmem) (lt_irrefl _), h.nodup⟩, fun q => ?_,
    h.plain_append hdest⟩
  rw [waits_append, List.mem_cons, h.waits]
  simp [hop, hdest, or_comm]

end patch

/-! ## Where lists go -/

/-- All jumps of a list have the same target. -/
def Same (code : List Ins) (list : List Nat) : Prop := ∃ d, ∀ q ∈ list, destAt code q = some d

/-- A list arrives at `t`: its jumps have the target `t`, or that of a jump that stands there. -/
def Arrives (code : List Ins) (list : List Nat) (t : Nat) : Prop :=
  ∃ d, (∀ q ∈ list, destAt code q = some d) ∧
    (d = t ∨ ∃ i, code[t]? = some i ∧ i.op = .jmp ∧ i.dest = some d)

section arrives

variable {code : List Ins} {list list' : List Nat} {t : Nat}

/-- Jumps that arrive at one place arrive together. -/
theorem Arrives.same (h : Arrives code list t) : Same code list := by
  obtain ⟨d, hd, -⟩ := h
  exact ⟨d, hd⟩

theorem Arrives.mono (h : Arrives code list' t) (hsub : list ⊆ list') : Arrives code list t := by
  obtain ⟨d, hd, ht⟩ := h
  exact ⟨d, fun q hq => hd q (hsub hq), ht⟩

theorem Same.mono (h : Same code list') (hsub : list ⊆ list') : Same code list := by
  obtain ⟨d, hd⟩ := h
  exact ⟨d, fun q hq => hd q (hsub hq)⟩

theorem same_nil (code : List Ins) : Same code [] := ⟨0, List.forall_mem_nil _⟩

theorem arrives_nil (code : List Ins) (t : Nat) : Arrives code [] t :=
  ⟨t, List.forall_mem_nil _, .inl rfl⟩

/-- Jumps that were patched arrive where they were patched to. -/
theorem arrives_of_dest (h : ∀ q ∈ list, destAt code q = some t) : Arrives code list t :=
  ⟨t, h, .inl rfl⟩

/-- The jumps on hold arrive where the new jump stands. -/
theorem Same.arrives (h : Same code (t :: list)) {i : Ins} (hi : code[t]? = some i)
    (hop : i.op = .jmp) : Arrives code list t := by
  obtain ⟨d, hd⟩ := h
  have hdest := hd t List.mem_cons_self
  rw [destAt, hi] at hdest
  exact ⟨d, fun q hq => hd q (List.mem_cons_of_mem _ hq), .inr ⟨i, hi, hop, hdest⟩⟩

end arrives

/-! ## Stages -/

/-- The lists of the blocks. The `continuelist` of the innermost `used` blocks was patched. -/
def blockLists : Nat → List BlockCnt → List (List Nat)
  | _, [] => []
  | 0, b :: bl => b.breaklist :: b.continuelist :: blockLists 0 bl
  | used + 1, b :: bl => b.breaklist :: blockLists used bl

/-- The compiler at one place, with the lists that its caller holds. -/
structure Stage where
  fs : FuncState
  used : Nat
  held : List (List Nat)

namespace Stage

/-- The lists that still go somewhere, `jpc` apart. -/
def lists (S : Stage) : List (List Nat) := blockLists S.used S.fs.bl ++ S.held

/-- The jumps that wait are those on the lists of the stage and those of `L`. -/
def Lists (S : Stage) (L : List Nat) : Prop := Listed (S.fs.jpc ++ S.lists.flatten ++ L) S.fs.code

/-- What the final code owes the stage: `jpc` arrives here, the other lists go each to one
place. -/
structure Owes (S : Stage) (code : List Ins) : Prop where
  jpc : Arrives code S.fs.jpc S.fs.pc
  lists : ∀ list ∈ S.lists, Same code list

/-- A step of the compiler. -/
structure Step (S S' : Stage) : Prop where
  lists : ∀ L, S.Lists L → S'.Lists L
  kept : ∀ L, S.Lists L → Kept S.fs.code S'.fs.code
  owes : ∀ L code, S.Lists L → Kept S'.fs.code code → S'.Owes code → S.Owes code

variable {S S' S'' : Stage}

theorem Step.refl (S : Stage) : S.Step S :=
  ⟨fun _ h => h, fun _ _ => Kept.refl _, fun _ _ _ _ h => h⟩

theorem Step.trans (h : S.Step S') (h' : S'.Step S'') : S.Step S'' where
  lists L hL := h'.lists L (h.lists L hL)
  kept L hL := (h.kept L hL).trans (h'.kept L (h.lists L hL))
  owes L code hL hcode howes :=
    h.owes L code hL ((h'.kept L (h.lists L hL)).trans hcode)
      (h'.owes L code (h.lists L hL) hcode howes)

theorem Step.le_pc (h : S.Step S') (hS : ∃ L, S.Lists L) : S.fs.pc ≤ S'.fs.pc :=
  let ⟨L, hL⟩ := hS
  (h.kept L hL).length_le

/-- Between the two stages a list is sent to a place. -/
def Sends (S S' : Stage) (list : List Nat) (place : Nat) : Prop :=
  ∀ L code, S.Lists L → Kept S'.fs.code code → S'.Owes code → Arrives code list place

/-- The list may have been made before. -/
theorem Sends.before {list : List Nat} {place : Nat} (h : Sends S' S'' list place)
    (hstep : S.Step S') : Sends S S'' list place :=
  fun L code hL hcode howes => h L code (hstep.lists L hL) hcode howes

/-- A jump that was sent off is not called back. -/
theorem Sends.after {list : List Nat} {place : Nat} (h : Sends S S' list place)
    (hS : ∀ L, S.Lists L → S'.Lists L) (hstep : S'.Step S'') : Sends S S'' list place :=
  fun L code hL hcode howes => h L code hL ((hstep.kept L (hS L hL)).trans hcode)
    (hstep.owes L code (hS L hL) hcode howes)

/-- Between the two stages the jumps of a list get a target. -/
def Sets (S S' : Stage) (list : List Nat) (target : Nat) : Prop :=
  ∀ L code, S.Lists L → Kept S'.fs.code code → ∀ q ∈ list, destAt code q = some target

/-- The same of a list that is patched at once. -/
theorem Sets.before {list : List Nat} {target : Nat} (h : Sets S' S'' list target)
    (hstep : S.Step S') : Sets S S'' list target :=
  fun L code hL hcode => h L code (hstep.lists L hL) hcode

/-- A patched jump keeps its target. -/
theorem Sets.after {list : List Nat} {target : Nat} (h : Sets S S' list target)
    (hS : ∀ L, S.Lists L → S'.Lists L) (hstep : S'.Step S'') : Sets S S'' list target :=
  fun L code hL hcode => h L code hL ((hstep.kept L (hS L hL)).trans hcode)

theorem perm_of_count {P P' : List Nat} (h : ∀ q, P.count q = P'.count q) : P.Perm P' :=
  List.perm_iff_count.2 h

/-- What the caller of the caller holds counts as any other jump that waits. -/
theorem lists_frame {fs : FuncState} {used : Nat} {held more : List (List Nat)} {L : List Nat} :
    Lists ⟨fs, used, held ++ more⟩ L ↔ Lists ⟨fs, used, held⟩ (more.flatten ++ L) := by
  simp [Lists, Stage.lists]

/-- Lists that are held besides are owed besides. -/
theorem Owes.of_frame {fs : FuncState} {used : Nat} {held more : List (List Nat)} {code : List Ins}
    (h : Owes ⟨fs, used, held ++ more⟩ code) : Owes ⟨fs, used, held⟩ code := by
  refine ⟨h.jpc, fun list hlist => h.lists list ?_⟩
  simp only [Stage.lists, List.mem_append] at hlist ⊢
  tauto

/-- The caller of the caller holds more lists. -/
theorem Step.frame {fs fs' : FuncState} {used used' : Nat} {held held' : List (List Nat)}
    (h : Step ⟨fs, used, held⟩ ⟨fs', used', held'⟩) (more : List (List Nat)) :
    Step ⟨fs, used, held ++ more⟩ ⟨fs', used', held' ++ more⟩ := by
  constructor
  case lists => exact fun L hL => lists_frame.2 (h.lists _ (lists_frame.1 hL))
  case kept => exact fun L hL => h.kept _ (lists_frame.1 hL)
  case owes =>
    intro L code hL hcode howes
    have hinner := h.owes _ code (lists_frame.1 hL) hcode howes.of_frame
    refine ⟨hinner.jpc, fun list hlist => ?_⟩
    simp only [Stage.lists, ← List.append_assoc] at hlist
    obtain hlist | hlist := List.mem_append.1 hlist
    · exact hinner.lists list hlist
    · exact howes.lists list (by simp [Stage.lists, hlist])

/-- A step that changes neither the code nor the lists. -/
theorem Step.of_same {fs fs' : FuncState} {used : Nat} (hcode : fs'.code = fs.code)
    (hjpc : fs'.jpc = fs.jpc) (hbl : blockLists used fs'.bl = blockLists used fs.bl) :
    Step ⟨fs, used, []⟩ ⟨fs', used, []⟩ := by
  have hpc : fs'.pc = fs.pc := congrArg List.length hcode
  have hlists : Stage.lists ⟨fs', used, []⟩ = Stage.lists ⟨fs, used, []⟩ := by
    simp [Stage.lists, hbl]
  constructor
  case lists =>
    intro L hL
    unfold Lists at hL ⊢
    rw [hlists, hjpc, hcode]
    exact hL
  case kept => exact fun L _ => hcode ▸ Kept.refl _
  case owes =>
    intro L code _ _ howes
    refine ⟨?_, fun list hlist => howes.lists list (hlists.symm ▸ hlist)⟩
    have hpending := howes.jpc
    rw [hjpc, hpc] at hpending
    exact hpending

/-! ## Emitting and patching -/

section emit

variable {fs : FuncState} {op : Op} {caps : List Var} {P : List Nat}

theorem length_patchlistaux (code : List Ins) (list : List Nat) (target : Nat) :
    (patchlistaux code list target).length = code.length := by
  have hlength := congrArg List.length (map_shape_patchlistaux code list target)
  rwa [List.length_map, List.length_map] at hlength

/-- The jumps on hold get this position, and the instruction follows. -/
theorem code_luaK_code (op : Op) (caps : List Var) (fs : FuncState) :
    (luaK_code op caps fs).code =
      patchlistaux fs.code fs.jpc fs.pc ++ [⟨op, fs.actvar, caps, none⟩] := rfl

theorem getElem?_luaK_code (op : Op) (caps : List Var) (fs : FuncState) :
    (luaK_code op caps fs).code[fs.pc]? = some ⟨op, fs.actvar, caps, none⟩ := by
  have hlength : (patchlistaux fs.code fs.jpc fs.pc).length = fs.pc := length_patchlistaux _ _ _
  rw [code_luaK_code, List.getElem?_append_right (le_of_eq hlength), hlength, Nat.sub_self]
  rfl

/-- Only jumps that waited are patched. -/
theorem kept_luaK_code (h : Listed (fs.jpc ++ P) fs.code) :
    Kept fs.code (luaK_code op caps fs).code :=
  (h.kept_patch fs.pc).trans (Kept.append _ _)

/-- The pending jumps are patched to the new instruction. -/
theorem arrives_luaK_code {code : List Ins} (h : Listed (fs.jpc ++ P) fs.code)
    (hcode : Kept (luaK_code op caps fs).code code) : Arrives code fs.jpc fs.pc := by
  apply arrives_of_dest
  intro q hq
  exact hcode.destAt ((Kept.append _ _).destAt (h.destAt_patch fs.pc hq))

theorem Lists.assoc {S : Stage} {L : List Nat} (h : S.Lists L) :
    Listed (S.fs.jpc ++ (S.lists.flatten ++ L)) S.fs.code :=
  List.append_assoc .. ▸ h

/-- Code without a jump. -/
theorem step_luaK_code (used : Nat) (hop : op.jumps = false) :
    Step ⟨fs, used, []⟩ ⟨luaK_code op caps fs, used, []⟩ where
  lists _ hL := hL.assoc.patch fs.pc |>.push hop rfl
  kept _ hL := kept_luaK_code hL.assoc
  owes _ _ hL hcode howes := ⟨arrives_luaK_code hL.assoc hcode, howes.lists⟩

/-- An instruction with a jump. -/
theorem step_condjump (used : Nat) (hop : op.jumps = true) :
    Step ⟨fs, used, []⟩ ⟨(condjump op caps fs).1, used, [(condjump op caps fs).2]⟩ where
  lists L hL := by
    have hnew := (hL.assoc.patch fs.pc).push_jump (i := ⟨op, fs.actvar, caps, none⟩) hop rfl
    rw [length_patchlistaux] at hnew
    apply hnew.perm
    apply perm_of_count
    intro q
    simp only [condjump, Stage.lists, bl_luaK_code, jpc_luaK_code, List.count_cons, List.count_append,
      List.flatten_append, List.flatten_cons, List.flatten_nil, List.count_nil, FuncState.pc]
    omega
  kept _ hL := kept_luaK_code hL.assoc
  owes _ _ hL hcode howes :=
    ⟨arrives_luaK_code hL.assoc hcode, fun list hlist => howes.lists list (by
      simp only [Stage.lists, List.append_nil] at hlist
      exact List.mem_append_left _ hlist)⟩

/-- `luaK_jump` keeps the pending jumps on hold. -/
theorem step_jump (used : Nat) :
    Step ⟨fs, used, []⟩ ⟨(luaK_jump fs).1, used, [(luaK_jump fs).2]⟩ where
  lists L hL := by
    have hnew := Listed.push_jump hL (i := ⟨.jmp, fs.actvar, [], none⟩) rfl rfl
    apply hnew.perm
    apply perm_of_count
    intro q
    simp only [luaK_jump, Stage.lists, bl_luaK_code, jpc_luaK_code, List.count_cons,
      List.count_append, List.flatten_append, List.flatten_cons, List.flatten_nil, List.count_nil,
      FuncState.pc]
    omega
  kept _ _ := Kept.append _ _
  owes L code hL hcode howes := by
    have hsame := howes.lists (luaK_jump fs).2 (by simp [Stage.lists])
    have hat : (luaK_jump fs).1.code[fs.pc]? = some ⟨.jmp, fs.actvar, [], none⟩ :=
      getElem?_luaK_code .jmp [] { fs with jpc := [] }
    obtain ⟨i, hi, hshape, -⟩ := hcode _ _ hat
    refine ⟨hsame.arrives hi (congrArg Ins.op hshape), fun list hlist => howes.lists list ?_⟩
    simp only [Stage.lists, List.append_nil] at hlist
    exact List.mem_append_left _ hlist

end emit

section patch

variable {fs : FuncState} {list : List Nat} {used : Nat}

/-- A list in hand is one of the lists. -/
theorem Lists.held_first {L : List Nat} (h : Lists ⟨fs, used, [list]⟩ L) :
    Listed (list ++ (fs.jpc ++ ((blockLists used fs.bl).flatten ++ L))) fs.code := by
  apply Listed.perm h
  apply perm_of_count
  intro q
  simp only [Stage.lists, List.count_append, List.flatten_append, List.flatten_cons,
    List.flatten_nil, List.count_nil]
  omega

/-- A list is patched to here. -/
theorem step_patchtohere (list : List Nat) (used : Nat) :
    Step ⟨fs, used, [list]⟩ ⟨luaK_patchtohere list fs, used, []⟩ where
  lists L hL := by
    apply Listed.perm hL
    apply perm_of_count
    intro q
    simp only [luaK_patchtohere, Stage.lists, List.count_append, List.flatten_append,
      List.flatten_cons, List.flatten_nil, List.count_nil]
    omega
  kept _ _ := Kept.refl _
  owes L code _ _ howes := by
    refine ⟨howes.jpc.mono (List.subset_append_left _ _), fun l hl => ?_⟩
    obtain hl | hl := List.mem_append.1 hl
    · exact howes.lists l (List.mem_append_left _ hl)
    · rw [List.mem_singleton.1 hl]
      exact (howes.jpc.mono (List.subset_append_right _ _)).same

/-- On hold, a list goes to the next instruction. -/
theorem sends_patchtohere (fs : FuncState) (list : List Nat) (used : Nat) (held : List (List Nat)) :
    Sends ⟨fs, used, list :: held⟩ ⟨luaK_patchtohere list fs, used, held⟩ list fs.pc :=
  fun _ _ _ _ howes => howes.jpc.mono (List.subset_append_right _ _)

theorem pc_patchlist (list : List Nat) (target : Nat) (fs : FuncState) :
    (luaK_patchlist list target fs).pc = fs.pc := by
  unfold luaK_patchlist
  split
  · rfl
  · exact length_patchlistaux _ _ _

/-- A list is patched to a position, which may be here. -/
theorem step_patchlist (list : List Nat) (target used : Nat) :
    Step ⟨fs, used, [list]⟩ ⟨luaK_patchlist list target fs, used, []⟩ := by
  unfold luaK_patchlist
  split
  · exact step_patchtohere list used
  · constructor
    case lists =>
      intro L hL
      apply (hL.held_first.patch target).perm
      simp [Stage.lists]
    case kept => exact fun L hL => hL.held_first.kept_patch target
    case owes =>
      intro L code hL hcode howes
      refine ⟨?_, fun l hl => ?_⟩
      · have hpc : FuncState.pc { fs with code := patchlistaux fs.code list target } = fs.pc :=
          length_patchlistaux _ _ _
        have hpending := howes.jpc
        rw [hpc] at hpending
        exact hpending
      · obtain hl | hl := List.mem_append.1 hl
        · exact howes.lists l (List.mem_append_left _ hl)
        · rw [List.mem_singleton.1 hl]
          exact ⟨target, fun q hq => hcode.destAt (hL.held_first.destAt_patch target hq)⟩

/-- A list patched to an older place has it at once. -/
theorem sets_patchlist {target : Nat} (h : target ≠ fs.pc) (list : List Nat) (used : Nat)
    (held : List (List Nat)) :
    Sets ⟨fs, used, list :: held⟩ ⟨luaK_patchlist list target fs, used, held⟩ list target := by
  intro L code hL hcode q hq
  have hfirst := (lists_frame.1 (show Lists ⟨fs, used, [list] ++ held⟩ L from hL)).held_first
  rw [luaK_patchlist, if_neg h] at hcode
  exact hcode.destAt (hfirst.destAt_patch target hq)

/-- Patched now or put on hold, a list goes to its target. -/
theorem sends_patchlist (fs : FuncState) (list : List Nat) (target used : Nat) (held : List (List Nat)) :
    Sends ⟨fs, used, list :: held⟩ ⟨luaK_patchlist list target fs, used, held⟩ list target := by
  by_cases h : target = fs.pc
  · rw [luaK_patchlist, if_pos h, h]
    exact sends_patchtohere fs list used held
  · exact fun L code hL hcode _ => arrives_of_dest (sets_patchlist h list used held L code hL hcode)

end patch

/-! ## The lists a caller holds -/

section held

variable {fs : FuncState} {used : Nat} {held held' : List (List Nat)}

/-- The lists that are held are held another way. -/
theorem step_held (hcount : ∀ q, held'.flatten.count q = held.flatten.count q)
    (hsame : ∀ code, (∀ list ∈ held', Same code list) → ∀ list ∈ held, Same code list) :
    Step ⟨fs, used, held⟩ ⟨fs, used, held'⟩ where
  lists L hL := by
    apply Listed.perm hL
    apply perm_of_count
    intro q
    simp only [Stage.lists, List.count_append, List.flatten_append, hcount]
  kept _ _ := Kept.refl _
  owes L code _ _ howes := by
    refine ⟨howes.jpc, fun list hlist => ?_⟩
    obtain hlist | hlist := List.mem_append.1 hlist
    · exact howes.lists list (List.mem_append_left _ hlist)
    · exact hsame code (fun l hl => howes.lists l (List.mem_append_right _ hl)) list hlist

theorem step_swap (a b : List Nat) : Step ⟨fs, used, [a, b]⟩ ⟨fs, used, [b, a]⟩ := by
  apply step_held
  · intro q
    simp only [List.flatten_cons, List.flatten_nil, List.count_append, List.count_nil]
    omega
  · intro code h list hlist
    apply h
    simpa [or_comm] using hlist

/-- Two lists become one. -/
theorem step_concat (a b : List Nat) : Step ⟨fs, used, [a, b]⟩ ⟨fs, used, [a ++ b]⟩ := by
  apply step_held
  · intro q
    simp
  · intro code h
    have hboth := h (a ++ b) List.mem_cons_self
    simp only [List.forall_mem_cons, List.not_mem_nil, false_imp_iff, implies_true, and_true]
    exact ⟨hboth.mono (List.subset_append_left _ _), hboth.mono (List.subset_append_right _ _)⟩

theorem step_nil : Step ⟨fs, used, []⟩ ⟨fs, used, [[]]⟩ := by
  apply step_held
  · intro q
    rfl
  · exact fun _ _ => List.forall_mem_nil _

/-- The second list is patched to here. -/
theorem step_patch_second (a b : List Nat) :
    Step ⟨fs, used, [a, b]⟩ ⟨luaK_patchtohere b fs, used, [a]⟩ :=
  (step_swap a b).trans ((step_patchtohere b used).frame [a])

end held

/-! ## What is known of the final code -/

/-- The final code does what a stage relies on. -/
structure Known (S : Stage) (code : List Ins) : Prop where
  lists : ∃ L, S.Lists L
  kept : Kept S.fs.code code
  owes : S.Owes code

section known

variable {S S' : Stage} {code : List Ins} {fs : FuncState} {used : Nat} {held more : List (List Nat)}

/-- Behind a step there is a way to list the jumps again. -/
theorem lists_step (hS : ∃ L, S.Lists L) (h : S.Step S') : ∃ L, S'.Lists L :=
  let ⟨L, hL⟩ := hS
  ⟨L, h.lists L hL⟩

theorem lists_of_held (h : ∃ L, Lists ⟨fs, used, held ++ more⟩ L) :
    ∃ L, Lists ⟨fs, used, held⟩ L :=
  let ⟨L, hL⟩ := h
  ⟨more.flatten ++ L, lists_frame.1 hL⟩

/-- What the final code has of a later stage it has of the earlier one. -/
theorem Known.before (h : S'.Known code) (hS : ∃ L, S.Lists L) (hstep : S.Step S') :
    S.Known code := by
  obtain ⟨L, hL⟩ := hS
  exact ⟨⟨L, hL⟩, (hstep.kept L hL).trans h.kept, hstep.owes L code hL h.kept h.owes⟩

theorem Known.of_held (h : Known ⟨fs, used, held ++ more⟩ code) : Known ⟨fs, used, held⟩ code :=
  ⟨lists_of_held h.lists, h.kept, h.owes.of_frame⟩

/-- In the final code the jumps of the list arrive. -/
theorem Sends.arrives {list : List Nat} {place : Nat} (h : Sends S S' list place)
    (hS : ∃ L, S.Lists L) (hknown : S'.Known code) : Arrives code list place :=
  let ⟨L, hL⟩ := hS
  h L code hL hknown.kept hknown.owes

/-- In the final code the jumps of the list have the target. -/
theorem Sets.targets {list : List Nat} {target : Nat} (h : Sets S S' list target)
    (hS : ∃ L, S.Lists L) (hkept : Kept S'.fs.code code) : ∀ q ∈ list, destAt code q = some target :=
  let ⟨L, hL⟩ := hS
  h L code hL hkept

end known

end Stage

/-! ## Blocks -/

/-- What happens to a block while the code in it is compiled. -/
structure BlockCnt.Grows (b b' : BlockCnt) : Prop where
  loop : b'.isbreakable = b.isbreakable
  level : b'.nactvar = b.nactvar
  breaks : b.breaklist ⊆ b'.breaklist
  continues : b.continuelist ⊆ b'.continuelist
  still : b.isbreakable = false → b'.breaklist = b.breaklist ∧ b'.continuelist = b.continuelist

theorem BlockCnt.Grows.refl (b : BlockCnt) : b.Grows b :=
  ⟨rfl, rfl, List.Subset.refl _, List.Subset.refl _, fun _ => ⟨rfl, rfl⟩⟩

theorem BlockCnt.Grows.trans {b b' b'' : BlockCnt} (h : b.Grows b') (h' : b'.Grows b'') :
    b.Grows b'' where
  loop := h'.loop.trans h.loop
  level := h'.level.trans h.level
  breaks := List.Subset.trans h.breaks h'.breaks
  continues := List.Subset.trans h.continues h'.continues
  still hb := by
    obtain ⟨hbreak, hcontinue⟩ := h.still hb
    obtain ⟨hbreak', hcontinue'⟩ := h'.still (h.loop.trans hb)
    exact ⟨hbreak'.trans hbreak, hcontinue'.trans hcontinue⟩

/-- The same blocks with longer lists. -/
def Longer (bl bl' : List BlockCnt) : Prop := List.Forall₂ BlockCnt.Grows bl bl'

theorem Longer.refl (bl : List BlockCnt) : Longer bl bl := by
  induction bl with
  | nil => exact .nil
  | cons b bl ih => exact .cons (.refl b) ih

theorem Longer.trans {bl bl' bl'' : List BlockCnt} (h : Longer bl bl') (h' : Longer bl' bl'') :
    Longer bl bl'' := by
  induction h generalizing bl'' with
  | nil =>
    cases h'
    exact .nil
  | cons hb _ ih =>
    cases h' with
    | cons hb' h' => exact .cons (hb.trans hb') (ih h')

/-- A mark leaves all lists alone. -/
theorem longer_markupval (level : Nat) (bl : List BlockCnt) : Longer bl (markupval level bl) := by
  induction bl with
  | nil => exact .nil
  | cons b bl ih =>
    unfold markupval
    split
    · exact .cons (.refl b) ih
    · exact .cons ⟨rfl, rfl, List.Subset.refl _, List.Subset.refl _, fun _ => ⟨rfl, rfl⟩⟩
        (Longer.refl bl)

theorem blockLists_markupval (used level : Nat) (bl : List BlockCnt) :
    blockLists used (markupval level bl) = blockLists used bl := by
  induction bl generalizing used with
  | nil => rfl
  | cons b bl ih =>
    unfold markupval
    cases used <;> split <;> simp [blockLists, ih]

/-- A step in which the blocks stay the same. -/
structure Moves (S S' : Stage) : Prop where
  step : S.Step S'
  blocks : Longer S.fs.bl S'.fs.bl

section moves

variable {S S' S'' : Stage} {used : Nat}

theorem Moves.refl (S : Stage) : Moves S S := ⟨.refl S, .refl _⟩

theorem Moves.trans (h : Moves S S') (h' : Moves S' S'') : Moves S S'' :=
  ⟨h.step.trans h'.step, h.blocks.trans h'.blocks⟩

theorem Moves.frame {held held' : List (List Nat)} (h : Moves ⟨fs, used, held⟩ ⟨fs', used, held'⟩)
    (more : List (List Nat)) :
    Moves ⟨fs, used, held ++ more⟩ ⟨fs', used, held' ++ more⟩ :=
  ⟨h.step.frame more, h.blocks⟩

/-- A step that leaves the blocks alone. -/
theorem Moves.of_bl {held held' : List (List Nat)}
    (h : Stage.Step ⟨fs, used, held⟩ ⟨fs', used, held'⟩) (hbl : fs'.bl = fs.bl) :
    Moves ⟨fs, used, held⟩ ⟨fs', used, held'⟩ :=
  ⟨h, by rw [hbl]; exact .refl _⟩

theorem blockLists_singlevaraux (names : List String) (fs : FuncState) (used : Nat) :
    blockLists used (singlevaraux names fs).1.bl = blockLists used fs.bl ∧
      Longer fs.bl (singlevaraux names fs).1.bl := by
  unfold singlevaraux
  dsimp only
  generalize names.filterMap (searchvar fs) = caps
  generalize fs.bl = bl
  induction caps generalizing bl with
  | nil => exact ⟨rfl, .refl bl⟩
  | cons v caps ih =>
    obtain ⟨hlists, hlonger⟩ := ih (markupval v.reg bl)
    exact ⟨hlists.trans (blockLists_markupval used v.reg bl),
      (longer_markupval v.reg bl).trans hlonger⟩

/-- A capture moves no jump. -/
theorem moves_singlevaraux (names : List String) (fs : FuncState) (used : Nat) :
    Moves ⟨fs, used, []⟩ ⟨(singlevaraux names fs).1, used, []⟩ :=
  ⟨.of_same rfl rfl (blockLists_singlevaraux names fs used).1,
    (blockLists_singlevaraux names fs used).2⟩

/-- An expression is code without jumps. -/
theorem moves_codeExpr (op : Op) (names : List String) (fs : FuncState) (used : Nat)
    (hop : op.jumps = false) : Moves ⟨fs, used, []⟩ ⟨codeExpr op names fs, used, []⟩ :=
  (moves_singlevaraux names fs used).trans (.of_bl (Stage.step_luaK_code used hop) rfl)

/-- A test is a jump more in hand. -/
theorem moves_test (names : List String) (fs : FuncState) (used : Nat) :
    Moves ⟨fs, used, []⟩
      ⟨(condjump .test (singlevaraux names fs).2 (singlevaraux names fs).1).1, used,
        [(condjump .test (singlevaraux names fs).2 (singlevaraux names fs).1).2]⟩ :=
  (moves_singlevaraux names fs used).trans (.of_bl (Stage.step_condjump used rfl) rfl)

/-- An `OP_JMP` takes what was on hold into its list. -/
theorem moves_jump (fs : FuncState) (used : Nat) :
    Moves ⟨fs, used, []⟩ ⟨(luaK_jump fs).1, used, [(luaK_jump fs).2]⟩ :=
  .of_bl (Stage.step_jump used) rfl

/-- A condition leaves one list in hand, by induction on its tree. -/
theorem moves_goif (c : Cond) (on : Bool) (fs : FuncState) (used : Nat) :
    Moves ⟨fs, used, []⟩ ⟨(goif on c fs).1, used, [(goif on c fs).2]⟩ := by
  induction c generalizing on fs with
  | const b =>
    unfold goif
    split
    · exact moves_jump fs used
    · exact .of_bl Stage.step_nil rfl
  | test names => exact moves_test names fs used
  | not c ih => exact ih (!on) fs
  | and c d ihc ihd =>
    have hboth := (ihc false fs).trans ((ihd on (goif false c fs).1).frame [(goif false c fs).2])
    unfold goif
    cases on with
    | true => exact hboth.trans (.of_bl (Stage.step_patch_second _ _) rfl)
    | false => exact hboth.trans (.of_bl (Stage.step_concat _ _) rfl)
  | or c d ihc ihd =>
    have hboth := (ihc true fs).trans ((ihd on (goif true c fs).1).frame [(goif true c fs).2])
    unfold goif
    cases on with
    | true => exact hboth.trans (.of_bl (Stage.step_concat _ _) rfl)
    | false => exact hboth.trans (.of_bl (Stage.step_patch_second _ _) rfl)

/-! ## Entering and leaving blocks -/

theorem step_enterblock (isbreakable : Bool) (fs : FuncState) :
    Stage.Step ⟨fs, 0, []⟩ ⟨enterblock isbreakable fs, 0, []⟩ where
  lists _ hL := hL
  kept _ _ := Kept.refl _
  owes _ _ _ _ howes :=
    ⟨howes.jpc, fun list hlist => howes.lists list (List.mem_cons_of_mem _ (List.mem_cons_of_mem _ hlist))⟩

variable {b : BlockCnt} {previous : List BlockCnt}

/-- The lists of a block that is left are held by `leaveblock`, or were patched. -/
theorem step_leave (hbl : fs.bl = b :: previous) (hused : used = 0 → b.continuelist = []) :
    Stage.Step ⟨fs, used, []⟩ ⟨leave b previous fs, used - 1, [b.breaklist]⟩ := by
  have hlists : ∀ list, list ∈ blockLists used fs.bl →
      list ∈ blockLists (used - 1) previous ++ [b.breaklist] ∨ list = [] := by
    intro list hlist
    rw [hbl] at hlist
    cases used with
    | zero =>
      rw [blockLists, hused rfl] at hlist
      simp only [List.mem_cons] at hlist
      simp only [Nat.zero_sub, List.mem_append, List.mem_singleton]
      tauto
    | succ used =>
      rw [blockLists] at hlist
      simp only [List.mem_cons] at hlist
      simp only [Nat.add_sub_cancel, List.mem_append, List.mem_singleton]
      tauto
  have hcount : ∀ q, (blockLists used fs.bl).flatten.count q =
      (blockLists (used - 1) previous ++ [b.breaklist]).flatten.count q := by
    intro q
    rw [hbl]
    cases used with
    | zero =>
      rw [blockLists, hused rfl]
      simp only [Nat.zero_sub, List.flatten_cons, List.flatten_append, List.flatten_nil,
        List.count_append, List.count_nil]
      omega
    | succ used =>
      rw [blockLists]
      simp only [Nat.add_sub_cancel, List.flatten_cons, List.flatten_append, List.flatten_nil,
        List.count_append, List.count_nil]
      omega
  constructor
  case lists =>
    intro L hL
    apply Listed.perm hL
    apply Stage.perm_of_count
    intro q
    have := hcount q
    simp only [Stage.lists, leave, removevars, List.count_append, List.append_nil] at this ⊢
    omega
  case kept => exact fun _ _ => Kept.refl _
  case owes =>
    intro L code _ _ howes
    refine ⟨howes.jpc, fun list hlist => ?_⟩
    rw [Stage.lists, List.append_nil] at hlist
    obtain hlist | rfl := hlists list hlist
    · exact howes.lists list hlist
    · exact same_nil code

/-- The breaks of a block go on hold when it is left; its continues were patched before. -/
theorem step_leaveblock (hbl : fs.bl = b :: previous) (hused : used = 0 → b.continuelist = []) :
    Stage.Step ⟨fs, used, []⟩ ⟨leaveblock fs, used - 1, []⟩ := by
  rw [leaveblock_eq hbl]
  have hhere : ∀ fs : FuncState, Stage.Step ⟨fs, used - 1, [b.breaklist]⟩
      ⟨luaK_patchtohere b.breaklist fs, used - 1, []⟩ := fun _ => Stage.step_patchtohere _ _
  apply (step_leave hbl hused).trans
  split
  · exact ((Stage.step_luaK_code (used - 1) rfl).frame [b.breaklist]).trans (hhere _)
  · exact hhere _

/-- The `breaklist` of a block arrives behind it. -/
theorem sends_leaveblock (hbl : fs.bl = b :: previous) (used : Nat) (held : List (List Nat)) :
    Stage.Sends ⟨fs, used, held⟩ ⟨leaveblock fs, used - 1, held⟩ b.breaklist (leaveblock fs).pc := by
  intro _ code _ _ howes
  have hjpc := howes.jpc
  rw [leaveblock_eq hbl] at hjpc ⊢
  exact hjpc.mono (List.subset_append_right _ _)

/-- The `continuelist` of a loop is held, to be patched. -/
theorem step_continuelist (hbl : fs.bl = b :: previous) :
    Stage.Step ⟨fs, 0, []⟩ ⟨fs, 1, [b.continuelist]⟩ := by
  constructor
  case lists =>
    intro L hL
    apply Listed.perm hL
    apply Stage.perm_of_count
    intro q
    simp only [Stage.lists, hbl, blockLists, List.count_append, List.flatten_append,
      List.flatten_cons, List.flatten_nil, List.count_nil]
    omega
  case kept => exact fun _ _ => Kept.refl _
  case owes =>
    intro L code _ _ howes
    refine ⟨howes.jpc, fun list hlist => howes.lists list ?_⟩
    simp only [Stage.lists, hbl, blockLists, List.mem_append, List.mem_cons] at hlist ⊢
    tauto

/-- The same when a block for the locals lies in the loop. -/
theorem step_continuelist_scope {s : BlockCnt} (hbl : fs.bl = s :: b :: previous)
    (hs : s.continuelist = []) :
    Stage.Step ⟨fs, 0, []⟩ ⟨fs, 2, [b.continuelist]⟩ := by
  constructor
  case lists =>
    intro L hL
    apply Listed.perm hL
    apply Stage.perm_of_count
    intro q
    simp only [Stage.lists, hbl, hs, blockLists, List.count_append, List.flatten_append,
      List.flatten_cons, List.flatten_nil, List.count_nil]
    omega
  case kept => exact fun _ _ => Kept.refl _
  case owes =>
    intro L code _ _ howes
    refine ⟨howes.jpc, fun list hlist => ?_⟩
    by_cases hnil : list = []
    · rw [hnil]
      exact same_nil code
    · apply howes.lists
      simp only [Stage.lists, hbl, hs, blockLists, List.mem_append, List.mem_cons] at hlist ⊢
      tauto

/-! ## Jumps out of blocks -/

/-- The jumps of `jump` are put on the lists of the blocks. -/
structure Puts (used : Nat) (jump : List Nat) (bl bl' : List BlockCnt) : Prop where
  count : ∀ q, (blockLists used bl').flatten.count q =
    (blockLists used bl).flatten.count q + jump.count q
  same : ∀ code, (∀ list ∈ blockLists used bl', Same code list) →
    Same code jump ∧ ∀ list ∈ blockLists used bl, Same code list
  longer : Longer bl bl'

section puts

variable {jump : List Nat} {bl bl' : List BlockCnt}

/-- One list of one loop gets the jump. -/
theorem puts_break (hloop : b.isbreakable = true) :
    Puts used jump (b :: bl) ({ b with breaklist := b.breaklist ++ jump } :: bl) where
  count q := by
    cases used with
    | zero =>
      simp only [blockLists, List.flatten_cons, List.count_append]
      omega
    | succ used =>
      simp only [blockLists, List.flatten_cons, List.count_append]
      omega
  same code h := by
    have hall : Same code (b.breaklist ++ jump) := h _ (by cases used <;> exact List.mem_cons_self)
    refine ⟨hall.mono (List.subset_append_right _ _), fun list hlist => ?_⟩
    have hbreak := hall.mono (List.subset_append_left b.breaklist jump)
    cases used with
    | zero =>
      obtain rfl | hlist := List.mem_cons.1 hlist
      · exact hbreak
      · exact h list (List.mem_cons_of_mem _ hlist)
    | succ used =>
      obtain rfl | hlist := List.mem_cons.1 hlist
      · exact hbreak
      · exact h list (List.mem_cons_of_mem _ hlist)
  longer := .cons ⟨rfl, rfl, List.subset_append_left _ _, List.Subset.refl _,
    fun hb => absurd hb (by simp [hloop])⟩ (Longer.refl bl)

/-- The other list of the loop gets it. -/
theorem puts_continue (hloop : b.isbreakable = true) :
    Puts 0 jump (b :: bl) ({ b with continuelist := b.continuelist ++ jump } :: bl) where
  count q := by
    simp only [blockLists, List.flatten_cons, List.count_append]
    omega
  same code h := by
    have hall : Same code (b.continuelist ++ jump) := h _ (by simp [blockLists])
    refine ⟨hall.mono (List.subset_append_right _ _), fun list hlist => ?_⟩
    simp only [blockLists, List.mem_cons] at hlist
    obtain rfl | rfl | hlist := hlist
    · exact h _ (by simp [blockLists])
    · exact hall.mono (List.subset_append_left _ _)
    · exact h _ (by simp [blockLists, hlist])
  longer := .cons ⟨rfl, rfl, List.Subset.refl _, List.subset_append_left _ _,
    fun hb => absurd hb (by simp [hloop])⟩ (Longer.refl bl)

theorem Puts.cons (h : Puts (used - 1) jump bl bl') (c : BlockCnt) :
    Puts used jump (c :: bl) (c :: bl') where
  count q := by
    have := h.count q
    cases used with
    | zero =>
      simp only [Nat.zero_sub] at this
      simp only [blockLists, List.flatten_cons, List.count_append]
      omega
    | succ used =>
      simp only [Nat.add_sub_cancel] at this
      simp only [blockLists, List.flatten_cons, List.count_append]
      omega
  same code hall := by
    cases used with
    | zero =>
      simp only [blockLists, List.forall_mem_cons] at hall ⊢
      obtain ⟨hbreak, hcontinue, hall⟩ := hall
      obtain ⟨hjump, hlists⟩ := h.same code hall
      exact ⟨hjump, hbreak, hcontinue, hlists⟩
    | succ used =>
      simp only [blockLists, List.forall_mem_cons] at hall ⊢
      obtain ⟨hbreak, hall⟩ := hall
      obtain ⟨hjump, hlists⟩ := h.same code hall
      exact ⟨hjump, hbreak, hlists⟩
  longer := .cons (.refl c) h.longer

/-- Blocks further in do not mind. -/
theorem Puts.append (left : List BlockCnt) (h : Puts (used - left.length) jump bl bl') :
    Puts used jump (left ++ bl) (left ++ bl') := by
  induction left generalizing used with
  | nil => exact h
  | cons c left ih =>
    apply Puts.cons
    apply ih
    rwa [List.length_cons, Nat.sub_add_eq, Nat.sub_right_comm] at h

/-- The jump that is held goes on the lists of the blocks. -/
theorem Puts.moves (h : Puts used jump fs.bl bl') (breaks continues : List Nat) :
    Moves ⟨fs, used, [jump]⟩
      ⟨{ fs with bl := bl', breaks := breaks, continues := continues }, used, []⟩ := by
  refine ⟨⟨fun L hL => ?_, fun _ _ => Kept.refl _, fun L code _ _ howes => ?_⟩, h.longer⟩
  · apply Listed.perm hL
    apply Stage.perm_of_count
    intro q
    have := h.count q
    simp only [Stage.lists, List.count_append, List.flatten_append, List.flatten_cons,
      List.flatten_nil, List.append_nil] at this ⊢
    omega
  · obtain ⟨hjump, hlists⟩ := h.same code fun list hlist =>
      howes.lists list (List.mem_append_left _ hlist)
    refine ⟨howes.jpc, fun list hlist => ?_⟩
    obtain hlist | hlist := List.mem_append.1 hlist
    · exact hlists list hlist
    · rw [List.mem_singleton.1 hlist]
      exact hjump

/-- Of the two instructions the second jumps. -/
theorem moves_closeJump (left : List BlockCnt) (level : Nat) (fs : FuncState) (used : Nat) :
    Moves ⟨fs, used, []⟩ ⟨(closeJump left level fs).1, used, [(closeJump left level fs).2]⟩ := by
  unfold closeJump
  split
  · exact (Moves.of_bl (Stage.step_luaK_code used rfl) rfl).trans (moves_jump _ used)
  · exact moves_jump fs used

end puts

/-- The jump of a `break` is in the list of its loop. -/
theorem moves_breakstat {n : Int} (used : Nat) (h : breakstat n fs = .ok fs') :
    Moves ⟨fs, used, []⟩ ⟨fs', used, []⟩ := by
  unfold breakstat at h
  have happ := breakBlocks_append n fs.bl
  have hloop : ∀ b outer, (breakBlocks n fs.bl).2 = b :: outer → b.isbreakable = true :=
    fun _ _ => breakBlocks_loop n fs.bl
  rcases hb : breakBlocks n fs.bl with ⟨left, _ | ⟨b, outer⟩⟩
  · rw [hb] at h
    cases h
  · rw [hb] at h happ hloop
    cases h
    have hjump := moves_closeJump left b.nactvar fs used
    have hputs : Puts used (closeJump left b.nactvar fs).2 (closeJump left b.nactvar fs).1.bl
        (left ++ { b with breaklist := b.breaklist ++ (closeJump left b.nactvar fs).2 } :: outer) := by
      rw [bl_closeJump, ← happ]
      exact (puts_break (hloop b outer rfl)).append left
    exact hjump.trans (hputs.moves _ _)

/-- The jump of a `continue` is in the other list of the innermost loop. -/
theorem moves_continuestat (h : continuestat fs = .ok fs') : Moves ⟨fs, 0, []⟩ ⟨fs', 0, []⟩ := by
  unfold continuestat at h
  have happ := List.takeWhile_append_dropWhile (p := fun bl : BlockCnt => !bl.isbreakable) (l := fs.bl)
  have hloop := List.head?_dropWhile_not (fun bl : BlockCnt => !bl.isbreakable) fs.bl
  rw [List.span_eq_takeWhile_dropWhile] at h
  rcases hd : fs.bl.dropWhile fun bl => !bl.isbreakable with _ | ⟨b, outer⟩
  · rw [hd] at h
    cases h
  · rw [hd] at h happ hloop
    cases h
    have hb : b.isbreakable = true := by simpa using hloop
    generalize (fs.bl.takeWhile fun bl => !bl.isbreakable) = left at happ
    have hjump := moves_closeJump left b.nactvar fs 0
    have hputs : Puts 0 (closeJump left b.nactvar fs).2 (closeJump left b.nactvar fs).1.bl
        (left ++ { b with continuelist := b.continuelist ++ (closeJump left b.nactvar fs).2 } :: outer) := by
      rw [bl_closeJump, ← happ]
      apply Puts.append
      rw [Nat.zero_sub]
      exact puts_continue hb
    exact hjump.trans (hputs.moves _ _)

end moves

end LuaFltk.Compiler
