import LuaFltk.Chunk.RoundTrip

/-!
# What is loaded

A chunk that ends too soon is refused. Of any input, whatever wrote it, `luaU_undump` makes nothing
but prototypes that fit the format and that the verifier accepts, on every level; and these it reads
again from their own chunk.
-/

namespace LuaFltk.Chunk

open Bytecode Lib Lib.Reader

variable {α γ : Type}

/-! ## Chunks cut short -/

/-- More input changes nothing but an end that came too soon. -/
abbrev LoadsLocal (r : Reader ZIO String α) : Prop := Local ZIO.ahead "unexpected end" r

/-- What a reader takes decides what it gives; the others follow from the functions they are made
of. -/
theorem loadBlock_local (n : Nat) : LoadsLocal (LoadBlock n) := .take loadBlock_takes n

theorem loadByte_local : LoadsLocal LoadByte := (loadBlock_local 1).bind fun _ => .pure _

theorem loadInt_local : LoadsLocal LoadInt :=
  (loadBlock_local 4).bind fun _ => .ite (.pure _) (.fail _)

theorem loadNumber_local : LoadsLocal LoadNumber := (loadBlock_local 8).bind fun _ => .pure _

theorem loadString_local : LoadsLocal LoadString :=
  (loadBlock_local 8).bind fun _ => .ite (.pure _) ((loadBlock_local _).bind fun _ => .pure _)

theorem loadVector_local (size n : Nat) : LoadsLocal (LoadVector size n) :=
  (loadBlock_local _).bind fun _ => .pure _

theorem loadCode_local : LoadsLocal LoadCode :=
  loadInt_local.bind fun _ => (loadVector_local 4 _).bind fun _ => .pure _

theorem loadConstant_local : LoadsLocal LoadConstant := by
  refine loadByte_local.bind fun t => ?_
  refine .ite (.pure _) (.ite ?_ (.ite ?_ (.ite ?_ (.fail _))))
  · exact loadByte_local.bind fun _ => .pure _
  · exact loadNumber_local.bind fun _ => .pure _
  · exact loadString_local.bind fun _ => .pure _

/-- The nested prototypes are read by any reader of this kind. -/
theorem loadConstants_local {load : Reader ZIO String Proto} (h : LoadsLocal load) :
    LoadsLocal (LoadConstants load) := by
  refine loadInt_local.bind fun n => (loadConstant_local.times n).bind fun k => ?_
  exact loadInt_local.bind fun n => (h.times n).bind fun p => .pure _

theorem loadLocVar_local : LoadsLocal LoadLocVar :=
  loadString_local.bind fun _ => loadInt_local.bind fun _ => loadInt_local.bind fun _ => .pure _

theorem loadDebug_local : LoadsLocal LoadDebug := by
  refine loadInt_local.bind fun n => (loadVector_local 4 n).bind fun lineinfo => ?_
  refine loadInt_local.bind fun n => (loadLocVar_local.times n).bind fun locvars => ?_
  exact loadInt_local.bind fun n => (loadString_local.times n).bind fun upvalues => .pure _

theorem loadFields_local (p : Bytes) : LoadsLocal (LoadFields p) := by
  refine loadString_local.bind fun source => loadInt_local.bind fun linedefined => ?_
  refine loadInt_local.bind fun lastlinedefined => loadByte_local.bind fun nups => ?_
  refine loadByte_local.bind fun numparams => loadByte_local.bind fun is_vararg => ?_
  exact loadByte_local.bind fun maxstacksize => .pure _

/-- By induction on the levels that are left. -/
theorem loadFunction_local (levels : Nat) (p : Bytes) : LoadsLocal (LoadFunction levels p) := by
  induction levels generalizing p with
  | zero => exact .fail _
  | succ levels ih =>
    refine (loadFields_local p).bind fun f => loadCode_local.bind fun code => ?_
    refine (loadConstants_local (ih f.source)).bind fun kp => loadDebug_local.bind fun debug => ?_
    exact .ite (.pure _) (.fail _)

theorem load_local (nCcalls : Nat) : LoadsLocal (load nCcalls) := by
  refine Local.bind ?_ fun _ => loadFunction_local _ _
  exact (loadBlock_local _).bind fun _ => .ite (.pure _) (.fail _)

/-- A chunk that ends before its end is refused there, wherever it is cut; one that is nested too
deep may be refused for that before. -/
theorem cut_refused {f : Proto} (hf : f.Sound) {strip : Bool} {Z : ZIO}
    (hcut : Z.ahead <+: chunk f strip) (hne : Z.ahead ≠ chunk f strip) (nCcalls : Nat)
    (name : String) :
    luaU_undump nCcalls Z name = .error (error name "unexpected end") ∨
      LUAI_MAXCCALLS - nCcalls < f.depth ∧
        luaU_undump nCcalls Z name = .error (error name "code too deep") := by
  have hwhole : ZIO.ahead ⟨chunk f strip, []⟩ = chunk f strip := List.append_nil _
  rw [luaU_undump]
  rcases Nat.lt_or_ge (LUAI_MAXCCALLS - nCcalls) f.depth with hlt | hge
  · rcases (load_local nCcalls).truncated_refused (load_refused hf strip hlt) hwhole hcut with h | h
    · rw [h]
      exact .inl rfl
    · rw [h]
      exact .inr ⟨hlt, rfl⟩
  · rw [(load_local nCcalls).truncated (load_loads hf strip hge) hwhole hcut hne]
    exact .inl rfl

/-- A chunk that ends in the code of its nested prototype. -/
theorem cut_refused_nested : luaU_undump 1 ⟨(chunk closureChunk false).take 81, []⟩ "=closure" =
    .error (error "=closure" "unexpected end") := by
  have hahead : ZIO.ahead ⟨(chunk closureChunk false).take 81, []⟩ =
      (chunk closureChunk false).take 81 :=
    List.append_nil _
  have hlength : (chunk closureChunk false).length = 127 := by decide +kernel
  have hshorter : ZIO.ahead ⟨(chunk closureChunk false).take 81, []⟩ ≠ chunk closureChunk false := by
    intro heq
    have hsame := congrArg List.length (hahead.symm.trans heq)
    rw [List.length_take, hlength] at hsame
    exact absurd hsame (by decide)
  have hcut := cut_refused closureChunk_sound (hahead ▸ List.take_prefix 81 _) hshorter 1 "=closure"
  exact hcut.resolve_right fun hdeep => absurd hdeep.1 (by decide)

/-! ## What readers give -/

/-- An `int` is not negative. -/
theorem loadInt_gives : Gives LoadInt fun x => x < 2 ^ 31 :=
  (Gives.trivial _).bind fun _ _ => .ite (fun h => .pure h) fun _ => .fail _ _

/-- The size of a string was read from eight bytes. -/
theorem loadString_gives : Gives LoadString StringFits := by
  refine (Gives.take loadBlock_takes 8).bind fun x hx => .ite (fun _ => .pure ?_) fun hsize => ?_
  · intro b hb
    cases hb
  · refine (Gives.take loadBlock_takes _).bind fun s hs => .pure ?_
    intro b hb
    cases hb
    have hlt := number_lt x
    rw [hx] at hlt
    rw [List.length_take, hs]
    omega

theorem length_elements (size n : Nat) (b : Bytes) : (elements size n b).length = n := by
  induction n generalizing b with
  | zero => rfl
  | succ n ih => rw [elements, List.length_cons, ih]

/-- A vector has as many elements as were announced. -/
theorem loadVector_gives (size n : Nat) : Gives (LoadVector size n) fun xs => xs.length = n :=
  (Gives.trivial _).bind fun b _ => .pure (length_elements size n b)

theorem loadCode_gives : Gives LoadCode fun code => code.length < 2 ^ 31 := by
  refine loadInt_gives.bind fun n hn => (loadVector_gives 4 n).bind fun code hcode => .pure ?_
  rwa [List.length_map, hcode]

theorem loadConstant_gives : Gives LoadConstant Constant.Fits := by
  refine (Gives.trivial _).bind fun t _ => .ite (fun _ => .pure trivial) fun _ => ?_
  refine .ite (fun _ => ?_) fun _ => .ite (fun _ => ?_) fun _ => .ite (fun _ => ?_) fun _ =>
    .fail _ _
  · exact (Gives.trivial _).bind fun b _ => .pure trivial
  · exact (Gives.trivial _).bind fun n _ => .pure trivial
  · exact loadString_gives.bind fun s hs => .pure hs

/-- A list whose length was read before. -/
theorem list_gives {r : Reader ZIO String α} {P : α → Prop} (h : Gives r P) {n : Nat}
    (hn : n < 2 ^ 31) : Gives (times r n) fun xs => xs.length < 2 ^ 31 ∧ ∀ x ∈ xs, P x := by
  intro s xs s' hr
  obtain ⟨hlength, hall⟩ := Gives.times h n s xs s' hr
  exact ⟨by omega, hall⟩

/-- The counts of constants and prototypes are `int`s, and each nested prototype has what its
reader gives. -/
theorem loadConstants_gives {load : Reader ZIO String Proto} {P : Proto → Prop} (h : Gives load P) :
    Gives (LoadConstants load) fun kp =>
      (kp.1.length < 2 ^ 31 ∧ ∀ o ∈ kp.1, o.Fits) ∧ kp.2.length < 2 ^ 31 ∧ ∀ g ∈ kp.2, P g := by
  refine loadInt_gives.bind fun n hn => (list_gives loadConstant_gives hn).bind fun k hk => ?_
  exact loadInt_gives.bind fun n hn => (list_gives h hn).bind fun p hp => .pure ⟨hk, hp⟩

theorem loadLocVar_gives : Gives LoadLocVar LocVar.Fits := by
  refine loadString_gives.bind fun varname hname => loadInt_gives.bind fun startpc hstart => ?_
  exact loadInt_gives.bind fun endpc hend => .pure ⟨hname, hstart, hend⟩

structure Debug.Fits (debug : Debug) : Prop where
  lineinfo : debug.lineinfo.length < 2 ^ 31
  locvars : debug.locvars.length < 2 ^ 31 ∧ ∀ v ∈ debug.locvars, v.Fits
  upvalues : debug.upvalues.length < 2 ^ 31 ∧ ∀ s ∈ debug.upvalues, StringFits s

theorem loadDebug_gives : Gives LoadDebug Debug.Fits := by
  refine loadInt_gives.bind fun n hn => (loadVector_gives 4 n).bind fun lineinfo hlines => ?_
  refine loadInt_gives.bind fun m hm => ?_
  refine (list_gives loadLocVar_gives hm).bind fun locvars hvars => ?_
  refine loadInt_gives.bind fun m hm => (list_gives loadString_gives hm).bind fun ups hups => ?_
  exact .pure ⟨by rwa [List.length_map, hlines], hvars, hups⟩

/-- The fields that are read first fit. -/
structure Fields.HeadFits (f : Fields) : Prop where
  source : StringFits (some f.source)
  linedefined : f.linedefined < 2 ^ 31
  lastlinedefined : f.lastlinedefined < 2 ^ 31

/-- A prototype without a name has the one of the prototype around it. -/
theorem loadFields_gives {p : Bytes} (hp : StringFits (some p)) :
    Gives (LoadFields p) Fields.HeadFits := by
  refine loadString_gives.bind fun source hsource => loadInt_gives.bind fun line hline => ?_
  refine loadInt_gives.bind fun last hlast => (Gives.trivial _).bind fun nups _ => ?_
  refine (Gives.trivial _).bind fun numparams _ => (Gives.trivial _).bind fun is_vararg _ => ?_
  refine (Gives.trivial _).bind fun maxstacksize _ => .pure ⟨?_, hline, hlast⟩
  cases source with
  | none => exact hp
  | some s => exact hsource

/-- The prototype and all it nests were checked, and its levels counted. -/
theorem loadFunction_gives (levels : Nat) {p : Bytes} (hp : StringFits (some p)) :
    Gives (LoadFunction levels p) fun f => f.Sound ∧ f.depth ≤ levels := by
  induction levels generalizing p with
  | zero => exact .fail _ _
  | succ levels ih =>
    refine (loadFields_gives hp).bind fun f hf => loadCode_gives.bind fun code hcode => ?_
    refine (loadConstants_gives (ih hf.source)).bind fun kp hkp => ?_
    obtain ⟨hk, hsizep, hps⟩ := hkp
    refine loadDebug_gives.bind fun debug hdebug => .ite (fun hchecked => .pure ⟨?_, ?_⟩) fun _ =>
      .fail _ _
    · refine .mk ?_ hsizep hchecked fun g hg => (hps g hg).1
      exact { source := hf.source, linedefined := hf.linedefined,
              lastlinedefined := hf.lastlinedefined, code := hcode, k := hk,
              lineinfo := hdebug.lineinfo, locvars := hdebug.locvars, upvalues := hdebug.upvalues }
    · exact Nat.succ_le_succ (Proto.depths_le_iff.2 fun g hg => (hps g hg).2)

/-- The header says nothing about the prototype. -/
theorem load_gives (nCcalls : Nat) :
    Gives (load nCcalls) fun f => f.Sound ∧ f.depth ≤ LUAI_MAXCCALLS - nCcalls := by
  refine (Gives.trivial _).bind fun _ _ => loadFunction_gives _ fun b hb => ?_
  cases hb
  exact Nat.lt_of_lt_of_le (by decide : unknownSource.length + 1 < 4) (by norm_num)

/-- Whatever the input, what is loaded of it is accepted by the verifier on every level, is nested
no deeper than the C levels allow, and is read again from its own chunk. -/
theorem undumped_sound {nCcalls : Nat} {Z Z' : ZIO} {name : String} {f : Proto}
    (h : luaU_undump nCcalls Z name = .ok (f, Z')) :
    f.Sound ∧ f.depth ≤ LUAI_MAXCCALLS - nCcalls ∧
      ∀ (Z₂ : ZIO) (rest : Bytes), Z₂.ahead = chunk f false ++ rest →
        ∃ Z₂', luaU_undump nCcalls Z₂ name = .ok (f, Z₂') ∧ Z₂'.ahead = rest := by
  rw [luaU_undump] at h
  cases hload : load nCcalls Z with
  | error why => rw [hload] at h; cases h
  | ok r =>
    rw [hload] at h
    cases h
    obtain ⟨hsound, hdepth⟩ := load_gives nCcalls Z f Z' hload
    refine ⟨hsound, hdepth, fun Z₂ rest hZ₂ => ?_⟩
    obtain ⟨Z₂', hagain, hrest⟩ := load_loads hsound false hdepth Z₂ rest hZ₂
    exact ⟨Z₂', by rw [luaU_undump, hagain]; rfl, hrest⟩

/-- A prototype that nests another one is read from its own chunk again. -/
theorem undumped_sound_closureChunk :
    ∃ Z', luaU_undump 1 ⟨chunk closureChunk false, []⟩ "=closure" = .ok (closureChunk, Z') ∧
      closureChunk.Sound ∧ closureChunk.depth ≤ LUAI_MAXCCALLS - 1 ∧
        ∀ (Z₂ : ZIO) (rest : Bytes), Z₂.ahead = chunk closureChunk false ++ rest →
          ∃ Z₂', luaU_undump 1 Z₂ "=closure" = .ok (closureChunk, Z₂') ∧ Z₂'.ahead = rest := by
  have hloads : Loads (load 1) (blocks closureChunk false) closureChunk :=
    load_loads closureChunk_sound false (by decide)
  obtain ⟨Z', hload, -⟩ := hloads ⟨chunk closureChunk false, []⟩ [] rfl
  have hundump : luaU_undump 1 ⟨chunk closureChunk false, []⟩ "=closure" =
      .ok (closureChunk, Z') := by
    rw [luaU_undump, hload]
  exact ⟨Z', hundump, undumped_sound hundump⟩

end LuaFltk.Chunk
