import LuaFltk.Compiler.Exec
import LuaFltk.Lib.Behaviour

/-!
# What statements and code mean

An event is an expression that is evaluated, with the locals its closures capture; a declaration;
a test, with the way it goes; or a decision of a `for` loop. What expressions compute is left open, so a
program may go on either way from a test. Locals are named by their registers, which are their
places in the environment. The meaning of a statement is given by its structure and does not
mention code, jumps or lists of them.
-/

namespace LuaFltk.Compiler

open Lib (Behaviour Machine Sequential)
open Lib.Behaviour (stop emit either loop Within)

inductive Event where
  | eval (caps : List Nat)
  | decl (vars : Nat) (caps : List Nat)
  /-- `jumps` says whether the test takes its jump. -/
  | test (caps : List Nat) (jumps : Bool)
  | iterate (vars : Nat) (again : Bool)
  | ret
  deriving DecidableEq, Repr

/-! ## Code -/

/-- Where a jump goes. -/
def Ins.goes (i : Ins) (Z : Nat → Behaviour Event) : Behaviour Event := i.dest.elim stop Z

/-- The instruction at `p`, before what is done from the places it leads to. -/
def Ins.does (i : Ins) (Z : Nat → Behaviour Event) (p : Nat) : Behaviour Event :=
  match i.op with
  | .eval => emit (.eval (i.caps.map Var.reg)) (Z (p + 1))
  | .decl vars => emit (.decl vars.length (i.caps.map Var.reg)) (Z (p + 1))
  | .test => either (emit (.test (i.caps.map Var.reg) true) (i.goes Z))
      (emit (.test (i.caps.map Var.reg) false) (Z (p + 1)))
  | .jmp => i.goes Z
  | .forloop vars => either (emit (.iterate vars.length true) (i.goes Z))
      (emit (.iterate vars.length false) (Z (p + 1)))
  | .close _ => Z (p + 1)
  | .ret => emit .ret stop

def codeStep (code : List Ins) : Machine Nat Event :=
  fun Z p => code[p]?.elim stop fun i => i.does Z p

section sequential

variable {X Y : Nat → Behaviour Event}

theorem Ins.goes_mono (i : Ins) (h : ∀ p, Within (X p) (Y p)) : Within (i.goes X) (i.goes Y) := by
  unfold Ins.goes
  cases i.dest with
  | none => exact .refl _
  | some d => exact h d

/-- An instruction does more where more is done behind it. -/
theorem Ins.does_mono (i : Ins) (h : ∀ p, Within (X p) (Y p)) (p : Nat) :
    Within (i.does X p) (i.does Y p) := by
  unfold Ins.does
  cases i.op with
  | eval | decl => exact (h _).emit _
  | test | forloop => exact ((i.goes_mono h).emit _).either ((h _).emit _)
  | jmp => exact i.goes_mono h
  | close => exact h _
  | ret => exact .refl _

theorem Ins.goes_cont (i : Ins) (X : Nat → Nat → Behaviour Event) :
    Within (i.goes fun q record => ∃ n, X n q record) fun record => ∃ n, i.goes (X n) record := by
  unfold Ins.goes
  cases i.dest with
  | none => exact fun _ h => h.elim
  | some d => exact .refl _

/-- What an instruction does is done within some number of steps. -/
theorem Ins.does_cont (i : Ins) (X : Nat → Nat → Behaviour Event) (p : Nat) :
    Within (i.does (fun q record => ∃ n, X n q record) p)
      fun record => ∃ n, i.does (X n) p record := by
  unfold Ins.does
  have hjump : ∀ e, Within (emit e (i.goes fun q record => ∃ n, X n q record))
      fun record => ∃ n, emit e (i.goes (X n)) record := fun e =>
    ((i.goes_cont X).emit e).trans (Lib.Behaviour.emit_exists e _)
  cases i.op with
  | eval | decl => exact Lib.Behaviour.emit_exists _ _
  | test | forloop =>
    exact Lib.Behaviour.either_exists (hjump _) (Lib.Behaviour.emit_exists _ _)
  | jmp => exact i.goes_cont X
  | close => exact .refl _
  | ret => exact fun _ h => ⟨0, h⟩

/-- Code is a machine whose steps are those of its instructions. -/
theorem sequential_codeStep (code : List Ins) : Sequential (codeStep code) := by
  constructor
  case mono =>
    intro X Y h p
    unfold codeStep
    cases code[p]? with
    | none => exact .refl _
    | some i => exact i.does_mono h p
  case cont =>
    intro X p
    unfold codeStep
    cases code[p]? with
    | none => exact fun _ h => h.elim
    | some i => exact i.does_cont X p

end sequential

/-! ## Statements -/

/-- The names in scope, the outermost first; the control variables of a `for` have none. -/
abbrev Names := List (Option String)

/-- The register of the innermost local with the name. -/
def Names.find (ρ : Names) (n : String) : Option Nat :=
  (ρ.zipIdx.reverse.find? fun v => v.1 == some n).map Prod.snd

/-- The locals that closures in an expression capture. -/
def Names.resolve (ρ : Names) (names : List String) : List Nat := names.filterMap ρ.find

/-- What is done behind a statement: after it, at a `continue`, and at a `break` out of so many
loops and one more. -/
structure Exits where
  normal : Behaviour Event
  next : Behaviour Event
  brk : Nat → Behaviour Event

/-- The exits of the body of a loop. -/
def Exits.inside (K : Exits) (next : Behaviour Event) : Exits where
  normal := next
  next := next
  brk
    | 0 => K.normal
    | n + 1 => K.brk n

/-- A condition, and what is done if it is true and if it is false. The jump of a test is taken
if its value is `on`, which is for `goif` to choose. -/
def Cond.does (ρ : Names) (on : Bool) : Cond → (Bool → Behaviour Event) → Behaviour Event
  | .const b, k => k b
  | .test names, k => either (emit (.test (ρ.resolve names) true) (k on))
      (emit (.test (ρ.resolve names) false) (k !on))
  | .not c, k => c.does ρ (!on) fun v => k !v
  | .and c d, k => c.does ρ false fun v => if v then d.does ρ on k else k false
  | .or c d, k => c.does ρ true fun v => if v then k true else d.does ρ on k

/-- What decides an arm. -/
def Head.does (ρ : Names) : Head → (Bool → Behaviour Event) → Behaviour Event
  | .elseif c, k => c.does ρ false k
  | .of names, k => (Cond.test names).does ρ false k

/-- The names that a statement declares for those behind it. -/
def Stat.declares : Stat → Names
  | .localstat vars _ => vars.map some
  | .localfunc var _ => [some var]
  | _ => []

def Chunk.declares : Chunk → Names
  | .seq s rest => s.declares ++ rest.declares
  | _ => []

/-- The three control variables of a `for`, and those it declares. -/
def forNames (vars : List String) : Names := [none, none, none] ++ vars.map some

mutual

/-- The meaning of a statement, given what is done behind it. -/
def Stat.does (ρ : Names) : Stat → Exits → Behaviour Event
  | .exprstat names, K => emit (.eval (ρ.resolve names)) K.normal
  | .localstat vars names, K => emit (.decl vars.length (ρ.resolve names)) K.normal
  | .localfunc var names, K =>
    emit (.decl 1 (Names.resolve (ρ ++ [some var]) names)) K.normal
  | .dostat body, K => body.does ρ K
  | .whilestat c body, K => loop fun again =>
    c.does ρ false fun v => if v then body.does ρ (K.inside again) else K.normal
  | .repeatstat body c, K => loop fun again =>
    body.does ρ (K.inside (c.does (ρ ++ body.declares) false fun v => if v then K.normal else again))
  | .fornum var names body, K => emit (.decl 3 (ρ.resolve names)) (loop fun again =>
    either (emit (.iterate 1 true) (body.does (ρ ++ forNames [var]) (K.inside again)))
      (emit (.iterate 1 false) K.normal))
  | .forlist vars names body, K => emit (.decl 3 (ρ.resolve names)) (loop fun again =>
    either (emit (.iterate vars.length true) (body.does (ρ ++ forNames vars) (K.inside again)))
      (emit (.iterate vars.length false) K.normal))
  | .ifstat c body rest, K => c.does ρ false fun v => if v then body.does ρ K else rest.does ρ K
  | .selectstat names values body rest, K => emit (.eval (ρ.resolve names))
    ((Head.of values).does ρ fun v => if v then body.does ρ K else rest.does ρ K)

def Chunk.does (ρ : Names) : Chunk → Exits → Behaviour Event
  | .done, K => K.normal
  | .retstat none, _ => emit .ret stop
  | .retstat (some names), _ => emit (.eval (ρ.resolve names)) (emit .ret stop)
  | .breakstat n, K => K.brk (n - 1)
  | .continuestat, K => K.next
  | .seq s rest, K => s.does ρ { K with normal := rest.does (ρ ++ s.declares) K }

def Arms.does (ρ : Names) : Arms → Exits → Behaviour Event
  | .done, K => K.normal
  | .otherwise body, K => body.does ρ K
  | .arm head body rest, K => head.does ρ fun v => if v then body.does ρ K else rest.does ρ K

end

/-- The meaning of a function: behind its body it returns. -/
def funcDoes (params : List String) (c : Chunk) : Behaviour Event :=
  c.does (params.map some) ⟨emit .ret stop, stop, fun _ => stop⟩

end LuaFltk.Compiler
