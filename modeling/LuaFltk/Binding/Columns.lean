import Mathlib.Tactic
import Mathlib.Data.List.TakeWhile

/-!
# Column widths and pixmaps from Lua tables

`fltk_Fl_Browser_set_column_widths`, `fltk_Fl_Browser_get_column_widths` and the constructor
`Lua_Fl_Pixmap` of `fl_lua_misc.cpp`. A frame keeps beside its values how far the stack has
grown since the C function was called. Lua's numbers are rationals here, for what counts is
which of them an `int` can hold.
-/

namespace LuaFltk.Binding.Columns

/-- The slots a C function may use without asking for more. -/
def LUA_MINSTACK : Nat := 20

/-- A Lua value. -/
inductive Value where
  | nil
  | number (q : ℚ)
  | string (s : String)
  | table
  | other
  deriving DecidableEq

/-- A table as a C function sees it: its length, what indexing it gives, which a metamethod
may have answered, and what is stored. -/
structure Table where
  objlen : Nat
  gettable : Value → Value
  rawgeti : Value → Value

/-- What the language leaves to the machine: the conversion of a number no integer type has
room for, and the numbers that strings are numerals of. -/
structure Machine where
  out_of_range : ℚ → Int
  number2str : ℚ → String
  str2number : String → Option ℚ

/-- The values pushed since the C function was called, the top first, and the most there were
at any time. -/
structure Frame where
  stack : List Value
  peak : Nat
  le_peak : stack.length ≤ peak

namespace Frame

/-- A C function has been called. -/
def entry : Frame := ⟨[], 0, Nat.zero_le 0⟩

def push (F : Frame) (v : Value) : Frame where
  stack := v :: F.stack
  peak := max F.peak (F.stack.length + 1)
  le_peak := le_max_right _ _

/-- The top takes another value. -/
def setTop (F : Frame) (v : Value) : Frame where
  stack := F.stack.set 0 v
  peak := F.peak
  le_peak := by simpa using F.le_peak

def pop (F : Frame) (n : Nat) : Frame where
  stack := F.stack.drop n
  peak := F.peak
  le_peak := (F.stack.drop_sublist n).length_le.trans F.le_peak

def top (F : Frame) : Value := F.stack.headD .nil

def lua_pushnumber (F : Frame) (q : ℚ) : Frame := F.push (.number q)

/-- `lua_gettable(L, t)`: the key on top is replaced by the value. -/
def lua_gettable (F : Frame) (t : Table) : Frame := F.setTop (t.gettable F.top)

/-- `lua_rawgeti(L, t, n)`. -/
def lua_rawgeti (F : Frame) (t : Table) (n : Nat) : Frame := F.push (t.rawgeti (.number n))

end Frame

/-- `tonumber`: a string counts if it is a numeral. -/
def tonumber (M : Machine) : Value → Option ℚ
  | .number q => some q
  | .string s => M.str2number s
  | _ => none

/-- The conversion of a number to an integer type of 64 bits drops the fraction. -/
def lua_number2integer (M : Machine) (q : ℚ) : Int :=
  let n := q.num.tdiv q.den
  if -2 ^ 63 ≤ n ∧ n < 2 ^ 63 then n else M.out_of_range q

/-- `lua_tointeger(L, -1)`. -/
def lua_tointeger (M : Machine) (v : Value) : Int :=
  match tonumber M v with
  | some q => lua_number2integer M q
  | none => 0

/-- An assignment to an `int`. -/
def toInt (n : Int) : Int := n.bmod (2 ^ 32)

/-- `lua_tostring(L, -1)`, which turns a number into a string where it stands. -/
def lua_tostring (M : Machine) (F : Frame) : Option String × Frame :=
  match F.top with
  | .string s => (some s, F)
  | .number q => (some (M.number2str q), F.setTop (.string (M.number2str q)))
  | _ => (none, F)

/-- The blocks of memory in use, and the pointers of a browser: what `column_widths_` points to
ends with a zero, and an owned block was allocated before. -/
structure Browser where
  blocks : Nat → Option (List Int)
  nblocks : Nat
  column_widths_ : Nat
  column_widths_owned_ : Option Nat
  terminated : ∃ l, blocks column_widths_ = some (l ++ [0])
  allocated : ∀ arr, column_widths_owned_ = some arr → arr < nblocks

/-- A new browser: `column_widths_` points to the static array `no_columns`. -/
def Browser.new : Browser where
  blocks arr := if arr = 0 then some [0] else none
  nblocks := 1
  column_widths_ := 0
  column_widths_owned_ := none
  terminated := ⟨[], rfl⟩
  allocated := by
    intro arr harr
    cases harr

/-- `if(arr_old) free(arr_old)`. -/
def free (blocks : Nat → Option (List Int)) : Option Nat → Nat → Option (List Int)
  | some arr_old => Function.update blocks arr_old none
  | none => blocks

/-- An array allocated later is not the one that is freed. -/
theorem free_of_ne {blocks : Nat → Option (List Int)} {arr_old : Option Nat} {arr : Nat}
    (h : ∀ old, arr_old = some old → old < arr) : free blocks arr_old arr = blocks arr := by
  cases arr_old with
  | none => rfl
  | some old => exact Function.update_of_ne (h old rfl).ne' _ _

/-- The loop of `fltk_Fl_Browser_set_column_widths` from `i` on, `k` elements being left: what
is written to `arr[i]` and behind it. -/
def setLoop (M : Machine) (tbl : Table) : Nat → Nat → Frame → List Int × Frame
  | _, 0, F => ([], F)
  | i, k + 1, F =>
    let F := F.lua_pushnumber (i + 1)
    let F := F.lua_gettable tbl
    let a := toInt (lua_tointeger M F.top)
    let (arr, F) := setLoop M tbl (i + 1) k F
    (a :: arr, F)

def fltk_Fl_Browser_set_column_widths (M : Machine) (brw : Browser) (tbl : Table) (F : Frame) :
    Browser × Frame :=
  let arr_size := tbl.objlen
  let arr_old := brw.column_widths_owned_
  let (widths, F) := setLoop M tbl 0 arr_size F
  let arr := brw.nblocks
  let blocks := free (Function.update brw.blocks arr (some (widths ++ [0]))) arr_old
  have harr : blocks arr = some (widths ++ [0]) :=
    (free_of_ne brw.allocated).trans (Function.update_self ..)
  ({ blocks := blocks
     nblocks := arr + 1
     column_widths_ := arr
     column_widths_owned_ := some arr
     terminated := ⟨widths, harr⟩
     allocated := by
      rintro _ ⟨⟩
      exact Nat.lt_succ_self arr }, F)

/-- The loop of `fltk_Fl_Browser_get_column_widths`, `arr` being what is read from the pointer
on: the keys and values set in the new table. Reading behind the block fails. -/
def getLoop : Nat → List Int → Frame → Option (List (Value × Value) × Frame)
  | _, [], _ => none
  | i, a :: arr, F =>
    if a = 0 then some ([], F)
    else do
      let F := F.lua_pushnumber i
      let F := F.lua_pushnumber a
      let (made, F) ← getLoop (i + 1) arr (F.pop 2)
      return ((.number i, .number a) :: made, F)

def fltk_Fl_Browser_get_column_widths (brw : Browser) (F : Frame) :
    Option (List (Value × Value) × Frame) := do
  let arr ← brw.blocks brw.column_widths_
  getLoop 1 arr (F.push .table)

/-- The loop of `Lua_Fl_Pixmap`. -/
def pixmapLoop (M : Machine) (tbl : Table) : Nat → Nat → Frame → List (Option String) × Frame
  | _, 0, F => ([], F)
  | i, k + 1, F =>
    let F := F.lua_rawgeti tbl (i + 1)
    let (s, F) := lua_tostring M F
    let (imageData, F) := pixmapLoop M tbl (i + 1) k F
    (s :: imageData, F)

def Lua_Fl_Pixmap (M : Machine) (tbl : Table) (F : Frame) : List (Option String) × Frame :=
  pixmapLoop M tbl 0 tbl.objlen F

/-! ## The height of the stack -/

variable (M : Machine) (tbl : Table)

/-- The elements a C function reads. -/
def Table.elements (tbl : Table) : List Value :=
  (List.range tbl.objlen).map fun i : Nat => tbl.gettable (.number (i + 1))

/-- Every turn of the loop leaves the element it read on the stack. -/
theorem setLoop_frame (k i : Nat) (F : Frame) :
    (setLoop M tbl i k F).2.stack.length = F.stack.length + k ∧
      (setLoop M tbl i k F).2.peak = max F.peak (F.stack.length + k) := by
  induction k generalizing i F with
  | zero => exact ⟨rfl, (max_eq_left F.le_peak).symm⟩
  | succ k ih =>
    obtain ⟨hstack, hpeak⟩ := ih (i + 1) ((F.lua_pushnumber (i + 1)).lua_gettable tbl)
    have hlen : ((F.lua_pushnumber (i + 1)).lua_gettable tbl).stack.length =
        F.stack.length + 1 := by
      simp [Frame.lua_pushnumber, Frame.lua_gettable, Frame.setTop, Frame.push]
    have hmax : ((F.lua_pushnumber (i + 1)).lua_gettable tbl).peak =
        max F.peak (F.stack.length + 1) := rfl
    exact ⟨hstack.trans (by omega), hpeak.trans (by omega)⟩

theorem lua_tostring_frame (F : Frame) :
    (lua_tostring M F).2.stack.length = F.stack.length ∧ (lua_tostring M F).2.peak = F.peak := by
  unfold lua_tostring
  split
  · exact ⟨rfl, rfl⟩
  · exact ⟨by simp [Frame.setTop], rfl⟩
  · exact ⟨rfl, rfl⟩

/-- Every turn leaves a slot on the stack. -/
theorem pixmapLoop_frame (k i : Nat) (F : Frame) :
    (pixmapLoop M tbl i k F).2.stack.length = F.stack.length + k ∧
      (pixmapLoop M tbl i k F).2.peak = max F.peak (F.stack.length + k) := by
  induction k generalizing i F with
  | zero => exact ⟨rfl, (max_eq_left F.le_peak).symm⟩
  | succ k ih =>
    obtain ⟨hlen, hmax⟩ := lua_tostring_frame M (F.lua_rawgeti tbl (i + 1))
    obtain ⟨hstack, hpeak⟩ := ih (i + 1) (lua_tostring M (F.lua_rawgeti tbl (i + 1))).2
    have hpush : (F.lua_rawgeti tbl (i + 1)).stack.length = F.stack.length + 1 := rfl
    have hpush' : (F.lua_rawgeti tbl (i + 1)).peak = max F.peak (F.stack.length + 1) := rfl
    exact ⟨hstack.trans (by omega), hpeak.trans (by omega)⟩

/-- As many slots are used as the table has elements. -/
theorem set_column_widths_peak (brw : Browser) :
    (fltk_Fl_Browser_set_column_widths M brw tbl .entry).2.peak = tbl.objlen := by
  have h := (setLoop_frame M tbl tbl.objlen 0 .entry).2
  exact h.trans (by simp [Frame.entry])

/-- The same of a pixmap. -/
theorem Lua_Fl_Pixmap_peak : (Lua_Fl_Pixmap M tbl .entry).2.peak = tbl.objlen := by
  have h := (pixmapLoop_frame M tbl tbl.objlen 0 .entry).2
  exact h.trans (by simp [Frame.entry])

/-! ## Reading the widths back -/

/-- What is stored for an element. -/
def width (M : Machine) (v : Value) : Int := toInt (lua_tointeger M v)

/-- The widths come from the elements in order. -/
theorem setLoop_widths (k i : Nat) (F : Frame) :
    (setLoop M tbl i k F).1 =
      (List.range' i k).map fun j : Nat => width M (tbl.gettable (.number (j + 1))) := by
  induction k generalizing i F with
  | zero => rfl
  | succ k ih =>
    show width M ((F.lua_pushnumber (i + 1)).lua_gettable tbl).top ::
      (setLoop M tbl (i + 1) k _).1 = _
    rw [ih, List.range'_succ, List.map_cons]
    rfl

/-- The terminator is where the reading stops. -/
theorem getLoop_eq (arr : List Int) (i : Nat) (F : Frame) :
    (getLoop i (arr ++ [0]) F).map Prod.fst =
      some (((arr.takeWhile (· ≠ 0)).zipIdx i).map fun e => (.number e.2, .number e.1)) := by
  induction arr generalizing i F with
  | nil => rfl
  | cons a arr ih =>
    by_cases ha : a = 0
    · subst ha
      rfl
    · have h := ih (i + 1) (((F.lua_pushnumber i).lua_pushnumber a).pop 2)
      rw [Option.map_eq_some_iff] at h
      obtain ⟨⟨made, F'⟩, hget, hmade⟩ := h
      have hstep : getLoop i (a :: arr ++ [0]) F = some ((.number i, .number a) :: made, F') := by
        show (if a = 0 then _ else _) = _
        rw [if_neg ha]
        show (getLoop (i + 1) (arr ++ [0]) _).bind _ = _
        rw [hget]
        rfl
      rw [hstep, List.takeWhile_cons_of_pos (by simpa using ha)]
      simpa using hmade

/-- The keys and values of a table made of a list. -/
def listed (l : List Value) : List (Value × Value) := (l.zipIdx 1).map fun e => (.number e.2, e.1)

/-- The elements of a table tell its list. -/
theorem listed_injective : Function.Injective listed := by
  intro l l' h
  have hsnd : ∀ l, (listed l).map Prod.snd = l := by
    intro l
    rw [listed, List.map_map]
    exact List.zipIdx_map_fst 1 l
  rw [← hsnd l, h, hsnd l']

/-- The widths that are read are those up to the first zero that was stored. -/
theorem set_then_get (brw : Browser) (F F' : Frame) :
    (fltk_Fl_Browser_get_column_widths (fltk_Fl_Browser_set_column_widths M brw tbl F).1 F').map
      Prod.fst =
      some (listed (((tbl.elements.map (width M)).takeWhile (· ≠ 0)).map fun a : Int =>
        Value.number a)) := by
  have hwidths : (setLoop M tbl 0 tbl.objlen F).1 = tbl.elements.map (width M) := by
    rw [setLoop_widths, Table.elements, List.map_map, List.range_eq_range']
    rfl
  have hblock : (fltk_Fl_Browser_set_column_widths M brw tbl F).1.blocks brw.nblocks =
      some (tbl.elements.map (width M) ++ [0]) := by
    rw [← hwidths]
    exact (free_of_ne brw.allocated).trans (Function.update_self ..)
  have hread := getLoop_eq (tbl.elements.map (width M)) 1 (F'.push .table)
  show (Option.bind ((fltk_Fl_Browser_set_column_widths M brw tbl F).1.blocks brw.nblocks) _).map
    _ = _
  rw [hblock]
  refine hread.trans (congrArg some ?_)
  rw [listed, List.zipIdx_map, List.map_map]
  rfl

/-- Whatever was set, the reading ends at the terminator. -/
theorem get_column_widths_isSome (brw : Browser) (F : Frame) :
    (fltk_Fl_Browser_get_column_widths brw F).isSome := by
  obtain ⟨l, hl⟩ := brw.terminated
  have hread := congrArg Option.isSome (getLoop_eq l 1 (F.push .table))
  show ((brw.blocks brw.column_widths_).bind _).isSome
  rw [hl]
  simpa using hread

/-- A number that an `int` holds. -/
def Value.IsInt (v : Value) : Prop := ∃ n : Int, -2 ^ 31 ≤ n ∧ n < 2 ^ 31 ∧ v = .number n

/-- An element that is an `int` is taken as it is. -/
theorem width_of_int {n : Int} (hlo : -2 ^ 31 ≤ n) (hhi : n < 2 ^ 31) :
    width M (.number n) = n := by
  have htrunc : ((n : ℚ).num).tdiv (n : ℚ).den = n := by simp
  have hto : lua_tointeger M (.number n) = n := by
    show lua_number2integer M n = n
    unfold lua_number2integer
    rw [htrunc]
    exact if_pos ⟨by omega, by omega⟩
  rw [width, hto, toInt]
  exact Int.bmod_eq_of_le (by omega) (by omega)

theorem isInt_width (v : Value) : Value.IsInt (.number (width M v)) :=
  ⟨width M v, Int.le_bmod (by decide), Int.bmod_lt (by decide), rfl⟩

/-- The elements up to the first zero. -/
def untilZero (l : List Value) : List Value := l.takeWhile (· ≠ .number 0)

/-- The elements up to the first zero are read back exactly if each is a number an `int`
holds. -/
theorem widths_eq_iff (l : List Value) :
    (((l.map (width M)).takeWhile (· ≠ 0)).map fun a : Int => Value.number a) = untilZero l ↔
      ∀ v ∈ untilZero l, v.IsInt := by
  constructor
  · intro h v hv
    rw [← h, List.mem_map] at hv
    obtain ⟨a, ha, rfl⟩ := hv
    obtain ⟨v, -, rfl⟩ := List.mem_map.1 ((List.takeWhile_subset _) ha)
    exact isInt_width M v
  · intro h
    induction l with
    | nil => rfl
    | cons v l ih =>
      by_cases hv : v = .number 0
      · have hzero : width M v = 0 := by
          rw [hv]
          exact_mod_cast width_of_int M (n := 0) (by decide) (by decide)
        rw [untilZero, List.map_cons, List.takeWhile_cons_of_neg (by simpa using hzero),
          List.takeWhile_cons_of_neg (by simpa using hv)]
        rfl
      · have hcons : untilZero (v :: l) = v :: untilZero l :=
          List.takeWhile_cons_of_pos (by simpa using hv)
        rw [hcons] at h ⊢
        obtain ⟨n, hlo, hhi, rfl⟩ := h v (List.mem_cons_self ..)
        have hne : n ≠ 0 := by
          rintro rfl
          exact hv (by norm_num)
        have ih := ih fun v hv => h v (List.mem_cons_of_mem _ hv)
        rw [List.map_cons, width_of_int M hlo hhi, List.takeWhile_cons_of_pos (by simpa using hne),
          List.map_cons, ih]

/-! ## The two functions together -/

/-- What the slots of a call and the widths read back are to be. -/
structure Sound (M : Machine) (brw : Browser) (tbl : Table) : Prop where
  set_peak : (fltk_Fl_Browser_set_column_widths M brw tbl .entry).2.peak ≤ LUA_MINSTACK
  pixmap_peak : (Lua_Fl_Pixmap M tbl .entry).2.peak ≤ LUA_MINSTACK
  read_back : (fltk_Fl_Browser_get_column_widths
    (fltk_Fl_Browser_set_column_widths M brw tbl .entry).1 .entry).map Prod.fst =
      some (listed (untilZero tbl.elements))

/-- The calls stay within their slots and the widths are read back exactly if the table has
no more elements than there are slots, and those up to the first zero are numbers that an
`int` holds. -/
theorem column_widths_sound_iff (M : Machine) (brw : Browser) (tbl : Table) :
    Sound M brw tbl ↔ tbl.objlen ≤ LUA_MINSTACK ∧ ∀ v ∈ untilZero tbl.elements, v.IsInt := by
  constructor
  · intro h
    have hlen := h.set_peak
    rw [set_column_widths_peak] at hlen
    have hread := h.read_back
    rw [set_then_get] at hread
    exact ⟨hlen, (widths_eq_iff M _).1 (listed_injective (Option.some.inj hread))⟩
  · rintro ⟨hlen, hint⟩
    constructor
    · rwa [set_column_widths_peak]
    · rwa [Lua_Fl_Pixmap_peak]
    · rw [set_then_get, (widths_eq_iff M _).2 hint]

/-- A table of 21 widths. -/
def widths21 : Table where
  objlen := 21
  gettable _ := .number 80
  rawgeti _ := .number 80

theorem widths21_unsound : ¬ ∀ M brw tbl, Sound M brw tbl := by
  intro h
  let M : Machine := ⟨fun _ => 0, fun _ => "", fun _ => none⟩
  have hpeak := (h M .new widths21).set_peak
  revert hpeak
  decide +kernel

end LuaFltk.Binding.Columns
