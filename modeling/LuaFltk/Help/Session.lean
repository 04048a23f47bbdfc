import LuaFltk.Help.Arrays
import LuaFltk.Lib.Run

/-!
# A help view in use

The elements that `format` reaches, and the widget as a program uses it: its setters, the
drawing of blocks, and the layout of a document, in which a table is measured when its tag is
read. A run is a sequence of turns of the loops, with any text and whatever the measures say.
-/

namespace LuaFltk.Help

open Lib

/-- The code that the scan of `format` uses. -/
def theEnv : Env := ⟨quote_char, fl_utf8encode⟩

/-- More answers that measuring the text gives in a turn of `format`: whether the word or the
image has no room on the line, how many preformatted lines come before one that is too wide,
and the same for the last word. -/
structure Flow where
  wrap : Bool
  lines : Nat
  lastWide : Bool
  lastWrap : Bool

/-- The variables of `format`. -/
structure FormatScan where
  value_ : Text
  scan : Scan
  line : Int

namespace FormatScan

/-- `do_align`, `n` times. -/
def aligns (line31_ : Int) : Nat → Int → List Access × Int
  | 0, line => ([], line)
  | n + 1, line =>
    let r := aligns line31_ n (nextLine line31_ line)
    (.line line :: r.1, r.2)

/-- The end of a word. -/
def wordEnd (line31_ : Int) (a : Wide) (f : Flow) (st : Scan) (line : Int) : List Access × Int :=
  if (deref st.ptr = 60 ∨ isspace (deref st.ptr)) ∧ 0 < st.s then
    let n :=
      if !st.head && !st.pre then if !a.word && f.wrap then 1 else 0
      else if st.pre then
        if a.spaces then f.lines else ((st.ptr.takeWhile isspace).filter (· = 10)).length
      else 0
    let r := aligns line31_ n line
    (.buf st.s :: r.1, r.2)
  else ([], line)

/-- What a tag does: a tag that begins a block begins its lines. -/
def tagAccess (line31_ : Int) (a : Wide) (f : Flow) (R : Rows) (line : Int) (t : TagAt) :
    List Access × Int :=
  let next := (aligns line31_ 1 line).2
  match t.buf_tag with
  | .TD | .TH =>
    if R.row = 0 then ([], line)
    else if t.is_close_tag then ([.line line], next)
    else
      (.line line :: (span .columns 0 R.column ++ span .columns R.column (TableScan.colspanOf t.attrs) ++
        [.cells R.column]), 0)
  | .TR =>
    (.line line :: if t.is_close_tag ∨ R.row ≠ 0 then span .cells 0 R.column else [], 0)
  | .BR => ([.line line], next)
  | .IMG => if !a.image && f.wrap then ([.line line], next) else ([], line)
  | tag =>
    if tag.isBlock then
      -- a table that is too wide ends the turn before its block is begun
      ([.line line], if tag = .TABLE ∧ !t.is_close_tag ∧ a.table then next else 0)
    else ([], line)

/-- The part of a turn behind the end of a word. -/
def bodyAccess (line31_ : Int) (a : Wide) (f : Flow) (st : Scan) (line : Int) : List Access × Int :=
  let c := deref st.ptr
  if c = 60 then
    if st.ptr.tail.take 3 = ascii "!--" then ([], line)
    else
      let r := tagAccess line31_ a f st.rows line (readTagAt st.ptr.tail)
      (nameWrites st.ptr.tail ++ r.1, r.2)
  else if c = 10 ∧ st.pre then if a.line then ([], line) else aligns line31_ 1 line
  else if isspace c then ([], line)
  else if c = 38 ∧ st.s < 1023 then (writes st.s (entity st.ptr).1, line)
  else if st.s < 1023 then (writes st.s 1, line)
  else ([], line)

/-- What is done behind the loop over the text. -/
def ending (line31_ : Int) (f : Flow) (st : Scan) (line : Int) : List Access :=
  if 0 < st.s && !st.head then
    if f.lastWide then [.buf st.s]
    else .buf st.s :: (aligns line31_ (if f.lastWrap then 2 else 1) line).1
  else (aligns line31_ 1 line).1

/-- A turn of the loop, with what is done behind it when it is left; `none` is the end of
`format`. -/
def turn (line31_ : Int) (a : Wide) (f : Flow) (F : FormatScan) : List Access × Option FormatScan :=
  if deref F.scan.ptr = 0 then (ending line31_ f F.scan F.line, none)
  else
    let w := wordEnd line31_ a f F.scan F.line
    match endOfWord a F.scan with
    | none =>
      (w.1 ++ ending line31_ f F.scan w.2,
        some { F with scan := begin F.value_ F.scan.rows.cells, line := 0 })
    | some st =>
      let r := bodyAccess line31_ a f st w.2
      match Help.turn theEnv a F.scan with
      | .next st' _ => (w.1 ++ r.1, some { F with scan := st', line := r.2 })
      | .restart =>
        (w.1 ++ r.1 ++ ending line31_ f { st with s := if deref st.ptr = 60 then 0 else st.s } r.2,
          some { F with scan := begin F.value_ F.scan.rows.cells, line := 0 })
      | .leave => (w.1 ++ r.1 ++ ending line31_ f st r.2, none)

/-- The `<TABLE>` that a turn comes to, whose columns are measured. -/
def opensTable (a : Wide) (F : FormatScan) : Option Text :=
  match endOfWord a F.scan, Help.tagOf a F.scan with
  | some st, some t => if t.buf_tag = .TABLE ∧ t.is_close_tag = false then some st.ptr else none
  | _, _ => none

/-- What a turn asks of the state: an entity fits into the buffer with a zero byte behind it,
and a cell of a row spans at least one column of those there are. -/
structure Fits (F : FormatScan) : Prop where
  entity : ∀ a st, endOfWord a F.scan = some st → deref st.ptr = 38 → st.s < 1023 →
    st.s + (Help.entity st.ptr).1 ≤ 1023
  cell : ∀ a t, Help.tagOf a F.scan = some t → t.buf_tag = .TD ∨ t.buf_tag = .TH →
    t.is_close_tag = false → F.scan.rows.row ≠ 0 →
    1 ≤ TableScan.colspanOf t.attrs ∧
      F.scan.rows.column + TableScan.colspanOf t.attrs ≤ MAX_COLUMNS

structure Inv (F : FormatScan) : Prop where
  s : F.scan.s ≤ 1023
  column : 0 ≤ F.scan.rows.column ∧ F.scan.rows.column ≤ MAX_COLUMNS
  line : LineInv F.line

variable {line31_ line : Int} {F : FormatScan}

/-- Alignments stay on the lines there are. -/
theorem aligns_spec (hl : line31_ ≤ 31) (n : Nat) (h : LineInv line) :
    InRange (aligns line31_ n line).1 ∧ LineInv (aligns line31_ n line).2 := by
  induction n generalizing line with
  | zero => exact ⟨inRange_nil, h⟩
  | succ n ih =>
    obtain ⟨hrange, hline⟩ := ih (h.next hl)
    exact ⟨inRange_cons.2 ⟨h.inRange, hrange⟩, hline⟩

/-- So does the end of a word. -/
theorem wordEnd_spec (hl : line31_ ≤ 31) (a : Wide) (f : Flow) {st : Scan} (hs : st.s ≤ 1023)
    (h : LineInv line) :
    InRange (wordEnd line31_ a f st line).1 ∧ LineInv (wordEnd line31_ a f st line).2 := by
  unfold wordEnd
  split
  · obtain ⟨hrange, hline⟩ := aligns_spec hl _ h
    exact ⟨inRange_cons.2 ⟨inRange_buf hs, hrange⟩, hline⟩
  · exact ⟨inRange_nil, h⟩

/-- So does the end of the text. -/
theorem ending_spec (hl : line31_ ≤ 31) (f : Flow) {st : Scan} (hs : st.s ≤ 1023)
    (h : LineInv line) : InRange (ending line31_ f st line) := by
  have haligns : ∀ n, InRange (aligns line31_ n line).1 := fun n => (aligns_spec hl n h).1
  unfold ending
  split
  · split
    · exact inRange_cons.2 ⟨inRange_buf hs, inRange_nil⟩
    · exact inRange_cons.2 ⟨inRange_buf hs, haligns _⟩
  · exact haligns 1

/-- What a tag reaches. -/
theorem tagAccess_spec (hl : line31_ ≤ 31) (a : Wide) (f : Flow) {R : Rows} {t : TagAt}
    (h : LineInv line) (hcol : 0 ≤ R.column ∧ R.column ≤ MAX_COLUMNS)
    (hcell : t.buf_tag = .TD ∨ t.buf_tag = .TH → t.is_close_tag = false → R.row ≠ 0 →
      1 ≤ TableScan.colspanOf t.attrs ∧ R.column + TableScan.colspanOf t.attrs ≤ MAX_COLUMNS) :
    InRange (tagAccess line31_ a f R line t).1 ∧ LineInv (tagAccess line31_ a f R line t).2 := by
  have hnext : LineInv (aligns line31_ 1 line).2 := (aligns_spec hl 1 h).2
  have hzero : LineInv 0 := ⟨by omega, by omega⟩
  have hline : InRange [.line line] := inRange_cons.2 ⟨h.inRange, inRange_nil⟩
  have hcells : InRange (span .cells 0 R.column) :=
    inRange_span (fun _ h0 h1 => ⟨h0, h1⟩) (le_refl 0) (by omega)
  unfold tagAccess
  dsimp only
  split
  case h_1 htag | h_2 htag =>
    split
    · exact ⟨inRange_nil, h⟩
    · next hrow =>
      split
      · exact ⟨hline, hnext⟩
      · next hopen =>
        obtain ⟨h1, h2⟩ := hcell (by simp [htag]) (by simpa using hopen) hrow
        refine ⟨inRange_cons.2 ⟨h.inRange, inRange_append.2 ⟨inRange_append.2 ⟨?_, ?_⟩, ?_⟩⟩, hzero⟩
        · exact TableScan.inRange_columns (le_refl 0) (by omega)
        · exact TableScan.inRange_columns hcol.1 h2
        · exact inRange_cons.2 ⟨⟨hcol.1, by omega⟩, inRange_nil⟩
  case h_3 =>
    refine ⟨inRange_cons.2 ⟨h.inRange, ?_⟩, hzero⟩
    split
    · exact hcells
    · exact inRange_nil
  case h_4 => exact ⟨hline, hnext⟩
  case h_5 =>
    split
    · exact ⟨hline, hnext⟩
    · exact ⟨inRange_nil, h⟩
  case h_6 =>
    split
    · refine ⟨hline, ?_⟩
      dsimp only
      split
      · exact hnext
      · exact hzero
    · exact ⟨inRange_nil, h⟩

/-- Behind the end of a word the word is not longer than before. -/
theorem endOfWord_s {a : Wide} {st st' : Scan} (h : endOfWord a st = some st') : st'.s ≤ st.s := by
  unfold endOfWord at h
  split at h
  · split at h
    · split at h
      · cases h
      · cases h
        exact Nat.zero_le _
    · split at h
      · split at h
        · cases h
        · cases h
          exact Nat.zero_le _
      · cases h
        exact Nat.zero_le _
  · cases h
    exact le_refl _

theorem tagOf_eq_some {a : Wide} {st st' : Scan} (h : endOfWord a st = some st')
    (hlt : deref st'.ptr = 60) (hcom : st'.ptr.tail.take 3 ≠ ascii "!--") :
    Help.tagOf a st = some (readTagAt st'.ptr.tail) := by
  simp only [Help.tagOf, h]
  exact if_pos ⟨hlt, hcom⟩

/-- What a turn reaches behind the end of a word. -/
theorem bodyAccess_spec (hl : line31_ ≤ 31) (a : Wide) (f : Flow) {st : Scan} (hinv : F.Inv)
    (hfits : F.Fits) (hword : endOfWord a F.scan = some st) (h : LineInv line) :
    InRange (bodyAccess line31_ a f st line).1 ∧ LineInv (bodyAccess line31_ a f st line).2 := by
  have hs := endOfWord_s hword
  have hs' := hinv.s
  have hrows := (endOfWord_spec hword).1
  unfold bodyAccess
  dsimp only
  split
  · next hlt =>
    split
    · exact ⟨inRange_nil, h⟩
    · next hcom =>
      have htag := tagOf_eq_some hword hlt hcom
      obtain ⟨hrange, hline⟩ := tagAccess_spec hl a f (R := st.rows) (t := readTagAt st.ptr.tail) h
        (hrows ▸ hinv.column) (hrows ▸ hfits.cell a _ htag)
      exact ⟨inRange_append.2 ⟨inRange_nameWrites _, hrange⟩, hline⟩
  · split
    · split
      · exact ⟨inRange_nil, h⟩
      · exact aligns_spec hl 1 h
    · split
      · exact ⟨inRange_nil, h⟩
      · split
        · next hamp =>
          have := hfits.entity a st hword hamp.1 hamp.2
          exact ⟨inRange_writes (by omega), h⟩
        · split
          · exact ⟨inRange_writes (by omega), h⟩
          · exact ⟨inRange_nil, h⟩

/-- What a tag does to the column. -/
theorem tagTurn_column {a : Wide} {st st' : Scan} {start : Text} {t : TagAt} {uses : List Use}
    (h : tagTurn a st start t = .next st' uses) :
    st'.s = st.s ∧ (st'.rows.column = st.rows.column ∨ st'.rows.column = 0 ∨
      ((t.buf_tag = .TD ∨ t.buf_tag = .TH) ∧ t.is_close_tag = false ∧ st.rows.row ≠ 0 ∧
        st'.rows.column = st.rows.column + TableScan.colspanOf t.attrs)) := by
  unfold tagTurn at h
  split at h
  case h_1 htag | h_2 htag =>
    cases h
    refine ⟨rfl, ?_⟩
    cases hclose : t.is_close_tag with
    | true => exact .inl rfl
    | false =>
      by_cases hrow : st.rows.row = 0
      · left
        show (st.rows.openCell start t.attrs).1.column = _
        rw [Rows.openCell, if_pos hrow]
      · right; right
        refine ⟨by simp [htag], rfl, hrow, ?_⟩
        show (st.rows.openCell start t.attrs).1.column = _
        rw [Rows.openCell, if_neg hrow]
        rfl
  case h_3 =>
    cases h
    refine ⟨rfl, ?_⟩
    cases t.is_close_tag with
    | true => exact .inl rfl
    | false => exact .inr (.inl rfl)
  case h_4 =>
    cases h
    exact ⟨rfl, .inl rfl⟩
  case h_5 =>
    split at h
    · cases h
    · cases h
      exact ⟨rfl, .inl rfl⟩
  case h_6 =>
    cases h
    exact ⟨rfl, .inl rfl⟩
  case h_7 =>
    split at h
    · split at h
      · cases h
        exact ⟨rfl, .inl rfl⟩
      · split at h
        · cases h
        · cases h
          refine ⟨rfl, ?_⟩
          by_cases htable : t.buf_tag = .TABLE
          · right; left
            show (if t.buf_tag = .TABLE then _ else _ : Rows).column = 0
            rw [if_pos htable]
          · left
            show (if t.buf_tag = .TABLE then _ else _ : Rows).column = _
            rw [if_neg htable]
            rfl
    · cases h
      exact ⟨rfl, .inl rfl⟩

/-- What an `&` does to the word and to the pointer. -/
theorem turn_entity (st : Scan) {st' : Scan} {uses : List Use}
    (h : (match afterSemicolon st.ptr.tail with
      | none => Turn.next { st with s := st.s + 1, ptr := st.ptr.tail } []
      | some ptr =>
        if theEnv.quote_char st.ptr.tail < 0 then
          .next { st with s := st.s + 1, ptr := st.ptr.tail } []
        else
          .next { st with
            s := st.s + max 1 (theEnv.fl_utf8encode (theEnv.quote_char st.ptr.tail)), ptr := ptr } [])
      = .next st' uses) :
    st'.s = st.s + (entity st.ptr).1 ∧ st'.rows = st.rows := by
  cases hfind : afterSemicolon st.ptr.tail with
  | none =>
    simp only [hfind] at h
    cases h
    simp only [entity, hfind, and_self]
  | some ptr =>
    simp only [hfind] at h
    split at h
    · next hneg =>
      have hqch : quote_char st.ptr.tail < 0 := hneg
      cases h
      simp only [entity, hfind, if_pos hqch, and_self]
    · next hpos =>
      have hqch : ¬ quote_char st.ptr.tail < 0 := hpos
      cases h
      simp only [entity, hfind, if_neg hqch, and_true]
      rfl

/-- A turn that goes on keeps the word in the buffer and the column in the row. -/
theorem turn_next {a : Wide} {st' : Scan} {uses : List Use} (hinv : F.Inv) (hfits : F.Fits)
    (h : Help.turn theEnv a F.scan = .next st' uses) :
    st'.s ≤ 1023 ∧ 0 ≤ st'.rows.column ∧ st'.rows.column ≤ MAX_COLUMNS := by
  cases hword : endOfWord a F.scan with
  | none =>
    rw [Help.turn, hword] at h
    cases h
  | some st =>
    have hs : st.s ≤ 1023 := (endOfWord_s hword).trans hinv.s
    have hrows := (endOfWord_spec hword).1
    have hcol : 0 ≤ st.rows.column ∧ st.rows.column ≤ MAX_COLUMNS := hrows ▸ hinv.column
    rw [Help.turn, hword] at h
    dsimp only at h
    split at h
    · next hlt =>
      split at h
      · split at h
        · cases h
          exact ⟨hs, hcol⟩
        · cases h
      · next hcom =>
        have htag := tagOf_eq_some hword hlt hcom
        obtain ⟨hs', hcases⟩ := tagTurn_column h
        refine ⟨hs'.trans_le hs, ?_⟩
        obtain heq | heq | ⟨hcell, hopen, hrow, heq⟩ := hcases
        · rw [heq]
          exact hcol
        · rw [heq]
          decide
        · rw [hrows] at hrow heq
          have := hfits.cell a _ htag hcell hopen hrow
          have := hinv.column
          rw [heq]
          omega
    · split at h
      · split at h
        · cases h
        · cases h
          exact ⟨hs, hcol⟩
      · split at h
        · cases h
          exact ⟨hs, hcol⟩
        · split at h
          · next hamp =>
            obtain ⟨hs', hrows'⟩ := turn_entity st h
            have := hfits.entity a st hword hamp.1 hamp.2
            rw [hs', hrows']
            exact ⟨this, hcol⟩
          · cases h
            refine ⟨?_, hcol⟩
            dsimp only
            split <;> omega

theorem inv_begin (value_ : Text) (cells : Int → Option Nat) :
    Inv { value_ := value_, scan := begin value_ cells, line := 0 } :=
  ⟨Nat.zero_le _, ⟨le_refl 0, show (0 : Int) ≤ 200 by decide⟩, le_refl 0, show (0 : Int) ≤ 31 by decide⟩

/-- A turn that finds the state fit stays within the arrays. -/
theorem turn_spec (hl : line31_ ≤ 31) (a : Wide) (f : Flow) (hinv : F.Inv) (hfits : F.Fits) :
    Safe Inv (F.turn line31_ a f) := by
  unfold turn
  split
  · exact safe_none (ending_spec hl f hinv.s hinv.line)
  · obtain ⟨hwrange, hwline⟩ := wordEnd_spec hl a f hinv.s hinv.line
    dsimp only
    split
    · exact safe_some (inRange_append.2 ⟨hwrange, ending_spec hl f hinv.s hwline⟩) (inv_begin _ _)
    · next st hword =>
      have hs : st.s ≤ 1023 := (endOfWord_s hword).trans hinv.s
      obtain ⟨hrange, hline⟩ := bodyAccess_spec hl a f hinv hfits hword hwline
      have hboth := inRange_append.2 ⟨hwrange, hrange⟩
      split
      · next st' uses hturn =>
        obtain ⟨hs', hcol⟩ := turn_next hinv hfits hturn
        exact safe_some hboth ⟨hs', hcol, hline⟩
      · refine safe_some (inRange_append.2 ⟨hboth, ending_spec hl f ?_ hline⟩) (inv_begin _ _)
        dsimp only
        split <;> omega
      · exact safe_none (inRange_append.2 ⟨hboth, ending_spec hl f hs hline⟩)

end FormatScan

/-! ## The widget in use -/

/-- What the setters set. -/
structure Settings where
  font_increment_ : Int
  td_top_gap_ : Int
  td_bottom_gap_ : Int
  tr_gap_ : Int
  line31_ : Int

/-- The function that is being called; `format_table` returns to `format`. -/
inductive Call where
  | none
  | draw (D : DrawScan)
  | format (F : FormatScan)
  | format_table (T : TableScan) (back : Option FormatScan)

def Call.ofDraw : Option DrawScan → Call
  | some D => draw D
  | Option.none => none

def Call.ofFormat : Option FormatScan → Call
  | some F => format F
  | Option.none => none

def Call.ofTable (back : Option FormatScan) : Option TableScan → Call
  | some T => format_table T back
  | Option.none => ofFormat back

/-- The widget, and the elements that were reached last. -/
structure Session where
  settings : Settings
  call : Call
  made : List Access

/-- A new widget. -/
def Session.new : Session := ⟨⟨2, 3, 5, 2, 31⟩, .none, []⟩

/-- A setter, the beginning of a call, or a turn of a loop. -/
inductive Session.Step : Session → Session → Prop where
  | font_increment {c l} (i : Int) :
    Step ⟨c, .none, l⟩ ⟨{ c with font_increment_ := i }, .none, []⟩
  | td_top_gap {c l} (i : Int) : Step ⟨c, .none, l⟩ ⟨{ c with td_top_gap_ := i }, .none, []⟩
  | td_bottom_gap {c l} (i : Int) : Step ⟨c, .none, l⟩ ⟨{ c with td_bottom_gap_ := i }, .none, []⟩
  | tr_gap {c l} (i : Int) : Step ⟨c, .none, l⟩ ⟨{ c with tr_gap_ := i }, .none, []⟩
  | line31 {c l} (i : Int) : Step ⟨c, .none, l⟩ ⟨{ c with line31_ := i }, .none, []⟩
  | drawBlock {c l} (start : Text) (stop : Nat) :
    Step ⟨c, .none, l⟩ ⟨c, .draw (DrawScan.begin start stop).2, (DrawScan.begin start stop).1⟩
  | drawTurn {c l D} (wrap : Bool) :
    Step ⟨c, .draw D, l⟩
      ⟨c, .ofDraw (D.turn c.line31_ wrap).2, (D.turn c.line31_ wrap).1⟩
  | format {c l} (value_ : Text) (cells : Int → Option Nat) :
    Step ⟨c, .none, l⟩ ⟨c, .format ⟨value_, begin value_ cells, 0⟩, []⟩
  | formatTurn {c l F} (a : Wide) (f : Flow) (h : F.opensTable a = Option.none) :
    Step ⟨c, .format F, l⟩
      ⟨c, .ofFormat (F.turn c.line31_ a f).2, (F.turn c.line31_ a f).1⟩
  | openTable {c l F table} (a : Wide) (f : Flow) (h : F.opensTable a = some table) :
    Step ⟨c, .format F, l⟩
      ⟨c, .format_table (TableScan.begin table).2 (F.turn c.line31_ a f).2,
        (F.turn c.line31_ a f).1 ++ (TableScan.begin table).1⟩
  | tableTurn {c l T back} (narrow : Bool) :
    Step ⟨c, .format_table T back, l⟩ ⟨c, .ofTable back (T.turn narrow).2, (T.turn narrow).1⟩

/-- What a turn of the function that is being called asks of its variables. -/
def Call.Fits : Call → Prop
  | none => True
  | draw D => D.Fits
  | format F => F.Fits
  | format_table T _ => T.Fits

def Call.Inv : Call → Prop
  | none => True
  | draw D => D.Inv
  | format F => F.Inv
  | format_table T back => T.Inv ∧ ∀ F, back = some F → F.Inv

namespace Session

/-- The condition on a step: `line31()` sets no more than there are lines, and a turn finds the
variables fit. -/
def Ok (S S' : Session) : Prop := S'.settings.line31_ ≤ 31 ∧ S.call.Fits

structure Inv (S : Session) : Prop where
  line31_ : S.settings.line31_ ≤ 31
  made : InRange S.made
  call : S.call.Inv

theorem inv_new : Session.new.Inv := ⟨le_refl _, inRange_nil, trivial⟩

theorem inv_ofFormat {r : Option FormatScan} (h : ∀ F, r = some F → F.Inv) :
    (Call.ofFormat r).Inv := by
  cases r with
  | none => trivial
  | some F => exact h F rfl

/-- A step that meets the condition keeps the invariant. -/
theorem Inv.step {S S' : Session} (h : S.Inv) (hstep : Step S S') (hok : Ok S S') : S'.Inv := by
  have hl := hok.1
  have hfits := hok.2
  cases hstep with
  | font_increment | td_top_gap | td_bottom_gap | tr_gap | line31 => exact ⟨hl, inRange_nil, trivial⟩
  | drawBlock start stop =>
    obtain ⟨hrange, hinv⟩ := DrawScan.inv_begin start stop
    exact ⟨hl, hrange, hinv⟩
  | drawTurn wrap =>
    have hsafe := DrawScan.turn_spec hl wrap h.call hfits
    refine ⟨hl, hsafe.inRange, ?_⟩
    cases hnext : (DrawScan.turn _ wrap _).2 with
    | none => trivial
    | some D => exact hsafe.inv D hnext
  | format value_ cells => exact ⟨hl, inRange_nil, FormatScan.inv_begin value_ cells⟩
  | formatTurn a f =>
    have hsafe := FormatScan.turn_spec hl a f h.call hfits
    exact ⟨hl, hsafe.inRange, inv_ofFormat hsafe.inv⟩
  | openTable a f =>
    have hsafe := FormatScan.turn_spec hl a f h.call hfits
    obtain ⟨hrange, hinv⟩ := TableScan.inv_begin _
    exact ⟨hl, inRange_append.2 ⟨hsafe.inRange, hrange⟩, hinv, hsafe.inv⟩
  | tableTurn narrow =>
    obtain ⟨hT, hback⟩ := h.call
    have hsafe := TableScan.turn_spec hT hfits narrow
    refine ⟨hl, hsafe.inRange, ?_⟩
    cases hnext : (TableScan.turn _ narrow).2 with
    | none => exact inv_ofFormat hback
    | some T => exact ⟨hsafe.inv T hnext, hback⟩

end Session

/-- A turn of `format_table` that is not the last. -/
theorem Session.Step.measured {c : Settings} {l : List Access} {T T' : TableScan}
    {back : Option FormatScan} (h : (T.turn false).2 = some T') :
    Step ⟨c, .format_table T back, l⟩ ⟨c, .format_table T' back, (T.turn false).1⟩ := by
  have hturn : Step ⟨c, .format_table T back, l⟩ ⟨c, .ofTable back (T.turn false).2, (T.turn false).1⟩ :=
    .tableTurn false
  rwa [h] at hturn

/-- At the beginning of a document there is no word, and no cell is in a row. -/
theorem FormatScan.fits_begin (value_ : Text) (cells : Int → Option Nat) (h : deref value_ ≠ 38) :
    Fits ⟨value_, Help.begin value_ cells, 0⟩ where
  entity := by
    intro a st hword hamp
    rw [endOfWord, if_neg fun hends => Nat.lt_irrefl 0 hends.2] at hword
    cases hword
    exact absurd hamp h
  cell := fun a t _ _ _ hrow => absurd rfl hrow

/-- A table with a word and an image in its cell. -/
def tableText : Text := ascii "<TABLE><TR><TD>a<IMG></TABLE>"

/-- The turns of `format_table` over it. -/
def measuring : Nat → TableScan
  | 0 => (TableScan.begin tableText).2
  | n + 1 => ((measuring n).turn false).2.getD (measuring n)

theorem fits_measuring (n : Nat) (h : n < 6) : (measuring n).Fits := by
  have hspace : ∀ n < 6, (measuring n).needspace = false := by decide +kernel
  have himage : ∀ n < 6, ∀ t ∈ (measuring n).tagOf, t.buf_tag = .IMG → 0 ≤ (measuring n).column := by
    decide +kernel
  have hcell : ∀ n < 6, ∀ t ∈ (measuring n).tagOf, t.buf_tag = .TD ∨ t.buf_tag = .TH →
      t.is_close_tag = false → 1 ≤ TableScan.colspanOf t.attrs ∧
        (measuring n).nextColumn + TableScan.colspanOf t.attrs ≤ MAX_COLUMNS := by
    decide +kernel
  refine ⟨fun htrue => ?_, fun t ht => himage n h t ht, fun t ht => hcell n h t ht⟩
  rw [hspace n h] at htrue
  cases htrue

/-- `line31(10)`, a block with the text `a` is drawn, and the layout of a document comes to its
table, which is measured. -/
def drawnA : List Session :=
  let c : Settings := ⟨2, 3, 5, 2, 10⟩
  let D := (DrawScan.begin (ascii "a") 0).2
  let F : FormatScan := ⟨tableText, begin tableText fun _ => none, 0⟩
  let first := F.turn 10 fits ⟨false, 0, false, false⟩
  let table := fun n => Call.format_table (measuring n) first.2
  [⟨c, .none, []⟩, ⟨c, .draw D, [.line 0]⟩, ⟨c, .draw { D with phase := .body }, []⟩,
    ⟨c, .draw { D with s := 1, ptr := [] }, writes 0 1⟩, ⟨c, .none, [.buf 1]⟩, ⟨c, .format F, []⟩,
    ⟨c, table 0, first.1 ++ (TableScan.begin tableText).1⟩,
    ⟨c, table 1, ((measuring 0).turn false).1⟩, ⟨c, table 2, ((measuring 1).turn false).1⟩,
    ⟨c, table 3, ((measuring 2).turn false).1⟩, ⟨c, table 4, ((measuring 3).turn false).1⟩,
    ⟨c, table 5, ((measuring 4).turn false).1⟩,
    ⟨c, .ofTable first.2 ((measuring 5).turn false).2, ((measuring 5).turn false).1⟩]

end LuaFltk.Help
