import LuaFltk.Help.Names
import LuaFltk.Help.Format

/-!
# The arrays of a help document

Which elements of their arrays `draw` and `format_table` of `Fl_Help_View.cxx` reach, turn by
turn of their loops over the text. Of the pointer `s` into the word buffer only its distance
from `buf` is kept. What depends on the measures of the text is given from outside.
-/

namespace LuaFltk.Help

/-- A use of an element: of the lines of a block, the column arrays, the cells of a row or the
word buffer, which is written; or a division by `colspan`. -/
inductive Access where
  | line (i : Int)
  | columns (i : Int)
  | minwidths (i : Int)
  | cells (i : Int)
  | buf (i : Int)
  | colspan (n : Int)
  deriving DecidableEq, Repr

/-- The element exists, and nothing is divided by zero. -/
def Access.InRange : Access → Prop
  | line i => 0 ≤ i ∧ i < 32
  | columns i | minwidths i | cells i => 0 ≤ i ∧ i < MAX_COLUMNS
  | buf i => 0 ≤ i ∧ i < 1024
  | colspan n => n ≠ 0

def InRange (l : List Access) : Prop := ∀ a ∈ l, a.InRange

@[simp] theorem inRange_nil : InRange [] := by
  intro a ha
  cases ha

@[simp] theorem inRange_cons {a : Access} {l : List Access} :
    InRange (a :: l) ↔ a.InRange ∧ InRange l := List.forall_mem_cons

@[simp] theorem inRange_append {l l' : List Access} :
    InRange (l ++ l') ↔ InRange l ∧ InRange l' := List.forall_mem_append

/-- `n` bytes are written at `s`. -/
def writes (s n : Nat) : List Access := (List.range' s n).map fun i : Nat => .buf i

theorem inRange_writes {s n : Nat} (h : s + n ≤ 1024) : InRange (writes s n) := by
  intro a ha
  obtain ⟨i, hi, rfl⟩ := List.mem_map.1 ha
  rw [List.mem_range'_1] at hi
  exact ⟨by omega, by omega⟩

theorem inRange_buf {s : Nat} (h : s ≤ 1023) : (Access.buf s).InRange := ⟨by omega, by omega⟩

/-- The elements of an array from `i` on. -/
def span (f : Int → Access) (i n : Int) : List Access :=
  (List.range n.toNat).map fun j : Nat => f (i + j)

/-- A span of elements below the bound. -/
theorem inRange_span {f : Int → Access} {i n : Int}
    (hf : ∀ j, 0 ≤ j → j < MAX_COLUMNS → (f j).InRange) (hi : 0 ≤ i) (hn : i + n ≤ MAX_COLUMNS) :
    InRange (span f i n) := by
  intro a ha
  obtain ⟨j, hj, rfl⟩ := List.mem_map.1 ha
  have := List.mem_range.1 hj
  exact hf _ (by omega) (by omega)

/-- `fl_utf8encode`: how many bytes it writes. -/
def fl_utf8encode (code : Int) : Nat :=
  let ucs := (code % 2 ^ 32).toNat
  if ucs < 0x80 then 1
  else if ucs < 0x800 then 2
  else if ucs < 0x10000 then 3
  else if ucs ≤ 0x10ffff then 4
  else 3

/-- How many bytes the `&` at `ptr` adds to the word, and what is read after it. -/
def entity (ptr : Text) : Nat × Text :=
  match afterSemicolon ptr.tail with
  | none => (1, ptr.tail)
  | some rest =>
    if quote_char ptr.tail < 0 then (1, ptr.tail)
    else (max 1 (fl_utf8encode (quote_char ptr.tail)), rest)

/-- The name of the tag at `ptr`, behind the `<`, is written to the buffer as far as it fits. -/
def nameWrites (ptr : Text) : List Access :=
  let n := min (ptr.takeWhile fun c => !endsName c).length 1023
  writes 0 n ++ [.buf n]

/-- A name is cut off at the end of the buffer. -/
theorem inRange_nameWrites (ptr : Text) : InRange (nameWrites ptr) := by
  unfold nameWrites
  rw [inRange_append]
  refine ⟨inRange_writes (by omega), inRange_cons.2 ⟨inRange_buf (by omega), inRange_nil⟩⟩

/-- `if(line < line31_) line ++`. -/
def nextLine (line31_ line : Int) : Int := if line < line31_ then line + 1 else line

/-- A line of a block that exists. -/
def LineInv (line : Int) : Prop := 0 ≤ line ∧ line ≤ 31

theorem LineInv.next {line31_ line : Int} (h : LineInv line) (hl : line31_ ≤ 31) :
    LineInv (nextLine line31_ line) := by
  obtain ⟨h0, h1⟩ := h
  unfold nextLine LineInv
  split <;> omega

theorem LineInv.inRange {line : Int} (h : LineInv line) : (Access.line line).InRange :=
  ⟨h.1, by have := h.2; omega⟩

/-- What a turn leaves: the elements it reached exist, and the next state, if there is one,
has the invariant. -/
structure Safe {σ : Type} (inv : σ → Prop) (r : List Access × Option σ) : Prop where
  inRange : InRange r.1
  inv : ∀ s, r.2 = some s → inv s

section safe

variable {σ : Type} {inv : σ → Prop} {l : List Access} {s : σ}

theorem safe_some (h : InRange l) (hs : inv s) : Safe inv (l, some s) :=
  ⟨h, fun _ heq => Option.some.inj heq ▸ hs⟩

theorem safe_none (h : InRange l) : Safe inv (l, none) := ⟨h, fun _ heq => absurd heq (by simp)⟩

end safe

/-! ## Drawing -/

/-- Where a turn of the loop in `draw` is: at its head, in the loop over the blanks of
preformatted text, or behind the end of a word. -/
inductive Phase where
  | head
  | blanks
  | body
  deriving DecidableEq, Repr

/-- The variables of `draw` in a block; `stop` is how much text there is from `block->end` on. -/
structure DrawScan where
  ptr : Text
  stop : Nat
  s : Nat
  line : Int
  head : Bool
  pre : Bool
  phase : Phase
  deriving DecidableEq

namespace DrawScan

/-- A block is begun. -/
def begin (start : Text) (stop : Nat) : List Access × DrawScan :=
  ([.line 0], ⟨start, stop, 0, 0, false, false, .head⟩)

/-- The bytes that a tab adds. -/
def tab (s : Nat) : Nat := (8 - s % 8) % 8

/-- The bytes that a turn adds to the word. -/
def put (D : DrawScan) : Nat :=
  let c := deref D.ptr
  match D.phase with
  | .head => 0
  | .blanks => if !isspace c || c = 10 then 0 else if c = 9 then tab D.s else 1
  | .body =>
    if c = 60 ∨ (c = 10 ∧ D.pre) then 0
    else if isspace c then if !D.pre then 0 else if c = 32 then 1 else tab D.s
    else if c = 38 then (entity D.ptr).1
    else 1

/-- The next line of the block, of which the start is read. -/
def newLine (line31_ : Int) (D : DrawScan) : List Access × DrawScan :=
  let line := nextLine line31_ D.line
  ([.line line], { D with line := line })

/-- What a tag does. -/
def tagTurn (line31_ : Int) (wrap : Bool) (D : DrawScan) (t : TagAt) : List Access × DrawScan :=
  match t.buf_tag with
  | .BR | .BRV | .HR => newLine line31_ D
  | .IMG => if wrap then newLine line31_ D else ([], D)
  | .HEAD => ([], { D with head := !t.is_close_tag })
  | .PRE => ([], { D with pre := !t.is_close_tag })
  | _ => ([], D)

/-- A turn, `none` being the end of the block; `wrap` is whether a word or an image has no
room on the line. -/
def turn (line31_ : Int) (wrap : Bool) (D : DrawScan) : List Access × Option DrawScan :=
  let c := deref D.ptr
  match D.phase with
  | .head =>
    if D.ptr.length ≤ D.stop then
      -- the word at the end of the block
      if 0 < D.s && !D.pre && !D.head && wrap then
        (.buf D.s :: (D.newLine line31_).1, none)
      else ([.buf D.s], none)
    else if (c = 60 ∨ isspace c) ∧ 0 < D.s then
      if !D.head && !D.pre then
        if wrap then
          (.buf D.s :: (D.newLine line31_).1,
            some { (D.newLine line31_).2 with s := 0, phase := .body })
        else ([.buf D.s], some { D with s := 0, phase := .body })
      else if D.pre then ([], some { D with phase := .blanks })
      else ([], some { D with s := 0, ptr := D.ptr.dropWhile isspace, phase := .body })
    else ([], some { D with phase := .body })
  | .blanks =>
    if !isspace c then
      (if 0 < D.s then [.buf D.s] else [], some { D with s := 0, phase := .body })
    else if c = 10 then
      (.buf D.s :: (D.newLine line31_).1, some { (D.newLine line31_).2 with s := 0, ptr := D.ptr.tail })
    else (writes D.s D.put, some { D with s := D.s + D.put, ptr := D.ptr.tail })
  | .body =>
    if c = 60 then
      if D.ptr.tail.take 3 = ascii "!--" then
        match afterComment (D.ptr.tail.drop 3) with
        | some ptr => ([], some { D with ptr := ptr, phase := .head })
        | none => ([.buf D.s], none)
      else
        let t := readTagAt D.ptr.tail
        let r := tagTurn line31_ wrap { D with s := 0, ptr := t.ptr, phase := .head } t
        (nameWrites D.ptr.tail ++ r.1, some r.2)
    else if c = 10 ∧ D.pre then
      (.buf D.s :: (D.newLine line31_).1,
        some { (D.newLine line31_).2 with s := 0, ptr := D.ptr.tail, phase := .head })
    else if isspace c then
      (writes D.s D.put, some { D with s := D.s + D.put, ptr := D.ptr.tail, phase := .head })
    else if c = 38 then
      (writes D.s D.put, some { D with s := D.s + D.put, ptr := (entity D.ptr).2, phase := .head })
    else (writes D.s D.put, some { D with s := D.s + D.put, ptr := D.ptr.tail, phase := .head })

/-- The word, with what the turn adds to it and a zero byte, fits into the buffer. -/
def Fits (D : DrawScan) : Prop := D.s + D.put ≤ 1023

instance (D : DrawScan) : Decidable D.Fits := inferInstanceAs (Decidable (_ ≤ _))

structure Inv (D : DrawScan) : Prop where
  s : D.s ≤ 1023
  line : LineInv D.line

variable {line31_ : Int} {D : DrawScan}

theorem inv_begin (start : Text) (stop : Nat) :
    InRange (begin start stop).1 ∧ (begin start stop).2.Inv := by
  have hline : LineInv 0 := ⟨by omega, by omega⟩
  exact ⟨inRange_cons.2 ⟨hline.inRange, inRange_nil⟩, Nat.zero_le _, hline⟩

/-- A new line is one of the lines there are. -/
theorem inv_newLine (hl : line31_ ≤ 31) (h : D.Inv) :
    InRange (D.newLine line31_).1 ∧ (D.newLine line31_).2.Inv := by
  have hline := h.line.next hl
  exact ⟨inRange_cons.2 ⟨hline.inRange, inRange_nil⟩, h.s, hline⟩

/-- The invariant for the line, with the word begun again. -/
theorem Inv.fresh (h : D.Inv) (ptr : Text) (phase : Phase) :
    Inv { D with s := 0, ptr := ptr, phase := phase } := ⟨Nat.zero_le _, h.line⟩

/-- What a tag does stays on the lines. -/
theorem inv_tagTurn (hl : line31_ ≤ 31) (wrap : Bool) (h : D.Inv) (t : TagAt) :
    InRange (tagTurn line31_ wrap D t).1 ∧ (tagTurn line31_ wrap D t).2.Inv := by
  have hnew := inv_newLine hl h
  unfold tagTurn
  split
  case h_4 =>
    split
    · exact hnew
    · exact ⟨inRange_nil, h⟩
  case h_1 | h_2 | h_3 => exact hnew
  case h_5 | h_6 => exact ⟨inRange_nil, h.s, h.line⟩
  case h_7 => exact ⟨inRange_nil, h⟩

/-- A turn in which the word fits stays within the arrays. -/
theorem turn_spec (hl : line31_ ≤ 31) (wrap : Bool) (h : D.Inv) (hfits : D.Fits) :
    Safe Inv (D.turn line31_ wrap) := by
  obtain ⟨hnewline, hnew⟩ := inv_newLine hl h
  have hout : (Access.buf D.s).InRange := inRange_buf h.s
  have hput : InRange (writes D.s D.put) := inRange_writes (by unfold Fits at hfits; omega)
  have hgrow : ∀ ptr phase, Inv { D with s := D.s + D.put, ptr := ptr, phase := phase } :=
    fun ptr phase => ⟨hfits, h.line⟩
  unfold turn
  dsimp only
  split
  · -- the head of the loop
    split
    · split
      · exact safe_none (inRange_cons.2 ⟨hout, hnewline⟩)
      · exact safe_none (inRange_cons.2 ⟨hout, inRange_nil⟩)
    · split
      · split
        · split
          · exact safe_some (inRange_cons.2 ⟨hout, hnewline⟩) (hnew.fresh _ _)
          · exact safe_some (inRange_cons.2 ⟨hout, inRange_nil⟩) (h.fresh _ _)
        · split
          · exact safe_some inRange_nil ⟨h.s, h.line⟩
          · exact safe_some inRange_nil (h.fresh _ _)
      · exact safe_some inRange_nil ⟨h.s, h.line⟩
  · -- the blanks of preformatted text
    split
    · refine safe_some ?_ (h.fresh _ _)
      split
      · exact inRange_cons.2 ⟨hout, inRange_nil⟩
      · exact inRange_nil
    · split
      · exact safe_some (inRange_cons.2 ⟨hout, hnewline⟩) (hnew.fresh _ _)
      · exact safe_some hput (hgrow _ _)
  · -- behind the end of a word
    split
    · split
      · split
        · exact safe_some inRange_nil ⟨h.s, h.line⟩
        · exact safe_none (inRange_cons.2 ⟨hout, inRange_nil⟩)
      · obtain ⟨htag, hinv⟩ := inv_tagTurn hl wrap (h.fresh (readTagAt D.ptr.tail).ptr .head)
          (readTagAt D.ptr.tail)
        exact safe_some (inRange_append.2 ⟨inRange_nameWrites _, htag⟩) hinv
    · split
      · exact safe_some (inRange_cons.2 ⟨hout, hnewline⟩) (hnew.fresh _ _)
      · split
        · exact safe_some hput (hgrow _ _)
        · split
          · exact safe_some hput (hgrow _ _)
          · exact safe_some hput (hgrow _ _)

end DrawScan

/-! ## The widths of a table -/

/-- The variables of `format_table`; `table` is how much text there is from its argument on. -/
structure TableScan where
  ptr : Text
  table : Nat
  s : Nat
  column : Int
  num_columns : Int
  colspan : Int
  pre : Bool
  needspace : Bool
  incell : Bool
  deriving DecidableEq

namespace TableScan

/-- `format_table` is called; all columns are cleared. -/
def begin (table : Text) : List Access × TableScan :=
  (span .columns 0 MAX_COLUMNS ++ span .minwidths 0 MAX_COLUMNS,
    ⟨table, table.length, 0, -1, 0, 0, false, false, false⟩)

/-- The end of a word in a cell. -/
def endOfWord (T : TableScan) : List Access × TableScan :=
  if (deref T.ptr = 60 ∨ isspace (deref T.ptr)) ∧ 0 < T.s ∧ T.incell then
    let s := if T.needspace then T.s + 1 else T.s
    (writes T.s (s - T.s) ++ [.buf s, .minwidths T.column], { T with s := 0, needspace := false })
  else ([], T)

/-- The cell before spans its columns. -/
def spread (T : TableScan) : List Access × TableScan :=
  if 0 ≤ T.column then
    (.colspan T.colspan :: span .columns T.column T.colspan,
      { T with column := T.column + max T.colspan 0, colspan := min T.colspan 0 })
  else ([], T)

/-- `COLSPAN`. -/
def colspanOf (attrs : Text) : Int := ((get_attr (ascii "COLSPAN") 1024 attrs).map atoi).getD 1

/-- An opening tag of a cell. -/
def openCell (T : TableScan) (attrs : Text) : List Access × TableScan :=
  let r := T.spread
  let column := if 0 ≤ T.column then r.2.column else T.column + 1
  let colspan := colspanOf attrs
  (r.1, { r.2 with
    column := column
    colspan := colspan
    num_columns := max r.2.num_columns (column + colspan)
    needspace := false
    incell := true })

/-- What is done when the table has been read; `narrow` is whether it is scaled down. -/
def finish (T : TableScan) (narrow : Bool) : List Access :=
  span .columns 0 T.num_columns ++ if narrow then span .minwidths 0 T.num_columns else []

/-- What the tag at `start` does, `none` being the end of the loop. -/
def tagTurn (T : TableScan) (start : Text) (t : TagAt) : List Access × Option TableScan :=
  match t.buf_tag with
  | .BR => ([], some { T with needspace := false })
  | .CENTER | .DD | .DL | .DT | .H _ | .LI | .OL | .P | .UL =>
    ([], some { T with needspace := false })
  | .PRE => ([], some { T with needspace := false, pre := if t.is_close_tag then T.pre else true })
  | .TR =>
    (T.spread.1, some { T.spread.2 with needspace := false, column := -1, incell := false })
  | .TABLE =>
    if t.is_close_tag ∨ start.length < T.table then (T.spread.1, none)
    else (T.spread.1, some { T.spread.2 with needspace := false, column := -1, incell := false })
  | .TD | .TH =>
    if t.is_close_tag then ([], some { T with incell := false })
    else
      let r := T.openCell t.attrs
      (r.1, some r.2)
  | .IMG => ([.minwidths T.column], some { T with needspace := false })
  | _ => ([], some T)

/-- A turn of the loop. There are no comments here. -/
def turn (T : TableScan) (narrow : Bool) : List Access × Option TableScan :=
  if deref T.ptr = 0 then (T.finish narrow, none)
  else
    let w := T.endOfWord
    let T := w.2
    let c := deref T.ptr
    if c = 60 then
      let t := readTagAt T.ptr.tail
      let r := tagTurn { T with s := 0, ptr := t.ptr } T.ptr t
      (w.1 ++ nameWrites T.ptr.tail ++ r.1 ++ (if r.2.isNone then T.finish narrow else []), r.2)
    else if c = 10 ∧ T.pre then (w.1, some { T with needspace := false, ptr := T.ptr.tail })
    else if isspace c then (w.1, some { T with needspace := true, ptr := T.ptr.tail })
    else if c = 38 ∧ T.s < 1023 then
      (w.1 ++ writes T.s 1, some { T with s := T.s + 1, ptr := (entity T.ptr).2 })
    else if T.s < 1023 then (w.1 ++ writes T.s 1, some { T with s := T.s + 1, ptr := T.ptr.tail })
    else (w.1, some { T with ptr := T.ptr.tail })

/-- The column of the next cell of the row. -/
def nextColumn (T : TableScan) : Int := if 0 ≤ T.column then T.column + T.colspan else 0

/-- The tag a turn comes to. -/
def tagOf (T : TableScan) : Option TagAt :=
  if deref T.ptr = 60 then some (readTagAt T.ptr.tail) else none

/-- What a turn asks of the state: there is room for the space behind a word, an image comes
behind the beginning of a cell, and a cell spans at least one column of those there are. -/
structure Fits (T : TableScan) : Prop where
  space : T.needspace = true → (deref T.ptr = 60 ∨ isspace (deref T.ptr)) → T.s < 1023
  image : ∀ t, T.tagOf = some t → t.buf_tag = .IMG → 0 ≤ T.column
  cell : ∀ t, T.tagOf = some t → t.buf_tag = .TD ∨ t.buf_tag = .TH → t.is_close_tag = false →
    1 ≤ colspanOf t.attrs ∧ T.nextColumn + colspanOf t.attrs ≤ MAX_COLUMNS

/-- A cell that was begun spans columns there are. -/
structure Inv (T : TableScan) : Prop where
  s : T.s ≤ 1023
  column : -1 ≤ T.column
  colspan : 0 ≤ T.column → 1 ≤ T.colspan ∧ T.column + T.colspan ≤ MAX_COLUMNS
  incell : T.incell = true → 0 ≤ T.column
  num_columns : T.num_columns ≤ MAX_COLUMNS

variable {T : TableScan}

theorem inRange_columns {i n : Int} (hi : 0 ≤ i) (hn : i + n ≤ MAX_COLUMNS) :
    InRange (span .columns i n) :=
  inRange_span (fun _ h0 h1 => ⟨h0, h1⟩) hi hn

theorem inRange_minwidths {i n : Int} (hi : 0 ≤ i) (hn : i + n ≤ MAX_COLUMNS) :
    InRange (span .minwidths i n) :=
  inRange_span (fun _ h0 h1 => ⟨h0, h1⟩) hi hn

/-- A column that was begun exists. -/
theorem Inv.inRange (h : T.Inv) (hcol : 0 ≤ T.column) : (Access.minwidths T.column).InRange := by
  have := h.colspan hcol
  exact ⟨hcol, by omega⟩

theorem inv_begin (table : Text) : InRange (begin table).1 ∧ (begin table).2.Inv := by
  constructor
  · exact inRange_append.2 ⟨inRange_columns (by decide) (by decide),
      inRange_minwidths (by decide) (by decide)⟩
  · exact ⟨by simp [begin], by simp [begin], by simp [begin], by simp [begin], by simp [begin, MAX_COLUMNS]⟩

theorem inRange_finish (h : T.Inv) (narrow : Bool) : InRange (T.finish narrow) := by
  have hn := h.num_columns
  refine inRange_append.2 ⟨inRange_columns (le_refl 0) (by omega), ?_⟩
  split
  · exact inRange_minwidths (le_refl 0) (by omega)
  · exact inRange_nil

/-- The end of a word writes to the column of the cell. -/
theorem inv_endOfWord (h : T.Inv) (hfits : T.Fits) :
    InRange T.endOfWord.1 ∧ T.endOfWord.2.Inv ∧ T.endOfWord.2.ptr = T.ptr ∧
      T.endOfWord.2.column = T.column ∧ T.endOfWord.2.colspan = T.colspan := by
  unfold endOfWord
  split
  · next hend =>
    obtain ⟨hc, -, hincell⟩ := hend
    have hcol := h.inRange (h.incell hincell)
    have hs := h.s
    have hspace : (if T.needspace then T.s + 1 else T.s) ≤ 1023 := by
      split
      · next hneed =>
        have := hfits.space hneed hc
        omega
      · exact hs
    refine ⟨?_, ⟨Nat.zero_le _, h.column, h.colspan, h.incell, h.num_columns⟩, rfl, rfl, rfl⟩
    refine inRange_append.2 ⟨inRange_writes (by omega), ?_⟩
    exact inRange_cons.2 ⟨inRange_buf hspace, inRange_cons.2 ⟨hcol, inRange_nil⟩⟩
  · exact ⟨inRange_nil, h, rfl, rfl, rfl⟩

/-- The columns that a cell spans were there when it began. -/
theorem inRange_spread (h : T.Inv) : InRange T.spread.1 := by
  unfold spread
  split
  · next hcol =>
    obtain ⟨h1, h2⟩ := h.colspan hcol
    have hne : (Access.colspan T.colspan).InRange := by
      show T.colspan ≠ 0
      omega
    exact inRange_cons.2 ⟨hne, inRange_columns hcol h2⟩
  · exact inRange_nil

/-- Between the rows no cell is begun. -/
theorem Inv.rowEnd (h : T.Inv) : Inv { T.spread.2 with
    needspace := false, column := -1, incell := false } := by
  have hnum : T.spread.2.num_columns = T.num_columns := by
    unfold spread
    split <;> rfl
  have hs : T.spread.2.s = T.s := by
    unfold spread
    split <;> rfl
  refine ⟨?_, le_refl _, fun h0 => ?_, fun h0 => ?_, ?_⟩
  · exact hs.trans_le h.s
  · exact absurd (show (0 : Int) ≤ -1 from h0) (by decide)
  · exact absurd (show false = true from h0) (by decide)
  · exact hnum.trans_le h.num_columns

/-- A cell that fits is begun. -/
theorem inv_openCell (h : T.Inv) {attrs : Text} (h1 : 1 ≤ colspanOf attrs)
    (h2 : T.nextColumn + colspanOf attrs ≤ MAX_COLUMNS) :
    InRange (T.openCell attrs).1 ∧ (T.openCell attrs).2.Inv := by
  refine ⟨inRange_spread h, ?_⟩
  have hcol := h.column
  have hnum := h.num_columns
  unfold nextColumn at h2
  unfold openCell spread
  by_cases h0 : 0 ≤ T.column
  · obtain ⟨hspan, hfit⟩ := h.colspan h0
    simp only [if_pos h0] at h2 ⊢
    refine ⟨h.s, ?_, fun _ => ⟨h1, ?_⟩, fun _ => ?_, ?_⟩
    all_goals
      dsimp only
      omega
  · simp only [if_neg h0] at h2 ⊢
    refine ⟨h.s, ?_, fun _ => ⟨h1, ?_⟩, fun _ => ?_, ?_⟩
    all_goals
      dsimp only
      omega

/-- What a tag does to the columns. -/
theorem tagTurn_spec (h : T.Inv) (start : Text) {t : TagAt} (himage : t.buf_tag = .IMG → 0 ≤ T.column)
    (hcell : t.buf_tag = .TD ∨ t.buf_tag = .TH → t.is_close_tag = false →
      1 ≤ colspanOf t.attrs ∧ T.nextColumn + colspanOf t.attrs ≤ MAX_COLUMNS) :
    Safe Inv (T.tagTurn start t) := by
  have hspread := inRange_spread h
  have hstay : ∀ pre needspace, Inv { T with pre := pre, needspace := needspace } :=
    fun _ _ => ⟨h.s, h.column, h.colspan, h.incell, h.num_columns⟩
  obtain ⟨c, tag, attrs, ptr⟩ := t
  cases tag
  case TR => exact safe_some hspread h.rowEnd
  case TABLE =>
    unfold tagTurn
    dsimp only
    split
    · exact safe_none hspread
    · exact safe_some hspread h.rowEnd
  case TD | TH =>
    unfold tagTurn
    dsimp only
    split
    · exact safe_some inRange_nil ⟨h.s, h.column, h.colspan, fun h0 => absurd h0 (by simp), h.num_columns⟩
    · next hopen =>
      obtain ⟨h1, h2⟩ := hcell (by simp) (by simpa using hopen)
      obtain ⟨hrange, hinv⟩ := inv_openCell h h1 h2
      exact safe_some hrange hinv
  case IMG => exact safe_some (inRange_cons.2 ⟨h.inRange (himage rfl), inRange_nil⟩) (hstay _ _)
  case UNKNOWN => exact safe_some inRange_nil h
  all_goals first
    | exact safe_some inRange_nil h
    | exact safe_some inRange_nil (hstay _ _)

/-- A turn that finds the state fit stays within the arrays. -/
theorem turn_spec (h : T.Inv) (hfits : T.Fits) (narrow : Bool) : Safe Inv (T.turn narrow) := by
  obtain ⟨hword, hinv, hptr, hcol, hspan⟩ := inv_endOfWord h hfits
  have hput : T.endOfWord.2.s < 1023 → InRange (T.endOfWord.1 ++ writes T.endOfWord.2.s 1) :=
    fun hlt => inRange_append.2 ⟨hword, inRange_writes (by omega)⟩
  have hstep : ∀ s ptr needspace, s ≤ 1023 →
      Inv { T.endOfWord.2 with s := s, ptr := ptr, needspace := needspace } :=
    fun _ _ _ hs => ⟨hs, hinv.column, hinv.colspan, hinv.incell, hinv.num_columns⟩
  unfold turn
  dsimp only
  split
  · exact safe_none (inRange_finish h narrow)
  · split
    · next hlt =>
      rw [hptr] at hlt ⊢
      have htag : T.tagOf = some (readTagAt T.ptr.tail) := if_pos hlt
      have hnext : T.endOfWord.2.nextColumn = T.nextColumn := by
        rw [nextColumn, nextColumn, hcol, hspan]
      have hspec := tagTurn_spec (hstep 0 (readTagAt T.ptr.tail).ptr T.endOfWord.2.needspace (by omega))
        T.ptr (t := readTagAt T.ptr.tail) (fun himg => hcol ▸ hfits.image _ htag himg)
        (fun hcell hopen => by
          have := hfits.cell _ htag hcell hopen
          rwa [← hnext] at this)
      refine ⟨?_, hspec.inv⟩
      refine inRange_append.2 ⟨inRange_append.2 ⟨inRange_append.2 ⟨hword, inRange_nameWrites _⟩,
        hspec.inRange⟩, ?_⟩
      split
      · exact inRange_finish hinv narrow
      · exact inRange_nil
    · split
      · exact safe_some hword (hstep _ _ _ hinv.s)
      · split
        · exact safe_some hword (hstep _ _ _ hinv.s)
        · split
          · next hamp => exact safe_some (hput hamp.2) (hstep _ _ _ hamp.2)
          · split
            · next hlt => exact safe_some (hput hlt) (hstep _ _ _ hlt)
            · exact safe_some hword (hstep _ _ _ hinv.s)

end TableScan

end LuaFltk.Help
