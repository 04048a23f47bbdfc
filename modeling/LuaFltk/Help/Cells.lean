import LuaFltk.Help.Arrays
import LuaFltk.Help.Fonts

/-!
# The width of a table cell

`format_table` measures the cells of a table before `format` lays them out, and a column gets
the width that was measured. Both functions go over the contents of a cell once; here each is
a step over the pieces of the contents. Heights, links and `minwidths` are left out, as is the
pass that is begun again when something is wider than `hsize_`.
-/

namespace LuaFltk.Help

/-- Measures of text in a font and a size: a space behind a word adds its own width. A word is a C
string, without a zero byte. -/
structure Measure where
  fl_width : Nat → Int → Text → Nat
  space : ∀ font size (word : Text), 0 ∉ word →
    fl_width font size (word ++ [32]) = fl_width font size word + fl_width font size [32]

/-- The widget, its measures, and the width an image has by the attributes of its tag. -/
structure Page extends View, Measure where
  imageWidth : Text → Int

theorem utf8Bytes_of_lt {code : Nat} (h : code < 128) : utf8Bytes code = [.ofNat code] := by
  have hcode : code % 2 ^ 32 = code := Nat.mod_eq_of_lt (by omega)
  unfold utf8Bytes
  rw [hcode]
  exact if_pos h

/-- The tags that `format_table` knows in a cell. `format` knows them too, `P` apart. -/
def Tag.isMeasured : Tag → Bool
  | B | STRONG | CODE | TT | I | EM | KBD | VAR | BR | IMG | CENTER | DD | DL | DT | H _ | LI
  | OL | P | PRE | UL => true
  | _ => false

/-- A piece of the contents of a cell: a byte of a word, a character that `quote_char` read, a
blank, or a tag. The text ends at a zero byte. -/
inductive Piece where
  | byte (b : { b : UInt8 // b ≠ 0 })
  | quoted (qch : Nat)
  | blank (newline : Bool)
  | tag (is_close_tag : Bool) (buf_tag : { t : Tag // t.isMeasured = true }) (attrs : Text)
  deriving DecidableEq

/-- The variables `font` and `fsize`, the colour and the font stack. -/
structure Pen where
  font : Nat
  fsize : Int
  textcolor_ : Nat
  fstack_ : Fl_Help_Font_Stack

namespace Pen

/-- `pushfont(font = f, fsize = s)`. -/
def pushfont (P : Pen) (f : Nat) (s : Int) : Pen :=
  { P with font := f, fsize := s, fstack_ := P.fstack_.push ⟨f, s, P.textcolor_⟩ }

/-- `popfont(font, fsize, fcolor)`. -/
def popfont (P : Pen) : Pen :=
  let fstack_ := P.fstack_.pop
  { P with font := fstack_.top.f, fsize := fstack_.top.s, fstack_ := fstack_ }

/-- `PUSH_OR_POP_FONT(font = f)`. -/
def PUSH_OR_POP_FONT (P : Pen) (is_close_tag : Bool) (f : Nat) : Pen :=
  if is_close_tag then P.popfont else P.pushfont f P.fsize

/-- The tags inside a line, for which both functions have the same cases. -/
def inline (P : Pen) (is_close_tag : Bool) : Tag → Pen
  | .B | .STRONG => P.PUSH_OR_POP_FONT is_close_tag (P.font ||| FL_BOLD)
  | .CODE | .TT => P.PUSH_OR_POP_FONT is_close_tag FL_COURIER
  | .I | .EM => P.PUSH_OR_POP_FONT is_close_tag (P.font ||| FL_ITALIC)
  | .KBD => P.PUSH_OR_POP_FONT is_close_tag FL_COURIER_BOLD
  | .VAR => P.PUSH_OR_POP_FONT is_close_tag FL_COURIER_ITALIC
  | _ => P

end Pen

/-- The margins: the current one, and those below. -/
structure Fl_Margins where
  current : Int
  below : List Int
  bound : below.length ≤ 99

namespace Fl_Margins

/-- Full margins give the new one back, but do not keep it. -/
def push (m : Fl_Margins) (indent : Int) : Int × Fl_Margins :=
  let xx := m.current + indent
  if h : m.below.length < 99 then (xx, ⟨xx, m.current :: m.below, h⟩) else (xx, m)

def pop (m : Fl_Margins) : Int × Fl_Margins :=
  match h : m.below with
  | [] => (4, m)
  | xx :: below => (xx, ⟨xx, below, by
      have := m.bound
      rw [h, List.length_cons] at this
      omega⟩)

end Fl_Margins

/-- What stands behind the contents of a cell: the next tag of a cell, a row or the table, maybe
behind a `</TD>` or `</TH>`; only the `</TD>` or `</TH>`; or nothing, where the text ends. -/
inductive Behind where
  | row
  | closed
  | nothing
  deriving DecidableEq, Repr

/-- A cell: where it begins, its tag, the length in its `WIDTH`, what both functions have when they
come to it, and what stands behind its contents. -/
structure Cell where
  th : Bool
  xx : Int
  min_width : Int
  textcolor_ : Nat
  format_fstack : Fl_Help_Font_Stack
  table_fstack : Fl_Help_Font_Stack
  margins : Fl_Margins
  format_pre : Bool
  table_pre : Bool
  behind : Behind

/-- The font of a cell. -/
def Cell.font (p : Page) (c : Cell) : Nat :=
  if c.th then p.textfont_ ||| FL_BOLD else p.textfont_

/-- The font and the size are set when a cell begins. -/
def Cell.pen (p : Page) (c : Cell) (fstack_ : Fl_Help_Font_Stack) : Pen :=
  Pen.pushfont ⟨c.font p, p.textsize_, c.textcolor_, fstack_⟩ (c.font p) p.textsize_

/-! ## Laying out -/

/-- Which loop takes the next blank: the one over the text, the one behind the closing tag of a
block, or the one behind a preformatted word. -/
inductive Blanks where
  | read
  | skipped
  | laid
  deriving DecidableEq, Repr

/-- The variables of `format` in a cell; how many lines were begun, and where the words and
images that were put on the lines end. -/
structure FormatCell where
  pen : Pen
  xx : Int
  block_x : Int
  margins : Fl_Margins
  needspace : Bool
  pre : Bool
  blanks : Blanks
  buf : Text
  lines : Nat
  ends : List Int

namespace FormatCell

/-- Behind the tag of the cell. -/
def start (p : Page) (c : Cell) : FormatCell where
  pen := c.pen p c.format_fstack
  xx := c.xx
  block_x := c.xx
  margins := (c.margins.push (c.xx - c.margins.current)).2
  needspace := false
  pre := c.format_pre
  blanks := .read
  buf := []
  lines := 0
  ends := []

/-- `line = do_align(...); xx = block->x`. -/
def newLine (F : FormatCell) : FormatCell := { F with xx := F.block_x, lines := F.lines + 1 }

/-- A word or an image goes on the line, or on the next one if the line would get wider than
`block->w`. -/
def put (p : Page) (block_w : Option Int) (F : FormatCell) (ww : Int) : FormatCell :=
  let ww := if F.needspace ∧ F.block_x < F.xx then
    ww + p.fl_width F.pen.font F.pen.fsize [32] else ww
  let F := if block_w.any (· < F.xx + ww) then F.newLine else F
  { F with xx := F.xx + ww, ends := (F.xx + ww) :: F.ends, needspace := false }

/-- The end of a word. The blanks behind a preformatted word have a loop of their own. -/
def endWord (p : Page) (block_w : Option Int) (F : FormatCell) : FormatCell :=
  if F.buf = [] then F
  else
    let ww : Int := p.fl_width F.pen.font F.pen.fsize F.buf
    if F.pre then
      { F with xx := F.xx + ww, ends := (F.xx + ww) :: F.ends, needspace := false,
               blanks := .laid, buf := [] }
    else { F.put p block_w ww with buf := [] }

/-- A blank, behind the end of a word. -/
def blank (p : Page) (F : FormatCell) (newline : Bool) : FormatCell :=
  let space : Int := p.fl_width F.pen.font F.pen.fsize [32]
  match F.blanks with
  | .skipped => F
  | .laid => if newline then F.newLine else { F with xx := F.xx + space }
  | .read =>
    if newline && F.pre then { F.newLine with needspace := false }
    else { F with needspace := true, xx := if F.pre then F.xx + space else F.xx }

/-- The closing tag of a block. -/
def closeBlock (F : FormatCell) (buf_tag : Tag) : FormatCell :=
  let F := F.newLine
  let F := match buf_tag with
    | .DL | .OL | .UL => { F with xx := F.margins.pop.1, margins := F.margins.pop.2 }
    | .PRE => { F with pre := false }
    | _ => F
  { F with pen := F.pen.popfont, block_x := F.xx, needspace := false, blanks := .skipped }

/-- The opening tag of a block. -/
def openBlock (p : Page) (F : FormatCell) (buf_tag : Tag) : FormatCell :=
  let F := F.newLine
  let F := match buf_tag with
    | .UL | .OL | .DL =>
      { F with xx := (F.margins.push (4 * F.pen.fsize)).1,
               margins := (F.margins.push (4 * F.pen.fsize)).2,
               pen := F.pen.pushfont F.pen.font F.pen.fsize }
    | .H n => { F with pen := F.pen.pushfont FL_HELVETICA_BOLD (p.textsize_ + 7 - n) }
    | .DT => { F with pen := F.pen.pushfont (p.textfont_ ||| FL_ITALIC) p.textsize_ }
    | .PRE => { F with pen := F.pen.pushfont FL_COURIER p.textsize_, pre := true }
    | _ => { F with pen := F.pen.pushfont p.textfont_ p.textsize_ }
  { F with block_x := F.xx, needspace := false }

/-- The switch over the tags. -/
def tagSwitch (p : Page) (block_w : Option Int) (F : FormatCell) (is_close_tag : Bool)
    (buf_tag : Tag) (attrs : Text) : FormatCell :=
  match buf_tag with
  | .BR => F.newLine
  | .CENTER | .DD | .DL | .DT | .H _ | .PRE | .LI | .OL | .UL =>
    if is_close_tag then F.closeBlock buf_tag else F.openBlock p buf_tag
  | .IMG => F.put p block_w (p.imageWidth attrs)
  | _ => { F with pen := F.pen.inline is_close_tag buf_tag }

/-- What `format` does with a piece of a cell. -/
def step (p : Page) (block_w : Option Int) (F : FormatCell) : Piece → FormatCell
  | .byte b =>
    { F with blanks := .read, buf := if F.buf.length < 1023 then F.buf ++ [b.1] else F.buf }
  | .quoted qch =>
    { F with blanks := .read,
             buf := if F.buf.length < 1023 then F.buf ++ utf8Bytes qch else F.buf }
  | .blank newline => (F.endWord p block_w).blank p newline
  | .tag is_close_tag buf_tag attrs =>
    tagSwitch p block_w { F.endWord p block_w with blanks := .read } is_close_tag buf_tag.1 attrs

end FormatCell

/-- The last word of the text, preformatted or not. -/
def FormatCell.lastWord (p : Page) (block_w : Option Int) (F : FormatCell) : FormatCell :=
  if F.buf = [] then F
  else { F.put p block_w (p.fl_width F.pen.font F.pen.fsize F.buf) with buf := [] }

/-- A cell is laid out, no wider than `block_w` if that is given. The tag behind the contents, or
the end of the text, ends the last word. -/
def formatCell (p : Page) (block_w : Option Int) (c : Cell) (contents : List Piece) : FormatCell :=
  let F := contents.foldl (FormatCell.step p block_w) (.start p c)
  if c.behind = .nothing then F.lastWord p block_w else F.endWord p block_w

/-! ## Measuring -/

/-- The variables of `format_table` in a cell, and how many lines it began to measure. -/
structure TableCell where
  pen : Pen
  width : Int
  max_width : Int
  needspace : Bool
  pre : Bool
  buf : Text
  lines : Nat

namespace TableCell

/-- Behind the tag of the cell. -/
def start (p : Page) (c : Cell) : TableCell where
  pen := c.pen p c.table_fstack
  width := 0
  max_width := c.min_width
  needspace := false
  pre := c.table_pre
  buf := []
  lines := 0

/-- `width = 0; needspace = 0`. -/
def newLine (T : TableCell) : TableCell :=
  { T with width := 0, needspace := false, lines := T.lines + 1 }

/-- `width` has grown. -/
def put (T : TableCell) (ww : Int) : TableCell :=
  let width := T.width + ww
  { T with width := width, max_width := if T.max_width < width then width else T.max_width,
           needspace := false }

/-- The end of a word. -/
def endWord (p : Page) (T : TableCell) : TableCell :=
  if T.buf = [] then T
  else
    let buf := if T.needspace then T.buf ++ [32] else T.buf
    { T.put (p.fl_width T.pen.font T.pen.fsize buf) with buf := [] }

/-- A blank, behind the end of a word. -/
def blank (T : TableCell) (newline : Bool) : TableCell :=
  if newline && T.pre then T.newLine else { T with needspace := true }

/-- The opening tag of a block. -/
def openBlock (p : Page) (T : TableCell) (buf_tag : Tag) : TableCell :=
  let T := T.newLine
  match buf_tag with
  | .H n => { T with pen := T.pen.pushfont FL_HELVETICA_BOLD (p.textsize_ + 7 - n) }
  | .DT => { T with pen := T.pen.pushfont (p.textfont_ ||| FL_ITALIC) p.textsize_ }
  | .PRE => { T with pen := T.pen.pushfont FL_COURIER p.textsize_, pre := true }
  | .LI =>
    { T with width := T.width + 4 * T.pen.fsize, pen := T.pen.pushfont p.textfont_ p.textsize_ }
  | _ => { T with pen := T.pen.pushfont p.textfont_ p.textsize_ }

/-- The switch over the tags. -/
def tagSwitch (p : Page) (T : TableCell) (is_close_tag : Bool) (buf_tag : Tag) (attrs : Text) :
    TableCell :=
  match buf_tag with
  | .BR => T.newLine
  | .CENTER | .DD | .DL | .DT | .H _ | .LI | .PRE | .OL | .P | .UL =>
    if is_close_tag then { T.newLine with pen := T.pen.popfont } else T.openBlock p buf_tag
  | .IMG =>
    T.put (if T.needspace then p.imageWidth attrs + p.fl_width T.pen.font T.pen.fsize [32]
           else p.imageWidth attrs)
  | _ => { T with pen := T.pen.inline is_close_tag buf_tag }

/-- What `format_table` does with a piece of a cell. -/
def step (p : Page) (T : TableCell) : Piece → TableCell
  | .byte b => { T with buf := if T.buf.length < 1023 then T.buf ++ [b.1] else T.buf }
  | .quoted qch =>
    -- one byte, whatever the character
    { T with buf := if T.buf.length < 1023 then T.buf ++ [.ofNat qch] else T.buf }
  | .blank newline => (T.endWord p).blank newline
  | .tag is_close_tag buf_tag attrs => tagSwitch p (T.endWord p) is_close_tag buf_tag.1 attrs

end TableCell

/-- A cell is measured: the width that the tag of the next cell, of a row or of the table stores for
its column, which is as it was cleared where the text ends before. -/
def measureCell (p : Page) (c : Cell) (contents : List Piece) : Int :=
  if c.behind = .row then ((contents.foldl (TableCell.step p) (.start p c)).endWord p).max_width
  else 0

/-- The width that was measured for a cell is enough for it: no line is wider when it may not
be broken, a column of that width breaks none, and a line is begun in the measure only where
one is begun in the layout. -/
structure WideEnough (p : Page) (c : Cell) (contents : List Piece) : Prop where
  bounds : ∀ xx ∈ (formatCell p none c contents).ends,
    xx - c.xx ≤ measureCell p c contents
  unbroken : ∀ width, measureCell p c contents ≤ width →
    formatCell p (some (c.xx + width)) c contents = formatCell p none c contents
  lines : ∀ l piece, l ++ [piece] <+: contents →
    (l.foldl (TableCell.step p) (.start p c)).lines <
      ((l ++ [piece]).foldl (TableCell.step p) (.start p c)).lines →
    (l.foldl (FormatCell.step p none) (.start p c)).lines <
      ((l ++ [piece]).foldl (FormatCell.step p none) (.start p c)).lines

/-! ## The measure in the scan of the table

The same loop is in `TableScan`, with the text it reads and without the measures. -/

namespace TableScan

/-- The piece of a cell that a turn comes to. -/
def piece (T : TableScan) : Option Piece :=
  let c := deref T.ptr
  if h : c = 0 then none
  else if c = 60 then
    let t := readTagAt T.ptr.tail
    if ht : t.buf_tag.isMeasured = true then some (.tag t.is_close_tag ⟨t.buf_tag, ht⟩ t.attrs)
    else none
  else if isspace c then some (.blank (c == 10))
  else if c = 38 ∧ T.s < 1023 ∧ 0 ≤ quote_char T.ptr.tail then
    some (.quoted (quote_char T.ptr.tail).toNat)
  else some (.byte ⟨c, h⟩)

/-- Turns over the contents of a cell. -/
inductive Over (narrow : Bool) : TableScan → List Piece → TableScan → Prop where
  | nil {T} : Over narrow T [] T
  | cons {T T₁ T₂ piece l} (hpiece : T.piece = some piece) (hturn : (T.turn narrow).2 = some T₁)
      (hrest : Over narrow T₁ l T₂) : Over narrow T (piece :: l) T₂

/-- The opening tag of a cell comes next. -/
def AtCell (T : TableScan) : Prop :=
  ∃ t, T.tagOf = some t ∧ (t.buf_tag = .TD ∨ t.buf_tag = .TH) ∧ t.is_close_tag = false

/-- A tag comes next that stores the width of the cell before. -/
def AtStore (T : TableScan) : Prop :=
  T.AtCell ∨ ∃ t, T.tagOf = some t ∧ (t.buf_tag = .TR ∨ t.buf_tag = .TABLE)

end TableScan

/-- The scan of a table and the measure of a cell have as much of a word, and the same flags. -/
structure TableCell.At (C : TableCell) (T : TableScan) : Prop where
  incell : T.incell = true
  s : T.s = C.buf.length
  needspace : T.needspace = C.needspace
  pre : T.pre = C.pre

namespace TableScan

variable {T : TableScan}

theorem tagOf_eq_some {t : TagAt} (h : T.tagOf = some t) :
    deref T.ptr = 60 ∧ t = readTagAt T.ptr.tail := by
  rw [tagOf] at h
  split at h
  · next hlt => exact ⟨hlt, (Option.some.inj h).symm⟩
  · cases h

theorem endOfWord_cell : T.endOfWord.2.ptr = T.ptr ∧ T.endOfWord.2.pre = T.pre ∧
    T.endOfWord.2.column = T.column ∧ T.endOfWord.2.colspan = T.colspan := by
  rw [endOfWord]
  split <;> exact ⟨rfl, rfl, rfl, rfl⟩

/-- The turn at a tag. -/
theorem turn_tag {t : TagAt} (h : T.tagOf = some t) (narrow : Bool) :
    ∃ l l', T.turn narrow =
      (l ++ (tagTurn { T.endOfWord.2 with s := 0, ptr := t.ptr } T.ptr t).1 ++ l',
        (tagTurn { T.endOfWord.2 with s := 0, ptr := t.ptr } T.ptr t).2) := by
  obtain ⟨hlt, rfl⟩ := tagOf_eq_some h
  rw [turn, if_neg (by rw [hlt]; decide)]
  dsimp only
  rw [endOfWord_cell.1, if_pos hlt]
  exact ⟨T.endOfWord.1 ++ nameWrites T.ptr.tail, _, rfl⟩

/-- Only a tag or a blank ends a word. -/
theorem endOfWord_other (hlt : deref T.ptr ≠ 60) (hspace : ¬ isspace (deref T.ptr) = true) :
    T.endOfWord = ([], T) := by
  rw [endOfWord, if_neg]
  simp [hlt, hspace]

end TableScan

namespace TableCell.At

variable {p : Page} {C : TableCell} {T : TableScan}

/-- The end of a word is one for both. -/
theorem endWord (h : C.At T) (hc : deref T.ptr = 60 ∨ isspace (deref T.ptr) = true) :
    (C.endWord p).At T.endOfWord.2 ∧ T.endOfWord.2.s = 0 := by
  have hs := h.s
  rw [TableCell.endWord, TableScan.endOfWord]
  by_cases hbuf : C.buf = []
  · have h0 : T.s = 0 := by rw [hs, hbuf, List.length_nil]
    rw [if_pos hbuf, if_neg (by omega)]
    exact ⟨h, h0⟩
  · have hend : (deref T.ptr = 60 ∨ isspace (deref T.ptr) = true) ∧ 0 < T.s ∧ T.incell = true :=
      ⟨hc, hs ▸ List.length_pos_iff.2 hbuf, h.incell⟩
    rw [if_neg hbuf, if_pos hend]
    exact ⟨⟨h.incell, rfl, rfl, h.pre⟩, rfl⟩

/-- What both switches over the tags do to a cell. -/
theorem tagSwitch (h : C.At T) (start : Text) (t : TagAt) (ht : t.buf_tag.isMeasured = true) :
    ∃ T', (T.tagTurn start t).2 = some T' ∧
      (C.tagSwitch p t.is_close_tag t.buf_tag t.attrs).At T' ∧ T'.column = T.column := by
  obtain ⟨is_close_tag, buf_tag, attrs, ptr⟩ := t
  cases buf_tag with
  | _ =>
    first
    | exact absurd ht Bool.false_ne_true
    | cases is_close_tag <;>
        first
        | exact ⟨_, rfl, ⟨h.incell, h.s, rfl, rfl⟩, rfl⟩
        | exact ⟨_, rfl, ⟨h.incell, h.s, rfl, h.pre⟩, rfl⟩
        | exact ⟨_, rfl, ⟨h.incell, h.s, h.needspace, h.pre⟩, rfl⟩

/-- A tag in a cell. -/
theorem tag (h : C.At T) {t : TagAt} (ht : T.tagOf = some t) (hmeasured : t.buf_tag.isMeasured = true)
    (narrow : Bool) : ∃ T', (T.turn narrow).2 = some T' ∧
      ((C.endWord p).tagSwitch p t.is_close_tag t.buf_tag t.attrs).At T' ∧ T'.column = T.column := by
  obtain ⟨hword, hs⟩ := h.endWord (p := p) (.inl (TableScan.tagOf_eq_some ht).1)
  have hclear : (C.endWord p).At { T.endOfWord.2 with s := 0, ptr := t.ptr } :=
    ⟨hword.incell, hs ▸ hword.s, hword.needspace, hword.pre⟩
  obtain ⟨T', hT', hat, hcol⟩ := hclear.tagSwitch (p := p) T.ptr t hmeasured
  obtain ⟨l, l', hturn⟩ := TableScan.turn_tag ht narrow
  rw [hturn]
  exact ⟨T', hT', hat, hcol.trans T.endOfWord_cell.2.2.1⟩

/-- A blank in a cell: in preformatted text the end of a line begins a new one. -/
theorem blank (h : C.At T) (h0 : deref T.ptr ≠ 0) (hlt : deref T.ptr ≠ 60)
    (hspace : isspace (deref T.ptr) = true) (narrow : Bool) :
    ∃ T', (T.turn narrow).2 = some T' ∧ ((C.endWord p).blank (deref T.ptr == 10)).At T' ∧
      T'.column = T.column := by
  obtain ⟨hword, -⟩ := h.endWord (p := p) (.inr hspace)
  obtain ⟨hptr, -, hcol, -⟩ := T.endOfWord_cell
  rw [TableScan.turn, if_neg h0]
  dsimp only
  rw [hptr, if_neg hlt, TableCell.blank]
  by_cases hline : deref T.ptr = 10 ∧ T.endOfWord.2.pre = true
  · have hnew : ((deref T.ptr == 10) && (C.endWord p).pre) = true := by
      rw [← hword.pre, hline.1, hline.2]
      rfl
    rw [if_pos hline, if_pos hnew]
    exact ⟨_, rfl, ⟨hword.incell, hword.s, rfl, hword.pre⟩, hcol⟩
  · have hnew : ¬ ((deref T.ptr == 10) && (C.endWord p).pre) = true := by
      rw [← hword.pre, Bool.and_eq_true, beq_iff_eq]
      exact hline
    rw [if_neg hline, if_pos hspace, if_neg hnew]
    exact ⟨_, rfl, ⟨hword.incell, hword.s, rfl, hword.pre⟩, hcol⟩

/-- A character in a cell is put into the word buffer while there is room. -/
theorem character (h : C.At T) (h0 : deref T.ptr ≠ 0) (hlt : deref T.ptr ≠ 60)
    (hspace : ¬ isspace (deref T.ptr) = true) (b : UInt8) (narrow : Bool) :
    ∃ T', (T.turn narrow).2 = some T' ∧
      ({ C with buf := if C.buf.length < 1023 then C.buf ++ [b] else C.buf } : TableCell).At T' ∧
      T'.column = T.column := by
  have hline : ¬ (deref T.ptr = 10 ∧ T.pre = true) := by
    rintro ⟨hc, -⟩
    rw [hc] at hspace
    exact hspace rfl
  rw [TableScan.turn, if_neg h0, TableScan.endOfWord_other hlt hspace]
  dsimp only
  rw [if_neg hlt, if_neg hline, if_neg hspace, ← h.s]
  by_cases hs : T.s < 1023
  · have hlen : T.s + 1 = (if T.s < 1023 then C.buf ++ [b] else C.buf).length := by
      rw [if_pos hs, List.length_append, ← h.s]
      rfl
    by_cases hamp : deref T.ptr = 38
    · rw [if_pos ⟨hamp, hs⟩]
      exact ⟨_, rfl, ⟨h.incell, hlen, h.needspace, h.pre⟩, rfl⟩
    · rw [if_neg fun hc => hamp hc.1, if_pos hs]
      exact ⟨_, rfl, ⟨h.incell, hlen, h.needspace, h.pre⟩, rfl⟩
  · rw [if_neg hs, if_neg fun hc => hs hc.2, if_neg hs]
    exact ⟨_, rfl, ⟨h.incell, h.s, h.needspace, h.pre⟩, rfl⟩

/-- A turn of the scan is a step of the measure. -/
theorem turn (h : C.At T) {piece : Piece} (hpiece : T.piece = some piece) (narrow : Bool) :
    ∃ T', (T.turn narrow).2 = some T' ∧ (C.step p piece).At T' ∧ T'.column = T.column := by
  unfold TableScan.piece at hpiece
  dsimp only at hpiece
  split at hpiece
  · cases hpiece
  next h0 =>
  split at hpiece
  · next hlt =>
    split at hpiece
    · next ht =>
      cases hpiece
      exact h.tag (if_pos hlt) ht narrow
    · cases hpiece
  next hlt =>
  split at hpiece
  · next hspace =>
    cases hpiece
    exact h.blank h0 hlt hspace narrow
  next hspace =>
  split at hpiece
  · cases hpiece
    exact h.character h0 hlt hspace _ narrow
  · cases hpiece
    exact h.character h0 hlt hspace _ narrow

/-- Over the contents of a cell the scan and the measure stay together. -/
theorem run (h : C.At T) {narrow : Bool} {contents : List Piece} {T' : TableScan}
    (hover : T.Over narrow contents T') :
    (contents.foldl (TableCell.step p) C).At T' ∧ T'.column = T.column := by
  induction hover generalizing C with
  | nil => exact ⟨h, rfl⟩
  | cons hpiece hturn _ ih =>
    obtain ⟨T₁, hT₁, hat, hcol⟩ := h.turn (p := p) hpiece narrow
    obtain rfl := Option.some.inj (hturn.symm.trans hT₁)
    obtain ⟨hend, hcol'⟩ := ih hat
    exact ⟨hend, hcol'.trans hcol⟩

end TableCell.At

namespace TableScan

variable {T : TableScan}

/-- The tag of a cell begins its measure, in a column of its row. -/
theorem AtCell.start (h : T.AtCell) (hcol : -1 ≤ T.column) (narrow : Bool) (p : Page) {c : Cell}
    (hpre : c.table_pre = T.pre) :
    ∃ T', (T.turn narrow).2 = some T' ∧ (TableCell.start p c).At T' ∧ 0 ≤ T'.column := by
  obtain ⟨t, ht, hcell, hopen⟩ := h
  obtain ⟨l, l', hturn⟩ := turn_tag ht narrow
  obtain ⟨-, hpre', hcol', -⟩ := T.endOfWord_cell
  have htag : tagTurn { T.endOfWord.2 with s := 0, ptr := t.ptr } T.ptr t =
      ((openCell { T.endOfWord.2 with s := 0, ptr := t.ptr } t.attrs).1,
        some (openCell { T.endOfWord.2 with s := 0, ptr := t.ptr } t.attrs).2) := by
    obtain htag | htag := hcell <;> simp [tagTurn, htag, hopen]
  rw [hturn, htag]
  refine ⟨_, rfl, ⟨rfl, ?_, rfl, ?_⟩, ?_⟩
  all_goals unfold openCell spread
  · split <;> rfl
  · split <;> exact hpre'.trans hpre.symm
  · dsimp only
    rw [hcol']
    split
    · dsimp only
      omega
    · omega

/-- The width of a cell is stored for the columns it spans. -/
theorem AtStore.stores (h : T.AtStore) (hcol : 0 ≤ T.column) (narrow : Bool) {i : Int}
    (hi : i < T.colspan) (h0 : 0 ≤ i) : .columns (T.column + i) ∈ (T.turn narrow).1 := by
  have htag : ∃ t, T.tagOf = some t ∧
      (tagTurn { T.endOfWord.2 with s := 0, ptr := t.ptr } T.ptr t).1 =
        (spread { T.endOfWord.2 with s := 0, ptr := t.ptr }).1 := by
    obtain ⟨t, ht, hcell | hcell, hopen⟩ | ⟨t, ht, hrow | htable⟩ := h
    · exact ⟨t, ht, by simp [tagTurn, hcell, hopen, openCell]⟩
    · exact ⟨t, ht, by simp [tagTurn, hcell, hopen, openCell]⟩
    · exact ⟨t, ht, by simp [tagTurn, hrow]⟩
    · refine ⟨t, ht, ?_⟩
      simp only [tagTurn, htable]
      split <;> rfl
  obtain ⟨t, ht, hspread⟩ := htag
  obtain ⟨l, l', hturn⟩ := turn_tag ht narrow
  obtain ⟨-, -, hcol', hspan⟩ := T.endOfWord_cell
  rw [hturn, hspread, spread, if_pos (by rw [hcol']; exact hcol)]
  refine List.mem_append_left _ (List.mem_append_right _ (List.mem_cons_of_mem _ ?_))
  refine List.mem_map.2 ⟨i.toNat, List.mem_range.2 ?_, ?_⟩
  · rw [hspan]
    omega
  · rw [hcol', Int.toNat_of_nonneg h0]

/-- From the tag of a cell on the scan of the table goes over its contents as the measure does. At
the tag that ends the cell the measure is stored, and at the end of the text it is not. -/
theorem AtCell.measured (h : T.AtCell) (hcol : -1 ≤ T.column) {narrow : Bool} (p : Page) {c : Cell}
    (hpre : c.table_pre = T.pre) {T₁ T₂ : TableScan} {contents : List Piece}
    (hturn : (T.turn narrow).2 = some T₁) (hover : T₁.Over narrow contents T₂) :
    (contents.foldl (TableCell.step p) (.start p c)).At T₂ ∧
      (T₂.AtStore → ∀ i, 0 ≤ i → i < T₂.colspan →
        .columns (T₂.column + i) ∈ (T₂.turn narrow).1) ∧
      (deref T₂.ptr = 0 → T₂.turn narrow = (T₂.finish narrow, none)) := by
  obtain ⟨T', hT', hat, hpos⟩ := h.start hcol narrow p hpre
  obtain rfl := Option.some.inj (hturn.symm.trans hT')
  obtain ⟨hend, hsame⟩ := hat.run (p := p) hover
  exact ⟨hend, fun hstore i h0 hi => hstore.stores (hsame ▸ hpos) narrow hi h0, fun h0 => if_pos h0⟩

end TableScan

/-! ## Where the measure is right -/

/-- The lists, which `format` indents. -/
def Tag.isList : Tag → Bool
  | UL | OL | DL => true
  | _ => false

/-- The tags with which both functions begin a block. -/
def Tag.beginsBlock : Tag → Bool
  | CENTER | DD | DL | DT | H _ | LI | OL | PRE | UL => true
  | _ => false

/-- What is open in a cell: the font in force, those below it, the indentations of the lists,
and what the item that began the line adds to its measure. -/
structure Outline where
  style : Fl_Help_Font_Style
  below : List Fl_Help_Font_Style
  lists : List Int
  item : Int

namespace Outline

def start (p : Page) (c : Cell) : Outline := ⟨⟨c.font p, p.textsize_, c.textcolor_⟩, [], [], 0⟩

/-- The font behind the opening tag of an element. -/
def openStyle (p : Page) (O : Outline) : Tag → Fl_Help_Font_Style
  | .B | .STRONG => { O.style with f := O.style.f ||| FL_BOLD }
  | .CODE | .TT => { O.style with f := FL_COURIER }
  | .I | .EM => { O.style with f := O.style.f ||| FL_ITALIC }
  | .KBD => { O.style with f := FL_COURIER_BOLD }
  | .VAR => { O.style with f := FL_COURIER_ITALIC }
  | .H n => { O.style with f := FL_HELVETICA_BOLD, s := p.textsize_ + 7 - n }
  | .DT => { O.style with f := p.textfont_ ||| FL_ITALIC, s := p.textsize_ }
  | _ => { O.style with f := p.textfont_, s := p.textsize_ }

/-- Behind an opening tag. -/
def opened (p : Page) (O : Outline) (tag : Tag) : Outline where
  style := O.openStyle p tag
  below := O.style :: O.below
  lists := if tag.isList then 4 * O.style.s :: O.lists else O.lists
  item := if tag = .LI then 4 * O.style.s else if tag.beginsBlock then 0 else O.item

/-- Behind a closing tag. -/
def closed (O : Outline) (tag : Tag) : Outline where
  style := O.below.headD O.style
  below := O.below.tail
  lists := if tag.isList then O.lists.tail else O.lists
  item := if tag.beginsBlock then 0 else O.item

/-- Behind a piece of the contents. -/
def next (p : Page) (O : Outline) : Piece → Outline
  | .tag is_close_tag buf_tag _ =>
    if buf_tag.1 = .BR then { O with item := 0 }
    else if buf_tag.1 = .IMG then O
    else if is_close_tag then O.closed buf_tag.1
    else O.opened p buf_tag.1
  | _ => O

/-- The line is indented no more than the measure knows: it stands in no list, or it is the
first of an item. -/
def Indented (O : Outline) : Prop := O.lists.sum ≤ O.item

/-- A tag that opens something: not preformatted text, lists only in the font of the text, and
there is room on the stacks. -/
structure Opens (p : Page) (c : Cell) (O : Outline) (tag : Tag) : Prop where
  pre : tag ≠ .PRE
  style : tag.isList = true → O.style.f = p.textfont_ ∧ O.style.s = p.textsize_
  format_room : c.format_fstack.nfonts_ + O.below.length + 1 < 99
  table_room : c.table_fstack.nfonts_ + O.below.length + 1 < 99
  margins_room : c.margins.below.length + O.lists.length + 1 < 99

/-- A tag that closes something that was opened in the cell. -/
structure Closes (O : Outline) (tag : Tag) : Prop where
  below : O.below ≠ []
  lists : tag.isList = true → O.lists ≠ []

/-- What a piece of the contents needs. -/
def Allows (p : Page) (c : Cell) (O : Outline) : Piece → Prop
  | .byte _ => O.Indented
  | .quoted qch => 0 < qch ∧ qch < 128 ∧ O.Indented
  | .blank newline => newline = true → c.table_pre = false
  | .tag is_close_tag buf_tag _ =>
    if buf_tag.1 = .BR then True
    else if buf_tag.1 = .IMG then O.Indented
    else if buf_tag.1 = .P then False
    else if is_close_tag then O.Closes buf_tag.1
    else O.Opens p c buf_tag.1

/-- What the contents need. -/
def Sound (p : Page) (c : Cell) : Outline → List Piece → Prop
  | _, [] => True
  | O, piece :: contents => O.Allows p c piece ∧ Sound p c (O.next p piece) contents

end Outline

/-- The tag of a cell, a row or the table follows, the cell is not in preformatted text, there is
room on the stacks, and every piece of its contents has what it needs. -/
structure Cell.Sound (p : Page) (c : Cell) (contents : List Piece) : Prop where
  behind : c.behind = .row
  format_pre : c.format_pre = false
  format_room : c.format_fstack.nfonts_ < 99
  table_room : c.table_fstack.nfonts_ < 99
  margins_room : c.margins.below.length < 99
  contents : (Outline.start p c).Sound p c contents

/-! ## The pens -/

def Fl_Help_Font_Stack.entries (S : Fl_Help_Font_Stack) : List Fl_Help_Font_Style :=
  S.top :: S.below

theorem Fl_Help_Font_Stack.entries_push {S : Fl_Help_Font_Stack} (e : Fl_Help_Font_Style)
    (h : S.nfonts_ < 99) : (S.push e).entries = e :: S.entries := by
  rw [push_of_lt e h]
  rfl

theorem Fl_Help_Font_Stack.entries_pop {S : Fl_Help_Font_Stack} {e e' : Fl_Help_Font_Style}
    {l : List Fl_Help_Font_Style} (h : S.entries = e :: e' :: l) : S.pop.entries = e' :: l := by
  obtain ⟨top, below, hbound⟩ := S
  obtain ⟨rfl, rfl⟩ := List.cons.inj h
  rfl

/-- A pen has the font in force, and what is open in the cell is on its stack. -/
structure Pen.Holds (P : Pen) (base : Fl_Help_Font_Stack) (O : Outline) : Prop where
  font : P.font = O.style.f
  fsize : P.fsize = O.style.s
  color : ∀ e ∈ O.style :: O.below, e.c = P.textcolor_
  fstack_ : P.fstack_.entries = O.style :: (O.below ++ base.entries)

namespace Pen.Holds

variable {P : Pen} {base : Fl_Help_Font_Stack} {O O' : Outline} {p : Page}

/-- Only what is open counts. -/
theorem of_eq (h : P.Holds base O) (hstyle : O'.style = O.style) (hbelow : O'.below = O.below) :
    P.Holds base O' := by
  obtain ⟨hfont, hsize, hcolor, hstack⟩ := h
  rw [← hstyle] at hfont hsize
  rw [← hstyle, ← hbelow] at hcolor hstack
  exact ⟨hfont, hsize, hcolor, hstack⟩

/-- On the stack is what the cell has opened. -/
theorem nfonts_ (h : P.Holds base O) : P.fstack_.nfonts_ = base.nfonts_ + O.below.length + 1 := by
  have hlength := congrArg List.length h.fstack_
  simp only [Fl_Help_Font_Stack.entries, List.length_cons, List.length_append] at hlength
  unfold Fl_Help_Font_Stack.nfonts_
  omega

/-- An opening tag puts its font on the stack. -/
theorem pushfont (h : P.Holds base O) {tag : Tag} {f : Nat} {s : Int}
    (hroom : base.nfonts_ + O.below.length + 1 < 99) (hf : f = (O.openStyle p tag).f)
    (hs : s = (O.openStyle p tag).s) : (P.pushfont f s).Holds base (O.opened p tag) := by
  have hc : (O.openStyle p tag).c = P.textcolor_ := by
    rw [← h.color O.style List.mem_cons_self]
    unfold Outline.openStyle
    split <;> rfl
  have hstyle : (⟨f, s, P.textcolor_⟩ : Fl_Help_Font_Style) = O.openStyle p tag := by
    rw [hf, hs, ← hc]
  refine ⟨hf, hs, ?_, ?_⟩
  · intro e he
    obtain rfl | he := List.mem_cons.1 he
    · exact hc
    · exact h.color e he
  · show (P.fstack_.push ⟨f, s, P.textcolor_⟩).entries = _
    rw [Fl_Help_Font_Stack.entries_push _ (h.nfonts_ ▸ hroom), hstyle, h.fstack_]
    rfl

/-- The closing tag takes it back. -/
theorem popfont (h : P.Holds base O) (hbelow : O.below ≠ []) (tag : Tag) :
    P.popfont.Holds base (O.closed tag) := by
  obtain ⟨e, below, heq⟩ := List.exists_cons_of_ne_nil hbelow
  have hstack := h.fstack_
  rw [heq] at hstack
  have hpop := Fl_Help_Font_Stack.entries_pop hstack
  have hstyle : (O.closed tag).style = e := by
    show O.below.headD O.style = e
    rw [heq]
    rfl
  have htail : (O.closed tag).below = below := by
    show O.below.tail = below
    rw [heq]
    rfl
  have htop : P.fstack_.pop.top = e := (List.cons.inj hpop).1
  constructor
  · rw [hstyle, ← htop]
    rfl
  · rw [hstyle, ← htop]
    rfl
  · rw [hstyle, htail]
    intro e' he'
    apply h.color
    rw [heq]
    exact List.mem_cons_of_mem _ he'
  · rw [hstyle, htail]
    exact hpop

end Pen.Holds

/-- The tags inside a line. -/
def Tag.isInline : Tag → Bool
  | B | STRONG | CODE | TT | I | EM | KBD | VAR => true
  | _ => false

/-- The tags that are measured and begin no line. -/
theorem Tag.isInline_of_measured {tag : Tag} (h : tag.isMeasured = true) (hbr : tag ≠ .BR)
    (himg : tag ≠ .IMG) (hp : tag ≠ .P) (hblock : tag.beginsBlock = false) :
    tag.isInline = true := by
  cases tag <;> simp_all [isMeasured, beginsBlock, isInline]

theorem Tag.not_block_of_inline {tag : Tag} (h : tag.isInline = true) :
    tag.beginsBlock = false ∧ tag.isList = false ∧ tag ≠ .LI := by
  cases tag <;> first | exact ⟨rfl, rfl, by decide⟩ | cases h

section inline

variable {P : Pen} {base : Fl_Help_Font_Stack} {O : Outline} {p : Page} {tag : Tag}

theorem Pen.inline_close (P : Pen) (h : tag.isInline = true) : P.inline true tag = P.popfont := by
  cases tag <;> first | rfl | cases h

theorem Pen.Holds.inline_open (hpen : P.Holds base O) (h : tag.isInline = true)
    (hroom : base.nfonts_ + O.below.length + 1 < 99) :
    (P.inline false tag).Holds base (O.opened p tag) := by
  have hfont := hpen.font
  have hsize := hpen.fsize
  have heq : P.inline false tag = P.pushfont (O.openStyle p tag).f (O.openStyle p tag).s := by
    cases tag <;>
      first | simp [inline, PUSH_OR_POP_FONT, Outline.openStyle, hfont, hsize]; done | cases h
  rw [heq]
  exact hpen.pushfont hroom rfl rfl

end inline

/-! ## Measuring and laying out in step -/

/-- The margins of the open lists, above that of the cell. -/
def marginsOf (xx : Int) : List Int → List Int
  | [] => [xx]
  | indent :: lists => (xx + (indent :: lists).sum) :: marginsOf xx lists

/-- The current margin is that of all lists that are open. -/
theorem marginsOf_eq (xx : Int) (lists : List Int) :
    marginsOf xx lists = (xx + lists.sum) :: (marginsOf xx lists).tail := by
  cases lists with
  | nil => simp [marginsOf]
  | cons indent lists => rfl

theorem length_marginsOf (xx : Int) (lists : List Int) :
    (marginsOf xx lists).length = lists.length + 1 := by
  induction lists with
  | nil => rfl
  | cons indent lists ih => simp [marginsOf, ih]

def Fl_Margins.entries (m : Fl_Margins) : List Int := m.current :: m.below

/-- Both functions at one place of a cell: they have the same font and the same word, and the
line is no wider than its measure, of which the indentation is left out. -/
structure Sim (p : Page) (c : Cell) (O : Outline) (F : FormatCell) (T : TableCell) : Prop where
  format_pen : F.pen.Holds c.format_fstack O
  table_pen : T.pen.Holds c.table_fstack O
  margins : F.margins.entries = marginsOf c.xx O.lists ++ c.margins.entries
  block_x : F.block_x = c.xx + O.lists.sum
  line : F.xx - F.block_x ≤ T.width - O.item
  space : F.needspace = true → F.block_x < F.xx → T.needspace = true
  format_pre : F.pre = false
  table_pre : T.pre = c.table_pre
  blanks : F.blanks ≠ .laid
  buf : F.buf = T.buf
  nonzero : 0 ∉ F.buf
  indented : F.buf ≠ [] → O.Indented
  ends : ∀ xx ∈ F.ends, xx - c.xx ≤ T.max_width

theorem TableCell.max_width_put (T : TableCell) (ww : Int) :
    T.max_width ≤ (T.put ww).max_width ∧ T.width + ww ≤ (T.put ww).max_width := by
  show _ ≤ (if T.max_width < T.width + ww then _ else _) ∧
    _ ≤ if T.max_width < T.width + ww then _ else _
  split <;> constructor <;> omega

theorem TableCell.endWord_of_ne {p : Page} {T : TableCell} (h : T.buf ≠ []) :
    T.endWord p =
      { T.put (p.fl_width T.pen.font T.pen.fsize
          (if T.needspace then T.buf ++ [32] else T.buf)) with buf := [] } :=
  if_neg h

theorem FormatCell.endWord_of_ne {p : Page} {block_w : Option Int} {F : FormatCell}
    (h : F.buf ≠ []) (hpre : F.pre = false) :
    F.endWord p block_w =
      { F.put p block_w (p.fl_width F.pen.font F.pen.fsize F.buf) with buf := [] } := by
  rw [endWord, if_neg h, hpre]
  rfl

theorem FormatCell.buf_endWord (p : Page) (block_w : Option Int) (F : FormatCell) :
    (F.endWord p block_w).buf = [] := by
  unfold endWord
  split
  · assumption
  · split <;> rfl

namespace Fl_Margins

/-- While there is room the new margin is kept. -/
theorem push_of_lt {m : Fl_Margins} (h : m.below.length < 99) (indent : Int) :
    (m.push indent).1 = m.current + indent ∧
      (m.push indent).2.entries = (m.current + indent) :: m.entries := by
  unfold push
  rw [dif_pos h]
  exact ⟨rfl, rfl⟩

/-- The margin before is in force again. -/
theorem pop_of_entries {m : Fl_Margins} {a b : Int} {l : List Int} (h : m.entries = a :: b :: l) :
    m.pop.1 = b ∧ m.pop.2.entries = b :: l := by
  obtain ⟨current, below, hbound⟩ := m
  obtain ⟨rfl, rfl⟩ := List.cons.inj h
  exact ⟨rfl, rfl⟩

end Fl_Margins

theorem Tag.beginsBlock_of_list {tag : Tag} (h : tag.isList = true) : tag.beginsBlock = true := by
  cases tag <;> first | rfl | cases h

/-! What the tags of a block do, which differs for lists only. -/

section blocks

variable {p : Page} {F : FormatCell} {T : TableCell} {tag : Tag}

theorem FormatCell.openBlock_list (h : tag.isList = true) : F.openBlock p tag =
    { F.newLine with
      xx := (F.margins.push (4 * F.pen.fsize)).1
      block_x := (F.margins.push (4 * F.pen.fsize)).1
      margins := (F.margins.push (4 * F.pen.fsize)).2
      pen := F.pen.pushfont F.pen.font F.pen.fsize
      needspace := false } := by
  cases tag <;> first | rfl | cases h

theorem FormatCell.openBlock_other (O : Outline) (h : tag.beginsBlock = true)
    (hlist : tag.isList = false) (hpre : tag ≠ .PRE) : F.openBlock p tag =
    { F.newLine with
      pen := F.pen.pushfont (O.openStyle p tag).f (O.openStyle p tag).s
      needspace := false } := by
  cases tag <;> first | rfl | exact absurd rfl hpre | cases hlist; done | cases h

theorem FormatCell.closeBlock_list (h : tag.isList = true) : F.closeBlock tag =
    { F.newLine with
      xx := F.margins.pop.1
      block_x := F.margins.pop.1
      margins := F.margins.pop.2
      pen := F.pen.popfont
      needspace := false
      blanks := .skipped } := by
  cases tag <;> first | rfl | cases h

theorem FormatCell.closeBlock_other (hlist : tag.isList = false) (hpre : F.pre = false) :
    F.closeBlock tag =
    { F.newLine with pen := F.pen.popfont, needspace := false, blanks := .skipped } := by
  obtain ⟨pen, xx, block_x, margins, needspace, pre, blanks, buf, lines, ends⟩ := F
  obtain rfl : pre = false := hpre
  cases tag <;> first | rfl | cases hlist

theorem TableCell.openBlock_eq (O : Outline) (h : tag.beginsBlock = true) (hpre : tag ≠ .PRE) :
    T.openBlock p tag =
    { T.newLine with
      width := if tag = .LI then 4 * T.pen.fsize else 0
      pen := T.pen.pushfont (O.openStyle p tag).f (O.openStyle p tag).s } := by
  cases tag <;>
    first | rfl | exact absurd rfl hpre | simp [openBlock, newLine, Outline.openStyle]; done | cases h

theorem FormatCell.tagSwitch_block (block_w : Option Int) (is_close_tag : Bool) (attrs : Text)
    (h : tag.beginsBlock = true) : F.tagSwitch p block_w is_close_tag tag attrs =
      if is_close_tag then F.closeBlock tag else F.openBlock p tag := by
  cases tag <;> first | rfl | cases h

theorem TableCell.tagSwitch_block (is_close_tag : Bool) (attrs : Text)
    (h : tag.beginsBlock = true) : T.tagSwitch p is_close_tag tag attrs =
      if is_close_tag then { T.newLine with pen := T.pen.popfont } else T.openBlock p tag := by
  cases tag <;> first | rfl | cases h

theorem FormatCell.tagSwitch_inline (block_w : Option Int) (is_close_tag : Bool) (attrs : Text)
    (h : tag.isInline = true) : F.tagSwitch p block_w is_close_tag tag attrs =
      { F with pen := F.pen.inline is_close_tag tag } := by
  cases tag <;> first | rfl | cases h

theorem TableCell.tagSwitch_inline (is_close_tag : Bool) (attrs : Text)
    (h : tag.isInline = true) : T.tagSwitch p is_close_tag tag attrs =
      { T with pen := T.pen.inline is_close_tag tag } := by
  cases tag <;> first | rfl | cases h

end blocks

namespace Sim

variable {p : Page} {c : Cell} {O : Outline} {F : FormatCell} {T : TableCell}

theorem pen_eq (h : Sim p c O F T) : F.pen.font = T.pen.font ∧ F.pen.fsize = T.pen.fsize :=
  ⟨h.format_pen.font.trans h.table_pen.font.symm, h.format_pen.fsize.trans h.table_pen.fsize.symm⟩

/-- Something is put on the line, behind a space if one is due; the measure has it, too. -/
theorem put (h : Sim p c O F T) (hindented : O.Indented) (ww : Int) :
    Sim p c O (F.put p none ww) (T.put (if T.needspace then
      ww + p.fl_width T.pen.font T.pen.fsize [32] else ww)) := by
  obtain ⟨hfont, hsize⟩ := h.pen_eq
  let ww' : Int := if F.needspace ∧ F.block_x < F.xx then
    ww + p.fl_width F.pen.font F.pen.fsize [32] else ww
  let mm : Int := if T.needspace then ww + p.fl_width T.pen.font T.pen.fsize [32] else ww
  have hle : ww' ≤ mm := by
    show (if _ then _ else _) ≤ if _ then _ else _
    rw [hfont, hsize]
    by_cases hspace : F.needspace ∧ F.block_x < F.xx
    · rw [if_pos hspace, if_pos (h.space hspace.1 hspace.2)]
    · rw [if_neg hspace]
      split
      · exact le_add_of_nonneg_right (Int.natCast_nonneg _)
      · exact le_rfl
  have hput : F.put p none ww =
      { F with xx := F.xx + ww', ends := (F.xx + ww') :: F.ends, needspace := false } := rfl
  obtain ⟨hmax, hwidth⟩ := T.max_width_put mm
  have hline := h.line
  have hblock := h.block_x
  unfold Outline.Indented at hindented
  rw [hput]
  constructor
  case line =>
    show F.xx + ww' - F.block_x ≤ T.width + mm - O.item
    omega
  case ends =>
    intro xx hxx
    obtain rfl | hxx := List.mem_cons.1 hxx
    · show F.xx + ww' - c.xx ≤ (T.put mm).max_width
      omega
    · exact (h.ends xx hxx).trans hmax
  case space => exact fun hfalse => absurd hfalse (by simp)
  case indented => exact fun _ => hindented
  all_goals first | exact h.format_pen | exact h.table_pen | exact h.margins | exact h.block_x
                  | exact h.format_pre | exact h.table_pre | exact h.blanks | exact h.buf
                  | exact h.nonzero

/-- The word is over. -/
theorem clear (h : Sim p c O F T) : Sim p c O { F with buf := [] } { T with buf := [] } :=
  { h with buf := rfl, nonzero := List.not_mem_nil, indented := fun hne => absurd rfl hne }

theorem endWord (h : Sim p c O F T) : Sim p c O (F.endWord p none) (T.endWord p) := by
  by_cases hbuf : F.buf = []
  · rw [FormatCell.endWord, TableCell.endWord, if_pos hbuf, if_pos (h.buf ▸ hbuf)]
    exact h
  · obtain ⟨hfont, hsize⟩ := h.pen_eq
    have hwidth : ((p.fl_width T.pen.font T.pen.fsize
          (if T.needspace then T.buf ++ [32] else T.buf) : Nat) : Int) =
        if T.needspace then (p.fl_width F.pen.font F.pen.fsize F.buf : Int) +
          p.fl_width T.pen.font T.pen.fsize [32]
        else p.fl_width F.pen.font F.pen.fsize F.buf := by
      rw [hfont, hsize, h.buf]
      cases T.needspace with
      | true => exact congrArg Nat.cast (p.space _ _ _ (h.buf ▸ h.nonzero))
      | false => rfl
    have hput := (h.put (h.indented hbuf) (p.fl_width F.pen.font F.pen.fsize F.buf)).clear
    rw [← hwidth] at hput
    rw [FormatCell.endWord_of_ne hbuf h.format_pre, TableCell.endWord_of_ne (h.buf ▸ hbuf)]
    exact hput

/-- A new line. -/
theorem newLine (h : Sim p c O F T) (hbuf : F.buf = []) :
    Sim p c { O with item := 0 } F.newLine T.newLine := by
  constructor
  case format_pen => exact h.format_pen.of_eq rfl rfl
  case table_pen => exact h.table_pen.of_eq rfl rfl
  case line =>
    show F.block_x - F.block_x ≤ (0 : Int) - 0
    omega
  case space => exact fun _ hlt => absurd hlt (lt_irrefl F.block_x)
  case indented => exact fun hne => absurd hbuf hne
  all_goals first | exact h.margins | exact h.block_x | exact h.format_pre | exact h.table_pre
                  | exact h.blanks | exact h.buf | exact h.nonzero | exact h.ends

theorem margins_current (h : Sim p c O F T) : F.margins.current = c.xx + O.lists.sum := by
  have hmargins := h.margins
  rw [marginsOf_eq] at hmargins
  exact (List.cons.inj hmargins).1

theorem length_below (h : Sim p c O F T) :
    F.margins.below.length = c.margins.below.length + O.lists.length + 1 := by
  have hlength := congrArg List.length h.margins
  simp only [Fl_Margins.entries, List.length_cons, List.length_append, length_marginsOf] at hlength
  omega

variable {tag : Tag}

/-- A list is opened: the layout is indented, the measure is not. -/
theorem openList (h : Sim p c O F T) (hbuf : F.buf = []) (hlist : tag.isList = true)
    (hopen : O.Opens p c tag) :
    Sim p c (O.opened p tag) (F.openBlock p tag) (T.openBlock p tag) := by
  have hblock := Tag.beginsBlock_of_list hlist
  have hli : tag ≠ .LI := by
    rintro rfl
    cases hlist
  have hstyle : (O.openStyle p tag).f = p.textfont_ ∧ (O.openStyle p tag).s = p.textsize_ := by
    cases tag <;> first | exact ⟨rfl, rfl⟩ | cases hlist
  obtain ⟨hf, hs⟩ := hopen.style hlist
  have hlt : F.margins.below.length < 99 := h.length_below ▸ hopen.margins_room
  obtain ⟨hxx, hentries⟩ := Fl_Margins.push_of_lt hlt (4 * F.pen.fsize)
  have hlists : (O.opened p tag).lists = 4 * F.pen.fsize :: O.lists := by
    rw [h.format_pen.fsize]
    exact if_pos hlist
  have hitem : (O.opened p tag).item = 0 := by
    show (if tag = .LI then _ else if tag.beginsBlock = true then _ else _) = _
    rw [if_neg hli, if_pos hblock]
  rw [FormatCell.openBlock_list hlist, TableCell.openBlock_eq O hblock hopen.pre, if_neg hli]
  constructor
  case format_pen =>
    exact h.format_pen.pushfont hopen.format_room
      (by rw [hstyle.1, h.format_pen.font, hf]) (by rw [hstyle.2, h.format_pen.fsize, hs])
  case table_pen => exact h.table_pen.pushfont hopen.table_room rfl rfl
  case margins =>
    show (F.margins.push _).2.entries = _
    rw [hentries, hlists, h.margins, h.margins_current, marginsOf, List.sum_cons, add_assoc,
      add_comm O.lists.sum, List.cons_append]
  case block_x =>
    show (F.margins.push _).1 = _
    rw [hxx, hlists, h.margins_current, List.sum_cons]
    omega
  case line =>
    show (F.margins.push _).1 - (F.margins.push _).1 ≤ 0 - (O.opened p tag).item
    rw [hitem]
    omega
  case space => exact fun hfalse => absurd hfalse (by simp)
  case indented => exact fun hne => absurd hbuf hne
  all_goals first | exact h.format_pre | exact h.table_pre | exact h.blanks | exact h.buf
                  | exact h.nonzero | exact h.ends

/-- Another block is opened; an item adds to the measure. -/
theorem openOther (h : Sim p c O F T) (hbuf : F.buf = []) (hblock : tag.beginsBlock = true)
    (hlist : tag.isList = false) (hopen : O.Opens p c tag) :
    Sim p c (O.opened p tag) (F.openBlock p tag) (T.openBlock p tag) := by
  have hlists : (O.opened p tag).lists = O.lists := by simp [Outline.opened, hlist]
  have hitem : (O.opened p tag).item = if tag = .LI then 4 * T.pen.fsize else 0 := by
    rw [h.table_pen.fsize]
    show (if tag = .LI then _ else if tag.beginsBlock = true then _ else _) = _
    rw [if_pos hblock]
  rw [FormatCell.openBlock_other O hblock hlist hopen.pre, TableCell.openBlock_eq O hblock hopen.pre]
  constructor
  case format_pen => exact h.format_pen.pushfont hopen.format_room rfl rfl
  case table_pen => exact h.table_pen.pushfont hopen.table_room rfl rfl
  case margins => exact hlists ▸ h.margins
  case block_x => exact hlists ▸ h.block_x
  case line =>
    show F.block_x - F.block_x ≤ (if tag = .LI then 4 * T.pen.fsize else 0) - (O.opened p tag).item
    rw [hitem]
    omega
  case space => exact fun hfalse => absurd hfalse (by simp)
  case indented => exact fun hne => absurd hbuf hne
  all_goals first | exact h.format_pre | exact h.table_pre | exact h.blanks | exact h.buf
                  | exact h.nonzero | exact h.ends

/-- A block is closed. -/
theorem closeBlock (h : Sim p c O F T) (hbuf : F.buf = []) (hblock : tag.beginsBlock = true)
    (hclose : O.Closes tag) :
    Sim p c (O.closed tag) (F.closeBlock tag) { T.newLine with pen := T.pen.popfont } := by
  have hitem : (O.closed tag).item = 0 := if_pos hblock
  cases hlist : tag.isList with
  | true =>
    obtain ⟨indent, lists, heq⟩ := List.exists_cons_of_ne_nil (hclose.lists hlist)
    have hlists : (O.closed tag).lists = lists := by
      show (if tag.isList = true then O.lists.tail else O.lists) = lists
      rw [if_pos hlist, heq]
      rfl
    have hmargins := h.margins
    rw [heq, marginsOf, marginsOf_eq] at hmargins
    obtain ⟨hxx, hentries⟩ := Fl_Margins.pop_of_entries hmargins
    rw [FormatCell.closeBlock_list hlist]
    constructor
    case format_pen => exact h.format_pen.popfont hclose.below tag
    case table_pen => exact h.table_pen.popfont hclose.below tag
    case margins =>
      show F.margins.pop.2.entries = _
      rw [hentries, hlists, marginsOf_eq c.xx lists]
      rfl
    case block_x =>
      show F.margins.pop.1 = _
      rw [hxx, hlists]
    case line =>
      show F.margins.pop.1 - F.margins.pop.1 ≤ 0 - (O.closed tag).item
      rw [hitem]
      omega
    case space => exact fun hfalse => absurd hfalse (by simp)
    case blanks => exact fun hfalse => by cases hfalse
    case indented => exact fun hne => absurd hbuf hne
    all_goals first | exact h.format_pre | exact h.table_pre | exact h.buf | exact h.nonzero
                    | exact h.ends
  | false =>
    have hlists : (O.closed tag).lists = O.lists := by simp [Outline.closed, hlist]
    rw [FormatCell.closeBlock_other hlist h.format_pre]
    constructor
    case format_pen => exact h.format_pen.popfont hclose.below tag
    case table_pen => exact h.table_pen.popfont hclose.below tag
    case margins => exact hlists ▸ h.margins
    case block_x => exact hlists ▸ h.block_x
    case line =>
      show F.block_x - F.block_x ≤ 0 - (O.closed tag).item
      rw [hitem]
      omega
    case space => exact fun hfalse => absurd hfalse (by simp)
    case blanks => exact fun hfalse => by cases hfalse
    case indented => exact fun hne => absurd hbuf hne
    all_goals first | exact h.format_pre | exact h.table_pre | exact h.buf | exact h.nonzero
                    | exact h.ends

/-- A tag inside a line. -/
theorem openInline (h : Sim p c O F T) (hbuf : F.buf = []) (hinline : tag.isInline = true)
    (hopen : O.Opens p c tag) :
    Sim p c (O.opened p tag) { F with pen := F.pen.inline false tag }
      { T with pen := T.pen.inline false tag } := by
  obtain ⟨hblock, hlist, hli⟩ := Tag.not_block_of_inline hinline
  have hlists : (O.opened p tag).lists = O.lists := by simp [Outline.opened, hlist]
  have hitem : (O.opened p tag).item = O.item := by simp [Outline.opened, hblock, hli]
  constructor
  case format_pen => exact h.format_pen.inline_open hinline hopen.format_room
  case table_pen => exact h.table_pen.inline_open hinline hopen.table_room
  case margins => exact hlists ▸ h.margins
  case block_x => exact hlists ▸ h.block_x
  case line => exact hitem ▸ h.line
  case indented => exact fun hne => absurd hbuf hne
  all_goals first | exact h.space | exact h.format_pre | exact h.table_pre | exact h.blanks
                  | exact h.buf | exact h.nonzero | exact h.ends

theorem closeInline (h : Sim p c O F T) (hbuf : F.buf = []) (hinline : tag.isInline = true)
    (hclose : O.Closes tag) :
    Sim p c (O.closed tag) { F with pen := F.pen.inline true tag }
      { T with pen := T.pen.inline true tag } := by
  obtain ⟨hblock, hlist, -⟩ := Tag.not_block_of_inline hinline
  have hlists : (O.closed tag).lists = O.lists := by simp [Outline.closed, hlist]
  have hitem : (O.closed tag).item = O.item := by simp [Outline.closed, hblock]
  rw [F.pen.inline_close hinline, T.pen.inline_close hinline]
  constructor
  case format_pen => exact h.format_pen.popfont hclose.below tag
  case table_pen => exact h.table_pen.popfont hclose.below tag
  case margins => exact hlists ▸ h.margins
  case block_x => exact hlists ▸ h.block_x
  case line => exact hitem ▸ h.line
  case indented => exact fun hne => absurd hbuf hne
  all_goals first | exact h.space | exact h.format_pre | exact h.table_pre | exact h.blanks
                  | exact h.buf | exact h.nonzero | exact h.ends

/-- The word has grown. -/
theorem glyph (h : Sim p c O F T) (hindented : O.Indented) {b : Text} (hb : 0 ∉ b) :
    Sim p c O { F with blanks := .read, buf := if F.buf.length < 1023 then F.buf ++ b else F.buf }
      { T with buf := if T.buf.length < 1023 then T.buf ++ b else T.buf } :=
  { h with
    blanks := fun hfalse => by cases hfalse
    buf := by rw [h.buf]
    nonzero := by
      split
      · exact fun hmem => (List.mem_append.1 hmem).elim h.nonzero hb
      · exact h.nonzero
    indented := fun _ => hindented }

theorem blank (h : Sim p c O F T) {newline : Bool} (hnewline : newline = true → c.table_pre = false) :
    Sim p c O (F.blank p newline) (T.blank newline) := by
  have hT : T.blank newline = { T with needspace := true } := by
    refine if_neg fun hboth => ?_
    rw [Bool.and_eq_true, h.table_pre] at hboth
    exact absurd hboth.2 (by simp [hnewline hboth.1])
  have hF : F.blank p newline = F ∨ F.blank p newline = { F with needspace := true } := by
    unfold FormatCell.blank
    cases hblanks : F.blanks with
    | skipped => exact .inl rfl
    | laid => exact absurd hblanks h.blanks
    | read =>
      right
      simp [h.format_pre]
  rw [hT]
  obtain hF | hF := hF <;> rw [hF] <;> exact { h with space := fun _ _ => rfl }

theorem tagSwitch (h : Sim p c O F T) (hbuf : F.buf = []) {is_close_tag : Bool}
    {buf_tag : { t : Tag // t.isMeasured = true }} {attrs : Text}
    (hok : O.Allows p c (.tag is_close_tag buf_tag attrs)) :
    Sim p c (O.next p (.tag is_close_tag buf_tag attrs))
      (F.tagSwitch p none is_close_tag buf_tag.1 attrs)
      (T.tagSwitch p is_close_tag buf_tag.1 attrs) := by
  obtain ⟨tag, hmeasured⟩ := buf_tag
  simp only [Outline.Allows] at hok
  simp only [Outline.next]
  by_cases hbr : tag = .BR
  · obtain rfl := hbr
    exact h.newLine hbuf
  by_cases himg : tag = .IMG
  · obtain rfl := himg
    exact h.put hok (p.imageWidth attrs)
  by_cases hp : tag = .P
  · simp [hp] at hok
  rw [if_neg hbr, if_neg himg, if_neg hp] at hok
  rw [if_neg hbr, if_neg himg]
  cases hblock : tag.beginsBlock with
  | true =>
    rw [FormatCell.tagSwitch_block _ _ _ hblock, TableCell.tagSwitch_block _ _ hblock]
    cases is_close_tag with
    | true => exact h.closeBlock hbuf hblock hok
    | false =>
      cases hlist : tag.isList with
      | true => exact h.openList hbuf hlist hok
      | false => exact h.openOther hbuf hblock hlist hok
  | false =>
    have hinline := Tag.isInline_of_measured hmeasured hbr himg hp hblock
    rw [FormatCell.tagSwitch_inline _ _ _ hinline, TableCell.tagSwitch_inline _ _ hinline]
    cases is_close_tag with
    | true => exact h.closeInline hbuf hinline hok
    | false => exact h.openInline hbuf hinline hok

/-- Both functions go over a piece of the contents. -/
theorem step (h : Sim p c O F T) {piece : Piece} (hok : O.Allows p c piece) :
    Sim p c (O.next p piece) (F.step p none piece) (T.step p piece) := by
  cases piece with
  | byte b => exact h.glyph hok fun hmem => b.2 (List.mem_singleton.1 hmem).symm
  | quoted qch =>
    obtain ⟨hpos, hlt, hindented⟩ := hok
    show Sim p c O { F with blanks := .read, buf := if _ then _ ++ utf8Bytes qch else _ } _
    rw [utf8Bytes_of_lt hlt]
    refine h.glyph hindented fun hmem => ?_
    have hzero : (0 : UInt8).toNat = (UInt8.ofNat qch).toNat :=
      congrArg UInt8.toNat (List.mem_singleton.1 hmem)
    rw [UInt8.toNat_ofNat', Nat.mod_eq_of_lt (by omega)] at hzero
    exact hpos.ne hzero
  | blank newline => exact h.endWord.blank hok
  | tag is_close_tag buf_tag attrs =>
    have hread : Sim p c O { F.endWord p none with blanks := .read } (T.endWord p) :=
      { h.endWord with blanks := fun hfalse => by cases hfalse }
    exact hread.tagSwitch (F.buf_endWord p none) hok

/-- Both functions go over the first part of the contents. -/
theorem run (h : Sim p c O F T) {l contents : List Piece} (hsound : O.Sound p c (l ++ contents)) :
    ∃ O', Sim p c O' (l.foldl (FormatCell.step p none) F) (l.foldl (TableCell.step p) T) ∧
      O'.Sound p c contents := by
  induction l generalizing O F T with
  | nil => exact ⟨O, h, hsound⟩
  | cons piece l ih => exact ih (h.step hsound.1) hsound.2

end Sim

/-- Both functions begin a cell. -/
theorem sim_start {p : Page} {c : Cell} {contents : List Piece} (h : c.Sound p contents) :
    Sim p c (.start p c) (.start p c) (.start p c) := by
  have hpen {base : Fl_Help_Font_Stack} (hroom : base.nfonts_ < 99) :
      (c.pen p base).Holds base (.start p c) := by
    refine ⟨rfl, rfl, by simp [Outline.start, Cell.pen, Pen.pushfont], ?_⟩
    exact Fl_Help_Font_Stack.entries_push _ hroom
  obtain ⟨-, hentries⟩ := Fl_Margins.push_of_lt h.margins_room (c.xx - c.margins.current)
  constructor
  case format_pen => exact hpen h.format_room
  case table_pen => exact hpen h.table_room
  case margins =>
    show (c.margins.push _).2.entries = _
    rw [hentries, add_sub_cancel]
    rfl
  case block_x => simp [FormatCell.start, Outline.start]
  case line => simp [FormatCell.start, TableCell.start, Outline.start]
  case space => exact fun hfalse => absurd hfalse (by simp [FormatCell.start])
  case format_pre => exact h.format_pre
  case table_pre => rfl
  case blanks => exact fun hfalse => by cases hfalse
  case buf => rfl
  case nonzero => exact List.not_mem_nil
  case indented => exact fun hne => absurd rfl hne
  case ends => exact fun xx hxx => absurd hxx List.not_mem_nil

/-! ## A column that is wide enough -/

namespace FormatCell

variable {p : Page} {F : FormatCell}

/-- What is put on a line that need not be broken. -/
theorem put_unbroken {width ww : Int} (h : ∀ xx ∈ (F.put p none ww).ends, xx ≤ width) :
    F.put p (some width) ww = F.put p none ww := by
  have hlast := h _ List.mem_cons_self
  unfold put
  have hfits : (some width).any (fun w => w < F.xx + if F.needspace ∧ F.block_x < F.xx then
      ww + p.fl_width F.pen.font F.pen.fsize [32] else ww) = false := by
    simpa using hlast
  simp only [hfits]
  rfl

theorem ends_put (F : FormatCell) (ww : Int) : F.ends ⊆ (F.put p none ww).ends :=
  List.subset_cons_self _ _

theorem endWord_unbroken {width : Int} (h : ∀ xx ∈ (F.endWord p none).ends, xx ≤ width) :
    F.endWord p (some width) = F.endWord p none := by
  unfold endWord at h ⊢
  split
  · rfl
  · next hbuf =>
    rw [if_neg hbuf] at h
    cases hpre : F.pre with
    | true => rfl
    | false =>
      rw [hpre] at h
      exact congrArg (fun F : FormatCell => { F with buf := [] }) (put_unbroken h)

theorem ends_endWord (p : Page) (F : FormatCell) : F.ends ⊆ (F.endWord p none).ends := by
  unfold endWord
  split
  · exact List.Subset.refl _
  · split
    · exact List.subset_cons_self _ _
    · exact ends_put F _

theorem ends_blank (p : Page) (F : FormatCell) (newline : Bool) :
    (F.blank p newline).ends = F.ends := by
  cases hblanks : F.blanks <;> cases newline <;> cases hpre : F.pre <;>
    simp [blank, newLine, hblanks, hpre]

theorem ends_openBlock (p : Page) (F : FormatCell) (tag : Tag) :
    (F.openBlock p tag).ends = F.ends := by
  cases tag <;> rfl

theorem ends_closeBlock (F : FormatCell) (tag : Tag) : (F.closeBlock tag).ends = F.ends := by
  cases tag <;> rfl

theorem ends_tagSwitch (p : Page) (F : FormatCell) (is_close_tag : Bool) (tag : Tag) (attrs : Text) :
    F.ends ⊆ (F.tagSwitch p none is_close_tag tag attrs).ends := by
  cases hblock : tag.beginsBlock with
  | true =>
    rw [tagSwitch_block _ _ _ hblock]
    cases is_close_tag with
    | true => exact (ends_closeBlock F tag).symm ▸ List.Subset.refl _
    | false => exact (ends_openBlock p F tag).symm ▸ List.Subset.refl _
  | false =>
    cases tag <;> first | exact List.Subset.refl _ | exact ends_put F _ | cases hblock

theorem ends_step (p : Page) (F : FormatCell) (piece : Piece) :
    F.ends ⊆ (F.step p none piece).ends := by
  cases piece with
  | byte b => exact List.Subset.refl _
  | quoted qch => exact List.Subset.refl _
  | blank newline =>
    show F.ends ⊆ ((F.endWord p none).blank p newline).ends
    rw [ends_blank]
    exact ends_endWord p F
  | tag is_close_tag buf_tag attrs =>
    exact List.Subset.trans (ends_endWord p F)
      (ends_tagSwitch p { F.endWord p none with blanks := .read } _ _ _)

/-- The ends of the line only get more. -/
theorem ends_run (p : Page) (F : FormatCell) (l : List Piece) :
    F.ends ⊆ ((l.foldl (step p none) F).endWord p none).ends := by
  induction l generalizing F with
  | nil => exact ends_endWord p F
  | cons piece l ih => exact List.Subset.trans (ends_step p F piece) (ih _)

theorem tagSwitch_unbroken {width : Int} {is_close_tag : Bool} {tag : Tag} {attrs : Text}
    (h : ∀ xx ∈ (F.tagSwitch p none is_close_tag tag attrs).ends, xx ≤ width) :
    F.tagSwitch p (some width) is_close_tag tag attrs = F.tagSwitch p none is_close_tag tag attrs := by
  cases tag <;> first | rfl | exact put_unbroken h

/-- A step in which nothing goes beyond the width is the one without it. -/
theorem step_unbroken {width : Int} {piece : Piece}
    (h : ∀ xx ∈ (F.step p none piece).ends, xx ≤ width) :
    F.step p (some width) piece = F.step p none piece := by
  cases piece with
  | byte b => rfl
  | quoted qch => rfl
  | blank newline =>
    have hword := endWord_unbroken (p := p) (F := F) fun xx hxx => h xx (by
      show xx ∈ ((F.endWord p none).blank p newline).ends
      rw [ends_blank]
      exact hxx)
    exact congrArg (fun F : FormatCell => F.blank p newline) hword
  | tag is_close_tag buf_tag attrs =>
    have hword := endWord_unbroken (p := p) (F := F) fun xx hxx =>
      h xx (ends_tagSwitch p { F.endWord p none with blanks := .read } _ _ _ hxx)
    show tagSwitch p _ { F.endWord p (some width) with blanks := .read } _ _ _ = _
    rw [hword]
    exact tagSwitch_unbroken h

theorem run_unbroken {width : Int} {l : List Piece}
    (h : ∀ xx ∈ ((l.foldl (step p none) F).endWord p none).ends, xx ≤ width) :
    (l.foldl (step p (some width)) F).endWord p (some width) =
      (l.foldl (step p none) F).endWord p none := by
  induction l generalizing F with
  | nil => exact endWord_unbroken h
  | cons piece l ih =>
    have hstep := step_unbroken (p := p) (F := F) fun xx hxx => h xx (ends_run p _ l hxx)
    rw [List.foldl_cons, hstep]
    exact ih h

end FormatCell

/-! ## Where lines begin -/

theorem FormatCell.lines_endWord (p : Page) (F : FormatCell) :
    (F.endWord p none).lines = F.lines := by
  unfold endWord
  split
  · rfl
  · split <;> rfl

theorem TableCell.lines_endWord (p : Page) (T : TableCell) : (T.endWord p).lines = T.lines := by
  unfold endWord
  split <;> rfl

/-- The tags at which a line begins. -/
theorem FormatCell.lines_tagSwitch {p : Page} {F : FormatCell} {block_w : Option Int}
    {is_close_tag : Bool} {tag : Tag} {attrs : Text} (h : tag = .BR ∨ tag.beginsBlock = true) :
    (F.tagSwitch p block_w is_close_tag tag attrs).lines = F.lines + 1 := by
  obtain rfl | hblock := h
  · rfl
  · rw [tagSwitch_block _ _ _ hblock]
    cases is_close_tag with
    | true => cases tag <;> rfl
    | false => cases tag <;> rfl

theorem TableCell.lines_tagSwitch {p : Page} {T : TableCell} {is_close_tag : Bool} {tag : Tag}
    {attrs : Text} (h : ¬ (tag = .BR ∨ tag.beginsBlock = true)) (hp : tag ≠ .P) :
    (T.tagSwitch p is_close_tag tag attrs).lines = T.lines := by
  rw [not_or, Bool.not_eq_true] at h
  cases tag <;> first | rfl | exact absurd rfl hp | exact absurd rfl h.1 | cases h.2

/-- Where the measure of a line begins, a line begins. -/
theorem Sim.lines_step {p : Page} {c : Cell} {O : Outline} {F : FormatCell} {T : TableCell}
    {piece : Piece} (h : Sim p c O F T) (hok : O.Allows p c piece)
    (hlt : T.lines < (T.step p piece).lines) : F.lines < (F.step p none piece).lines := by
  cases piece with
  | byte b => exact absurd hlt (lt_irrefl T.lines)
  | quoted qch => exact absurd hlt (lt_irrefl T.lines)
  | blank newline =>
    have hpre : (newline && (T.endWord p).pre) = false := by
      rw [h.endWord.table_pre, Bool.and_eq_false_imp]
      exact hok
    change T.lines < ((T.endWord p).blank newline).lines at hlt
    rw [TableCell.blank, hpre] at hlt
    exact absurd hlt (by simp [TableCell.lines_endWord])
  | tag is_close_tag buf_tag attrs =>
    change T.lines < ((T.endWord p).tagSwitch p _ _ _).lines at hlt
    show F.lines < (FormatCell.tagSwitch p none { F.endWord p none with blanks := .read } _ _ _).lines
    by_cases hbreak : buf_tag.1 = .BR ∨ buf_tag.1.beginsBlock = true
    · rw [FormatCell.lines_tagSwitch hbreak]
      show F.lines < (F.endWord p none).lines + 1
      rw [FormatCell.lines_endWord]
      omega
    · have hp : buf_tag.1 ≠ .P := by
        intro hp
        simp [Outline.Allows, hp] at hok
      rw [TableCell.lines_tagSwitch hbreak hp, TableCell.lines_endWord] at hlt
      exact absurd hlt (lt_irrefl _)

/-- A page whose characters are all as wide as each other. -/
def monospaced : Page where
  textfont_ := 0
  textsize_ := 12
  linkcolor_ := 0
  scaled size _ := size
  fl_width _ _ word := word.length
  space _ _ word _ := by simp
  imageWidth _ := 0

/-- The first cell of a row. -/
def firstCell : Cell where
  th := false
  xx := 10
  min_width := 0
  textcolor_ := 0
  format_fstack := .init ⟨0, 12, 0⟩
  table_fstack := .init ⟨0, 12, 0⟩
  margins := ⟨4, [], by decide⟩
  format_pre := false
  table_pre := false
  behind := .row

/-- `<UL><LI>a</UL>`. -/
def itemCell : List Piece :=
  [.tag false ⟨.UL, rfl⟩ [], .tag false ⟨.LI, rfl⟩ [], .byte ⟨97, by decide⟩,
    .tag true ⟨.UL, rfl⟩ []]

end LuaFltk.Help
