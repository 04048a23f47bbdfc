import LuaFltk.Help.Scan

/-!
# Table rows in the layout of a help document

The scan of the text in `Fl_Help_View::format`, with what it keeps of tables: the blocks, the
current row, and the cells of the row. The measures of the text only decide whether a word, a
line, a table or an image is too wide, upon which the layout begins again; they are given
from outside. The record of a run lists every use of the current row and of its cells.
-/

namespace LuaFltk.Help

def MAX_COLUMNS : Int := 200

/-- A block of the layout: where its text starts and ends, and the `<TR>` it was made for. -/
structure Block where
  start : Text
  stop : Text
  tr : Option Text
  deriving DecidableEq, Repr

/-- A use of the current row: its number, the `<TR>` its block was made for, and the `<TR>`
that is open; or the reading of a cell. An element of `cells` nothing was written to since
the last `<TR>` reads as `none`. -/
inductive Use where
  | row (row : Nat) (tr opened : Option Text)
  | cell (i : Int) (value : Option Nat)
  deriving DecidableEq, Repr

/-- The row is the block of the open `<TR>`; the cell is an element that was assigned or
cleared. -/
def Use.Sound : Use → Prop
  | row r tr opened => r ≠ 0 ∧ opened.isSome ∧ tr = opened
  | cell i value => 0 ≤ i ∧ i < MAX_COLUMNS ∧ value.isSome

/-- The blocks and the variables `row`, `column` and `cells`; `opened` is the `<TR>` that is
open. `block` always points to the last block between two tags. -/
structure Rows where
  blocks : List Block
  row : Nat
  column : Int
  cells : Int → Option Nat
  opened : Option Text

namespace Rows

/-- `add_block`. -/
def add_block (R : Rows) (s : Text) (tr : Option Text) : Rows :=
  { R with blocks := R.blocks ++ [⟨s, s, tr⟩] }

/-- `block->end = ptr`. -/
def endBlock (R : Rows) (ptr : Text) : Rows :=
  { R with blocks := R.blocks.modify (R.blocks.length - 1) fun b => { b with stop := ptr } }

/-- A use of `blocks_[row]`. -/
def useRow (R : Rows) : Use := .row R.row (R.blocks[R.row]?.bind Block.tr) R.opened

/-- The loop over the cells of the row. -/
def useCells (R : Rows) : List Use :=
  (List.range R.column.toNat).map fun i : Nat => .cell i (R.cells i)

/-- `if(block->end == block->start && nblocks_ > 1)`: an empty last block is dropped. -/
def dropEmpty (R : Rows) : Rows :=
  match R.blocks.getLast? with
  | some b => if b.stop = b.start ∧ 1 < R.blocks.length then { R with blocks := R.blocks.dropLast }
    else R
  | none => R

/-- The opening tags `<TD>` and `<TH>` at `start`. -/
def openCell (R : Rows) (start attrs : Text) : Rows × List Use :=
  if R.row = 0 then (R, [])
  else
    let colspan := ((get_attr (ascii "COLSPAN") 1024 attrs).map atoi).getD 1
    let R₁ := R.endBlock start
    let R₂ := R₁.dropEmpty
    let R₃ := R₂.add_block start none
    ({ R₃ with
        cells := Function.update R₃.cells R.column (some (R₃.blocks.length - 1))
        column := R.column + colspan },
      [R₁.useRow, R₂.useRow])

/-- The closing tags `</TD>` and `</TH>`. -/
def closeCell (R : Rows) : Rows × List Use := (R, [])

/-- `<TR>`, which also ends a row that is open. -/
def openRow (R : Rows) (start : Text) : Rows × List Use :=
  let R₁ := R.endBlock start
  let uses := if R₁.row ≠ 0 then R₁.useRow :: R₁.useCells else []
  let R₂ := R₁.add_block start (some start)
  ({ R₂ with
      cells := fun i => if 0 ≤ i ∧ i < MAX_COLUMNS then some 0 else none
      row := R₂.blocks.length - 1
      column := 0
      opened := some start }, uses)

/-- `</TR>`. -/
def closeRow (R : Rows) (start : Text) : Rows × List Use :=
  let R₁ := R.endBlock start
  ({ R₁.add_block start none with row := 0, opened := none }, R₁.useRow :: R₁.useCells)

end Rows

/-- What measuring the text has for answer in one turn of the loop: whether the word that
ends, the preformatted line before it or up to here, the table or the image is too wide. -/
structure Wide where
  word : Bool
  spaces : Bool
  line : Bool
  table : Bool
  image : Bool

/-- Code the scan uses: the code of a quoted character, and the length of its encoding. -/
structure Env where
  quote_char : Text → Int
  fl_utf8encode : Int → Nat

/-- The variables of the scan; of `s` only its distance from `buf` matters. -/
structure Scan where
  ptr : Text
  s : Nat
  head : Bool
  pre : Bool
  rows : Rows

/-- How a turn of the loop ends: the scan goes on, the layout begins again, or the loop is
left. -/
inductive Turn where
  | next (st : Scan) (uses : List Use)
  | restart
  | leave

/-- The end of a word, with which a turn begins: `none` when the layout begins again. -/
def endOfWord (a : Wide) (st : Scan) : Option Scan :=
  if (deref st.ptr = 60 ∨ isspace (deref st.ptr)) ∧ 0 < st.s then
    if !st.head && !st.pre then
      if a.word then none else some { st with s := 0 }
    else if st.pre then
      if a.spaces then none else some { st with s := 0, ptr := st.ptr.dropWhile isspace }
    else some { st with s := 0, ptr := st.ptr.dropWhile isspace }
  else some st

/-- The tags that end a block and begin another one. -/
def Tag.isBlock : Tag → Bool
  | CENTER | DD | DL | DT | H _ | BRV | HR | PRE | LI | OL | TABLE | UL => true
  | _ => false

/-- What the tag at `start` does. -/
def tagTurn (a : Wide) (st : Scan) (start : Text) (t : TagAt) : Turn :=
  let st := { st with ptr := t.ptr }
  let put := fun r : Rows × List Use => Turn.next { st with rows := r.1 } r.2
  match t.buf_tag with
  | .TD | .TH => put (if t.is_close_tag then st.rows.closeCell else st.rows.openCell start t.attrs)
  | .TR => put (if t.is_close_tag then st.rows.closeRow start else st.rows.openRow start)
  | .HEAD => .next { st with head := !t.is_close_tag } []
  | .IMG => if a.image then .restart else .next st []
  | .TITLE =>
    let n := (t.ptr.takeWhile fun c => c != 60 && c != 0).length
    .next { st with ptr := t.ptr.drop (min n 1023) } []
  | tag =>
    if tag.isBlock then
      if t.is_close_tag then
        let ptr := t.ptr.dropWhile isspace
        .next { st with
          ptr := ptr
          pre := if tag = .PRE then false else st.pre
          rows := (st.rows.endBlock t.ptr).add_block ptr none } []
      else if tag = .TABLE ∧ a.table then .restart
      else
        let R := st.rows.endBlock start
        let R := if tag = .TABLE then { R with column := 0 } else R
        .next { st with
          pre := if tag = .PRE then true else st.pre
          rows := R.add_block start none } []
    else .next st []

/-- One turn of the loop over the text. -/
def turn (env : Env) (a : Wide) (st : Scan) : Turn :=
  match endOfWord a st with
  | none => .restart
  | some st =>
    let c := deref st.ptr
    if c = 60 then
      if st.ptr.tail.take 3 = ascii "!--" then
        match afterComment (st.ptr.tail.drop 3) with
        | some ptr => .next { st with ptr := ptr } []
        | none => .leave
      else tagTurn a st st.ptr (readTagAt st.ptr.tail)
    else if c = 10 ∧ st.pre then
      if a.line then .restart else .next { st with ptr := st.ptr.tail } []
    else if isspace c then .next { st with ptr := st.ptr.tail } []
    else if c = 38 ∧ st.s < 1023 then
      match afterSemicolon st.ptr.tail with
      | none => .next { st with s := st.s + 1, ptr := st.ptr.tail } []
      | some ptr =>
        if env.quote_char st.ptr.tail < 0 then
          .next { st with s := st.s + 1, ptr := st.ptr.tail } []
        else
          .next { st with
            s := st.s + max 1 (env.fl_utf8encode (env.quote_char st.ptr.tail)), ptr := ptr } []
    else .next { st with s := if st.s < 1023 then st.s + 1 else st.s, ptr := st.ptr.tail } []

/-- The variables when a layout begins; `cells` is as it was. -/
def begin (value_ : Text) (cells : Int → Option Nat) : Scan where
  ptr := value_
  s := 0
  head := false
  pre := false
  rows := ⟨[⟨value_, value_, none⟩], 0, 0, cells, none⟩

/-- The turns of `format`, one for each answer: the uses recorded, and the states the turns
began in. -/
def turns (env : Env) (value_ : Text) : List Wide → Scan → List Use × List (Wide × Scan)
  | [], _ => ([], [])
  | a :: as, st =>
    if deref st.ptr = 0 then ([], [])
    else match turn env a st with
      | .next st' uses =>
        let r := turns env value_ as st'
        (uses ++ r.1, (a, st) :: r.2)
      | .restart =>
        let r := turns env value_ as (begin value_ st.rows.cells)
        (r.1, (a, st) :: r.2)
      | .leave => ([], [(a, st)])

/-- `format`, with `cells` not yet written to. -/
def format (env : Env) (value_ : Text) (as : List Wide) : List Use × List (Wide × Scan) :=
  turns env value_ as (begin value_ fun _ => none)

/-! ## The invariant -/

/-- The current row is the block of the `<TR>` that is open, which lies before `ptr`, and its
cells are all assigned or cleared. -/
structure RowOpen (ptr : Text) (R : Rows) (b : Block) (tr : Text) : Prop where
  block : R.blocks[R.row]? = some b
  made : b.tr = some tr
  opened : R.opened = some tr
  start : b.start = tr
  before : ptr.length < tr.length
  cells : ∀ i, 0 ≤ i → i < MAX_COLUMNS → (R.cells i).isSome

/-- What holds of the rows when the scan is at `ptr`. -/
structure RowInv (ptr : Text) (R : Rows) : Prop where
  blocks : R.blocks ≠ []
  row : R.row ≠ 0 → ∃ b tr, RowOpen ptr R b tr

/-- The invariant looks back only. -/
theorem RowInv.mono {ptr ptr' : Text} {R : Rows} (h : RowInv ptr R)
    (hle : ptr'.length ≤ ptr.length) : RowInv ptr' R := by
  refine ⟨h.blocks, fun hrow => ?_⟩
  obtain ⟨b, tr, hb⟩ := h.row hrow
  exact ⟨b, tr, { hb with before := by have := hb.before; omega }⟩

theorem RowInv.begin (value_ : Text) (cells : Int → Option Nat) (ptr : Text) :
    RowInv ptr (begin value_ cells).rows := by
  refine ⟨by simp [Help.begin], fun h => absurd rfl h⟩

theorem RowInv.endBlock {ptr : Text} {R : Rows} (h : RowInv ptr R) (p : Text) :
    RowInv ptr (R.endBlock p) := by
  refine ⟨?_, fun hrow => ?_⟩
  · intro hnil
    have := congrArg List.length hnil
    simp only [Rows.endBlock, List.length_modify, List.length_nil, List.length_eq_zero_iff] at this
    exact h.blocks this
  · obtain ⟨b, tr, hb⟩ := h.row hrow
    have hget : (R.endBlock p).blocks[R.row]? =
        some (if R.blocks.length - 1 = R.row then { b with stop := p } else b) := by
      simp only [Rows.endBlock, List.getElem?_modify, hb.block, Option.map_eq_map, Option.map_some]
    refine ⟨_, tr, hget, ?_, hb.opened, ?_, hb.before, hb.cells⟩
    · split
      exacts [hb.made, hb.made]
    · split
      exacts [hb.start, hb.start]

theorem RowInv.add_block {ptr : Text} {R : Rows} (h : RowInv ptr R) (p : Text) :
    RowInv ptr (R.add_block p none) := by
  refine ⟨by simp [Rows.add_block], fun hrow => ?_⟩
  obtain ⟨b, tr, hb⟩ := h.row hrow
  have hlt : R.row < R.blocks.length := (List.getElem?_eq_some_iff.1 hb.block).1
  refine ⟨b, tr, ?_, hb.made, hb.opened, hb.start, hb.before, hb.cells⟩
  show (R.blocks ++ [_])[R.row]? = some b
  rw [List.getElem?_append_left hlt, hb.block]

/-- The block dropped before a cell is not the one of the row, for the row began before. -/
theorem RowInv.dropEmpty {start : Text} {R : Rows} (h : RowInv start R) :
    RowInv start (R.endBlock start).dropEmpty := by
  have hend := h.endBlock start
  unfold Rows.dropEmpty
  split
  · next last hlast =>
    split
    · next hdrop =>
      refine ⟨?_, fun hrow => ?_⟩
      · intro hnil
        have := congrArg List.length hnil
        simp only [List.length_dropLast, List.length_nil] at this
        omega
      · obtain ⟨b, tr, hb⟩ := hend.row hrow
        have hlt : (R.endBlock start).row < (R.endBlock start).blocks.length :=
          (List.getElem?_eq_some_iff.1 hb.block).1
        have hne : (R.endBlock start).row ≠ (R.endBlock start).blocks.length - 1 := by
          intro heq
          have hsame : last = b := by
            rw [List.getLast?_eq_getElem?, ← heq, hb.block] at hlast
            exact (Option.some.inj hlast).symm
          have hstop : last.stop = start := by
            have hlen : (R.endBlock start).blocks.length = R.blocks.length := by
              simp [Rows.endBlock]
            rw [List.getLast?_eq_getElem?, hlen, Rows.endBlock, List.getElem?_modify] at hlast
            simp only [if_true, Option.map_eq_map, Option.map_eq_some_iff] at hlast
            obtain ⟨b', -, rfl⟩ := hlast
            rfl
          have hstart := hdrop.1
          rw [hstop, hsame, hb.start] at hstart
          have := hb.before
          rw [hstart] at this
          exact absurd this (lt_irrefl _)
        refine ⟨b, tr, ?_, hb.made, hb.opened, hb.start, hb.before, hb.cells⟩
        show (R.endBlock start).blocks.dropLast[(R.endBlock start).row]? = some b
        rw [List.getElem?_dropLast, if_pos (by omega), hb.block]
    · exact hend
  · exact hend

/-! ## Uses of the row -/

/-- The tag a turn comes to. -/
def tagOf (a : Wide) (st : Scan) : Option TagAt :=
  match endOfWord a st with
  | none => none
  | some st =>
    if deref st.ptr = 60 ∧ st.ptr.tail.take 3 ≠ ascii "!--" then some (readTagAt st.ptr.tail)
    else none

/-- What a turn that comes to a `<TR>` or `</TR>` asks of the state: a row is open if it is
`</TR>`, and an open row has no more than `MAX_COLUMNS` columns. -/
def RowTagFits (a : Wide) (st : Scan) : Prop :=
  ∀ t, tagOf a st = some t → t.buf_tag = .TR →
    (t.is_close_tag = true → st.rows.row ≠ 0) ∧ (st.rows.row ≠ 0 → st.rows.column ≤ MAX_COLUMNS)

/-- The block of a row may be used while a row is open. -/
theorem RowInv.useRow_sound {ptr : Text} {R : Rows} (h : RowInv ptr R) :
    R.useRow.Sound ↔ R.row ≠ 0 := by
  constructor
  · exact fun hs => hs.1
  · intro hrow
    obtain ⟨b, tr, hb⟩ := h.row hrow
    refine ⟨hrow, by rw [hb.opened]; rfl, ?_⟩
    rw [hb.block, hb.opened]
    exact hb.made

/-- The cells of an open row may be used while there is room for them. -/
theorem RowInv.useCells_sound {ptr : Text} {R : Rows} (h : RowInv ptr R) (hrow : R.row ≠ 0) :
    (∀ u ∈ R.useCells, u.Sound) ↔ R.column ≤ MAX_COLUMNS := by
  obtain ⟨b, tr, hb⟩ := h.row hrow
  constructor
  · intro hs
    by_contra hc
    have hmem : Use.cell MAX_COLUMNS (R.cells MAX_COLUMNS) ∈ R.useCells := by
      refine List.mem_map.2 ⟨200, List.mem_range.2 ?_, rfl⟩
      unfold MAX_COLUMNS at hc
      omega
    exact absurd (hs _ hmem).2.1 (lt_irrefl _)
  · intro hc u hu
    obtain ⟨i, hi, rfl⟩ := List.mem_map.1 hu
    have hlt : (i : Int) < MAX_COLUMNS := by
      have := List.mem_range.1 hi
      omega
    exact ⟨by omega, hlt, hb.cells i (by omega) hlt⟩

/-- The tags of cells keep the invariant and use the row only when it is open. -/
theorem openCell_spec {start : Text} {R : Rows} (h : RowInv start R) (attrs : Text) :
    RowInv start (R.openCell start attrs).1 ∧ ∀ u ∈ (R.openCell start attrs).2, u.Sound := by
  unfold Rows.openCell
  split
  · exact ⟨h, by simp⟩
  · next hrow =>
    have hend := h.endBlock start
    have hdrop := h.dropEmpty
    have hrow₂ : (R.endBlock start).dropEmpty.row ≠ 0 := by
      unfold Rows.dropEmpty
      split
      · split <;> exact hrow
      · exact hrow
    obtain hadd := hdrop.add_block start
    constructor
    · refine ⟨hadd.blocks, fun hr => ?_⟩
      obtain ⟨b, tr, hb⟩ := hadd.row hr
      refine ⟨b, tr, { hb with cells := fun i h0 h1 => ?_ }⟩
      show ((Function.update _ _ _ : Int → Option Nat) i).isSome
      by_cases hi : i = R.column
      · rw [hi, Function.update_self]
        rfl
      · rw [Function.update_of_ne hi]
        exact hb.cells i h0 h1
    · intro u hu
      simp only [List.mem_cons, List.not_mem_nil, or_false] at hu
      rcases hu with rfl | rfl
      · exact hend.useRow_sound.2 hrow
      · exact hdrop.useRow_sound.2 hrow₂

/-- The end of a row uses its block and its cells. -/
theorem closeRow_spec {start : Text} {R : Rows} (h : RowInv start R) :
    RowInv start (R.closeRow start).1 ∧
      ((∀ u ∈ (R.closeRow start).2, u.Sound) ↔ R.row ≠ 0 ∧ R.column ≤ MAX_COLUMNS) := by
  have hend := h.endBlock start
  refine ⟨⟨by simp [Rows.closeRow, Rows.add_block], fun hr => absurd rfl hr⟩, ?_⟩
  show (∀ u ∈ (R.endBlock start).useRow :: (R.endBlock start).useCells, u.Sound) ↔ _
  rw [List.forall_mem_cons, hend.useRow_sound]
  exact and_congr_right fun hrow => hend.useCells_sound hrow

/-- The start of a row ends the one that is open. -/
theorem openRow_spec {start ptr : Text} {R : Rows} (h : RowInv start R)
    (hlt : ptr.length < start.length) :
    RowInv ptr (R.openRow start).1 ∧
      ((∀ u ∈ (R.openRow start).2, u.Sound) ↔ (R.row ≠ 0 → R.column ≤ MAX_COLUMNS)) := by
  have hend := h.endBlock start
  constructor
  · refine ⟨by simp [Rows.openRow, Rows.add_block], fun _ => ?_⟩
    refine ⟨⟨start, start, some start⟩, start, ?_, rfl, rfl, rfl, hlt, ?_⟩
    · show ((R.endBlock start).blocks ++ [_])[((R.endBlock start).blocks ++ [_]).length - 1]? = _
      simp
    · intro i h0 h1
      show (if 0 ≤ i ∧ i < MAX_COLUMNS then some 0 else none).isSome
      rw [if_pos ⟨h0, h1⟩]
      rfl
  · show (∀ u ∈ if R.row ≠ 0 then (R.endBlock start).useRow :: (R.endBlock start).useCells else [],
      u.Sound) ↔ _
    by_cases hrow : R.row ≠ 0
    · rw [if_pos hrow, List.forall_mem_cons, hend.useRow_sound, hend.useCells_sound hrow]
      exact ⟨fun hc _ => hc.2, fun hc => ⟨hrow, hc hrow⟩⟩
    · rw [if_neg hrow]
      exact ⟨fun _ hr => absurd hr hrow, by simp⟩

/-! ## The scan -/

theorem length_dropWhile_le (f : UInt8 → Bool) (l : Text) : (l.dropWhile f).length ≤ l.length :=
  (List.dropWhile_suffix f).length_le

/-- The end of a word moves on over blanks only. -/
theorem endOfWord_spec {a : Wide} {st st' : Scan} (h : endOfWord a st = some st') :
    st'.rows = st.rows ∧ st'.ptr.length ≤ st.ptr.length := by
  have hdrop := length_dropWhile_le isspace st.ptr
  unfold endOfWord at h
  split at h
  · split at h
    · split at h
      · cases h
      · cases h
        exact ⟨rfl, le_refl _⟩
    · split at h
      · split at h
        · cases h
        · cases h
          exact ⟨rfl, hdrop⟩
      · cases h
        exact ⟨rfl, hdrop⟩
  · cases h
    exact ⟨rfl, le_refl _⟩

theorem afterComment_le {l l' : Text} (h : afterComment l = some l') : l'.length ≤ l.length := by
  induction l using afterComment.induct with
  | case1 => cases h
  | case2 l =>
    rw [afterComment] at h
    cases h
    simp only [List.length_cons]
    omega
  | case3 l hne =>
    simp [afterComment] at h
  | case4 c l hne hc ih =>
    rw [afterComment, if_neg hc] at h
    · have := ih h
      simp only [List.length_cons]
      omega
    · exact hne

theorem afterSemicolon_le {l l' : Text} (h : afterSemicolon l = some l') :
    l'.length ≤ l.length := by
  induction l with
  | nil => cases h
  | cons c l ih =>
    simp only [afterSemicolon] at h
    split at h
    · cases h
      simp
    · split at h
      · cases h
      · have := ih h
        simp only [List.length_cons]
        omega

theorem readTagAt_le (p : Text) : (readTagAt p).ptr.length ≤ p.length := by
  have h1 := length_dropWhile_le (fun c => !endsName c) p
  have h2 := length_dropWhile_le (fun c => !endsTag c) (p.dropWhile fun c => !endsName c)
  unfold readTagAt
  dsimp only
  split
  · rw [List.length_tail]
    omega
  · omega

/-- A block that ends where a tag stands, and another one that begins. -/
theorem RowInv.nextBlock {start ptr : Text} {R : Rows} (h : RowInv start R)
    (hle : ptr.length ≤ start.length) (p p' : Text) :
    RowInv ptr ((R.endBlock p).add_block p' none) :=
  ((h.endBlock p).add_block p').mono hle

/-- The column does not matter for the invariant. -/
theorem RowInv.column {ptr : Text} {R : Rows} (h : RowInv ptr R) (c : Int) :
    RowInv ptr { R with column := c } := by
  refine ⟨h.blocks, fun hrow => ?_⟩
  obtain ⟨b, tr, hb⟩ := h.row hrow
  exact ⟨b, tr, hb.block, hb.made, hb.opened, hb.start, hb.before, hb.cells⟩

/-- The tags that are not about rows keep the invariant and use no row. -/
theorem tagTurn_other {a : Wide} {st st' : Scan} {start : Text} {t : TagAt} {uses : List Use}
    (h : RowInv start st.rows) (hlt : t.ptr.length < start.length) (hTR : t.buf_tag ≠ .TR)
    (ht : tagTurn a st start t = .next st' uses) :
    RowInv st'.ptr st'.rows ∧ ∀ u ∈ uses, u.Sound := by
  have hstay : RowInv t.ptr st.rows := h.mono (by omega)
  unfold tagTurn at ht
  split at ht
  case h_1 | h_2 =>
    obtain ⟨hinv, hsound⟩ := openCell_spec h t.attrs
    cases ht
    split
    · exact ⟨hstay, by simp [Rows.closeCell]⟩
    · exact ⟨hinv.mono (by dsimp only; omega), hsound⟩
  case h_3 hTR' => exact absurd hTR' hTR
  case h_4 =>
    cases ht
    exact ⟨hstay, by simp⟩
  case h_5 =>
    split at ht
    · cases ht
    · cases ht
      exact ⟨hstay, by simp⟩
  case h_6 =>
    cases ht
    refine ⟨h.mono ?_, by simp⟩
    simp only [List.length_drop]
    omega
  case h_7 =>
    split at ht
    · split at ht
      · cases ht
        have hdrop := length_dropWhile_le isspace t.ptr
        exact ⟨h.nextBlock (by dsimp only; omega) _ _, by simp⟩
      · split at ht
        · cases ht
        · cases ht
          refine ⟨?_, by simp⟩
          have hcol : RowInv start (if t.buf_tag = .TABLE then
              { st.rows.endBlock start with column := 0 } else st.rows.endBlock start) := by
            split
            · exact (h.endBlock start).column 0
            · exact h.endBlock start
          exact (hcol.add_block start).mono (by dsimp only; omega)
    · cases ht
      exact ⟨hstay, by simp⟩

/-- A tag keeps the invariant, and uses the row soundly exactly when it finds the row fit. -/
theorem tagTurn_spec {a : Wide} {st st' : Scan} {start : Text} {t : TagAt} {uses : List Use}
    (h : RowInv start st.rows) (hlt : t.ptr.length < start.length)
    (ht : tagTurn a st start t = .next st' uses) :
    RowInv st'.ptr st'.rows ∧ ((∀ u ∈ uses, u.Sound) ↔ (t.buf_tag = .TR →
      (t.is_close_tag = true → st.rows.row ≠ 0) ∧
        (st.rows.row ≠ 0 → st.rows.column ≤ MAX_COLUMNS))) := by
  by_cases hTR : t.buf_tag = .TR
  · simp only [tagTurn, hTR, Turn.next.injEq] at ht
    obtain ⟨rfl, rfl⟩ := ht
    cases hclose : t.is_close_tag with
    | true =>
      obtain ⟨hinv, hsound⟩ := closeRow_spec h
      refine ⟨hinv.mono (by dsimp only; omega), ?_⟩
      rw [if_pos rfl, hsound]
      constructor
      · exact fun hc _ => ⟨fun _ => hc.1, fun _ => hc.2⟩
      · exact fun hc => ⟨(hc hTR).1 rfl, (hc hTR).2 ((hc hTR).1 rfl)⟩
    | false =>
      obtain ⟨hinv, hsound⟩ := openRow_spec h hlt
      refine ⟨hinv, ?_⟩
      rw [if_neg (by decide), hsound]
      constructor
      · exact fun hc _ => ⟨fun h => absurd h (by decide), hc⟩
      · exact fun hc => (hc hTR).2
  · obtain ⟨hinv, hsound⟩ := tagTurn_other h hlt hTR ht
    exact ⟨hinv, iff_of_true hsound fun h => absurd h hTR⟩

/-- A turn keeps the invariant, and uses the row soundly exactly when its tag finds the row
fit. -/
theorem turn_spec {env : Env} {a : Wide} {st st' : Scan} {uses : List Use}
    (h : RowInv st.ptr st.rows) (ht : turn env a st = .next st' uses) :
    RowInv st'.ptr st'.rows ∧ ((∀ u ∈ uses, u.Sound) ↔ RowTagFits a st) := by
  unfold turn at ht
  unfold RowTagFits tagOf
  cases hw : endOfWord a st with
  | none =>
    rw [hw] at ht
    cases ht
  | some st₁ =>
    obtain ⟨hrows, hle⟩ := endOfWord_spec hw
    have h₁ : RowInv st₁.ptr st₁.rows := by
      rw [hrows]
      exact h.mono hle
    have htail : st₁.ptr.tail.length ≤ st₁.ptr.length := by
      rw [List.length_tail]
      omega
    rw [hw] at ht
    dsimp only at ht ⊢
    by_cases hlt : deref st₁.ptr = 60
    · rw [if_pos hlt] at ht
      split at ht
      · next hcom =>
        rw [if_neg (by simp [hcom])]
        split at ht
        · next ptr hptr =>
          cases ht
          have := afterComment_le hptr
          rw [List.length_drop] at this
          exact ⟨h₁.mono (by dsimp only; omega), by simp⟩
        · cases ht
      · next hcom =>
        rw [if_pos ⟨hlt, hcom⟩]
        have hpos : 0 < st₁.ptr.length := by
          cases hp : st₁.ptr with
          | nil =>
            rw [hp] at hlt
            exact absurd hlt (by decide)
          | cons c l => simp
        have hshort : (readTagAt st₁.ptr.tail).ptr.length < st₁.ptr.length := by
          have := readTagAt_le st₁.ptr.tail
          rw [List.length_tail] at this
          omega
        obtain ⟨hinv, hsound⟩ := tagTurn_spec h₁ hshort ht
        refine ⟨hinv, hsound.trans ?_⟩
        rw [hrows]
        constructor
        · rintro hc t ht'
          cases ht'
          exact hc
        · exact fun hc => hc _ rfl
    · rw [if_neg hlt] at ht
      rw [if_neg fun hc => hlt hc.1]
      suffices hnext : ∃ ptr, ptr.length ≤ st₁.ptr.length ∧ st'.ptr = ptr ∧ st'.rows = st₁.rows ∧
          uses = [] by
        obtain ⟨ptr, hp, rfl, hr, rfl⟩ := hnext
        rw [hr]
        exact ⟨h₁.mono hp, by simp⟩
      split at ht
      · split at ht
        · cases ht
        · cases ht
          exact ⟨_, htail, rfl, rfl, rfl⟩
      · split at ht
        · cases ht
          exact ⟨_, htail, rfl, rfl, rfl⟩
        · split at ht
          · split at ht
            · cases ht
              exact ⟨_, htail, rfl, rfl, rfl⟩
            · next ptr hptr =>
              have hsemi := afterSemicolon_le hptr
              split at ht
              · cases ht
                exact ⟨_, htail, rfl, rfl, rfl⟩
              · cases ht
                exact ⟨_, hsemi.trans htail, rfl, rfl, rfl⟩
          · cases ht
            exact ⟨_, htail, rfl, rfl, rfl⟩

/-- After a `<TR>` or `</TR>` the scan goes on. -/
theorem tagTurn_row (a : Wide) (st : Scan) (start : Text) {t : TagAt} (hTR : t.buf_tag = .TR) :
    ∃ st' uses, tagTurn a st start t = .next st' uses := by
  unfold tagTurn
  rw [hTR]
  exact ⟨_, _, rfl⟩

/-- A turn that does not go on comes to no `<TR>` or `</TR>`. -/
theorem fits_of_not_next {env : Env} {a : Wide} {st : Scan}
    (ht : ∀ st' uses, turn env a st ≠ .next st' uses) : RowTagFits a st := by
  intro t htag hTR
  unfold tagOf at htag
  unfold turn at ht
  cases hw : endOfWord a st with
  | none =>
    rw [hw] at htag
    cases htag
  | some st₁ =>
    rw [hw] at htag ht
    dsimp only at htag ht
    split at htag
    · next hc =>
      cases htag
      rw [if_pos hc.1, if_neg hc.2] at ht
      obtain ⟨st', uses, hnext⟩ := tagTurn_row a st₁ st₁.ptr hTR
      exact absurd hnext (ht st' uses)
    · cases htag

/-- Every use is sound if every tag of a row finds it fit, by induction on the turns. -/
theorem turns_spec (env : Env) (value_ : Text) (as : List Wide) :
    ∀ st : Scan, RowInv st.ptr st.rows →
      ((∀ u ∈ (turns env value_ as st).1, u.Sound) ↔
        ∀ v ∈ (turns env value_ as st).2, RowTagFits v.1 v.2) := by
  induction as with
  | nil => intro st _; simp [turns]
  | cons a as ih =>
    intro st h
    unfold turns
    split
    · simp
    · cases ht : turn env a st with
      | next st' uses =>
        obtain ⟨hinv, hsound⟩ := turn_spec h ht
        dsimp only
        rw [List.forall_mem_append, List.forall_mem_cons, hsound, ih st' hinv]
      | restart =>
        have hfit : RowTagFits a st := fits_of_not_next (by rw [ht]; simp)
        dsimp only
        rw [List.forall_mem_cons, ih _ (RowInv.begin value_ _ _)]
        exact (and_iff_right hfit).symm
      | leave =>
        have hfit : RowTagFits a st := fits_of_not_next (by rw [ht]; simp)
        simpa using hfit

/-- No quoted characters, and a page on which everything fits. -/
def plainEnv : Env := ⟨fun _ => -1, fun _ => 1⟩
def fits : Wide := ⟨false, false, false, false, false⟩

end LuaFltk.Help
