import LuaFltk.Help.Format

/-!
# The rows of a document

The tags of a document, in the order in which `format` comes to them, say where its table rows are
open and how many columns they have. The current row and its cells are used soundly in a layout
exactly if every `<TR>` and `</TR>` of the document stands where it may.
-/

namespace LuaFltk.Help

/-! ## The tags of a document -/

/-- What an `&` adds to the word, and the text behind what it stands for. -/
def Env.entity (env : Env) (ptr : Text) : Nat × Text :=
  match afterSemicolon ptr with
  | none => (1, ptr)
  | some rest =>
    if env.quote_char ptr < 0 then (1, ptr) else (max 1 (env.fl_utf8encode (env.quote_char ptr)), rest)

theorem Env.entity_le (env : Env) (ptr : Text) : (env.entity ptr).2.length ≤ ptr.length := by
  unfold entity
  split
  · exact le_rfl
  · next rest hrest =>
    split
    · exact le_rfl
    · exact afterSemicolon_le hrest

/-- The text behind a tag; that of a `<TITLE>` is passed over. -/
def TagAt.behind (t : TagAt) : Text :=
  if t.buf_tag = .TITLE then
    t.ptr.drop (min (t.ptr.takeWhile fun c => c != 60 && c != 0).length 1023)
  else t.ptr

theorem TagAt.behind_le (t : TagAt) : t.behind.length ≤ t.ptr.length := by
  unfold behind
  split
  · rw [List.length_drop]
    omega
  · exact le_rfl

/-- Whether the scan is in the head of the document behind the tag. -/
def TagAt.head (t : TagAt) (head : Bool) : Bool :=
  if t.buf_tag = .HEAD then !t.is_close_tag else head

/-- Whether the text behind the tag is preformatted. -/
def TagAt.pre (t : TagAt) (pre : Bool) : Bool := if t.buf_tag = .PRE then !t.is_close_tag else pre

/-- The tags of the text, in order. Tags in comments and in quoted characters are none; a quoted
character is only read where the word before it, of `s` bytes so far, leaves room for it. Behind the
blanks that end a word of the head or of preformatted text the scan does not ask for the zero byte. -/
def tags (env : Env) (s : Nat) (head pre : Bool) (text : Text) : List TagAt :=
  match text with
  | [] => []
  | c :: l =>
    if c = 0 then []
    else if c = 60 then
      if l.take 3 = ascii "!--" then
        match _hptr : afterComment (l.drop 3) with
        | some ptr => tags env 0 head pre ptr
        | none => []
      else
        let t := readTagAt l
        t :: tags env 0 (t.head head) (t.pre pre) t.behind
    else if isspace c then
      if 0 < s ∧ (head || pre) then
        if deref (l.dropWhile isspace) = 0 then tags env 1 head pre (l.dropWhile isspace).tail
        else tags env 0 head pre (l.dropWhile isspace)
      else tags env 0 head pre l
    else if c = 38 ∧ s < 1023 then
      tags env (s + (env.entity l).1) head pre (env.entity l).2
    else tags env (if s < 1023 then s + 1 else s) head pre l
termination_by text.length
decreasing_by
  · have := afterComment_le _hptr
    rw [List.length_drop] at this
    simp only [List.length_cons]
    omega
  · have := (readTagAt l).behind_le.trans (readTagAt_le l)
    simp only [List.length_cons]
    omega
  · have := length_dropWhile_le isspace l
    simp only [List.length_cons, List.length_tail]
    omega
  · have := length_dropWhile_le isspace l
    simp only [List.length_cons]
    omega
  · simp
  · have := env.entity_le l
    simp only [List.length_cons]
    omega
  · simp

/-- The tags of a document. -/
def docTags (env : Env) (value_ : Text) : List TagAt := tags env 0 false false value_

/-- The columns that a tag adds to a row: the opening tag of a cell adds its `COLSPAN`. -/
def TagAt.columns (t : TagAt) : Int :=
  if (t.buf_tag = .TD ∨ t.buf_tag = .TH) ∧ t.is_close_tag = false then
    ((get_attr (ascii "COLSPAN") 1024 t.attrs).map atoi).getD 1
  else 0

/-- The tags from which the columns are counted. -/
def TagAt.beginsColumns (t : TagAt) : Bool :=
  t.buf_tag = .TR || t.buf_tag = .TABLE && !t.is_close_tag

/-- A row is open behind the tags: the last `<TR>` or `</TR>` of them is a `<TR>`. -/
def rowOpen (before : List TagAt) : Bool :=
  (before.reverse.find? fun t => t.buf_tag = .TR).any fun t => !t.is_close_tag

/-- The columns of the row behind the tags: those of the cells since its `<TR>`, or since the last
`<TABLE>` in it. The sum is exact; in an `int` it may overflow, which is undefined. -/
def rowColumns (before : List TagAt) : Int :=
  ((before.reverse.takeWhile fun t => !t.beginsColumns).map TagAt.columns).sum

/-- The tag may stand behind those before it: a `</TR>` where a row is open, and a `<TR>` or `</TR>`
that ends a row where it has at most `MAX_COLUMNS` columns. -/
def TagFits (before : List TagAt) (t : TagAt) : Prop :=
  t.buf_tag = .TR → (t.is_close_tag = true → rowOpen before = true) ∧
    (rowOpen before = true → rowColumns before ≤ MAX_COLUMNS)

/-- Every tag of the document may stand where it does. -/
def RowsFit (env : Env) (value_ : Text) : Prop :=
  ∀ before t, before ++ [t] <+: docTags env value_ → TagFits before t

/-- The last tag of a row decides. -/
theorem rowOpen_concat (before : List TagAt) (t : TagAt) :
    rowOpen (before ++ [t]) = if t.buf_tag = .TR then !t.is_close_tag else rowOpen before := by
  rw [rowOpen, List.reverse_append, List.reverse_singleton, List.singleton_append, List.find?_cons]
  by_cases hTR : t.buf_tag = .TR
  · simp [hTR]
  · simp [hTR, rowOpen]

/-- A cell adds its columns. -/
theorem rowColumns_concat (before : List TagAt) (t : TagAt) : rowColumns (before ++ [t]) =
    if t.beginsColumns then 0 else rowColumns before + t.columns := by
  rw [rowColumns, List.reverse_append, List.reverse_singleton, List.singleton_append,
    List.takeWhile_cons]
  cases t.beginsColumns with
  | true => rfl
  | false =>
    simp only [Bool.not_false, if_true, List.map_cons, List.sum_cons, rowColumns, Bool.false_eq_true,
      if_false]
    omega

/-! ## The tags a layout comes to -/

section tags

variable {env : Env} {s : Nat} {head pre : Bool} {ptr : Text}

theorem tags_of_end (h : deref ptr = 0) : tags env s head pre ptr = [] := by
  cases ptr with
  | nil => rw [tags]
  | cons c l => rw [tags, if_pos (show c = 0 from h)]

/-- The tag that the text begins with. -/
theorem tags_of_tag (h : deref ptr = 60) (hcom : ptr.tail.take 3 ≠ ascii "!--") :
    tags env s head pre ptr = readTagAt ptr.tail ::
      tags env 0 ((readTagAt ptr.tail).head head) ((readTagAt ptr.tail).pre pre)
        (readTagAt ptr.tail).behind := by
  cases ptr with
  | nil => exact absurd h (by decide)
  | cons c l =>
    obtain rfl : c = 60 := h
    rw [List.tail_cons] at hcom ⊢
    rw [tags, if_neg (by decide), if_pos rfl, if_neg hcom]

/-- A comment is skipped, or the text ends. -/
theorem tags_of_comment (h : deref ptr = 60) (hcom : ptr.tail.take 3 = ascii "!--") :
    tags env s head pre ptr = (afterComment (ptr.tail.drop 3)).elim [] (tags env 0 head pre) := by
  cases ptr with
  | nil => exact absurd h (by decide)
  | cons c l =>
    obtain rfl : c = 60 := h
    rw [List.tail_cons] at hcom ⊢
    rw [tags, if_neg (by decide), if_pos rfl, if_pos hcom]
    split
    · next ptr hptr => rw [hptr, Option.elim_some]
    · next hptr => rw [hptr, Option.elim_none]

theorem blank_ne {c : UInt8} (h : isspace c = true) : c ≠ 0 ∧ c ≠ 60 := by
  constructor <;> rintro rfl <;> exact absurd h (by decide)

/-- A blank behind no word, or behind one outside the head and preformatted text. -/
theorem tags_of_blank (h : isspace (deref ptr) = true) (hs : ¬ (0 < s ∧ (head || pre) = true)) :
    tags env s head pre ptr = tags env 0 head pre ptr.tail := by
  cases ptr with
  | nil => exact absurd h (by decide)
  | cons c l =>
    have hblank : isspace c = true := h
    rw [tags, if_neg (blank_ne hblank).1, if_neg (blank_ne hblank).2, if_pos hblank, if_neg hs]
    rfl

/-- The blanks behind a word of the head or of preformatted text. -/
theorem tags_of_kept (h : isspace (deref ptr) = true) (hs : 0 < s ∧ (head || pre) = true) :
    tags env s head pre ptr =
      if deref (ptr.dropWhile isspace) = 0 then tags env 1 head pre (ptr.dropWhile isspace).tail
      else tags env 0 head pre (ptr.dropWhile isspace) := by
  cases ptr with
  | nil => exact absurd h (by decide)
  | cons c l =>
    have hblank : isspace c = true := h
    rw [tags, if_neg (blank_ne hblank).1, if_neg (blank_ne hblank).2, if_pos hblank, if_pos hs,
      List.dropWhile_cons_of_pos hblank]

/-- Blanks between the tags say nothing. -/
theorem tags_blanks (env : Env) (head pre : Bool) (ptr : Text) :
    tags env 0 head pre (ptr.dropWhile isspace) = tags env 0 head pre ptr := by
  induction ptr with
  | nil => rfl
  | cons c l ih =>
    rw [List.dropWhile_cons]
    split
    · next hblank =>
      have hhead : isspace (deref (c :: l)) = true := hblank
      rw [ih]
      exact (tags_of_blank hhead fun hs => absurd hs.1 (lt_irrefl 0)).symm
    · rfl

/-- The tags within an entity are skipped. -/
theorem tags_of_amp (h : deref ptr = 38) (hs : s < 1023) : tags env s head pre ptr =
    tags env (s + (env.entity ptr.tail).1) head pre (env.entity ptr.tail).2 := by
  cases ptr with
  | nil => exact absurd h (by decide)
  | cons c l =>
    obtain rfl : c = 38 := h
    rw [tags, if_neg (by decide), if_neg (by decide), if_neg (by decide), if_pos ⟨rfl, hs⟩]
    rfl

theorem tags_of_other (h0 : deref ptr ≠ 0) (h60 : deref ptr ≠ 60)
    (hblank : ¬ isspace (deref ptr) = true) (hamp : ¬ (deref ptr = 38 ∧ s < 1023)) :
    tags env s head pre ptr = tags env (if s < 1023 then s + 1 else s) head pre ptr.tail := by
  cases ptr with
  | nil => exact absurd rfl h0
  | cons c l =>
    change ¬ isspace c = true at hblank
    change ¬ (c = 38 ∧ s < 1023) at hamp
    rw [tags, if_neg (show ¬ c = 0 from h0), if_neg (show ¬ c = 60 from h60), if_neg hblank,
      if_neg hamp]
    rfl

/-- The word before a tag does not matter for it. -/
theorem tags_of_lt (h : deref ptr = 60) (s' : Nat) :
    tags env s head pre ptr = tags env s' head pre ptr := by
  by_cases hcom : ptr.tail.take 3 = ascii "!--"
  · rw [tags_of_comment h hcom, tags_of_comment h hcom]
  · rw [tags_of_tag h hcom, tags_of_tag h hcom]

end tags

variable {env : Env} {a : Wide} {st st' : Scan} {uses : List Use}

/-- The tags that the scan has before it. -/
def Scan.tags (env : Env) (st : Scan) : List TagAt := Help.tags env st.s st.head st.pre st.ptr

variable (env) in
/-- The end of a word is the end of no tag. -/
theorem endOfWord_tags (h0 : deref st.ptr ≠ 0) (h : endOfWord a st = some st') :
    st.tags env = (if deref st'.ptr = 0 then Scan.tags env { st' with s := 1, ptr := st'.ptr.tail }
      else st'.tags env) ∧
      (deref st'.ptr = 0 ∨ deref st'.ptr = 60 ∨ isspace (deref st'.ptr) = true → st'.s = 0) := by
  unfold endOfWord at h
  split at h
  · next hend =>
    obtain ⟨hc, hs⟩ := hend
    -- the word is followed by a tag, or by blanks that stay, or by blanks that are passed over
    have hlt : deref st.ptr = 60 → st.ptr.dropWhile isspace = st.ptr := by
      intro h60
      cases hptr : st.ptr with
      | nil => rfl
      | cons c l =>
        rw [hptr] at h60
        refine List.dropWhile_cons_of_neg ?_
        rw [show c = 60 from h60]
        decide
    have hskip : (st.head || st.pre) = true → st.tags env =
        if deref (st.ptr.dropWhile isspace) = 0 then
          Help.tags env 1 st.head st.pre (st.ptr.dropWhile isspace).tail
        else Help.tags env 0 st.head st.pre (st.ptr.dropWhile isspace) := by
      intro hkept
      rcases hc with h60 | hblank
      · rw [hlt h60, if_neg h0]
        exact tags_of_lt h60 0
      · exact tags_of_kept hblank ⟨hs, hkept⟩
    split at h
    · next hout =>
      split at h
      · cases h
      · cases h
        refine ⟨?_, fun _ => rfl⟩
        dsimp only
        rw [if_neg h0]
        rcases hc with h60 | hblank
        · exact tags_of_lt h60 0
        · have hnot : ¬ (st.head || st.pre) = true := by simpa using hout
          rw [Scan.tags, tags_of_blank hblank fun h => hnot h.2]
          exact (tags_of_blank hblank fun h => hnot h.2).symm
    · next hin =>
      have hkept : (st.head || st.pre) = true := by
        cases hhead : st.head <;> cases hpre : st.pre <;> simp_all
      split at h
      · split at h
        · cases h
        · cases h
          exact ⟨hskip hkept, fun _ => rfl⟩
      · cases h
        exact ⟨hskip hkept, fun _ => rfl⟩
  · next hend =>
    cases h
    rw [if_neg h0]
    refine ⟨rfl, fun hc => ?_⟩
    by_contra hs
    exact hend ⟨hc.resolve_left h0, Nat.pos_of_ne_zero hs⟩

variable (env) in
/-- Where the scan goes on behind a tag. -/
theorem tagTurn_tags {start : Text} {t : TagAt} (h : tagTurn a st start t = .next st' uses) :
    st'.s = st.s ∧ Scan.tags env { st' with s := 0 } =
      tags env 0 (t.head st.head) (t.pre st.pre) t.behind := by
  unfold tagTurn at h
  split at h
  case h_1 htag | h_2 htag | h_3 htag | h_4 htag =>
    cases h
    simp [Scan.tags, TagAt.head, TagAt.pre, TagAt.behind, htag]
  case h_5 htag =>
    split at h
    · cases h
    · cases h
      simp [Scan.tags, TagAt.head, TagAt.pre, TagAt.behind, htag]
  case h_6 htag =>
    cases h
    simp [Scan.tags, TagAt.head, TagAt.pre, TagAt.behind, htag]
  case h_7 hTD hTH hTR hHEAD hIMG hTITLE =>
    have hhead : t.head st.head = st.head := if_neg hHEAD
    have hbehind : t.behind = t.ptr := if_neg hTITLE
    rw [hhead, hbehind]
    split at h
    · split at h
      · next hclose =>
        cases h
        simp [Scan.tags, TagAt.pre, hclose, tags_blanks]
      · next hclose =>
        rw [Bool.not_eq_true] at hclose
        split at h
        · cases h
        · cases h
          simp [Scan.tags, TagAt.pre, hclose]
    · next hblock =>
      cases h
      have hPRE : t.buf_tag ≠ .PRE := fun hPRE => hblock (by rw [hPRE]; rfl)
      simp [Scan.tags, TagAt.pre, hPRE]

/-- A cell adds its columns while a row is open. -/
theorem openCell_rows (R : Rows) (start attrs : Text) :
    (R.openCell start attrs).1.row = R.row ∧ (R.row ≠ 0 → (R.openCell start attrs).1.column =
      R.column + ((get_attr (ascii "COLSPAN") 1024 attrs).map atoi).getD 1) := by
  unfold Rows.openCell
  split
  · next hrow => exact ⟨rfl, fun hne => absurd hrow hne⟩
  · refine ⟨?_, fun _ => rfl⟩
    show (R.endBlock start).dropEmpty.row = R.row
    unfold Rows.dropEmpty
    split
    · split <;> rfl
    · rfl

/-- What a tag does to the row and its columns. -/
theorem tagTurn_rows {start : Text} {t : TagAt} (hblocks : st.rows.blocks ≠ [])
    (h : tagTurn a st start t = .next st' uses) :
    (st'.rows.row ≠ 0 ↔ if t.buf_tag = .TR then t.is_close_tag = false else st.rows.row ≠ 0) ∧
      (st'.rows.row ≠ 0 → st'.rows.column =
        if t.beginsColumns then 0 else st.rows.column + t.columns) := by
  unfold tagTurn at h
  split at h
  case h_1 htag | h_2 htag =>
    cases h
    have hbegins : t.beginsColumns = false := by simp [TagAt.beginsColumns, htag]
    rw [if_neg (show ¬ t.buf_tag = .TR by simp [htag]), hbegins]
    by_cases hclose : t.is_close_tag = true
    · simp [hclose, Rows.closeCell, TagAt.columns]
    · obtain ⟨hrow, hcolumn⟩ := openCell_rows st.rows start t.attrs
      have hcell : t.buf_tag = .TD ∨ t.buf_tag = .TH := by simp [htag]
      have hcolumns : t.columns = _ := if_pos ⟨hcell, Bool.eq_false_iff.2 hclose⟩
      dsimp only
      rw [if_neg hclose, hrow, hcolumns]
      exact ⟨Iff.rfl, hcolumn⟩
  case h_3 htag =>
    cases h
    rw [if_pos htag]
    cases hclose : t.is_close_tag with
    | true => simp [Rows.closeRow]
    | false =>
      have hbegins : t.beginsColumns = true := by simp [TagAt.beginsColumns, htag]
      have hlength : 0 < st.rows.blocks.length := List.length_pos_iff.2 hblocks
      rw [hbegins]
      refine ⟨iff_of_true ?_ rfl, fun _ => rfl⟩
      show (_ ++ [_]).length - 1 ≠ 0
      simp [Rows.endBlock]
      omega
  case h_4 htag | h_6 htag =>
    cases h
    simp [TagAt.beginsColumns, TagAt.columns, htag]
  case h_5 htag =>
    split at h
    · cases h
    · cases h
      simp [TagAt.beginsColumns, TagAt.columns, htag]
  case h_7 hTD hTH hTR hHEAD hIMG hTITLE =>
    have hcolumns : t.columns = 0 := if_neg fun hc => hc.1.elim hTD hTH
    have hbegins : t.beginsColumns = (decide (t.buf_tag = .TABLE) && !t.is_close_tag) := by
      rw [TagAt.beginsColumns, decide_eq_false hTR, Bool.false_or]
    rw [if_neg hTR, hcolumns, add_zero, hbegins]
    split at h
    · split at h
      · next hclose =>
        cases h
        simp [hclose, Rows.add_block, Rows.endBlock]
      · next hclose =>
        split at h
        · cases h
        · cases h
          rw [Bool.not_eq_true] at hclose
          by_cases htable : t.buf_tag = .TABLE
          · simp [htable, hclose, Rows.add_block, Rows.endBlock]
          · simp [htable, Rows.add_block, Rows.endBlock]
    · next hblock =>
      cases h
      have htable : t.buf_tag ≠ .TABLE := fun htable => hblock (by rw [htable]; rfl)
      simp [htable]

/-- What the scan has read of the document, and what it has kept of it. -/
structure Reads (env : Env) (value_ : Text) (before : List TagAt) (st : Scan) : Prop where
  tags : docTags env value_ = before ++ st.tags env
  blocks : st.rows.blocks ≠ []
  row : st.rows.row ≠ 0 ↔ rowOpen before = true
  column : st.rows.row ≠ 0 → st.rows.column = rowColumns before

theorem reads_begin (env : Env) (value_ : Text) (cells : Int → Option Nat) :
    Reads env value_ [] (begin value_ cells) :=
  ⟨rfl, by simp [begin], by simp [begin, rowOpen], fun h => absurd rfl h⟩

namespace Reads

variable {value_ : Text} {before : List TagAt}

/-- A turn without a tag. -/
theorem skip (h : Reads env value_ before st) (htags : st'.tags env = st.tags env)
    (hrows : st'.rows = st.rows) : Reads env value_ before st' :=
  ⟨by rw [htags]; exact h.tags, hrows ▸ h.blocks, hrows ▸ h.row, hrows ▸ h.column⟩

/-- A turn with a tag. -/
theorem tag (h : Reads env value_ before st) {start : Text} {t : TagAt} (hs : st.s = 0)
    (htags : st.tags env = t :: Help.tags env 0 (t.head st.head) (t.pre st.pre) t.behind)
    (hblocks : st'.rows.blocks ≠ []) (ht : tagTurn a st start t = .next st' uses) :
    Reads env value_ (before ++ [t]) st' := by
  obtain ⟨hs', hbehind⟩ := tagTurn_tags env ht
  obtain ⟨hrow, hcolumn⟩ := tagTurn_rows h.blocks ht
  have hzero : { st' with s := 0 } = st' := by rw [← hs, ← hs']
  refine ⟨?_, hblocks, ?_, fun hopen => ?_⟩
  · rw [h.tags, htags, ← hbehind, hzero, List.append_assoc, List.singleton_append]
  · rw [hrow, rowOpen_concat]
    split
    · simp
    · exact h.row
  · rw [hcolumn hopen, rowColumns_concat]
    split
    · rfl
    · next hbegins =>
      have hTR : ¬ t.buf_tag = .TR := fun hTR => hbegins (by simp [TagAt.beginsColumns, hTR])
      rw [hrow, if_neg hTR] at hopen
      rw [h.column hopen]

end Reads

/-- An `&` takes its character into the word, or is one itself. -/
theorem entity_next {st₁ : Scan}
    (ht : (match afterSemicolon st₁.ptr.tail with
      | none => Turn.next { st₁ with s := st₁.s + 1, ptr := st₁.ptr.tail } []
      | some ptr =>
        if env.quote_char st₁.ptr.tail < 0 then
          .next { st₁ with s := st₁.s + 1, ptr := st₁.ptr.tail } []
        else
          .next { st₁ with
            s := st₁.s + max 1 (env.fl_utf8encode (env.quote_char st₁.ptr.tail)), ptr := ptr } [])
      = .next st' uses) :
    st' = { st₁ with
      s := st₁.s + (env.entity st₁.ptr.tail).1, ptr := (env.entity st₁.ptr.tail).2 } := by
  rw [Env.entity]
  cases hfind : afterSemicolon st₁.ptr.tail with
  | none =>
    rw [hfind] at ht
    cases ht
    rfl
  | some ptr =>
    rw [hfind] at ht
    dsimp only at ht ⊢
    split at ht
    · next hneg =>
      cases ht
      rw [if_pos hneg]
    · next hneg =>
      cases ht
      rw [if_neg hneg]

/-- Where no tag stands the scan passes over none. -/
theorem body_tags {st₁ : Scan} (h60 : deref st₁.ptr ≠ 60)
    (hzero : deref st₁.ptr = 0 ∨ isspace (deref st₁.ptr) = true → st₁.s = 0)
    (ht : (if deref st₁.ptr = 10 ∧ st₁.pre then
        if a.line then Turn.restart else .next { st₁ with ptr := st₁.ptr.tail } []
      else if isspace (deref st₁.ptr) then .next { st₁ with ptr := st₁.ptr.tail } []
      else if deref st₁.ptr = 38 ∧ st₁.s < 1023 then
        match afterSemicolon st₁.ptr.tail with
        | none => .next { st₁ with s := st₁.s + 1, ptr := st₁.ptr.tail } []
        | some ptr =>
          if env.quote_char st₁.ptr.tail < 0 then
            .next { st₁ with s := st₁.s + 1, ptr := st₁.ptr.tail } []
          else
            .next { st₁ with
              s := st₁.s + max 1 (env.fl_utf8encode (env.quote_char st₁.ptr.tail)), ptr := ptr } []
      else .next { st₁ with s := if st₁.s < 1023 then st₁.s + 1 else st₁.s, ptr := st₁.ptr.tail } [])
      = .next st' uses) :
    st'.rows = st₁.rows ∧ st'.tags env =
      if deref st₁.ptr = 0 then Scan.tags env { st₁ with s := 1, ptr := st₁.ptr.tail }
      else st₁.tags env := by
  have hblank : isspace (deref st₁.ptr) = true →
      Scan.tags env { st₁ with ptr := st₁.ptr.tail } = st₁.tags env := by
    intro hspace
    have hs := hzero (.inr hspace)
    rw [Scan.tags, Scan.tags, hs]
    exact (tags_of_blank hspace fun h => absurd h.1 (lt_irrefl 0)).symm
  split at ht
  · next hline =>
    have hspace : isspace (deref st₁.ptr) = true := by
      rw [hline.1]
      rfl
    split at ht
    · cases ht
    · cases ht
      rw [if_neg (blank_ne hspace).1]
      exact ⟨rfl, hblank hspace⟩
  · split at ht
    · next hspace =>
      cases ht
      rw [if_neg (blank_ne hspace).1]
      exact ⟨rfl, hblank hspace⟩
    · next hspace =>
      split at ht
      · next hamp =>
        obtain rfl := entity_next ht
        rw [if_neg (by rw [hamp.1]; decide)]
        exact ⟨rfl, (tags_of_amp hamp.1 hamp.2).symm⟩
      · next hamp =>
        cases ht
        refine ⟨rfl, ?_⟩
        by_cases h0 : deref st₁.ptr = 0
        · rw [if_pos h0, hzero (.inl h0)]
          rfl
        · rw [if_neg h0]
          exact (tags_of_other h0 h60 hspace hamp).symm

/-- Between the tags of the document a turn comes to one or none. -/
theorem Reads.next {value_ : Text} {before : List TagAt} (h : Reads env value_ before st)
    (hinv : RowInv st.ptr st.rows) (h0 : deref st.ptr ≠ 0) (ht : turn env a st = .next st' uses) :
    Reads env value_ (before ++ (tagOf a st).toList) st' := by
  have hblocks : st'.rows.blocks ≠ [] := (turn_spec hinv ht).1.blocks
  unfold turn at ht
  unfold tagOf
  cases hw : endOfWord a st with
  | none =>
    rw [hw] at ht
    cases ht
  | some st₁ =>
    obtain ⟨htags, hzero⟩ := endOfWord_tags env h0 hw
    have hrows := (endOfWord_spec hw).1
    rw [hw] at ht
    dsimp only at ht ⊢
    by_cases h60 : deref st₁.ptr = 60
    · have h₁ : Reads env value_ before st₁ := by
        refine h.skip ?_ hrows
        rw [htags, if_neg (by rw [h60]; decide)]
      have hs := hzero (.inr (.inl h60))
      rw [if_pos h60] at ht
      split at ht
      · next hcom =>
        rw [if_neg (by simp [hcom]), Option.toList_none, List.append_nil]
        split at ht
        · next ptr hptr =>
          cases ht
          refine h₁.skip ?_ rfl
          show Help.tags env st₁.s _ _ ptr = _
          rw [Scan.tags, tags_of_comment h60 hcom, hptr, hs, Option.elim_some]
        · cases ht
      · next hcom =>
        rw [if_pos ⟨h60, hcom⟩]
        exact h₁.tag hs (tags_of_tag h60 hcom) hblocks ht
    · rw [if_neg h60] at ht
      rw [if_neg fun hc => h60 hc.1, Option.toList_none, List.append_nil]
      obtain ⟨hrows', htags'⟩ := body_tags h60
        (fun hc => hzero (hc.imp_right .inr)) ht
      exact h.skip (htags'.trans htags.symm) (hrows'.trans hrows)

/-! ## Layouts that come to their end -/

/-- Whether the layout comes to the end of the document with these answers. -/
def finishes (env : Env) (value_ : Text) : List Wide → Scan → Bool
  | [], st => deref st.ptr = 0
  | a :: as, st =>
    if deref st.ptr = 0 then true
    else match turn env a st with
      | .next st' _ => finishes env value_ as st'
      | .restart => finishes env value_ as (begin value_ st.rows.cells)
      | .leave => true

/-- What a turn asks of the state is what the document says. -/
theorem Reads.fits_iff {value_ : Text} {before : List TagAt} (h : Reads env value_ before st) :
    RowTagFits a st ↔ ∀ t, tagOf a st = some t → TagFits before t := by
  unfold RowTagFits TagFits
  by_cases hrow : rowOpen before = true
  · have hopen := h.row.2 hrow
    simp only [hrow, hopen, h.column hopen, ne_eq, not_false_eq_true]
  · have hclosed : ¬ st.rows.row ≠ 0 := fun hopen => hrow (h.row.1 hopen)
    simp [hrow, hclosed]

theorem tagTurn_ne_leave (a : Wide) (st : Scan) (start : Text) (t : TagAt) :
    tagTurn a st start t ≠ .leave := by
  unfold tagTurn
  split
  case h_5 => split <;> exact nofun
  case h_7 =>
    split
    · split
      · exact nofun
      · split <;> exact nofun
    · exact nofun
  all_goals exact nofun

/-- The loop is left at a comment without an end. -/
theorem tags_of_leave (h0 : deref st.ptr ≠ 0) (ht : turn env a st = .leave) : st.tags env = [] := by
  unfold turn at ht
  cases hw : endOfWord a st with
  | none =>
    rw [hw] at ht
    cases ht
  | some st₁ =>
    rw [hw] at ht
    dsimp only at ht
    split at ht
    · next h60 =>
      split at ht
      · next hcom =>
        split at ht
        · cases ht
        · next hnone =>
          rw [(endOfWord_tags env h0 hw).1, if_neg (by rw [h60]; decide), Scan.tags,
            tags_of_comment h60 hcom, hnone, Option.elim_none]
      · exact (tagTurn_ne_leave _ _ _ _ ht).elim
    · split at ht
      · split at ht <;> cases ht
      · split at ht
        · cases ht
        · split at ht
          · split at ht
            · cases ht
            · split at ht <;> cases ht
          · cases ht

variable {value_ : Text} {before : List TagAt}

/-- In a document that fits every turn finds the row as it needs it. -/
theorem turns_fit (hfit : RowsFit env value_) (as : List Wide) (h : Reads env value_ before st)
    (hinv : RowInv st.ptr st.rows) : ∀ v ∈ (turns env value_ as st).2, RowTagFits v.1 v.2 := by
  induction as generalizing before st with
  | nil => exact List.forall_mem_nil _
  | cons a as ih =>
    unfold turns
    split
    · exact List.forall_mem_nil _
    · next h0 =>
      cases ht : turn env a st with
      | next st' uses =>
        have hnext := h.next hinv h0 ht
        refine List.forall_mem_cons.2 ⟨h.fits_iff.2 fun t htag => ?_, ih hnext (turn_spec hinv ht).1⟩
        have htags := hnext.tags
        rw [htag, Option.toList_some] at htags
        exact hfit before t ⟨_, htags.symm⟩
      | restart =>
        have hnot : ∀ st' uses, turn env a st ≠ .next st' uses := by simp [ht]
        exact List.forall_mem_cons.2 ⟨fits_of_not_next hnot,
          ih (reads_begin env value_ _) (RowInv.begin value_ _ _)⟩
      | leave =>
        have hnot : ∀ st' uses, turn env a st ≠ .next st' uses := by simp [ht]
        exact List.forall_mem_cons.2 ⟨fits_of_not_next hnot, List.forall_mem_nil _⟩

/-- Two tags at one place of a document are the same. -/
theorem same_place {l b b' : List TagAt} {t t' : TagAt} (h : b ++ [t] <+: l) (h' : b' ++ [t'] <+: l)
    (hlength : b.length = b'.length) : b = b' ∧ t = t' := by
  have hlength' : (b ++ [t]).length = (b' ++ [t']).length := by simp [hlength]
  have heq := (List.prefix_of_prefix_length_le h h' hlength'.le).eq_of_length hlength'
  obtain ⟨hb, ht⟩ := List.append_inj heq hlength
  exact ⟨hb, List.singleton_inj.1 ht⟩

/-- Behind the last tag of the document there is none. -/
theorem Reads.over (h : Reads env value_ before st) (hnil : st.tags env = []) {b : List TagAt}
    {t : TagAt} (hb : b ++ [t] <+: docTags env value_) : b.length < before.length := by
  rw [h.tags, hnil, List.append_nil] at hb
  have hle := hb.length_le
  rw [List.length_append, List.length_singleton] at hle
  omega

/-- A layout that comes to its end has come to every tag of the document. -/
theorem fit_of_turns {as : List Wide} (h : Reads env value_ before st)
    (hinv : RowInv st.ptr st.rows) (hend : finishes env value_ as st = true)
    (hfits : ∀ v ∈ (turns env value_ as st).2, RowTagFits v.1 v.2) :
    ∀ b t, b ++ [t] <+: docTags env value_ → before.length ≤ b.length → TagFits b t := by
  induction as generalizing before st with
  | nil =>
    have hnil : st.tags env = [] := tags_of_end (by simpa [finishes] using hend)
    exact fun b t hb hlength => absurd (h.over hnil hb) (Nat.not_lt.2 hlength)
  | cons a as ih =>
    intro b t hb hlength
    unfold turns at hfits
    unfold finishes at hend
    by_cases h0 : deref st.ptr = 0
    · exact absurd (h.over (tags_of_end h0) hb) (Nat.not_lt.2 hlength)
    rw [if_neg h0] at hfits hend
    cases ht : turn env a st with
    | next st' uses =>
      rw [ht] at hfits hend
      obtain ⟨hfit, hfits⟩ := List.forall_mem_cons.1 hfits
      have hnext := h.next hinv h0 ht
      have hrest := ih hnext (turn_spec hinv ht).1 hend hfits b t hb
      cases htag : tagOf a st with
      | none =>
        rw [htag] at hrest
        exact hrest (by simpa using hlength)
      | some t₀ =>
        rw [htag, Option.toList_some] at hrest hnext
        rcases Nat.eq_or_lt_of_le hlength with heq | hlt
        · obtain ⟨rfl, rfl⟩ := same_place ⟨_, hnext.tags.symm⟩ hb heq
          exact h.fits_iff.1 hfit _ htag
        · exact hrest (by simpa using hlt)
    | restart =>
      rw [ht] at hfits hend
      exact ih (reads_begin env value_ _) (RowInv.begin value_ _ _) hend
        (List.forall_mem_cons.1 hfits).2 b t hb (Nat.zero_le _)
    | leave => exact absurd (h.over (tags_of_leave h0 ht) hb) (Nat.not_lt.2 hlength)

/-- Where everything fits on the page, a tag leads on. -/
theorem tagTurn_fits (st : Scan) (start : Text) (t : TagAt) : ∃ st' uses,
    tagTurn fits st start t = .next st' uses ∧ st'.ptr.length ≤ t.ptr.length := by
  unfold tagTurn
  split
  case h_6 => exact ⟨_, _, rfl, by rw [List.length_drop]; omega⟩
  case h_7 =>
    split
    · split
      · exact ⟨_, _, rfl, length_dropWhile_le _ _⟩
      · rw [if_neg fun h => absurd h.2 (by decide)]
        exact ⟨_, _, rfl, le_rfl⟩
    · exact ⟨_, _, rfl, le_rfl⟩
  all_goals exact ⟨_, _, rfl, le_rfl⟩

variable (env) in
/-- Where everything fits on the page, a turn leads on or leaves the loop. -/
theorem turn_fits (h0 : deref st.ptr ≠ 0) :
    (∃ st' uses, turn env fits st = .next st' uses ∧ st'.ptr.length < st.ptr.length) ∨
      turn env fits st = .leave := by
  have hpos : 0 < st.ptr.length := by
    refine List.length_pos_iff.2 fun hnil => h0 ?_
    rw [hnil]
    rfl
  have hword : ∃ st₁, endOfWord fits st = some st₁ := by
    unfold endOfWord
    split
    · split
      · exact ⟨_, rfl⟩
      · split <;> exact ⟨_, rfl⟩
    · exact ⟨_, rfl⟩
  obtain ⟨st₁, hst₁⟩ := hword
  have hle := (endOfWord_spec hst₁).2
  have htail : st₁.ptr.tail.length < st.ptr.length := by
    rw [List.length_tail]
    omega
  unfold turn
  rw [hst₁]
  dsimp only
  split
  · split
    · split
      · next ptr hptr =>
        have hcomment := afterComment_le hptr
        rw [List.length_drop] at hcomment
        exact .inl ⟨_, _, rfl, by dsimp only; omega⟩
      · exact .inr rfl
    · obtain ⟨st', uses, hturn, hlength⟩ := tagTurn_fits st₁ st₁.ptr (readTagAt st₁.ptr.tail)
      have htag := readTagAt_le st₁.ptr.tail
      exact .inl ⟨st', uses, hturn, by omega⟩
  · split
    · exact .inl ⟨_, _, rfl, htail⟩
    · split
      · exact .inl ⟨_, _, rfl, htail⟩
      · split
        · split
          · exact .inl ⟨_, _, rfl, htail⟩
          · next ptr hptr =>
            have hentity := afterSemicolon_le hptr
            split
            · exact .inl ⟨_, _, rfl, htail⟩
            · exact .inl ⟨_, _, rfl, by dsimp only; omega⟩
        · exact .inl ⟨_, _, rfl, htail⟩

/-- Every document has a layout that comes to its end. -/
theorem exists_finishes (env : Env) (value_ : Text) (st : Scan) :
    ∃ as, finishes env value_ as st = true := by
  induction hn : st.ptr.length using Nat.strong_induction_on generalizing st with
  | _ n ih =>
    by_cases h0 : deref st.ptr = 0
    · exact ⟨[], by simpa [finishes] using h0⟩
    · rcases turn_fits env h0 with ⟨st', uses, hturn, hlt⟩ | hleave
      · obtain ⟨as, has⟩ := ih _ (hn ▸ hlt) st' rfl
        refine ⟨fits :: as, ?_⟩
        rw [finishes, if_neg h0, hturn]
        exact has
      · refine ⟨[fits], ?_⟩
        rw [finishes, if_neg h0, hleave]

end LuaFltk.Help
