import LuaFltk.Help.Arrays
import LuaFltk.Help.Fonts
import Mathlib.Data.List.TakeWhile

/-!
# The names of tags

The trie of `buffer_has_tag` and what the three dispatchers of `Fl_Help_View.cxx` take a tag
for. The trie finds the names of the table in `tagNames` and nothing else. The dispatchers
strip one slash and the trie another one, after which it answers with the tag that follows in
the enumeration; and some cases of the dispatchers do not ask whether the tag is a closing one.
-/

namespace LuaFltk.Help

/-! ## The trie -/

/-- A character of the trie. -/
def ch (c : Char) : UInt8 := UInt8.ofNat c.toNat

/-- The switch of `buffer_has_tag`: `IF_STRCASECMP_TAG` is `is`, and `IF_ENDS_TAG` asks for
the end behind the characters that were switched on. -/
def matchTag (buf : Text) : Tag :=
  let is := fun name => strcaseeq (ascii name) buf = true
  let c := toupper (deref buf)
  let d := toupper (deref buf.tail)
  let ends := deref buf.tail = 0
  let ends2 := deref (buf.drop 2) = 0
  if c = ch 'A' then if ends then .A else .UNKNOWN
  else if c = ch 'B' then
    if ends then .B else if is "BR" then .BR else if is "BRV" then .BRV
    else if is "BODY" then .BODY else .UNKNOWN
  else if c = ch 'C' then
    if d = ch 'E' then if is "CENTER" then .CENTER else .UNKNOWN
    else if d = ch 'O' then if is "CODE" then .CODE else .UNKNOWN
    else .UNKNOWN
  else if c = ch 'D' then
    if d = ch 'D' then if ends2 then .DD else .UNKNOWN
    else if d = ch 'L' then if ends2 then .DL else .UNKNOWN
    else if d = ch 'T' then if ends2 then .DT else .UNKNOWN
    else .UNKNOWN
  else if c = ch 'E' then if is "EM" then .EM else .UNKNOWN
  else if c = ch 'F' then if is "FONT" then .FONT else .UNKNOWN
  else if c = ch 'H' then
    if d = ch '1' then if ends2 then .H 1 else .UNKNOWN
    else if d = ch '2' then if ends2 then .H 2 else .UNKNOWN
    else if d = ch '3' then if ends2 then .H 3 else .UNKNOWN
    else if d = ch '4' then if ends2 then .H 4 else .UNKNOWN
    else if d = ch '5' then if ends2 then .H 5 else .UNKNOWN
    else if d = ch '6' then if ends2 then .H 6 else .UNKNOWN
    else if d = ch 'E' then if is "HEAD" then .HEAD else .UNKNOWN
    else if d = ch 'R' then if is "HR" then .HR else .UNKNOWN
    else if d = ch 'T' then if is "HTML" then .HTML else .UNKNOWN
    else .UNKNOWN
  else if c = ch 'I' then if ends then .I else if is "IMG" then .IMG else .UNKNOWN
  else if c = ch 'K' then if is "KBD" then .KBD else .UNKNOWN
  else if c = ch 'L' then
    -- the second test follows the first whatever its result
    if is "LEFT" then .LEFT else if is "LI" then .LI else .UNKNOWN
  else if c = ch 'O' then if is "OL" then .OL else .UNKNOWN
  else if c = ch 'P' then if ends then .P else if is "PRE" then .PRE else .UNKNOWN
  else if c = ch 'R' then if is "RIGHT" then .RIGHT else .UNKNOWN
  else if c = ch 'S' then if is "STRONG" then .STRONG else .UNKNOWN
  else if c = ch 'T' then
    if d = ch 'A' then if is "TABLE" then .TABLE else .UNKNOWN
    else if d = ch 'D' then if ends2 then .TD else .UNKNOWN
    else if d = ch 'H' then if ends2 then .TH else .UNKNOWN
    else if d = ch 'I' then if is "TITLE" then .TITLE else .UNKNOWN
    else if d = ch 'R' then if ends2 then .TR else .UNKNOWN
    else if d = ch 'T' then if ends2 then .TT else .UNKNOWN
    else .UNKNOWN
  else if c = ch 'U' then if ends then .U else if is "UL" then .UL else .UNKNOWN
  else if c = ch 'V' then if is "VAR" then .VAR else .UNKNOWN
  else .UNKNOWN

/-- `buffer_has_tag` with its trie. -/
def buffer_has_tag_trie (buf0 : Text) : Tag :=
  if deref buf0 = 47 then
    let match_tag := matchTag buf0.tail
    if match_tag ≠ .UNKNOWN then match_tag.succ else match_tag
  else matchTag buf0

/-- `name` is the name of the tag, but for case. -/
def Named (name : Text) (tag : Tag) : Prop :=
  ∃ e ∈ tagNames, e.2 = tag ∧ strcaseeq (ascii e.1) name = true

theorem toupper_toupper (c : UInt8) : toupper (toupper c) = toupper c := by
  obtain ⟨b⟩ := c
  revert b
  decide +kernel

theorem toupper_eq_zero_iff (c : UInt8) : toupper c = 0 ↔ c = 0 := by
  obtain ⟨b⟩ := c
  revert b
  decide +kernel

theorem toupper_eq_slash_iff (c : UInt8) : toupper c = 47 ↔ c = 47 := by
  obtain ⟨b⟩ := c
  revert b
  decide +kernel

theorem deref_map_toupper (buf : Text) : deref (buf.map toupper) = toupper (deref buf) := by
  cases buf <;> rfl

/-- The letters of a name may be small or capital. -/
theorem strcaseeq_map_toupper (a buf : Text) : strcaseeq a (buf.map toupper) = strcaseeq a buf := by
  have hidem : toupper ∘ toupper = toupper := funext toupper_toupper
  rw [strcaseeq, strcaseeq, List.map_map, hidem]

/-- The trie does not tell the cases apart. -/
theorem matchTag_map_toupper (buf : Text) : matchTag (buf.map toupper) = matchTag buf := by
  unfold matchTag
  simp only [← List.map_tail, ← List.map_drop, deref_map_toupper, toupper_toupper,
    strcaseeq_map_toupper, toupper_eq_zero_iff]

/-- The trie finds every name of the table. -/
theorem matchTag_of_named {name : Text} {tag : Tag} (h : Named name tag) : matchTag name = tag := by
  obtain ⟨e, he, rfl, hname⟩ := h
  have htable : ∀ e ∈ tagNames, (ascii e.1).map toupper = ascii e.1 ∧ matchTag (ascii e.1) = e.2 := by
    decide +kernel
  obtain ⟨hupper, hmatch⟩ := htable e he
  have heq : (ascii e.1).map toupper = name.map toupper := beq_iff_eq.1 hname
  rw [← matchTag_map_toupper, ← heq, hupper, hmatch]

/-- What the trie may answer. -/
def Answer (name : Text) (tag : Tag) : Prop := tag = .UNKNOWN ∨ Named name tag

theorem Answer.ite {name : Text} {c : Prop} [Decidable c] {a b : Tag} (ha : c → Answer name a)
    (hb : ¬ c → Answer name b) : Answer name (if c then a else b) := by
  split
  · next h => exact ha h
  · next h => exact hb h

theorem answer_unknown (name : Text) : Answer name .UNKNOWN := .inl rfl

theorem answer_is {name : Text} {s : String} {tag : Tag} (h : strcaseeq (ascii s) name = true)
    (he : (s, tag) ∈ tagNames) : Answer name tag := .inr ⟨(s, tag), he, rfl, h⟩

/-- A name that ends behind its first character. -/
theorem answer_ends {name : Text} {c : Char} {tag : Tag} (hzero : 0 ∉ name)
    (hc : toupper (deref name) = ch c) (hend : deref name.tail = 0)
    (he : (String.ofList [c], tag) ∈ tagNames)
    (hname : (ascii (String.ofList [c])).map toupper = [ch c] ∧ ch c ≠ 0) : Answer name tag := by
  apply answer_is _ he
  rw [strcaseeq, beq_iff_eq, hname.1]
  match name, hzero, hc, hend with
  | [], _, hc, _ => exact absurd hc.symm hname.2
  | [x], _, hc, _ => exact congrArg (fun y => [y]) hc.symm
  | x :: y :: l, hzero, _, hend => exact absurd (by simp [show y = 0 from hend]) hzero

/-- A name that ends behind its second character. -/
theorem answer_ends2 {name : Text} {c d : Char} {tag : Tag} (hzero : 0 ∉ name)
    (hc : toupper (deref name) = ch c) (hd : toupper (deref name.tail) = ch d)
    (hend : deref (name.drop 2) = 0) (he : (String.ofList [c, d], tag) ∈ tagNames)
    (hname : (ascii (String.ofList [c, d])).map toupper = [ch c, ch d] ∧ ch d ≠ 0) :
    Answer name tag := by
  apply answer_is _ he
  rw [strcaseeq, beq_iff_eq, hname.1]
  match name, hzero, hc, hd, hend with
  | [], _, _, hd, _ => exact absurd hd.symm hname.2
  | [_], _, _, hd, _ => exact absurd hd.symm hname.2
  | [x, y], _, hc, hd, _ => exact congrArg₂ (fun x y => [x, y]) hc.symm hd.symm
  | x :: y :: z :: l, hzero, _, _, hend => exact absurd (by simp [show z = 0 from hend]) hzero

/-- The trie answers with the tag of the name or with none. -/
theorem answer_matchTag {name : Text} (hzero : 0 ∉ name) : Answer name (matchTag name) := by
  unfold matchTag
  dsimp only
  -- every leaf of the trie is one of the four answers
  repeat' refine Answer.ite (fun _ => ?_) (fun _ => ?_)
  all_goals first
    | exact answer_unknown name
    | exact answer_is ‹_› (by decide)
    | exact answer_ends hzero ‹_› ‹_› (by decide) (by decide)
    | exact answer_ends2 hzero (by assumption) (by assumption) (by assumption) (by decide) (by decide)

/-- A name has at most one tag. -/
theorem Named.unique {name : Text} {tag tag' : Tag} (h : Named name tag) (h' : Named name tag') :
    tag = tag' :=
  (matchTag_of_named h).symm.trans (matchTag_of_named h')

/-- A name in the table is found. -/
theorem findTag_of_named {name : Text} {tag : Tag} (h : Named name tag) : findTag name = tag := by
  unfold findTag
  cases hfind : tagNames.find? fun e => strcaseeq (ascii e.1) name with
  | none =>
    obtain ⟨e, he, -, hname⟩ := h
    exact absurd hname (List.find?_eq_none.1 hfind e he)
  | some e =>
    have hname := List.find?_some hfind
    have hnamed : Named name e.2 := ⟨e, List.mem_of_find?_eq_some hfind, rfl, hname⟩
    exact hnamed.unique h

/-- Any other name is unknown. -/
theorem findTag_of_not_named {name : Text} (h : ∀ tag, ¬ Named name tag) :
    findTag name = .UNKNOWN := by
  have hfind : (tagNames.find? fun e => strcaseeq (ascii e.1) name) = none := by
    apply List.find?_eq_none.2
    intro e he hname
    exact h e.2 ⟨e, he, rfl, hname⟩
  rw [findTag, hfind]
  rfl

/-- The trie finds what the comparison with every name finds. -/
theorem matchTag_eq_findTag {name : Text} (hzero : 0 ∉ name) : matchTag name = findTag name := by
  by_cases h : ∃ tag, Named name tag
  · obtain ⟨tag, h⟩ := h
    rw [matchTag_of_named h, findTag_of_named h]
  · obtain hno | hnamed := answer_matchTag hzero
    · rw [hno, findTag_of_not_named fun tag htag => h ⟨tag, htag⟩]
    · exact absurd ⟨_, hnamed⟩ h

theorem findTag_eq_iff {name : Text} {tag : Tag} (htag : tag ≠ .UNKNOWN) :
    findTag name = tag ↔ Named name tag := by
  refine ⟨fun h => ?_, findTag_of_named⟩
  by_contra hno
  have : ∀ tag', ¬ Named name tag' := by
    intro tag' h'
    rw [findTag_of_named h'] at h
    exact hno (h ▸ h')
  exact htag (h.symm.trans (findTag_of_not_named this))

theorem buffer_has_tag_of_ne {buf : Text} (h : deref buf ≠ 47) :
    buffer_has_tag buf = findTag buf := by
  unfold buffer_has_tag
  split
  · exact absurd rfl h
  · rfl

theorem slash_or (buf : Text) : (∃ name, buf = 47 :: name) ∨ deref buf ≠ 47 := by
  cases buf with
  | nil => exact .inr (by decide)
  | cons c l =>
    by_cases h : c = 47
    · exact .inl ⟨l, by rw [h]⟩
    · exact .inr h

/-- Every text of a tag is looked up by the trie as by comparison. -/
theorem buffer_has_tag_trie_eq {buf : Text} (hzero : 0 ∉ buf) :
    buffer_has_tag_trie buf = buffer_has_tag buf := by
  obtain ⟨name, rfl⟩ | hslash := slash_or buf
  · have hname : 0 ∉ name := fun h => hzero (List.mem_cons_of_mem _ h)
    show (if matchTag name ≠ .UNKNOWN then (matchTag name).succ else matchTag name) =
      (findTag name).succ
    rw [matchTag_eq_findTag hname]
    split
    · rfl
    · next h =>
      rw [not_not.1 h]
      rfl
  · rw [buffer_has_tag_trie, if_neg hslash, buffer_has_tag_of_ne hslash, matchTag_eq_findTag hzero]

/-! ## The dispatchers -/

/-- The three functions that read tags. -/
inductive Dispatcher where
  | draw
  | format
  | format_table
  deriving DecidableEq, Repr

/-- What the switch of a dispatcher has for a tag: no case; a case that does the same for the
closing tag as for the opening one, without a look at `is_close_tag`; or one that asks it. -/
inductive Case where
  | none
  | whole
  | asking
  deriving DecidableEq, Repr

def Dispatcher.case : Dispatcher → Tag → Case
  | draw, .A | draw, .B | draw, .STRONG | draw, .I | draw, .EM | draw, .CODE | draw, .DD
  | draw, .DL | draw, .DT | draw, .FONT | draw, .H _ | draw, .HEAD | draw, .KBD | draw, .LI
  | draw, .OL | draw, .P | draw, .PRE | draw, .TH | draw, .TD | draw, .TT | draw, .VAR
  | draw, .U | draw, .UL => .asking
  | draw, .BR | draw, .BRV | draw, .CENTER | draw, .HR | draw, .IMG => .whole
  | draw, _ => .none
  | format, .A | format, .B | format, .STRONG | format, .CODE | format, .TT | format, .I
  | format, .EM | format, .FONT | format, .CENTER | format, .DD | format, .DL | format, .DT
  | format, .H _ | format, .BRV | format, .HR | format, .PRE | format, .LI | format, .OL
  | format, .TABLE | format, .UL | format, .HEAD | format, .KBD | format, .TH | format, .TD
  | format, .TR | format, .VAR => .asking
  | format, .BODY | format, .BR | format, .IMG | format, .TITLE => .whole
  | format, _ => .none
  | format_table, .B | format_table, .STRONG | format_table, .CODE | format_table, .TT
  | format_table, .I | format_table, .EM | format_table, .KBD | format_table, .VAR
  | format_table, .CENTER | format_table, .DD | format_table, .DL | format_table, .DT
  | format_table, .H _ | format_table, .LI | format_table, .PRE | format_table, .OL
  | format_table, .P | format_table, .UL | format_table, .TR | format_table, .TABLE
  | format_table, .TD | format_table, .TH => .asking
  | format_table, .BR | format_table, .IMG => .whole
  | format_table, _ => .none

/-- The text of the tag behind a `<`. -/
def tagText (ptr : Text) : Text := ptr.takeWhile fun c => !endsName c

/-- The case entered for `buf_tag`, and whether it acts on a closing tag. -/
def Dispatcher.enters (d : Dispatcher) (buf_tag : Tag) (is_close_tag : Bool) : Option (Tag × Bool) :=
  match d.case buf_tag with
  | .none => none
  | .whole => some (buf_tag, false)
  | .asking => some (buf_tag, is_close_tag)

/-- What the tag behind a `<` is acted on as: an opening tag (`false`) or a closing tag. -/
def Dispatcher.acts (d : Dispatcher) (ptr : Text) : Option (Tag × Bool) :=
  let buf := (tagText ptr).take 1023
  let is_close_tag := deref buf == 47
  let ptrBuf := if deref buf = 47 then buf.tail else buf
  d.enters (buffer_has_tag_trie ptrBuf) is_close_tag

/-- The text is the name of the tag behind `n` slashes, but for case. -/
def Says (t : Text) (n : Nat) (tag : Tag) : Prop :=
  ∃ e ∈ tagNames, e.2 = tag ∧ strcaseeq (List.replicate n 47 ++ ascii e.1) t = true

instance (t : Text) (n : Nat) (tag : Tag) : Decidable (Says t n tag) :=
  inferInstanceAs (Decidable (∃ e ∈ tagNames, _ ∧ _))

/-- The dispatcher has code of its own for the opening or the closing tag. -/
def Dispatcher.Handles (d : Dispatcher) (tag : Tag) (is_close_tag : Bool) : Prop :=
  d.case tag = .asking ∨ (d.case tag = .whole ∧ is_close_tag = false)

/-- The tag behind a `<` is acted on as what its text says. -/
def Dispatcher.ActsAsSaid (d : Dispatcher) (ptr : Text) : Prop :=
  ∀ tag is_close_tag, d.acts ptr = some (tag, is_close_tag) ↔
    d.Handles tag is_close_tag ∧ Says (tagText ptr) (if is_close_tag then 1 else 0) tag

theorem says_succ_cons_iff {t : Text} {n : Nat} {tag : Tag} :
    Says (47 :: t) (n + 1) tag ↔ Says t n tag := by
  simp [Says, strcaseeq, List.replicate_succ]

theorem not_says_succ {t : Text} {n : Nat} {tag : Tag} (h : deref t ≠ 47) :
    ¬ Says t (n + 1) tag := by
  rintro ⟨e, -, -, heq⟩
  have heq := congrArg deref (beq_iff_eq.1 heq)
  rw [deref_map_toupper, deref_map_toupper] at heq
  exact h ((toupper_eq_slash_iff _).1 heq.symm)

theorem not_named_cons {t : Text} {tag : Tag} : ¬ Named (47 :: t) tag := by
  rintro ⟨e, he, -, heq⟩
  have htable : ∀ e ∈ tagNames, toupper (deref (ascii e.1)) ≠ 47 := by decide +kernel
  have heq := congrArg deref (beq_iff_eq.1 heq)
  rw [deref_map_toupper, deref_map_toupper] at heq
  exact htable e he heq

/-- The buffer is long enough for every name. -/
theorem says_take_iff {t : Text} {n : Nat} {tag : Tag} (hn : n ≤ 1000) :
    Says (t.take 1023) n tag ↔ Says t n tag := by
  have htable : ∀ e ∈ tagNames, (ascii e.1).length ≤ 6 := by decide +kernel
  refine exists_congr fun e => and_congr_right fun he => and_congr_right fun _ => ?_
  have hname := htable e he
  have hlen : ∀ t' : Text, strcaseeq (List.replicate n 47 ++ ascii e.1) t' = true →
      t'.length = n + (ascii e.1).length := by
    intro t' h
    have := congrArg List.length (beq_iff_eq.1 h)
    simpa using this.symm
  constructor
  · intro h
    have := hlen _ h
    rw [List.length_take] at this
    rwa [List.take_of_length_le (by omega)] at h
  · intro h
    have := hlen _ h
    rwa [List.take_of_length_le (by omega)]

/-- A case is entered by its own tag; one that does not ask takes a closing tag for an opening one.
-/
theorem Dispatcher.enters_eq_some_iff {d : Dispatcher} {tag tag' : Tag} {c c' : Bool} :
    d.enters tag c = some (tag', c') ↔
      tag = tag' ∧ (d.case tag' = .asking ∧ c' = c ∨ d.case tag' = .whole ∧ c' = false) := by
  unfold Dispatcher.enters
  cases h : d.case tag <;> constructor
  all_goals grind

theorem Dispatcher.case_unknown (d : Dispatcher) : d.case .UNKNOWN = .none := by
  cases d <;> rfl

/-- The name of a tag ends at a zero byte. -/
theorem zero_notMem_tagText (ptr : Text) : 0 ∉ tagText ptr := by
  intro h
  have := List.mem_takeWhile_imp h
  exact absurd this (by decide)

/-- What is acted on, by the number of slashes before the name. -/
theorem Dispatcher.acts_eq (d : Dispatcher) (ptr : Text) :
    (deref ((tagText ptr).take 1023) ≠ 47 ∧
      d.acts ptr = d.enters (findTag ((tagText ptr).take 1023)) false) ∨
    (∃ name, (tagText ptr).take 1023 = 47 :: name ∧ deref name ≠ 47 ∧
      d.acts ptr = d.enters (findTag name) true) ∨
    (∃ name, (tagText ptr).take 1023 = 47 :: 47 :: name ∧
      d.acts ptr = d.enters (findTag name).succ true) := by
  have hzero : 0 ∉ (tagText ptr).take 1023 := fun h =>
    zero_notMem_tagText ptr (List.mem_of_mem_take h)
  unfold Dispatcher.acts
  generalize (tagText ptr).take 1023 = buf at hzero
  obtain ⟨name, rfl⟩ | hslash := slash_or buf
  · right
    have hname : 0 ∉ name := fun h => hzero (List.mem_cons_of_mem _ h)
    obtain ⟨name', rfl⟩ | hslash' := slash_or name
    · right
      refine ⟨name', rfl, ?_⟩
      show d.enters (buffer_has_tag_trie (47 :: name')) true = _
      rw [buffer_has_tag_trie_eq hname]
      rfl
    · left
      refine ⟨name, rfl, hslash', ?_⟩
      show d.enters (buffer_has_tag_trie name) true = _
      rw [buffer_has_tag_trie_eq hname, buffer_has_tag_of_ne hslash']
  · left
    refine ⟨hslash, ?_⟩
    have hclose : (deref buf == 47) = false := by simpa using hslash
    simp only [if_neg hslash, hclose]
    rw [buffer_has_tag_trie_eq hzero, buffer_has_tag_of_ne hslash]

/-- Nothing is done where there is no case. -/
theorem Dispatcher.enters_eq_none_iff {d : Dispatcher} {tag : Tag} {c : Bool} :
    d.enters tag c = none ↔ d.case tag = .none := by
  unfold Dispatcher.enters
  cases d.case tag <;> simp

/-- A tag with a case is one of the table. -/
theorem findTag_eq_iff_of_case {d : Dispatcher} {name : Text} {tag : Tag}
    (hcase : d.case tag ≠ .none) : findTag name = tag ↔ Named name tag := by
  apply findTag_eq_iff
  rintro rfl
  exact hcase d.case_unknown

/-- Without a slash the tag is an opening one. -/
theorem Dispatcher.enters_open_iff {d : Dispatcher} {name : Text} {tag : Tag} :
    d.enters (findTag name) false = some (tag, false) ↔ d.Handles tag false ∧ Named name tag := by
  rw [Dispatcher.enters_eq_some_iff, Dispatcher.Handles]
  cases hcase : d.case tag with
  | none => simp
  | whole =>
    have hne : d.case tag ≠ .none := by simp [hcase]
    simp [findTag_eq_iff_of_case hne]
  | asking =>
    have hne : d.case tag ≠ .none := by simp [hcase]
    simp [findTag_eq_iff_of_case hne]

/-- Behind one slash the tag is a closing one, unless its case does not ask. -/
theorem Dispatcher.enters_close_iff {d : Dispatcher} {name : Text} :
    (∀ tag c, d.enters (findTag name) true = some (tag, c) ↔
      d.Handles tag c ∧ Says (47 :: name) (if c then 1 else 0) tag) ↔
      ∀ tag, Named name tag → d.case tag ≠ .whole := by
  constructor
  · intro h tag hnamed hwhole
    have henters : d.enters (findTag name) true = some (tag, false) :=
      d.enters_eq_some_iff.2 ⟨findTag_of_named hnamed, .inr ⟨hwhole, rfl⟩⟩
    exact not_named_cons ((h tag false).1 henters).2
  · intro h tag c
    rw [Dispatcher.enters_eq_some_iff]
    constructor
    · rintro ⟨hfind, ⟨hcase, rfl⟩ | ⟨hcase, -⟩⟩
      · have hnamed := (findTag_eq_iff_of_case (d := d) (by simp [hcase])).1 hfind
        exact ⟨.inl hcase, says_succ_cons_iff.2 hnamed⟩
      · have hnamed := (findTag_eq_iff_of_case (d := d) (by simp [hcase])).1 hfind
        exact absurd hcase (h tag hnamed)
    · rintro ⟨hhandles, hsays⟩
      cases c with
      | false => exact absurd hsays not_named_cons
      | true =>
        have hnamed : Named name tag := says_succ_cons_iff.1 hsays
        obtain hcase | ⟨-, hc⟩ := hhandles
        · exact ⟨findTag_of_named hnamed, .inl ⟨hcase, rfl⟩⟩
        · exact absurd hc (by decide)

/-- Behind two slashes nothing should be acted on; the tag that follows in the enumeration is. -/
theorem Dispatcher.enters_succ_iff {d : Dispatcher} {name : Text} :
    (∀ tag c, d.enters (findTag name).succ true = some (tag, c) ↔
      d.Handles tag c ∧ Says (47 :: 47 :: name) (if c then 1 else 0) tag) ↔
      ∀ tag, Named name tag → d.case tag.succ = .none := by
  have hsays : ∀ tag c, ¬ Says (47 :: 47 :: name) (if c = true then 1 else 0) tag := by
    intro tag c h
    cases c with
    | false => exact not_named_cons h
    | true => exact not_named_cons (says_succ_cons_iff.1 h)
  have hnone : (∀ tag c, d.enters (findTag name).succ true = some (tag, c) ↔
      d.Handles tag c ∧ Says (47 :: 47 :: name) (if c then 1 else 0) tag) ↔
      d.case (findTag name).succ = .none := by
    rw [← d.enters_eq_none_iff (c := true), Option.eq_none_iff_forall_ne_some, Prod.forall]
    exact forall_congr' fun tag => forall_congr' fun c =>
      (iff_false_right fun h => hsays tag c h.2)
  rw [hnone]
  constructor
  · intro h tag hnamed
    rwa [findTag_of_named hnamed] at h
  · intro h
    by_cases hnamed : ∃ tag, Named name tag
    · obtain ⟨tag, hnamed⟩ := hnamed
      rw [findTag_of_named hnamed]
      exact h tag hnamed
    · rw [findTag_of_not_named fun tag htag => hnamed ⟨tag, htag⟩]
      exact d.case_unknown

/-- A tag is acted on as what its text says, except a closing tag whose case does not ask, and
a name behind two slashes that is followed by another tag in the enumeration. -/
theorem acts_as_said_iff (d : Dispatcher) (ptr : Text) :
    d.ActsAsSaid ptr ↔
      (∀ tag, Says (tagText ptr) 1 tag → d.case tag ≠ .whole) ∧
      (∀ tag, Says (tagText ptr) 2 tag → d.case tag.succ = .none) := by
  have hsays : ∀ n ≤ 2, ∀ tag, Says (tagText ptr) n tag ↔ Says ((tagText ptr).take 1023) n tag :=
    fun n hn tag => (says_take_iff (by omega)).symm
  have hbit : ∀ c : Bool, (if c then 1 else 0) ≤ 2 := by decide
  simp only [Dispatcher.ActsAsSaid, hsays 1 (by omega), hsays 2 (by omega), hsays _ (hbit _)]
  obtain ⟨hslash, hacts⟩ | ⟨name, hbuf, hslash, hacts⟩ | ⟨name, hbuf, hacts⟩ := d.acts_eq ptr
  · refine iff_of_true (fun tag c => ?_)
      ⟨fun tag h => absurd h (not_says_succ hslash), fun tag h => absurd h (not_says_succ hslash)⟩
    rw [hacts]
    cases c with
    | false => exact d.enters_open_iff
    | true => exact iff_of_false (by simp [d.enters_eq_some_iff]) fun h => not_says_succ hslash h.2
  · rw [hacts, hbuf, d.enters_close_iff]
    refine ⟨fun h => ⟨fun tag ht => h tag (says_succ_cons_iff.1 ht), fun tag ht => ?_⟩,
      fun h tag ht => h.1 tag (says_succ_cons_iff.2 ht)⟩
    exact absurd (says_succ_cons_iff.1 ht) (not_says_succ hslash)
  · rw [hacts, hbuf, d.enters_succ_iff]
    refine ⟨fun h => ⟨fun tag ht => ?_, fun tag ht => h tag ?_⟩, fun h tag ht => h.2 tag ?_⟩
    · exact absurd (says_succ_cons_iff.1 ht) not_named_cons
    · exact says_succ_cons_iff.1 (says_succ_cons_iff.1 ht)
    · exact says_succ_cons_iff.2 (says_succ_cons_iff.2 ht)

/-- `<//EM>` is acted on as `</FONT>`. -/
theorem slashed_em_closes_font :
    ¬ ∀ (d : Dispatcher) (ptr : Text), d.ActsAsSaid ptr := by
  intro h
  have hacts : Dispatcher.draw.acts (ascii "//EM>") = some (.FONT, true) := by decide +kernel
  obtain ⟨-, hsays⟩ := ((h .draw (ascii "//EM>")) .FONT true).1 hacts
  revert hsays
  decide +kernel

/-! ## The cases of the dispatchers -/

section cases

variable {t : TagAt}

/-- `format` passes over a tag without a case. -/
theorem tagTurn_of_none (a : Wide) (st : Scan) (start : Text)
    (h : Dispatcher.format.case t.buf_tag = .none) :
    tagTurn a st start t = .next { st with ptr := t.ptr } [] := by
  obtain ⟨c, tag, attrs, ptr⟩ := t
  cases tag <;> first | rfl | simp [Dispatcher.case] at h

/-- A case of `format` that does not ask does the same for a closing tag. -/
theorem tagTurn_of_whole (a : Wide) (st : Scan) (start : Text)
    (h : Dispatcher.format.case t.buf_tag = .whole) (c : Bool) :
    tagTurn a st start { t with is_close_tag := c } = tagTurn a st start t := by
  obtain ⟨c', tag, attrs, ptr⟩ := t
  cases tag <;> first | rfl | simp [Dispatcher.case] at h

/-- `draw` does nothing for a tag without a case, to the lines or to the fonts. -/
theorem draw_of_none (line31_ : Int) (wrap : Bool) (D : DrawScan) (V : View) (P : Draw)
    (h : Dispatcher.draw.case t.buf_tag = .none) :
    D.tagTurn line31_ wrap t = ([], D) ∧
      P.drawTag V t.is_close_tag t.buf_tag t.attrs = P := by
  obtain ⟨c, tag, attrs, ptr⟩ := t
  cases tag <;> first | exact ⟨rfl, rfl⟩ | simp [Dispatcher.case] at h

theorem draw_of_whole (line31_ : Int) (wrap : Bool) (D : DrawScan) (V : View) (P : Draw)
    (h : Dispatcher.draw.case t.buf_tag = .whole) (c : Bool) :
    D.tagTurn line31_ wrap { t with is_close_tag := c } = D.tagTurn line31_ wrap t ∧
      P.drawTag V c t.buf_tag t.attrs = P.drawTag V t.is_close_tag t.buf_tag t.attrs := by
  obtain ⟨c', tag, attrs, ptr⟩ := t
  cases tag <;> first | exact ⟨rfl, rfl⟩ | simp [Dispatcher.case] at h

/-- `format_table` does nothing for a tag without a case. -/
theorem table_of_none (T : TableScan) (start : Text)
    (h : Dispatcher.format_table.case t.buf_tag = .none) : T.tagTurn start t = ([], some T) := by
  obtain ⟨c, tag, attrs, ptr⟩ := t
  cases tag <;> first | rfl | simp [Dispatcher.case] at h

theorem table_of_whole (T : TableScan) (start : Text)
    (h : Dispatcher.format_table.case t.buf_tag = .whole) (c : Bool) :
    T.tagTurn start { t with is_close_tag := c } = T.tagTurn start t := by
  obtain ⟨c', tag, attrs, ptr⟩ := t
  cases tag <;> first | rfl | simp [Dispatcher.case] at h

end cases

end LuaFltk.Help
