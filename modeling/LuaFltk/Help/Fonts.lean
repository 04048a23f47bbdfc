import LuaFltk.Help.Names
import LuaFltk.Lib.Nest

/-!
# Fonts and colours while a document is drawn

What `Fl_Help_View::draw` does with the font, the colour and the font stack, and what it
paints in which of them. The text of a block is cut into its tags and the characters between them;
where the words go is left out. A block of text is properly nested if its tags are the reading of a
forest of elements.
-/

namespace LuaFltk.Help

open Lib

def FL_BOLD : Nat := 1
def FL_ITALIC : Nat := 2

def MAX_FL_HELP_FS_ELTS : Nat := 100

structure Fl_Help_Font_Style where
  f : Nat
  s : Int
  c : Nat
  deriving DecidableEq, Repr

/-- The font stack: the current element, which is `elts_[nfonts_]`, and those below. -/
structure Fl_Help_Font_Stack where
  top : Fl_Help_Font_Style
  below : List Fl_Help_Font_Style
  bound : below.length ≤ MAX_FL_HELP_FS_ELTS - 1

namespace Fl_Help_Font_Stack

def nfonts_ (S : Fl_Help_Font_Stack) : Nat := S.below.length

def init (e : Fl_Help_Font_Style) : Fl_Help_Font_Stack := ⟨e, [], Nat.zero_le _⟩

/-- A full stack has its current element replaced. -/
def push (S : Fl_Help_Font_Stack) (e : Fl_Help_Font_Style) : Fl_Help_Font_Stack :=
  if h : S.below.length < MAX_FL_HELP_FS_ELTS - 1 then ⟨e, S.top :: S.below, h⟩
  else ⟨e, S.below, S.bound⟩

/-- The element at the bottom stays. -/
def pop (S : Fl_Help_Font_Stack) : Fl_Help_Font_Stack :=
  match h : S.below with
  | [] => S
  | e :: below => ⟨e, below, by
      have := S.bound
      rw [h, List.length_cons] at this
      omega⟩

theorem push_of_lt {S : Fl_Help_Font_Stack} (e : Fl_Help_Font_Style)
    (h : S.nfonts_ < MAX_FL_HELP_FS_ELTS - 1) : S.push e = ⟨e, S.top :: S.below, h⟩ :=
  dif_pos h

theorem pop_push {S : Fl_Help_Font_Stack} {e : Fl_Help_Font_Style}
    (h : S.nfonts_ < MAX_FL_HELP_FS_ELTS - 1) : (S.push e).pop = S := by
  rw [push_of_lt e h]
  rfl

theorem nfonts_push {S : Fl_Help_Font_Stack} {e : Fl_Help_Font_Style}
    (h : S.nfonts_ < MAX_FL_HELP_FS_ELTS - 1) : (S.push e).nfonts_ = S.nfonts_ + 1 := by
  rw [push_of_lt e h]
  rfl

theorem le_nfonts_push (S : Fl_Help_Font_Stack) (e : Fl_Help_Font_Style) :
    S.nfonts_ ≤ (S.push e).nfonts_ := by
  unfold push
  split
  · exact Nat.le_succ _
  · exact Nat.le_refl _

theorem top_push (S : Fl_Help_Font_Stack) (e : Fl_Help_Font_Style) : (S.push e).top = e := by
  unfold push
  split <;> rfl

theorem nfonts_pop (S : Fl_Help_Font_Stack) : S.pop.nfonts_ = S.nfonts_ - 1 := by
  unfold pop nfonts_
  split
  · next h => simp [h]
  · next h => simp [h]

theorem pop_of_zero {S : Fl_Help_Font_Stack} (h : S.nfonts_ = 0) : S.pop = S := by
  unfold pop
  split
  · rfl
  · next hbelow =>
    rw [nfonts_, hbelow] at h
    cases h

end Fl_Help_Font_Stack

/-- The widget, and the size `(int)(size * pow(1.2, atof(attr) - 3.0))`. -/
structure View where
  textfont_ : Nat
  textsize_ : Int
  linkcolor_ : Nat
  scaled : Int → Text → Int

/-- A piece of text with the font, the size and the colour it is painted in. -/
structure Paint where
  text : Text
  fl_font : Nat
  fl_size : Int
  fl_color : Nat
  deriving DecidableEq, Repr

/-- The variables of `draw` that have to do with fonts, the font and the colour that are set,
and what was painted. -/
structure Draw where
  font : Nat
  fsize : Int
  fcolor : Nat
  fstack_ : Fl_Help_Font_Stack
  textcolor_ : Nat
  head : Bool
  fl_font : Nat
  fl_size : Int
  fl_color : Nat
  painted : List Paint

namespace Draw

/-- `pushfont(f, s)`. -/
def pushfont (D : Draw) (f : Nat) (s : Int) : Draw :=
  { D with
    fstack_ := D.fstack_.push ⟨f, s, D.textcolor_⟩
    fl_font := f
    fl_size := s
    fl_color := D.textcolor_ }

/-- `popfont(font, fsize, fcolor)`. -/
def popfont (D : Draw) : Draw :=
  let fstack_ := D.fstack_.pop
  let e := fstack_.top
  { D with
    fstack_ := fstack_
    font := e.f
    fsize := e.s
    fcolor := e.c
    fl_font := e.f
    fl_size := e.s
    fl_color := e.c }

/-- `hv_draw`. -/
def hv_draw (D : Draw) (t : Text) : Draw :=
  { D with painted := D.painted ++ [⟨t, D.fl_font, D.fl_size, D.fl_color⟩] }

/-- What the switch of `draw` leaves: the variables, and whether to push or to pop the font. -/
structure Switch where
  state : Draw
  do_push_font : Bool := false
  do_pop_font : Bool := false

/-- `PUSH_OR_POP_FONT`, with what it does for an opening tag. -/
def PUSH_OR_POP_FONT (is_close_tag : Bool) (D : Draw) (afont : Draw → Draw) : Switch :=
  if is_close_tag then { state := D, do_pop_font := true }
  else { state := afont D, do_push_font := true }

/-- The font of `<FONT>`. -/
def fontTag (V : View) (attrs : Text) (D : Draw) : Draw :=
  let D := match get_attr (ascii "COLOR") 1024 attrs with
    | some attr => { D with textcolor_ := get_color (some attr) D.textcolor_ }
    | none => D
  let D := match get_attr (ascii "FACE") 1024 attrs with
    | some attr => { D with font := get_attr_font attr }
    | none => D
  match get_attr (ascii "SIZE") 1024 attrs with
  | some attr =>
    { D with fsize := if isdigit (deref attr) then V.scaled V.textsize_ attr
                      else V.scaled D.fsize attr }
  | none => D

/-- The bullet of a list, in UTF-8. -/
def bullet : Text := [0xe2, 0x80, 0xa2]

/-- The switch over the tags. A cell fills its background and sets the colour back to
`textcolor_`, which the push does anyway. -/
def tagSwitch (V : View) (D : Draw) (is_close_tag : Bool) (buf_tag : Tag) (attrs : Text) : Switch :=
  match buf_tag with
  | .A =>
    if is_close_tag then { state := { D with fl_color := D.textcolor_ } }
    else if (get_attr (ascii "HREF") 1024 attrs).isSome then
      { state := { D with fl_color := V.linkcolor_ } }
    else { state := D }
  | .B | .STRONG => PUSH_OR_POP_FONT is_close_tag D fun D => { D with font := D.font ||| FL_BOLD }
  | .CENTER => { state := D, do_push_font := true }
  | .I | .EM => PUSH_OR_POP_FONT is_close_tag D fun D => { D with font := D.font ||| FL_ITALIC }
  | .CODE | .TT => PUSH_OR_POP_FONT is_close_tag D fun D => { D with font := FL_COURIER }
  | .DD | .DL => { state := D, do_pop_font := is_close_tag }
  | .DT =>
    PUSH_OR_POP_FONT is_close_tag D fun D =>
      { D with font := V.textfont_ ||| FL_ITALIC, fsize := V.textsize_ }
  | .FONT => PUSH_OR_POP_FONT is_close_tag D (fontTag V attrs)
  | .H n =>
    -- `textsize_ + '7' - buf[1]`
    PUSH_OR_POP_FONT is_close_tag D fun D =>
      { D with font := FL_HELVETICA_BOLD, fsize := V.textsize_ + 7 - n }
  | .HEAD => { state := { D with head := !is_close_tag } }
  | .KBD => PUSH_OR_POP_FONT is_close_tag D fun D => { D with font := FL_COURIER_BOLD }
  | .LI => PUSH_OR_POP_FONT is_close_tag D fun D => D.hv_draw bullet
  | .OL | .P => PUSH_OR_POP_FONT is_close_tag D id
  | .PRE =>
    PUSH_OR_POP_FONT is_close_tag D fun D => { D with font := FL_COURIER, fsize := V.textsize_ }
  | .TH => PUSH_OR_POP_FONT is_close_tag D fun D => { D with font := D.font ||| FL_BOLD }
  | .TD => PUSH_OR_POP_FONT is_close_tag D fun D => { D with font := V.textfont_ }
  | .VAR => PUSH_OR_POP_FONT is_close_tag D fun D => { D with font := FL_COURIER_ITALIC }
  | .UL => { state := D, do_push_font := is_close_tag }
  | _ => { state := D }

/-- What `draw` does with a tag. -/
def drawTag (V : View) (D : Draw) (is_close_tag : Bool) (buf_tag : Tag) (attrs : Text) : Draw :=
  let r := tagSwitch V D is_close_tag buf_tag attrs
  if r.do_push_font then r.state.pushfont r.state.font r.state.fsize
  else if r.do_pop_font then r.state.popfont
  else r.state

end Draw

/-- A piece of the text of a block. -/
inductive Token where
  | text (t : Text)
  | tag (is_close_tag : Bool) (buf_tag : Tag) (attrs : Text)
  deriving DecidableEq, Repr

/-- The text of a block: from `block->start` on, and how much of it there is from `block->end` on. -/
structure BlockText where
  start : Text
  stop : Nat

/-- `fl_utf8encode`: the bytes that are written. -/
def utf8Bytes (code : Nat) : Text :=
  let ucs := code % 2 ^ 32
  let continued (n : Nat) : UInt8 := .ofNat (0x80 ||| (ucs >>> n &&& 0x3f))
  if ucs < 0x80 then [.ofNat ucs]
  else if ucs < 0x800 then [.ofNat (0xc0 ||| ucs >>> 6), continued 0]
  else if ucs < 0x10000 then [.ofNat (0xe0 ||| ucs >>> 12), continued 6, continued 0]
  else if ucs ≤ 0x10ffff then
    [.ofNat (0xf0 ||| ucs >>> 18), continued 12, continued 6, continued 0]
  else [0xef, 0xbf, 0xbd]

/-- The character at an `&`, which `ptr` is behind, and the text behind it. -/
def quoted (ptr : Text) : Text × Text :=
  match afterSemicolon ptr with
  | none => ([38], ptr)
  | some rest =>
    if quote_char ptr < 0 then ([38], ptr) else (utf8Bytes (quote_char ptr).toNat, rest)

/-- The turns of the loop over the text of a block, with whether there is a word in the buffer. The
blanks behind a word of the head or of preformatted text are passed over in one turn, and the end of
the block is not looked for in them. Comments are left out. -/
def readTokens (stop : Nat) : Nat → (word head pre : Bool) → Text → List Token
  | 0, _, _, _, _ => []
  | fuel + 1, word, head, pre, ptr =>
    if ptr.length ≤ stop then []
    else
      let blanks := if word && (head || pre) then ptr.takeWhile isspace else []
      (if blanks = [] then [] else [.text blanks]) ++
      match ptr.drop blanks.length with
      | [] => []
      | c :: rest =>
        if c = 60 then
          if rest.take 3 = ascii "!--" then
            match afterComment (rest.drop 3) with
            | some ptr => readTokens stop fuel false head pre ptr
            | none => []
          else
            let t := readTagAt rest
            let head := if t.buf_tag = .HEAD then !t.is_close_tag else head
            let pre := if t.buf_tag = .PRE then !t.is_close_tag else pre
            .tag t.is_close_tag t.buf_tag t.attrs :: readTokens stop fuel false head pre t.ptr
        else if isspace c then
          .text [c] :: readTokens stop fuel (pre && c == 32) head pre rest
        else if c = 38 then
          .text (quoted rest).1 :: readTokens stop fuel true head pre (quoted rest).2
        else .text [c] :: readTokens stop fuel true head pre rest

/-- The tokens of the text of a block. -/
def BlockText.tokens (b : BlockText) : List Token :=
  readTokens b.stop (b.start.length + 1) false false false b.start

/-- What `draw` does with a piece of the text. Nothing in the head is painted. -/
def Draw.step (V : View) (D : Draw) : Token → Draw
  | .text t => if D.head then D else D.hv_draw t
  | .tag c tag attrs => D.drawTag V c tag attrs

/-- `initfont`, with which a block begins. -/
def initfont (V : View) (textcolor_ : Nat) : Draw where
  font := V.textfont_
  fsize := V.textsize_
  fcolor := textcolor_
  fstack_ := .init ⟨V.textfont_, V.textsize_, textcolor_⟩
  textcolor_ := textcolor_
  head := false
  fl_font := V.textfont_
  fl_size := V.textsize_
  fl_color := textcolor_
  painted := []

/-- A block is drawn. -/
def drawBlock (V : View) (textcolor_ : Nat) (text : BlockText) : Draw :=
  text.tokens.foldl (Draw.step V) (initfont V textcolor_)

/-- All blocks are drawn, one after the other: what is painted, and the colour afterwards. -/
def draw (V : View) : List BlockText → Nat → List Paint × Nat
  | [], textcolor_ => ([], textcolor_)
  | text :: blocks, textcolor_ =>
    let D := drawBlock V textcolor_ text
    let (painted, textcolor_) := draw V blocks D.textcolor_
    (D.painted ++ painted, textcolor_)

/-! ## Properly nested blocks -/

/-- The elements that have to do with the font. -/
def Tag.isElement : Tag → Bool
  | B | STRONG | I | EM | CODE | TT | KBD | VAR | FONT | H _ | CENTER | P | UL | OL | DL | DT | DD
  | LI | PRE | TH | TD => true
  | _ => false

/-- An element, with the attributes of its two tags. -/
structure Element where
  tag : Tag
  attrs : Text
  closeAttrs : Text
  isElement : tag.isElement = true

/-- The opening tag pushes the font. -/
def Tag.pushes : Tag → Bool
  | UL | DL | DD => false
  | tag => tag.isElement

/-- A piece of the text that belongs to no element. -/
def Token.isOther : Token → Bool
  | text _ => true
  | tag _ buf_tag _ => !buf_tag.isElement

abbrev Other := { t : Token // t.isOther = true }

def reading : Event Other Element → Token
  | .leaf o => o.1
  | .opening e => .tag false e.tag e.attrs
  | .closing e => .tag true e.tag e.closeAttrs

/-- A block whose elements are properly nested, and no deeper than the font stack is. -/
structure NestedBlock where
  text : BlockText
  forest : Forest Other Element
  reads : text.tokens = forest.events.map reading
  depth : forest.depth < MAX_FL_HELP_FS_ELTS

/-- What `draw` does when it comes to an event. -/
def Draw.event (V : View) (D : Draw) (e : Event Other Element) : Draw := D.step V (reading e)

/-- The same font, font size, depth of the font stack and text colour. -/
structure Draw.Same (D D' : Draw) : Prop where
  font : D'.font = D.font
  fsize : D'.fsize = D.fsize
  nfonts_ : D'.fstack_.nfonts_ = D.fstack_.nfonts_
  textcolor_ : D'.textcolor_ = D.textcolor_

/-- The same font, font size, font stack and text colour. -/
structure Draw.Kept (D D' : Draw) : Prop where
  font : D'.font = D.font
  fsize : D'.fsize = D.fsize
  fstack_ : D'.fstack_ = D.fstack_
  textcolor_ : D'.textcolor_ = D.textcolor_

/-- The variables hold the current element of the stack, on which there is room for `d` more. -/
structure Draw.Room (d : Nat) (D : Draw) : Prop where
  font : D.font = D.fstack_.top.f
  fsize : D.fsize = D.fstack_.top.s
  room : D.fstack_.nfonts_ + d ≤ MAX_FL_HELP_FS_ELTS - 1

/-- Whether something was pushed, and the text colour. -/
def Draw.view (D : Draw) : Bool × Nat := (decide (0 < D.fstack_.nfonts_), D.textcolor_)

/-- The text colour behind the opening tag. -/
def Element.colored (e : Element) (textcolor_ : Nat) : Nat :=
  if e.tag = .FONT then
    match get_attr (ascii "COLOR") 1024 e.attrs with
    | some attr => get_color (some attr) textcolor_
    | none => textcolor_
  else textcolor_

/-- What an element hands down to those in it. -/
def Element.enter (e : Element) (a : Bool × Nat) : Bool × Nat :=
  (a.1 || e.tag.pushes, e.colored a.2)

/-- What an element needs to be restored: no element that pushes when it is closed, none that
pops only when it is closed below a pushed font, and no other colour. -/
def Element.Ok (e : Element) (a : Bool × Nat) : Prop :=
  e.tag ≠ .CENTER ∧ e.tag ≠ .UL ∧ (e.tag = .DD ∨ e.tag = .DL → a.1 = false) ∧ e.colored a.2 = a.2

namespace Draw

variable {V : View} {D : Draw}

theorem fontTag_eq {e : Element} (h : e.tag = .FONT) :
    ∃ f s, fontTag V e.attrs D =
      { D with font := f, fsize := s, textcolor_ := e.colored D.textcolor_ } := by
  unfold fontTag
  rw [Element.colored, if_pos h]
  cases get_attr (ascii "COLOR") 1024 e.attrs <;> cases get_attr (ascii "FACE") 1024 e.attrs <;>
    cases get_attr (ascii "SIZE") 1024 e.attrs <;> exact ⟨_, _, rfl⟩

theorem drawTag_open_of_ne {tag : Tag} {attrs : Text} (h : tag.pushes = true)
    (hfont : tag ≠ .FONT) :
    ∃ f s p, D.drawTag V false tag attrs =
      pushfont { D with font := f, fsize := s, painted := p } f s := by
  cases tag <;> first | exact absurd rfl hfont | exact ⟨_, _, _, rfl⟩ | cases h

/-- An opening tag that pushes sets the font, the size and the text colour before. -/
theorem drawTag_open {e : Element} (h : e.tag.pushes = true) :
    ∃ f s p, D.drawTag V false e.tag e.attrs =
      pushfont { D with font := f, fsize := s, textcolor_ := e.colored D.textcolor_, painted := p }
        f s := by
  by_cases hfont : e.tag = .FONT
  · obtain ⟨f, s, heq⟩ := fontTag_eq (V := V) (D := D) hfont
    refine ⟨f, s, D.painted, ?_⟩
    rw [hfont]
    show pushfont (fontTag V e.attrs D) (fontTag V e.attrs D).font (fontTag V e.attrs D).fsize = _
    rw [heq]
  · rw [Element.colored, if_neg hfont]
    exact drawTag_open_of_ne h hfont

theorem drawTag_close {tag : Tag} {attrs : Text} (h : tag.pushes = true) (hcenter : tag ≠ .CENTER) :
    D.drawTag V true tag attrs = D.popfont := by
  cases tag <;> first | rfl | exact absurd rfl hcenter | cases h

/-- The elements whose opening tag leaves the font stack alone. -/
theorem tag_of_not_pushes {e : Element} (h : e.tag.pushes = false) :
    e.tag = .UL ∨ e.tag = .DD ∨ e.tag = .DL := by
  have helem := e.isElement
  cases htag : e.tag <;> simp_all [Tag.pushes, Tag.isElement]

theorem drawTag_open_of_not {e : Element} (h : e.tag.pushes = false) :
    D.drawTag V false e.tag e.attrs = D := by
  obtain htag | htag | htag := tag_of_not_pushes h <;> rw [htag] <;> rfl

/-- The other tags leave the font alone. -/
theorem drawTag_other {c : Bool} {tag : Tag} {attrs : Text} (h : tag.isElement = false) :
    D.Kept (D.drawTag V c tag attrs) := by
  cases tag <;> first | exact ⟨rfl, rfl, rfl, rfl⟩ | cases h
  -- only `<A>` is left
  cases c with
  | true => exact ⟨rfl, rfl, rfl, rfl⟩
  | false =>
    have heq : tagSwitch V D false .A attrs =
        if (get_attr (ascii "HREF") 1024 attrs).isSome then
          { state := { D with fl_color := V.linkcolor_ } }
        else { state := D } := rfl
    rw [drawTag, heq]
    cases (get_attr (ascii "HREF") 1024 attrs).isSome with
    | true => exact ⟨rfl, rfl, rfl, rfl⟩
    | false => exact ⟨rfl, rfl, rfl, rfl⟩

theorem step_other {t : Token} (h : t.isOther = true) : D.Kept (D.step V t) := by
  cases t with
  | text t =>
    show D.Kept (if D.head then D else D.hv_draw t)
    split
    · exact ⟨rfl, rfl, rfl, rfl⟩
    · exact ⟨rfl, rfl, rfl, rfl⟩
  | tag c tag attrs => exact drawTag_other (by simpa [Token.isOther] using h)

theorem colored_of_not {e : Element} (h : e.tag.pushes = false) (c : Nat) : e.colored c = c := by
  refine if_neg fun hfont => ?_
  rw [hfont] at h
  cases h

/-- Popping what was pushed gives the font back. -/
theorem kept_popfont {D' : Draw} {e : Fl_Help_Font_Style} {d : Nat} (hroom : D.Room (d + 1))
    (hstack : D'.fstack_ = D.fstack_.push e) (hcolor : D'.textcolor_ = D.textcolor_) :
    D.Kept D'.popfont := by
  have hlt : D.fstack_.nfonts_ < MAX_FL_HELP_FS_ELTS - 1 := by
    have := hroom.room
    omega
  have hpop : D'.fstack_.pop = D.fstack_ := by rw [hstack, Fl_Help_Font_Stack.pop_push hlt]
  constructor
  · show D'.fstack_.pop.top.f = _
    rw [hpop, hroom.font]
  · show D'.fstack_.pop.top.s = _
    rw [hpop, hroom.fsize]
  · exact hpop
  · exact hcolor

/-- Popping the bottom of the stack gives it back. -/
theorem kept_popfont_of_zero {D' : Draw} {d : Nat} (hroom : D.Room d) (hkept : D.Kept D')
    (hzero : D.fstack_.nfonts_ = 0) : D.Kept D'.popfont := by
  have hpop : D'.fstack_.pop = D.fstack_ := by
    rw [hkept.fstack_, Fl_Help_Font_Stack.pop_of_zero hzero]
  constructor
  · show D'.fstack_.pop.top.f = _
    rw [hpop, hroom.font]
  · show D'.fstack_.pop.top.s = _
    rw [hpop, hroom.fsize]
  · exact hpop
  · exact hkept.textcolor_

theorem room_opening (V : View) {d : Nat} (e : Element) (hroom : D.Room (d + 1)) :
    (D.drawTag V false e.tag e.attrs).Room d := by
  have hlt := hroom.room
  cases hpush : e.tag.pushes with
  | true =>
    obtain ⟨f, s, p, heq⟩ := drawTag_open (V := V) (D := D) hpush
    rw [heq]
    refine ⟨?_, ?_, ?_⟩
    · show f = (Fl_Help_Font_Stack.push _ _).top.f
      rw [Fl_Help_Font_Stack.top_push]
    · show s = (Fl_Help_Font_Stack.push _ _).top.s
      rw [Fl_Help_Font_Stack.top_push]
    · show (D.fstack_.push _).nfonts_ + d ≤ _
      rw [Fl_Help_Font_Stack.nfonts_push (by omega)]
      omega
  | false =>
    rw [drawTag_open_of_not hpush]
    exact ⟨hroom.font, hroom.fsize, by omega⟩

theorem view_opening (V : View) {d : Nat} (e : Element) (hroom : D.Room (d + 1)) :
    (D.drawTag V false e.tag e.attrs).view = e.enter D.view := by
  have hlt := hroom.room
  cases hpush : e.tag.pushes with
  | true =>
    obtain ⟨f, s, p, heq⟩ := drawTag_open (V := V) (D := D) hpush
    rw [heq]
    show (decide (0 < (D.fstack_.push _).nfonts_), e.colored D.textcolor_) = _
    rw [Fl_Help_Font_Stack.nfonts_push (by omega)]
    simp [Element.enter, view, hpush]
  | false =>
    rw [drawTag_open_of_not hpush]
    simp [Element.enter, view, hpush, colored_of_not hpush]

/-- An element that meets the condition keeps the font, if its body does. -/
theorem kept_closing {d : Nat} {e : Element} {D' : Draw} (hroom : D.Room (d + 1))
    (hkept : (D.drawTag V false e.tag e.attrs).Kept D') (hok : e.Ok D.view) :
    D.Kept (D'.drawTag V true e.tag e.closeAttrs) := by
  obtain ⟨hcenter, hul, hdd, hcolor⟩ := hok
  cases hpush : e.tag.pushes with
  | true =>
    obtain ⟨f, s, p, heq⟩ := drawTag_open (V := V) (D := D) hpush
    rw [heq] at hkept
    rw [drawTag_close hpush hcenter]
    exact kept_popfont hroom hkept.fstack_ (hkept.textcolor_.trans hcolor)
  | false =>
    rw [drawTag_open_of_not hpush] at hkept
    have hzero : e.tag = .DD ∨ e.tag = .DL → D.fstack_.nfonts_ = 0 := by
      intro h
      simpa [view] using hdd h
    obtain htag | htag | htag := tag_of_not_pushes hpush
    · exact absurd htag hul
    · rw [htag]
      exact kept_popfont_of_zero hroom hkept (hzero (.inl htag))
    · rw [htag]
      exact kept_popfont_of_zero hroom hkept (hzero (.inr htag))

/-- An element that is restored meets the condition, if its body keeps the font. -/
theorem ok_of_same {d : Nat} {e : Element} {D' : Draw} (hroom : D.Room (d + 1))
    (hkept : (D.drawTag V false e.tag e.attrs).Kept D')
    (hsame : D.Same (D'.drawTag V true e.tag e.closeAttrs)) : e.Ok D.view := by
  have hlt : D.fstack_.nfonts_ < MAX_FL_HELP_FS_ELTS - 1 := by
    have := hroom.room
    omega
  cases hpush : e.tag.pushes with
  | true =>
    obtain ⟨f, s, p, heq⟩ := drawTag_open (V := V) (D := D) hpush
    rw [heq] at hkept
    have hcenter : e.tag ≠ .CENTER := by
      -- the second push is one too many
      intro htag
      have hdepth := hsame.nfonts_
      rw [htag] at hdepth
      have hmore := Fl_Help_Font_Stack.le_nfonts_push D'.fstack_ ⟨D'.font, D'.fsize, D'.textcolor_⟩
      rw [hkept.fstack_] at hmore
      change (D'.fstack_.push _).nfonts_ = _ at hdepth
      rw [hkept.fstack_] at hdepth
      change (D.fstack_.push _).nfonts_ ≤ _ at hmore
      rw [Fl_Help_Font_Stack.nfonts_push hlt] at hmore
      exact absurd (hmore.trans hdepth.le) (by omega)
    refine ⟨hcenter, ?_, ?_, ?_⟩
    · intro htag
      rw [htag] at hpush
      cases hpush
    · rintro (htag | htag)
      all_goals
        rw [htag] at hpush
        cases hpush
    · have hcolor := hsame.textcolor_
      rw [drawTag_close hpush hcenter] at hcolor
      exact hkept.textcolor_.symm.trans hcolor
  | false =>
    rw [drawTag_open_of_not hpush] at hkept
    have hdepth := hsame.nfonts_
    have hcolor := colored_of_not hpush D.view.2
    obtain htag | htag | htag := tag_of_not_pushes hpush
    · rw [htag] at hdepth
      change (D'.fstack_.push _).nfonts_ = _ at hdepth
      rw [hkept.fstack_, Fl_Help_Font_Stack.nfonts_push hlt] at hdepth
      omega
    all_goals
      rw [htag] at hdepth
      change D'.fstack_.pop.nfonts_ = _ at hdepth
      rw [hkept.fstack_, Fl_Help_Font_Stack.nfonts_pop] at hdepth
      refine ⟨by simp [htag], by simp [htag], fun _ => ?_, hcolor⟩
      simp only [view, decide_eq_false_iff_not]
      omega

/-- The law of `draw`: what an element needs for the font to be as it was. -/
theorem law (V : View) : Forest.Law (event V) Same Kept Room Element.Ok Element.enter view where
  refl _ := ⟨rfl, rfl, rfl, rfl⟩
  trans _ _ _ h h' := ⟨h'.font.trans h.font, h'.fsize.trans h.fsize, h'.fstack_.trans h.fstack_,
    h'.textcolor_.trans h.textcolor_⟩
  same_of_kept _ _ h := ⟨h.font, h.fsize, congrArg _ h.fstack_, h.textcolor_⟩
  view_kept _ _ h := by rw [view, view, h.fstack_, h.textcolor_]
  room_kept _ _ _ h hroom :=
    ⟨by rw [h.font, h.fstack_, hroom.font], by rw [h.fsize, h.fstack_, hroom.fsize],
      by rw [h.fstack_]; exact hroom.room⟩
  room_mono _ _ _ hle hroom := ⟨hroom.font, hroom.fsize, by have := hroom.room; omega⟩
  leaf o _ := step_other o.2
  room_opening _ e _ hroom := room_opening V e hroom
  view_opening _ e _ hroom := view_opening V e hroom
  closing _ _ _ _ hroom hkept hok := kept_closing hroom hkept hok
  needs _ _ _ _ hroom hkept hsame := ok_of_same hroom hkept hsame

end Draw

/-! ## Drawing a document -/

/-- Behind the closing tag of every element the font is as it was before its opening tag, in
each block from the colour the blocks before it left. -/
def BlocksRestored (V : View) : List NestedBlock → Nat → Prop
  | [], _ => True
  | b :: blocks, textcolor_ =>
    b.forest.Restores (Draw.event V) Draw.Same (initfont V textcolor_) ∧
      BlocksRestored V blocks (drawBlock V textcolor_ b.text).textcolor_

/-- The stack discipline of `draw`, and what follows from it when the document is drawn again. -/
structure Disciplined (V : View) (blocks : List NestedBlock) (textcolor_ : Nat) : Prop where
  restored : BlocksRestored V blocks textcolor_
  again : (draw V (blocks.map NestedBlock.text) (draw V (blocks.map NestedBlock.text) textcolor_).2).1 =
    (draw V (blocks.map NestedBlock.text) textcolor_).1

/-- No `CENTER` and no `UL`, no `DD` or `DL` in another kind of element, and no colour but the
one there is. -/
def NestedBlock.Ok (b : NestedBlock) (textcolor_ : Nat) : Prop :=
  b.forest.All Element.Ok Element.enter (false, textcolor_)

section blocks

variable (V : View) (b : NestedBlock) (textcolor_ : Nat)

theorem drawBlock_eq : drawBlock V textcolor_ b.text =
    b.forest.run (Draw.event V) (initfont V textcolor_) := by
  rw [Forest.run_eq_foldl, drawBlock, b.reads, List.foldl_map]
  rfl

theorem room_initfont : (initfont V textcolor_).Room b.forest.depth := by
  refine ⟨rfl, rfl, ?_⟩
  have hdepth := b.depth
  show 0 + b.forest.depth ≤ _
  omega

/-- The elements of a block are restored exactly if they meet the condition. -/
theorem block_restores_iff :
    b.forest.Restores (Draw.event V) Draw.Same (initfont V textcolor_) ↔ b.Ok textcolor_ :=
  (Draw.law V).restores_iff b.forest _ (room_initfont V b textcolor_)

/-- A block that meets the condition leaves the colour. -/
theorem textcolor_drawBlock {b : NestedBlock} {textcolor_ : Nat} (h : b.Ok textcolor_) :
    (drawBlock V textcolor_ b.text).textcolor_ = textcolor_ := by
  rw [drawBlock_eq]
  exact ((Draw.law V).kept_run b.forest _ (room_initfont V b textcolor_) h).textcolor_

end blocks

theorem blocksRestored_iff (V : View) (blocks : List NestedBlock) (textcolor_ : Nat) :
    BlocksRestored V blocks textcolor_ ↔ ∀ b ∈ blocks, b.Ok textcolor_ := by
  induction blocks with
  | nil => simp [BlocksRestored]
  | cons b blocks ih =>
    rw [BlocksRestored, block_restores_iff, List.forall_mem_cons]
    refine and_congr_right fun hok => ?_
    rw [textcolor_drawBlock V hok, ih]

theorem draw_textcolor (V : View) (blocks : List NestedBlock) (textcolor_ : Nat)
    (h : ∀ b ∈ blocks, b.Ok textcolor_) :
    (draw V (blocks.map NestedBlock.text) textcolor_).2 = textcolor_ := by
  induction blocks with
  | nil => rfl
  | cons b blocks ih =>
    rw [List.forall_mem_cons] at h
    show (draw V (blocks.map NestedBlock.text) (drawBlock V textcolor_ b.text).textcolor_).2 = _
    rw [textcolor_drawBlock V h.1, ih h.2]

/-- The block `<CENTER></CENTER>`. -/
def centerBlock : NestedBlock where
  text := ⟨ascii "<CENTER></CENTER>", 0⟩
  forest := .node ⟨.CENTER, ascii "></CENTER>", ascii ">", rfl⟩ .nil .nil
  reads := by decide +kernel
  depth := by decide

end LuaFltk.Help
