import LuaFltk.Lib.Compare
import LuaFltk.Help.Scan

/-!
# Names in a help document

The tables of `Fl_Help_View.cxx`: the quoted characters, the colours, and the font faces, with
the searches in them; and the tables and scans of `Fl_Help_View0.cxx` they replaced, in the
namespace `Original`.
-/

namespace LuaFltk.Help

open Lib

def tolower (c : UInt8) : UInt8 := if 65 ≤ c && c ≤ 90 then c + 32 else c

/-! ## The C library -/

/-- `strncmp`. -/
def strncmp (a b : Text) (n : Nat) : Int := compareBytes id n a b

/-- `strncasecmp`. -/
def strncasecmp (a b : Text) (n : Nat) : Int := compareBytes tolower n a b

/-- `strcasecmp`: the zero byte behind `b` ends the comparison. -/
def strcasecmp (a b : Text) : Int := compareBytes tolower (b.length + 1) a b

def isxdigit (c : UInt8) : Bool := isdigit c || (97 ≤ tolower c && tolower c ≤ 102)

def xdigit (c : UInt8) : Nat := if isdigit c then c.toNat - 48 else (tolower c).toNat - 87

/-- `strtol(l, NULL, 16)`, as an `int`. -/
def strtol16 (l : Text) : Int :=
  let r := l.dropWhile isspace
  let digits := fun d : Text =>
    let d := if strncasecmp d (ascii "0x") 2 = 0 ∧ isxdigit (deref (d.drop 2)) then d.drop 2 else d
    (d.takeWhile isxdigit).foldl (fun n c => 16 * n + (xdigit c : Int)) 0
  let long := match r with
    | 45 :: d => max (-(2 ^ 63)) (-(digits d))
    | 43 :: d => min (2 ^ 63 - 1) (digits d)
    | d => min (2 ^ 63 - 1) (digits d)
  long.bmod (2 ^ 32)

/-- `strlen`. -/
def strlen (l : Text) : Nat := (l.takeWhile (· ≠ 0)).length

/-! ## Quoted characters -/

structure QuoteName where
  name : String
  namelen : Nat
  code : Int
  deriving DecidableEq

/-- The second code, for another encoding, is dropped by `ENC`. -/
def QCHAR_ENTRY (aname : String) (i1 : Int) : QuoteName := ⟨aname, aname.length, i1⟩

/-- The rows of `quote_char`. -/
def names : List QuoteName :=
  [QCHAR_ENTRY "AElig;" 198, QCHAR_ENTRY "Aacute;" 193, QCHAR_ENTRY "Acirc;" 194,
    QCHAR_ENTRY "Agrave;" 192, QCHAR_ENTRY "Aring;" 197, QCHAR_ENTRY "Atilde;" 195,
    QCHAR_ENTRY "Auml;" 196, QCHAR_ENTRY "Ccedil;" 199, QCHAR_ENTRY "ETH;" 208,
    QCHAR_ENTRY "Eacute;" 201, QCHAR_ENTRY "Ecirc;" 202, QCHAR_ENTRY "Egrave;" 200,
    QCHAR_ENTRY "Euml;" 203, QCHAR_ENTRY "Iacute;" 205, QCHAR_ENTRY "Icirc;" 206,
    QCHAR_ENTRY "Igrave;" 204, QCHAR_ENTRY "Iuml;" 207, QCHAR_ENTRY "Ntilde;" 209,
    QCHAR_ENTRY "Oacute;" 211, QCHAR_ENTRY "Ocirc;" 212, QCHAR_ENTRY "Ograve;" 210,
    QCHAR_ENTRY "Oslash;" 216, QCHAR_ENTRY "Otilde;" 213, QCHAR_ENTRY "Ouml;" 214,
    QCHAR_ENTRY "THORN;" 222, QCHAR_ENTRY "Uacute;" 218, QCHAR_ENTRY "Ucirc;" 219,
    QCHAR_ENTRY "Ugrave;" 217, QCHAR_ENTRY "Uuml;" 220, QCHAR_ENTRY "Yacute;" 221,
    QCHAR_ENTRY "Yuml;" 159, QCHAR_ENTRY "aacute;" 225, QCHAR_ENTRY "acirc;" 226,
    QCHAR_ENTRY "acute;" 180, QCHAR_ENTRY "aelig;" 230, QCHAR_ENTRY "agrave;" 224,
    QCHAR_ENTRY "amp;" 38, QCHAR_ENTRY "aring;" 229, QCHAR_ENTRY "atilde;" 227,
    QCHAR_ENTRY "auml;" 228, QCHAR_ENTRY "brvbar;" 166, QCHAR_ENTRY "bull;" 149,
    QCHAR_ENTRY "ccedil;" 231, QCHAR_ENTRY "cedil;" 184, QCHAR_ENTRY "cent;" 162,
    QCHAR_ENTRY "copy;" 169, QCHAR_ENTRY "curren;" 164, QCHAR_ENTRY "deg;" 176,
    QCHAR_ENTRY "divide;" 247, QCHAR_ENTRY "eacute;" 233, QCHAR_ENTRY "ecirc;" 234,
    QCHAR_ENTRY "egrave;" 232, QCHAR_ENTRY "eth;" 240, QCHAR_ENTRY "euml;" 235,
    QCHAR_ENTRY "euro;" 128, QCHAR_ENTRY "frac12;" 189, QCHAR_ENTRY "frac14;" 188,
    QCHAR_ENTRY "frac34;" 190, QCHAR_ENTRY "gt;" 62, QCHAR_ENTRY "iacute;" 237,
    QCHAR_ENTRY "icirc;" 238, QCHAR_ENTRY "iexcl;" 161, QCHAR_ENTRY "igrave;" 236,
    QCHAR_ENTRY "iquest;" 191, QCHAR_ENTRY "iuml;" 239, QCHAR_ENTRY "laquo;" 171,
    QCHAR_ENTRY "lt;" 60, QCHAR_ENTRY "macr;" 175, QCHAR_ENTRY "micro;" 181,
    QCHAR_ENTRY "middot;" 183, QCHAR_ENTRY "nbsp;" 32, QCHAR_ENTRY "not;" 172,
    QCHAR_ENTRY "ntilde;" 241, QCHAR_ENTRY "oacute;" 243, QCHAR_ENTRY "ocirc;" 244,
    QCHAR_ENTRY "ograve;" 242, QCHAR_ENTRY "ordf;" 170, QCHAR_ENTRY "ordm;" 186,
    QCHAR_ENTRY "oslash;" 248, QCHAR_ENTRY "otilde;" 245, QCHAR_ENTRY "ouml;" 246,
    QCHAR_ENTRY "para;" 182, QCHAR_ENTRY "plusmn;" 177, QCHAR_ENTRY "pound;" 163,
    QCHAR_ENTRY "premil;" 137, QCHAR_ENTRY "quot;" 34, QCHAR_ENTRY "raquo;" 187,
    QCHAR_ENTRY "reg;" 174, QCHAR_ENTRY "sect;" 167, QCHAR_ENTRY "shy;" 173,
    QCHAR_ENTRY "sup1;" 185, QCHAR_ENTRY "sup2;" 178, QCHAR_ENTRY "sup3;" 179,
    QCHAR_ENTRY "szlig;" 223, QCHAR_ENTRY "thorn;" 254, QCHAR_ENTRY "times;" 215,
    QCHAR_ENTRY "trade;" 153, QCHAR_ENTRY "uacute;" 250, QCHAR_ENTRY "ucirc;" 251,
    QCHAR_ENTRY "ugrave;" 249, QCHAR_ENTRY "uml;" 168, QCHAR_ENTRY "uuml;" 252,
    QCHAR_ENTRY "yacute;" 253, QCHAR_ENTRY "yen;" 165, QCHAR_ENTRY "yuml;" 255]

/-- What `quote_char` does before it looks at the table: `none` if it goes on to it. -/
def quoteNumber (p : Text) : Option Int :=
  if (afterSemicolon p).isNone then some (-1)
  else if deref p = 35 then
    if deref p.tail = 120 ∨ deref p.tail = 88 then some (strtol16 (p.drop 2))
    else some (atoi p.tail)
  else none

/-- The row that the binary search of `quote_char` finds. -/
def findName (p : Text) : Option QuoteName :=
  binarySearch (fun e => strncmp p (ascii e.name) e.namelen) names 0 (names.length - 1 : Int)

/-- `quote_char`. -/
def quote_char (p : Text) : Int :=
  match quoteNumber p with
  | some c => c
  | none => ((findName p).map QuoteName.code).getD (-1)

/-! ## Colours -/

/-- `fl_rgb_color`. -/
def fl_rgb_color (r g b : Nat) : Nat :=
  if r = 0 ∧ g = 0 ∧ b = 0 then 0 else ((r * 256 + g) * 256 + b) * 256

structure ColorName where
  name : String
  r : Nat
  g : Nat
  b : Nat
  deriving DecidableEq

def ColorName.color (e : ColorName) : Nat := fl_rgb_color e.r e.g e.b

/-- The rows of `get_color`. -/
def colors : List ColorName :=
  [⟨"aqua", 0x00, 0xff, 0xff⟩, ⟨"black", 0x00, 0x00, 0x00⟩, ⟨"blue", 0x00, 0x00, 0xff⟩,
    ⟨"cyan", 0x00, 0xff, 0xff⟩, ⟨"fuchsia", 0xff, 0x00, 0xff⟩, ⟨"gray", 0x80, 0x80, 0x80⟩,
    ⟨"green", 0x00, 0x80, 0x00⟩, ⟨"grey", 0x80, 0x80, 0x80⟩, ⟨"lime", 0x00, 0xff, 0x00⟩,
    ⟨"magenta", 0xff, 0x00, 0xff⟩, ⟨"maroon", 0x80, 0x00, 0x00⟩, ⟨"navy", 0x00, 0x00, 0x80⟩,
    ⟨"olive", 0x80, 0x80, 0x00⟩, ⟨"purple", 0x80, 0x00, 0x80⟩, ⟨"red", 0xff, 0x00, 0x00⟩,
    ⟨"silver", 0xc0, 0xc0, 0xc0⟩, ⟨"teal", 0x00, 0x80, 0x80⟩, ⟨"white", 0xff, 0xff, 0xff⟩,
    ⟨"yellow", 0xff, 0xff, 0x00⟩]

/-- A cast to `uchar`. -/
def uchar (n : Int) : Nat := (n % 256).toNat

/-- What `get_color` does before it looks at the table: `none` if it goes on to it. -/
def colorNumber (n : Option Text) (c : Nat) : Option Nat :=
  match n with
  | none => some c
  | some n =>
    if deref n = 0 then some c
    else if deref n = 35 then
      let rgb := strtol16 n.tail
      if strlen n > 4 then
        some (fl_rgb_color (uchar (rgb >>> (16 : Nat))) (uchar (rgb >>> (8 : Nat))) (uchar rgb))
      else
        some (fl_rgb_color (uchar ((rgb >>> (8 : Nat)) * 17)) (uchar ((rgb >>> (4 : Nat)) % 16 * 17))
          (uchar (rgb % 16 * 17)))
    else none

/-- The row that the binary search of `get_color` finds. -/
def findColor (n : Text) : Option ColorName :=
  binarySearch (fun e => strcasecmp n (ascii e.name)) colors 0 (colors.length - 1 : Int)

/-- `get_color`. -/
def get_color (n : Option Text) (c : Nat) : Nat :=
  match colorNumber n c with
  | some c => c
  | none => ((findColor (n.getD [])).map ColorName.color).getD c

namespace Original

/-- The rows of `quote_char` in `Fl_Help_View0.cxx`. -/
def names : List QuoteName :=
  [⟨"Aacute;", 7, 193⟩, ⟨"aacute;", 7, 225⟩, ⟨"Acirc;", 6, 194⟩, ⟨"acirc;", 6, 226⟩,
    ⟨"acute;", 6, 180⟩, ⟨"AElig;", 6, 198⟩, ⟨"aelig;", 6, 230⟩, ⟨"Agrave;", 7, 192⟩,
    ⟨"agrave;", 7, 224⟩, ⟨"amp;", 4, 38⟩, ⟨"Aring;", 6, 197⟩, ⟨"aring;", 6, 229⟩,
    ⟨"Atilde;", 7, 195⟩, ⟨"atilde;", 7, 227⟩, ⟨"Auml;", 5, 196⟩, ⟨"auml;", 5, 228⟩,
    ⟨"brvbar;", 7, 166⟩, ⟨"bull;", 5, 149⟩, ⟨"Ccedil;", 7, 199⟩, ⟨"ccedil;", 7, 231⟩,
    ⟨"cedil;", 6, 184⟩, ⟨"cent;", 5, 162⟩, ⟨"copy;", 5, 169⟩, ⟨"curren;", 7, 164⟩,
    ⟨"deg;", 4, 176⟩, ⟨"divide;", 7, 247⟩, ⟨"Eacute;", 7, 201⟩, ⟨"eacute;", 7, 233⟩,
    ⟨"Ecirc;", 6, 202⟩, ⟨"ecirc;", 6, 234⟩, ⟨"Egrave;", 7, 200⟩, ⟨"egrave;", 7, 232⟩,
    ⟨"ETH;", 4, 208⟩, ⟨"eth;", 4, 240⟩, ⟨"Euml;", 5, 203⟩, ⟨"euml;", 5, 235⟩, ⟨"euro;", 5, 128⟩,
    ⟨"frac12;", 7, 189⟩, ⟨"frac14;", 7, 188⟩, ⟨"frac34;", 7, 190⟩, ⟨"gt;", 3, 62⟩,
    ⟨"Iacute;", 7, 205⟩, ⟨"iacute;", 7, 237⟩, ⟨"Icirc;", 6, 206⟩, ⟨"icirc;", 6, 238⟩,
    ⟨"iexcl;", 6, 161⟩, ⟨"Igrave;", 7, 204⟩, ⟨"igrave;", 7, 236⟩, ⟨"iquest;", 7, 191⟩,
    ⟨"Iuml;", 5, 207⟩, ⟨"iuml;", 5, 239⟩, ⟨"laquo;", 6, 171⟩, ⟨"lt;", 3, 60⟩,
    ⟨"macr;", 5, 175⟩, ⟨"micro;", 6, 181⟩, ⟨"middot;", 7, 183⟩, ⟨"nbsp;", 5, 32⟩,
    ⟨"not;", 4, 172⟩, ⟨"Ntilde;", 7, 209⟩, ⟨"ntilde;", 7, 241⟩, ⟨"Oacute;", 7, 211⟩,
    ⟨"oacute;", 7, 243⟩, ⟨"Ocirc;", 6, 212⟩, ⟨"ocirc;", 6, 244⟩, ⟨"Ograve;", 7, 210⟩,
    ⟨"ograve;", 7, 242⟩, ⟨"ordf;", 5, 170⟩, ⟨"ordm;", 5, 186⟩, ⟨"Oslash;", 7, 216⟩,
    ⟨"oslash;", 7, 248⟩, ⟨"Otilde;", 7, 213⟩, ⟨"otilde;", 7, 245⟩, ⟨"Ouml;", 5, 214⟩,
    ⟨"ouml;", 5, 246⟩, ⟨"para;", 5, 182⟩, ⟨"premil;", 7, 137⟩, ⟨"plusmn;", 7, 177⟩,
    ⟨"pound;", 6, 163⟩, ⟨"quot;", 5, 34⟩, ⟨"raquo;", 6, 187⟩, ⟨"reg;", 4, 174⟩,
    ⟨"sect;", 5, 167⟩, ⟨"shy;", 4, 173⟩, ⟨"sup1;", 5, 185⟩, ⟨"sup2;", 5, 178⟩, ⟨"sup3;", 5, 179⟩,
    ⟨"szlig;", 6, 223⟩, ⟨"THORN;", 6, 222⟩, ⟨"thorn;", 6, 254⟩, ⟨"times;", 6, 215⟩,
    ⟨"trade;", 6, 153⟩, ⟨"Uacute;", 7, 218⟩, ⟨"uacute;", 7, 250⟩, ⟨"Ucirc;", 6, 219⟩,
    ⟨"ucirc;", 6, 251⟩, ⟨"Ugrave;", 7, 217⟩, ⟨"ugrave;", 7, 249⟩, ⟨"uml;", 4, 168⟩,
    ⟨"Uuml;", 5, 220⟩, ⟨"uuml;", 5, 252⟩, ⟨"Yacute;", 7, 221⟩, ⟨"yacute;", 7, 253⟩,
    ⟨"yen;", 4, 165⟩, ⟨"Yuml;", 5, 159⟩, ⟨"yuml;", 5, 255⟩]

/-- `quote_char` of `Fl_Help_View0.cxx`. -/
def quote_char (p : Text) : Int :=
  match quoteNumber p with
  | some c => c
  | none =>
    ((names.find? fun e => strncmp p (ascii e.name) e.namelen = 0).map QuoteName.code).getD (-1)

/-- The rows of `get_color` in `Fl_Help_View0.cxx`. -/
def colors : List ColorName :=
  [⟨"black", 0x00, 0x00, 0x00⟩, ⟨"red", 0xff, 0x00, 0x00⟩, ⟨"green", 0x00, 0x80, 0x00⟩,
    ⟨"yellow", 0xff, 0xff, 0x00⟩, ⟨"blue", 0x00, 0x00, 0xff⟩, ⟨"magenta", 0xff, 0x00, 0xff⟩,
    ⟨"fuchsia", 0xff, 0x00, 0xff⟩, ⟨"cyan", 0x00, 0xff, 0xff⟩, ⟨"aqua", 0x00, 0xff, 0xff⟩,
    ⟨"white", 0xff, 0xff, 0xff⟩, ⟨"gray", 0x80, 0x80, 0x80⟩, ⟨"grey", 0x80, 0x80, 0x80⟩,
    ⟨"lime", 0x00, 0xff, 0x00⟩, ⟨"maroon", 0x80, 0x00, 0x00⟩, ⟨"navy", 0x00, 0x00, 0x80⟩,
    ⟨"olive", 0x80, 0x80, 0x00⟩, ⟨"purple", 0x80, 0x00, 0x80⟩, ⟨"silver", 0xc0, 0xc0, 0xc0⟩,
    ⟨"teal", 0x00, 0x80, 0x80⟩]

/-- `get_color` of `Fl_Help_View0.cxx`. -/
def get_color (n : Option Text) (c : Nat) : Nat :=
  match colorNumber n c with
  | some c => c
  | none =>
    ((colors.find? fun e => strcasecmp (n.getD []) (ascii e.name) = 0).map ColorName.color).getD c

end Original

/-! ## The searches -/

/-- The names are in the order of the binary search. -/
theorem chain_names : (names.map fun e => ascii e.name).IsChain Before := by decide +kernel

/-- So are the colours. -/
theorem chain_colors : (colors.map fun e => ascii e.name).IsChain Before := by decide +kernel

/-- Names are not folded, and their length is given. -/
theorem names_folded : ∀ e ∈ names, Folded id (ascii e.name) ∧ (ascii e.name).length = e.namelen := by
  decide +kernel

theorem colors_folded : ∀ e ∈ colors, Folded tolower (ascii e.name) := by decide +kernel

/-- Entity names are compared as far as the name goes. -/
theorem ordered_names (p : Text) : Ordered (fun e => strncmp p (ascii e.name) e.namelen) names :=
  ordered_compareBytes chain_names (fun e he => (names_folded e he).1)
    (fun e he => le_of_eq (names_folded e he).2) p

/-- Colours are compared to their ends. -/
theorem ordered_colors (n : Text) : Ordered (fun e => strcasecmp n (ascii e.name)) colors :=
  ordered_compareBytes chain_colors colors_folded (fun _ _ => Nat.le_succ _) n

theorem mem_names_iff (e : QuoteName) : e ∈ Original.names ↔ e ∈ names :=
  mem_iff_of_chain chain_names (by decide +kernel) (by decide) e

theorem mem_colors_iff (e : ColorName) : e ∈ Original.colors ↔ e ∈ colors :=
  mem_iff_of_chain chain_colors (by decide +kernel) (by decide) e

theorem tolower_eq_zero_iff (c : UInt8) : tolower c = 0 ↔ c = 0 := by
  unfold tolower
  split
  · next h =>
    simp only [Bool.and_eq_true, decide_eq_true_eq, UInt8.le_iff_toNat_le] at h
    have hge : 65 ≤ c.toNat := h.1
    have hle : c.toNat ≤ 90 := h.2
    rw [← UInt8.toNat_inj, ← UInt8.toNat_inj, UInt8.toNat_add]
    change (c.toNat + 32) % 256 = 0 ↔ c.toNat = 0
    omega
  · exact Iff.rfl

/-- The search of `quote_char` finds the row whose name the text begins with. -/
theorem findName_eq_some_iff (p : Text) (e : QuoteName) :
    findName p = some e ↔ e ∈ names ∧ p.take e.namelen = ascii e.name := by
  unfold findName
  rw [binarySearch_spec (ordered_names p) _ _ (le_refl 0) (by omega) within_all]
  apply and_congr_right
  intro he
  obtain ⟨hfold, hlen⟩ := names_folded e he
  have hzero := compareBytes_eq_zero_iff rfl hfold (p := p)
  rw [hlen, List.map_id] at hzero
  exact hzero

/-- The search of `get_color` finds the row whose name the string is, but for case. -/
theorem findColor_eq_some_iff (n : Text) (e : ColorName) :
    findColor n = some e ↔ e ∈ colors ∧ (n.takeWhile (· ≠ 0)).map tolower = ascii e.name := by
  unfold findColor
  rw [binarySearch_spec (ordered_colors n) _ _ (le_refl 0) (by omega) within_all]
  apply and_congr_right
  exact fun he => compareBytes_succ_eq_zero_iff tolower_eq_zero_iff (colors_folded e he)

/-- Both versions of `quote_char` agree. -/
theorem quote_char_eq (p : Text) : quote_char p = Original.quote_char p := by
  unfold quote_char Original.quote_char findName
  rw [binarySearch_eq_find? (ordered_names p) mem_names_iff]

/-- Both versions of `get_color` agree. -/
theorem get_color_eq (n : Option Text) (c : Nat) : get_color n c = Original.get_color n c := by
  unfold get_color Original.get_color findColor
  rw [binarySearch_eq_find? (ordered_colors _) mem_colors_iff]

/-- The binary searches give what the scans of the tables gave before they were sorted: for
each name its row, and none for anything else. -/
theorem searches_agree :
    (∀ p, quote_char p = Original.quote_char p) ∧
      (∀ n c, get_color n c = Original.get_color n c) ∧
      (∀ p e, findName p = some e ↔ e ∈ names ∧ p.take e.namelen = ascii e.name) ∧
      ∀ n e, findColor n = some e ↔
        e ∈ colors ∧ (n.takeWhile (· ≠ 0)).map tolower = ascii e.name :=
  ⟨quote_char_eq, get_color_eq, findName_eq_some_iff, findColor_eq_some_iff⟩

/-! ## Font faces -/

def FL_HELVETICA : Nat := 0
def FL_HELVETICA_BOLD : Nat := 1
def FL_COURIER : Nat := 4
def FL_COURIER_BOLD : Nat := 5
def FL_COURIER_ITALIC : Nat := 6
def FL_TIMES : Nat := 8
def FL_SYMBOL : Nat := 12

/-- `#aname` for a string literal, which keeps the quotes of the literal. -/
def stringize (aname : String) : Text := 34 :: (ascii aname ++ [34])

/-- The test of `ATTR_IS`; `sizeof` counts the zero byte. -/
def ATTR_IS (attr : Text) (aname : String) : Bool :=
  strncasecmp attr (stringize aname) ((stringize aname).length + 1) == 0

def get_attr_font (attr : Text) : Nat :=
  let c := tolower (deref attr)
  if c = 97 then
    if ATTR_IS attr "arial" then FL_HELVETICA else FL_COURIER
  else if c = 104 then
    if ATTR_IS attr "helvetica" then FL_HELVETICA else FL_COURIER
  else if c = 115 then
    let d := tolower (deref attr.tail)
    if d = 97 then
      if ATTR_IS attr "sans" then FL_HELVETICA else FL_COURIER
    else if d = 101 then
      if ATTR_IS attr "serif" then FL_TIMES else FL_COURIER
    else if d = 121 then
      if ATTR_IS attr "symbol" then FL_SYMBOL else FL_COURIER
    else FL_COURIER
  else if c = 116 then
    if ATTR_IS attr "times" then FL_TIMES else FL_COURIER
  else FL_COURIER

/-- `!strncasecmp(attr, face, strlen(face))`. -/
def startsWith (attr : Text) (face : String) : Bool :=
  strncasecmp attr (ascii face) (ascii face).length == 0

/-- The tests of `FACE` in `Fl_Help_View0.cxx`. -/
def Original.get_attr_font (attr : Text) : Nat :=
  if startsWith attr "helvetica" || startsWith attr "arial" || startsWith attr "sans" then
    FL_HELVETICA
  else if startsWith attr "times" || startsWith attr "serif" then FL_TIMES
  else if startsWith attr "symbol" then FL_SYMBOL
  else FL_COURIER

/-- The faces that the tests name. -/
def faces : List String := ["helvetica", "arial", "sans", "times", "serif", "symbol"]

/-- What `ATTR_IS` accepts begins with a quote. -/
theorem deref_of_ATTR_IS {attr : Text} {aname : String} (h : ATTR_IS attr aname = true) :
    tolower (deref attr) = 34 := by
  by_contra hne
  have hzero : strncasecmp attr (stringize aname) ((stringize aname).length + 1) = 0 := by
    simpa [ATTR_IS] using h
  rw [strncasecmp, stringize, compareBytes_of_ne rfl hne] at hzero
  exact hne (UInt8.toNat_inj.1 (by rw [deref]; omega))

theorem not_ATTR_IS {attr : Text} {aname : String} {c : UInt8} (h : tolower (deref attr) = c)
    (hc : c ≠ 34) : ATTR_IS attr aname = false := by
  by_contra htrue
  exact hc (h.symm.trans (deref_of_ATTR_IS (Bool.not_eq_false _ ▸ htrue)))

/-- Whatever the face, the font is Courier. -/
theorem get_attr_font_courier (attr : Text) : get_attr_font attr = FL_COURIER := by
  unfold get_attr_font
  by_cases ha : tolower (deref attr) = 97
  · simp [ha, not_ATTR_IS ha (by decide)]
  by_cases hh : tolower (deref attr) = 104
  · simp [hh, not_ATTR_IS hh (by decide)]
  by_cases hs : tolower (deref attr) = 115
  · simp [hs, not_ATTR_IS hs (by decide)]
  by_cases ht : tolower (deref attr) = 116
  · simp [ht, not_ATTR_IS ht (by decide)]
  simp [ha, hh, hs, ht]

/-- The font is that of the original tests exactly when the attribute begins with none of the
faces they name. -/
theorem get_attr_font_eq_iff (attr : Text) :
    get_attr_font attr = Original.get_attr_font attr ↔
      ∀ face ∈ faces, startsWith attr face = false := by
  rw [get_attr_font_courier, Original.get_attr_font]
  simp only [faces, List.forall_mem_cons]
  by_cases hsans : (startsWith attr "helvetica" || startsWith attr "arial" ||
      startsWith attr "sans") = true
  · rw [if_pos hsans]
    refine ⟨fun heq => absurd heq (by decide), ?_⟩
    intro ⟨hhelvetica, harial, hsans', _⟩
    simp [hhelvetica, harial, hsans'] at hsans
  by_cases hserif : (startsWith attr "times" || startsWith attr "serif") = true
  · rw [if_neg hsans, if_pos hserif]
    refine ⟨fun heq => absurd heq (by decide), ?_⟩
    intro ⟨_, _, _, htimes, hserif', _⟩
    simp [htimes, hserif'] at hserif
  by_cases hsymbol : startsWith attr "symbol" = true
  · rw [if_neg hsans, if_neg hserif, if_pos hsymbol]
    refine ⟨fun heq => absurd heq (by decide), ?_⟩
    intro ⟨_, _, _, _, _, hsymbol', _⟩
    exact absurd hsymbol (by simp [hsymbol'])
  · rw [if_neg hsans, if_neg hserif, if_neg hsymbol]
    refine ⟨fun _ => ?_, fun _ => rfl⟩
    simp_all

/-- The face `arial` gives Courier. -/
theorem arial_gives_courier :
    ¬ ∀ attr, get_attr_font attr = Original.get_attr_font attr := by
  intro hall
  have harial := hall (ascii "arial")
  rw [get_attr_font_courier] at harial
  exact absurd harial (by decide)

end LuaFltk.Help
