import Mathlib.Tactic

/-!
# Reading the text of a help document

The functions of `Fl_Help_View.cxx` that read the text: tags, their attributes and numbers.
A pointer into the text is the list of bytes from there on. The text ends at a zero byte, and
memory goes on behind it; what lies behind the list reads as zero.
-/

namespace LuaFltk.Help

/-- The text from a pointer on. -/
abbrev Text := List UInt8

/-- `*ptr`. -/
def deref (ptr : Text) : UInt8 := ptr.headD 0

def isspace (c : UInt8) : Bool := c == 32 || (9 ≤ c && c ≤ 13)

def isdigit (c : UInt8) : Bool := 48 ≤ c && c ≤ 57

def toupper (c : UInt8) : UInt8 := if 97 ≤ c && c ≤ 122 then c - 32 else c

def ascii (s : String) : Text := s.toList.map fun c => UInt8.ofNat c.toNat

/-- `strcasecmp(a, b) == 0`. -/
def strcaseeq (a b : Text) : Bool := a.map toupper == b.map toupper

/-- `atoi`: `strtol(l, NULL, 10)`, as an `int`. -/
def atoi (l : Text) : Int :=
  let r := l.dropWhile isspace
  let digits := fun d : Text => (d.takeWhile isdigit).foldl (fun n c => 10 * n + (c.toNat - 48)) 0
  let long : Int := match r with
    | 45 :: d => max (-(2 ^ 63)) (-(digits d : Nat))
    | 43 :: d => min (2 ^ 63 - 1) (digits d : Nat)
    | d => min (2 ^ 63 - 1) (digits d : Nat)
  long.bmod (2 ^ 32)

/-- `strstr(ptr, "-->") + 3`, when it is found. -/
def afterComment : Text → Option Text
  | [] => none
  | 45 :: 45 :: 62 :: l => some l
  | c :: l => if c = 0 then none else afterComment l

/-- `strchr(ptr, ';') + 1`, when it is found. -/
def afterSemicolon : Text → Option Text
  | [] => none
  | c :: l => if c = 59 then some l else if c = 0 then none else afterSemicolon l

/-- The end of the name of a tag. -/
def endsName (c : UInt8) : Bool := c == 0 || c == 62 || isspace c

/-- The end of the name of an attribute. -/
def endsAttr (c : UInt8) : Bool := c == 0 || isspace c || c == 61 || c == 62

/-- The end of a tag. -/
def endsTag (c : UInt8) : Bool := c == 0 || c == 62

/-- The value of an attribute, quotes removed, and where it ends. `n` bounds its length. -/
def attrValue (n : Nat) (value : Text) : Text → Text × Text
  | [] => (value.take n, [])
  | c :: p =>
    if endsName c then (value.take n, c :: p)
    else if c = 39 ∨ c = 34 then
      let inner := p.takeWhile fun d => d != 0 && d != c
      let rest := p.dropWhile fun d => d != 0 && d != c
      attrValue n (value ++ inner) (if deref rest = c then rest.tail else rest)
    else attrValue n (value ++ [c]) p
termination_by p => p.length
decreasing_by
  · have h := (List.dropWhile_suffix (fun d => d != 0 && d != c) (l := p)).length_le
    simp only [List.length_cons]
    split
    · rw [List.length_tail]
      omega
    · omega
  · simp

/-- `get_attr(p, n, buf, bufsize)`: the value of the attribute `n` of the tag whose
attributes are at `p`. -/
def get_attr (n : Text) (bufsize : Nat) (p : Text) : Option Text :=
  go (p.length + 1) p
where
  go : Nat → Text → Option Text
    | 0, _ => none
    | fuel + 1, p =>
      if endsTag (deref p) then none
      else
        let p := p.dropWhile isspace
        if endsTag (deref p) then none
        else
          let name := (p.takeWhile fun c => !endsAttr c).take 254
          let p := p.dropWhile fun c => !endsAttr c
          let (value, p) :=
            if isspace (deref p) || endsTag (deref p) then ([], p)
            else attrValue (bufsize - 1) [] p.tail
          if strcaseeq n name then some value
          else if deref p = 62 then none
          else go fuel p

/-- The tags that are told apart. -/
inductive Tag where
  | UNKNOWN
  | A
  | B
  | BODY
  | BR
  | BRV
  | CENTER
  | CODE
  | DD
  | DL
  | DT
  | EM
  | FONT
  | H (n : Nat)
  | HEAD
  | HR
  | HTML
  | I
  | IMG
  | KBD
  | LEFT
  | LI
  | OL
  | P
  | PRE
  | RIGHT
  | STRONG
  | TABLE
  | TITLE
  | TD
  | TH
  | TR
  | TT
  | U
  | UL
  | VAR
  deriving DecidableEq, Repr

/-- The names that `buffer_has_tag` knows. -/
def tagNames : List (String × Tag) :=
  [("A", .A), ("B", .B), ("BR", .BR), ("BRV", .BRV), ("BODY", .BODY), ("CENTER", .CENTER),
    ("CODE", .CODE), ("DD", .DD), ("DL", .DL), ("DT", .DT), ("EM", .EM), ("FONT", .FONT),
    ("H1", .H 1), ("H2", .H 2), ("H3", .H 3), ("H4", .H 4), ("H5", .H 5), ("H6", .H 6),
    ("HEAD", .HEAD), ("HR", .HR), ("HTML", .HTML), ("I", .I), ("IMG", .IMG), ("KBD", .KBD),
    ("LI", .LI), ("LEFT", .LEFT), ("OL", .OL), ("P", .P), ("PRE", .PRE), ("RIGHT", .RIGHT),
    ("STRONG", .STRONG), ("TABLE", .TABLE), ("TD", .TD), ("TH", .TH), ("TITLE", .TITLE),
    ("TR", .TR), ("TT", .TT), ("U", .U), ("UL", .UL), ("VAR", .VAR)]

def findTag (name : Text) : Tag :=
  ((tagNames.find? fun e => strcaseeq (ascii e.1) name).map Prod.snd).getD .UNKNOWN

/-- `match_tag + 1`: the closing tag, which no one asks for, except that for some tags the
enumeration has another tag there. -/
def Tag.succ : Tag → Tag
  | BR => BRV
  | BRV => CENTER
  | EM => FONT
  | HR => HTML
  | IMG => KBD
  | TITLE => TD
  | _ => UNKNOWN

def buffer_has_tag (buf : Text) : Tag :=
  match buf with
  | 47 :: name => (findTag name).succ
  | name => findTag name

/-- A tag as `format` reads it at `ptr`, behind the `<`: whether it is a closing tag, which
one, where its attributes are, and the text behind it. -/
structure TagAt where
  is_close_tag : Bool
  buf_tag : Tag
  attrs : Text
  ptr : Text

def readTagAt (ptr : Text) : TagAt :=
  let buf := (ptr.takeWhile fun c => !endsName c).take 1023
  let attrs := ptr.dropWhile fun c => !endsName c
  let rest := attrs.dropWhile fun c => !endsTag c
  { is_close_tag := deref buf == 47
    buf_tag := buffer_has_tag (if deref buf = 47 then buf.tail else buf)
    attrs := attrs
    ptr := if deref rest = 62 then rest.tail else rest }

end LuaFltk.Help
