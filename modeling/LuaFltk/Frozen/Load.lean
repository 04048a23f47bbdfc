import LuaFltk.Frozen.Decrypt
import Mathlib.Data.List.TakeWhile

/-!
# Loading a frozen script

`LoadFrozenScript` of `lua.c`. A frozen script stands at the end of a file, before a tag of
29 bytes that says how long it is. An `int` has 32 bits and a `long` 64; reading a file that
could be opened does not fail.
-/

namespace LuaFltk.Frozen

def END_TAG_LEN : Nat := 29

/-- Conversion to `int`. -/
@[irreducible] def toInt (n : Int) : Int := n.bmod 4294967296

/-- Conversion to `long`. -/
@[irreducible] def toLong (n : Int) : Int := n.bmod 18446744073709551616

/-- Conversion to `size_t`. -/
@[irreducible] def toSize (n : Int) : Nat := (n % 18446744073709551616).toNat

def INT_MAX : Int := 2147483647
def LONG_MAX : Int := 9223372036854775807
def LONG_MIN : Int := -9223372036854775808

def isspace (c : UInt8) : Bool := c == 32 || (9 ≤ c && c ≤ 13)

def isdigit (c : UInt8) : Bool := 48 ≤ c && c ≤ 57

/-- The number a string of decimal digits stands for. -/
def digitsValue (d : List UInt8) : Nat := d.foldl (fun n c => 10 * n + (c.toNat - 48)) 0

/-- An optional sign: whether it is a minus, and the rest. -/
def scanSign : List UInt8 → Bool × List UInt8
  | 45 :: l => (true, l)
  | 43 :: l => (false, l)
  | l => (false, l)

/-- The conversion `%ld`: blanks, a sign and digits; a number outside `long` becomes its
nearest bound. -/
def scanLong (l : List UInt8) : Option Int :=
  let r := scanSign (l.dropWhile isspace)
  let d := r.2.takeWhile isdigit
  if d = [] then none
  else if r.1 then some (max LONG_MIN (-digitsValue d))
  else some (min LONG_MAX (digitsValue d))

def ascii (s : String) : List UInt8 := s.toList.map fun c => UInt8.ofNat c.toNat

/-- `sscanf(tag_buf, "<DAD:%ld>ooOo(^.^)oOoo", &script_len)`, when it returns 1. What follows
the number is not looked at: the result counts conversions. -/
def sscanf (tag_buf : List UInt8) : Option Int :=
  let text := tag_buf.takeWhile (· != 0)
  if text.take 5 = ascii "<DAD:" then scanLong (text.drop 5) else none

/-- What the function meets: the answers of `malloc`, and the memory it gets. -/
structure Env where
  malloc : Nat → Bool
  memory : Memory

/-- What the function does: its result, the size asked of `malloc`, the place and number of
the bytes read for the script, the ranges of the buffer written to, and the text that is
loaded and run. -/
structure Outcome where
  ret : Int
  malloc : Option Nat
  source : Option (Int × Nat)
  writes : List (Int × Int)
  run : Option (List UInt8)

/-- Leave before anything is allocated. -/
def giveUp (ret : Int) : Outcome := ⟨ret, none, none, [], none⟩

/-- The bytes `fread` gets for the script. -/
def scriptData (f : List UInt8) (start script_len : Int) : List UInt8 :=
  (f.drop start.toNat).take (toSize script_len)

/-- The buffer after reading: the `memset` has cleared `sizeof(script_len+10)` bytes, and
`script[script_len]` is 0. -/
def scriptBuffer (env : Env) (data : List UInt8) (script_len : Int) : Memory := fun i =>
  if (i : Int) = script_len then 0 else data[i]?.getD (if i < 8 then 0 else env.memory i)

/-- The second half of the function, with the file at `start`. -/
def loadScript (env : Env) (f : List UInt8) (start script_len : Int) : Outcome :=
  if env.malloc (toSize (script_len + 10)) then
    let data := scriptData f start script_len
    let plain := simdecrypt (scriptBuffer env data script_len) (toInt script_len)
    { ret := 0
      malloc := some (toSize (script_len + 10))
      source := some (start, data.length)
      writes := [(0, 8), (0, data.length), (script_len, script_len + 1), (0, plain.1)]
      run := some (bytes plain.2.1 plain.1.toNat) }
  else
    { ret := 0
      malloc := some (toSize (script_len + 10))
      source := none
      writes := []
      run := some [] }

/-- `fileSize-END_TAG_LEN`, where the tag is looked for. -/
def tagPos (f : List UInt8) : Int := toInt (toInt f.length - END_TAG_LEN)

/-- What `fread` puts into `tag_buf`. -/
def tagBuf (f : List UInt8) : List UInt8 := (f.drop (tagPos f).toNat).take END_TAG_LEN

/-- The first half of the function: where the script starts and how long the tag says it
is, or the early result. -/
def readTag (f : List UInt8) (only_check : Bool) : Except Int (Int × Int) :=
  if tagPos f < 0 then .error (-1)
  else if (tagBuf f).length ≠ END_TAG_LEN then .error (-1)
  else match sscanf (tagBuf f) with
    | none => .error (if only_check then -2 else -1)
    | some script_len =>
      if toLong (tagPos f - script_len) < 0 then .error (-1)
      else .ok (toLong (tagPos f - script_len), script_len)

/-- The rest of the function, after its first half. -/
def afterTag (env : Env) (f : List UInt8) : Except Int (Int × Int) → Outcome
  | .error r => giveUp r
  | .ok (start, script_len) => loadScript env f start script_len

def LoadFrozenScript (env : Env) (file : Option (List UInt8)) (only_check : Bool) : Outcome :=
  match file with
  | none => giveUp (-1)
  | some f => afterTag env f (readTag f only_check)

/-! ## What the format means -/

/-- The file ends in a complete tag whose length is `n`, and holds that many bytes before
the tag. -/
def EndsInTag (f : List UInt8) (n : Nat) : Prop :=
  END_TAG_LEN + n ≤ f.length ∧ ∃ d : List UInt8, d.length = 10 ∧ (∀ c ∈ d, isdigit c) ∧
    f.drop (f.length - END_TAG_LEN) = ascii "<DAD:" ++ d ++ ascii ">ooOo(^.^)oOoo" ∧
    digitsValue d = n

/-- The script in front of the tag, encrypted. -/
def payload (f : List UInt8) (n : Nat) : List UInt8 := (f.drop (f.length - END_TAG_LEN - n)).take n

/-- The script in front of the tag is run: the `n` bytes there are read into a buffer that
holds all that is written, and their decryption is what runs. -/
structure RunsScript (f : List UInt8) (n : Nat) (o : Outcome) : Prop where
  source : o.source = some ((f.length : Int) - END_TAG_LEN - n, n)
  text : ∃ toks, cut (payload f n) = some toks ∧ o.run = some (decodeFrom 0 toks)
  inside : ∃ size, o.malloc = some size ∧ ∀ w ∈ o.writes, 0 ≤ w.1 ∧ w.2 ≤ size

/-- Nothing happens, and the result tells so. -/
structure Rejects (only_check : Bool) (o : Outcome) : Prop where
  ret : o.ret = -1 ∨ (only_check = true ∧ o.ret = -2)
  malloc : o.malloc = none
  writes : o.writes = []
  run : o.run = none

/-- What the function owes for the file `f`. -/
structure LoadsRight (f : List UInt8) (only_check : Bool) (o : Outcome) : Prop where
  runs : only_check = false → ∀ n, EndsInTag f n → RunsScript f n o
  checks : only_check = true → o.run = none
  rejects : (¬ ∃ n, EndsInTag f n) → Rejects only_check o

/-! ## The tag -/

theorem toInt_of_range {n : Int} (h0 : 0 ≤ n) (h1 : n ≤ INT_MAX) : toInt n = n := by
  unfold INT_MAX at h1
  unfold toInt
  rw [Int.bmod_eq_of_le] <;> omega

theorem toInt_le (n : Int) : toInt n ≤ INT_MAX := by
  have := Int.bmod_lt (x := n) (m := 4294967296) (by decide)
  unfold toInt INT_MAX
  omega

theorem toInt_sub (n k : Int) : toInt (toInt n - k) = toInt (n - k) := by
  unfold toInt
  have h : (n.bmod 4294967296 - k) % ((4294967296 : Nat) : Int) =
      (n - k) % ((4294967296 : Nat) : Int) := by
    rw [Int.sub_emod, Int.bmod_emod, ← Int.sub_emod]
  rw [Int.bmod_def (n.bmod 4294967296 - k), Int.bmod_def (n - k), h]

theorem toLong_of_range {n : Int} (h0 : LONG_MIN ≤ n) (h1 : n ≤ LONG_MAX) : toLong n = n := by
  unfold LONG_MIN at h0
  unfold LONG_MAX at h1
  unfold toLong
  rw [Int.bmod_eq_of_le] <;> omega

theorem toSize_of_lt {n : Nat} (h : n < 18446744073709551616) : toSize n = n := by
  unfold toSize
  omega

theorem digitsValue_lt {d : List UInt8} (h : ∀ c ∈ d, isdigit c) :
    digitsValue d < 10 ^ d.length := by
  induction d using List.reverseRecOn with
  | nil => simp [digitsValue]
  | append_singleton d c ih =>
    have hd := ih fun x hx => h x (by simp [hx])
    have hc : c.toNat ≤ 57 := by
      have := h c (by simp)
      simp only [isdigit, Bool.and_eq_true, decide_eq_true_eq, UInt8.le_iff_toNat_le] at this
      simpa using this.2
    have hlen : 10 ^ (d ++ [c]).length = 10 * 10 ^ d.length := by
      rw [List.length_append, List.length_singleton, Nat.pow_succ, Nat.mul_comm]
    have hval : digitsValue (d ++ [c]) = 10 * digitsValue d + (c.toNat - 48) := by
      simp [digitsValue]
    rw [hlen, hval]
    omega

/-- A complete tag is scanned to its number. -/
theorem sscanf_tag {d : List UInt8} (hlen : d.length = 10) (hd : ∀ c ∈ d, isdigit c) :
    sscanf (ascii "<DAD:" ++ d ++ ascii ">ooOo(^.^)oOoo") = some (digitsValue d : Int) := by
  have hdigit : ∀ c ∈ d, 48 ≤ c.toNat ∧ c.toNat ≤ 57 := by
    intro c hc
    have := hd c hc
    simp only [isdigit, Bool.and_eq_true, decide_eq_true_eq, UInt8.le_iff_toNat_le] at this
    simpa using this
  have hzero : ∀ c ∈ ascii "<DAD:" ++ d ++ ascii ">ooOo(^.^)oOoo", (c != 0) = true := by
    intro c hc
    have hopen : ∀ c ∈ ascii "<DAD:", (c != 0) = true := by decide +kernel
    have hclose : ∀ c ∈ ascii ">ooOo(^.^)oOoo", (c != 0) = true := by decide +kernel
    rcases List.mem_append.1 hc with hc | hc
    · rcases List.mem_append.1 hc with hc | hc
      · exact hopen c hc
      · have := (hdigit c hc).1
        simp only [bne_iff_ne, ne_eq]
        rintro rfl
        simp at this
    · exact hclose c hc
  obtain ⟨c, l, rfl⟩ := List.exists_cons_of_length_pos (l := d) (by omega)
  have hc := hdigit c (by simp)
  have hspace : isspace c = false := by
    simp only [isspace, Bool.or_eq_false_iff, beq_eq_false_iff_ne, Bool.and_eq_false_iff,
      decide_eq_false_iff_not, UInt8.le_iff_toNat_le]
    refine ⟨?_, .inr ?_⟩
    · rintro rfl
      simp at hc
    · simp
      omega
  have htake : (c :: l ++ ascii ">ooOo(^.^)oOoo").takeWhile isdigit = c :: l := by
    rw [List.takeWhile_append_of_pos hd]
    simp [ascii, isdigit]
  have h45 : c ≠ 45 := by rintro rfl; simp at hc
  have h43 : c ≠ 43 := by rintro rfl; simp at hc
  have hlt := digitsValue_lt hd
  rw [hlen] at hlt
  simp only [sscanf, List.takeWhile_eq_self_iff.2 hzero]
  rw [List.append_assoc, List.take_left' (by rfl), List.drop_left' (by rfl), if_pos rfl]
  unfold scanLong
  have hdrop : (c :: l ++ ascii ">ooOo(^.^)oOoo").dropWhile isspace =
      c :: l ++ ascii ">ooOo(^.^)oOoo" := by
    rw [List.cons_append, List.dropWhile_cons_of_neg (by simp [hspace])]
  have hsign : scanSign (c :: l ++ ascii ">ooOo(^.^)oOoo") =
      (false, c :: l ++ ascii ">ooOo(^.^)oOoo") := by
    rw [List.cons_append]
    unfold scanSign
    split
    · next h => exact absurd (List.cons.inj h).1 h45
    · next h => exact absurd (List.cons.inj h).1 h43
    · rfl
  rw [hdrop, hsign]
  dsimp only
  rw [htake, if_neg (by simp), if_neg (by simp)]
  unfold LONG_MAX
  congr 1
  omega

theorem EndsInTag.lt {f : List UInt8} {n : Nat} (h : EndsInTag f n) : n < 10000000000 := by
  obtain ⟨-, d, hlen, hd, -, rfl⟩ := h
  have := digitsValue_lt hd
  rwa [hlen] at this

/-- The complete tag of a file is found when it starts below 2^31. -/
theorem readTag_of_tag {f : List UInt8} {n : Nat} (only_check : Bool) (h : EndsInTag f n)
    (hsize : (f.length : Int) ≤ INT_MAX + END_TAG_LEN) :
    readTag f only_check = .ok ((f.length : Int) - END_TAG_LEN - n, (n : Int)) := by
  have hlt := h.lt
  obtain ⟨hle, d, hlen, hd, hdrop, hn⟩ := h
  have hpos : tagPos f = (f.length : Int) - END_TAG_LEN := by
    rw [tagPos, toInt_sub, toInt_of_range] <;> omega
  have hnat : ((f.length : Int) - END_TAG_LEN).toNat = f.length - END_TAG_LEN := by omega
  have hbuf : tagBuf f = ascii "<DAD:" ++ d ++ ascii ">ooOo(^.^)oOoo" := by
    rw [tagBuf, hpos, hnat, ← hdrop, List.take_of_length_le]
    rw [List.length_drop]
    omega
  have hblen : (tagBuf f).length = END_TAG_LEN := by
    rw [tagBuf, hpos, hnat, List.length_take, List.length_drop]
    omega
  have hstart : toLong ((f.length : Int) - END_TAG_LEN - n) = (f.length : Int) - END_TAG_LEN - n :=
    toLong_of_range (by unfold LONG_MIN; omega) (by unfold LONG_MAX; unfold INT_MAX at hsize; omega)
  unfold readTag
  rw [if_neg (by omega), if_neg (by simp [hblen]), hbuf, sscanf_tag hlen hd, hn]
  simp only [hpos, hstart]
  rw [if_neg (by omega)]

/-- Where the tag is looked for the number `n` can be scanned, and counting `n` back from
there does not leave the file at its front. -/
def ScansAs (f : List UInt8) (n : Int) : Prop :=
  0 ≤ tagPos f ∧ (tagBuf f).length = END_TAG_LEN ∧ sscanf (tagBuf f) = some n ∧
    0 ≤ toLong (tagPos f - n)

theorem readTag_eq_ok_iff {f : List UInt8} {only_check : Bool} {start n : Int} :
    readTag f only_check = .ok (start, n) ↔ ScansAs f n ∧ start = toLong (tagPos f - n) := by
  unfold readTag ScansAs
  constructor
  · intro h
    split at h
    · cases h
    · next hpos =>
      split at h
      · cases h
      · next hlen =>
        split at h
        · cases h
        · next m hm =>
          split at h
          · cases h
          · next hstart =>
            cases h
            exact ⟨⟨not_lt.1 hpos, not_not.1 hlen, hm, not_lt.1 hstart⟩, rfl⟩
  · rintro ⟨⟨hpos, hlen, hscan, hstart⟩, heq⟩
    rw [if_neg (not_lt.2 hpos), if_neg (not_not.2 hlen), hscan]
    dsimp only
    rw [if_neg (not_lt.2 hstart), ← heq]

theorem readTag_error {f : List UInt8} {only_check : Bool} {r : Int}
    (h : readTag f only_check = .error r) : r = -1 ∨ (only_check = true ∧ r = -2) := by
  unfold readTag at h
  split at h
  · exact .inl (Except.error.inj h).symm
  · split at h
    · exact .inl (Except.error.inj h).symm
    · split at h
      · cases only_check <;> simp_all
      · split at h
        · exact .inl (Except.error.inj h).symm
        · cases h

theorem scanLong_bounds {l : List UInt8} {n : Int} (h : scanLong l = some n) :
    LONG_MIN ≤ n ∧ n ≤ LONG_MAX := by
  unfold scanLong at h
  dsimp only at h
  unfold LONG_MIN LONG_MAX at *
  split at h
  · cases h
  · split at h <;> simp only [Option.some.injEq] at h <;> omega

/-- What is known when the first half of the function succeeds. -/
theorem readTag_inv {f : List UInt8} {only_check : Bool} {start n : Int}
    (h : readTag f only_check = .ok (start, n)) :
    0 ≤ tagPos f ∧ start = toLong (tagPos f - n) ∧ 0 ≤ start ∧ LONG_MIN ≤ n ∧ n ≤ LONG_MAX := by
  obtain ⟨⟨hpos, -, hscan, hstart⟩, rfl⟩ := readTag_eq_ok_iff.1 h
  unfold sscanf at hscan
  dsimp only at hscan
  split at hscan
  · exact ⟨hpos, rfl, hstart, scanLong_bounds hscan⟩
  · cases hscan

/-! ## The script -/

theorem exists_cut_of_nonzero {l : List UInt8} (h : ∀ b ∈ l, b ≠ 0) :
    ∃ toks, cut l = some toks := by
  induction l with
  | nil => exact ⟨[], rfl⟩
  | cons b l ih =>
    obtain ⟨toks, ht⟩ := ih fun x hx => h x (by simp [hx])
    exact ⟨_, by rw [cut_plain (h b (by simp)), ht]; rfl⟩

theorem length_payload {f : List UInt8} {n : Nat} (h : EndsInTag f n) :
    (payload f n).length = n := by
  have := h.1
  rw [payload, List.length_take, List.length_drop]
  omega

/-- The buffer of a script whose length is right starts with the script. -/
theorem bytes_scriptBuffer (env : Env) {f : List UInt8} {n : Nat} (h : EndsInTag f n) :
    bytes (scriptBuffer env (payload f n) n) n = payload f n := by
  have hplen := length_payload h
  have := (bytes_eq_iff (s := scriptBuffer env (payload f n) n) (l := payload f n)).2
    fun i hi => by
      have hin : ¬ (i : Int) = n := by omega
      rw [scriptBuffer, if_neg hin, List.getElem?_eq_getElem hi, Option.getD_some]
  rwa [hplen] at this

/-- With a complete tag that starts below 2^31, and memory, the second half works on the
script in front of the tag. -/
theorem loadScript_of_tag {f : List UInt8} {n : Nat} {env : Env} (h : EndsInTag f n)
    (hsize : (f.length : Int) ≤ INT_MAX + END_TAG_LEN) (hm : env.malloc (n + 10) = true) :
    loadScript env f ((f.length : Int) - END_TAG_LEN - n) n =
      { ret := 0
        malloc := some (n + 10)
        source := some ((f.length : Int) - END_TAG_LEN - n, n)
        writes := [(0, 8), (0, n), (n, n + 1), (0, n)]
        run := some (bytes (simdecrypt (scriptBuffer env (payload f n) n) n).2.1 n) } := by
  have hle := h.1
  have hlt := h.lt
  have hsz : toSize ((n : Int) + 10) = n + 10 := by
    exact_mod_cast toSize_of_lt (n := n + 10) (by omega)
  have hint : toInt (n : Int) = n := toInt_of_range (by omega) (by omega)
  have hdata : scriptData f ((f.length : Int) - END_TAG_LEN - n) n = payload f n := by
    have hnat : ((f.length : Int) - END_TAG_LEN - n).toNat = f.length - END_TAG_LEN - n := by omega
    rw [scriptData, toSize_of_lt (by omega), hnat, payload]
  have hret : ∀ s, (simdecrypt s (n : Int)).1 = n := fun s => by simp [simdecrypt]
  unfold loadScript
  rw [hsz, if_pos hm, hdata, hint]
  dsimp only
  rw [hret, length_payload h, Int.toNat_natCast]

/-- A script in front of a complete tag that starts below 2^31 runs decrypted exactly when
it has no zero byte and `malloc` succeeds. -/
theorem runsScript_iff {f : List UInt8} {n : Nat} {env : Env} (h : EndsInTag f n)
    (hsize : (f.length : Int) ≤ INT_MAX + END_TAG_LEN) :
    RunsScript f n (loadScript env f ((f.length : Int) - END_TAG_LEN - n) n) ↔
      env.malloc (n + 10) = true ∧ ∀ b ∈ payload f n, b ≠ 0 := by
  have hle := h.1
  have hplen := length_payload h
  have hbytes := bytes_scriptBuffer env h
  by_cases hm : env.malloc (n + 10) = true
  · rw [loadScript_of_tag h hsize hm]
    constructor
    · rintro ⟨-, ⟨toks, hcut, hrun⟩, -⟩
      have hlen := congrArg List.length (Option.some.inj hrun)
      rw [length_bytes, length_decodeFrom] at hlen
      exact ⟨hm, (length_of_cut hcut).2 (by rw [← hlen, hplen])⟩
    · rintro ⟨-, hb⟩
      obtain ⟨toks, hcut⟩ := exists_cut_of_nonzero hb
      have hzero : ∀ i < n, scriptBuffer env (payload f n) n i ≠ 0 := fun i hi => by
        have hmem := apply_mem_bytes (scriptBuffer env (payload f n) n) hi
        rw [hbytes] at hmem
        exact hb _ hmem
      have hd := (decrypts_iff (by rw [hbytes]; exact hcut)).2 hzero
      have hlen := hd.count
      have hfront := hd.front
      simp only [simdecrypt, Int.toNat_natCast] at hlen
      rw [← Int.natCast_inj.1 hlen] at hfront
      refine ⟨rfl, ⟨toks, hcut, by rw [hfront]⟩, n + 10, rfl, ?_⟩
      simp only [List.mem_cons, List.not_mem_nil, or_false]
      rintro w (rfl | rfl | rfl | rfl) <;> constructor <;> dsimp only <;> push_cast <;> omega
  · refine iff_of_false ?_ fun hc => hm hc.1
    rintro ⟨hsrc, -, -⟩
    have hlt := h.lt
    have hsz : toSize ((n : Int) + 10) = n + 10 := by
      exact_mod_cast toSize_of_lt (n := n + 10) (by omega)
    unfold loadScript at hsrc
    rw [hsz, if_neg hm] at hsrc
    exact absurd hsrc (by simp)

/-- When the second half reads the `n` bytes in front of the tag, it read the tag where it
is and took its number. -/
theorem source_inv {env : Env} {f : List UInt8} {only_check : Bool} {start script_len : Int}
    {n : Nat} (hread : readTag f only_check = .ok (start, script_len)) (h : EndsInTag f n)
    (hsrc : (loadScript env f start script_len).source =
      some ((f.length : Int) - END_TAG_LEN - n, n)) :
    start = (f.length : Int) - END_TAG_LEN - n ∧ script_len = n ∧
      (f.length : Int) ≤ INT_MAX + END_TAG_LEN := by
  obtain ⟨hpos, hstart, h0, hmin, hmax⟩ := readTag_inv hread
  have hle := h.1
  have hlt := h.lt
  have htag : tagPos f ≤ INT_MAX := toInt_le _
  have htaglen : END_TAG_LEN = 29 := rfl
  unfold INT_MAX at htag ⊢
  unfold LONG_MIN at hmin
  unfold LONG_MAX at hmax
  unfold loadScript at hsrc
  split at hsrc
  · simp only [Option.some.injEq, Prod.mk.injEq] at hsrc
    obtain ⟨hs, hlen⟩ := hsrc
    rw [scriptData, List.length_take, List.length_drop, hs] at hlen
    have hsize : toSize script_len = n := by omega
    have hn : script_len = n := by
      unfold toSize at hsize
      omega
    have hlong : toLong (tagPos f - script_len) = tagPos f - script_len :=
      toLong_of_range (by unfold LONG_MIN; omega) (by unfold LONG_MAX; omega)
    refine ⟨hs, hn, ?_⟩
    omega
  · simp at hsrc

/-- When `LoadFrozenScript` does what it should: no such number can be scanned, and the file
has no complete tag (or is only checked); or the script is to run, its complete tag starts
below 2^31, it has no zero byte, and memory is found for it. -/
def LoadsWhen (env : Env) (f : List UInt8) (only_check : Bool) : Prop :=
  ((¬ ∃ n, ScansAs f n) ∧ (only_check = true ∨ ¬ ∃ n, EndsInTag f n)) ∨
    (only_check = false ∧ (f.length : Int) ≤ INT_MAX + END_TAG_LEN ∧
      ∃ n, EndsInTag f n ∧ env.malloc (n + 10) = true ∧ ∀ b ∈ payload f n, b ≠ 0)

theorem giveUp_loadsRight_iff {f : List UInt8} {only_check : Bool} {r : Int}
    (hr : r = -1 ∨ (only_check = true ∧ r = -2)) :
    LoadsRight f only_check (giveUp r) ↔ only_check = true ∨ ¬ ∃ n, EndsInTag f n := by
  constructor
  · intro h
    by_contra hc
    obtain ⟨hno, htag⟩ := not_or.1 hc
    obtain ⟨n, hn⟩ := not_not.1 htag
    have hsrc := (h.runs (by simpa using hno) n hn).source
    simp [giveUp] at hsrc
  · intro h
    refine ⟨fun hno n hn => ?_, fun _ => rfl, fun _ => ⟨hr, rfl, rfl, rfl⟩⟩
    rcases h with h | h
    · simp [hno] at h
    · exact absurd ⟨n, hn⟩ h

theorem loadScript_acts (env : Env) (f : List UInt8) (start script_len : Int) :
    (loadScript env f start script_len).malloc ≠ none ∧
      (loadScript env f start script_len).run ≠ none := by
  unfold loadScript
  split <;> simp

/-- `LoadFrozenScript` is right on a file exactly when `LoadsWhen` holds. -/
theorem loadFrozenScript_right_iff (env : Env) (f : List UInt8) (only_check : Bool) :
    LoadsRight f only_check (LoadFrozenScript env (some f) only_check) ↔
      LoadsWhen env f only_check := by
  show LoadsRight f only_check (afterTag env f (readTag f only_check)) ↔ _
  cases hread : readTag f only_check with
  | error r =>
    have hscan : ¬ ∃ n, ScansAs f n := by
      rintro ⟨n, hn⟩
      rw [readTag_eq_ok_iff.2 ⟨hn, rfl⟩] at hread
      cases hread
    refine (giveUp_loadsRight_iff (readTag_error hread)).trans ⟨fun h => .inl ⟨hscan, h⟩, ?_⟩
    rintro (⟨-, h⟩ | ⟨-, hsize, n, hn, -⟩)
    · exact h
    · rw [readTag_of_tag _ hn hsize] at hread
      cases hread
  | ok p =>
    obtain ⟨start, script_len⟩ := p
    show LoadsRight f only_check (loadScript env f start script_len) ↔ _
    obtain ⟨hmalloc, hrun⟩ := loadScript_acts env f start script_len
    constructor
    · intro h
      have hno : only_check = false := by
        by_contra hc
        exact hrun (h.checks (by simpa using hc))
      obtain ⟨n, hn⟩ : ∃ n, EndsInTag f n := by
        by_contra hc
        exact hmalloc (h.rejects hc).malloc
      have hruns := h.runs hno n hn
      obtain ⟨rfl, rfl, hsize⟩ := source_inv hread hn hruns.source
      exact .inr ⟨hno, hsize, n, hn, (runsScript_iff hn hsize).1 hruns⟩
    · rintro (⟨hscan, -⟩ | ⟨hno, hsize, n, hn, hok⟩)
      · exact absurd ⟨_, (readTag_eq_ok_iff.1 hread).1⟩ hscan
      · rw [readTag_of_tag _ hn hsize] at hread
        simp only [Except.ok.injEq, Prod.mk.injEq] at hread
        obtain ⟨rfl, rfl⟩ := hread
        refine ⟨fun _ m hm => ?_, fun hc => ?_, fun hc => absurd ⟨n, hn⟩ hc⟩
        · have heq := (readTag_of_tag only_check hm hsize).symm.trans
            (readTag_of_tag only_check hn hsize)
          simp only [Except.ok.injEq, Prod.mk.injEq, Int.natCast_inj] at heq
          obtain rfl := heq.2
          exact (runsScript_iff hn hsize).2 hok
        · simp [hno] at hc

/-- The script `abc` before a tag that is not complete: `?` stands where its end should. -/
def brokenTag : List UInt8 := ascii "abc<DAD:0000000003>?????????????"

/-- The text in front of a broken tag is decrypted and run. -/
theorem broken_tag_runs :
    (LoadFrozenScript ⟨fun _ => true, fun _ => 0⟩ (some brokenTag) false).run =
        some [100, 102, 104] ∧
      ¬ LoadsRight brokenTag false
        (LoadFrozenScript ⟨fun _ => true, fun _ => 0⟩ (some brokenTag) false) := by
  have hrun : (LoadFrozenScript ⟨fun _ => true, fun _ => 0⟩ (some brokenTag) false).run =
      some [100, 102, 104] := by
    decide +kernel
  refine ⟨hrun, fun h => ?_⟩
  have htag : ¬ ∃ n, EndsInTag brokenTag n := by
    rintro ⟨n, -, d, -, -, hdrop, -⟩
    have hlast := congrArg List.getLast? hdrop
    have hend : (ascii ">ooOo(^.^)oOoo").getLast? = some 111 := by decide
    have hmark : (brokenTag.drop (brokenTag.length - END_TAG_LEN)).getLast? = some 63 := by decide
    rw [List.getLast?_append, hend, hmark] at hlast
    simp at hlast
  rw [(h.rejects htag).run] at hrun
  cases hrun

end LuaFltk.Frozen
