import Mathlib.Tactic

/-!
# The decryption of frozen scripts

`simdecrypt` of `lua.c` overwrites the front of a buffer with the plain text of the script
in it. The buffer is cut into tokens, a nonzero byte or an escape `0, x`; the keys cycle
through 3, 4, 5, 6, 7. Memory goes on behind the buffer, and the positions the function
reads are recorded.
-/

namespace LuaFltk.Frozen

def SIMCRYPTOFFSET : Nat := 3

/-- Memory from the start of the buffer on. -/
abbrev Memory := Nat → UInt8

/-- The first `len` bytes. -/
def bytes (s : Memory) (len : Nat) : List UInt8 := (List.range len).map s

@[simp] theorem length_bytes (s : Memory) (len : Nat) : (bytes s len).length = len := by
  simp [bytes]

theorem mem_bytes {s : Memory} {len : Nat} {b : UInt8} : b ∈ bytes s len ↔ ∃ i < len, s i = b := by
  simp [bytes]

theorem apply_mem_bytes (s : Memory) {i len : Nat} (h : i < len) : s i ∈ bytes s len :=
  mem_bytes.2 ⟨i, h, rfl⟩

theorem bytes_eq_iff {s : Memory} {l : List UInt8} :
    bytes s l.length = l ↔ ∀ (i : Nat) (h : i < l.length), s i = l[i] := by
  constructor
  · intro h i hi
    have := congrArg (·[i]?) h
    simpa [bytes, hi] using this
  · intro h
    exact List.ext_getElem (by simp) fun i _ hi => by simpa [bytes] using h i hi

/-- The variables of the loop, and the positions read so far. -/
structure Decrypt where
  s : Memory
  n : Nat
  offset : Nat
  reads : List Nat

/-- The key of the next byte. -/
def nextKey (n : Nat) : Nat := if n > SIMCRYPTOFFSET * 2 then SIMCRYPTOFFSET else n + 1

/-- The body of the loop, with `ptr` at position `i`. -/
def decryptStep (v : Decrypt) (i : Nat) : Decrypt :=
  let chr := v.s (i + v.offset)
  if chr < 1 then
    { s := Function.update v.s i (v.s (i + (v.offset + 1)))
      n := nextKey v.n
      offset := v.offset + 1
      reads := v.reads ++ [i + v.offset, i + (v.offset + 1)] }
  else
    { s := Function.update v.s i (chr + UInt8.ofNat v.n)
      n := nextKey v.n
      offset := v.offset
      reads := v.reads ++ [i + v.offset] }

/-- `len` turns of the loop. -/
def decryptLoop (s : Memory) (len : Nat) : Decrypt :=
  (List.range len).foldl decryptStep ⟨s, SIMCRYPTOFFSET, 0, []⟩

/-- `simdecrypt(s, len)`: the result, the memory afterwards and the positions read. -/
def simdecrypt (s : Memory) (len : Int) : Int × Memory × List Nat :=
  let v := decryptLoop s len.toNat
  (len.toNat, v.s, v.reads)

/-! ## What the format means -/

/-- A token of an encrypted text. -/
inductive Token where
  | plain (c : UInt8) (h : c ≠ 0)
  | escaped (x : UInt8)
  deriving DecidableEq, Repr

/-- Cut a text into tokens from the left; a last zero byte has nothing to escape. -/
def cut : List UInt8 → Option (List Token)
  | [] => some []
  | c :: l =>
    if h : c ≠ 0 then (cut l).map (.plain c h :: ·)
    else match l with
      | [] => none
      | x :: l => (cut l).map (.escaped x :: ·)

/-- The key of token `j`. -/
def key (j : Nat) : UInt8 := UInt8.ofNat (3 + j % 5)

/-- The byte a token stands for at place `j`. -/
def Token.decode (j : Nat) : Token → UInt8
  | plain c _ => c + key j
  | escaped x => x

/-- The plain text of a list of tokens whose first one is number `j`. -/
def decodeFrom (j : Nat) : List Token → List UInt8
  | [] => []
  | t :: ts => t.decode j :: decodeFrom (j + 1) ts

/-- The encoder, for a text whose first byte is number `j`. -/
def encodeFrom (j : Nat) : List UInt8 → List UInt8
  | [] => []
  | b :: p => (if b - key j ≠ 0 then [b - key j] else [0, b]) ++ encodeFrom (j + 1) p

def encode (p : List UInt8) : List UInt8 := encodeFrom 0 p

/-- What `simdecrypt` owes for the `len` bytes at `s` that are the tokens `toks`. -/
structure Decrypts (s : Memory) (len : Nat) (toks : List Token) : Prop where
  count : (simdecrypt s len).1 = toks.length
  front : bytes (simdecrypt s len).2.1 toks.length = decodeFrom 0 toks
  reads : ∀ r ∈ (simdecrypt s len).2.2, r < len

theorem length_decodeFrom (j : Nat) (toks : List Token) :
    (decodeFrom j toks).length = toks.length := by
  induction toks generalizing j with
  | nil => rfl
  | cons t ts ih => simp [decodeFrom, ih]

theorem cut_plain {c : UInt8} (h : c ≠ 0) (l : List UInt8) :
    cut (c :: l) = (cut l).map (.plain c h :: ·) := by
  rw [cut.eq_def]
  exact dif_pos h

theorem cut_escaped (x : UInt8) (l : List UInt8) :
    cut (0 :: x :: l) = (cut l).map (.escaped x :: ·) := by
  rw [cut.eq_def]
  exact dif_neg (not_not.2 rfl)

/-- Every escape makes the token list shorter than the text. -/
theorem length_of_cut {l : List UInt8} {toks : List Token} (h : cut l = some toks) :
    toks.length ≤ l.length ∧ (toks.length = l.length → ∀ b ∈ l, b ≠ 0) := by
  fun_induction cut l generalizing toks with
  | case1 => simp_all
  | case2 c l hc ih =>
    obtain ⟨ts, hts, rfl⟩ := Option.map_eq_some_iff.1 h
    obtain ⟨hle, hall⟩ := ih hts
    refine ⟨by simpa using hle, fun heq b hb => ?_⟩
    rcases List.mem_cons.1 hb with rfl | hb
    · exact hc
    · exact hall (by simpa using heq) b hb
  | case3 => cases h
  | case4 c hc x l ih =>
    obtain ⟨ts, hts, rfl⟩ := Option.map_eq_some_iff.1 h
    obtain ⟨hle, -⟩ := ih hts
    refine ⟨by simp; omega, fun heq => ?_⟩
    simp at heq
    omega

/-- Without zero bytes the tokens are the bytes. -/
theorem decode_cut_of_nonzero {l : List UInt8} {toks : List Token} (h : cut l = some toks)
    (hl : ∀ b ∈ l, b ≠ 0) (j : Nat) :
    toks.length = l.length ∧
      ∀ (i : Nat) (hi : i < l.length), (decodeFrom j toks)[i]? = some (l[i] + key (j + i)) := by
  induction l generalizing toks j with
  | nil =>
    obtain rfl : [] = toks := by simpa [cut] using h
    simp
  | cons c l ih =>
    have hc : c ≠ 0 := hl c (by simp)
    rw [cut_plain hc] at h
    obtain ⟨ts, hts, rfl⟩ := Option.map_eq_some_iff.1 h
    obtain ⟨hlen, hget⟩ := ih hts (fun b hb => hl b (by simp [hb])) (j + 1)
    refine ⟨by simpa using hlen, fun i hi => ?_⟩
    cases i with
    | zero => simp [decodeFrom, Token.decode]
    | succ i =>
      simpa [decodeFrom, Nat.add_right_comm, Nat.add_assoc] using hget i (by simpa using hi)

/-! ## The loop -/

theorem nextKey_cycle (i : Nat) : nextKey (3 + i % 5) = 3 + (i + 1) % 5 := by
  unfold nextKey SIMCRYPTOFFSET
  split <;> omega

/-- While no byte is zero the two cursors stay together: after `m` turns the first `m` bytes
are decrypted, the others are untouched, and the positions read are the first `m`. -/
theorem decryptLoop_nonzero {s : Memory} {m : Nat} (h : ∀ i < m, s i ≠ 0) :
    decryptLoop s m = ⟨fun i => if i < m then s i + key i else s i, 3 + m % 5, 0, List.range m⟩ := by
  induction m with
  | zero => simp [decryptLoop, SIMCRYPTOFFSET]
  | succ m ih =>
    have hm : ¬ s m < 1 := by
      have := h m (by omega)
      rw [UInt8.lt_iff_toNat_lt]
      intro hlt
      exact this (UInt8.toNat.inj (by simpa using hlt))
    have hloop : decryptLoop s (m + 1) = decryptStep (decryptLoop s m) m := by
      simp [decryptLoop, List.range_succ]
    rw [hloop, ih fun i hi => h i (by omega)]
    simp only [decryptStep, Nat.add_zero, lt_self_iff_false, if_false, hm, nextKey_cycle,
      List.range_succ, Decrypt.mk.injEq, and_true]
    funext i
    rcases lt_trichotomy i m with hi | rfl | hi
    · rw [Function.update_of_ne (by omega), if_pos hi, if_pos (by omega)]
    · rw [Function.update_self, if_pos (by omega), key]
    · rw [Function.update_of_ne (by omega), if_neg (by omega), if_neg (by omega)]

/-- The exact condition for one buffer. -/
theorem decrypts_iff {s : Memory} {len : Nat} {toks : List Token}
    (h : cut (bytes s len) = some toks) : Decrypts s len toks ↔ ∀ i < len, s i ≠ 0 := by
  constructor
  · intro hd i hi
    have hcount : toks.length = (bytes s len).length := by
      have := hd.count
      simp only [simdecrypt, Int.toNat_natCast] at this
      simpa using this.symm
    exact (length_of_cut h).2 hcount _ (mem_bytes.2 ⟨i, hi, rfl⟩)
  · intro hs
    have hb : ∀ b ∈ bytes s len, b ≠ 0 := by
      intro b hb
      obtain ⟨i, hi, rfl⟩ := mem_bytes.1 hb
      exact hs i hi
    obtain ⟨hlen, hget⟩ := decode_cut_of_nonzero h hb 0
    rw [length_bytes] at hlen
    refine ⟨?_, ?_, ?_⟩
    · simp [simdecrypt, hlen]
    · rw [← length_decodeFrom 0, bytes_eq_iff]
      intro i hi
      rw [length_decodeFrom, hlen] at hi
      have := hget i (by simpa using hi)
      rw [List.getElem?_eq_getElem (by rw [length_decodeFrom]; omega)] at this
      simp only [simdecrypt, Int.toNat_natCast, decryptLoop_nonzero hs, if_pos hi]
      simpa [bytes] using (Option.some.inj this).symm
    · simp [simdecrypt, decryptLoop_nonzero hs]

/-! ## The encoder -/

/-- Cutting an encoded text and decoding the tokens gives the text back. -/
theorem cut_encodeFrom (j : Nat) (p : List UInt8) :
    ∃ toks, cut (encodeFrom j p) = some toks ∧ decodeFrom j toks = p := by
  induction p generalizing j with
  | nil => exact ⟨[], rfl, rfl⟩
  | cons b p ih =>
    obtain ⟨toks, hcut, hdec⟩ := ih (j + 1)
    by_cases hb : b - key j ≠ 0
    · refine ⟨.plain (b - key j) hb :: toks, ?_, by simp [decodeFrom, Token.decode, hdec]⟩
      rw [encodeFrom, if_pos hb, List.singleton_append, cut_plain hb, hcut]
      rfl
    · refine ⟨.escaped b :: toks, ?_, by simp [decodeFrom, Token.decode, hdec]⟩
      rw [encodeFrom, if_neg hb, List.cons_append, List.cons_append, List.nil_append, cut_escaped,
        hcut]
      rfl

theorem nonzero_encodeFrom_iff (j : Nat) (p : List UInt8) :
    (∀ b ∈ encodeFrom j p, b ≠ 0) ↔ ∀ (i : Nat) (h : i < p.length), p[i] ≠ key (j + i) := by
  induction p generalizing j with
  | nil => simp [encodeFrom]
  | cons b p ih =>
    have hcons : (∀ (i : Nat) (h : i < (b :: p).length), (b :: p)[i] ≠ key (j + i)) ↔
        b ≠ key j ∧ ∀ (i : Nat) (h : i < p.length), p[i] ≠ key (j + 1 + i) := by
      constructor
      · intro h
        refine ⟨h 0 (by simp), fun i hi => ?_⟩
        have hi' : i + 1 < (b :: p).length := Nat.succ_lt_succ hi
        have hj : j + 1 + i = j + (i + 1) := by omega
        rw [hj]
        exact h (i + 1) hi'
      · rintro ⟨h0, h⟩ i hi
        cases i with
        | zero => simpa using h0
        | succ i =>
          have hj : j + (i + 1) = j + 1 + i := by omega
          rw [hj]
          exact h i (Nat.lt_of_succ_lt_succ hi)
    rw [hcons, ← ih (j + 1)]
    by_cases hb : b = key j
    · simp [encodeFrom, hb]
    · have hsub : b - key j ≠ 0 := fun h => hb <| by
        rw [← UInt8.sub_add_cancel b (key j), h, UInt8.zero_add]
      simp [encodeFrom, hsub, hb]

/-- Decrypting the encoding of `p` in place gives `p` and its length. -/
structure Inverts (s : Memory) (p : List UInt8) : Prop where
  count : (simdecrypt s (encode p).length).1 = p.length
  front : bytes (simdecrypt s (encode p).length).2.1 p.length = p
  reads : ∀ r ∈ (simdecrypt s (encode p).length).2.2, r < (encode p).length

/-- `simdecrypt` decrypts a buffer exactly when no byte of it is zero, and it inverts the
encoder exactly on the texts that need no escape. -/
theorem simdecrypt_decodes_iff (s : Memory) :
    (∀ (len : Nat) (toks : List Token), cut (bytes s len) = some toks →
      (Decrypts s len toks ↔ ∀ i < len, s i ≠ 0)) ∧
    ∀ p : List UInt8, bytes s (encode p).length = encode p →
      (Inverts s p ↔ ∀ (i : Nat) (h : i < p.length), p[i] ≠ key i) := by
  refine ⟨fun len toks h => decrypts_iff h, fun p h => ?_⟩
  obtain ⟨toks, hcut, hdec⟩ := cut_encodeFrom 0 p
  have hlen : toks.length = p.length := by rw [← length_decodeFrom 0 toks, hdec]
  have hiff : Inverts s p ↔ Decrypts s (encode p).length toks := by
    constructor
    · rintro ⟨h1, h2, h3⟩
      exact ⟨by rw [hlen, h1], by rw [hlen, h2, hdec], h3⟩
    · rintro ⟨h1, h2, h3⟩
      exact ⟨by rw [← hlen, h1], by rw [← hlen, h2, hdec], h3⟩
  rw [hiff, decrypts_iff (by rw [h]; exact hcut)]
  have hzero : (∀ i < (encode p).length, s i ≠ 0) ↔ ∀ b ∈ encode p, b ≠ 0 := by
    constructor
    · intro hs b hb
      rw [← h] at hb
      obtain ⟨i, hi, rfl⟩ := mem_bytes.1 hb
      exact hs i hi
    · intro hb i hi
      exact hb _ (by rw [← h]; exact mem_bytes.2 ⟨i, hi, rfl⟩)
  rw [hzero, encode, nonzero_encodeFrom_iff]
  simp

/-- A text without escapes is decrypted. -/
theorem simdecrypt_decodes_iff_plain :
    cut (bytes (fun _ => 65) 2) = some [.plain 65 (by decide), .plain 65 (by decide)] ∧
      Decrypts (fun _ => 65) 2 [.plain 65 (by decide), .plain 65 (by decide)] :=
  ⟨rfl, ((simdecrypt_decodes_iff _).1 _ _ rfl).2 fun _ _ => by decide⟩

/-- A buffer that holds one escape, of the byte 65. -/
def escapedByte : Memory := fun i => if i = 1 then 65 else 0

/-- One escape: two bytes are returned for one token, and the byte behind the buffer is
read. -/
theorem escape_overruns :
    cut (bytes escapedByte 2) = some [.escaped 65] ∧
      (simdecrypt escapedByte 2).1 = 2 ∧ 2 ∈ (simdecrypt escapedByte 2).2.2 ∧
      ¬ Decrypts escapedByte 2 [.escaped 65] := by
  refine ⟨rfl, rfl, by decide, fun h => ?_⟩
  have := h.count
  simp [simdecrypt] at this

end LuaFltk.Frozen
