import LuaFltk.Lib.Reader

/-!
# Buffered input

`lzio.c`: a stream over blocks of bytes that a `lua_Reader` hands over one at a time. A block may
end anywhere, and an empty one ends the stream; what can be read is the bytes ahead, however they
are cut into blocks.
-/

namespace LuaFltk.Chunk

open Lib

abbrev Bytes := List UInt8

/-- `ZIO`: the `n` bytes at `p`, and the blocks the reader has still to hand over. -/
structure ZIO where
  p : Bytes
  reader : List Bytes

namespace ZIO

/-- The bytes ahead, up to the end of the stream. -/
def ahead (z : ZIO) : Bytes := z.p ++ (z.reader.takeWhile fun block => !block.isEmpty).flatten

end ZIO

/-- `luaZ_fill`; `EOZ` is `none`. -/
def luaZ_fill (z : ZIO) : Option UInt8 × ZIO :=
  match z.reader with
  | [] => (none, z)
  | [] :: blocks => (none, { z with reader := blocks })
  | (c :: p) :: blocks => (some c, { p := p, reader := blocks })

/-- `luaZ_lookahead`: it puts back the byte `luaZ_fill` has removed. -/
def luaZ_lookahead (z : ZIO) : Option UInt8 × ZIO :=
  match z.p with
  | c :: _ => (some c, z)
  | [] =>
    match luaZ_fill z with
    | (none, z') => (none, z')
    | (some c, z') => (some c, { z' with p := c :: z'.p })

/-- The byte ahead is put back, so that nothing is lost. -/
theorem luaZ_lookahead_some {z z' : ZIO} {c : UInt8} (h : luaZ_lookahead z = (some c, z')) :
    z'.ahead = z.ahead ∧ 0 < z'.p.length := by
  obtain ⟨p, reader⟩ := z
  cases p with
  | cons c' p => cases h; exact ⟨rfl, Nat.succ_pos _⟩
  | nil =>
    cases reader with
    | nil => cases h
    | cons block blocks =>
      cases block with
      | nil => cases h
      | cons c' p => cases h; exact ⟨by simp [ ZIO.ahead], Nat.succ_pos _⟩

/-- The stream has ended. -/
theorem luaZ_lookahead_none {z z' : ZIO} (h : luaZ_lookahead z = (none, z')) : z.ahead = [] := by
  obtain ⟨p, reader⟩ := z
  cases p with
  | cons c' p => cases h
  | nil =>
    cases reader with
    | nil => rfl
    | cons block blocks =>
      cases block with
      | nil => rfl
      | cons c' p => cases h

/-- `luaZ_read`: the bytes read, and how many of `n` are missing. -/
def luaZ_read (z : ZIO) (n : Nat) : (Bytes × Nat) × ZIO :=
  if _hn : n = 0 then (([], 0), z)
  else
    match _h : luaZ_lookahead z with
    | (none, z') => (([], n), z')
    | (some _, z') =>
      let m := min n z'.p.length
      let r := luaZ_read { z' with p := z'.p.drop m } (n - m)
      ((z'.p.take m ++ r.1.1, r.1.2), r.2)
termination_by n
decreasing_by
  have := (luaZ_lookahead_some _h).2
  omega

/-- However the bytes ahead are cut into blocks, `luaZ_read` takes the next `n` of them, or all
there are, and tells how many it has missed. -/
theorem luaZ_read_spec (z : ZIO) (n : Nat) :
    (luaZ_read z n).1 = (z.ahead.take n, n - z.ahead.length) ∧
      (n ≤ z.ahead.length → (luaZ_read z n).2.ahead = z.ahead.drop n) := by
  fun_induction luaZ_read z n with
  | case1 z => simp
  | case2 z n hn z' h =>
    rw [luaZ_lookahead_none h]
    exact ⟨by simp, fun hle => absurd (Nat.le_zero.1 hle) hn⟩
  | case3 z n hn c z' h m r ih =>
    obtain ⟨hahead, -⟩ := luaZ_lookahead_some h
    have hm : m ≤ z'.p.length := Nat.min_le_right _ _
    have hle : m ≤ z'.ahead.length := by
      rw [ ZIO.ahead, List.length_append]
      omega
    have hmn : n = m + (n - m) := by omega
    have hrest : ZIO.ahead { z' with p := z'.p.drop m } = z'.ahead.drop m := by
      rw [ ZIO.ahead, ZIO.ahead, List.drop_append_of_le_length hm]
    have htake : z'.p.take m = z'.ahead.take m := by
      rw [ ZIO.ahead, List.take_append_of_le_length hm]
    rw [hrest, List.length_drop, List.drop_drop] at ih
    rw [← hahead]
    refine ⟨Prod.ext ?_ ?_, fun hn' => ?_⟩
    · change z'.p.take m ++ r.1.1 = _
      rw [ih.1, htake]
      nth_rewrite 3 [hmn]
      rw [List.take_add]
    · change r.1.2 = _
      rw [ih.1]
      change n - m - (z'.ahead.length - m) = _
      omega
    · rw [ih.2 (by omega), ← hmn]

/-- `LoadBlock`. -/
def LoadBlock (size : Nat) : Reader ZIO String Bytes := fun z =>
  if (luaZ_read z size).1.2 ≠ 0 then .error "unexpected end"
  else .ok ((luaZ_read z size).1.1, (luaZ_read z size).2)

/-- `LoadBlock` takes the bytes it asks for, or fails. -/
theorem loadBlock_takes : Reader.Takes ZIO.ahead "unexpected end" LoadBlock where
  enough := by
    intro n z hn
    obtain ⟨hread, hleft⟩ := luaZ_read_spec z n
    refine ⟨(luaZ_read z n).2, ?_, hleft hn⟩
    rw [LoadBlock, hread]
    exact if_neg (not_not_intro (by omega))
  short := by
    intro n z hn
    rw [LoadBlock, (luaZ_read_spec z n).1]
    exact if_pos (by omega)

end LuaFltk.Chunk
