import LuaFltk.Lib.Search

/-!
# Comparing strings

`strncmp` and its relatives on strings of bytes, where what lies behind a string reads as
zero. A table of keys of which each is before the next at some byte is ordered for every
string that is compared with the keys.
-/

namespace LuaFltk.Lib

/-- The first `n` bytes of two strings, folded by `f`, up to a zero byte: the difference at the
first place where they differ. -/
def compareBytes (f : UInt8 → UInt8) : Nat → List UInt8 → List UInt8 → Int
  | 0, _, _ => 0
  | n + 1, a, b =>
    let c := f (a.headD 0)
    let d := f (b.headD 0)
    if c ≠ d then (c.toNat : Int) - d.toNat
    else if c = 0 then 0
    else compareBytes f n a.tail b.tail

/-- At the first byte where they differ, which both have, `a` has the smaller one. -/
def Before : List UInt8 → List UInt8 → Prop
  | c :: a, d :: b => c < d ∨ c = d ∧ Before a b
  | _, _ => False

instance : DecidableRel Before := go
where
  go : (a b : List UInt8) → Decidable (Before a b)
    | c :: a, d :: b =>
      have := go a b
      inferInstanceAs (Decidable (c < d ∨ c = d ∧ Before a b))
    | [], _ => .isFalse id
    | _ :: _, [] => .isFalse id

/-- No byte of a key is zero or changed by folding. -/
def Folded (f : UInt8 → UInt8) (key : List UInt8) : Prop := ∀ c ∈ key, c ≠ 0 ∧ f c = c

instance (f : UInt8 → UInt8) (key : List UInt8) : Decidable (Folded f key) :=
  -- not by trying all bytes
  List.decidableBAll (fun c => c ≠ 0 ∧ f c = c) key

variable {f : UInt8 → UInt8}

theorem Before.trans {a b c : List UInt8} (hab : Before a b) (hbc : Before b c) : Before a c := by
  induction a generalizing b c with
  | nil => exact hab.elim
  | cons x a ih =>
    match b, c, hab, hbc with
    | y :: b, z :: c, hab, hbc =>
      rcases hab with hxy | ⟨rfl, hab⟩
      · rcases hbc with hyz | ⟨rfl, -⟩
        · exact .inl (UInt8.lt_trans hxy hyz)
        · exact .inl hxy
      · rcases hbc with hyz | ⟨rfl, hbc⟩
        · exact .inl hyz
        · exact .inr ⟨rfl, ih hab hbc⟩

theorem Before.irrefl {a : List UInt8} : ¬ Before a a := by
  induction a with
  | nil => exact id
  | cons c a ih =>
    rintro (hlt | ⟨-, htail⟩)
    · exact UInt8.lt_irrefl c hlt
    · exact ih htail

instance : Trans Before Before Before := ⟨Before.trans⟩

/-- A table with such keys lists the same rows as any table of its length that has them all. -/
theorem mem_iff_of_chain {α : Type*} {key : α → List UInt8} {table table' : List α}
    (hchain : (table.map key).IsChain Before) (hsub : ∀ e ∈ table, e ∈ table')
    (hlen : table'.length ≤ table.length) (e : α) : e ∈ table' ↔ e ∈ table := by
  have hnodup : table.Nodup := by
    apply (List.pairwise_map.1 hchain.pairwise).imp
    intro a b hab heq
    rw [heq] at hab
    exact hab.irrefl
  exact ((List.subperm_of_subset hnodup hsub).perm_of_length_le hlen).mem_iff.symm

theorem toNat_lt_of_ne {c d : UInt8} (hne : c ≠ d) (hle : (c.toNat : Int) - d.toNat ≤ 0) :
    c.toNat < d.toNat := by
  have hnat : c.toNat ≠ d.toNat := fun h => hne (UInt8.toNat_inj.1 h)
  omega

/-- The first bytes that differ decide. -/
theorem compareBytes_of_ne {d : UInt8} {p b : List UInt8} (hd : f d = d)
    (hne : f (p.headD 0) ≠ d) (n : Nat) :
    compareBytes f (n + 1) p (d :: b) = ((f (p.headD 0)).toNat : Int) - d.toNat := by
  simp only [compareBytes, List.headD_cons, hd]
  exact if_pos hne

/-- Bytes that are equal are passed over. -/
theorem compareBytes_of_eq {d : UInt8} {p b : List UInt8} (hd : f d = d) (hd0 : d ≠ 0)
    (heq : f (p.headD 0) = d) (n : Nat) :
    compareBytes f (n + 1) p (d :: b) = compareBytes f n p.tail b := by
  simp only [compareBytes, List.headD_cons, hd, heq, List.tail_cons]
  rw [if_neg (not_not_intro rfl), if_neg hd0]

/-- A string that is not above a key is below every later key. -/
theorem compareBytes_neg {a b : List UInt8} (hab : Before a b) (ha : Folded f a)
    (hb : Folded f b) {n m : Nat} (hn : a.length ≤ n) (hm : b.length ≤ m) {p : List UInt8}
    (hle : compareBytes f n p a ≤ 0) : compareBytes f m p b < 0 := by
  induction a generalizing b n m p with
  | nil => exact hab.elim
  | cons c a ih =>
    match b, n, m, hab, hn, hm with
    | d :: b, n + 1, m + 1, hab, hn, hm =>
      obtain ⟨hc0, hc⟩ := ha c List.mem_cons_self
      obtain ⟨hd0, hd⟩ := hb d List.mem_cons_self
      by_cases hp : f (p.headD 0) = c
      · rw [compareBytes_of_eq hc hc0 hp] at hle
        rcases hab with hlt | ⟨rfl, hab⟩
        · have hlt' : c.toNat < d.toNat := hlt
          have hne : f (p.headD 0) ≠ d := by
            rw [hp]
            exact fun h => absurd (h ▸ hlt') (Nat.lt_irrefl _)
          rw [compareBytes_of_ne hd hne, hp]
          omega
        · rw [compareBytes_of_eq hd hd0 hp]
          exact ih hab (fun x hx => ha x (List.mem_cons_of_mem _ hx))
            (fun x hx => hb x (List.mem_cons_of_mem _ hx)) (Nat.le_of_succ_le_succ hn)
            (Nat.le_of_succ_le_succ hm) hle
      · rw [compareBytes_of_ne hc hp] at hle
        have hlt := toNat_lt_of_ne hp hle
        have hcd : c.toNat ≤ d.toNat := by
          rcases hab with hlt | ⟨rfl, -⟩
          · exact Nat.le_of_lt hlt
          · exact Nat.le_refl _
        have hne : f (p.headD 0) ≠ d := by
          intro h
          rw [h] at hlt
          omega
        rw [compareBytes_of_ne hd hne]
        omega

/-- A table whose keys are each before the next is ordered for every string. -/
theorem ordered_compareBytes {α : Type*} {key : α → List UInt8} {len : α → Nat} {table : List α}
    (hchain : (table.map key).IsChain Before) (hfold : ∀ e ∈ table, Folded f (key e))
    (hlen : ∀ e ∈ table, (key e).length ≤ len e) (p : List UInt8) :
    Ordered (fun e => compareBytes f (len e) p (key e)) table := by
  have hpair := List.pairwise_map.1 hchain.pairwise
  apply hpair.imp_of_mem
  intro a b ha hb hab hle
  exact compareBytes_neg hab (hfold a ha) (hfold b hb) (hlen a ha) (hlen b hb) hle

/-- The comparison over the length of a key asks whether the string begins with it. -/
theorem compareBytes_eq_zero_iff (h0 : f 0 = 0) {key p : List UInt8} (hkey : Folded f key) :
    compareBytes f key.length p key = 0 ↔ (p.take key.length).map f = key := by
  induction key generalizing p with
  | nil => simp [compareBytes]
  | cons d key ih =>
    obtain ⟨hd0, hd⟩ := hkey d List.mem_cons_self
    have hrest := ih (p := p.tail) fun x hx => hkey x (List.mem_cons_of_mem _ hx)
    cases p with
    | nil =>
      have hne : f (([] : List UInt8).headD 0) ≠ d := by
        rw [List.headD_nil, h0]
        exact hd0.symm
      rw [List.length_cons, compareBytes_of_ne hd hne]
      constructor
      · intro heq
        exact absurd (UInt8.toNat_inj.1 (by omega)) hne
      · intro heq
        cases heq
    | cons c p =>
      rw [List.length_cons, List.take_succ_cons, List.map_cons, List.cons.injEq]
      have hhead : (c :: p).headD 0 = c := List.headD_cons
      by_cases hc : f c = d
      · rw [compareBytes_of_eq hd hd0 (by rw [hhead, hc])]
        exact hrest.trans (and_iff_right hc).symm
      · rw [compareBytes_of_ne hd (by rw [hhead]; exact hc), hhead]
        constructor
        · intro heq
          exact absurd (UInt8.toNat_inj.1 (by omega)) hc
        · exact fun heq => absurd heq.1 hc

/-- The comparison with the zero byte behind the key asks whether the strings are equal. -/
theorem compareBytes_succ_eq_zero_iff (h0 : ∀ c, f c = 0 ↔ c = 0) {key p : List UInt8}
    (hkey : Folded f key) :
    compareBytes f (key.length + 1) p key = 0 ↔ (p.takeWhile (· ≠ 0)).map f = key := by
  induction key generalizing p with
  | nil =>
    have hf0 : f 0 = 0 := (h0 0).2 rfl
    cases p with
    | nil => simp [compareBytes, hf0]
    | cons c p =>
      by_cases hc : c = 0
      · simp [compareBytes, hc, hf0]
      · have hne : f c ≠ 0 := fun h => hc ((h0 c).1 h)
        have hpos : (f c).toNat ≠ 0 := fun h => hne (UInt8.toNat_inj.1 h)
        simp [compareBytes, hc, hf0, hne, hpos]
  | cons d key ih =>
    obtain ⟨hd0, hd⟩ := hkey d List.mem_cons_self
    have hrest := ih (p := p.tail) fun x hx => hkey x (List.mem_cons_of_mem _ hx)
    cases p with
    | nil =>
      have hne : f (([] : List UInt8).headD 0) ≠ d := by
        rw [List.headD_nil, (h0 0).2 rfl]
        exact hd0.symm
      rw [List.length_cons, compareBytes_of_ne hd hne]
      constructor
      · intro heq
        exact absurd (UInt8.toNat_inj.1 (by omega)) hne
      · intro heq
        cases heq
    | cons c p =>
      have hhead : (c :: p).headD 0 = c := List.headD_cons
      by_cases hc : f c = d
      · have hc0 : c ≠ 0 := fun h => hd0 (hc ▸ (h0 c).2 h)
        rw [List.length_cons, compareBytes_of_eq hd hd0 (by rw [hhead, hc])]
        simpa [hc0, hc] using hrest
      · rw [List.length_cons, compareBytes_of_ne hd (by rw [hhead]; exact hc), hhead]
        constructor
        · intro heq
          exact absurd (UInt8.toNat_inj.1 (by omega)) hc
        · intro heq
          by_cases hc0 : c = 0
          · simp [hc0] at heq
          · simp only [ne_eq, hc0, not_false_eq_true, decide_true, List.takeWhile_cons_of_pos,
              List.map_cons, List.cons.injEq] at heq
            exact absurd heq.1 hc

end LuaFltk.Lib
