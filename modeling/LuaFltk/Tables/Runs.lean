import LuaFltk.Tables.Rehash

/-!
# Tables as maps

Over any run of reads, writes and visits of the collector a table holds what a map from keys to
values holds, and it keeps its invariant. The map is bounded: it may refuse a new key once it has as
many elements as the largest vector has nodes.
-/

namespace LuaFltk.Tables

open Lib

variable {K V : Type} [DecidableEq K] {H : Hash K} {t t' : Table K V} {k : K} {n : Nat}
  {iscollectable : K → Bool}

namespace Table

/-! ## The collector -/

/-- `removeentry`, as what it leaves of the key. -/
def removeentry (iscollectable : K → Bool) : Key K → Key K
  | .live k => if iscollectable k then .dead k else .live k
  | key => key

/-- The loop of `traversetable` over the nodes: it removes the entries without a value. -/
def traversetable (iscollectable : K → Bool) (t : Table K V) : Table K V :=
  { t with
    key := fun n => if (t.val n).isSome then t.key n else removeentry iscollectable (t.key n) }

omit [DecidableEq K]

/-- A key stays or, where there is no value, is cleared. -/
theorem traversetable_key (iscollectable : K → Bool) (t : Table K V) (n : Nat) :
    (t.traversetable iscollectable).key n = t.key n ∨
      t.val n = none ∧
        ∃ k, t.key n = .live k ∧ (t.traversetable iscollectable).key n = .dead k := by
  rw [traversetable]
  dsimp only
  by_cases hval : (t.val n).isSome
  · exact .inl (if_pos hval)
  · rw [if_neg hval]
    cases hkey : t.key n with
    | nil => exact .inl rfl
    | dead k => exact .inl rfl
    | live k =>
      rw [removeentry]
      by_cases hk : iscollectable k = true
      · exact .inr ⟨by simpa using hval, k, rfl, if_pos hk⟩
      · exact .inl (if_neg hk)

/-- The collector gives no node a key. -/
theorem traversetable_live (h : (t.traversetable iscollectable).key n = .live k) :
    t.key n = .live k := by
  rcases traversetable_key iscollectable t n with hkey | ⟨-, j, -, hdead⟩
  · exact hkey ▸ h
  · rw [h] at hdead
    cases hdead

theorem traversetable_nil (h : (t.traversetable iscollectable).key n = .nil) : t.key n = .nil := by
  rcases traversetable_key iscollectable t n with hkey | ⟨-, j, -, hdead⟩
  · exact hkey ▸ h
  · rw [h] at hdead
    cases hdead

/-- A dead key keeps its pointer. -/
theorem traversetable_known :
    (t.traversetable iscollectable).Known n k ↔ t.Known n k := by
  rcases traversetable_key iscollectable t n with hkey | ⟨-, j, hlive, hdead⟩
  · rw [Known, hkey, Known]
  · rw [Known, hdead, Known, hlive]
    simp

/-- Only keys without a value are cleared. -/
theorem traversetable_has (v : V) : (t.traversetable iscollectable).Has k v ↔ t.Has k v := by
  constructor
  · rintro ⟨m, hm, hv⟩
    exact ⟨m, traversetable_live hm, hv⟩
  · rintro ⟨m, hm, hv⟩
    rcases traversetable_key iscollectable t m with hkey | ⟨hnone, -⟩
    · exact ⟨m, hkey.trans hm, hv⟩
    · rw [hnone] at hv
      cases hv

/-- A key that is cleared keeps its place in the chain, so that the others are found as before. -/
theorem Inv.traversetable (h : t.Inv H) : (t.traversetable iscollectable).Inv H where
  size := h.size
  bound := h.bound
  ends := h.ends
  apart := h.apart
  free := fun m hm => h.free m (traversetable_nil hm)
  inside := by
    intro m hm
    refine h.inside m fun hnil => hm ?_
    rcases traversetable_key iscollectable t m with hkey | ⟨-, j, hlive, -⟩
    · exact hkey.trans hnil
    · rw [hnil] at hlive
      cases hlive
  keyed := by
    intro m hm
    obtain ⟨j, hj⟩ := h.keyed m hm
    exact ⟨j, (if_pos hm).trans hj⟩
  leads := fun m j hm => h.leads m j (traversetable_known.1 hm)
  once := fun m m' j hm hm' => h.once m m' j (traversetable_live hm) (traversetable_live hm')
  first := by
    intro m m' j hm hm'
    rcases traversetable_known.1 (.inr hm') with hlive | hdead
    · rw [h.once m m' j (traversetable_live hm) hlive]
      exact .here _
    · exact h.first m m' j (traversetable_live hm) hdead
  collides := by
    intro m j hm hne
    have hkey := traversetable_key iscollectable t (t.mainposition H j)
    rcases h.collides m j (traversetable_known.1 hm) hne with ⟨j', hdead⟩ | ⟨j', hlive, hmain⟩
    · rcases hkey with hkey | ⟨-, i, hlive, -⟩
      · exact .inl ⟨j', hkey.trans hdead⟩
      · rw [hdead] at hlive
        cases hlive
    · rcases hkey with hkey | ⟨-, i, -, hdead⟩
      · exact .inr ⟨j', hkey.trans hlive, hmain⟩
      · exact .inl ⟨i, hdead⟩
  lastfree := fun hdummy m hm hge hnil => h.lastfree hdummy m hm hge (traversetable_nil hnil)
  empty := h.empty
  dummy := by
    intro hdummy m
    rcases traversetable_key iscollectable t m with hkey | ⟨-, j, hlive, -⟩
    · exact hkey.trans (h.dummy hdummy m)
    · rw [h.dummy hdummy m] at hlive
      cases hlive

end Table

/-! ## Runs -/

/-- What is done with a table: read, write (nil takes an element out), and the collector. -/
inductive Action (K V : Type) where
  | get (k : K)
  | set (k : K) (v : Option V)
  | collect

namespace Table

/-- One action, with the value read or the error. -/
def exec (H : Hash K) (iscollectable : K → Bool) (t : Table K V) :
    Action K V → Option (Except String (Option V) × Table K V)
  | .get k =>
    match t.luaH_get H k with
    | none => none
    | some r => some (.ok (r.bind t.val), t)
  | .set k v =>
    match luaH_set H 2 t k with
    | none => none
    | some (.error e, t) => some (.error e, t)
    | some (.ok n, t) => some (.ok none, t.setVal n v)
  | .collect => some (.ok none, t.traversetable iscollectable)

def run (H : Hash K) (iscollectable : K → Bool) (t : Table K V) :
    List (Action K V) → Option (List (Except String (Option V)) × Table K V)
  | [] => some ([], t)
  | a :: as =>
    match t.exec H iscollectable a with
    | none => none
    | some (out, t) =>
      match run H iscollectable t as with
      | none => none
      | some (outs, t) => some (out :: outs, t)

end Table

/-- So many keys have values that there may be no node for another one. -/
def Crowded (A : K → Option V) : Prop :=
  ∃ s : Finset K, 2 ^ MAXBITS ≤ s.card ∧ ∀ k ∈ s, (A k).isSome

/-- One action on a map, with its outcome. A new key may be refused where the map is crowded. -/
inductive MapStep (A : K → Option V) :
    Action K V → Except String (Option V) → (K → Option V) → Prop where
  | get (k : K) : MapStep A (.get k) (.ok (A k)) A
  | set (k : K) (v : Option V) : MapStep A (.set k v) (.ok none) (Function.update A k v)
  | full {k : K} (v : Option V) : A k = none → Crowded A →
      MapStep A (.set k v) (.error "table overflow") A
  | collect : MapStep A .collect (.ok none) A

inductive MapRun : (K → Option V) → List (Action K V) → List (Except String (Option V)) →
    (K → Option V) → Prop where
  | nil {A : K → Option V} : MapRun A [] [] A
  | cons {A A' A'' : K → Option V} {a : Action K V} {out : Except String (Option V)}
      {as : List (Action K V)} {outs : List (Except String (Option V))} :
      MapStep A a out A' → MapRun A' as outs A'' → MapRun A (a :: as) (out :: outs) A''

/-- The table keeps its invariant and holds the map. -/
structure Holds (H : Hash K) (t : Table K V) (A : K → Option V) : Prop where
  inv : t.Inv H
  has : ∀ k v, t.Has k v ↔ A k = some v

omit [DecidableEq K] in
/-- The value in the node of a key is that of the map. -/
theorem Holds.get {A : K → Option V} (h : Holds H t A) (hk : t.key n = .live k) :
    t.val n = A k := by
  cases hv : t.val n with
  | some v => exact ((h.has k v).1 ⟨n, hk, hv⟩).symm
  | none =>
    cases hA : A k with
    | none => rfl
    | some v =>
      obtain ⟨m, hm, hmv⟩ := (h.has k v).2 hA
      rw [h.inv.once m n k hm hk, hv] at hmv
      cases hmv

omit [DecidableEq K] in
/-- A key without a node has no value. -/
theorem Holds.absent {A : K → Option V} (h : Holds H t A) (hk : ∀ n, t.key n ≠ .live k) :
    A k = none := by
  cases hA : A k with
  | none => rfl
  | some v =>
    obtain ⟨m, hm, -⟩ := (h.has k v).2 hA
    exact absurd hm (hk m)

theorem Holds.exec_get {A : K → Option V} (h : Holds H t A) (iscollectable : K → Bool) (k : K) :
    t.exec H iscollectable (.get k) = some (.ok (A k), t) := by
  rw [Table.exec]
  rcases h.inv.get_cases k with ⟨n, hn, hget⟩ | ⟨habsent, hget⟩
  · rw [hget]
    dsimp only
    rw [Option.bind_some, h.get hn]
  · rw [hget, h.absent habsent]
    rfl

/-- A value is written to the node of its key. -/
theorem Holds.store {A : K → Option V} (h : Holds H t A) (hstored : Table.Stored H t k n t')
    (v : Option V) : Holds H (t'.setVal n v) (Function.update A k v) := by
  refine ⟨hstored.inv.setVal hstored.key v, fun j w => ?_⟩
  rw [Table.has_setVal hstored.inv hstored.key, hstored.has, h.has]
  by_cases hj : j = k
  · rw [if_pos hj, hj, Function.update_self]
  · rw [if_neg hj, Function.update_of_ne hj]

omit [DecidableEq K] in
/-- A table that cannot grow holds a crowded map, and goes on holding it. -/
theorem Holds.overflow {A : K → Option V} (h : Holds H t A) (hover : Table.Overflows H t k t') :
    A k = none ∧ Crowded A ∧ Holds H t' A := by
  obtain ⟨s, hcard, hs⟩ := hover.elements
  refine ⟨h.absent hover.absent, ⟨s, hcard, fun j hj => ?_⟩, hover.inv, fun j v => ?_⟩
  · obtain ⟨v, hv⟩ := hs j hj
    rw [(h.has j v).1 hv]
    rfl
  · rw [hover.has, h.has]

/-- Each action keeps table and map together. -/
theorem Holds.step {A : K → Option V} (h : Holds H t A) (iscollectable : K → Bool)
    (a : Action K V) :
    ∃ out t' A', t.exec H iscollectable a = some (out, t') ∧ MapStep A a out A' ∧
      Holds H t' A' := by
  cases a with
  | get k => exact ⟨_, t, A, h.exec_get iscollectable k, .get k, h⟩
  | set k v =>
    rw [Table.exec]
    rcases Table.luaH_set_spec 0 h.inv k with ⟨n, t', hset, hstored⟩ | ⟨t', hset, hover⟩
    · rw [hset]
      exact ⟨_, _, _, rfl, .set k v, h.store hstored v⟩
    · obtain ⟨habsent, hcrowded, hholds⟩ := h.overflow hover
      rw [hset]
      exact ⟨_, _, _, rfl, .full v habsent hcrowded, hholds⟩
  | collect =>
    have hhas : ∀ k v, (t.traversetable iscollectable).Has k v ↔ A k = some v := fun k v =>
      (Table.traversetable_has v).trans (h.has k v)
    exact ⟨_, _, A, rfl, .collect, h.inv.traversetable, hhas⟩

/-- By induction on the run. -/
theorem Holds.run {A : K → Option V} (h : Holds H t A) (iscollectable : K → Bool)
    (as : List (Action K V)) :
    ∃ outs t' A', t.run H iscollectable as = some (outs, t') ∧ MapRun A as outs A' ∧
      Holds H t' A' := by
  induction as generalizing t A with
  | nil => exact ⟨[], t, A, rfl, .nil, h⟩
  | cons a as ih =>
    obtain ⟨out, t₁, A₁, hexec, hstep, h₁⟩ := h.step iscollectable a
    obtain ⟨outs, t', A', hrun, hmap, h'⟩ := ih h₁
    refine ⟨out :: outs, t', A', ?_, .cons hstep hmap, h'⟩
    rw [Table.run, hexec]
    dsimp only
    rw [hrun]

omit [DecidableEq K] in
/-- A new table holds the empty map. -/
theorem new_holds (H : Hash K) {size : Nat} (hnew : Table.setnodevector size = .ok t) :
    Holds H t fun _ => none := by
  rw [Table.setnodevector_eq] at hnew
  split at hnew
  · cases hnew
  · cases hnew
    refine ⟨Table.newvector_inv H size, fun k v => ⟨?_, fun h => ?_⟩⟩
    · rintro ⟨m, hm, -⟩
      cases hm
    · cases h

/-- Whatever the hash function, a table for up to `2 ^ MAXBITS` elements is made, and over every run
of reads, writes and visits of the collector it reads what a map would read: every search ends, every
new key finds its place, if need be after one rehash, and no element is lost, doubled or found under
another key. A new key is refused, without harm, only where as many keys have values as the largest
table has nodes. -/
theorem tables_are_maps (H : Hash K) (iscollectable : K → Bool) (size : Nat)
    (as : List (Action K V)) :
    if 2 ^ MAXBITS < size then
      (Table.setnodevector size : Except String (Table K V)) = .error "table overflow"
    else ∃ t outs t' A, Table.setnodevector size = .ok t ∧
      t.run H iscollectable as = some (outs, t') ∧ MapRun (fun _ => none) as outs A ∧
        ∀ k v, t'.Has k v ↔ A k = some v := by
  have hnew := Table.setnodevector_eq (K := K) (V := V) size
  split
  · next hlarge => rw [hnew, if_pos hlarge]
  · next hfits =>
    rw [if_neg hfits] at hnew
    obtain ⟨outs, t', A, hrun, hmap, hholds⟩ := (new_holds H hnew).run iscollectable as
    exact ⟨_, outs, t', A, hnew, hrun, hmap, hholds.has⟩

/-- In every table that a run leaves, a key that is not in its main position collides with one that
is in its own, unless the collector has cleared that one; and every chain entered at a main position
ends within as many links as the table has nodes. -/
theorem collisions_in_main_position (H : Hash K) (iscollectable : K → Bool) {size : Nat}
    {t : Table K V} (hnew : Table.setnodevector size = .ok t) (as : List (Action K V)) :
    ∃ outs t', t.run H iscollectable as = some (outs, t') ∧
      (∀ n k, t'.key n = .live k → n ≠ t'.mainposition H k →
        (∃ k', t'.key (t'.mainposition H k) = .dead k') ∨
          ∃ k', t'.key (t'.mainposition H k) = .live k' ∧
            t'.mainposition H k' = t'.mainposition H k) ∧
      ∀ k, ∃ l, Chain t'.next (some (t'.mainposition H k)) l ∧ l.length ≤ t'.sizenode ∧
        ∀ n, t'.key n = .live k → n ∈ l := by
  obtain ⟨outs, t', A, hrun, -, hholds⟩ := (new_holds H hnew).run iscollectable as
  have hinv := hholds.inv
  refine ⟨outs, t', hrun, fun n k hk hne => hinv.collides n k (.inl hk) hne, fun k => ?_⟩
  obtain ⟨l, hl, hle⟩ := hinv.chain (Table.mainposition_lt hinv k)
  exact ⟨l, hl, hle, fun n hk => (hinv.leads n k (.inl hk)).mem hl⟩

/-- Numbers by their remainder. -/
def remainders : Hash Nat := ⟨fun size k => k % size, fun _ k h => Nat.mod_lt k h⟩

/-- Two keys that collide. -/
def pairActions : List (Action Nat Nat) := [.set 1 (some 10), .set 3 (some 30)]

theorem collisions_in_main_position_pair :
    ∃ outs t', (Table.newvector 0).run remainders (fun _ => true) pairActions = some (outs, t') ∧
      (∀ n k, t'.key n = .live k → n ≠ t'.mainposition remainders k →
        (∃ k', t'.key (t'.mainposition remainders k) = .dead k') ∨
          ∃ k', t'.key (t'.mainposition remainders k) = .live k' ∧
            t'.mainposition remainders k' = t'.mainposition remainders k) ∧
      ∀ k, ∃ l, Chain t'.next (some (t'.mainposition remainders k)) l ∧ l.length ≤ t'.sizenode ∧
        ∀ n, t'.key n = .live k → n ∈ l :=
  collisions_in_main_position remainders (fun _ => true)
    (show Table.setnodevector 0 = .ok (Table.newvector 0) from rfl) pairActions

end LuaFltk.Tables
