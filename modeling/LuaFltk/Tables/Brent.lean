import LuaFltk.Tables.Node

/-!
# The invariant of tables

Every key is found from its main position, each at one node; a key that is not in its main position
collides with one that is, which is why a chain entered at a main position is the chain of the key.
-/

namespace LuaFltk.Tables

open Lib

variable {K V : Type} [DecidableEq K] {H : Hash K} {t t' : Table K V} {k : K}

namespace Table

/-- The key has the value. -/
def Has (t : Table K V) (k : K) (v : V) : Prop := ∃ n, t.key n = .live k ∧ t.val n = some v

/-- How many nodes of the vector have been used. -/
def used (t : Table K V) : Nat := ((Finset.range t.sizenode).filter fun n => t.key n ≠ .nil).card

/-- The node has the key, which the collector may have cleared. -/
def Known (t : Table K V) (n : Nat) (k : K) : Prop := t.key n = .live k ∨ t.key n = .dead k

/-- The key of the node in the main position of `k`, unless it was cleared, has the same main
position. -/
def Collides (H : Hash K) (t : Table K V) (k : K) : Prop :=
  (∃ k', t.key (t.mainposition H k) = .dead k') ∨
    ∃ k', t.key (t.mainposition H k) = .live k' ∧ t.mainposition H k' = t.mainposition H k

structure Inv (H : Hash K) (t : Table K V) : Prop where
  size : 0 < t.sizenode
  bound : t.lastfree ≤ t.sizenode
  ends : ∀ n, Ends t.next n
  apart : Apart t.next
  free : ∀ n, t.key n = .nil → Free t.next n
  inside : ∀ n, t.key n ≠ .nil → n < t.sizenode
  keyed : ∀ n, (t.val n).isSome → ∃ k, t.key n = .live k
  leads : ∀ n k, t.Known n k → Leads t.next (t.mainposition H k) n
  once : ∀ n m k, t.key n = .live k → t.key m = .live k → n = m
  first : ∀ n m k, t.key n = .live k → t.key m = .dead k → Leads t.next n m
  collides : ∀ n k, t.Known n k → n ≠ t.mainposition H k → t.Collides H k
  lastfree : t.dummy = false → ∀ n < t.sizenode, t.lastfree ≤ n → t.key n ≠ .nil
  empty : t.dummy = true → t.lastfree = 0
  dummy : t.dummy = true → ∀ n, t.key n = .nil

omit [DecidableEq K] in
theorem mainposition_lt (h : t.Inv H) (k : K) : t.mainposition H k < t.sizenode := H.lt _ k h.size

/-! ## Searching -/

omit [DecidableEq K] in
/-- The nodes of a chain lie in the vector, each once. -/
theorem Inv.chain (h : t.Inv H) {n : Nat} (hn : n < t.sizenode) :
    ∃ l, Chain t.next (some n) l ∧ l.length ≤ t.sizenode := by
  obtain ⟨l, hl⟩ := (h.ends n).chain
  have hinside : ∀ o l, Chain t.next o l → (∀ a ∈ o, a < t.sizenode) → ∀ a ∈ l, a < t.sizenode := by
    intro o l hl
    induction hl with
    | nil => exact fun _ => List.forall_mem_nil _
    | @cons b l _ ih =>
      intro ho
      refine List.forall_mem_cons.2 ⟨ho b rfl, ih fun a ha => h.inside a fun hnil => ?_⟩
      exact (h.free a hnil).first b ha
  have hsub : l ⊆ List.range t.sizenode := fun a ha =>
    List.mem_range.2 (hinside _ _ hl (fun b hb => by cases hb; exact hn) a ha)
  refine ⟨l, hl, ?_⟩
  have hle := (List.subperm_of_subset hl.nodup hsub).length_le
  rwa [List.length_range] at hle

/-- A search that comes past the node of its key, in as many turns as the chain is long, finds
it. -/
theorem findLoop_live {turns n m : Nat} {l : List Nat} (hl : Chain t.next (some n) l)
    (hturns : l.length ≤ turns) (hm : Leads t.next n m) (hk : t.key m = .live k)
    (honce : ∀ m', t.key m' = .live k → m' = m) : t.findLoop k turns n = some (some m) := by
  induction turns generalizing n l with
  | zero => cases hl; cases hturns
  | succ turns ih =>
    cases hl with
    | cons hl =>
      rw [findLoop]
      by_cases hn : t.key n = .live k
      · rw [if_pos hn, honce n hn]
      · rw [if_neg hn]
        cases hm with
        | here => exact absurd hk hn
        | @on _ c _ hc hm =>
          rw [hc] at hl ⊢
          exact ih hl (Nat.le_of_succ_le_succ hturns) hm

/-- Without a node for the key the chain is left at its end. -/
theorem findLoop_absent {turns n : Nat} {l : List Nat} (hl : Chain t.next (some n) l)
    (hturns : l.length ≤ turns) (habsent : ∀ m, t.key m ≠ .live k) :
    t.findLoop k turns n = some none := by
  induction turns generalizing n l with
  | zero => cases hl; cases hturns
  | succ turns ih =>
    cases hl with
    | cons hl =>
      rw [findLoop, if_neg (habsent n)]
      cases hc : t.next n with
      | none => rfl
      | some c =>
        rw [hc] at hl
        exact ih hl (Nat.le_of_succ_le_succ hturns)

/-- A key is found at its node. -/
theorem Inv.get_live (h : t.Inv H) {n : Nat} (hk : t.key n = .live k) :
    t.luaH_get H k = some (some n) := by
  obtain ⟨l, hl, hle⟩ := h.chain (mainposition_lt h k)
  exact findLoop_live hl hle (h.leads n k (.inl hk)) hk fun m hm => h.once m n k hm hk

/-- A key without a node is not found. -/
theorem Inv.get_absent (h : t.Inv H) (habsent : ∀ m, t.key m ≠ .live k) :
    t.luaH_get H k = some none := by
  obtain ⟨l, hl, hle⟩ := h.chain (mainposition_lt h k)
  exact findLoop_absent hl hle habsent

/-- The search ends, with the node of the key if there is one. -/
theorem Inv.get_cases (h : t.Inv H) (k : K) :
    (∃ n, t.key n = .live k ∧ t.luaH_get H k = some (some n)) ∨
      (∀ m, t.key m ≠ .live k) ∧ t.luaH_get H k = some none := by
  by_cases hk : ∃ n, t.key n = .live k
  · obtain ⟨n, hn⟩ := hk
    exact .inl ⟨n, hn, h.get_live hn⟩
  · push Not at hk
    exact .inr ⟨hk, h.get_absent hk⟩

omit [DecidableEq K] in
/-- A node on a chain, but the first, has one before it. -/
theorem previous_spec {mp turns n : Nat} {l : List Nat} (hl : Chain t.next (some n) l)
    (hturns : l.length ≤ turns) (hmp : Leads t.next n mp) (hne : n ≠ mp) :
    ∃ p, previous t.next mp turns n = some p ∧ t.next p = some mp := by
  induction turns generalizing n l with
  | zero => cases hl; cases hturns
  | succ turns ih =>
    cases hl with
    | cons hl =>
      cases hmp with
      | here => exact absurd rfl hne
      | @on _ c _ hc hmp =>
        rw [previous, hc]
        by_cases hcmp : c = mp
        · exact ⟨n, if_pos hcmp, by rw [hc, hcmp]⟩
        · dsimp only
          rw [if_neg hcmp]
          rw [hc] at hl
          exact ih hl (Nat.le_of_succ_le_succ hturns) hmp hcmp

/-! ## Free places -/

/-- The free place found is the topmost one, and `lastfree` is left there. -/
theorem freeLoop_some {key : Nat → Key K} {last n m : Nat} (h : freeLoop key last = (some n, m)) :
    m = n ∧ n < last ∧ key n = .nil ∧ ∀ i < last, n < i → key i ≠ .nil := by
  induction last with
  | zero => cases h
  | succ last ih =>
    rw [freeLoop] at h
    split at h
    · next hnil =>
      cases h
      exact ⟨rfl, Nat.lt_succ_self _, hnil, fun i hi hlt => by omega⟩
    · next hused =>
      obtain ⟨hm, hlt, hnil, habove⟩ := ih h
      refine ⟨hm, Nat.lt_succ_of_lt hlt, hnil, fun i hi hni => ?_⟩
      rcases Nat.lt_or_ge i last with hi' | hi'
      · exact habove i hi' hni
      · rwa [show i = last by omega]

/-- No place below `lastfree` is free, and it is left at the first node. -/
theorem freeLoop_none {key : Nat → Key K} {last m : Nat} (h : freeLoop key last = (none, m)) :
    m = 0 ∧ ∀ i < last, key i ≠ .nil := by
  induction last with
  | zero =>
    cases h
    exact ⟨rfl, fun i hi => absurd hi (Nat.not_lt_zero i)⟩
  | succ last ih =>
    rw [freeLoop] at h
    split at h
    · cases h
    · next hused =>
      refine ⟨(ih h).1, fun i hi => ?_⟩
      rcases Nat.lt_or_ge i last with hi' | hi'
      · exact (ih h).2 i hi'
      · rwa [show i = last by omega]

end Table

end LuaFltk.Tables
