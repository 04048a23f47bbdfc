import Mathlib.Tactic

/-!
# Lists threaded through a memory

A singly linked list whose links live in the memory it describes: `next a` is the cell
after `a`, `none` ends the list. `Chain next h l` says that the list with head `h` has
exactly the cells `l`. A chain is finite by definition, so a threaded list that has one is
acyclic. The lemmas say which writes keep a chain and how the usual operations (push, pop,
join) change it.
-/

namespace LuaFltk.Lib

variable {α : Type*} {next next' : α → Option α}

/-- Following `next` from the head visits exactly the cells of the list, then ends. -/
inductive Chain (next : α → Option α) : Option α → List α → Prop where
  | nil : Chain next none []
  | cons {a : α} {l : List α} : Chain next (next a) l → Chain next (some a) (a :: l)

namespace Chain

theorem none_iff {l : List α} : Chain next none l ↔ l = [] := by
  constructor
  · intro h; cases h; rfl
  · rintro rfl; exact .nil

theorem some_iff {a : α} {l : List α} :
    Chain next (some a) l ↔ ∃ t, l = a :: t ∧ Chain next (next a) t := by
  constructor
  · intro h; cases h with | cons h => exact ⟨_, rfl, h⟩
  · rintro ⟨t, rfl, h⟩; exact .cons h

/-- The cells of a threaded list are determined by its head. -/
theorem unique {h : Option α} {l l' : List α} (hl : Chain next h l) (hl' : Chain next h l') :
    l = l' := by
  induction hl generalizing l' with
  | nil => exact (none_iff.1 hl').symm
  | cons _ ih =>
    obtain ⟨t, rfl, ht⟩ := some_iff.1 hl'
    rw [ih ht]

/-- A chain only depends on the links of its own cells. -/
theorem congr {h : Option α} {l : List α} (hl : Chain next h l)
    (same : ∀ a ∈ l, next' a = next a) : Chain next' h l := by
  induction hl with
  | nil => exact .nil
  | @cons a l _ ih =>
    refine .cons ?_
    rw [same a (by simp)]
    exact ih fun b hb => same b (by simp [hb])

/-- The part of a chain from one of its cells on is a chain. -/
theorem of_mem {h : Option α} {l : List α} (hl : Chain next h l) {a : α} (ha : a ∈ l) :
    ∃ t, Chain next (some a) (a :: t) ∧ (a :: t).length ≤ l.length := by
  induction hl with
  | nil => simp at ha
  | @cons b l hb ih =>
    rcases List.mem_cons.1 ha with rfl | ha
    · exact ⟨l, .cons hb, by simp⟩
    · obtain ⟨t, ht, hle⟩ := ih ha
      exact ⟨t, ht, by simp at hle ⊢; omega⟩

/-- No cell occurs twice: the list from its second occurrence would be shorter than, and
by `unique` equal to, the list from its first. -/
theorem nodup {h : Option α} {l : List α} (hl : Chain next h l) : l.Nodup := by
  induction hl with
  | nil => exact .nil
  | @cons a l hl ih =>
    refine List.nodup_cons.2 ⟨fun ha => ?_, ih⟩
    obtain ⟨t, ht, hle⟩ := hl.of_mem ha
    have heq := unique (Chain.cons hl) ht
    rw [← heq] at hle
    simp at hle

/-- Pushing a new cell: its link is set to the old head. -/
theorem push {h : Option α} {l : List α} {a : α} (hl : Chain next h l) (link : next' a = h)
    (same : ∀ b ∈ l, next' b = next b) : Chain next' (some a) (a :: l) :=
  .cons (link ▸ hl.congr same)

/-- Joining two chains: the link of the last cell of the first is set to the head of the
second. -/
theorem join {h h' : Option α} {l l' : List α} {a : α} (hl : Chain next h (l ++ [a]))
    (hl' : Chain next h' l') (link : next' a = h') (same : ∀ b ∈ l, next' b = next b)
    (same' : ∀ b ∈ l', next' b = next b) : Chain next' h (l ++ a :: l') := by
  induction l generalizing h with
  | nil =>
    cases hl with
    | cons _ => exact .cons (link ▸ hl'.congr same')
  | cons b l ih =>
    cases hl with
    | cons hl =>
      refine .cons ?_
      rw [same b (by simp)]
      exact ih hl fun c hc => same c (by simp [hc])

end Chain

end LuaFltk.Lib
