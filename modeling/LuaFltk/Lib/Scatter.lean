import LuaFltk.Lib.Chain

/-!
# Chained scatter tables

Cells linked in chains that may be entered at any of their cells, each cell behind at most one
other. Two operations keep the chains: a free cell goes in behind a cell, or takes the place of one.
What a cell led to before it leads to afterwards, up to the change of place.
-/

namespace LuaFltk.Lib

variable {α : Type*} {next : α → Option α} {a b c n p x y : α}

/-- Following the links from `x` comes to `y`. -/
inductive Leads (next : α → Option α) : α → α → Prop where
  | here (x : α) : Leads next x x
  | on {x c y : α} : next x = some c → Leads next c y → Leads next x y

/-- Following the links from `x` comes to an end. -/
inductive Ends (next : α → Option α) : α → Prop where
  | last {x : α} : next x = none → Ends next x
  | on {x c : α} : next x = some c → Ends next c → Ends next x

/-- What ends is a chain. -/
theorem Ends.chain (h : Ends next x) : ∃ l, Chain next (some x) l := by
  induction h with
  | @last x hnone =>
    refine ⟨[x], .cons ?_⟩
    rw [hnone]
    exact .nil
  | @on x c hsome _ ih =>
    obtain ⟨l, hl⟩ := ih
    refine ⟨x :: l, .cons ?_⟩
    rwa [hsome]

/-- What is led to is on the chain. -/
theorem Leads.mem (h : Leads next x y) {l : List α} (hl : Chain next (some x) l) : y ∈ l := by
  induction h generalizing l with
  | here x =>
    cases hl
    exact List.mem_cons_self
  | @on x c y hc _ ih =>
    cases hl with
    | cons hl =>
      rw [hc] at hl
      exact List.mem_cons_of_mem x (ih hl)

/-- What leads to another cell has the longer chain. -/
theorem Leads.length_lt (h : Leads next x y) (hne : x ≠ y) {l l' : List α}
    (hl : Chain next (some x) l) (hl' : Chain next (some y) l') : l'.length < l.length := by
  induction h generalizing l with
  | here x => exact absurd rfl hne
  | @on x c y hc _ ih =>
    cases hl with
    | @cons _ l hl =>
      rw [hc] at hl
      rw [List.length_cons]
      by_cases hcy : c = y
      · rw [hcy] at hl
        rw [hl.unique hl']
        exact Nat.lt_succ_self _
      · exact Nat.lt_succ_of_lt (ih hcy hl hl')

/-- Where chains end, no cell is behind itself. -/
theorem Ends.ne_next (hx : Ends next x) (hc : next x = some c) : x ≠ c := by
  intro heq
  obtain ⟨l, hl⟩ := hx.chain
  cases hl with
  | cons hl =>
    have hagain := hl
    rw [hc, ← heq] at hagain
    have hlength := congrArg List.length (hl.cons.unique hagain)
    simp at hlength

/-- Where chains end, cells do not lead to one another in turn. -/
theorem Leads.antisymm (h : Leads next x y) (h' : Leads next y x) (hx : Ends next x)
    (hy : Ends next y) : x = y := by
  by_contra hne
  obtain ⟨l, hl⟩ := hx.chain
  obtain ⟨l', hl'⟩ := hy.chain
  exact absurd (h.length_lt hne hl hl') (Nat.lt_asymm (h'.length_lt (Ne.symm hne) hl' hl))

/-- Chains do not run together. -/
def Apart (next : α → Option α) : Prop :=
  ∀ ⦃a b c⦄, next a = some c → next b = some c → a = b

/-- A cell outside all chains. -/
structure Free (next : α → Option α) (n : α) : Prop where
  last : next n = none
  first : ∀ a, next a ≠ some n

variable [DecidableEq α]

/-- The cell `n` behind `a`. -/
def putBehind (next : α → Option α) (a n : α) : α → Option α :=
  Function.update (Function.update next n (next a)) a (some n)

/-- The cell `n` in the place of `b`, behind `p`. -/
def replaceBy (next : α → Option α) (p b n : α) : α → Option α :=
  Function.update (Function.update (Function.update next p (some n)) n (next b)) b none

/-- Where a cell is found after the change of place. -/
def moved (b n x : α) : α := if x = b then n else x

theorem putBehind_new (ha : a ≠ n) : putBehind next a n n = next a := by
  rw [putBehind, Function.update_of_ne ha.symm, Function.update_self]

section Put

variable (hn : Free next n) (ha : a ≠ n)
include hn ha

/-- A new element is taken in without losing one. -/
theorem Leads.putBehind (h : Leads next x y) (hx : x ≠ n) : Leads (putBehind next a n) x y := by
  induction h with
  | here x => exact .here x
  | @on x c y hxc _ ih =>
    have hc : c ≠ n := fun heq => hn.first x (heq ▸ hxc)
    by_cases hxa : x = a
    · subst hxa
      apply Leads.on (c := n) (Function.update_self ..)
      apply Leads.on (c := c) _ (ih hc)
      rw [putBehind_new ha, hxc]
    · apply Leads.on (c := c) _ (ih hc)
      rw [Lib.putBehind, Function.update_of_ne hxa, Function.update_of_ne hx, hxc]

theorem Ends.putBehind_of_ne (h : Ends next x) (hx : x ≠ n) : Ends (putBehind next a n) x := by
  induction h with
  | @last x hnone =>
    by_cases hxa : x = a
    · subst hxa
      apply Ends.on (c := n) (Function.update_self ..)
      exact Ends.last ((putBehind_new ha).trans hnone)
    · apply Ends.last
      rw [Lib.putBehind, Function.update_of_ne hxa, Function.update_of_ne hx, hnone]
  | @on x c hxc _ ih =>
    have hc : c ≠ n := fun heq => hn.first x (heq ▸ hxc)
    by_cases hxa : x = a
    · subst hxa
      apply Ends.on (c := n) (Function.update_self ..)
      apply Ends.on (c := c) _ (ih hc)
      rw [putBehind_new ha, hxc]
    · apply Ends.on (c := c) _ (ih hc)
      rw [Lib.putBehind, Function.update_of_ne hxa, Function.update_of_ne hx, hxc]

/-- All chains go on ending. -/
theorem ends_putBehind (hends : ∀ x, Ends next x) (x : α) : Ends (putBehind next a n) x := by
  by_cases hx : x = n
  · subst hx
    have hax := (hends a).putBehind_of_ne hn ha ha
    cases hax with
    | last h => simp [Lib.putBehind] at h
    | on h hrest =>
      rw [Lib.putBehind, Function.update_self] at h
      cases h
      exact hrest
  · exact (hends x).putBehind_of_ne hn ha hx

end Put

/-- The other free cells stay free. -/
theorem Free.putBehind {m : α} (h : Free next m) (hma : m ≠ a) (hmn : m ≠ n) :
    Free (putBehind next a n) m := by
  constructor
  · rw [Lib.putBehind, Function.update_of_ne hma, Function.update_of_ne hmn, h.last]
  · intro x hx
    rw [Lib.putBehind] at hx
    by_cases hxa : x = a
    · rw [hxa, Function.update_self] at hx
      exact hmn (Option.some.inj hx).symm
    · rw [Function.update_of_ne hxa] at hx
      by_cases hxn : x = n
      · rw [hxn, Function.update_self] at hx
        exact h.first a hx
      · rw [Function.update_of_ne hxn] at hx
        exact h.first x hx

/-- No two chains are joined. -/
theorem Apart.putBehind (h : Apart next) (hn : Free next n) : Apart (putBehind next a n) := by
  have hcases : ∀ x c, Lib.putBehind next a n x = some c →
      x = a ∧ c = n ∨ c ≠ n ∧ (x = n ∧ next a = some c ∨ x ≠ a ∧ x ≠ n ∧ next x = some c) := by
    intro x c hx
    by_cases hxa : x = a
    · rw [hxa, Lib.putBehind, Function.update_self] at hx
      exact .inl ⟨hxa, (Option.some.inj hx).symm⟩
    · rw [Lib.putBehind, Function.update_of_ne hxa] at hx
      by_cases hxn : x = n
      · rw [hxn, Function.update_self] at hx
        exact .inr ⟨fun heq => hn.first a (heq ▸ hx), .inl ⟨hxn, hx⟩⟩
      · rw [Function.update_of_ne hxn] at hx
        exact .inr ⟨fun heq => hn.first x (heq ▸ hx), .inr ⟨hxa, hxn, hx⟩⟩
  intro x y c hx hy
  rcases hcases x c hx with ⟨hxa, hc⟩ | ⟨hc, ⟨hxn, hxc⟩ | ⟨hxa, hxn, hxc⟩⟩ <;>
    rcases hcases y c hy with ⟨hya, hc'⟩ | ⟨hc', ⟨hyn, hyc⟩ | ⟨hya, hyn, hyc⟩⟩
  · rw [hxa, hya]
  · exact absurd hc hc'
  · exact absurd hc hc'
  · exact absurd hc' hc
  · rw [hxn, hyn]
  · exact absurd (h hxc hyc).symm hya
  · exact absurd hc' hc
  · exact absurd (h hxc hyc) hxa
  · exact h hxc hyc

theorem replaceBy_last (hn : Free next n) (hp : next p = some b) (hx : x ≠ n)
    (hnone : next x = none) :
    replaceBy next p b n (moved b n x) = none := by
  have hbn : b ≠ n := fun heq => hn.first p (heq ▸ hp)
  by_cases hxb : x = b
  · rw [moved, if_pos hxb, Lib.replaceBy, Function.update_of_ne hbn.symm, Function.update_self,
      ← hxb, hnone]
  · have hxp : x ≠ p := by
      intro heq
      rw [heq, hp] at hnone
      cases hnone
    rw [moved, if_neg hxb, Lib.replaceBy, Function.update_of_ne hxb, Function.update_of_ne hx,
      Function.update_of_ne hxp, hnone]

section Replace

variable (hn : Free next n) (hp : next p = some b) (hpb : p ≠ b) (hapart : Apart next)
include hn hp hpb hapart

/-- A link leads on after the change of place. -/
theorem replaceBy_on (hx : x ≠ n) (hxc : next x = some c) :
    replaceBy next p b n (moved b n x) = some (moved b n c) := by
  have hbn : b ≠ n := fun heq => hn.first p (heq ▸ hp)
  have hpn : p ≠ n := by
    intro heq
    rw [heq, hn.last] at hp
    cases hp
  by_cases hxb : x = b
  · -- the cell that takes the place has its link
    have hcb : c ≠ b := by
      intro heq
      rw [heq, hxb] at hxc
      exact hpb (hapart hp hxc)
    rw [moved, if_pos hxb, moved, if_neg hcb, replaceBy, Function.update_of_ne hbn.symm,
      Function.update_self, ← hxb, hxc]
  · rw [moved, if_neg hxb, replaceBy, Function.update_of_ne hxb, Function.update_of_ne hx]
    by_cases hcb : c = b
    · rw [hcb] at hxc
      rw [hapart hxc hp, Function.update_self, moved, if_pos hcb]
    · have hxp : x ≠ p := by
        intro heq
        rw [heq, hp] at hxc
        exact hcb (Option.some.inj hxc).symm
      rw [Function.update_of_ne hxp, hxc, moved, if_neg hcb]

/-- The chain goes through the copy now. -/
theorem Leads.replaceBy (h : Leads next x y) (hx : x ≠ n) :
    Leads (replaceBy next p b n) (moved b n x) (moved b n y) := by
  induction h with
  | here x => exact .here _
  | @on x c y hxc _ ih =>
    have hc : c ≠ n := fun heq => hn.first x (heq ▸ hxc)
    exact .on (replaceBy_on hn hp hpb hapart hx hxc) (ih hc)

theorem Ends.replaceBy (h : Ends next x) (hx : x ≠ n) :
    Ends (replaceBy next p b n) (moved b n x) := by
  induction h with
  | last hnone => exact .last (replaceBy_last hn hp hx hnone)
  | @on x c hxc _ ih =>
    have hc : c ≠ n := fun heq => hn.first x (heq ▸ hxc)
    exact .on (replaceBy_on hn hp hpb hapart hx hxc) (ih hc)

/-- All chains go on ending when an element moves. -/
theorem ends_replaceBy (hends : ∀ x, Ends next x) (x : α) : Ends (replaceBy next p b n) x := by
  have hbn : b ≠ n := fun heq => hn.first p (heq ▸ hp)
  by_cases hxb : x = b
  · apply Ends.last
    rw [hxb, Lib.replaceBy, Function.update_self]
  · by_cases hxn : x = n
    · have hb := (hends b).replaceBy hn hp hpb hapart hbn
      rw [moved, if_pos rfl] at hb
      rwa [hxn]
    · have hx := (hends x).replaceBy hn hp hpb hapart hxn
      rwa [moved, if_neg hxb] at hx

/-- The links after the change of place come from links before it. -/
theorem replaceBy_from (h : replaceBy next p b n x = some y) :
    ∃ x' y', x' ≠ n ∧ next x' = some y' ∧ x = moved b n x' ∧ y = moved b n y' := by
  have hbn : b ≠ n := fun heq => hn.first p (heq ▸ hp)
  have hback : ∀ x', x' ≠ n → x = moved b n x' →
      ∃ x' y', x' ≠ n ∧ next x' = some y' ∧ x = moved b n x' ∧ y = moved b n y' := by
    intro x' hx' heq
    cases hnext : next x' with
    | none =>
      rw [heq, replaceBy_last hn hp hx' hnext] at h
      cases h
    | some c =>
      rw [heq, replaceBy_on hn hp hpb hapart hx' hnext] at h
      exact ⟨x', c, hx', hnext, heq, (Option.some.inj h).symm⟩
  by_cases hxb : x = b
  · rw [hxb, Lib.replaceBy, Function.update_self] at h
    cases h
  · by_cases hxn : x = n
    · exact hback b hbn (by rw [moved, if_pos rfl, hxn])
    · exact hback x hxn (by rw [moved, if_neg hxb])

theorem Free.replaceBy {m : α} (h : Free next m) (hmb : m ≠ b) (hmn : m ≠ n) :
    Free (replaceBy next p b n) m := by
  constructor
  · have hlast := replaceBy_last hn hp hmn h.last
    rwa [moved, if_neg hmb] at hlast
  · intro x hx
    obtain ⟨y, z, -, hyz, -, hmz⟩ := replaceBy_from hn hp hpb hapart hx
    rw [moved] at hmz
    split at hmz
    · exact hmn hmz
    · exact h.first y (hmz ▸ hyz)

/-- No two chains are joined when an element moves. -/
theorem Apart.replaceBy : Apart (replaceBy next p b n) := by
  intro x y c hx hy
  obtain ⟨x', c₁, -, hx', rfl, hc₁⟩ := replaceBy_from hn hp hpb hapart hx
  obtain ⟨y', c₂, -, hy', rfl, hc₂⟩ := replaceBy_from hn hp hpb hapart hy
  have hne : ∀ z d, next z = some d → d ≠ n := fun z d hz heq => hn.first z (heq ▸ hz)
  have heq : c₁ = c₂ := by
    have hmoved := hc₁.symm.trans hc₂
    have h₁ := hne x' c₁ hx'
    have h₂ := hne y' c₂ hy'
    rw [moved, moved] at hmoved
    split at hmoved <;> split at hmoved
    · next h h' => rw [h, h']
    · exact absurd hmoved.symm h₂
    · exact absurd hmoved h₁
    · exact hmoved
  rw [heq] at hx'
  rw [hapart hx' hy']

end Replace

end LuaFltk.Lib
