import Mathlib.Tactic

/-!
# Rings of cells linked both ways

A doubly linked ring through a head cell. A cell is put in behind the head, and taken out
anywhere by linking the two next to it.
-/

namespace LuaFltk.Lib

variable {α : Type*} {next prev next' prev' : α → Option α} {h a p q : α} {l s t : List α}

/-- `b` is behind `a`, and is linked back to it. -/
def Joined (next prev : α → Option α) (a b : α) : Prop := next a = some b ∧ prev b = some a

/-- The cells from the head round to the head. -/
structure Ring (next prev : α → Option α) (h : α) (l : List α) : Prop where
  joined : (h :: l ++ [h]).IsChain (Joined next prev)
  nodup : (h :: l).Nodup

namespace Ring

/-- A ring of the head alone. -/
theorem empty (hnext : next h = some h) (hprev : prev h = some h) : Ring next prev h [] :=
  ⟨.cons_cons ⟨hnext, hprev⟩ (.singleton h), List.nodup_singleton h⟩

/-- Links outside the ring may change. -/
theorem congr (hring : Ring next prev h l) (hnext : ∀ b ∈ h :: l, next' b = next b)
    (hprev : ∀ b ∈ h :: l, prev' b = prev b) : Ring next' prev' h l := by
  refine ⟨hring.joined.imp_of_mem_imp ?_, hring.nodup⟩
  have hmem : ∀ b ∈ h :: l ++ [h], b ∈ h :: l := by
    intro b hb
    simp only [List.mem_cons, List.mem_append, List.not_mem_nil, or_false] at hb ⊢
    tauto
  rintro b c hb hc ⟨hbc, hcb⟩
  exact ⟨(hnext b (hmem b hb)).trans hbc, (hprev c (hmem c hc)).trans hcb⟩

/-- The cells on both sides of one in the ring. -/
theorem split (hring : Ring next prev h (s ++ a :: t)) : ∃ X p q Y, h :: s = X ++ [p] ∧
    t ++ [h] = q :: Y ∧ (X ++ [p]).IsChain (Joined next prev) ∧ Joined next prev p a ∧
    Joined next prev a q ∧ (q :: Y).IsChain (Joined next prev) := by
  have hchain := hring.joined
  rw [List.cons_append, List.append_assoc, List.cons_append, ← List.cons_append] at hchain
  obtain ⟨X, p, hX⟩ := List.eq_nil_or_concat' (h :: s) |>.resolve_left (List.cons_ne_nil h s)
  obtain ⟨q, Y, hY⟩ := List.exists_cons_of_ne_nil (show t ++ [h] ≠ [] by simp)
  rw [hX, hY, List.append_assoc] at hchain
  obtain ⟨hleft, hpa, hright⟩ := List.isChain_append_cons_cons.1 hchain
  obtain ⟨haq, hright⟩ := List.isChain_cons_cons.1 hright
  exact ⟨X, p, q, Y, hX, hY, hleft, hpa, haq, hright⟩

/-- An element of the ring has two neighbours that are not itself. -/
theorem joined_of_mem (hring : Ring next prev h l) (ha : a ∈ l) : ∃ p ∈ h :: l, ∃ q ∈ h :: l,
    p ≠ a ∧ q ≠ a ∧ Joined next prev p a ∧ Joined next prev a q := by
  obtain ⟨s, t, rfl⟩ := List.append_of_mem ha
  obtain ⟨X, p, q, Y, hX, hY, -, hpa, haq, -⟩ := hring.split
  have hnodup := hring.nodup
  rw [← List.cons_append, List.nodup_middle, List.nodup_cons] at hnodup
  have hp : p ∈ h :: s := by rw [hX]; simp
  have hq : q ∈ t ++ [h] := by rw [hY]; simp
  have hp' : p ∈ h :: s ++ t := List.mem_append_left t hp
  have hq' : q ∈ h :: s ++ t := by
    simp only [List.mem_cons, List.mem_append, List.not_mem_nil, or_false] at hq ⊢
    tauto
  have hsub : ∀ b ∈ h :: s ++ t, b ∈ h :: (s ++ a :: t) := by
    intro b hb
    simp only [List.mem_cons, List.mem_append] at hb ⊢
    tauto
  refine ⟨p, hsub p hp', q, hsub q hq', ?_, ?_, hpa, haq⟩
  · rintro rfl
    exact hnodup.1 hp'
  · rintro rfl
    exact hnodup.1 hq'

theorem head_joined (hring : Ring next prev h l) : ∃ q ∈ h :: l, Joined next prev h q := by
  have hchain := hring.joined
  cases l with
  | nil => exact ⟨h, by simp, (List.isChain_cons_cons.1 hchain).1⟩
  | cons b l => exact ⟨b, by simp, (List.isChain_cons_cons.1 hchain).1⟩

theorem joined_head (hring : Ring next prev h l) : ∃ p ∈ h :: l, Joined next prev p h := by
  obtain ⟨X, p, hX⟩ := List.eq_nil_or_concat' (h :: l) |>.resolve_left (List.cons_ne_nil h l)
  have hchain := hring.joined
  rw [hX, List.append_assoc] at hchain
  refine ⟨p, by rw [hX]; simp, (List.isChain_append_cons_cons.1 hchain).2.1⟩

/-- Every cell of the ring has its two links. -/
theorem links_of_mem (hring : Ring next prev h l) (ha : a ∈ h :: l) :
    (∃ q, next a = some q) ∧ ∃ p, prev a = some p := by
  rcases List.mem_cons.1 ha with rfl | ha
  · obtain ⟨q, -, hq⟩ := hring.head_joined
    obtain ⟨p, -, hp⟩ := hring.joined_head
    exact ⟨⟨q, hq.1⟩, p, hp.2⟩
  · obtain ⟨p, -, q, -, -, -, hp, hq⟩ := hring.joined_of_mem ha
    exact ⟨⟨q, hq.1⟩, p, hp.2⟩

/-- The ring from behind its head, which comes last. -/
theorem nodup_round (hring : Ring next prev h l) : (l ++ [h]).Nodup := by
  have hnodup := List.nodup_cons.1 hring.nodup
  rw [List.nodup_append]
  refine ⟨hnodup.2, List.nodup_singleton h, ?_⟩
  rintro b hb c hc rfl
  rw [List.mem_singleton.1 hc] at hb
  exact hnodup.1 hb

/-- A new cell behind the head. -/
theorem insert (hring : Ring next prev h l) (ha : a ∉ h :: l) (hq : next h = some q)
    (hha : Joined next' prev' h a) (haq : Joined next' prev' a q)
    (hnext : ∀ b ∈ l, next' b = next b) (hprev : ∀ b ∈ h :: l, b ≠ q → prev' b = prev b) :
    Ring next' prev' h (a :: l) := by
  rw [List.mem_cons, not_or] at ha
  refine ⟨?_, ?_⟩
  · obtain ⟨q', Y, hY⟩ := List.exists_cons_of_ne_nil (show l ++ [h] ≠ [] by simp)
    have hchain := hring.joined
    have hround := hring.nodup_round
    rw [List.cons_append, hY] at hchain
    obtain ⟨hhq, hchain⟩ := List.isChain_cons_cons.1 hchain
    obtain rfl : q' = q := Option.some.inj (hhq.1.symm.trans hq)
    rw [List.cons_append, List.cons_append, hY]
    refine .cons_cons hha (.cons_cons haq (hchain.imp_of_mem_tail_imp ?_))
    rintro b c hb hc ⟨hbc, hcb⟩
    rw [hY] at hround
    have hcq : c ≠ q' := fun heq => (List.nodup_cons.1 hround).1 (heq ▸ hc)
    have hbh : b ≠ h := by
      rintro rfl
      exact hcq (Option.some.inj (hbc.symm.trans hq))
    have hc' : c ∈ q' :: Y := List.mem_cons_of_mem q' hc
    rw [← hY, List.mem_append, List.mem_singleton] at hb hc'
    refine ⟨?_, ?_⟩
    · rw [hnext b (hb.resolve_right hbh), hbc]
    · rw [hprev c (List.mem_cons.2 hc'.symm) hcq, hcb]
  · have hnodup := List.nodup_cons.1 hring.nodup
    rw [List.nodup_cons, List.mem_cons, not_or, List.nodup_cons]
    exact ⟨⟨Ne.symm ha.1, hnodup.1⟩, ha.2, hnodup.2⟩

/-- A cell is taken out. -/
theorem remove (hring : Ring next prev h (s ++ a :: t)) (hp : prev a = some p)
    (hq : next a = some q) (hpq : Joined next' prev' p q)
    (hnext : ∀ b ∈ h :: s ++ t, b ≠ p → next' b = next b)
    (hprev : ∀ b ∈ h :: s ++ t, b ≠ q → prev' b = prev b) : Ring next' prev' h (s ++ t) := by
  obtain ⟨X, p', q', Y, hX, hY, hleft, hpa, haq, hright⟩ := hring.split
  obtain rfl : p' = p := Option.some.inj (hpa.2.symm.trans hp)
  obtain rfl : q' = q := Option.some.inj (haq.1.symm.trans hq)
  have hnodup := hring.nodup
  rw [← List.cons_append, List.nodup_middle, List.nodup_cons] at hnodup
  -- the links of a pair without `a` stay
  have hpair : ∀ b c, b ∈ h :: s ++ t → c ∈ h :: s ++ t → Joined next prev b c →
      Joined next' prev' b c := by
    rintro b c hb hc ⟨hbc, hcb⟩
    refine ⟨?_, ?_⟩
    · rw [hnext b hb, hbc]
      rintro rfl
      obtain rfl := Option.some.inj (hbc.symm.trans hpa.1)
      exact hnodup.1 hc
    · rw [hprev c hc, hcb]
      rintro rfl
      obtain rfl := Option.some.inj (hcb.symm.trans haq.2)
      exact hnodup.1 hb
  refine ⟨?_, hnodup.2⟩
  have hmemX : ∀ b ∈ X ++ [p'], b ∈ h :: s ++ t := by
    intro b hb
    rw [← hX] at hb
    exact List.mem_append_left t hb
  have hmemY : ∀ b ∈ q' :: Y, b ∈ h :: s ++ t := by
    intro b hb
    rw [← hY] at hb
    simp only [List.mem_append, List.mem_cons, List.not_mem_nil, or_false] at hb ⊢
    tauto
  rw [← List.cons_append, List.append_assoc, hX, hY, List.append_assoc, List.singleton_append]
  refine List.isChain_append_cons_cons.2 ⟨?_, hpq, ?_⟩
  · exact hleft.imp_of_mem_imp fun b c hb hc => hpair b c (hmemX b hb) (hmemX c hc)
  · exact hright.imp_of_mem_imp fun b c hb hc => hpair b c (hmemY b hb) (hmemY c hc)

end Ring

end LuaFltk.Lib
