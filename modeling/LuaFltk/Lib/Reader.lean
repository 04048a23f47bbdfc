import Mathlib.Tactic

/-!
# Readers of binary formats

A reader takes symbols from the front of an input, or fails. The input is a state of any type, of
which only the symbols ahead matter. Three things are said of readers, each kept by sequencing: that
it reads what a writer has written; that it looks no further than what it takes, so that a longer
input changes nothing; and that what it gives has a property. From the first two, what was written
and then cut short is refused.
-/

namespace LuaFltk.Lib

variable {σ β ε α γ : Type}

abbrev Reader (σ ε : Type) := StateT σ (Except ε)

namespace Reader

def fail (e : ε) : Reader σ ε α := fun _ => .error e

/-- `n` times in a row. -/
def times (r : Reader σ ε α) : Nat → Reader σ ε (List α)
  | 0 => pure []
  | n + 1 => do
    let x ← r
    let xs ← times r n
    pure (x :: xs)

theorem bind_apply (r : Reader σ ε α) (f : α → Reader σ ε γ) (s : σ) :
    (r >>= f) s = match r s with
      | .ok (x, s') => f x s'
      | .error e => .error e := by
  change Except.bind (r s) _ = _
  cases r s <;> rfl

section Input

variable (ahead : σ → List β)

/-- `take n` gives the next `n` symbols, and `eof` when there are fewer. -/
structure Takes (eof : ε) (take : Nat → Reader σ ε (List β)) : Prop where
  enough : ∀ n s, n ≤ (ahead s).length →
    ∃ s', take n s = .ok ((ahead s).take n, s') ∧ ahead s' = (ahead s).drop n
  short : ∀ n s, (ahead s).length < n → take n s = .error eof

/-- From an input that begins with `bs`, `x` is read and the rest left. -/
def Reads (r : Reader σ ε α) (bs : List β) (x : α) : Prop :=
  ∀ s rest, ahead s = bs ++ rest → ∃ s', r s = .ok (x, s') ∧ ahead s' = rest

/-- From an input that begins with `bs`, reading fails with `e`. -/
def Refuses (r : Reader σ ε α) (bs : List β) (e : ε) : Prop :=
  ∀ s rest, ahead s = bs ++ rest → r s = .error e

/-- More input changes nothing, unless the input had come to its end. -/
structure Local (eof : ε) (r : Reader σ ε α) : Prop where
  ok : ∀ s t more x s', ahead t = ahead s ++ more → r s = .ok (x, s') →
    ∃ t', r t = .ok (x, t') ∧ ahead t' = ahead s' ++ more
  error : ∀ s t more e, ahead t = ahead s ++ more → r s = .error e → e = eof ∨ r t = .error e

end Input

/-- What is read has the property. -/
def Gives (r : Reader σ ε α) (P : α → Prop) : Prop :=
  ∀ s x s', r s = .ok (x, s') → P x

variable {ahead : σ → List β} {eof : ε} {next : Nat → Reader σ ε (List β)}

/-! ## Reading what was written -/

theorem Reads.pure (x : α) : Reads ahead (pure x : Reader σ ε α) [] x :=
  fun s _ hs => ⟨s, rfl, hs⟩

/-- What is written in two parts is read in two parts. -/
theorem Reads.bind {r : Reader σ ε α} {f : α → Reader σ ε γ} {bs bs' : List β} {x : α} {y : γ}
    (h : Reads ahead r bs x) (h' : Reads ahead (f x) bs' y) :
    Reads ahead (r >>= f) (bs ++ bs') y := by
  intro s rest hs
  rw [List.append_assoc] at hs
  obtain ⟨s₁, hr, hs₁⟩ := h s _ hs
  obtain ⟨s₂, hf, hs₂⟩ := h' s₁ rest hs₁
  refine ⟨s₂, ?_, hs₂⟩
  rw [bind_apply, hr]
  exact hf

/-- The last part of a reader only computes. -/
theorem Reads.map {r : Reader σ ε α} {f : α → Reader σ ε γ} {bs : List β} {x : α} {y : γ}
    (h : Reads ahead r bs x) (h' : f x = Pure.pure y) : Reads ahead (r >>= f) bs y := by
  have hrest : Reads ahead (f x) [] y := by
    rw [h']
    exact .pure y
  have hbind := h.bind hrest
  rwa [List.append_nil] at hbind

/-- A primitive that takes bytes reads any bytes of that number. -/
theorem Reads.take (h : Takes ahead eof next) (bs : List β) :
    Reads ahead (next bs.length) bs bs := by
  intro s rest hs
  obtain ⟨s', hr, hs'⟩ := h.enough bs.length s (by rw [hs, List.length_append]; omega)
  rw [hs, List.take_left] at hr
  rw [hs, List.drop_left] at hs'
  exact ⟨s', hr, hs'⟩

/-- By induction on the elements. -/
theorem Reads.times {r : Reader σ ε α} {enc : γ → List β} {dec : γ → α} {xs : List γ}
    (h : ∀ x ∈ xs, Reads ahead r (enc x) (dec x)) :
    Reads ahead (times r xs.length) (xs.flatMap enc) (xs.map dec) := by
  induction xs with
  | nil => exact .pure []
  | cons x xs ih =>
    rw [List.forall_mem_cons] at h
    exact h.1.bind ((ih h.2).map rfl)

/-! ## Refusing what was written -/

theorem Refuses.fail (bs : List β) (e : ε) : Refuses ahead (fail e : Reader σ ε α) bs e :=
  fun _ _ _ => rfl

/-- Behind an error nothing is read. -/
theorem Refuses.bind {r : Reader σ ε α} {bs : List β} {e : ε} (h : Refuses ahead r bs e)
    (f : α → Reader σ ε γ) (bs' : List β) : Refuses ahead (r >>= f) (bs ++ bs') e := by
  intro s rest hs
  rw [List.append_assoc] at hs
  rw [bind_apply, h s _ hs]

/-- An error in the second part is the error of both. -/
theorem Reads.refuses {r : Reader σ ε α} {f : α → Reader σ ε γ} {bs bs' : List β} {x : α} {e : ε}
    (h : Reads ahead r bs x) (h' : Refuses ahead (f x) bs' e) :
    Refuses ahead (r >>= f) (bs ++ bs') e := by
  intro s rest hs
  rw [List.append_assoc] at hs
  obtain ⟨s₁, hr, hs₁⟩ := h s _ hs
  rw [bind_apply, hr]
  exact h' s₁ rest hs₁

/-- One of several is refused, and those before it are read or refused too. -/
theorem Refuses.times {r : Reader σ ε α} {enc : γ → List β} {dec : γ → α} {e : ε} {xs : List γ}
    (h : ∀ x ∈ xs, Reads ahead r (enc x) (dec x) ∨ Refuses ahead r (enc x) e)
    (hne : ∃ x ∈ xs, Refuses ahead r (enc x) e) :
    Refuses ahead (times r xs.length) (xs.flatMap enc) e := by
  induction xs with
  | nil => simp at hne
  | cons x xs ih =>
    rw [List.forall_mem_cons] at h
    by_cases hx : Refuses ahead r (enc x) e
    · exact hx.bind _ _
    · have hread := h.1.resolve_right hx
      obtain ⟨y, hy, hrefuses⟩ := hne
      have hmem : y ∈ xs := (List.mem_cons.1 hy).resolve_left fun heq => hx (heq ▸ hrefuses)
      have hxs := (ih h.2 ⟨y, hmem, hrefuses⟩).bind (fun ys => Pure.pure (dec x :: ys)) []
      rw [List.append_nil] at hxs
      exact hread.refuses hxs

/-! ## Looking no further -/

theorem Local.pure (x : α) : Local ahead eof (pure x : Reader σ ε α) where
  ok := by
    intro s t more y s' ht h
    cases h
    exact ⟨t, rfl, ht⟩
  error := by
    intro s t more e ht h
    cases h

theorem Local.fail (e : ε) : Local ahead eof (fail e : Reader σ ε α) where
  ok := by
    intro s t more y s' ht h
    cases h
  error := fun _ _ _ _ _ h => .inr h

/-- A primitive that takes bytes looks at no others. -/
theorem Local.take (h : Takes ahead eof next) (n : Nat) : Local ahead eof (next n) where
  ok := by
    intro s t more x s' ht hr
    by_cases hn : n ≤ (ahead s).length
    · obtain ⟨s₁, hr₁, hs₁⟩ := h.enough n s hn
      cases hr.symm.trans hr₁
      obtain ⟨t', ht₁, ht'⟩ := h.enough n t (by rw [ht, List.length_append]; omega)
      rw [ht, List.take_append_of_le_length hn] at ht₁
      rw [ht, List.drop_append_of_le_length hn, ← hs₁] at ht'
      exact ⟨t', ht₁, ht'⟩
    · cases hr.symm.trans (h.short n s (by omega))
  error := by
    intro s t more e ht hr
    by_cases hn : n ≤ (ahead s).length
    · obtain ⟨s₁, hr₁, -⟩ := h.enough n s hn
      cases hr.symm.trans hr₁
    · cases hr.symm.trans (h.short n s (by omega))
      exact .inl rfl

/-- Readers that look only at what they take may follow each other. -/
theorem Local.bind {r : Reader σ ε α} {f : α → Reader σ ε γ} (h : Local ahead eof r)
    (h' : ∀ x, Local ahead eof (f x)) : Local ahead eof (r >>= f) where
  ok := by
    intro s t more y s' ht hr
    rw [bind_apply] at hr
    cases hs : r s with
    | error e => rw [hs] at hr; cases hr
    | ok p =>
      rw [hs] at hr
      obtain ⟨t₁, hr₁, ht₁⟩ := h.ok s t more p.1 p.2 ht hs
      rw [bind_apply, hr₁]
      exact (h' p.1).ok p.2 t₁ more y s' ht₁ hr
  error := by
    intro s t more e ht hr
    rw [bind_apply] at hr
    cases hs : r s with
    | error e' =>
      rw [hs] at hr
      cases hr
      refine (h.error s t more e ht hs).imp_right fun hmore => ?_
      rw [bind_apply, hmore]
    | ok p =>
      rw [hs] at hr
      obtain ⟨t₁, hr₁, ht₁⟩ := h.ok s t more p.1 p.2 ht hs
      rw [bind_apply, hr₁]
      exact (h' p.1).error p.2 t₁ more e ht₁ hr

theorem Local.ite {c : Prop} [Decidable c] {r r' : Reader σ ε α} (h : Local ahead eof r)
    (h' : Local ahead eof r') : Local ahead eof (if c then r else r') := by
  split
  · exact h
  · exact h'

/-- By induction on the number. -/
theorem Local.times {r : Reader σ ε α} (h : Local ahead eof r) (n : Nat) :
    Local ahead eof (times r n) := by
  induction n with
  | zero => exact .pure []
  | succ n ih => exact h.bind fun x => ih.bind fun xs => .pure (x :: xs)

/-- What was written and then cut short is refused at its end. -/
theorem Local.truncated {r : Reader σ ε α} {bs : List β} {x : α} {s t : σ}
    (h : Local ahead eof r) (hreads : Reads ahead r bs x) (ht : ahead t = bs)
    (hcut : ahead s <+: bs) (hne : ahead s ≠ bs) : r s = .error eof := by
  obtain ⟨more, hmore⟩ := hcut
  obtain ⟨t', hall, ht'⟩ := hreads t [] (by rw [ht, List.append_nil])
  have hst : ahead t = ahead s ++ more := ht.trans hmore.symm
  cases hr : r s with
  | error e =>
    rcases h.error s t more e hst hr with rfl | he
    · rfl
    · cases hall.symm.trans he
  | ok p =>
    obtain ⟨t₁, hr₁, ht₁⟩ := h.ok s t more p.1 p.2 hst hr
    cases hall.symm.trans hr₁
    rw [ht', List.nil_eq, List.append_eq_nil_iff] at ht₁
    rw [ht₁.2, List.append_nil] at hmore
    exact absurd hmore hne

/-- The same of what is refused: its beginning is refused, there or at its end. -/
theorem Local.truncated_refused {r : Reader σ ε α} {bs : List β} {e : ε} {s t : σ}
    (h : Local ahead eof r) (hrefuses : Refuses ahead r bs e) (ht : ahead t = bs)
    (hcut : ahead s <+: bs) : r s = .error eof ∨ r s = .error e := by
  obtain ⟨more, hmore⟩ := hcut
  have hall := hrefuses t [] (by rw [ht, List.append_nil])
  have hst : ahead t = ahead s ++ more := ht.trans hmore.symm
  cases hr : r s with
  | error e' =>
    rcases h.error s t more e' hst hr with rfl | he
    · exact .inl rfl
    · cases hall.symm.trans he
      exact .inr rfl
  | ok p =>
    obtain ⟨t₁, hr₁, -⟩ := h.ok s t more p.1 p.2 hst hr
    cases hall.symm.trans hr₁

/-! ## What is read -/

theorem Gives.pure {P : α → Prop} {x : α} (h : P x) : Gives (pure x : Reader σ ε α) P := by
  intro s y s' hr
  cases hr
  exact h

theorem Gives.fail (P : α → Prop) (e : ε) : Gives (fail e : Reader σ ε α) P := by
  intro s y s' hr
  cases hr

/-- As many bytes as were asked for. -/
theorem Gives.take (h : Takes ahead eof next) (n : Nat) :
    Gives (next n) fun bs => bs.length = n := by
  intro s x s' hr
  by_cases hn : n ≤ (ahead s).length
  · obtain ⟨s₁, hr₁, -⟩ := h.enough n s hn
    cases hr.symm.trans hr₁
    rw [List.length_take, Nat.min_eq_left hn]
  · cases hr.symm.trans (h.short n s (by omega))

/-- What the first part gives is known in the second. -/
theorem Gives.bind {r : Reader σ ε α} {f : α → Reader σ ε γ} {P : α → Prop} {Q : γ → Prop}
    (h : Gives r P) (h' : ∀ x, P x → Gives (f x) Q) : Gives (r >>= f) Q := by
  intro s y s' hr
  rw [bind_apply] at hr
  cases hs : r s with
  | error e => rw [hs] at hr; cases hr
  | ok p =>
    rw [hs] at hr
    exact h' p.1 (h s p.1 p.2 hs) p.2 y s' hr

theorem Gives.ite {c : Prop} [Decidable c] {r r' : Reader σ ε α} {P : α → Prop}
    (h : c → Gives r P) (h' : ¬ c → Gives r' P) : Gives (if c then r else r') P := by
  split
  · next hc => exact h hc
  · next hc => exact h' hc

theorem Gives.trivial (r : Reader σ ε α) : Gives r fun _ => True := fun _ _ _ _ => True.intro

/-- By induction on the number. -/
theorem Gives.times {r : Reader σ ε α} {P : α → Prop} (h : Gives r P) (n : Nat) :
    Gives (times r n) fun xs => xs.length = n ∧ ∀ x ∈ xs, P x := by
  induction n with
  | zero => exact .pure ⟨rfl, List.forall_mem_nil P⟩
  | succ n ih =>
    refine h.bind fun x hx => ih.bind fun xs hxs => .pure ⟨?_, List.forall_mem_cons.2 ⟨hx, hxs.2⟩⟩
    rw [List.length_cons, hxs.1]

end Reader

end LuaFltk.Lib
