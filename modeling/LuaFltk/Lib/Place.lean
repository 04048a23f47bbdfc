import LuaFltk.Lib.Chain

/-!
# Walking a list by the place of a link

A loop that inserts into a threaded list, or takes cells out of it, holds the place of the link
it came along: the head of the list or the link of a cell. Writing one place changes the list
behind it and nothing before it.
-/

namespace LuaFltk.Lib

variable {τ α : Type*}

/-- Where a link is kept. -/
inductive Place (τ α : Type*) where
  | head (t : τ)
  | next (a : α)
  deriving DecidableEq

/-- Several lists: their heads and the links of their cells. -/
structure Links (τ α : Type*) where
  head : τ → Option α
  next : α → Option α

/-- The place of the link behind the first cells of a list. -/
def Place.behind (t : τ) (l : List α) : Place τ α :=
  match l.getLast? with
  | none => .head t
  | some b => .next b

@[simp] theorem Place.behind_nil (t : τ) : Place.behind t ([] : List α) = .head t := rfl

@[simp] theorem Place.behind_append (t : τ) (l : List α) (b : α) :
    Place.behind t (l ++ [b]) = .next b := by
  simp [behind]

/-- The link of the last cell of the first part leads to the second part. -/
theorem Chain.relink {next next' : α → Option α} {h o : Option α} {l l' m : List α} {b : α}
    (hl : Chain next h (l ++ b :: l')) (hm : Chain next' o m) (link : next' b = o)
    (same : ∀ c ∈ l, next' c = next c) : Chain next' h (l ++ b :: m) := by
  induction l generalizing h with
  | nil =>
    cases hl
    exact .cons (link ▸ hm)
  | cons c l ih =>
    cases hl with
    | cons hl =>
      refine .cons ?_
      rw [same c (by simp)]
      exact ih hl fun d hd => same d (by simp [hd])

/-- What a place holds once the cells before it are passed. -/
theorem Chain.rest {next : α → Option α} {h : Option α} {l l' : List α} {b : α}
    (hl : Chain next h (l ++ b :: l')) : Chain next (next b) l' := by
  induction l generalizing h with
  | nil => cases hl; assumption
  | cons c l ih => cases hl with | cons hl => exact ih hl

/-- A chain begins with its first element. -/
theorem Chain.head_eq {next : α → Option α} {h : Option α} {l : List α} (hl : Chain next h l) :
    h = l.head? := by
  cases hl <;> rfl

namespace Links

variable {L : Links τ α} {t u : τ} {l l' m : List α} {a : α} {o : Option α}

def read (L : Links τ α) : Place τ α → Option α
  | .head t => L.head t
  | .next a => L.next a

/-- The cells of the list `t`. -/
def Holds (L : Links τ α) (t : τ) (l : List α) : Prop := Chain L.next (L.head t) l

/-- Behind a part of the list stands the first element of the rest. -/
theorem Holds.read (h : L.Holds t (l ++ l')) : L.read (.behind t l) = l'.head? := by
  induction l using List.reverseRecOn with
  | nil => exact Chain.head_eq h
  | append_singleton l b _ =>
    rw [Place.behind_append]
    rw [List.append_assoc] at h
    exact (Chain.rest h).head_eq

/-- The list from a place on. -/
theorem Holds.rest (h : L.Holds t (l ++ l')) : Chain L.next (L.read (.behind t l)) l' := by
  induction l using List.reverseRecOn with
  | nil => exact h
  | append_singleton l b _ =>
    rw [Place.behind_append]
    rw [List.append_assoc] at h
    exact Chain.rest h

variable [DecidableEq τ] [DecidableEq α]

def write (L : Links τ α) (p : Place τ α) (o : Option α) : Links τ α :=
  match p with
  | .head t => { L with head := Function.update L.head t o }
  | .next a => { L with next := Function.update L.next a o }

/-- Only the last of the cells before a place has its link there. -/
theorem next_write (ha : a ∉ l) : (L.write (.behind t l) o).next a = L.next a := by
  induction l using List.reverseRecOn with
  | nil => rfl
  | append_singleton l b _ =>
    rw [Place.behind_append]
    apply Function.update_of_ne
    rintro rfl
    simp at ha

theorem head_write (hu : u ≠ t) : (L.write (.behind t l) o).head u = L.head u := by
  induction l using List.reverseRecOn with
  | nil => exact Function.update_of_ne hu ..
  | append_singleton l b _ =>
    rw [Place.behind_append]
    rfl

/-- The list goes on at a place with what is written there. -/
theorem Holds.write (h : L.Holds t (l ++ l')) (hm : Chain (L.write (.behind t l) o).next o m) :
    (L.write (.behind t l) o).Holds t (l ++ m) := by
  induction l using List.reverseRecOn with
  | nil =>
    have hhead : (L.write (.behind t []) o).head t = o := Function.update_self ..
    rw [Holds, hhead]
    exact hm
  | append_singleton l b _ =>
    have hnodup := Chain.nodup h
    rw [Place.behind_append] at hm ⊢
    rw [List.append_assoc] at h ⊢
    apply Chain.relink h hm (Function.update_self ..)
    intro c hc
    apply Function.update_of_ne
    rintro rfl
    simp [List.nodup_append] at hnodup
    exact (hnodup.2.2 c hc).1 rfl

/-- A new cell goes in at a place whose link it was given. -/
theorem Holds.insert (h : L.Holds t (l ++ l')) (hlink : L.next a = l'.head?)
    (ha : a ∉ l ++ l') : (L.write (.behind t l) (some a)).Holds t (l ++ a :: l') := by
  have hnodup := List.nodup_append.1 (Chain.nodup h)
  rw [List.mem_append, not_or] at ha
  apply h.write
  refine .cons ?_
  rw [next_write ha.1, hlink, ← h.read]
  apply h.rest.congr
  intro b hb
  exact next_write fun hbl => hnodup.2.2 b hbl b hb rfl

/-- The cell at a place is taken out. -/
theorem Holds.remove (h : L.Holds t (l ++ a :: l')) :
    (L.write (.behind t l) (L.next a)).Holds t (l ++ l') := by
  have hnodup := List.nodup_append.1 (Chain.nodup h)
  apply h.write
  apply (Chain.rest h).congr
  intro b hb
  exact next_write fun hbl => hnodup.2.2 b hbl b (List.mem_cons_of_mem a hb) rfl

/-- The other lists stay. -/
theorem Holds.other (h : L.Holds u m) (hne : u ≠ t) (hdisj : ∀ b ∈ m, b ∉ l) :
    (L.write (.behind t l) o).Holds u m := by
  rw [Holds, head_write hne]
  exact h.congr fun b hb => next_write (hdisj b hb)

end Links

end LuaFltk.Lib
