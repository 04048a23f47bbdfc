import Mathlib.Tactic

/-!
# Nested elements and what their closing restores

A properly nested sequence of opening and closing events is the reading of a forest. A machine
runs over the events; an element is restored if its closing leaves a state that is the same,
in some sense, as the one before its opening. When a condition on the element and on a view of
the state is what one element needs, given that its body keeps the state, a forest is restored
throughout exactly if every element in it meets the condition.
-/

namespace LuaFltk.Lib

/-- A sequence of leaves and elements, the elements with a sequence as their body. -/
inductive Forest (ω ε : Type*) where
  | nil
  | leaf (o : ω) (rest : Forest ω ε)
  | node (e : ε) (body rest : Forest ω ε)

/-- What a reader of a forest comes across. -/
inductive Event (ω ε : Type*) where
  | leaf (o : ω)
  | opening (e : ε)
  | closing (e : ε)

namespace Forest

variable {σ ω ε α : Type*}

/-- How many elements are open at most at the same time. -/
def depth : Forest ω ε → Nat
  | nil => 0
  | leaf _ rest => rest.depth
  | node _ body rest => max (body.depth + 1) rest.depth

def events : Forest ω ε → List (Event ω ε)
  | nil => []
  | leaf o rest => .leaf o :: rest.events
  | node e body rest => .opening e :: (body.events ++ .closing e :: rest.events)

/-- The state after the forest. -/
def run (step : σ → Event ω ε → σ) : Forest ω ε → σ → σ
  | nil, s => s
  | leaf o rest, s => rest.run step (step s (.leaf o))
  | node e body rest, s =>
    rest.run step (step (body.run step (step s (.opening e))) (.closing e))

/-- A forest is run event by event. -/
theorem run_eq_foldl (step : σ → Event ω ε → σ) (F : Forest ω ε) (s : σ) :
    F.run step s = F.events.foldl step s := by
  induction F generalizing s with
  | nil => rfl
  | leaf o rest ih => exact ih _
  | node e body rest ihbody ihrest =>
    rw [run, events, List.foldl_cons, List.foldl_append, List.foldl_cons, ← ihbody, ← ihrest]

/-- Behind every element in the forest the state is the same as before it. -/
def Restores (step : σ → Event ω ε → σ) (same : σ → σ → Prop) : Forest ω ε → σ → Prop
  | nil, _ => True
  | leaf o rest, s => rest.Restores step same (step s (.leaf o))
  | node e body rest, s =>
    let s₁ := step s (.opening e)
    let s₂ := step (body.run step s₁) (.closing e)
    same s s₂ ∧ body.Restores step same s₁ ∧ rest.Restores step same s₂

/-- Every element meets a condition on itself and on what is handed down from the elements it
is in. -/
def All (ok : ε → α → Prop) (enter : ε → α → α) : Forest ω ε → α → Prop
  | nil, _ => True
  | leaf _ rest, a => rest.All ok enter a
  | node e body rest, a => ok e a ∧ body.All ok enter (enter e a) ∧ rest.All ok enter a

instance decidableAll (ok : ε → α → Prop) (enter : ε → α → α) [∀ e a, Decidable (ok e a)] :
    (F : Forest ω ε) → (a : α) → Decidable (F.All ok enter a)
  | nil, _ => .isTrue trivial
  | leaf _ rest, a => decidableAll ok enter rest a
  | node e body rest, a =>
    have := decidableAll ok enter body (enter e a)
    have := decidableAll ok enter rest a
    inferInstanceAs (Decidable (ok e a ∧ _ ∧ _))

section restores

variable {step : σ → Event ω ε → σ} {same kept : σ → σ → Prop} {room : Nat → σ → Prop}
  {ok : ε → α → Prop} {enter : ε → α → α} {view : σ → α}

/-- `room d s`: in the state `s`, `d` more elements can be open. Where the bodies keep the
state, an element is restored exactly if it meets the condition, and then it keeps the state. -/
structure Law (step : σ → Event ω ε → σ) (same kept : σ → σ → Prop) (room : Nat → σ → Prop)
    (ok : ε → α → Prop) (enter : ε → α → α) (view : σ → α) : Prop where
  refl : ∀ s, kept s s
  trans : ∀ s₁ s₂ s₃, kept s₁ s₂ → kept s₂ s₃ → kept s₁ s₃
  same_of_kept : ∀ s s', kept s s' → same s s'
  view_kept : ∀ s s', kept s s' → view s' = view s
  room_kept : ∀ d s s', kept s s' → room d s → room d s'
  room_mono : ∀ d d' s, d' ≤ d → room d s → room d' s
  leaf : ∀ o s, kept s (step s (.leaf o))
  room_opening : ∀ d e s, room (d + 1) s → room d (step s (.opening e))
  view_opening : ∀ d e s, room (d + 1) s → view (step s (.opening e)) = enter e (view s)
  closing : ∀ d e s s', room (d + 1) s → kept (step s (.opening e)) s' → ok e (view s) →
    kept s (step s' (.closing e))
  needs : ∀ d e s s', room (d + 1) s → kept (step s (.opening e)) s' →
    same s (step s' (.closing e)) → ok e (view s)

/-- A forest whose elements meet the condition keeps the state. -/
theorem Law.kept_run (law : Law step same kept room ok enter view) (F : Forest ω ε) (s : σ)
    (hroom : room F.depth s) (hall : F.All ok enter (view s)) : kept s (F.run step s) := by
  induction F generalizing s with
  | nil => exact law.refl s
  | leaf o rest ih =>
    have hleaf := law.leaf o s
    have hrest := ih _ (law.room_kept _ _ _ hleaf hroom) ((law.view_kept _ _ hleaf).symm ▸ hall)
    exact law.trans _ _ _ hleaf hrest
  | node e body rest ihbody ihrest =>
    obtain ⟨hok, hbody, hrest⟩ := hall
    have hroom' := law.room_mono _ _ s (le_max_left _ _) hroom
    have hkept := ihbody _ (law.room_opening _ e s hroom')
      ((law.view_opening _ e s hroom').symm ▸ hbody)
    have hclose := law.closing _ e s _ hroom' hkept hok
    have hroom'' := law.room_kept _ _ _ hclose (law.room_mono _ _ s (le_max_right _ _) hroom)
    exact law.trans _ _ _ hclose (ihrest _ hroom'' ((law.view_kept _ _ hclose).symm ▸ hrest))

/-- By induction on the forest: a tree that is fine restores the state for the next. -/
theorem Law.restores_of_all (law : Law step same kept room ok enter view) (F : Forest ω ε) (s : σ)
    (hroom : room F.depth s) (hall : F.All ok enter (view s)) : F.Restores step same s := by
  induction F generalizing s with
  | nil => trivial
  | leaf o rest ih =>
    have hleaf := law.leaf o s
    exact ih _ (law.room_kept _ _ _ hleaf hroom) ((law.view_kept _ _ hleaf).symm ▸ hall)
  | node e body rest ihbody ihrest =>
    obtain ⟨hok, hbody, hrest⟩ := hall
    have hroom' := law.room_mono _ _ s (le_max_left _ _) hroom
    have hopen := law.room_opening _ e s hroom'
    rw [← law.view_opening _ e s hroom'] at hbody
    have hclose := law.closing _ e s _ hroom' (law.kept_run body _ hopen hbody) hok
    have hroom'' := law.room_kept _ _ _ hclose (law.room_mono _ _ s (le_max_right _ _) hroom)
    exact ⟨law.same_of_kept _ _ hclose, ihbody _ hopen hbody,
      ihrest _ hroom'' ((law.view_kept _ _ hclose).symm ▸ hrest)⟩

/-- By induction on the forest: where a tree is not fine the state is not restored. -/
theorem Law.all_of_restores (law : Law step same kept room ok enter view) (F : Forest ω ε) (s : σ)
    (hroom : room F.depth s) (hrestores : F.Restores step same s) : F.All ok enter (view s) := by
  induction F generalizing s with
  | nil => trivial
  | leaf o rest ih =>
    have hleaf := law.leaf o s
    have hall := ih _ (law.room_kept _ _ _ hleaf hroom) hrestores
    rwa [law.view_kept _ _ hleaf] at hall
  | node e body rest ihbody ihrest =>
    obtain ⟨hsame, hbody, hrest⟩ := hrestores
    have hroom' := law.room_mono _ _ s (le_max_left _ _) hroom
    have hopen := law.room_opening _ e s hroom'
    have hall := ihbody _ hopen hbody
    have hkept := law.kept_run body _ hopen hall
    have hok := law.needs _ e s _ hroom' hkept hsame
    have hclose := law.closing _ e s _ hroom' hkept hok
    have hroom'' := law.room_kept _ _ _ hclose (law.room_mono _ _ s (le_max_right _ _) hroom)
    have hallrest := ihrest _ hroom'' hrest
    rw [law.view_kept _ _ hclose] at hallrest
    rw [law.view_opening _ e s hroom'] at hall
    exact ⟨hok, hall, hallrest⟩

/-- A forest is restored throughout exactly if all its elements meet the condition. -/
theorem Law.restores_iff (law : Law step same kept room ok enter view) (F : Forest ω ε) (s : σ)
    (hroom : room F.depth s) : F.Restores step same s ↔ F.All ok enter (view s) :=
  ⟨law.all_of_restores F s hroom, law.restores_of_all F s hroom⟩

end restores

end Forest

end LuaFltk.Lib
