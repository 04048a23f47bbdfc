import Mathlib.Tactic

/-!
# Runs of a step relation

A run is a list of states in which each is related to the next. An invariant that one step
keeps under a side condition holds along every run whose steps meet it. When the condition
is also necessary for what the invariant is to give, a run is good throughout exactly if all
its steps meet the condition.
-/

namespace LuaFltk.Lib

variable {σ : Type*} {step ok : σ → σ → Prop} {inv good : σ → Prop} {s : σ} {ss : List σ}

/-- The steps `s₁ → s₂` of a run with `ok s₁ s₂`. -/
abbrev Run (step : σ → σ → Prop) (s : σ) (ss : List σ) : Prop := (s :: ss).IsChain step

/-- What each step keeps is kept by the run. -/
theorem Run.invariant (hrun : Run step s ss) (hok : Run ok s ss) (hinit : inv s)
    (hkeep : ∀ s s', inv s → step s s' → ok s s' → inv s') : ∀ s' ∈ s :: ss, inv s' := by
  induction ss generalizing s with
  | nil =>
    intro s' hs'
    rw [List.mem_singleton.1 hs']
    exact hinit
  | cons t ss ih =>
    rw [Run, List.isChain_cons_cons] at hrun hok
    have ht := hkeep s t hinit hrun.1 hok.1
    intro s' hs'
    rcases List.mem_cons.1 hs' with rfl | hs'
    · exact hinit
    · exact ih hrun.2 hok.2 ht s' hs'

/-- A side condition that a step needs for the next state to be good holds along a run that
is good throughout. -/
theorem Run.necessary (hrun : Run step s ss) (hinit : inv s)
    (hgood : ∀ s' ∈ s :: ss, good s')
    (hkeep : ∀ s s', inv s → step s s' → ok s s' → inv s')
    (hneeds : ∀ s s', inv s → step s s' → good s' → ok s s') : Run ok s ss := by
  induction ss generalizing s with
  | nil => exact .singleton s
  | cons t ss ih =>
    rw [Run, List.isChain_cons_cons] at hrun ⊢
    have hok := hneeds s t hinit hrun.1 (hgood t (by simp))
    have ht := hkeep s t hinit hrun.1 hok
    exact ⟨hok, ih hrun.2 ht fun s' hs' => hgood s' (List.mem_cons_of_mem _ hs')⟩

/-- The two directions together. -/
theorem Run.good_iff (hrun : Run step s ss) (inv : σ → Prop) (hinit : inv s)
    (hkeep : ∀ s s', inv s → step s s' → ok s s' → inv s')
    (hneeds : ∀ s s', inv s → step s s' → good s' → ok s s')
    (hsound : ∀ s, inv s → good s) : (∀ s' ∈ s :: ss, good s') ↔ Run ok s ss := by
  constructor
  · exact fun hgood => hrun.necessary hinit hgood hkeep hneeds
  · exact fun hok s' hs' => hsound s' (hrun.invariant hok hinit hkeep s' hs')

end LuaFltk.Lib
