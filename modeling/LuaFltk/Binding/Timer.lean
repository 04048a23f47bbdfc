import LuaFltk.Binding.Careful

/-!
# The references of timers

Runs of timers alone. A reference is allocated for a timer while its slot in the registry
holds a timer's record. `lua_fltk_fl_timeout` releases nothing when its Lua function
returns, because the flag it looks at is never missing; the references are those of the
pending and firing timers as long as every timer that fires is armed again, or removed,
before its function returns.
-/

namespace LuaFltk.Binding

open Api Lib

/-- The operations on timers. -/
def Action.isTimer : Action → Bool
  | .set_fltk_fl_add_timeout .. | .set_fltk_fl_repeat_timeout .. | .fltk_fl_remove_timeout _
  | .fireTimeout | .timeoutReturn => true
  | _ => false

/-- The reference `r` is allocated for a timer. -/
def Allocated (W : World) (r : Int) : Prop :=
  ∃ n, W.registry.get (.number r) = .table (.record n)

/-- The timer being fired has not been removed by its own function: its reference still
leads to the table the activation holds. -/
def Firing.Kept (W : World) (f : Firing) : Prop :=
  ∃ t, Firing.Holds f t ∧ W.registry.get (.number f.udata) = .table t

/-- The references of the pending timers. -/
def pending (W : World) : Set Int := { r | ∃ t ∈ W.timeouts, t.arg = r }

/-- The references of the timers being fired. -/
def beingFired (W : World) (fs : List Firing) : Set Int :=
  { r | ∃ f ∈ fs, f.udata = r ∧ Firing.Kept W f }

/-- The references allocated for timers are those of the timers pending or being fired. -/
def TimersExact (W : World) : Prop :=
  { r | Allocated W r } = pending W ∪ beingFired W W.firing

/-- The runs of timers whose actions all satisfy `P`: each handle is removed at most once,
and at the start the free list holds no tables. -/
inductive TimerRun (P : System → Action → Prop) : System → Prop where
  | start {W : World} {free : List Int} (log : Nat → Entry) (origin : Nat → Nat) :
      RefInv W.registry free ∅ →
      (∀ s, s = 0 ∨ s ∈ free → (W.registry.get (.number s)).istable = false) →
      (∀ r, ¬ Allocated W r) → W.timeouts = [] → W.firing = [] →
      TimerRun P ⟨W, log, 0, ∅, fun _ => none, origin⟩
  | between {S : System} {V : World} : TimerRun P S → Between S.world V →
      TimerRun P { S with world := V }
  | act {S : System} (a : Action) : TimerRun P S → a.isTimer = true → Allowed S a →
      (∀ k, a = .fltk_fl_remove_timeout k → k ∈ S.live) → P S a → TimerRun P (S.exec a)

/-- A timer that fires is armed again, or has been removed, when its function returns. -/
def Rearmed (S : System) : Action → Prop
  | .timeoutReturn => ∀ f rest, S.world.firing = f :: rest → Firing.Kept S.world f →
    f.udata ∈ pending S.world ∪ beingFired S.world rest
  | _ => True

/-- The invariant: the live registrations are the timers whose reference is allocated, and
each is pending or being fired. -/
structure TimerInv (S : System) (free : List Int) : Prop where
  refs : RefInv S.world.registry free S.refs
  distinct : ∀ k ∈ S.live, ∀ k' ∈ S.live, (S.log k).ref = (S.log k').ref → k = k'
  live_lt : ∀ k ∈ S.live, k < S.next
  known : ∀ k < S.next, (S.log k).ref ∈ S.refs ∨ (S.log k).ref ∈ free
  slot : ∀ s, s = 0 ∨ s ∈ free → (S.world.registry.get (.number s)).istable = false
  record : ∀ k ∈ S.live, ∃ n < S.world.nrecords,
    S.world.registry.get (.number (S.log k).ref) = .table (.record n) ∧
    ((S.world.heap (.record n)).get (.string "repeat")).isboolean = true
  firing : ∀ f ∈ S.world.firing, ∃ n < S.world.nrecords, Firing.Holds f (.record n) ∧
    ((S.world.heap (.record n)).get (.string "repeat")).isboolean = true
  allocated : ∀ r, Allocated S.world r → r ∈ S.refs
  timeouts : ∀ t ∈ S.world.timeouts, t.arg ∈ S.refs
  armed : ∀ k ∈ S.live, (S.log k).ref ∈ pending S.world ∪ beingFired S.world S.world.firing

/-- The invariant gives safety. -/
theorem TimerInv.safe {S : System} {free : List Int} (inv : TimerInv S free) : Safe S where
  distinct := inv.distinct
  free := ⟨free, inv.refs.chain, fun k hk => inv.refs.apart _ ⟨k, hk, rfl⟩⟩

/-- It gives the exact list of timers. -/
theorem TimerInv.exact {S : System} {free : List Int} (inv : TimerInv S free) :
    TimersExact S.world := by
  refine Set.Subset.antisymm (fun r hr => ?_) (fun r hr => ?_)
  · obtain ⟨k, hk, rfl⟩ := inv.allocated r hr
    exact inv.armed k hk
  · rcases hr with ⟨t, ht, rfl⟩ | ⟨f, hf, rfl, t, hholds, hreg⟩
    · obtain ⟨k, hk, hr⟩ := inv.timeouts t ht
      obtain ⟨n, -, htbl, -⟩ := inv.record k hk
      exact ⟨n, hr ▸ htbl⟩
    · obtain ⟨n, -, hholds', -⟩ := inv.firing f hf
      obtain ⟨i, hi, hslot, -⟩ := hholds
      obtain ⟨j, hj, hslot', -⟩ := hholds'
      obtain rfl : i = j := by simpa [hi] using hj
      rw [hslot] at hslot'
      exact ⟨n, hreg.trans hslot'⟩

/-! ## One step -/

/-- What is pending or being fired stays so when nothing is taken off the lists. -/
theorem armed_mono {W V : World} {r : Int} (h : r ∈ pending W ∪ beingFired W W.firing)
    (hto : ∀ t ∈ W.timeouts, t.arg = r → t ∈ V.timeouts)
    (hfi : ∀ f ∈ W.firing, f ∈ V.firing)
    (hreg : V.registry.get (.number r) = W.registry.get (.number r)) :
    r ∈ pending V ∪ beingFired V V.firing := by
  rcases h with ⟨t, ht, he⟩ | ⟨f, hf, he, tbl, hholds, hget⟩
  · exact .inl ⟨t, hto t ht he, he⟩
  · exact .inr ⟨f, hfi f hf, he, tbl, hholds, by rw [he, hreg, ← he, hget]⟩

/-- A step that leaves the registry alone and takes nothing off the lists. -/
theorem TimerInv.quiet {S : System} {V : World} {free : List Int} (inv : TimerInv S free)
    (hk : KeepsRecords S.world V) (hreg : V.registry = S.world.registry)
    (hto : ∀ t ∈ S.world.timeouts, t ∈ V.timeouts)
    (hto' : ∀ t ∈ V.timeouts, t.arg ∈ S.refs) (hfi : V.firing = S.world.firing) :
    TimerInv { S with world := V } free where
  refs := hreg ▸ inv.refs
  distinct := inv.distinct
  live_lt := inv.live_lt
  known := inv.known
  slot s hs := hreg ▸ inv.slot s hs
  record k hk' := by
    obtain ⟨n, hn, htbl, hb⟩ := inv.record k hk'
    exact ⟨n, hn.trans_le hk.nrecords, hreg ▸ htbl, (hk.record n hn).flag hb⟩
  firing f hf := firing_mono hk (inv.firing f (hfi ▸ hf))
  allocated r hr := inv.allocated r (by
    unfold Allocated at hr ⊢
    rwa [← hreg])
  timeouts := hto'
  armed k hk' := armed_mono (inv.armed k hk') (fun t ht _ => hto t ht) (fun f hf => hfi ▸ hf)
    (by rw [hreg])

theorem mem_insertAt {t u : Node} {pos : Nat} {l : List Node} :
    t ∈ l.take pos ++ u :: l.drop pos ↔ t = u ∨ t ∈ l := by
  conv_rhs => rw [← List.take_append_drop pos l]
  simp only [List.mem_append, List.mem_cons]
  tauto

/-- A timer is added with a new reference. -/
theorem TimerInv.add {S : System} {free : List Int} {pos f d : Nat} (inv : TimerInv S free)
    (ha : Allowed S (.set_fltk_fl_add_timeout pos f d)) :
    ∃ free', TimerInv (S.exec (.set_fltk_fl_add_timeout pos f d)) free' := by
  rcases Nat.eq_zero_or_pos f with rfl | hf
  · exact ⟨free, inv⟩
  obtain ⟨stack, top, hrun⟩ := set_fltk_fl_add_timeout_run pos hf ha.1 ha.2
  have hcode : run (Action.code S (.set_fltk_fl_add_timeout pos f d)) S.world =
      (((run (set_fltk_fl_add_timeout pos f d) S.world).1, none),
        (run (set_fltk_fl_add_timeout pos f d) S.world).2) := rfl
  obtain ⟨hpos, hfresh⟩ := inv.refs.newRef_fresh
  have htable : Value.table (.record S.world.nrecords) ≠ .nil := by simp
  refine ⟨free.drop 1, ?_⟩
  simp only [System.exec, if_neg hf.ne', Action.after, System.append, System.mark]
  rw [hcode, hrun]
  simp only [if_pos hpos]
  set e : Entry := ⟨.timeout, newRef S.world.registry, valueAt S.world f, given S.world d⟩ with he
  have hlog : ∀ k, k < S.next → Function.update S.log S.next e k = S.log k :=
    fun k hk => Function.update_of_ne hk.ne _ _
  have hself : Function.update S.log S.next e S.next = e := Function.update_self ..
  have hlive : ∀ k ∈ S.live, (S.log k).ref ≠ newRef S.world.registry ∧ (S.log k).ref ≠ 0 :=
    fun k hk => ⟨fun h => hfresh ⟨k, hk, h⟩, (inv.refs.live_pos _ ⟨k, hk, rfl⟩).ne'⟩
  have hkeep : ∀ n < S.world.nrecords, Function.update S.world.heap (.record S.world.nrecords)
      (timerRecord (valueAt S.world f) (given S.world d)) (.record n) =
        S.world.heap (.record n) :=
    fun n hn => Function.update_of_ne (by simp; omega) _ _
  -- the free list loses its head, if it has one
  have hdrop : ∀ s ∈ free, s = newRef S.world.registry ∨ s ∈ free.drop 1 := by
    intro s hs
    cases free with
    | nil => cases hs
    | cons a l =>
      have : newRef S.world.registry = a := by simp only [newRef, inv.refs.cons_free.1]
      rw [this]
      exact List.mem_cons.1 hs
  have hslot0 : ((refTable S.world.registry (.table (.record S.world.nrecords))).get
      (.number 0)).istable = false := by
    unfold refTable
    split
    · next r hr =>
      have hr0 : r ≠ 0 := by
        rintro rfl
        simp [newRef, hr] at hpos
      rw [Table.get_set_ne _ _ (by simpa using hr0.symm), FREELIST_REF, Table.get_set_self]
      refine inv.slot r (.inr ?_)
      cases hfree : free with
      | nil =>
        rw [hfree] at inv
        rw [inv.refs.nil_free] at hr
        cases hr
      | cons a l =>
        rw [hfree] at inv
        rw [inv.refs.cons_free.1] at hr
        cases hr
        exact List.mem_cons_self
    · rw [Table.get_set_ne _ _ (by simp; omega)]
      exact inv.slot 0 (.inl rfl)
  have hrefs : { r | ∃ k ∈ insert S.next S.live, (Function.update S.log S.next e k).ref = r } =
      insert (newRef S.world.registry) S.refs := by
    ext r
    constructor
    · rintro ⟨k, rfl | hk, rfl⟩
      · rw [hself]
        exact .inl rfl
      · rw [hlog k (inv.live_lt k hk)]
        exact .inr ⟨k, hk, rfl⟩
    · rintro (rfl | ⟨k, hk, rfl⟩)
      · exact ⟨S.next, .inl rfl, by rw [hself]⟩
      · exact ⟨k, .inr hk, by rw [hlog k (inv.live_lt k hk)]⟩
  refine
    { refs := ?_
      distinct := ?_
      live_lt := ?_
      known := ?_
      slot := ?_
      record := ?_
      firing := fun g hg => ?_
      allocated := ?_
      timeouts := ?_
      armed := ?_ } <;> try dsimp only
  · change RefInv _ _ { r | ∃ k ∈ insert S.next S.live, (Function.update S.log S.next e k).ref = r }
    rw [hrefs]
    exact inv.refs.ref htable
  · rintro a (rfl | ha) b (rfl | hb) h
    · rfl
    · rw [hself, hlog b (inv.live_lt b hb)] at h
      exact absurd h.symm (hlive b hb).1
    · rw [hself, hlog a (inv.live_lt a ha)] at h
      exact absurd h (hlive a ha).1
    · rw [hlog a (inv.live_lt a ha), hlog b (inv.live_lt b hb)] at h
      exact inv.distinct a ha b hb h
  · rintro a (rfl | ha)
    · omega
    · have := inv.live_lt a ha
      omega
  · intro k hk
    change _ ∈ { r | ∃ k ∈ insert S.next S.live, (Function.update S.log S.next e k).ref = r } ∨ _
    rw [hrefs]
    rcases Nat.lt_succ_iff_lt_or_eq.1 hk with hk | rfl
    · rw [hlog k hk]
      rcases inv.known k hk with h | h
      · exact .inl (.inr h)
      · exact (hdrop _ h).imp_left .inl
    · rw [hself]
      exact .inl (.inl rfl)
  · rintro s (rfl | hs)
    · exact hslot0
    · have hs' := List.mem_of_mem_drop hs
      have hnodup := inv.refs.chain.nodup
      have hne : s ≠ newRef S.world.registry := by
        cases free with
        | nil => cases hs'
        | cons a l =>
          have : newRef S.world.registry = a := by simp only [newRef, inv.refs.cons_free.1]
          rw [this]
          rintro rfl
          exact (List.nodup_cons.1 hnodup).1 hs
      rw [get_refTable (inv.refs.free_pos s hs').ne' hne]
      exact inv.slot s (.inr hs')
  · rintro a (rfl | ha)
    · rw [hself]
      exact ⟨S.world.nrecords, Nat.lt_succ_self _, get_refTable_self, by
        simp [timerRecord, Value.isboolean]⟩
    · rw [hlog a (inv.live_lt a ha)]
      obtain ⟨n, hn, htbl, hb⟩ := inv.record a ha
      refine ⟨n, by omega, ?_, by rwa [hkeep n hn]⟩
      rw [get_refTable (hlive a ha).2 (hlive a ha).1, htbl]
  · obtain ⟨n, hn, hh, hb⟩ := inv.firing g hg
    exact ⟨n, by omega, hh, by rwa [hkeep n hn]⟩
  · rintro r ⟨n, hr⟩
    change r ∈ { r | ∃ k ∈ insert S.next S.live, (Function.update S.log S.next e k).ref = r }
    rw [hrefs]
    by_cases h0 : r = 0
    · subst h0
      rw [hr] at hslot0
      cases hslot0
    · by_cases hne : r = newRef S.world.registry
      · exact .inl hne
      · rw [get_refTable h0 hne] at hr
        exact .inr (inv.allocated r ⟨n, hr⟩)
  · intro t ht
    change _ ∈ { r | ∃ k ∈ insert S.next S.live, (Function.update S.log S.next e k).ref = r }
    rw [hrefs]
    rcases mem_insertAt.1 ht with rfl | ht
    · exact .inl rfl
    · exact .inr (inv.timeouts t ht)
  · rintro a (rfl | ha)
    · rw [hself]
      exact .inl ⟨_, mem_insertAt.2 (.inl rfl), rfl⟩
    · rw [hlog a (inv.live_lt a ha)]
      exact armed_mono (inv.armed a ha) (fun t ht _ => mem_insertAt.2 (.inr ht)) (fun _ h => h)
        (get_refTable (hlive a ha).2 (hlive a ha).1)

/-- A timer armed again keeps its reference. -/
theorem TimerInv.repeat_timeout {S : System} {free : List Int} {pos k : Nat}
    (inv : TimerInv S free) (ha : Allowed S (.set_fltk_fl_repeat_timeout pos k)) :
    TimerInv (S.exec (.set_fltk_fl_repeat_timeout pos k)) free := by
  have hafter : Action.after (.set_fltk_fl_repeat_timeout pos k) S =
      (run (set_fltk_fl_repeat_timeout pos (S.log k).ref) S.world).2 := rfl
  simp only [System.exec, hafter]
  -- where a node comes from does not matter here
  suffices h : TimerInv { S with
      world := (run (set_fltk_fl_repeat_timeout pos (S.log k).ref) S.world).2 } free from
    { h with }
  rcases inv.known k ha.1 with ⟨k', hk', href⟩ | hfree
  · obtain ⟨n, hn, htbl, hb⟩ := inv.record k' hk'
    rw [href] at htbl
    obtain ⟨stack, top, hrun⟩ := set_fltk_fl_repeat_timeout_run pos htbl
    rw [hrun]
    refine inv.quiet ⟨le_rfl, fun m _ => ?_⟩ rfl (fun t ht => mem_insertAt.2 (.inr ht))
      (fun t ht => ?_) rfl
    · by_cases hm : m = n
      · subst hm
        simp only [Function.update_self]
        exact ⟨Table.get_set_ne _ _ (by simp), Table.get_set_ne _ _ (by simp),
          fun _ => by rw [Table.get_set_self]; rfl⟩
      · exact .of_eq (Function.update_of_ne (by simpa using hm) _ _)
    · rcases mem_insertAt.1 ht with rfl | ht
      · exact ⟨k', hk', href⟩
      · exact inv.timeouts t ht
  · obtain ⟨stack, top, hrun⟩ := set_fltk_fl_repeat_timeout_run_none pos
      (inv.slot _ (.inr hfree))
    rw [hrun]
    exact inv.quiet ⟨le_rfl, fun _ _ => .of_eq rfl⟩ rfl (fun _ h => h) inv.timeouts rfl

/-- A removed timer gives its reference back. -/
theorem TimerInv.remove {S : System} {free : List Int} {k : Nat} (inv : TimerInv S free)
    (hk : k ∈ S.live) : TimerInv (S.exec (.fltk_fl_remove_timeout k)) ((S.log k).ref :: free) := by
  have hafter : Action.after (.fltk_fl_remove_timeout k) S =
      (run (fltk_fl_remove_timeout (S.log k).ref) S.world).2 := rfl
  obtain ⟨stack, hrun⟩ := fltk_fl_remove_timeout_run (S.log k).ref S.world
  simp only [System.exec, hafter]
  rw [hrun]
  have hpos : 0 < (S.log k).ref := inv.refs.live_pos _ ⟨k, hk, rfl⟩
  have hfree : (S.log k).ref ∉ free := inv.refs.apart _ ⟨k, hk, rfl⟩
  have hother : ∀ a ∈ S.live, a ≠ k → (S.log a).ref ≠ (S.log k).ref ∧ (S.log a).ref ≠ 0 :=
    fun a ha hne => ⟨fun h => hne (inv.distinct a ha k hk h),
      (inv.refs.live_pos _ ⟨a, ha, rfl⟩).ne'⟩
  have hrefs : { r | ∃ a ∈ S.live \ {k}, (S.log a).ref = r } = S.refs \ {(S.log k).ref} := by
    ext r
    constructor
    · rintro ⟨a, ⟨ha, hne⟩, rfl⟩
      exact ⟨⟨a, ha, rfl⟩, (hother a ha hne).1⟩
    · rintro ⟨⟨a, ha, rfl⟩, hne⟩
      exact ⟨a, ⟨ha, fun h => hne (congrArg (fun i => (S.log i).ref) h)⟩, rfl⟩
  -- the released slot holds the old head of the free list, slot 0 the reference
  have hslot : ∀ s, s = 0 ∨ s ∈ (S.log k).ref :: free →
      ((unrefTable S.world.registry (S.log k).ref).get (.number s)).istable = false := by
    rintro s (rfl | hs)
    · simp [unrefTable, hpos.le, FREELIST_REF, Value.istable]
    · rcases List.mem_cons.1 hs with rfl | hs
      · rw [get_unrefTable_self hpos]
        exact inv.slot 0 (.inl rfl)
      · rw [get_unrefTable (inv.refs.free_pos s hs).ne' (by rintro rfl; exact hfree hs)]
        exact inv.slot s (.inr hs)
  refine
    { refs := ?_
      distinct := fun a ha b hb => inv.distinct a ha.1 b hb.1
      live_lt := fun a ha => inv.live_lt a ha.1
      known := fun a ha => ?_
      slot := hslot
      record := fun a ha => ?_
      firing := inv.firing
      allocated := ?_
      timeouts := ?_
      armed := ?_ }
  · change RefInv _ _ { r | ∃ a ∈ S.live \ {k}, (S.log a).ref = r }
    rw [hrefs]
    exact inv.refs.unref hpos hfree
  · change _ ∈ { r | ∃ a ∈ S.live \ {k}, (S.log a).ref = r } ∨ _
    rw [hrefs]
    by_cases h : (S.log a).ref = (S.log k).ref
    · exact .inr (by simp [h])
    · exact (inv.known a ha).imp (fun hm => ⟨hm, h⟩) (List.mem_cons_of_mem _)
  · obtain ⟨n, hn, htbl, hb⟩ := inv.record a ha.1
    obtain ⟨hne, h0⟩ := hother a ha.1 ha.2
    exact ⟨n, hn, by rw [← htbl]; exact get_unrefTable h0 hne, hb⟩
  · rintro r ⟨n, hr⟩
    change r ∈ { r | ∃ a ∈ S.live \ {k}, (S.log a).ref = r }
    rw [hrefs]
    have hnot : ¬ (r = 0 ∨ r ∈ (S.log k).ref :: free) := by
      intro h
      have := hslot r h
      rw [show (unrefTable S.world.registry (S.log k).ref).get (.number r) = _ from hr] at this
      cases this
    simp only [List.mem_cons, not_or] at hnot
    refine ⟨inv.allocated r ⟨n, ?_⟩, hnot.2.1⟩
    rw [← hr]
    exact (get_unrefTable hnot.1 hnot.2.1).symm
  · intro t ht
    obtain ⟨ht, harg⟩ := List.mem_filter.1 ht
    change _ ∈ { r | ∃ a ∈ S.live \ {k}, (S.log a).ref = r }
    rw [hrefs]
    exact ⟨inv.timeouts t ht, by
      intro h
      simp only [Set.mem_singleton_iff] at h
      simp [h] at harg⟩
  · intro a ha
    obtain ⟨hne, h0⟩ := hother a ha.1 ha.2
    refine armed_mono (inv.armed a ha.1) (fun t ht he => List.mem_filter.2 ⟨ht, ?_⟩)
      (fun _ h => h) (get_unrefTable h0 hne)
    simp [he, hne, hpos.ne']

/-- A timer that fires keeps its reference while its function runs. -/
theorem TimerInv.fire {S : System} {free : List Int} (inv : TimerInv S free) :
    TimerInv (S.exec .fireTimeout) free := by
  have hexec : S.exec .fireTimeout = { S with world := (run fireTimeout S.world).2 } := rfl
  rw [hexec, fireTimeout, run_bind, run_get]
  cases hto : S.world.timeouts with
  | nil => exact inv
  | cons t rest =>
    simp only [run_bind, run_modify]
    obtain ⟨k, hk, href⟩ := inv.timeouts t (by simp [hto])
    obtain ⟨n, hn, htbl, hb⟩ := inv.record k hk
    rw [href] at htbl
    obtain ⟨stack, top, f, hholds, hud, hrun⟩ := lua_fltk_fl_timeout_run
      (W := { S.world with timeouts := rest }) htbl
    rw [hrun]
    exact
      { refs := inv.refs
        distinct := inv.distinct
        live_lt := inv.live_lt
        known := inv.known
        slot := inv.slot
        record := inv.record
        firing := fun g hg => by
          rcases List.mem_cons.1 hg with rfl | hg
          · exact ⟨n, hn, hholds, hb⟩
          · exact inv.firing g hg
        allocated := inv.allocated
        timeouts := fun u hu => inv.timeouts u (by rw [hto]; exact .tail _ hu)
        armed := fun a ha => by
          by_cases h : (S.log a).ref = t.arg
          · exact .inr ⟨f, .head _, hud.trans h.symm, _, hholds, by rw [hud]; exact htbl⟩
          · refine armed_mono (inv.armed a ha) (fun u hu he => ?_) (fun g hg => .tail _ hg) rfl
            rw [hto] at hu
            exact (List.mem_cons.1 hu).resolve_left (by rintro rfl; exact h he.symm) }

/-- It is in the queue again, or gone, when the function returns. -/
theorem TimerInv.return {S : System} {free : List Int} (inv : TimerInv S free)
    (hc : Rearmed S .timeoutReturn) : TimerInv (S.exec .timeoutReturn) free := by
  have hexec : S.exec .timeoutReturn =
    { S with world := (run lua_fltk_fl_timeout_return S.world).2 } := rfl
  rw [hexec]
  cases hfi : S.world.firing with
  | nil =>
    rw [lua_fltk_fl_timeout_return, run_bind, run_get, hfi]
    exact inv
  | cons f rest =>
    obtain ⟨n, -, hholds, hb⟩ := inv.firing f (by simp [hfi])
    obtain ⟨stack, top, hrun⟩ := lua_fltk_fl_timeout_return_run hfi hholds hb
    rw [hrun]
    exact
      { refs := inv.refs
        distinct := inv.distinct
        live_lt := inv.live_lt
        known := inv.known
        slot := inv.slot
        record := inv.record
        firing := fun g hg => inv.firing g (by rw [hfi]; exact .tail _ hg)
        allocated := inv.allocated
        timeouts := inv.timeouts
        armed := fun a ha => by
          rcases inv.armed a ha with h | ⟨g, hg, he, hkept⟩
          · exact .inl h
          · rw [hfi] at hg
            rcases List.mem_cons.1 hg with rfl | hg
            · exact he ▸ hc g rest hfi hkept
            · exact .inr ⟨g, hg, he, hkept⟩ }

/-! ## Runs -/

/-- By induction on the run. -/
theorem TimerRun.inv {S : System} (h : TimerRun Rearmed S) : ∃ free, TimerInv S free := by
  induction h with
  | @start W free log origin hrefs hslot hnone hto hfi =>
    exact ⟨free,
      { refs := hrefs.mono fun _ ⟨_, h, _⟩ => h.elim
        distinct := fun _ h => h.elim
        live_lt := fun _ h => h.elim
        known := fun _ h => absurd h (Nat.not_lt_zero _)
        slot := hslot
        record := fun _ h => h.elim
        firing := by simp [hfi]
        allocated := fun r h => absurd h (hnone r)
        timeouts := by simp [hto]
        armed := fun _ h => h.elim }⟩
  | between _ hb ih =>
    obtain ⟨free, inv⟩ := ih
    exact ⟨free, inv.quiet ⟨hb.nrecords.ge, fun n hn => .of_eq (hb.record n hn)⟩ hb.registry
      (fun _ ht => hb.timeouts ▸ ht) (fun t ht => inv.timeouts t (hb.timeouts ▸ ht)) hb.firing⟩
  | act a _ htimer ha honce hc ih =>
    obtain ⟨free, inv⟩ := ih
    cases a with
    | set_fltk_fl_add_timeout pos f d => exact inv.add ha
    | set_fltk_fl_repeat_timeout pos k => exact ⟨_, inv.repeat_timeout ha⟩
    | fltk_fl_remove_timeout k => exact ⟨_, inv.remove (honce k rfl)⟩
    | fireTimeout => exact ⟨_, inv.fire⟩
    | timeoutReturn => exact ⟨_, inv.return hc⟩
    | _ => cases htimer

/-- Where every timer that fires is armed again or removed before its function returns,
the references allocated for timers are exactly those of the timers pending or being fired,
and none is released twice. -/
theorem rearmed_run_exact {S : System} (h : TimerRun Rearmed S) : TimersExact S.world ∧ Safe S := by
  obtain ⟨free, inv⟩ := h.inv
  exact ⟨inv.exact, inv.safe⟩

theorem initial_timerRun (P : System → Action → Prop) : TimerRun P System.initial :=
  .start _ _ refInv_empty (fun _ _ => rfl) (fun _ ⟨_, h⟩ => by cases h) rfl rfl

/-- A timer that fires, arms itself again and returns. -/
def repeating : List Action :=
  [.set_fltk_fl_add_timeout 0 1 0, .fireTimeout, .set_fltk_fl_repeat_timeout 0 0, .timeoutReturn]

theorem rearmed_run_exact_repeating :
    TimersExact (repeating.foldl System.exec System.initial).world ∧
      Safe (repeating.foldl System.exec System.initial) := by
  refine rearmed_run_exact (.act .timeoutReturn (.act (.set_fltk_fl_repeat_timeout 0 0)
    (.act .fireTimeout (.act (.set_fltk_fl_add_timeout 0 1 0) (initial_timerRun _) rfl
      ⟨by decide, by decide⟩ (fun _ h => by cases h) trivial) rfl trivial
      (fun _ h => by cases h) trivial) rfl ⟨by decide, by decide⟩
      (fun _ h => by cases h) trivial) rfl trivial (fun _ h => by cases h) ?_)
  intro f rest hf _
  have hnode : (⟨1, 1⟩ : Node) ∈
      ((repeating.take 3).foldl System.exec System.initial).world.timeouts := by decide
  have hud : f.udata = 1 := by
    have := congrArg (fun l => (l.map Firing.udata).head?) hf
    exact (Option.some.inj this).symm
  exact .inl ⟨⟨1, 1⟩, hnode, hud.symm⟩

/-- A timer that fires and returns. -/
def firedOnce : List Action :=
  [.set_fltk_fl_add_timeout 0 1 0, .fireTimeout, .timeoutReturn]

/-- Its reference stays allocated. -/
theorem fired_timer_leaks :
    TimerRun (fun _ _ => True) (firedOnce.foldl System.exec System.initial) ∧
      ¬ TimersExact (firedOnce.foldl System.exec System.initial).world := by
  constructor
  · exact .act .timeoutReturn (.act .fireTimeout (.act (.set_fltk_fl_add_timeout 0 1 0)
      (initial_timerRun _) rfl ⟨by decide, by decide⟩ (fun _ h => by cases h) trivial) rfl trivial
      (fun _ h => by cases h) trivial) rfl trivial (fun _ h => by cases h) trivial
  · intro h
    have halloc : (1 : Int) ∈ { r | Allocated (firedOnce.foldl System.exec System.initial).world r } :=
      ⟨0, by decide⟩
    rw [h] at halloc
    rcases halloc with ⟨t, ht, -⟩ | ⟨f, hf, -⟩
    · have hto : (firedOnce.foldl System.exec System.initial).world.timeouts = [] := by decide
      rw [hto] at ht
      cases ht
    · have hfi : (firedOnce.foldl System.exec System.initial).world.firing = [] := rfl
      rw [hfi] at hf
      cases hf

end LuaFltk.Binding
