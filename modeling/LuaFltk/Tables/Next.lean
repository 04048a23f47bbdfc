import LuaFltk.Tables.Runs

/-!
# Traversals

`luaH_next` goes through the nodes by their index, from the key it gave last. A traversal may write
to fields that exist, and the collector may clear keys on the way, the last one given too: `next`
finds it by the pointer that a dead key keeps.
-/

namespace LuaFltk.Tables

open Lib

variable {K V : Type} [DecidableEq K] {H : Hash K} {t t' : Table K V} {k : K} {n : Nat}
  {iscollectable : K → Bool}

namespace Table

/-- The loop of `findindex`: a dead key is found by its pointer. -/
def indexLoop (t : Table K V) (k : K) : Nat → Nat → Option (Option Nat)
  | 0, _ => none
  | turns + 1, n =>
    if t.key n = .live k ∨ t.key n = .dead k then some (some n)
    else
      match t.next n with
      | none => some none
      | some m => t.indexLoop k turns m

/-- The loop of `luaH_next` over so many nodes from index `i` on. -/
def nextLoop (t : Table K V) : Nat → Nat → Option (K × V)
  | 0, _ => none
  | count + 1, i =>
    match t.key i, t.val i with
    | .live k, some v => some (k, v)
    | _, _ => t.nextLoop count (i + 1)

/-- `luaH_next`, from the beginning for nil: the next element, or none at the end. -/
def luaH_next (H : Hash K) (t : Table K V) : Option K → Option (Except String (Option (K × V)))
  | none => some (.ok (t.nextLoop t.sizenode 0))
  | some k =>
    match t.indexLoop k t.sizenode (t.mainposition H k) with
    | none => none
    | some none => some (.error "invalid key to 'next'")
    | some (some i) => some (.ok (t.nextLoop (t.sizenode - (i + 1)) (i + 1)))

/-! ## The element given -/

omit [DecidableEq K] in
/-- The element given is the first one from the index on. -/
theorem nextLoop_some {count i : Nat} {v : V} (h : t.nextLoop count i = some (k, v)) :
    ∃ m, i ≤ m ∧ t.key m = .live k ∧ t.val m = some v ∧
      ∀ m' < m, i ≤ m' → ∀ j w, t.key m' = .live j → t.val m' ≠ some w := by
  induction count generalizing i with
  | zero => cases h
  | succ count ih =>
    rw [nextLoop] at h
    split at h
    · next k' v' hk hv =>
      cases h
      exact ⟨i, le_rfl, hk, hv, fun m' hm' hi => absurd hm' (Nat.not_lt.2 hi)⟩
    · next hnot =>
      obtain ⟨m, him, hk, hv, hbefore⟩ := ih h
      refine ⟨m, Nat.le_of_succ_le him, hk, hv, fun m' hm' hi j w hj hw => ?_⟩
      rcases Nat.eq_or_lt_of_le hi with rfl | hlt
      · exact hnot j w hj hw
      · exact hbefore m' hm' hlt j w hj hw

omit [DecidableEq K] in
/-- From the index on there is none. -/
theorem nextLoop_none {count i : Nat} (h : t.nextLoop count i = none) :
    ∀ m < i + count, i ≤ m → ∀ j w, t.key m = .live j → t.val m ≠ some w := by
  induction count generalizing i with
  | zero => exact fun m hm hi => absurd hm (Nat.not_lt.2 hi)
  | succ count ih =>
    rw [nextLoop] at h
    split at h
    · cases h
    · next hnot =>
      intro m hm hi j w hj hw
      rcases Nat.eq_or_lt_of_le hi with rfl | hlt
      · exact hnot j w hj hw
      · exact ih h m (by omega) hlt j w hj hw

/-! ## The key given last -/

/-- A search for a key, dead or not, ends at the first node on the chain that knows it. -/
theorem indexLoop_first {turns n m : Nat} {l : List Nat} (hl : Chain t.next (some n) l)
    (hturns : l.length ≤ turns) (hm : Leads t.next n m) (hk : t.Known m k)
    (hfirst : ∀ m', t.Known m' k → Leads t.next n m' → Leads t.next m' m → m' = m) :
    t.indexLoop k turns n = some (some m) := by
  induction turns generalizing n l with
  | zero => cases hl; cases hturns
  | succ turns ih =>
    cases hl with
    | cons hl =>
      rw [indexLoop]
      by_cases hn : t.key n = .live k ∨ t.key n = .dead k
      · rw [if_pos hn, hfirst n hn (.here n) hm]
      · rw [if_neg hn]
        cases hm with
        | here => exact absurd hk hn
        | @on _ c _ hc hm =>
          rw [hc] at hl ⊢
          exact ih hl (Nat.le_of_succ_le_succ hturns) hm fun m' hm' hcm =>
            hfirst m' hm' (.on hc hcm)

/-- A key is found at its node before any dead key with its pointer. -/
theorem Inv.index_live (h : t.Inv H) (hk : t.key n = .live k) :
    t.indexLoop k t.sizenode (t.mainposition H k) = some (some n) := by
  obtain ⟨l, hl, hle⟩ := h.chain (mainposition_lt h k)
  refine indexLoop_first hl hle (h.leads n k (.inl hk)) (.inl hk) fun m' hm' _ hback => ?_
  rcases hm' with hlive | hdead
  · exact h.once m' n k hlive hk
  · exact hback.antisymm (h.first n m' k hk hdead) (h.ends m') (h.ends n)

/-! ## What a traversal leaves as it was -/

/-- The nodes are where they were; keys without a value may be dead. -/
structure Fades (t₀ t : Table K V) : Prop where
  sizenode : t.sizenode = t₀.sizenode
  next : t.next = t₀.next
  known : ∀ n k, t.Known n k ↔ t₀.Known n k
  live : ∀ n k, t.key n = .live k → t₀.key n = .live k

/-- The search does not tell a dead key from a live one. -/
theorem indexLoop_fades {t₀ : Table K V} (h : Fades t₀ t) (turns n : Nat) :
    t.indexLoop k turns n = t₀.indexLoop k turns n := by
  induction turns generalizing n with
  | zero => rfl
  | succ turns ih =>
    have hknown : (t.key n = .live k ∨ t.key n = .dead k) ↔
        t₀.key n = .live k ∨ t₀.key n = .dead k :=
      h.known n k
    rw [indexLoop, indexLoop, h.next]
    simp only [hknown, ih]

/-- The key given last is found where it was when the traversal began, dead or not. -/
theorem Fades.index {t₀ : Table K V} (h : Fades t₀ t) (hinv : t₀.Inv H) (hk : t₀.key n = .live k) :
    t.indexLoop k t.sizenode (t.mainposition H k) = some (some n) := by
  rw [indexLoop_fades h, mainposition, h.sizenode]
  exact hinv.index_live hk

end Table

/-- A traversal of `t₀`: the table it has come to and the keys it was given. Between two calls of
`luaH_next` it may write to fields that exist, and the collector may come. `S` are keys that have a
value all along. -/
inductive Traversal (H : Hash K) (iscollectable : K → Bool) (S : K → Prop) (t₀ : Table K V) :
    Table K V → List K → Prop where
  | start : (∀ j, S j → ∃ v, t₀.Has j v) → Traversal H iscollectable S t₀ t₀ []
  | next {t : Table K V} {ks : List K} {k : K} {v : V} : Traversal H iscollectable S t₀ t ks →
      t.luaH_next H ks.getLast? = some (.ok (some (k, v))) →
      Traversal H iscollectable S t₀ t (ks ++ [k])
  | write {t : Table K V} {ks : List K} {k : K} {n : Nat} {v : Option V} :
      Traversal H iscollectable S t₀ t ks → t.luaH_get H k = some (some n) → (S k → v ≠ none) →
      Traversal H iscollectable S t₀ (t.setVal n v) ks
  | collect {t : Table K V} {ks : List K} : Traversal H iscollectable S t₀ t ks →
      Traversal H iscollectable S t₀ (t.traversetable iscollectable) ks

/-- Where a traversal stands: all before the index `c` has been passed. -/
structure Passed (S : K → Prop) (t₀ : Table K V) (ks : List K) (c : Nat) : Prop where
  last : ks = [] ∧ c = 0 ∨ ∃ k p, ks.getLast? = some k ∧ t₀.key p = .live k ∧ c = p + 1
  before : ∀ k ∈ ks, ∃ p < c, t₀.key p = .live k
  nodup : ks.Nodup
  given : ∀ j, S j → ∀ p < c, t₀.key p = .live j → j ∈ ks

/-- What holds of a traversal at any time. -/
structure Stands (H : Hash K) (S : K → Prop) (t₀ t : Table K V) (ks : List K) : Prop where
  inv : t.Inv H
  fades : Table.Fades t₀ t
  has : ∀ j, S j → ∃ v, t.Has j v
  passed : ∃ c, Passed S t₀ ks c

/-- `luaH_next` goes on where the traversal stands. -/
theorem Stands.luaH_next {S : K → Prop} {t₀ : Table K V} {ks : List K} (hinv : t₀.Inv H)
    (h : Stands H S t₀ t ks) :
    ∃ c, Passed S t₀ ks c ∧
      t.luaH_next H ks.getLast? = some (.ok (t.nextLoop (t.sizenode - c) c)) := by
  obtain ⟨c, hpassed⟩ := h.passed
  refine ⟨c, hpassed, ?_⟩
  rcases hpassed.last with ⟨rfl, rfl⟩ | ⟨k, p, hlast, hk, rfl⟩
  · rfl
  · rw [hlast, Table.luaH_next, h.fades.index hinv hk]

omit [DecidableEq K] in
/-- The element given next was not given before, and what was passed over has no key of `S`. -/
theorem Passed.next {S : K → Prop} {t₀ : Table K V} {ks : List K} {c m : Nat} (hinv : t₀.Inv H)
    (h : Passed S t₀ ks c) (hm : c ≤ m) (hk : t₀.key m = .live k)
    (hskipped : ∀ p < m, c ≤ p → ∀ j, S j → t₀.key p ≠ .live j) :
    k ∉ ks ∧ Passed S t₀ (ks ++ [k]) (m + 1) := by
  have hnew : k ∉ ks := by
    intro hmem
    obtain ⟨p, hp, hpk⟩ := h.before k hmem
    exact absurd (hinv.once p m k hpk hk) (by omega)
  refine ⟨hnew, .inr ⟨k, m, List.getLast?_concat, hk, rfl⟩, ?_, ?_, ?_⟩
  · intro j hj
    rcases List.mem_append.1 hj with hj | hj
    · obtain ⟨p, hp, hpj⟩ := h.before j hj
      exact ⟨p, by omega, hpj⟩
    · rw [List.mem_singleton.1 hj]
      exact ⟨m, Nat.lt_succ_self m, hk⟩
  · exact List.nodup_append.2 ⟨h.nodup, List.nodup_singleton k, fun a ha b hb heq =>
      hnew (List.mem_singleton.1 hb ▸ heq ▸ ha)⟩
  · intro j hj p hp hpj
    rcases Nat.lt_or_ge p c with hpc | hpc
    · exact List.mem_append_left _ (h.given j hj p hpc hpj)
    · rcases Nat.lt_succ_iff_lt_or_eq.1 hp with hlt | rfl
      · exact absurd hpj (hskipped p hlt hpc j hj)
      · rw [hk] at hpj
        exact List.mem_append_right _ (List.mem_singleton.2 (Key.live.inj hpj).symm)

omit [DecidableEq K] in
/-- Keys with a value all along are not in a node without one. -/
theorem Stands.skipped {S : K → Prop} {t₀ : Table K V} {ks : List K} (hinv : t₀.Inv H)
    (h : Stands H S t₀ t ks) {p : Nat} (hp : ∀ j w, t.key p = .live j → t.val p ≠ some w) (j : K)
    (hj : S j) : t₀.key p ≠ .live j := by
  intro hpj
  obtain ⟨v, q, hq, hv⟩ := h.has j hj
  have hqp := hinv.once q p j (h.fades.live q j hq) hpj
  rw [hqp] at hq hv
  exact hp j v hq hv

/-- A search that finds a node finds the key in it. -/
theorem Table.findLoop_key {turns m : Nat} (h : t.findLoop k turns m = some (some n)) :
    t.key n = .live k := by
  induction turns generalizing m with
  | zero => cases h
  | succ turns ih =>
    rw [findLoop] at h
    split at h
    · next hkey =>
      cases h
      exact hkey
    · split at h
      · cases h
      · exact ih h

/-- Each step of a traversal keeps where it stands: only `next` moves on, and no node changes its
place. -/
theorem Traversal.stands {S : K → Prop} {t₀ : Table K V} {ks : List K} (hinv : t₀.Inv H)
    (h : Traversal H iscollectable S t₀ t ks) : Stands H S t₀ t ks := by
  induction h with
  | start hS =>
    refine ⟨hinv, ⟨rfl, rfl, fun _ _ => Iff.rfl, fun _ _ hk => hk⟩, hS, 0, .inl ⟨rfl, rfl⟩, ?_,
      List.nodup_nil, ?_⟩
    · exact List.forall_mem_nil _
    · exact fun j _ p hp => absurd hp (Nat.not_lt_zero p)
  | @next t ks k v _ hnext ih =>
    obtain ⟨c, hpassed, heq⟩ := ih.luaH_next hinv
    have hloop := Except.ok.inj (Option.some.inj (heq.symm.trans hnext))
    obtain ⟨m, hcm, hk, -, hskipped⟩ := Table.nextLoop_some hloop
    obtain ⟨-, hnew⟩ := hpassed.next hinv hcm (ih.fades.live m k hk) fun p hp hcp =>
      ih.skipped hinv (hskipped p hp hcp)
    exact ⟨ih.inv, ih.fades, ih.has, _, hnew⟩
  | @write t ks k n v _ hget hvalue ih =>
    have hk := Table.findLoop_key hget
    refine ⟨ih.inv.setVal hk v, ⟨ih.fades.sizenode, ih.fades.next, ih.fades.known, ih.fades.live⟩,
      fun j hj => ?_, ih.passed⟩
    by_cases hjk : j = k
    · obtain ⟨w, hw⟩ := Option.ne_none_iff_exists'.1 (hvalue (hjk ▸ hj))
      exact ⟨w, (Table.has_setVal ih.inv hk v j w).2 (by rwa [if_pos hjk])⟩
    · obtain ⟨w, hw⟩ := ih.has j hj
      exact ⟨w, (Table.has_setVal ih.inv hk v j w).2 (by rwa [if_neg hjk])⟩
  | @collect t ks _ ih =>
    refine ⟨ih.inv.traversetable,
      ⟨ih.fades.sizenode, ih.fades.next, fun n k => ?_, fun n k hk => ?_⟩,
      fun j hj => ?_, ih.passed⟩
    · exact Table.traversetable_known.trans (ih.fades.known n k)
    · exact ih.fades.live n k (Table.traversetable_live hk)
    · obtain ⟨w, hw⟩ := ih.has j hj
      exact ⟨w, (Table.traversetable_has w).2 hw⟩

/-- A traversal of any table that a run leaves: `next` never says that its key is invalid, gives
elements of the table, no key twice, and ends only when every key that had a value all along was
given; fields that exist may be written to and cleared, and their keys collected, on the way. -/
theorem traversal_spec {H : Hash K} {size : Nat} {as : List (Action K V)}
    {outs : List (Except String (Option V))} {t₁ t₀ t : Table K V} {S : K → Prop} {ks : List K}
    (hnew : Table.setnodevector size = .ok t₁)
    (hrun : t₁.run H iscollectable as = some (outs, t₀))
    (h : Traversal H iscollectable S t₀ t ks) :
    ks.Nodup ∧ ∃ r, t.luaH_next H ks.getLast? = some (.ok r) ∧
      (∀ k v, r = some (k, v) → t.Has k v ∧ k ∉ ks) ∧ (r = none → ∀ j, S j → j ∈ ks) := by
  obtain ⟨outs', t', A, hrun', -, hholds⟩ := (new_holds H hnew).run iscollectable as
  obtain ⟨-, rfl⟩ := Prod.mk.inj (Option.some.inj (hrun'.symm.trans hrun))
  have hstands := h.stands hholds.inv
  obtain ⟨c, hpassed, hnext⟩ := hstands.luaH_next hholds.inv
  refine ⟨hpassed.nodup, _, hnext, fun k v hr => ?_, fun hr j hj => ?_⟩
  · obtain ⟨m, hcm, hk, hv, hskipped⟩ := Table.nextLoop_some hr
    have hnew := hpassed.next hholds.inv hcm (hstands.fades.live m k hk) fun p hp hcp =>
      hstands.skipped hholds.inv (hskipped p hp hcp)
    exact ⟨⟨m, hk, hv⟩, hnew.1⟩
  · obtain ⟨v, q, hq, hv⟩ := hstands.has j hj
    have hqc : q < c := by
      by_contra hge
      have hsize : q < t.sizenode := hstands.inv.inside q (by simp [hq])
      exact Table.nextLoop_none hr q (by omega) (by omega) j v hq hv
    exact hpassed.given j hj q hqc (hstands.fades.live q j hq)

/-- The table of two keys, and what is left of it behind a traversal that was given the second one,
took it out and met the collector. -/
def pairTable : Option (Table Nat Nat) :=
  ((Table.newvector 0).run remainders (fun _ => true) pairActions).map Prod.snd

def pairLeft (t₀ : Table Nat Nat) : Table Nat Nat :=
  (t₀.setVal 0 none).traversetable fun _ => true

theorem pairTable_spec : ∃ outs t₀,
    (Table.newvector 0).run remainders (fun _ => true) pairActions = some (outs, t₀) ∧
      pairTable = some t₀ := by
  have hrun : ((Table.newvector 0).run remainders (fun _ => true) pairActions).isSome = true := by
    decide +kernel
  obtain ⟨⟨outs, t₀⟩, h⟩ := Option.isSome_iff_exists.1 hrun
  exact ⟨outs, t₀, h, by rw [pairTable, h]; rfl⟩

/-- The key 3 is given, its value taken out and the key collected; the traversal goes on from it. -/
theorem traversal_spec_pair : ∃ t₀, pairTable = some t₀ ∧
    (pairLeft t₀).key 0 = .dead 3 ∧ [3].Nodup ∧
    ∃ r, (pairLeft t₀).luaH_next remainders [3].getLast? = some (.ok r) ∧
      (∀ k v, r = some (k, v) → (pairLeft t₀).Has k v ∧ k ∉ [3]) ∧
      (r = none → ∀ j, j = 1 → j ∈ [3]) := by
  obtain ⟨outs, t₀, hrun, htable⟩ := pairTable_spec
  have hfirst : pairTable.bind (·.luaH_next remainders none) = some (.ok (some (3, 30))) := by
    decide +kernel
  have hget : pairTable.bind (·.luaH_get remainders 3) = some (some 0) := by decide +kernel
  have hdead : pairTable.map (fun t => (pairLeft t).key 0) = some (.dead 3) := by decide +kernel
  have hone : pairTable.map (fun t => (t.key 1, t.val 1)) = some (.live 1, some 10) := by
    decide +kernel
  rw [htable] at hfirst hget hdead hone
  obtain ⟨hkey, hval⟩ := Prod.mk.inj (Option.some.inj hone)
  have hstart : Traversal remainders (fun _ => true) (fun j => j = 1) t₀ t₀ [] :=
    .start fun j hj => ⟨10, 1, hj ▸ hkey, hval⟩
  have hgiven : Traversal remainders (fun _ => true) (fun j => j = 1) t₀ (pairLeft t₀) [3] :=
    .collect (.write (.next hstart hfirst) hget fun h => absurd h (by decide))
  have hnew : (Table.setnodevector 0 : Except String (Table Nat Nat)) = .ok (Table.newvector 0) :=
    rfl
  exact ⟨t₀, htable, Option.some.inj hdead, traversal_spec hnew hrun hgiven⟩

end LuaFltk.Tables
