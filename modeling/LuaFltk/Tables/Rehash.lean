import LuaFltk.Tables.NewKey

/-!
# Rehashing

A table without a place for a new key is built anew, with the elements it has. The vector is then
large enough for them and the new key, so that nothing is built anew on the way. Only a table with as
many elements as the largest vector has nodes cannot be built anew.
-/

namespace LuaFltk.Tables

open Lib

variable {K V : Type} [DecidableEq K] {H : Hash K} {t t' : Table K V} {k : K} {n : Nat}

namespace Table

/-! ## Places for new keys -/

/-- The free place found is in the vector, with no free place above it. -/
theorem Inv.found (h : t.Inv H) (hdummy : t.dummy = false)
    (hn : (freeLoop t.key t.lastfree).1 = some n) :
    t.Found n ∧ (freeLoop t.key t.lastfree).2 = n := by
  obtain ⟨hleft, hlt, hkey, habove⟩ := freeLoop_some (Prod.ext hn rfl :
    freeLoop t.key t.lastfree = (some n, (freeLoop t.key t.lastfree).2))
  refine ⟨⟨hkey, Nat.lt_of_lt_of_le hlt h.bound, fun m hm hnm => ?_⟩, hleft⟩
  rcases Nat.lt_or_ge m t.lastfree with hm' | hm'
  · exact habove m hm' hnm
  · exact h.lastfree hdummy m hm hm'

/-- When `getfreepos` finds nothing every node is in use. -/
theorem Inv.full (h : t.Inv H) (hdummy : t.dummy = false)
    (hnone : (freeLoop t.key t.lastfree).1 = none) : t.used = t.sizenode := by
  obtain ⟨-, hbelow⟩ := freeLoop_none (Prod.ext hnone rfl :
    freeLoop t.key t.lastfree = (none, (freeLoop t.key t.lastfree).2))
  have hall : ∀ m ∈ Finset.range t.sizenode, t.key m ≠ .nil := by
    intro m hm
    rcases Nat.lt_or_ge m t.lastfree with hm' | hm'
    · exact hbelow m hm'
    · exact h.lastfree hdummy m (Finset.mem_range.1 hm) hm'
  rw [used, Finset.filter_true_of_mem hall, Finset.card_range]

/-- There is no place for a new key when every node has been used, or in the vector of an empty
table. -/
theorem newkey_spec (h : t.Inv H) (hnew : ∀ m, t.key m ≠ .live k) :
    (∃ n t', t.newkey H k = some (some n, t') ∧ Made H t k n t') ∨
      t.newkey H k = some (none, t.setLastfree 0) ∧
        (t.dummy = true ∨ t.used = t.sizenode) := by
  rw [newkey]
  dsimp only
  by_cases hfull : ((t.val (t.mainposition H k)).isSome || t.dummy) = true
  · rw [if_pos hfull, getfreepos]
    cases hfree : (freeLoop t.key t.lastfree).1 with
    | none =>
      obtain ⟨hleft, -⟩ := freeLoop_none (Prod.ext hfree rfl :
        freeLoop t.key t.lastfree = (none, (freeLoop t.key t.lastfree).2))
      rw [hleft]
      refine .inr ⟨rfl, ?_⟩
      cases hdummy : t.dummy with
      | true => exact .inl rfl
      | false => exact .inr (h.full hdummy hfree)
    | some n =>
      have hdummy : t.dummy = false := by
        by_contra htrue
        rw [Bool.not_eq_false] at htrue
        obtain ⟨-, hlt, -⟩ := freeLoop_some (Prod.ext hfree rfl :
          freeLoop t.key t.lastfree = (some n, (freeLoop t.key t.lastfree).2))
        exact absurd (h.empty htrue) (Nat.ne_of_gt (Nat.zero_lt_of_lt hlt))
      obtain ⟨hfound, hleft⟩ := h.found hdummy hfree
      rw [hdummy, Bool.or_false] at hfull
      obtain ⟨k', hk'⟩ := h.keyed _ hfull
      left
      rw [hleft]
      have hkey : (t.setLastfree n).key (t.mainposition H k) = .live k' := hk'
      dsimp only
      rw [hkey]
      dsimp only
      by_cases hmain : t.mainposition H k' = t.mainposition H k
      · refine ⟨n, _, if_neg (not_not_intro hmain), ?_⟩
        exact linkNode_made h hnew hfound hdummy hk' hmain
      · obtain ⟨l, hl, hle⟩ := h.chain (mainposition_lt h k')
        obtain ⟨p, hprev, hp⟩ := previous_spec hl hle (h.leads _ k' (.inl hk')) hmain
        refine ⟨t.mainposition H k, _, ?_, moveNode_made h hnew hfound hdummy hk' hmain hp⟩
        have hprev' : previous (t.setLastfree n).next (t.mainposition H k)
            (t.setLastfree n).sizenode ((t.setLastfree n).mainposition H k') = some p := hprev
        have hmain' : (t.setLastfree n).mainposition H k' ≠ t.mainposition H k := hmain
        rw [if_pos hmain', hprev']
  · rw [if_neg hfull]
    rw [Bool.or_eq_true, not_or, Bool.not_eq_true, Bool.not_eq_true, Option.isSome_eq_false_iff,
      Option.isNone_iff_eq_none] at hfull
    exact .inl ⟨_, _, rfl, setKey_made h hnew hfull.1 hfull.2⟩

/-! ## Values -/

/-- The key has a node, and all elements are as they were. -/
structure Stored (H : Hash K) (t : Table K V) (k : K) (n : Nat) (t' : Table K V) : Prop where
  inv : t'.Inv H
  key : t'.key n = .live k
  has : ∀ j v, t'.Has j v ↔ t.Has j v

/-- A new key has no value yet, so that the elements are the same. -/
theorem Made.stored (h : Made H t k n t') (hnew : ∀ m, t.key m ≠ .live k) : Stored H t k n t' := by
  refine ⟨h.inv, h.key, fun j v => ?_⟩
  by_cases hj : j = k
  · constructor
    · rintro ⟨m, hm, hv⟩
      rw [h.inv.once m n k (hj ▸ hm) h.key, h.val] at hv
      cases hv
    · rintro ⟨m, hm, -⟩
      exact absurd (hj ▸ hm) (hnew m)
  · exact h.has j v hj

omit [DecidableEq K] in
theorem setVal_self (t : Table K V) (n : Nat) (v : Option V) : (t.setVal n v).val n = v :=
  Function.update_self ..

omit [DecidableEq K] in
theorem setVal_ne (t : Table K V) {m : Nat} (h : m ≠ n) (v : Option V) :
    (t.setVal n v).val m = t.val m :=
  Function.update_of_ne h ..

omit [DecidableEq K] in
/-- The invariant says of values only that they have keys. -/
theorem Inv.setVal (h : t.Inv H) (hk : t.key n = .live k) (v : Option V) :
    (t.setVal n v).Inv H := by
  refine ⟨h.size, h.bound, h.ends, h.apart, h.free, h.inside, fun m hm => ?_, h.leads, h.once,
    h.first, h.collides, h.lastfree, h.empty, h.dummy⟩
  by_cases heq : m = n
  · exact ⟨k, heq ▸ hk⟩
  · rw [setVal_ne t heq] at hm
    exact h.keyed m hm

/-- Writing a value changes the element of its key alone. -/
theorem has_setVal (h : t.Inv H) (hk : t.key n = .live k) (v : Option V) (j : K) (w : V) :
    (t.setVal n v).Has j w ↔ if j = k then v = some w else t.Has j w := by
  constructor
  · rintro ⟨m, hm, hw⟩
    by_cases heq : m = n
    · rw [heq] at hm hw
      rw [setVal_self] at hw
      rw [if_pos (Key.live.inj (hm.symm.trans hk)), hw]
    · rw [setVal_ne t heq] at hw
      have hjk : j ≠ k := by
        intro hj
        rw [hj] at hm
        exact heq (h.once m n k hm hk)
      rw [if_neg hjk]
      exact ⟨m, hm, hw⟩
  · split
    · next hj =>
      intro hv
      exact ⟨n, hj ▸ hk, (setVal_self t n v).trans hv⟩
    · next hj =>
      rintro ⟨m, hm, hw⟩
      have hne : m ≠ n := by
        intro heq
        rw [heq, hk] at hm
        exact hj (Key.live.inj hm).symm
      exact ⟨m, hm, (setVal_ne t hne v).trans hw⟩

/-! ## Building anew -/

omit [DecidableEq K] in
/-- A new vector has no keys at all. -/
theorem newvector_inv (H : Hash K) (size : Nat) : (newvector size : Table K V).Inv H where
  size := Nat.two_pow_pos _
  bound := by
    change (if size = 0 then 0 else 2 ^ Nat.clog 2 size) ≤ 2 ^ Nat.clog 2 size
    split
    · exact Nat.zero_le _
    · exact le_rfl
  ends := fun _ => .last rfl
  apart := by
    intro a b c ha
    cases ha
  free := by
    intro m _
    refine ⟨rfl, fun a ha => ?_⟩
    cases ha
  inside := fun m hm => absurd rfl hm
  keyed := by
    intro m hm
    cases hm
  leads := by
    rintro m j (hm | hm) <;> cases hm
  once := by
    intro m m' j hm
    cases hm
  first := by
    intro m m' j hm
    cases hm
  collides := by
    rintro m j (hm | hm) <;> cases hm
  lastfree := by
    intro hdummy m hm hge
    have hsize : ¬ size = 0 := of_decide_eq_false hdummy
    change (if size = 0 then 0 else 2 ^ Nat.clog 2 size) ≤ m at hge
    rw [if_neg hsize] at hge
    exact absurd hm (Nat.not_lt.2 hge)
  empty := fun hdummy => if_pos (of_decide_eq_true hdummy)
  dummy := fun _ _ => rfl

theorem used_newvector (size : Nat) : (newvector size : Table K V).used = 0 := by
  rw [used, Finset.card_eq_zero, Finset.filter_eq_empty_iff]
  exact fun m _ hm => hm rfl

/-- Where a node is left, a key is put without building the table anew. -/
theorem luaH_set_room (calls : Nat) (h : t.Inv H) (hdummy : t.dummy = false)
    (hroom : t.used < t.sizenode) (k : K) :
    ∃ n t', luaH_set H (calls + 1) t k = some (.ok n, t') ∧ Stored H t k n t' ∧
      t'.sizenode = t.sizenode ∧ t'.dummy = t.dummy ∧ t'.used ≤ t.used + 1 := by
  rw [luaH_set]
  rcases h.get_cases k with ⟨n, hn, hget⟩ | ⟨habsent, hget⟩
  · rw [hget]
    exact ⟨n, t, rfl, ⟨h, hn, fun _ _ => Iff.rfl⟩, rfl, rfl, Nat.le_succ _⟩
  · rw [hget]
    rcases newkey_spec h habsent with ⟨n, t', hnewkey, hmade⟩ | ⟨-, hfull⟩
    · rw [hnewkey]
      exact ⟨n, t', rfl, hmade.stored habsent, hmade.sizenode, hmade.dummy, hmade.used⟩
    · rcases hfull with htrue | hused
      · exact absurd (hdummy.symm.trans htrue) Bool.false_ne_true
      · exact absurd hroom (by omega)

/-- What is re-inserted of the first nodes of `old`. -/
def HasBelow (old : Table K V) (i : Nat) (k : K) (v : V) : Prop :=
  ∃ m < i, old.key m = .live k ∧ old.val m = some v

omit [DecidableEq K] in
/-- One node more. -/
theorem hasBelow_succ {old : Table K V} {i : Nat} {v : V} :
    old.HasBelow (i + 1) k v ↔ old.HasBelow i k v ∨ old.key i = .live k ∧ old.val i = some v := by
  constructor
  · rintro ⟨m, hm, hmv⟩
    rcases Nat.lt_succ_iff_lt_or_eq.1 hm with hlt | rfl
    · exact .inl ⟨m, hlt, hmv⟩
    · exact .inr hmv
  · rintro (⟨m, hm, hmv⟩ | hi)
    · exact ⟨m, Nat.lt_succ_of_lt hm, hmv⟩
    · exact ⟨i, Nat.lt_succ_self i, hi⟩

/-- A vector with room for the elements of the first nodes takes them all. -/
theorem reinsert_spec (old : Table K V)
    (hkeyed : ∀ n, (old.val n).isSome → ∃ k, old.key n = .live k)
    (honce : ∀ n m k, old.key n = .live k → old.key m = .live k → n = m) (calls i : Nat)
    {t : Table K V} (h : t.Inv H) (hdummy : t.dummy = false)
    (hroom : t.used + old.numusehash i < t.sizenode)
    (hnone : ∀ j v w, t.Has j v → ¬ old.HasBelow i j w) :
    ∃ t', reinsert (luaH_set H (calls + 1)) old i t = some (.ok (), t') ∧ t'.Inv H ∧ t'.dummy = false ∧
      t'.used < t'.sizenode ∧ ∀ j v, t'.Has j v ↔ t.Has j v ∨ old.HasBelow i j v := by
  induction i generalizing t with
  | zero =>
    refine ⟨t, rfl, h, hdummy, hroom, fun j v => ⟨.inl, fun hor => hor.resolve_right ?_⟩⟩
    rintro ⟨m, hm, -⟩
    exact absurd hm (Nat.not_lt_zero m)
  | succ i ih =>
    rw [numusehash] at hroom
    rw [reinsert]
    cases hval : old.val i with
    | none =>
      rw [hval] at hroom
      obtain ⟨t', hrun, hinv, hd, hu, hhas⟩ := ih h hdummy hroom fun j v w hj hb =>
        hnone j v w hj (hasBelow_succ.2 (.inl hb))
      refine ⟨t', ?_, hinv, hd, hu, fun j v => ?_⟩
      · cases hkey : old.key i <;> exact hrun
      · rw [hhas, hasBelow_succ, hval]
        simp
    | some v =>
      obtain ⟨k, hkey⟩ := hkeyed i (by rw [hval]; rfl)
      rw [hval, Option.isSome_some, if_pos rfl] at hroom
      rw [hkey]
      obtain ⟨n, t₁, hset, hstored, hsize₁, hdummy₁, hused₁⟩ :=
        luaH_set_room calls h hdummy (by omega) k
      dsimp only
      rw [hset]
      dsimp only
      have hother : ∀ w, ¬ old.HasBelow i k w := by
        rintro w ⟨m, hm, hmk, -⟩
        exact absurd (honce m i k hmk hkey) (Nat.ne_of_lt hm)
      have hhas₁ := has_setVal hstored.inv hstored.key (some v)
      obtain ⟨t', hrun, hinv, hd, hu, hhas⟩ := ih (hstored.inv.setVal hstored.key (some v))
        (hdummy₁.trans hdummy) (lt_of_le_of_lt (Nat.add_le_add_right hused₁ _) (by
          change _ < t₁.sizenode
          omega)) (fun j w w' hj hb => by
          rw [hhas₁] at hj
          split at hj
          · next hjk => exact hother w' (hjk ▸ hb)
          · exact hnone j w w' ((hstored.has j w).1 hj) (hasBelow_succ.2 (.inl hb)))
      refine ⟨t', hrun, hinv, hd, hu, fun j w => ?_⟩
      rw [hhas, hhas₁, hasBelow_succ, hval, hkey, hstored.has]
      by_cases hjk : j = k
      · have hnot : ¬ t.Has k w := fun hk =>
          hnone k w v hk (hasBelow_succ.2 (.inr ⟨hkey, hval⟩))
        subst hjk
        simp only [if_true, true_and]
        tauto
      · have hne : ¬ Key.live k = Key.live j := fun heq => hjk (Key.live.inj heq).symm
        simp only [if_neg hjk, hne, false_and, or_false]

omit [DecidableEq K] in
/-- All nodes with keys are in the vector. -/
theorem Inv.hasBelow (h : t.Inv H) (k : K) (v : V) : t.HasBelow t.sizenode k v ↔ t.Has k v := by
  constructor
  · rintro ⟨m, -, hmv⟩
    exact ⟨m, hmv⟩
  · rintro ⟨m, hm, hv⟩
    exact ⟨m, h.inside m (by simp [hm]), hm, hv⟩

omit [DecidableEq K] in
theorem numusehash_setLastfree (t : Table K V) (m i : Nat) :
    (t.setLastfree m).numusehash i = t.numusehash i := by
  induction i with
  | zero => rfl
  | succ i ih => rw [numusehash, ih, numusehash]; rfl

/-! ## The largest table -/

omit [DecidableEq K] in
/-- The largest vector has `2 ^ MAXBITS` nodes. -/
theorem setnodevector_eq (size : Nat) : (setnodevector size : Except String (Table K V)) =
    if 2 ^ MAXBITS < size then .error "table overflow" else .ok (newvector size) := by
  rw [setnodevector]
  simp only [gt_iff_lt, Nat.lt_clog_iff_pow_lt Nat.one_lt_two]

/-- Where every node is used, `lastfree` may stand at the first one. -/
theorem Inv.setLastfree_zero (h : t.Inv H) (hfull : t.dummy = true ∨ t.used = t.sizenode) :
    (t.setLastfree 0).Inv H where
  size := h.size
  bound := Nat.zero_le _
  ends := h.ends
  apart := h.apart
  free := h.free
  inside := h.inside
  keyed := h.keyed
  leads := h.leads
  once := h.once
  first := h.first
  collides := h.collides
  lastfree := by
    intro hdummy m hm _
    have hused : t.used = t.sizenode := hfull.resolve_left fun htrue => by
      rw [show (t.setLastfree 0).dummy = t.dummy from rfl, htrue] at hdummy
      cases hdummy
    rw [used] at hused
    exact Finset.filter_card_eq (hused.trans (Finset.card_range _).symm) m (Finset.mem_range.2 hm)
  empty := fun _ => rfl
  dummy := h.dummy

/-- The first nodes with a value have as many keys. -/
theorem Inv.elements (h : t.Inv H) (i : Nat) :
    ∃ s : Finset K, s.card = t.numusehash i ∧ ∀ k ∈ s, ∃ v, t.HasBelow i k v := by
  induction i with
  | zero => exact ⟨∅, rfl, fun k hk => absurd hk (Finset.notMem_empty k)⟩
  | succ i ih =>
    obtain ⟨s, hcard, hs⟩ := ih
    have hmore : ∀ k ∈ s, ∃ v, t.HasBelow (i + 1) k v := fun k hk =>
      (hs k hk).imp fun _ hv => hasBelow_succ.2 (.inl hv)
    rw [numusehash]
    cases hval : t.val i with
    | none => exact ⟨s, hcard, hmore⟩
    | some v =>
      obtain ⟨k, hkey⟩ := h.keyed i (by rw [hval]; rfl)
      have hnew : k ∉ s := by
        intro hk
        obtain ⟨w, m, hm, hmk, -⟩ := hs k hk
        exact absurd (h.once m i k hmk hkey) (Nat.ne_of_lt hm)
      refine ⟨insert k s, ?_, fun j hj => ?_⟩
      · rw [Finset.card_insert_of_notMem hnew, hcard]
        rfl
      · rcases Finset.mem_insert.1 hj with rfl | hj
        · exact ⟨v, hasBelow_succ.2 (.inr ⟨hkey, hval⟩)⟩
        · exact hmore j hj

/-- A new key for which the table would have to be built larger than a table can be. -/
structure Overflows (H : Hash K) (t : Table K V) (k : K) (t' : Table K V) : Prop where
  inv : t'.Inv H
  absent : ∀ n, t.key n ≠ .live k
  has : ∀ j v, t'.Has j v ↔ t.Has j v
  elements : ∃ s : Finset K, 2 ^ MAXBITS ≤ s.card ∧ ∀ j ∈ s, ∃ v, t.Has j v

/-- A new vector takes the elements and the new key. -/
theorem rehash_spec (calls : Nat) (h : t.Inv H) (m : Nat) (k : K) :
    ∃ t₁ n t', reinsert (luaH_set H (calls + 1)) (t.setLastfree m) t.sizenode
        (newvector (t.numusehash t.sizenode + 1)) = some (.ok (), t₁) ∧
      luaH_set H (calls + 1) t₁ k = some (.ok n, t') ∧ Stored H t k n t' := by
  set live := t.numusehash t.sizenode with hlive
  have hsize : live + 1 ≤ (newvector (live + 1) : Table K V).sizenode :=
    Nat.le_pow_clog Nat.one_lt_two _
  have hdummy₀ : (newvector (live + 1) : Table K V).dummy = false :=
    decide_eq_false (Nat.succ_ne_zero live)
  have hroom : (newvector (live + 1) : Table K V).used +
      (t.setLastfree m).numusehash t.sizenode < (newvector (live + 1) : Table K V).sizenode := by
    rw [used_newvector, numusehash_setLastfree, ← hlive]
    omega
  have hempty : ∀ j v, ¬ (newvector (live + 1) : Table K V).Has j v := by
    rintro j v ⟨a, ha, -⟩
    cases ha
  obtain ⟨t₁, hrun, hinv, hdummy, hused, hhas⟩ := reinsert_spec (t.setLastfree m) h.keyed h.once
    calls t.sizenode (newvector_inv H (live + 1)) hdummy₀ hroom
    fun j v w hj => absurd hj (hempty j v)
  obtain ⟨n, t', hset, hstored, -⟩ := luaH_set_room calls hinv hdummy hused k
  refine ⟨t₁, n, t', hrun, hset, hstored.inv, hstored.key, fun j v => ?_⟩
  rw [hstored.has, hhas, ← h.hasBelow]
  exact or_iff_right (hempty j v)

/-- `luaH_set` makes a node for every key, and builds the table anew at most once for it, unless the
table is as large as a table can be. -/
theorem luaH_set_spec (calls : Nat) (h : t.Inv H) (k : K) :
    (∃ n t', luaH_set H (calls + 2) t k = some (.ok n, t') ∧ Stored H t k n t') ∨
      ∃ t', luaH_set H (calls + 2) t k = some (.error "table overflow", t') ∧
        Overflows H t k t' := by
  rw [luaH_set]
  rcases h.get_cases k with ⟨n, hn, hget⟩ | ⟨habsent, hget⟩
  · rw [hget]
    exact .inl ⟨n, t, rfl, ⟨h, hn, fun _ _ => Iff.rfl⟩⟩
  · rw [hget]
    rcases newkey_spec h habsent with ⟨n, t', hnewkey, hmade⟩ | ⟨hnewkey, hfull⟩
    · rw [hnewkey]
      exact .inl ⟨n, t', rfl, hmade.stored habsent⟩
    · rw [hnewkey]
      dsimp only
      have hcount : (t.setLastfree 0).numusehash (t.setLastfree 0).sizenode =
          t.numusehash t.sizenode :=
        numusehash_setLastfree t 0 _
      rw [hcount, setnodevector_eq]
      by_cases hlarge : 2 ^ MAXBITS < t.numusehash t.sizenode + 1
      · obtain ⟨s, hcard, hs⟩ := h.elements t.sizenode
        rw [if_pos hlarge]
        refine .inr ⟨_, rfl, h.setLastfree_zero hfull, habsent, fun _ _ => Iff.rfl, s, ?_, ?_⟩
        · rw [hcard]
          exact Nat.lt_succ_iff.1 hlarge
        · exact fun j hj => (hs j hj).imp fun v hv => (h.hasBelow j v).1 hv
      · obtain ⟨t₁, n, t', hrun, hset, hstored⟩ := rehash_spec calls h 0 k
        have hrun' : reinsert (luaH_set H (calls + 1)) (t.setLastfree 0) (t.setLastfree 0).sizenode
            (newvector (t.numusehash t.sizenode + 1)) = some (.ok (), t₁) := hrun
        rw [if_neg hlarge]
        dsimp only
        rw [hrun']
        exact .inl ⟨n, t', hset, hstored⟩

end Table

end LuaFltk.Tables
