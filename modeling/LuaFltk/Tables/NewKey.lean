import LuaFltk.Tables.Brent

/-!
# New keys

Each of the three ways a new key is put into the table keeps the invariant and the elements of all
other keys. There is no place for one only when every node has been used.
-/

namespace LuaFltk.Tables

open Lib

variable {K V : Type} {H : Hash K} {t t' : Table K V} {j k : K} {m n p : Nat}

namespace Table

/-! ## One node is given a key -/

/-- The node `n` has the key `k` in `t'`, and no other key has changed. -/
structure Puts (t : Table K V) (n : Nat) (k : K) (t' : Table K V) : Prop where
  self : t'.key n = .live k
  other : ∀ m, m ≠ n → t'.key m = t.key m

theorem setKey_puts (t : Table K V) (n : Nat) (k : K) : Puts t n k (t.setKey n k) :=
  ⟨Function.update_self .., fun _ hm => Function.update_of_ne hm ..⟩

theorem linkNode_puts (t : Table K V) (mp n : Nat) (k : K) :
    Puts t n k (((t.setLastfree n).linkNode mp n).setKey n k) :=
  ⟨Function.update_self .., fun _ hm => Function.update_of_ne hm ..⟩

theorem moveNode_puts (p : Nat) {mp : Nat} (hkey : t.key mp = .live k) :
    Puts t n k ((t.setLastfree n).moveNode p mp n) :=
  ⟨(Function.update_self ..).trans hkey, fun _ hm => Function.update_of_ne hm ..⟩

/-- The values after a move. -/
theorem moveNode_val (t : Table K V) (p : Nat) {mp : Nat} (hmpn : mp ≠ n) :
    (t.moveNode p mp n).val mp = none ∧ (t.moveNode p mp n).val n = t.val mp ∧
      ∀ m, m ≠ mp → m ≠ n → (t.moveNode p mp n).val m = t.val m := by
  refine ⟨Function.update_self .., ?_, fun m hm hm' => ?_⟩
  · rw [moveNode]
    dsimp only
    rw [Function.update_of_ne hmpn.symm, Function.update_self]
  · rw [moveNode]
    dsimp only
    rw [Function.update_of_ne hm, Function.update_of_ne hm']

namespace Puts

variable (h : Puts t n k t')
include h

/-- A key that is in the table now is the new one, or was there before. -/
theorem live (hm : t'.key m = .live j) : m = n ∧ j = k ∨ m ≠ n ∧ t.key m = .live j := by
  by_cases heq : m = n
  · rw [heq, h.self] at hm
    exact .inl ⟨heq, (Key.live.inj hm).symm⟩
  · exact .inr ⟨heq, h.other m heq ▸ hm⟩

theorem dead (hm : t'.key m = .dead j) : m ≠ n ∧ t.key m = .dead j := by
  have hne : m ≠ n := fun heq => by rw [heq, h.self] at hm; cases hm
  exact ⟨hne, h.other m hne ▸ hm⟩

theorem known (hm : t'.Known m j) : m = n ∧ j = k ∨ m ≠ n ∧ t.Known m j := by
  rcases hm with hlive | hdead
  · exact (h.live hlive).imp_right fun hold => ⟨hold.1, .inl hold.2⟩
  · exact .inr ⟨(h.dead hdead).1, .inr (h.dead hdead).2⟩

theorem nil (hm : t'.key m = .nil) : m ≠ n ∧ t.key m = .nil := by
  have hne : m ≠ n := fun heq => by rw [heq, h.self] at hm; cases hm
  exact ⟨hne, h.other m hne ▸ hm⟩

/-- No other node was put into use. -/
theorem used_or (hm : t'.key m ≠ .nil) : t.key m ≠ .nil ∨ m = n := by
  by_cases heq : m = n
  · exact .inr heq
  · exact .inl (h.other m heq ▸ hm)

theorem inside (hinv : t.Inv H) (hn : n < t.sizenode) (hm : t'.key m ≠ .nil) : m < t.sizenode := by
  rcases h.used_or hm with hold | rfl
  · exact hinv.inside m hold
  · exact hn

/-- A new key is at one node as the others are. -/
theorem once (hinv : t.Inv H) (hnew : ∀ m, t.key m ≠ .live k) {m' : Nat}
    (hm : t'.key m = .live j) (hm' : t'.key m' = .live j) : m = m' := by
  rcases h.live hm with ⟨hmn, hj⟩ | ⟨-, hold⟩ <;> rcases h.live hm' with ⟨hmn', hj'⟩ | ⟨-, hold'⟩
  · rw [hmn, hmn']
  · exact absurd (hj ▸ hold') (hnew m')
  · exact absurd (hj' ▸ hold) (hnew m)
  · exact hinv.once m m' j hold hold'

/-- Where the node had no value, other keys keep theirs. -/
theorem has (hval : t'.val = t.val) (hn : t.val n = none) (hj : j ≠ k) (v : V) :
    t'.Has j v ↔ t.Has j v := by
  constructor
  · rintro ⟨m, hm, hv⟩
    rcases h.live hm with ⟨-, heq⟩ | ⟨-, hold⟩
    · exact absurd heq hj
    · exact ⟨m, hold, hval ▸ hv⟩
  · rintro ⟨m, hm, hv⟩
    have hne : m ≠ n := by
      intro heq
      rw [heq, hn] at hv
      cases hv
    exact ⟨m, (h.other m hne).trans hm, hval ▸ hv⟩

omit h

section Both

variable {t₁ : Table K V} {k' : K} {mp : Nat} (h₁ : Puts t n k' t₁) (h₂ : Puts t₁ mp k t')
include h₁ h₂

/-- A key that is in the table now is the new one, the one that was moved, or was there before. -/
theorem both_live (hm : t'.key m = .live j) :
    m = mp ∧ j = k ∨ m = n ∧ j = k' ∨ m ≠ mp ∧ m ≠ n ∧ t.key m = .live j := by
  refine (h₂.live hm).imp_right fun hold => ?_
  exact (h₁.live hold.2).imp_right fun hold' => ⟨hold.1, hold'⟩

theorem both_dead (hm : t'.key m = .dead j) : m ≠ mp ∧ m ≠ n ∧ t.key m = .dead j :=
  ⟨(h₂.dead hm).1, h₁.dead (h₂.dead hm).2⟩

theorem both_known (hm : t'.Known m j) :
    m = mp ∧ j = k ∨ m = n ∧ j = k' ∨ m ≠ mp ∧ m ≠ n ∧ t.Known m j := by
  refine (h₂.known hm).imp_right fun hold => ?_
  exact (h₁.known hold.2).imp_right fun hold' => ⟨hold.1, hold'⟩

theorem both_nil (hm : t'.key m = .nil) : m ≠ mp ∧ m ≠ n ∧ t.key m = .nil :=
  ⟨(h₂.nil hm).1, h₁.nil (h₂.nil hm).2⟩

theorem both_other (hm : m ≠ mp) (hm' : m ≠ n) : t'.key m = t.key m :=
  (h₂.other m hm).trans (h₁.other m hm')

/-- The key that was at `mp` is at `n` only, and the new one at `mp` only. -/
theorem both_once (hinv : t.Inv H) (hnew : ∀ m, t.key m ≠ .live k) (hkey : t.key mp = .live k')
    {m' : Nat} (hm : t'.key m = .live j) (hm' : t'.key m' = .live j) : m = m' := by
  have hone : ∀ i, t'.key i = .live j →
      j = k ∧ i = mp ∨ j = k' ∧ i = n ∨ j ≠ k ∧ j ≠ k' ∧ t.key i = .live j := by
    intro i hi
    rcases h₁.both_live h₂ hi with ⟨hi, hj⟩ | ⟨hi, hj⟩ | ⟨hne, -, hold⟩
    · exact .inl ⟨hj, hi⟩
    · exact .inr (.inl ⟨hj, hi⟩)
    · refine .inr (.inr ⟨fun heq => hnew i (heq ▸ hold), fun heq => hne ?_, hold⟩)
      exact hinv.once i mp j hold (heq ▸ hkey)
  have hkk : k ≠ k' := fun heq => hnew mp (heq ▸ hkey)
  rcases hone m hm with ⟨hj, hm⟩ | ⟨hj, hm⟩ | ⟨hj, hj', hold⟩ <;>
    rcases hone m' hm' with ⟨hi, hm'⟩ | ⟨hi, hm'⟩ | ⟨hi, hi', hold'⟩
  · rw [hm, hm']
  · exact absurd (hj.symm.trans hi) hkk
  · exact absurd hj hi
  · exact absurd (hi.symm.trans hj) hkk
  · rw [hm, hm']
  · exact absurd hj hi'
  · exact absurd hi hj
  · exact absurd hi hj'
  · exact hinv.once m m' j hold hold'

end Both

end Puts

/-! ## Free places and main positions -/

/-- A node without a key has no value. -/
theorem Inv.val_none (h : t.Inv H) (hk : ∀ k, t.key n ≠ .live k) : t.val n = none := by
  by_contra hv
  obtain ⟨k, hkey⟩ := h.keyed n (Option.isSome_iff_ne_none.2 hv)
  exact hk k hkey

/-- No main position of a key that is elsewhere is free. -/
theorem Inv.mainposition_ne (h : t.Inv H) (hn : t.key n = .nil) (hm : t.Known m j) :
    t.mainposition H j ≠ n := by
  intro heq
  by_cases hmain : m = t.mainposition H j
  · rw [Known, hmain, heq, hn] at hm
    rcases hm with hm | hm <;> cases hm
  · rcases h.collides m j hm hmain with ⟨k', hdead⟩ | ⟨k', hk', -⟩
    · rw [heq, hn] at hdead
      cases hdead
    · rw [heq, hn] at hk'
      cases hk'

/-- What a key collides with stays, where the key of its main position does. -/
theorem Collides.congr (h : t.Collides H j) (hsize : t'.sizenode = t.sizenode)
    (hkey : t'.key (t.mainposition H j) = t.key (t.mainposition H j)) : t'.Collides H j := by
  rw [Collides, mainposition, hsize]
  rcases h with ⟨k', hdead⟩ | ⟨k', hlive, hmain⟩
  · exact .inl ⟨k', hkey.trans hdead⟩
  · refine .inr ⟨k', hkey.trans hlive, ?_⟩
    rwa [mainposition, hsize]

/-! ## The main position is free, or was freed -/

/-- A new key in a main position without a value: the chains stay as they are. -/
theorem setKey_inv (h : t.Inv H) (hnew : ∀ m, t.key m ≠ .live k)
    (hval : t.val (t.mainposition H k) = none) (hdummy : t.dummy = false) :
    (t.setKey (t.mainposition H k) k).Inv H := by
  have hputs := setKey_puts t (t.mainposition H k) k
  exact {
    size := h.size
    bound := h.bound
    ends := h.ends
    apart := h.apart
    free := fun m hm => h.free m (hputs.nil hm).2
    inside := fun m hm => hputs.inside h (mainposition_lt h k) hm
    keyed := by
      intro m hm
      have hne : m ≠ t.mainposition H k := by
        intro heq
        rw [heq] at hm
        exact absurd hm (by simp [setKey, hval])
      rw [hputs.other m hne]
      exact h.keyed m hm
    leads := by
      intro m j hm
      rcases hputs.known hm with ⟨rfl, rfl⟩ | ⟨-, hold⟩
      · exact .here _
      · exact h.leads m j hold
    once := fun m m' j hm hm' => hputs.once h hnew hm hm'
    first := by
      intro m m' j hm hm'
      rcases hputs.live hm with ⟨rfl, rfl⟩ | ⟨-, hold⟩
      · exact h.leads m' j (.inr (hputs.dead hm').2)
      · exact h.first m m' j hold (hputs.dead hm').2
    collides := by
      intro m j hm hne
      rcases hputs.known hm with ⟨rfl, rfl⟩ | ⟨-, hold⟩
      · exact absurd rfl hne
      · by_cases hj : t.mainposition H j = t.mainposition H k
        · -- the new key is what the old one collides with
          refine .inr ⟨k, ?_, hj.symm⟩
          change (t.setKey _ k).key (t.mainposition H j) = _
          rw [hj, hputs.self]
        · exact (h.collides m j hold hne).congr rfl (hputs.other _ hj)
    lastfree := fun _ m hm hge hnil => h.lastfree hdummy m hm hge (hputs.nil hnil).2
    empty := fun htrue => absurd (hdummy.symm.trans htrue) Bool.false_ne_true
    dummy := fun htrue => absurd (hdummy.symm.trans htrue) Bool.false_ne_true }

/-! ## The colliding node is in its own main position -/

/-- What `getfreepos` has found. -/
structure Found (t : Table K V) (n : Nat) : Prop where
  key : t.key n = .nil
  size : n < t.sizenode
  above : ∀ m < t.sizenode, n < m → t.key m ≠ .nil

section Link

variable (h : t.Inv H) (hnew : ∀ m, t.key m ≠ .live k) (hfound : t.Found n)
  (hdummy : t.dummy = false) {k' : K} (hkey : t.key (t.mainposition H k) = .live k')
include h hnew hfound hdummy hkey

/-- The new key is chained behind the one it collides with. -/
theorem linkNode_inv (hmain : t.mainposition H k' = t.mainposition H k) :
    (((t.setLastfree n).linkNode (t.mainposition H k) n).setKey n k).Inv H := by
  set mp := t.mainposition H k with hmp
  set t' := ((t.setLastfree n).linkNode mp n).setKey n k with ht'
  have hputs : Puts t n k t' := linkNode_puts t mp n k
  have hn := hfound.key
  have hfree := h.free n hn
  have hmpn : mp ≠ n := fun heq => by rw [heq, hn] at hkey; cases hkey
  exact {
    size := h.size
    bound := hfound.size.le
    ends := ends_putBehind hfree hmpn h.ends
    apart := h.apart.putBehind hfree
    free := by
      intro m hm
      obtain ⟨hne, hold⟩ := hputs.nil hm
      have hmmp : m ≠ mp := fun heq => by rw [heq, hkey] at hold; cases hold
      exact (h.free m hold).putBehind hmmp hne
    inside := fun m hm => hputs.inside h hfound.size hm
    keyed := by
      intro m hm
      obtain ⟨j, hj⟩ := h.keyed m hm
      have hne : m ≠ n := fun heq => by rw [heq, hn] at hj; cases hj
      exact ⟨j, (hputs.other m hne).trans hj⟩
    leads := by
      intro m j hm
      rcases hputs.known hm with ⟨rfl, rfl⟩ | ⟨hne, hold⟩
      · exact .on (Function.update_self ..) (.here _)
      · exact (h.leads m j hold).putBehind hfree hmpn (h.mainposition_ne hn hold)
    once := fun m m' j hm hm' => hputs.once h hnew hm hm'
    first := by
      intro m m' j hm hm'
      obtain ⟨-, hdead⟩ := hputs.dead hm'
      rcases hputs.live hm with ⟨rfl, rfl⟩ | ⟨hne, hold⟩
      · -- the chain from the main position goes through the new node
        have hleads := (h.leads m' j (.inr hdead)).putBehind hfree hmpn hmpn
        cases hleads with
        | here => rw [hdead] at hkey; cases hkey
        | on hc hrest =>
          rw [putBehind, Function.update_self] at hc
          cases hc
          exact hrest
      · exact (h.first m m' j hold hdead).putBehind hfree hmpn hne
    collides := by
      intro m j hm hne
      rcases hputs.known hm with ⟨rfl, rfl⟩ | ⟨-, hold⟩
      · exact .inr ⟨k', (hputs.other mp hmpn).trans hkey, hmain⟩
      · exact (h.collides m j hold hne).congr rfl (hputs.other _ (h.mainposition_ne hn hold))
    lastfree := by
      intro _ m hm hge hnil
      obtain ⟨hne, hold⟩ := hputs.nil hnil
      exact hfound.above m hm (lt_of_le_of_ne hge hne.symm) hold
    empty := fun htrue => absurd (hdummy.symm.trans htrue) Bool.false_ne_true
    dummy := fun htrue => absurd (hdummy.symm.trans htrue) Bool.false_ne_true }

end Link

/-! ## The colliding node is out of its main position -/

section Move

variable (h : t.Inv H) (hnew : ∀ m, t.key m ≠ .live k) (hfound : t.Found n)
  (hdummy : t.dummy = false) {k' : K} (hkey : t.key (t.mainposition H k) = .live k')
  (hmain : t.mainposition H k' ≠ t.mainposition H k) (hp : t.next p = some (t.mainposition H k))

include h hkey hmain in
/-- No other key has its main position there: it would collide with a key that has not. -/
theorem elsewhere (hm : m ≠ t.mainposition H k) (hj : t.Known m j) :
    t.mainposition H j ≠ t.mainposition H k := by
  intro heq
  rcases h.collides m j hj (by rwa [heq]) with ⟨j', hdead⟩ | ⟨j', hj', hmainj⟩
  · rw [heq, hkey] at hdead
    cases hdead
  · rw [heq, hkey] at hj'
    rw [heq, ← Key.live.inj hj'] at hmainj
    exact hmain hmainj

include h hp in
/-- No node is linked behind itself. -/
theorem before_ne : p ≠ t.mainposition H k := by
  intro heq
  rw [heq] at hp
  exact (h.ends _).ne_next hp rfl

include h hnew hfound hdummy hkey hmain hp

/-- The colliding node has moved to the free place, and the chain with it; the new key is alone
in its main position. -/
theorem moveNode_inv :
    (((t.setLastfree n).moveNode p (t.mainposition H k) n).setKey
      (t.mainposition H k) k).Inv H := by
  set mp := t.mainposition H k with hmp
  set t' := ((t.setLastfree n).moveNode p mp n).setKey mp k with ht'
  have hn := hfound.key
  have hfree := h.free n hn
  have hmpn : mp ≠ n := fun heq => by rw [heq, hn] at hkey; cases hkey
  have hpmp : p ≠ mp := before_ne h hp
  have hputs₁ : Puts t n k' ((t.setLastfree n).moveNode p mp n) := moveNode_puts p hkey
  have hputs₂ : Puts ((t.setLastfree n).moveNode p mp n) mp k t' := setKey_puts _ mp k
  have hval := moveNode_val (t.setLastfree n) p hmpn
  have hmoved : ∀ m, m ≠ mp → moved mp n m = m := fun m hm => if_neg hm
  exact {
    size := h.size
    bound := hfound.size.le
    ends := ends_replaceBy hfree hp hpmp h.apart h.ends
    apart := h.apart.replaceBy hfree hp hpmp
    free := by
      intro m hm
      obtain ⟨hmp', hne, hold⟩ := hputs₁.both_nil hputs₂ hm
      exact Free.replaceBy hfree hp hpmp h.apart (h.free m hold) hmp' hne
    inside := by
      intro m hm
      rcases hputs₂.used_or hm with hold | rfl
      · exact hputs₁.inside h hfound.size hold
      · exact mainposition_lt h k
    keyed := by
      intro m hm
      by_cases heq : m = mp
      · exact ⟨k, heq ▸ hputs₂.self⟩
      · by_cases heq' : m = n
        · rw [heq']
          exact ⟨k', (hputs₂.other n hmpn.symm).trans hputs₁.self⟩
        · rw [hputs₁.both_other hputs₂ heq heq']
          exact h.keyed m ((hval.2.2 m heq heq').symm ▸ hm)
    leads := by
      intro m j hm
      rcases hputs₁.both_known hputs₂ hm with ⟨rfl, rfl⟩ | ⟨rfl, rfl⟩ | ⟨hne, hne', hold⟩
      · exact .here _
      · have hleads := (h.leads mp j (.inl hkey)).replaceBy hfree hp hpmp h.apart
          (h.mainposition_ne hn (.inl hkey))
        rwa [hmoved _ hmain, moved, if_pos rfl] at hleads
      · have hleads := (h.leads m j hold).replaceBy hfree hp hpmp h.apart
          (h.mainposition_ne hn hold)
        rwa [hmoved _ (elsewhere h hkey hmain hne hold), hmoved m hne] at hleads
    once := fun m m' j hm hm' => hputs₁.both_once hputs₂ h hnew hkey hm hm'
    first := by
      intro m m' j hm hm'
      obtain ⟨hmp', -, hdead⟩ := hputs₁.both_dead hputs₂ hm'
      rcases hputs₁.both_live hputs₂ hm with ⟨rfl, rfl⟩ | ⟨rfl, rfl⟩ | ⟨hne, hne', hold⟩
      · exact absurd rfl (elsewhere h hkey hmain hmp' (.inr hdead))
      · have hleads := (h.first mp m' j hkey hdead).replaceBy hfree hp hpmp h.apart hmpn
        rwa [moved, if_pos rfl, hmoved m' hmp'] at hleads
      · have hleads := (h.first m m' j hold hdead).replaceBy hfree hp hpmp h.apart hne'
        rwa [hmoved m hne, hmoved m' hmp'] at hleads
    collides := by
      intro m j hm hne
      have hkeep : ∀ i m', t.Known m' i → t.mainposition H i ≠ mp → t.Collides H i →
          t'.Collides H i := fun i m' hi hnemp hcol =>
        hcol.congr rfl (hputs₁.both_other hputs₂ hnemp (h.mainposition_ne hn hi))
      rcases hputs₁.both_known hputs₂ hm with ⟨rfl, rfl⟩ | ⟨rfl, rfl⟩ | ⟨hmp', -, hold⟩
      · exact absurd rfl hne
      · exact hkeep j mp (.inl hkey) hmain (h.collides mp j (.inl hkey) hmain.symm)
      · exact hkeep j m hold (elsewhere h hkey hmain hmp' hold) (h.collides m j hold hne)
    lastfree := by
      intro _ m hm hge hnil
      obtain ⟨-, hne, hold⟩ := hputs₁.both_nil hputs₂ hnil
      exact hfound.above m hm (lt_of_le_of_ne hge hne.symm) hold
    empty := fun htrue => absurd (hdummy.symm.trans htrue) Bool.false_ne_true
    dummy := fun htrue => absurd (hdummy.symm.trans htrue) Bool.false_ne_true }

end Move

/-! ## A node is made -/

variable [DecidableEq K]

/-- A node was made for a new key. -/
structure Made (H : Hash K) (t : Table K V) (k : K) (n : Nat) (t' : Table K V) : Prop where
  inv : t'.Inv H
  key : t'.key n = .live k
  val : t'.val n = none
  has : ∀ j v, j ≠ k → (t'.Has j v ↔ t.Has j v)
  sizenode : t'.sizenode = t.sizenode
  dummy : t'.dummy = t.dummy
  used : t'.used ≤ t.used + 1

/-- At most one node more is in use. -/
theorem used_le {a : Nat} (hsize : t'.sizenode = t.sizenode)
    (hused : ∀ m, t'.key m ≠ .nil → t.key m ≠ .nil ∨ m = a) : t'.used ≤ t.used + 1 := by
  refine le_trans (Finset.card_le_card (t := insert a
    ((Finset.range t.sizenode).filter fun m => t.key m ≠ .nil)) fun m hm => ?_)
    (Finset.card_insert_le _ _)
  obtain ⟨hrange, hkey⟩ := Finset.mem_filter.1 hm
  rw [hsize] at hrange
  rcases hused m hkey with hold | rfl
  · exact Finset.mem_insert_of_mem (Finset.mem_filter.2 ⟨hrange, hold⟩)
  · exact Finset.mem_insert_self _ _

/-- The key goes to its main position. -/
theorem setKey_made (h : t.Inv H) (hnew : ∀ m, t.key m ≠ .live k)
    (hval : t.val (t.mainposition H k) = none) (hdummy : t.dummy = false) :
    Made H t k (t.mainposition H k) (t.setKey (t.mainposition H k) k) := by
  have hputs := setKey_puts t (t.mainposition H k) k
  exact ⟨setKey_inv h hnew hval hdummy, hputs.self, hval, fun j v hj => hputs.has rfl hval hj v,
    rfl, rfl, used_le rfl fun m hm => hputs.used_or hm⟩

/-- The key goes to the free place, behind the colliding node. -/
theorem linkNode_made (h : t.Inv H) (hnew : ∀ m, t.key m ≠ .live k) (hfound : t.Found n)
    (hdummy : t.dummy = false) {k' : K} (hkey : t.key (t.mainposition H k) = .live k')
    (hmain : t.mainposition H k' = t.mainposition H k) :
    Made H t k n (((t.setLastfree n).linkNode (t.mainposition H k) n).setKey n k) := by
  have hputs := linkNode_puts t (t.mainposition H k) n k
  have hval : t.val n = none := h.val_none fun j hj => by
    rw [hfound.key] at hj
    cases hj
  exact ⟨linkNode_inv h hnew hfound hdummy hkey hmain, hputs.self, hval,
    fun j v hj => hputs.has rfl hval hj v, rfl, rfl, used_le rfl fun m hm => hputs.used_or hm⟩

/-- The colliding node moves to the free place, and the key goes where it was. -/
theorem moveNode_made (h : t.Inv H) (hnew : ∀ m, t.key m ≠ .live k) (hfound : t.Found n)
    (hdummy : t.dummy = false) {k' : K} (hkey : t.key (t.mainposition H k) = .live k')
    (hmain : t.mainposition H k' ≠ t.mainposition H k)
    (hp : t.next p = some (t.mainposition H k)) : Made H t k (t.mainposition H k)
      (((t.setLastfree n).moveNode p (t.mainposition H k) n).setKey (t.mainposition H k) k) := by
  have hinv := moveNode_inv h hnew hfound hdummy hkey hmain hp
  set mp := t.mainposition H k with hmp
  set t' := ((t.setLastfree n).moveNode p mp n).setKey mp k with ht'
  have hn := hfound.key
  have hmpn : mp ≠ n := fun heq => by rw [heq, hn] at hkey; cases hkey
  have hputs₁ : Puts t n k' ((t.setLastfree n).moveNode p mp n) := moveNode_puts p hkey
  have hputs₂ : Puts ((t.setLastfree n).moveNode p mp n) mp k t' := setKey_puts _ mp k
  obtain ⟨hvalmp, hvaln, hval⟩ := moveNode_val (t.setLastfree n) p hmpn
  refine ⟨hinv, hputs₂.self, hvalmp, fun j v hj => ?_, rfl, rfl,
    used_le (a := n) rfl fun m hm => ?_⟩
  · rw [hputs₂.has rfl hvalmp hj v]
    constructor
    · rintro ⟨m, hm, hv⟩
      rcases hputs₁.live hm with ⟨rfl, rfl⟩ | ⟨hne', hold⟩
      · exact ⟨mp, hkey, hvaln.symm.trans hv⟩
      · by_cases heq : m = mp
        · rw [heq, hvalmp] at hv
          cases hv
        · exact ⟨m, hold, (hval m heq hne').symm.trans hv⟩
    · rintro ⟨m, hm, hv⟩
      have hne' : m ≠ n := fun heq => by rw [heq, hn] at hm; cases hm
      by_cases heq : m = mp
      · rw [heq, hkey] at hm
        rw [heq] at hv
        exact ⟨n, hputs₁.self.trans hm, hvaln.trans hv⟩
      · exact ⟨m, (hputs₁.other m hne').trans hm, (hval m heq hne').trans hv⟩
  · rcases hputs₂.used_or hm with hold | rfl
    · exact hputs₁.used_or hold
    · exact .inl fun hnil => by rw [hkey] at hnil; cases hnil

end Table

end LuaFltk.Tables
