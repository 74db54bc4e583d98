import Petrachor.TrieDB.Merge

/-!
# Looking up and removing in the nodes of a trie

A lookup in the bytes of a trie finds what the trie has. A removal gives the bytes of the trie without the word, or
none; a branch with one child left becomes a pair, and a pair over another one is grafted into one.
-/

namespace Petrachor

open NibbleSlice RLPStream Tally

namespace GenericTrieDB

section

open Patricia (lead Free used only close)

variable {δ : Type} [NodeDB δ] {c : Crypto} {db : δ} {t u : Trie} {ch : Fin 16 → Trie} {s : NibbleSlice}
  {p q k : List (Fin 16)} {i j : Fin 16} {e : Bytes} {leaf : Bool} {f : Fin 16 → Bytes} {fuel : ℕ}

/-! ## Looking up -/

theorem atAux_empty : atAux db (fuel + 1) ⟨RLPNull⟩ s = .ok [] := by
  have hempty : (RLP.mk RLPNull).isEmpty = true := rfl
  rw [atAux, hempty]
  rfl

theorem atAux_leaf (hpair : Paired p (encodeBytes e)) (he : e.length < 2 ^ 62) (hs : s.Spells k) :
    atAux db (fuel + 1) ⟨pair p true (encodeBytes e)⟩ s = .ok (if k = p then e else []) := by
  obtain ⟨key, hkey, hk⟩ := hpair.keyOfItem true
  obtain ⟨x, hx⟩ := hpair.isItem true
  have hnull := hx.not_isNull []
  rw [List.append_nil] at hnull
  have hread := toBytes_encodeBytes (b := e) (by unfold maxPayload; omega) RLP.LaissezFaire
  rw [atAux, hpair.isEmpty, hnull, hpair.nodeSize, hkey, hpair.isLeaf, hpair.get_one]
  simp only [ok_bind, hread]
  by_cases hkp : k = p
  · have heq : s.eq key = true := (hs.eq_iff hk).2 hkp
    rw [heq, if_pos hkp]
    rfl
  · have heq : s.eq key = false := by
      rw [← Bool.not_eq_true, hs.eq_iff hk]
      exact hkp
    rw [heq, if_neg hkp]
    simp
    rfl

theorem atAux_ext (hpair : Paired p e) (hs : s.Spells k) :
    atAux db (fuel + 1) ⟨pair p false e⟩ s =
      if p <+: k then (do
        let r ← child db ⟨e⟩
        atAux db fuel r (s.mid p.length))
      else .ok [] := by
  obtain ⟨key, hkey, hk⟩ := hpair.keyOfItem false
  obtain ⟨x, hx⟩ := hpair.isItem false
  have hnull := hx.not_isNull []
  rw [List.append_nil] at hnull
  rw [atAux, hpair.isEmpty, hnull, hpair.nodeSize, hkey, hpair.isLeaf, hpair.get_one]
  simp only [ok_bind, hk.size_eq]
  by_cases hp : p <+: k
  · rw [(hs.contains_iff hk).2 hp, if_pos hp]
    simp
  · have hcontains : s.contains key = false := by
      rw [← Bool.not_eq_true, hs.contains_iff hk]
      exact hp
    rw [hcontains, if_neg hp]
    simp
    rfl

theorem atAux_full_nil (hf : Branched f) (hs : s.Spells []) : atAux db (fuel + 1) ⟨full f⟩ s = .ok [] := by
  obtain ⟨x, hx⟩ := hf.isItem
  have hnull := hx.not_isNull []
  rw [List.append_nil] at hnull
  have hread : (RLP.mk RLPNull).toBytes RLP.LaissezFaire = .ok [] := toBytes_encodeBytes (by decide) _
  rw [atAux, hf.isEmpty, hnull, hf.nodeSize]
  simp only [ok_bind, hs.size_eq, hf.get_sixteen, hread]
  simp

theorem atAux_full (hf : Branched f) (hs : s.Spells (i :: k)) :
    atAux db (fuel + 1) ⟨full f⟩ s =
      if (RLP.mk (f i)).isEmpty then .ok []
      else (do
        let r ← child db ⟨f i⟩
        atAux db fuel r (s.mid 1)) := by
  have hget : s.get 0 = i.val := hs.get_eq (i := 0) (by simp)
  obtain ⟨x, hx⟩ := hf.isItem
  have hnull := hx.not_isNull []
  rw [List.append_nil] at hnull
  rw [atAux, hf.isEmpty, hnull, hf.nodeSize]
  simp only [ok_bind, hs.size_eq, hget, hf.get]
  simp
  rfl

/-- A lookup finds what the trie has. -/
theorem atAux_eq (ht : t.Canonical) (hfits : Fits t) (hs : s.Spells k) (hdb : Holds c db (own c t))
    (hfuel : k.length + 1 ≤ fuel) : atAux db fuel ⟨encode c t⟩ s = .ok ((t.find k).getD []) := by
  induction t generalizing s k fuel with
  | empty =>
    obtain ⟨fuel, rfl⟩ := Nat.exists_eq_add_of_le' (show 1 ≤ fuel by omega)
    exact atAux_empty
  | leaf p v =>
    obtain ⟨fuel, rfl⟩ := Nat.exists_eq_add_of_le' (show 1 ≤ fuel by omega)
    rw [encode, atAux_leaf (paired_leaf hfits) (hfits p v (if_pos rfl)).2 hs, Patricia.find]
    by_cases hp : k = p
    · rw [if_pos hp, if_pos hp]
      rfl
    · rw [if_neg hp, if_neg hp]
      rfl
  | ext p t ih =>
    obtain ⟨fuel, rfl⟩ := Nat.exists_eq_add_of_le' (show 1 ≤ fuel by omega)
    rw [encode, atAux_ext (paired_ext c ht hfits) hs, Patricia.find]
    by_cases hp : p <+: k
    · have hle := hp.length_le
      have hpos := List.length_pos_iff.2 ht.1
      have hown : Holds c db (own c t) := hdb.mono (Multiset.le_add_left _ _)
      rw [if_pos hp, if_pos hp, child_refer ht.2.2 hfits.ext (Patricia.isEmpty_of_isBranch ht.2.1) hown, ok_bind,
        ih ht.2.2 hfits.ext (hs.mid hle) hown (by rw [List.length_drop]; omega)]
    · rw [if_neg hp, if_neg hp]
      rfl
  | branch ch ih =>
    obtain ⟨fuel, rfl⟩ := Nat.exists_eq_add_of_le' (show 1 ≤ fuel by omega)
    have hbranch : Branched fun i => refer c (encode c (ch i)) := branched c ht hfits
    cases k with
    | nil => exact atAux_full_nil hbranch hs
    | cons i k =>
      have hown : Holds c db (own c (ch i)) := hdb.mono ((own_le_kids c ch i).trans (Multiset.le_add_left _ _))
      have hmid : (s.mid 1).Spells k := hs.mid (by simp)
      rw [List.length_cons] at hfuel
      rw [encode, atAux_full hbranch hs, isEmpty_refer (ht.2 i) (hfits.child i)]
      cases hne : (ch i).isEmpty with
      | true =>
        have hempty : ch i = .empty := by
          cases hch : ch i with
          | empty => rfl
          | _ => rw [hch] at hne; cases hne
        rw [Patricia.find, hempty]
        rfl
      | false =>
        rw [if_neg Bool.false_ne_true, child_refer (ht.2 i) (hfits.child i) hne hown, ok_bind,
          ih i (ht.2 i) (hfits.child i) hmid hown (by omega)]
        rfl

end

/-! ## The tally of a removal -/

section

open Patricia (lead used only close)

variable (c : Crypto)

/-- A pair that another one is grafted on is killed. -/
def graftLog (t : Trie) : List (Act Bytes) := if t.isBranch then [] else kills c t

/-- The acts of a removal. -/
def removeLog : Trie → List (Fin 16) → List (Act Bytes)
  | .empty, _ => []
  | .leaf p v, k => if k = p then kills c (.leaf p v) else []
  | .ext p t, k =>
    if p <+: k then (t.remove (k.drop p.length)).elim [] fun u =>
      removeLog t (k.drop p.length) ++ saves c u ++ kills c (.ext p t) ++ graftLog c u
    else []
  | .branch _, [] => []
  | .branch ch, i :: k => ((ch i).remove k).elim [] fun u =>
      removeLog (ch i) k ++ saves c u ++ kills c (.branch ch) ++
        (only fun j => if j = i then u else ch j).elim [] fun j => graftLog c (if j = i then u else ch j)

variable {c} {t u : Trie} {ch : Fin 16 → Trie} {p k : List (Fin 16)} {i j : Fin 16}

theorem turns_graft (hp : p ≠ []) (u : Trie) : Turns (graftLog c u) (own c u) (kids c (lead p u)) := by
  unfold graftLog
  cases u with
  | branch ch =>
    rw [Patricia.lead_of_isBranch rfl hp]
    exact .nil _
  | empty => exact turns_kills c .empty 0
  | leaf q v => exact turns_kills c (.leaf q v) 0
  | ext q t => exact turns_kills c (.ext q t) (own c t)

theorem kids_of_used (h : used ch = [j]) : kids c (.branch ch) = own c (ch j) := by
  have hothers : others c ch j = 0 := by
    refine Finset.sum_eq_zero fun x hx => ?_
    have hempty : (ch x).isEmpty = true := by
      rw [← Bool.not_eq_false, ← Patricia.mem_used, h, List.mem_singleton]
      exact Finset.ne_of_mem_erase hx
    cases hch : ch x with
    | empty => rfl
    | _ => rw [hch] at hempty; cases hempty
  rw [kids_branch c ch j, hothers, add_zero]

theorem removeLog_of_none (c : Crypto) (h : t.remove k = none) : removeLog c t k = [] := by
  cases t with
  | empty => rfl
  | leaf p v =>
    rw [Patricia.remove] at h
    by_cases hp : k = p
    · rw [if_pos hp] at h
      cases h
    · exact if_neg hp
  | ext p t =>
    rw [Patricia.remove] at h
    by_cases hp : p <+: k
    · rw [if_pos hp, Option.map_eq_none_iff] at h
      rw [removeLog, if_pos hp, h, Option.elim_none]
    · exact if_neg hp
  | branch ch =>
    cases k with
    | nil => rfl
    | cons i k =>
      rw [Patricia.remove, Option.map_eq_none_iff] at h
      rw [removeLog, h, Option.elim_none]

/-- A removal enters what the new trie refers to and strikes what the old one did. -/
theorem turns_removeLog (ht : t.Canonical) (h : t.remove k = some u) :
    Turns (removeLog c t k) (own c t) (kids c u) := by
  induction t generalizing k u with
  | empty => cases h
  | leaf p v =>
    rw [Patricia.remove] at h
    by_cases hp : k = p
    · rw [if_pos hp, Option.some.injEq] at h
      subst h
      rw [removeLog, if_pos hp]
      exact turns_kills c _ _
    · rw [if_neg hp] at h
      cases h
  | ext p t ih =>
    rw [Patricia.remove] at h
    by_cases hp : p <+: k
    · rw [if_pos hp] at h
      obtain ⟨s, hs, rfl⟩ := Option.map_eq_some_iff.1 h
      have hchild := (((ih ht.2.2 hs).append (turns_saves c s _)).frame (stored c (.ext p t)))
      rw [add_comm, add_comm _ (stored c (.ext p t))] at hchild
      rw [removeLog, if_pos hp, hs, Option.elim_some]
      exact (hchild.append (turns_kills c (.ext p t) _)).append (turns_graft ht.1 s)
    · rw [if_neg hp] at h
      cases h
  | branch ch ih =>
    cases k with
    | nil => cases h
    | cons i k =>
      rw [Patricia.remove] at h
      obtain ⟨s, hs, rfl⟩ := Option.map_eq_some_iff.1 h
      have hchild := ((ih i (ht.2 i) hs).append (turns_saves c s _)).frame (others c ch i + stored c (.branch ch))
      rw [← add_assoc, ← add_assoc, ← kids_branch, add_comm, add_comm _ (stored c (.branch ch))] at hchild
      have hset := (hchild.append (turns_kills c (.branch ch) _))
      rw [show stored c s + kids c s + others c ch i = kids c (.branch fun j => if j = i then s else ch j) from
        (kids_branch_set c ch i s).symm] at hset
      rw [removeLog, hs, Option.elim_some]
      unfold close
      cases honly : only fun j => if j = i then s else ch j with
      | none =>
        rw [Option.elim_none, List.append_nil]
        exact hset
      | some j =>
        rw [kids_of_used (Patricia.only_eq_some_iff.1 honly)] at hset
        exact hset.append (turns_graft (List.cons_ne_nil j []) _)

end

/-! ## The only child of a branch -/

/-- The only entry. -/
def sole : List ℕ → ℕ
  | [i] => i
  | _ => 255

section

open Patricia (lead Free used only close)

variable {c : Crypto} {ch : Fin 16 → Trie} {f : Fin 16 → Bytes} {orig : RLP} {except : ℕ} {item : ℕ → Bytes}

theorem uniqueInUse_go : ∀ {l : List ℕ} (used : ℕ), (∀ i ∈ l, orig.get i = .ok ⟨item i⟩) → 255 ∉ l → except ∉ l →
    uniqueInUse.go orig except l used =
      .ok (if used = 255 then sole (l.filter fun i => !(RLP.mk (item i)).isEmpty)
        else if (l.filter fun i => !(RLP.mk (item i)).isEmpty) = [] then used else 255)
  | [], used, _, _, _ => by
    rw [uniqueInUse.go]
    by_cases h : used = 255
    · rw [if_pos h, h]
      rfl
    · rw [if_neg h]
      rfl
  | i :: l, used, hget, h255, hexcept => by
    have ih := fun used => uniqueInUse_go (l := l) used (fun j hj => hget j (List.mem_cons_of_mem _ hj))
      (fun h => h255 (List.mem_cons_of_mem _ h)) fun h => hexcept (List.mem_cons_of_mem _ h)
    have hi : i ≠ except := fun h => hexcept (h ▸ List.mem_cons_self)
    have hi255 : i ≠ 255 := fun h => h255 (h ▸ List.mem_cons_self)
    rw [uniqueInUse.go, if_pos hi, hget i List.mem_cons_self, ok_bind]
    cases hempty : (RLP.mk (item i)).isEmpty with
    | true =>
      rw [List.filter_cons_of_neg (by simpa using hempty)]
      exact ih used
    | false =>
      rw [List.filter_cons_of_pos (by simpa using hempty), ih]
      by_cases h : used = 255
      · rw [if_pos h, if_neg hi255]
        simp only [Bool.not_false, if_true, h]
        cases l.filter fun i => !(RLP.mk (item i)).isEmpty <;> rfl
      · rw [if_neg h]
        simp [h]
        rfl

theorem uniqueInUse_full (hf : Branched f) :
    uniqueInUse ⟨full f⟩ 255 =
      .ok (sole (((List.finRange 16).filter fun i => !(RLP.mk (f i)).isEmpty).map Fin.val)) := by
  have hget : ∀ i ∈ List.range 17, (RLP.mk (full f)).get i =
      .ok ⟨if h : i < 16 then f ⟨i, h⟩ else RLPNull⟩ := by
    intro i hi
    rw [List.mem_range] at hi
    by_cases h16 : i < 16
    · rw [dif_pos h16, hf.get ⟨i, h16⟩]
    · obtain rfl : i = 16 := by omega
      rw [dif_neg h16, hf.get_sixteen]
  have hnull : (RLP.mk RLPNull).isEmpty = true := rfl
  unfold uniqueInUse
  rw [uniqueInUse_go 255 hget (by simp) (by simp), if_pos rfl]
  congr 2
  rw [List.range_succ, List.filter_append, ← List.map_coe_finRange_eq_range, List.filter_map]
  simp [hnull, Function.comp_def]

/-- The branch is left with one child, or it stays. -/
theorem uniqueInUse_branch (hf : Branched fun i => refer c (encode c (ch i)))
    (hempty : ∀ i, (RLP.mk (refer c (encode c (ch i)))).isEmpty = (ch i).isEmpty) :
    uniqueInUse ⟨encode c (.branch ch)⟩ 255 = .ok ((only ch).elim 255 Fin.val) := by
  rw [encode, uniqueInUse_full hf]
  simp only [hempty]
  show Except.ok (sole ((used ch).map Fin.val)) = _
  unfold only
  rcases used ch with _ | ⟨i, _ | ⟨j, l⟩⟩ <;> rfl

end

/-! ## Grafting -/

section

open Patricia (lead Free used only close)

variable {δ : Type} [NodeDB δ] {c : Crypto} {db : δ} {t u : Trie} {ch : Fin 16 → Trie} {s : NibbleSlice}
  {p q k : List (Fin 16)} {i j : Fin 16} {e x : Bytes} {leaf : Bool} {f : Fin 16 → Bytes} {fuel : ℕ}

/-- The node can be read from its parent. -/
def Reachable (c : Crypto) (db : δ) (t : Trie) : Prop :=
  ¬(encode c t).length < 32 → node db (c.sha3 (encode c t)) = encode c t

theorem itemCount_encode (ht : t.Canonical) (hfits : Fits t) (hne : t.isEmpty = false) :
    (RLP.mk (encode c t)).itemCount = .ok (if t.isBranch then 17 else 2) := by
  cases t with
  | empty => cases hne
  | leaf p v => exact (paired_leaf hfits).itemCount true
  | ext p t => exact (paired_ext c ht hfits).itemCount false
  | branch ch => exact (branched c ht hfits).itemCount

theorem isTwoItemNode_refer (ht : t.Canonical) (hfits : Fits t) (hne : t.isEmpty = false) (hdb : Reachable c db t) :
    isTwoItemNode db ⟨refer c (encode c t)⟩ = .ok !t.isBranch := by
  have hitem := isItem_encode c ht hfits
  unfold isTwoItemNode
  by_cases hlen : (encode c t).length < 32
  · have href : refer c (encode c t) = encode c t := if_pos hlen
    have hdata : (RLP.mk (encode c t)).isData = false := by
      have hlist := isList_encode c ht hfits
      rw [hne] at hlist
      cases hdata : (RLP.mk (encode c t)).isData with
      | false => rfl
      | true =>
        rw [not_isList_of_isData hdata] at hlist
        cases hlist
    rw [href, hdata, isList_encode c ht hfits, itemCount_encode ht hfits hne, hne]
    cases t.isBranch <;> rfl
  · have href : refer c (encode c t) = encodeBytes (asBytes 32 (c.sha3 (encode c t))) := if_neg hlen
    have hdata : (RLP.mk (encodeBytes (asBytes 32 (c.sha3 (encode c t))))).isData = true :=
      isData_encodeBytes (by rw [asBytes, length_toBigEndian]; unfold maxPayload; omega)
    have hzero : (RLP.mk (encodeBytes (asBytes 32 (c.sha3 (encode c t))))).itemCount = .ok 0 := by
      unfold RLP.itemCount
      rw [not_isList_hash]
      rfl
    rw [href, hdata, toHash_refer, hzero, not_isList_hash]
    simp only [ok_bind, hdb hlen, rlp_item hitem, itemCount_encode ht hfits hne]
    cases t.isBranch <;> rfl

/-- A pair over another one. -/
theorem graft_eq (hstem : Stem c t leaf e) (ht : t.Canonical) (hpair : leaf = true ∨ q ≠ [])
    (hfits : Fits (lead (p ++ q) t)) (hdb : Reachable c db (lead q t)) :
    graft db ⟨pair p false (refer c (encode c (lead q t)))⟩ =
      .ok (encode c (lead (p ++ q) t), play c db (kills c (lead q t))) := by
  have hrest : Fits (lead q t) := hfits.of_append
  have hcanon : (lead q t).Canonical := Patricia.canonical_lead ht
  have hitem := isItem_encode c hcanon hrest
  have hboth : Paired (p ++ q) e := hstem.paired ht hfits
  have hpath := hboth.path
  rw [List.length_append] at hpath
  have htop : Paired p (refer c (encode c (lead q t))) := paired_refer (by omega) hitem
  have hbottom : Paired q e := hstem.paired ht hrest
  obtain ⟨key, hkey, hk⟩ := htop.keyOfItem false
  obtain ⟨key', hkey', hk'⟩ := hbottom.keyOfItem leaf
  have hne : (lead q t).isEmpty = false := (Patricia.isEmpty_lead q t).trans hstem.isEmpty_eq
  -- the other pair is in its parent or in the database
  have hread : (do
      if (RLP.mk (refer c (encode c (lead q t)))).isList then return (⟨refer c (encode c (lead q t))⟩, db)
      else
        let lh ← (RLP.mk (refer c (encode c (lead q t)))).toHash 32 RLP.Strict
        return (← rlp (node db lh), NodeDB.kill db lh) : Except Exception (RLP × δ)) =
      .ok (⟨encode c (lead q t)⟩, play c db (kills c (lead q t))) := by
    unfold kills
    by_cases hlen : (encode c (lead q t)).length < 32
    · have href : refer c (encode c (lead q t)) = encode c (lead q t) := if_pos hlen
      rw [href, isList_encode c hcanon hrest, hne, if_pos hlen]
      rfl
    · have href : refer c (encode c (lead q t)) = encodeBytes (asBytes 32 (c.sha3 (encode c (lead q t)))) := if_neg hlen
      rw [href, not_isList_hash, toHash_refer, if_neg hlen]
      simp only [ok_bind, hdb hlen, rlp_item hitem]
      rfl
  unfold graft
  rw [htop.isList, htop.itemCount, htop.get_one]
  simp only [ok_bind]
  rw [hread, hkey]
  simp only [ok_bind]
  rw [hstem.encode_lead hpair.symm, hbottom.itemCount, hkey', hbottom.isLeaf, hbottom.get_one]
  simp only [ok_bind, hexPrefixTwo hk hk' (show p.length + q.length < 2 ^ 32 by omega)]
  rw [hstem.encode_lead (by
    rcases hpair with h | h
    · exact .inr h
    · exact .inl (List.append_ne_nil_of_right_ne_nil p h))]
  rfl

theorem exists_stem (c : Crypto) (ht : t.Canonical) (hne : t.isEmpty = false) (hb : t.isBranch = false) :
    ∃ q u leaf e, t = lead q u ∧ Stem c u leaf e ∧ u.Canonical ∧ (leaf = true ∨ q ≠ []) := by
  cases t with
  | empty => cases hne
  | leaf q v => exact ⟨q, .leaf [] v, true, _, by rw [lead, List.append_nil], .leaf v, trivial, .inl rfl⟩
  | ext q u =>
    cases u with
    | branch ch =>
      exact ⟨q, .branch ch, false, _, (Patricia.lead_of_isBranch rfl ht.1).symm, .ext ch, ht.2.2, .inr ht.1⟩
    | _ => cases ht.2.1
  | branch ch => cases hb

theorem graft_refer (ht : t.Canonical) (hne : t.isEmpty = false) (hb : t.isBranch = false) (hfits : Fits (lead p t))
    (hdb : Reachable c db t) :
    graft db ⟨pair p false (refer c (encode c t))⟩ = .ok (encode c (lead p t), play c db (kills c t)) := by
  obtain ⟨q, u, leaf, e, rfl, hstem, hu, hpair⟩ := exists_stem c ht hne hb
  rw [Patricia.lead_lead] at hfits ⊢
  exact graft_eq hstem hu hpair hfits hdb

theorem merge_eq (hf : Branched f) (j : Fin 16) (hne : (RLP.mk (f j)).isEmpty = false) :
    merge ⟨full f⟩ j.val = .ok (pair [j] false (f j)) := by
  have hhpe : ∀ j : Fin 16, hexPrefixEncodeRef [UInt8.ofNat j.val] false 1 2 0 =
      some (Crypto.hexPrefixEncode (nats [j]) false) := by decide
  have hj : j.val ≠ 16 := j.isLt.ne
  unfold merge
  rw [hf.isList, hf.itemCount, hf.get j, hhpe j]
  simp only [ok_bind, hne, if_pos hj]
  rfl

/-- A branch with one child becomes a path to it. -/
theorem mergeUsed_eq (hf : Branched f) (hj : f j = refer c (encode c t)) (ht : t.Canonical) (hne : t.isEmpty = false)
    (hfits : Fits (lead [j] t)) (hdb : Reachable c db t) :
    mergeUsed db ⟨full f⟩ j.val = .ok (encode c (lead [j] t), play c db (graftLog c t)) := by
  have hempty : (RLP.mk (f j)).isEmpty = false := by rw [hj, isEmpty_refer ht hfits.of_lead, hne]
  have htop : Paired [j] (refer c (encode c t)) := paired_refer (by simp) (isItem_encode c ht hfits.of_lead)
  unfold mergeUsed graftLog
  rw [merge_eq hf j hempty, hf.get j, hj]
  simp only [ok_bind, isTwoItemNode_refer ht hfits.of_lead hne hdb, rlp_item (htop.isItem false)]
  cases hb : t.isBranch with
  | true =>
    rw [Patricia.lead_of_isBranch hb (List.cons_ne_nil j [])]
    rfl
  | false => exact graft_refer ht hne hb hfits hdb

/-! ## One step of a removal -/

theorem deleteAt_empty : deleteAt c (fuel + 1) db ⟨RLPNull⟩ s = .ok ([], db) := by
  have hempty : (RLP.mk RLPNull).isEmpty = true := rfl
  rw [deleteAt, if_pos hempty]
  rfl

theorem deleteAt_leaf {v : Bytes} (ht : Fits (.leaf p v)) (hs : s.Spells k) (hk : p <+: k → k = p) :
    deleteAt c (fuel + 1) db ⟨encode c (.leaf p v)⟩ s =
      .ok (if k = p then (RLPNull, play c db (kills c (.leaf p v))) else ([], db)) := by
  have hpair : Paired p (encodeBytes v) := paired_leaf ht
  have hkill := @killNode_encode δ _ c db (.leaf p v)
  obtain ⟨key, hkey, hkey'⟩ := hpair.keyOfItem true
  rw [← hkill, encode, deleteAt, hpair.isEmpty, hpair.nodeSize, hkey, hpair.isLeaf]
  simp only [ok_bind]
  by_cases hkp : k = p
  · have heq : key.eq s = true := (hkey'.eq_iff hs).2 hkp.symm
    rw [heq, if_pos hkp]
    rfl
  · have heq : key.eq s = false := by
      rw [← Bool.not_eq_true, hkey'.eq_iff hs]
      exact Ne.symm hkp
    have hcontains : s.contains key = false := by
      rw [← Bool.not_eq_true, hs.contains_iff hkey']
      exact fun h => hkp (hk h)
    rw [heq, hcontains, if_neg hkp]
    rfl

section

variable {db' : δ} {n : Bytes}

theorem deleteAt_ext_of_not_prefix (hpair : Paired p e) (hs : s.Spells k) (hp : ¬p <+: k) :
    deleteAt c (fuel + 1) db ⟨pair p false e⟩ s = .ok ([], db) := by
  obtain ⟨key, hkey, hkey'⟩ := hpair.keyOfItem false
  have hcontains : s.contains key = false := by
    rw [← Bool.not_eq_true, hs.contains_iff hkey']
    exact hp
  rw [deleteAt, hpair.isEmpty, hpair.nodeSize, hkey, hpair.isLeaf]
  simp only [ok_bind, hcontains]
  simp
  rfl

theorem deleteAt_ext_none (hpair : Paired p e) (hs : s.Spells (p ++ k))
    (haux : deleteAtAux c (fun db r => deleteAt c fuel db r (s.mid p.length)) db ⟨e⟩ = .ok (none, db')) :
    deleteAt c (fuel + 1) db ⟨pair p false e⟩ s = .ok ([], db') := by
  obtain ⟨key, hkey, hkey'⟩ := hpair.keyOfItem false
  rw [deleteAt, hpair.isEmpty, hpair.nodeSize, hkey, hpair.isLeaf, hpair.get_zero, hpair.get_one]
  simp only [ok_bind, (hs.contains_iff hkey').2 (List.prefix_append p k), hkey'.size_eq, haux]
  simp
  rfl

theorem deleteAt_ext_some (hpair : Paired p e) (hn : Paired p n) (hs : s.Spells (p ++ k))
    (haux : deleteAtAux c (fun db r => deleteAt c fuel db r (s.mid p.length)) db ⟨e⟩ = .ok (some n, db')) :
    deleteAt c (fuel + 1) db ⟨pair p false e⟩ s =
      (do
        let two ← isTwoItemNode (killNode db' ⟨pair p false e⟩ (c.sha3 (pair p false e))) ⟨n⟩
        if two then graft (killNode db' ⟨pair p false e⟩ (c.sha3 (pair p false e))) ⟨pair p false n⟩
        else return (pair p false n, killNode db' ⟨pair p false e⟩ (c.sha3 (pair p false e)))) := by
  obtain ⟨key, hkey, hkey'⟩ := hpair.keyOfItem false
  have hout := rlp_item (hn.isItem false)
  have hone := hn.get_one false
  unfold pair at hout hone
  rw [deleteAt, hpair.isEmpty, hpair.nodeSize, hkey, hpair.isLeaf, hpair.get_zero, hpair.get_one]
  simp only [ok_bind, (hs.contains_iff hkey').2 (List.prefix_append p k), hkey'.size_eq, haux, hout, hone]
  simp
  rfl

theorem deleteAt_full_none (hf : Branched f) (hs : s.Spells (i :: k))
    (haux : deleteAtAux c (fun db r => deleteAt c fuel db r (s.mid 1)) db ⟨f i⟩ = .ok (none, db')) :
    deleteAt c (fuel + 1) db ⟨full f⟩ s = .ok ([], db') := by
  have hget : s.get 0 = i.val := hs.get_eq (i := 0) (by simp)
  rw [deleteAt, hf.isEmpty, hf.nodeSize]
  simp only [ok_bind, hs.size_eq, hget, hf.items_eq, hf.get, hf.get_sixteen, haux]
  simp
  rfl

theorem deleteAt_full_some (hf : Branched f) (hn : Branched (Function.update f i n)) (hs : s.Spells (i :: k))
    (haux : deleteAtAux c (fun db r => deleteAt c fuel db r (s.mid 1)) db ⟨f i⟩ = .ok (some n, db')) :
    deleteAt c (fuel + 1) db ⟨full f⟩ s =
      (do
        let used ← uniqueInUse ⟨full (Function.update f i n)⟩ 255
        if used = 255 then return (full (Function.update f i n), killNode db' ⟨full f⟩ (c.sha3 (full f)))
        else mergeUsed (killNode db' ⟨full f⟩ (c.sha3 (full f))) ⟨full (Function.update f i n)⟩ used) := by
  have hget : s.get 0 = i.val := hs.get_eq (i := 0) (by simp)
  rw [deleteAt, hf.isEmpty, hf.nodeSize]
  simp only [ok_bind, hs.size_eq, hget, hf.items_eq, hf.get, hf.get_sixteen, haux, set_items, rlp_item hn.isItem]
  simp

end

end

/-! ## Whole removals -/

section

open Patricia (lead Free used only close)

variable {δ : Type} [NodeDB δ] {c : Crypto} {db db' : δ} {t u : Trie} {ch : Fin 16 → Trie} {s : NibbleSlice}
  {p k : List (Fin 16)} {i : Fin 16} {fuel : ℕ}

theorem deleteAtAux_empty (g : δ → RLP → Except Exception (Bytes × δ)) :
    deleteAtAux c g db ⟨refer c (encode c .empty)⟩ = .ok (none, db) := rfl

theorem remove_some (ht : t.Canonical) (hfits : Fits t) (h : t.remove k = some u) :
    u.Canonical ∧ Fits u ∧ (t.isBranch = true → u.isEmpty = false) := by
  have hspec := Patricia.remove_spec ht k
  rw [h] at hspec
  obtain ⟨hc, hne, -, hfind⟩ := hspec
  exact ⟨hc, hfits.remove hfind, hne⟩

/-- The new child of a node, if the word was found below it. -/
theorem deleteAtAux_eq {g : δ → RLP → Except Exception (Bytes × δ)} (ht : t.Canonical) (hfits : Fits t)
    (hne : t.isEmpty = false) (hdb : Holds c db (own c t))
    (hg : g db ⟨encode c t⟩ = .ok ((t.remove k).elim ([], db) fun u => (encode c u, play c db (removeLog c t k)))) :
    deleteAtAux c g db ⟨refer c (encode c t)⟩ = .ok ((t.remove k).elim (none, db) fun u =>
      (some (refer c (encode c u)), play c db (removeLog c t k ++ saves c u))) := by
  unfold deleteAtAux
  rw [isEmpty_refer ht hfits, hne, child_refer ht hfits hne hdb]
  simp only [ok_bind, hg]
  cases h : t.remove k with
  | none => rfl
  | some u =>
    obtain ⟨hc, hf, -⟩ := remove_some ht hfits h
    obtain ⟨q, hq⟩ := isItem_encode c hc hf
    have hlen : (encode c u).length ≠ 0 := fun h => hq.ne_nil (List.length_eq_zero_iff.1 h)
    simp only [Option.elim_some, Bool.false_eq_true, if_false, ok_bind, if_neg hlen, streamNode_encode, play_append]
    rfl

/-- Above a child that has changed, a pair is killed, and grafted on a pair. -/
theorem deleteAt_ext_removed (ht : (Patricia.ext p t).Canonical) (hfits : Fits (.ext p t)) (hs : s.Spells (p ++ k))
    (hr : t.remove k = some u) (hreach : Reachable c (play c db' (kills c (.ext p t))) u)
    (haux : deleteAtAux c (fun db r => deleteAt c fuel db r (s.mid p.length)) db ⟨refer c (encode c t)⟩ =
      .ok (some (refer c (encode c u)), db')) :
    deleteAt c (fuel + 1) db ⟨encode c (.ext p t)⟩ s =
      .ok (encode c (lead p u), play c db' (kills c (.ext p t) ++ graftLog c u)) := by
  obtain ⟨hc, hf, hu⟩ := remove_some ht.2.2 hfits.ext hr
  have hremove : (Patricia.ext p t).remove (p ++ k) = some (lead p u) := by
    rw [Patricia.remove, if_pos (List.prefix_append ..), List.drop_left, hr]
    rfl
  obtain ⟨-, hlead, -⟩ := remove_some ht hfits hremove
  have hpair : Paired p (refer c (encode c t)) := paired_ext c ht hfits
  have hnew : Paired p (refer c (encode c u)) := paired_refer hpair.path (isItem_encode c hc hf)
  have hkill := @killNode_encode δ _ c db' (.ext p t)
  rw [encode] at hkill ⊢
  rw [deleteAt_ext_some hpair hnew hs haux, hkill, isTwoItemNode_refer hc hf (hu ht.2.1) hreach, ok_bind, play_append]
  unfold graftLog
  cases hb : u.isBranch with
  | true =>
    rw [Patricia.lead_of_isBranch hb ht.1]
    rfl
  | false => exact graft_refer hc (hu ht.2.1) hb hlead hreach

/-- Above a child that has changed, a branch is killed, and a branch with one child becomes a path to it. -/
theorem deleteAt_branch_removed (ht : (Patricia.branch ch).Canonical) (hfits : Fits (.branch ch))
    (hs : s.Spells (i :: k)) (hr : (ch i).remove k = some u)
    (hreach : ∀ j, Reachable c (play c db' (kills c (.branch ch))) (if j = i then u else ch j))
    (haux : deleteAtAux c (fun db r => deleteAt c fuel db r (s.mid 1)) db ⟨refer c (encode c (ch i))⟩ =
      .ok (some (refer c (encode c u)), db')) :
    deleteAt c (fuel + 1) db ⟨encode c (.branch ch)⟩ s =
      .ok (encode c (close fun j => if j = i then u else ch j), play c db' (kills c (.branch ch) ++
        (only fun j => if j = i then u else ch j).elim [] fun j => graftLog c (if j = i then u else ch j))) := by
  obtain ⟨hc, hf, -⟩ := remove_some (ht.2 i) (hfits.child i) hr
  have hremove : (Patricia.branch ch).remove (i :: k) = some (close fun j => if j = i then u else ch j) := by
    rw [Patricia.remove, hr]
    rfl
  obtain ⟨-, hclose, -⟩ := remove_some ht hfits hremove
  have hall : ∀ j, (if j = i then u else ch j).Canonical ∧ Fits (if j = i then u else ch j) := by
    intro j
    by_cases hj : j = i
    · rw [if_pos hj]
      exact ⟨hc, hf⟩
    · rw [if_neg hj]
      exact ⟨ht.2 j, hfits.child j⟩
  have hbranch : Branched fun i => refer c (encode c (ch i)) := branched c ht hfits
  have hnew : Branched fun j => refer c (encode c (if j = i then u else ch j)) :=
    fun j => ⟨isItem_refer (isItem_encode c (hall j).1 (hall j).2), length_refer c _⟩
  have hset : Function.update (fun i => refer c (encode c (ch i))) i (refer c (encode c u)) =
      fun j => refer c (encode c (if j = i then u else ch j)) := by
    funext j
    rw [Function.update_apply]
    by_cases hj : j = i
    · rw [if_pos hj, if_pos hj]
    · rw [if_neg hj, if_neg hj]
  have hused := @uniqueInUse_branch c (fun j => if j = i then u else ch j) hnew
    fun j => isEmpty_refer (hall j).1 (hall j).2
  have hkill := @killNode_encode δ _ c db' (.branch ch)
  rw [encode] at hkill hused ⊢
  rw [deleteAt_full_some hbranch (by rw [hset]; exact hnew) hs haux, hset, hused, hkill, ok_bind]
  unfold close at hclose ⊢
  cases honly : only fun j => if j = i then u else ch j with
  | none =>
    rw [Option.elim_none, Option.elim_none, List.append_nil]
    rfl
  | some j =>
    rw [honly] at hclose
    have hne : (if j = i then u else ch j).isEmpty = false := by
      rw [← Patricia.mem_used (c := fun j => if j = i then u else ch j), Patricia.only_eq_some_iff.1 honly]
      exact List.mem_singleton_self j
    have hj : j.val ≠ 255 := by omega
    rw [Option.elim_some, Option.elim_some, if_neg hj, play_append]
    exact mergeUsed_eq hnew rfl (hall j).1 hne hclose (hreach j)

variable [LawfulNodeDB δ] {N : Set Bytes} {F : Multiset Bytes} {m : List (Act Bytes)}

theorem Ready.reachable (h : Ready c N db (own c t + F) m) : Reachable c db t := fun hlen => h.node_own hlen

/-- The new child of a node is read again after the node was killed. -/
theorem Ready.replaced {l : List (Act Bytes)} {A B : Multiset Bytes}
    (h : Ready c N db (A + (stored c t + F)) (l ++ (GenericTrieDB.kills c t ++ m))) (hl : Turns l A B) :
    Ready c N (play c (play c db l) (GenericTrieDB.kills c t)) (B + F) m := by
  have hafter := h.turns (hl.frame _)
  rw [← add_assoc, add_comm B, add_assoc] at hafter
  exact hafter.turns (turns_kills c t _)

/-- A removal gives the bytes of the trie without the word, and does the acts that are known for it. -/
theorem deleteAt_eq (ht : t.Canonical) (hfits : Fits t) (hk : Free t k) (hs : s.Spells k)
    (hdb : Ready c N db (own c t + F) (removeLog c t k ++ m)) (hfuel : k.length + 1 ≤ fuel) :
    deleteAt c fuel db ⟨encode c t⟩ s =
      .ok ((t.remove k).elim ([], db) fun u => (encode c u, play c db (removeLog c t k))) := by
  induction t generalizing db s k F m fuel with
  | empty =>
    obtain ⟨fuel, rfl⟩ := Nat.exists_eq_add_of_le' (show 1 ≤ fuel by omega)
    exact deleteAt_empty
  | leaf p v =>
    obtain ⟨fuel, rfl⟩ := Nat.exists_eq_add_of_le' (show 1 ≤ fuel by omega)
    rw [deleteAt_leaf hfits hs fun h => (hk p v (if_pos rfl) (.inr h)).symm, Patricia.remove, removeLog]
    by_cases hp : k = p
    · rw [if_pos hp, if_pos hp, if_pos hp]
      rfl
    · rw [if_neg hp, if_neg hp]
      rfl
  | ext p t ih =>
    obtain ⟨fuel, rfl⟩ := Nat.exists_eq_add_of_le' (show 1 ≤ fuel by omega)
    have hpair : Paired p (refer c (encode c t)) := paired_ext c ht hfits
    rw [removeLog] at hdb
    rw [Patricia.remove, removeLog, encode]
    by_cases hp : p <+: k
    · obtain ⟨k, rfl⟩ := hp
      have hpos := List.length_pos_iff.2 ht.1
      have hne := Patricia.isEmpty_of_isBranch ht.2.1
      have hlead : lead p t = Patricia.ext p t := Patricia.lead_of_isBranch ht.2.1 ht.1
      have hmid : (s.mid p.length).Spells k := by
        have hdrop := hs.mid (n := p.length) (by simp)
        rwa [List.drop_left] at hdrop
      have hchild : Free t k := by
        rw [← hlead] at hk
        exact hk.of_append
      rw [List.length_append] at hfuel
      rw [own, kids_ext, add_comm (stored c _), add_assoc, if_pos (List.prefix_append ..), List.drop_left] at hdb
      rw [if_pos (List.prefix_append ..), if_pos (List.prefix_append ..), List.drop_left]
      have hown : Holds c db (own c t) := hdb.holds.mono (Multiset.le_add_right _ _)
      have haux : ∀ m', Ready c N db (own c t + (stored c (.ext p t) + F)) (removeLog c t k ++ m') →
          deleteAtAux c (fun db r => deleteAt c fuel db r (s.mid p.length)) db ⟨refer c (encode c t)⟩ =
            .ok ((t.remove k).elim (none, db) fun u =>
              (some (refer c (encode c u)), play c db (removeLog c t k ++ saves c u))) :=
        fun _ h => deleteAtAux_eq ht.2.2 hfits.ext hne hown (ih ht.2.2 hfits.ext hchild hmid h (by omega))
      cases hr : t.remove k with
      | none =>
        rw [hr] at hdb haux
        rw [removeLog_of_none c hr] at haux
        exact deleteAt_ext_none hpair hs (haux m hdb)
      | some u =>
        rw [hr, Option.elim_some] at hdb
        rw [hr] at haux
        have hlog : Ready c N db (own c t + (stored c (.ext p t) + F))
            (removeLog c t k ++ saves c u ++ (kills c (.ext p t) ++ (graftLog c u ++ m))) := by
          simpa only [List.append_assoc] using hdb
        have hturns := (turns_removeLog (c := c) ht.2.2 hr).append (turns_saves c u _)
        have hdelete := deleteAt_ext_removed ht hfits hs hr (hlog.replaced hturns).reachable
          (haux _ (by simpa only [List.append_assoc] using hdb))
        rw [← play_append, ← List.append_assoc] at hdelete
        exact hdelete
    · rw [if_neg hp]
      exact deleteAt_ext_of_not_prefix hpair hs hp
  | branch ch ih =>
    cases k with
    | nil => exact absurd hk (Patricia.not_free_nil ht)
    | cons i k =>
      obtain ⟨fuel, rfl⟩ := Nat.exists_eq_add_of_le' (show 1 ≤ fuel by omega)
      have hbranch : Branched fun i => refer c (encode c (ch i)) := branched c ht hfits
      have hmid : (s.mid 1).Spells k := hs.mid (by simp)
      rw [List.length_cons] at hfuel
      rw [removeLog, own, kids_branch c ch i, add_comm (stored c _), add_assoc] at hdb
      rw [Patricia.remove, removeLog, encode]
      have hdb' : ∀ l, Ready c N db (own c (ch i) + others c ch i + (stored c (.branch ch) + F)) l →
          Ready c N db (own c (ch i) + (others c ch i + (stored c (.branch ch) + F))) l := by
        intro l h
        rwa [add_assoc] at h
      have hown : Holds c db (own c (ch i)) := (hdb' _ hdb).holds.mono (Multiset.le_add_right _ _)
      have haux : ∀ m', (ch i).isEmpty = false →
          Ready c N db (own c (ch i) + others c ch i + (stored c (.branch ch) + F)) (removeLog c (ch i) k ++ m') →
          deleteAtAux c (fun db r => deleteAt c fuel db r (s.mid 1)) db ⟨refer c (encode c (ch i))⟩ =
            .ok (((ch i).remove k).elim (none, db) fun u =>
              (some (refer c (encode c u)), play c db (removeLog c (ch i) k ++ saves c u))) :=
        fun _ hne h => deleteAtAux_eq (ht.2 i) (hfits.child i) hne hown
          (ih i (ht.2 i) (hfits.child i) hk.child hmid (hdb' _ h) (by omega))
      cases hr : (ch i).remove k with
      | none =>
        rw [hr] at hdb haux
        rw [removeLog_of_none c hr] at haux
        refine deleteAt_full_none hbranch hs ?_
        cases hne : (ch i).isEmpty with
        | true =>
          have hempty : ch i = .empty := by
            cases hch : ch i with
            | empty => rfl
            | _ => rw [hch] at hne; cases hne
          rw [hempty]
          exact deleteAtAux_empty _
        | false => exact haux m hne hdb
      | some u =>
        rw [hr, Option.elim_some] at hdb
        rw [hr] at haux
        have hlog : Ready c N db (own c (ch i) + others c ch i + (stored c (.branch ch) + F))
            (removeLog c (ch i) k ++ saves c u ++ (kills c (.branch ch) ++
              (((only fun j => if j = i then u else ch j).elim [] fun j => graftLog c (if j = i then u else ch j)) ++
                m))) := by
          simpa only [List.append_assoc] using hdb
        have hne : (ch i).isEmpty = false := by
          cases hch : ch i with
          | empty => rw [hch] at hr; cases hr
          | _ => rfl
        have hturns := ((turns_removeLog (c := c) (ht.2 i) hr).append (turns_saves c u _)).frame (others c ch i)
        have hafter := hlog.replaced hturns
        rw [show stored c u + kids c u + others c ch i = kids c (.branch fun j => if j = i then u else ch j) from
          (kids_branch_set c ch i u).symm] at hafter
        have hreach : ∀ j, Reachable c (play c (play c db (removeLog c (ch i) k ++ saves c u)) (kills c (.branch ch)))
            (if j = i then u else ch j) := by
          intro j
          rw [kids_branch c _ j, add_assoc] at hafter
          exact hafter.reachable
        have hdelete := deleteAt_branch_removed ht hfits hs hr hreach
          (haux _ hne (by simpa only [List.append_assoc] using hdb))
        rw [← play_append, ← List.append_assoc] at hdelete
        exact hdelete

end

end GenericTrieDB

end Petrachor
