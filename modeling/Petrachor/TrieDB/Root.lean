import Petrachor.TrieDB.Run

/-!
# The root of a map

The root that a trie database arrives at is the one that `hash256` computes from the entries at once, whatever the order
in which they came and went.
-/

namespace Petrachor

open NibbleSlice RLPStream Tally

/-! ## The order of keys -/

section

variable {k l m : List ℕ} {v w : List (Fin 16)}

theorem keyLe_total : ∀ k l : List ℕ, (Crypto.keyLe k l || Crypto.keyLe l k) = true
  | [], _ => by rw [Crypto.keyLe, Bool.true_or]
  | _ :: _, [] => by rw [Crypto.keyLe, Crypto.keyLe, Bool.or_true]
  | a :: k, b :: l => by
    rw [Crypto.keyLe, Crypto.keyLe]
    by_cases h : a = b
    · rw [if_pos h, if_pos h.symm]
      exact keyLe_total k l
    · rw [if_neg h, if_neg (Ne.symm h), Bool.or_eq_true, decide_eq_true_iff, decide_eq_true_iff]
      omega

theorem keyLe_antisymm : ∀ {k l : List ℕ}, Crypto.keyLe k l = true → Crypto.keyLe l k = true → k = l
  | [], [], _, _ => rfl
  | [], _ :: _, _, h => by cases h
  | _ :: _, [], h, _ => by cases h
  | a :: k, b :: l, h, h' => by
    rw [Crypto.keyLe] at h h'
    by_cases hab : a = b
    · rw [if_pos hab] at h
      rw [if_pos hab.symm] at h'
      rw [hab, keyLe_antisymm h h']
    · rw [if_neg hab, decide_eq_true_iff] at h
      rw [if_neg (Ne.symm hab), decide_eq_true_iff] at h'
      omega

theorem keyLe_trans : ∀ {k l m : List ℕ}, Crypto.keyLe k l = true → Crypto.keyLe l m = true → Crypto.keyLe k m = true
  | [], _, _, _, _ => by rw [Crypto.keyLe]
  | _ :: _, [], _, h, _ => by cases h
  | _ :: _, _ :: _, [], _, h => by cases h
  | a :: k, b :: l, d :: m, h, h' => by
    rw [Crypto.keyLe] at h h' ⊢
    by_cases hab : a = b
    · subst hab
      rw [if_pos rfl] at h
      by_cases had : a = d
      · rw [if_pos had] at h' ⊢
        exact keyLe_trans h h'
      · rw [if_neg had] at h' ⊢
        exact h'
    · rw [if_neg hab, decide_eq_true_iff] at h
      by_cases hbd : b = d
      · rw [← hbd, if_neg hab]
        exact decide_eq_true h
      · rw [if_neg hbd, decide_eq_true_iff] at h'
        rw [if_neg (show a ≠ d by omega)]
        exact decide_eq_true (h.trans h')

theorem keyLe_of_lt : ∀ {v w : List (Fin 16)}, v < w → Crypto.keyLe (nats v) (nats w) = true
  | [], _, _ => by
    show Crypto.keyLe [] _ = true
    rw [Crypto.keyLe]
  | _ :: _, [], h => by
    exact absurd h (List.not_lt_nil _)
  | a :: v, b :: w, h => by
    show (if a.val = b.val then Crypto.keyLe (nats v) (nats w) else decide (a.val < b.val)) = true
    rcases List.cons_lt_cons_iff.1 h with hab | ⟨rfl, hvw⟩
    · rw [if_neg (by omega)]
      exact decide_eq_true hab
    · rw [if_pos rfl]
      exact keyLe_of_lt hvw

theorem sharedPrefix_eq : ∀ k l : List ℕ, Crypto.sharedPrefix k l = Patricia.shared k l
  | [], _ => by rw [Patricia.shared_nil_left]; rfl
  | _ :: _, [] => rfl
  | a :: k, b :: l => by
    rw [Crypto.sharedPrefix, sharedPrefix_eq k l]
    rfl

end

namespace GenericTrieDB

/-! ## Nodes of a sorted map -/

section

open Patricia (lead entries)

variable {c : Crypto} {t : Trie} {w p : List (Fin 16)}

/-- The entries of a trie, behind a common beginning. -/
def hexMap (w : List (Fin 16)) (t : Trie) : Crypto.HexMap := t.entries.map fun e => (nats (w ++ e.1), e.2)

theorem foldl_min_eq {m n : ℕ} {f : List ℕ × Bytes → ℕ} : ∀ {l : Crypto.HexMap}, n ≤ m → (∀ e ∈ l, n ≤ f e) →
    (m = n ∨ ∃ e ∈ l, f e = n) → l.foldl (fun m e => min m (f e)) m = n
  | [], hm, _, h => by
    rcases h with h | ⟨e, he, -⟩
    · exact h
    · cases he
  | e :: l, hm, hl, h => by
    have he := hl e List.mem_cons_self
    rw [List.foldl_cons]
    refine foldl_min_eq (le_min hm he) (fun x hx => hl x (List.mem_cons_of_mem _ hx)) ?_
    rcases h with h | ⟨x, hx, hxn⟩
    · exact .inl (by omega)
    · rcases List.mem_cons.1 hx with rfl | hx
      · exact .inl (by omega)
      · exact .inr ⟨x, hx, hxn⟩

theorem nats_append (v w : List (Fin 16)) : nats (v ++ w) = nats v ++ nats w := List.map_append

theorem hexMap_ext (w p : List (Fin 16)) (t : Trie) : hexMap w (.ext p t) = hexMap (w ++ p) t := by
  unfold hexMap
  rw [entries, List.map_map]
  simp only [Function.comp_def, List.append_assoc]

/-- The entries of a branch share what is before it, and no more. -/
theorem hexMap_branch (w : List (Fin 16)) (hb : t.isBranch = true) (ht : t.Canonical) :
    ∃ k v e rest, hexMap w t = (k, v) :: e :: rest ∧ w.length < k.length ∧ nats w <+: k ∧
      (e :: rest).foldl (fun m e => min m (Crypto.sharedPrefix k e.1)) k.length = w.length := by
  cases t with
  | branch ch =>
    have hword : ∀ x v, (x, v) ∈ (Patricia.branch ch).entries → ∃ i l, x = i :: l := by
      intro x v hx
      rw [Patricia.mem_entries] at hx
      cases x with
      | nil => cases hx
      | cons i l => exact ⟨i, l, rfl⟩
    obtain ⟨⟨k, v⟩, rest, hlist⟩ : ∃ a rest, (Patricia.branch ch).entries = a :: rest := by
      refine List.exists_cons_of_ne_nil fun hnil => ?_
      rw [Patricia.entries_eq_nil_iff ht] at hnil
      cases hnil
    obtain ⟨i, l, rfl⟩ := hword k v (hlist ▸ List.mem_cons_self)
    obtain ⟨j, x, y, hji, hfind⟩ := ht.exists_ne i
    have hmem : (j :: x, y) ∈ rest := by
      have hall := Patricia.mem_entries.2 hfind
      rw [hlist] at hall
      refine (List.mem_cons.1 hall).resolve_left fun h => hji ?_
      exact (List.cons.inj (Prod.mk.inj h).1).1
    obtain ⟨e, rest, rfl⟩ := List.exists_cons_of_ne_nil (List.ne_nil_of_mem hmem)
    have hparts : Crypto.sharedPrefix (nats (w ++ i :: l)) (nats (w ++ j :: x)) = w.length := by
      rw [sharedPrefix_eq, nats_append, nats_append]
      have hne : (j : ℕ) ≠ i := fun h => hji (Fin.ext h)
      exact (Patricia.shared_append (s := nats w) hne).trans (length_nats w)
    refine ⟨nats (w ++ i :: l), v, (nats (w ++ e.1), e.2), rest.map fun e => (nats (w ++ e.1), e.2), ?_, ?_, ?_, ?_⟩
    · unfold hexMap
      rw [hlist]
      rfl
    · rw [length_nats, List.length_append, List.length_cons]
      omega
    · rw [nats_append]
      exact List.prefix_append ..
    · have hmap : (nats (w ++ e.1), e.2) :: rest.map (fun e => (nats (w ++ e.1), e.2)) =
          (e :: rest).map fun e => (nats (w ++ e.1), e.2) := rfl
      rw [hmap]
      refine foldl_min_eq ?_ (fun x hx => ?_) (.inr ⟨_, List.mem_map_of_mem hmem, hparts⟩)
      · rw [length_nats, List.length_append]
        omega
      · obtain ⟨z, -, rfl⟩ := List.mem_map.1 hx
        rw [sharedPrefix_eq, nats_append, nats_append, ← length_nats w]
        exact Patricia.length_le_shared _ _ _
  | _ => cases hb

/-- The entries of a branch that go on with one nibble. -/
theorem filter_hexMap (w : List (Fin 16)) (ch : Fin 16 → Trie) (i : Fin 16) :
    ((hexMap w (.branch ch)).filter fun e => e.1.getD w.length 16 = i.val) = hexMap (w ++ [i]) (ch i) := by
  have hinner : ∀ j : Fin 16, (((ch j).entries.map fun e => (nats (w ++ j :: e.1), e.2)).filter
      fun e => e.1.getD w.length 16 = i.val) = if j = i then hexMap (w ++ [j]) (ch j) else [] := by
    intro j
    have hget : ∀ l : List (Fin 16), (nats (w ++ j :: l)).getD w.length 16 = j.val := by
      intro l
      rw [nats_append, List.getD_append_right _ _ _ _ (length_nats w).le, length_nats, Nat.sub_self]
      rfl
    by_cases hj : j = i
    · rw [if_pos hj, List.filter_eq_self.2]
      · unfold hexMap
        simp only [List.append_assoc, List.singleton_append]
      · intro e he
        obtain ⟨x, -, rfl⟩ := List.mem_map.1 he
        rw [decide_eq_true_iff, hget, hj]
    · rw [if_neg hj, List.filter_eq_nil_iff]
      intro e he
      obtain ⟨x, -, rfl⟩ := List.mem_map.1 he
      rw [decide_eq_true_iff, hget]
      exact fun h => hj (Fin.ext h)
  have hmap : hexMap w (.branch ch) =
      (List.finRange 16).flatMap fun j => (ch j).entries.map fun e => (nats (w ++ j :: e.1), e.2) := by
    unfold hexMap
    rw [entries, List.map_flatMap]
    simp only [List.map_map, Function.comp_def]
  rw [hmap, List.filter_flatMap]
  simp only [hinner]
  exact Patricia.flatMap_single (List.nodup_finRange 16) (List.mem_finRange i) fun j => hexMap (w ++ [j]) (ch j)

variable {fuel preLen n : ℕ} {k : List ℕ} {v : Bytes} {e : List ℕ × Bytes} {rest : Crypto.HexMap}

theorem hash256rlp_ext (hn : (e :: rest).foldl (fun m e => min m (Crypto.sharedPrefix k e.1)) k.length = n)
    (h : preLen < n) : c.hash256rlp (fuel + 1) ((k, v) :: e :: rest) preLen =
      encodeList [encodeBytes (Crypto.hexPrefixEncode ((k.take n).drop preLen) false),
        refer c (c.hash256rlp fuel ((k, v) :: e :: rest) n)] := by
  rw [Crypto.hash256rlp]
  · simp only [hn, if_pos h]
    rfl
  · simp

theorem hash256rlp_branch (hn : (e :: rest).foldl (fun m e => min m (Crypto.sharedPrefix k e.1)) k.length = n)
    (h : n = preLen) (hk : preLen < k.length) : c.hash256rlp (fuel + 1) ((k, v) :: e :: rest) preLen =
      encodeList ((List.range 16).map (fun i =>
        if (((k, v) :: e :: rest).filter fun e => e.1.getD preLen 16 = i).isEmpty then encodeBytes []
        else refer c (c.hash256rlp fuel (((k, v) :: e :: rest).filter fun e => e.1.getD preLen 16 = i) (preLen + 1))) ++
          [encodeBytes []]) := by
  rw [Crypto.hash256rlp]
  · simp only [hn, if_neg (show ¬preLen < n by omega), if_neg hk.ne]
    rfl
  · simp

/-- The nodes that are computed from sorted entries are the nodes of the trie. -/
theorem hash256rlp_eq (ht : t.Canonical) (hfuel : ∀ k v, t.find k = some v → k.length + 1 ≤ fuel) (hpos : 0 < fuel)
    (w : List (Fin 16)) : c.hash256rlp fuel (hexMap w t) w.length = encode c t := by
  induction t generalizing fuel w with
  | empty =>
    obtain ⟨fuel, rfl⟩ := Nat.exists_eq_add_of_le' hpos
    rfl
  | leaf p v =>
    obtain ⟨fuel, rfl⟩ := Nat.exists_eq_add_of_le' hpos
    show c.hash256rlp (fuel + 1) [(nats (w ++ p), v)] w.length = _
    rw [Crypto.hash256rlp, nats_append, ← length_nats w, List.drop_left]
    rfl
  | ext p t ih =>
    obtain ⟨fuel, rfl⟩ := Nat.exists_eq_add_of_le' hpos
    obtain ⟨k, v, e, rest, hlist, hlen, hpre, hfold⟩ := hexMap_branch (w ++ p) ht.2.1 ht.2.2
    have hplen := List.length_pos_iff.2 ht.1
    obtain ⟨x, y, hx⟩ := ht.2.2.exists_find (Patricia.isEmpty_of_isBranch ht.2.1)
    have hfind : ∀ x y, t.find x = some y → (Patricia.ext p t).find (p ++ x) = some y := by
      intro x y hx
      rw [Patricia.find, if_pos (List.prefix_append ..), List.drop_left, hx]
    have hfuel' : ∀ x y, t.find x = some y → x.length + 1 ≤ fuel := by
      intro x y hx
      have hle := hfuel _ _ (hfind x y hx)
      rw [List.length_append] at hle
      omega
    have hpath : (k.take (w ++ p).length).drop w.length = nats p := by
      obtain ⟨r, rfl⟩ := hpre
      rw [← length_nats (w ++ p), List.take_left, nats_append, ← length_nats w, List.drop_left]
    rw [hexMap_ext, hlist, hash256rlp_ext hfold (by rw [List.length_append]; omega), ← hlist,
      ih ht.2.2 hfuel' (by have := hfuel' x y hx; omega) (w ++ p), hpath]
    rfl
  | branch ch ih =>
    obtain ⟨fuel, rfl⟩ := Nat.exists_eq_add_of_le' hpos
    obtain ⟨k, v, e, rest, hlist, hlen, -, hfold⟩ := hexMap_branch (t := .branch ch) w rfl ht
    obtain ⟨x, y, hx⟩ := ht.exists_find rfl
    have hfuel' : ∀ i x y, (ch i).find x = some y → x.length + 1 ≤ fuel := by
      intro i x y hx
      have hle := hfuel (i :: x) y hx
      rw [List.length_cons] at hle
      omega
    have hfuelpos : 0 < fuel := by
      cases x with
      | nil => cases hx
      | cons i x =>
        have := hfuel' i x y hx
        omega
    rw [hlist, hash256rlp_branch hfold rfl hlen, ← hlist]
    show encodeList _ = encodeList ((List.finRange 16).map _ ++ [encodeBytes []])
    congr 2
    rw [← List.map_coe_finRange_eq_range, List.map_map]
    refine List.map_congr_left fun i _ => ?_
    rw [Function.comp_apply, filter_hexMap]
    cases hne : (ch i).isEmpty with
    | true =>
      have hempty : ch i = .empty := by
        cases hch : ch i with
        | empty => rfl
        | _ => rw [hch] at hne; cases hne
      rw [hempty]
      rfl
    | false =>
      have hnil : (hexMap (w ++ [i]) (ch i)).isEmpty = false := by
        rw [List.isEmpty_eq_false_iff]
        intro hmap
        rw [hexMap, List.map_eq_nil_iff, Patricia.entries_eq_nil_iff (ht.2 i), hne] at hmap
        cases hmap
      have hchild := ih i (ht.2 i) (hfuel' i) hfuelpos (w ++ [i])
      rw [List.length_append, List.length_singleton] at hchild
      rw [hnil, if_neg Bool.false_ne_true, hchild]

end

/-! ## The root -/

section

variable {c : Crypto} {K : Set Bytes} {t : Trie} {m : Bytes → Option Bytes} {es : List (Bytes × Bytes)}

theorem mem_hexMap {x : List ℕ} {v : Bytes} : (x, v) ∈ hexMap [] t ↔ ∃ w, nats w = x ∧ t.find w = some v := by
  unfold hexMap
  rw [List.mem_map]
  constructor
  · rintro ⟨⟨w, y⟩, he, heq⟩
    obtain ⟨rfl, rfl⟩ := Prod.mk.inj heq
    exact ⟨w, rfl, Patricia.mem_entries.1 he⟩
  · rintro ⟨w, rfl, hw⟩
    exact ⟨(w, v), Patricia.mem_entries.2 hw, rfl⟩

theorem pairwise_hexMap (t : Trie) : (hexMap [] t).Pairwise fun x y => Crypto.keyLe x.1 y.1 = true ∧ x.1 ≠ y.1 := by
  refine List.pairwise_map.2 ((Patricia.pairwise_entries t).imp fun h => ⟨keyLe_of_lt h, fun heq => ?_⟩)
  rw [List.append_cancel_left (nats_inj.1 heq)] at h
  exact List.lt_irrefl _ h

/-- The sorted entries of a map are the entries of a trie for it. -/
theorem mergeSort_eq (h : Shows K t m) (hes : (es.map Prod.fst).Nodup)
    (hmem : ∀ key v, (key, v) ∈ es ↔ m key = some v) :
    ((es.map fun e => (Crypto.asNibbles e.1, e.2)).mergeSort fun x y => Crypto.keyLe x.1 y.1) = hexMap [] t := by
  have hsame : ∀ x v, (x, v) ∈ es.map (fun e => (Crypto.asNibbles e.1, e.2)) ↔ (x, v) ∈ hexMap [] t := by
    intro x v
    rw [mem_hexMap, List.mem_map]
    constructor
    · rintro ⟨⟨key, y⟩, he, heq⟩
      obtain ⟨rfl, rfl⟩ := Prod.mk.inj heq
      exact ⟨word key, nats_word key, (h.find key).trans ((hmem key y).1 he)⟩
    · rintro ⟨w, rfl, hw⟩
      obtain ⟨key, -, rfl, -⟩ := h.words w v hw
      rw [h.find] at hw
      exact ⟨(key, v), (hmem key v).2 hw, Prod.ext (nats_word key).symm rfl⟩
  have hnodup : (es.map fun e => (Crypto.asNibbles e.1, e.2)).Nodup := by
    refine List.Nodup.of_map Prod.fst ?_
    rw [List.map_map]
    show (es.map fun e => Crypto.asNibbles e.1).Nodup
    have hinj : Function.Injective Crypto.asNibbles := by
      intro k l hkl
      rw [← nats_word, ← nats_word, nats_inj, word_inj] at hkl
      exact hkl
    rw [← Function.comp_def Crypto.asNibbles, ← List.map_map]
    exact hes.map hinj
  have hsorted := pairwise_hexMap t
  have hnodup' : (hexMap [] t).Nodup := hsorted.imp fun h heq => h.2 (congrArg Prod.fst heq)
  have hle : (hexMap [] t).Pairwise fun x y => Crypto.keyLe x.1 y.1 = true := hsorted.imp And.left
  have hperm : (es.map fun e => (Crypto.asNibbles e.1, e.2)).Perm (hexMap [] t) :=
    (List.perm_ext_iff_of_nodup hnodup hnodup').2 fun e => hsame e.1 e.2
  refine List.Perm.eq_of_pairwise ?_ ?_ hle ((List.mergeSort_perm _ _).trans hperm)
  · intro x y hx hy hxy hyx
    have hkey := keyLe_antisymm hxy hyx
    rw [List.mem_mergeSort, hsame x.1 x.2, mem_hexMap] at hx
    obtain ⟨u, hu, hfu⟩ := hx
    obtain ⟨w, hw, hfw⟩ := mem_hexMap.1 hy
    obtain rfl : u = w := by
      refine nats_inj.1 ?_
      calc nats u = x.1 := hu
        _ = y.1 := hkey
        _ = nats w := hw.symm
    exact Prod.ext hkey (Option.some.inj (hfu.symm.trans hfw))
  · exact @List.pairwise_mergeSort (List ℕ × Bytes) (fun x y => Crypto.keyLe x.1 y.1) (fun _ _ _ => keyLe_trans)
      (fun a b => keyLe_total a.1 b.1) _

theorem le_foldl_max {n : ℕ} : ∀ {l : List ℕ} {m : ℕ}, n ≤ m ∨ n ∈ l → n ≤ l.foldl max m
  | [], _, h => h.resolve_right List.not_mem_nil
  | x :: l, m, h => by
    rw [List.foldl_cons]
    refine le_foldl_max ?_
    rcases h with h | h
    · exact .inl (h.trans (le_max_left m x))
    · rcases List.mem_cons.1 h with rfl | h
      · exact .inl (le_max_right m n)
      · exact .inr h

/-- The hash of the top node is the root that is computed from the entries. -/
theorem root_eq_hash256 (h : Shows K t m) (hes : (es.map Prod.fst).Nodup)
    (hmem : ∀ key v, (key, v) ∈ es ↔ m key = some v) : c.sha3 (encode c t) = c.hash256 es := by
  have hsort := mergeSort_eq h hes hmem
  unfold Crypto.hash256
  cases es with
  | nil =>
    have hempty : t.isEmpty = true := by
      rw [← Patricia.entries_eq_nil_iff h.canonical]
      rw [List.map_nil, List.mergeSort_nil, hexMap, eq_comm, List.map_eq_nil_iff] at hsort
      exact hsort
    cases t with
    | empty => rfl
    | _ => cases hempty
  | cons e es =>
    rw [List.isEmpty_cons, if_neg Bool.false_ne_true]
    dsimp only
    rw [hsort]
    have hfuel : ∀ k v, t.find k = some v →
        k.length + 1 ≤ 2 * ((hexMap [] t).map fun e => e.1.length).foldl max 0 + 2 := by
      intro k v hk
      have hin : (nats k, v) ∈ hexMap [] t := mem_hexMap.2 ⟨k, rfl, hk⟩
      have hle : (nats k).length ≤ ((hexMap [] t).map fun e => e.1.length).foldl max 0 :=
        le_foldl_max (.inr (List.mem_map_of_mem hin))
      rw [length_nats] at hle
      omega
    rw [← hash256rlp_eq h.canonical hfuel (by omega) []]
    rfl

/-- After any run from the empty trie the root is the one that is computed from the entries that are left, in whatever
order they are listed. -/
theorem run_root {δ : Type} [NodeDB δ] [LawfulNodeDB δ] {db : δ} (hK : KeySet K) (ops : List Op)
    (hops : ∀ op ∈ ops, op.Valid K) (h : Start c db ops) (hes : (es.map Prod.fst).Nodup)
    (hmem : ∀ key v, (key, v) ∈ es ↔ ops.foldl Op.entries (fun _ => none) key = some v) :
    ∃ g, Op.run c (init c db) ops = .ok g ∧ g.m_root = c.hash256 es := by
  obtain ⟨g, hrun, -, hstored, hshows⟩ := run_init hK ops hops h.ready
  exact ⟨g, hrun, hstored.root.trans (root_eq_hash256 hshows hes hmem)⟩

theorem run_root_trial : ∃ g, Op.run rolling (init rolling MemoryDB.new) trial = .ok g ∧
    g.m_root = rolling.hash256 [([1, 3], List.replicate 40 8), ([2, 5, 6], [9])] :=
  run_root keySet_trial trial valid_trial start_trial (by decide) fun _ _ => mem_trial

end

end GenericTrieDB

end Petrachor
