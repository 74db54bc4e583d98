import Petrachor.TrieDB.Run
import Petrachor.MemoryDB

/-!
# Checking a trie

The scan of a whole trie strikes out the hashes that it comes by. After any run it comes by every key of a database
in memory: each node is counted as often as it is referred to, and nothing is left over.
-/

namespace Petrachor

open RLPStream Tally

/-- The keys of a database. -/
class NodeKeys (δ : Type) where
  keys : δ → Finset H256

instance : NodeKeys MemoryDB := ⟨MemoryDB.keys⟩

/-- What ends a scan. -/
inductive ScanError
  | InvalidTrie
  | thrown (e : Exception)
  deriving DecidableEq

instance : MonadLift (Except Exception) (Except ScanError) := ⟨Except.mapError .thrown⟩

namespace GenericTrieDB

section

variable {δ : Type} [NodeDB δ] (c : Crypto) (t : GenericTrieDB δ)

def descendList (descendEntry : RLP → Finset H256 → Bool → Except ScanError (Finset H256)) (r : RLP)
    (keyMask : Finset H256) (wasExt : Bool) : Except ScanError (Finset H256) := do
  let itemCount ← r.itemCount
  if r.isList && itemCount = 2 && !wasExt then
    if ← isLeaf r then return keyMask else descendEntry (← r.get 1) keyMask true
  else if r.isList && itemCount = 17 then
    (List.range 16).foldlM (fun keyMask i => do
      let item ← r.get i
      if item.isEmpty then return keyMask else descendEntry item keyMask false) keyMask
  else throw .InvalidTrie

def descendKey (descendEntry : RLP → Finset H256 → Bool → Except ScanError (Finset H256)) (k : H256)
    (keyMask : Finset H256) (wasExt : Bool) : Except ScanError (Finset H256) := do
  let keyMask := keyMask.erase k
  if k = t.m_root ∧ k = c.EmptyTrie then return keyMask
  descendList descendEntry (← rlp (node t.m_db k)) keyMask wasExt

def descendEntry : ℕ → RLP → Finset H256 → Bool → Except ScanError (Finset H256)
  | 0, _, _, _ => .error (.thrown .abort)
  | fuel + 1, r, keyMask, wasExt => do
    if (← r.size) = 32 then descendKey c t (descendEntry fuel) (← r.toHash 32 RLP.Strict) keyMask wasExt
    else if r.isList then descendList (descendEntry fuel) r keyMask wasExt
    else throw .InvalidTrie

/-- The keys of the database that the scan does not come by. -/
def leftOvers [NodeKeys δ] (fuel : ℕ) : Except ScanError (Finset H256) :=
  descendKey c t (descendEntry c t fuel) t.m_root (NodeKeys.keys t.m_db) false

def check [NodeKeys δ] (fuel : ℕ) (requireNoLeftOvers : Bool) : Bool :=
  match leftOvers c t fuel with
  | .ok k => k = ∅ || !requireNoLeftOvers
  | .error _ => false

end

/-! ## The scan of a node -/

section

open Patricia (lead)

variable {δ : Type} [NodeDB δ] {c : Crypto} {g : GenericTrieDB δ} {t : Trie} {p : List (Fin 16)} {e : Bytes}
  {f : Fin 16 → Bytes} {A B : Multiset Bytes} {keyMask : Finset H256} {wasExt : Bool} {fuel : ℕ}
  {d : RLP → Finset H256 → Bool → Except ScanError (Finset H256)}

/-- The hashes of nodes. -/
def hashes (c : Crypto) (A : Multiset Bytes) : Finset H256 := (A.map c.sha3).toFinset

theorem mem_hashes {h : H256} : h ∈ hashes c A ↔ ∃ b ∈ A, c.sha3 b = h := by
  simp [hashes]

theorem sdiff_hashes_add (keyMask : Finset H256) (A B : Multiset Bytes) :
    keyMask \ hashes c (A + B) = (keyMask \ hashes c A) \ hashes c B := by
  rw [sdiff_sdiff_left]
  congr 1
  simp [hashes]

@[simp] theorem sdiff_hashes_zero (keyMask : Finset H256) : keyMask \ hashes c 0 = keyMask := by
  simp [hashes]

theorem erase_eq_sdiff (keyMask : Finset H256) (b : Bytes) : keyMask.erase (c.sha3 b) = keyMask \ hashes c {b} := by
  simp [hashes, Finset.sdiff_singleton_eq_erase]

theorem lift_ok {α : Type} (a : α) : (liftM (Except.ok a : Except Exception α) : Except ScanError α) = .ok a := rfl

theorem scan_bind {α β : Type} (a : α) (f : α → Except ScanError β) : (Except.ok a >>= f) = f a := rfl

/-- How deep the nodes of a trie are. -/
def height : Trie → ℕ
  | .ext _ t => height t + 1
  | .branch ch => Finset.univ.sup (fun i => height (ch i)) + 1
  | _ => 1

theorem height_pos (t : Trie) : 0 < height t := by
  cases t <;> rw [height] <;> simp

theorem descendList_leaf (hpair : Paired p e) : descendList d ⟨pair p true e⟩ keyMask false = .ok keyMask := by
  unfold descendList
  rw [hpair.itemCount, hpair.isList, hpair.isLeaf]
  rfl

theorem descendList_ext (hpair : Paired p e) :
    descendList d ⟨pair p false e⟩ keyMask false = d ⟨e⟩ keyMask true := by
  unfold descendList
  rw [hpair.itemCount, hpair.isList, hpair.isLeaf, hpair.get_one]
  rfl

theorem descendList_full (hf : Branched f) : descendList d ⟨full f⟩ keyMask wasExt =
    (List.finRange 16).foldlM
      (fun keyMask i => if (RLP.mk (f i)).isEmpty then .ok keyMask else d ⟨f i⟩ keyMask false) keyMask := by
  unfold descendList
  rw [hf.itemCount, hf.isList, ← List.map_coe_finRange_eq_range, List.foldlM_map]
  simp only [lift_ok, scan_bind, hf.get]
  rfl

theorem descendEntry_refer (ht : t.Canonical) (hfits : Fits t) (hne : t.isEmpty = false)
    (hroot : g.m_root ≠ c.EmptyTrie) (hdb : Holds c g.m_db (own c t)) :
    descendEntry c g (fuel + 1) ⟨refer c (encode c t)⟩ keyMask wasExt =
      descendList (descendEntry c g fuel) ⟨encode c t⟩ (keyMask \ hashes c (stored c t)) wasExt := by
  have hlist : (RLP.mk (encode c t)).isList = true := by
    rw [isList_encode c ht hfits, hne]
    rfl
  rw [descendEntry]
  by_cases hlen : (encode c t).length < 32
  · have href : refer c (encode c t) = encode c t := if_pos hlen
    have hdata : (RLP.mk (encode c t)).isData = false := by
      rw [← Bool.not_eq_true]
      intro hdata
      rw [not_isList_of_isData hdata] at hlist
      cases hlist
    rw [href, RLP.size, hdata, hlist, stored, if_pos hlen, sdiff_hashes_zero]
    rfl
  · have href : refer c (encode c t) = encodeBytes (asBytes 32 (c.sha3 (encode c t))) := if_neg hlen
    have hbytes : (asBytes 32 (c.sha3 (encode c t))).length = 32 := length_toBigEndian _ _
    have hmax : (asBytes 32 (c.sha3 (encode c t))).length < maxPayload := by
      rw [hbytes]
      unfold maxPayload
      omega
    have hitem := isItem_encodeBytes hmax
    have hlength := hitem.length []
    rw [List.append_nil, hbytes] at hlength
    have hdescend : descendKey c g (descendEntry c g fuel) (c.sha3 (encode c t)) keyMask wasExt =
        descendList (descendEntry c g fuel) ⟨encode c t⟩ (keyMask \ hashes c (stored c t)) wasExt := by
      unfold descendKey
      rw [node_of_holds hdb hlen, rlp_item (isItem_encode c ht hfits), erase_eq_sdiff, stored, if_neg hlen]
      exact if_neg fun h => hroot (h.1.symm.trans h.2)
    rw [href, RLP.size, isData_encodeBytes hmax, toHash_refer, hlength]
    exact hdescend

/-- The scan comes by the nodes of a trie, and by no others. -/
theorem descendList_eq (hroot : g.m_root ≠ c.EmptyTrie) (ht : t.Canonical) (hfits : Fits t)
    (hne : t.isEmpty = false) (hext : wasExt = true → t.isBranch = true) (hdb : Holds c g.m_db (kids c t))
    (hfuel : height t ≤ fuel + 1) :
    descendList (descendEntry c g fuel) ⟨encode c t⟩ keyMask wasExt = .ok (keyMask \ hashes c (kids c t)) := by
  induction t generalizing keyMask wasExt fuel with
  | empty => cases hne
  | leaf p v =>
    obtain rfl : wasExt = false := by
      cases wasExt with
      | false => rfl
      | true => cases hext rfl
    rw [kids, sdiff_hashes_zero]
    · exact descendList_leaf (paired_leaf hfits)
    · rintro p t ⟨⟩
    · rintro ch ⟨⟩
  | ext p t ih =>
    obtain rfl : wasExt = false := by
      cases wasExt with
      | false => rfl
      | true => cases hext rfl
    rw [height] at hfuel
    obtain ⟨fuel, rfl⟩ := Nat.exists_eq_add_of_le' (show 1 ≤ fuel by have := height_pos t; omega)
    have hchild := Patricia.isEmpty_of_isBranch ht.2.1
    rw [encode, descendList_ext (paired_ext c ht hfits), kids_ext, own, sdiff_hashes_add,
      descendEntry_refer ht.2.2 hfits.ext hchild hroot hdb]
    exact ih ht.2.2 hfits.ext hchild (fun _ => ht.2.1) (hdb.mono (Multiset.le_add_left _ _)) (by omega)
  | branch ch ih =>
    rw [height] at hfuel
    have hbranch : Branched fun i => refer c (encode c (ch i)) := branched c ht hfits
    have hstep : ∀ (i : Fin 16) (keyMask : Finset H256),
        (if (RLP.mk (refer c (encode c (ch i)))).isEmpty then .ok keyMask
          else descendEntry c g fuel ⟨refer c (encode c (ch i))⟩ keyMask false) =
            Except.ok (keyMask \ hashes c (own c (ch i))) := by
      intro i keyMask
      rw [isEmpty_refer (ht.2 i) (hfits.child i)]
      cases hempty : (ch i).isEmpty with
      | true =>
        have hch : ch i = .empty := by
          cases hch : ch i with
          | empty => rfl
          | _ => rw [hch] at hempty; cases hempty
        rw [hch, own_empty, sdiff_hashes_zero]
        rfl
      | false =>
        have hle : height (ch i) ≤ fuel := by
          have hsup := Finset.le_sup (f := fun i => height (ch i)) (Finset.mem_univ i)
          omega
        obtain ⟨fuel, rfl⟩ := Nat.exists_eq_add_of_le' ((height_pos (ch i)).trans_le hle)
        have hown : Holds c g.m_db (own c (ch i)) := hdb.mono (own_le_kids c ch i)
        rw [if_neg Bool.false_ne_true, descendEntry_refer (ht.2 i) (hfits.child i) hempty hroot hown, own,
          sdiff_hashes_add]
        exact ih i (ht.2 i) (hfits.child i) hempty (fun h => by cases h) (hown.mono (Multiset.le_add_left _ _)) hle
    have hfold : ∀ (l : List (Fin 16)) (keyMask : Finset H256), l.foldlM
        (fun keyMask i => if (RLP.mk (refer c (encode c (ch i)))).isEmpty then .ok keyMask
          else descendEntry c g fuel ⟨refer c (encode c (ch i))⟩ keyMask false) keyMask =
            Except.ok (keyMask \ hashes c (l.map fun i => own c (ch i)).sum) := by
      intro l
      induction l with
      | nil =>
        intro keyMask
        rw [List.map_nil, List.sum_nil, sdiff_hashes_zero]
        rfl
      | cons i l ih =>
        intro keyMask
        rw [List.foldlM_cons, hstep, scan_bind, ih, List.map_cons, List.sum_cons, sdiff_hashes_add]
    rw [encode, descendList_full hbranch, hfold, ← Fin.sum_univ_def]
    rfl

end

/-! ## After a run -/

section

variable {c : Crypto} {K N : Set Bytes} {t : Trie} {m : Bytes → Option Bytes} {F : Multiset Bytes}
  {l : List (Act Bytes)}

/-- The scan of a trie comes by its nodes. -/
theorem leftOvers_eq {δ : Type} [NodeDB δ] [LawfulNodeDB δ] [NodeKeys δ] {g : GenericTrieDB δ} {fuel : ℕ}
    (hK : KeySet K) (h : Shows K t m) (hg : Stored c N g t F l) (hnull : RLPNull ∈ N) (hfuel : height t ≤ fuel) :
    leftOvers c g fuel = .ok (NodeKeys.keys g.m_db \ hashes c (all c t)) := by
  have hall := hg.all
  have hsplit : all c t = {encode c t} + kids c t := (Multiset.singleton_add _ _).symm
  unfold leftOvers descendKey
  rw [hg.root, hsplit, sdiff_hashes_add, erase_eq_sdiff]
  dsimp only
  cases hne : t.isEmpty with
  | true =>
    cases t with
    | empty =>
      rw [if_pos ⟨rfl, rfl⟩, kids, sdiff_hashes_zero]
      · rfl
      · rintro p t ⟨⟩
      · rintro ch ⟨⟩
    | _ => cases hne
  | false =>
    have hroot : c.sha3 (encode c t) ≠ c.EmptyTrie := by
      intro heq
      have hin : encode c t ∈ N := hg.ready.inside _ (Multiset.mem_add.2 (.inl (Multiset.mem_cons_self _ _)))
      exact encode_ne_null h hK hne (hg.ready.apart hin hnull heq)
    have hfits := h.fits hK
    have hitem := isItem_encode c h.canonical hfits
    have hkids : Holds c g.m_db (kids c t) := hall.mono (Multiset.le_cons_self _ _)
    have hnode : node g.m_db (c.sha3 (encode c t)) = encode c t := by
      rw [← hg.root, node_root h hK hg.root hall]
    rw [if_neg fun h => hroot h.2, hnode, rlp_item hitem]
    exact descendList_eq (hg.root ▸ hroot) h.canonical hfits hne (fun h => by cases h) hkids (by omega)

theorem hashes_all {h : H256} : h ∈ hashes c (all c t) ↔ ∃ x ∈ hashed c (all c t), x.1 = h := by
  rw [mem_hashes]
  unfold hashed
  constructor
  · rintro ⟨b, hb, rfl⟩
    exact ⟨_, Multiset.mem_map_of_mem _ hb, rfl⟩
  · rintro ⟨x, hx, rfl⟩
    obtain ⟨b, hb, rfl⟩ := Multiset.mem_map.1 hx
    exact ⟨b, hb, rfl⟩

/-- After any run from an empty trie, the count of a hash in the memory is the number of references that the trie has
to it, and the check of the trie finds that nothing is left over. -/
theorem run_check {db : MemoryDB} (hK : KeySet K) (ops : List Op) (hops : ∀ op ∈ ops, op.Valid K) (h : Start c db ops) :
    ∃ g n, Op.run c (init c db) ops = .ok g ∧
      (∀ x, g.m_db.refs x = references (hashed c (all c (ops.foldl Op.after .empty))) x) ∧
      ∀ fuel ≥ n, check c g fuel true = true := by
  obtain ⟨g, hrun, -, hstored, hshows⟩ := run_init hK ops hops h.ready
  have hkeeps := hstored.ready.keeps
  rw [add_zero] at hkeeps
  refine ⟨g, height (ops.foldl Op.after .empty), hrun, hkeeps.refs, fun fuel hfuel => ?_⟩
  have hkeys : MemoryDB.keys g.m_db \ hashes c (all c (ops.foldl Op.after .empty)) = ∅ := by
    rw [Finset.sdiff_eq_empty_iff_subset]
    intro x hx
    exact hashes_all.2 (hkeeps.mem_keys.1 hx)
  unfold check
  rw [leftOvers_eq hK hshows hstored List.mem_cons_self hfuel]
  show (decide (MemoryDB.keys g.m_db \ hashes c (all c (ops.foldl Op.after .empty)) = ∅) || !true) = true
  rw [decide_eq_true hkeys]
  rfl

theorem run_check_trial : ∃ g n, Op.run rolling (init rolling MemoryDB.new) trial = .ok g ∧
    ∀ fuel ≥ n, check rolling g fuel true = true := by
  obtain ⟨g, n, hrun, -, hcheck⟩ := run_check keySet_trial trial valid_trial start_trial
  exact ⟨g, n, hrun, hcheck⟩

/-- A purge after any run leaves the nodes of the trie and no other ones, and all entries are found as before, whether
or not the counts are enforced. -/
theorem run_purge {db : MemoryDB} (hK : KeySet K) (ops : List Op) (hops : ∀ op ∈ ops, op.Valid K) (h : Start c db ops)
    (enforce : Bool) : ∃ g, Op.run c (init c db) ops = .ok g ∧
      (∀ x, (g.m_db.purge.m_main.lookup x).isSome ↔ x ∈ hashes c (all c (ops.foldl Op.after .empty))) ∧
      ∀ key : Bytes, key.length < 2 ^ 30 →
        (GenericTrieDB.mk g.m_root { g.m_db.purge with m_enforceRefs := enforce }).at key =
          .ok ((ops.foldl Op.entries (fun _ => none) key).getD []) := by
  obtain ⟨g, hrun, -, hstored, hshows⟩ := run_init hK ops hops h.ready
  have hkeeps := hstored.ready.keeps
  rw [add_zero] at hkeeps
  refine ⟨g, hrun, fun x => hkeeps.purge_isSome.trans hashes_all.symm, fun key hkey => ?_⟩
  refine at_eq hK hshows hstored.root (fun b hb _ => ?_) hkey
  have hpurge := hkeeps.purge
  have hmode : MemoryDB.Keeps { g.m_db.purge with m_enforceRefs := enforce }
      (hashed c (all c (ops.foldl Op.after .empty))) 0 :=
    ⟨hpurge.cell, hpurge.refs, hpurge.room⟩
  exact hmode.lookup (Multiset.mem_map.2 ⟨b, hb, rfl⟩)

theorem run_purge_trial : ∃ g, Op.run rolling (init rolling MemoryDB.new) trial = .ok g ∧
    (GenericTrieDB.mk g.m_root { g.m_db.purge with m_enforceRefs := true }).at [1, 3] =
      .ok (List.replicate 40 8) ∧
    (GenericTrieDB.mk g.m_root { g.m_db.purge with m_enforceRefs := true }).at [2, 5, 6] = .ok [9] := by
  obtain ⟨g, hrun, -, hat⟩ := run_purge keySet_trial trial valid_trial start_trial true
  exact ⟨g, hrun, hat [1, 3] (by decide), hat [2, 5, 6] (by decide)⟩

end

end GenericTrieDB

end Petrachor
