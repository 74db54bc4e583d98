import Petrachor.TrieDB.Nodes

/-!
# Inserting into the nodes of a trie

An insertion into the bytes of a trie gives the bytes of the trie with the word, and the acts on the database are known
beforehand: a node that changes is killed, and what stands below a new node is entered.
-/

namespace Petrachor

open NibbleSlice RLPStream Tally

namespace GenericTrieDB

section

variable {δ : Type} [NodeDB δ] (c : Crypto)

/-! ## Acts on the database -/

def perform (db : δ) : Act Bytes → δ
  | .enter b => NodeDB.insert db (c.sha3 b) b
  | .strike b => NodeDB.kill db (c.sha3 b)

def play (db : δ) (l : List (Act Bytes)) : δ := l.foldl (perform c) db

/-- A node of 32 bytes or more is entered. -/
def saves (t : Trie) : List (Act Bytes) := if (encode c t).length < 32 then [] else [.enter (encode c t)]

def kills (t : Trie) : List (Act Bytes) := if (encode c t).length < 32 then [] else [.strike (encode c t)]

/-- The acts where a word leaves the path to a node. If they have a beginning in common, the longer rest of the path
is entered and killed again. -/
def partLog (p : List (Fin 16)) (t : Trie) (k : List (Fin 16)) (v : Bytes) : List (Act Bytes) :=
  match p.drop (Patricia.shared k p), k.drop (Patricia.shared k p) with
  | a :: q, b :: l =>
    let rest := (if q.isEmpty && t.isBranch then [] else saves c (Patricia.lead q t)) ++ saves c (.leaf l v)
    kills c (Patricia.lead p t) ++
      if Patricia.shared k p = 0 then rest
      else saves c (Patricia.lead (a :: q) t) ++ kills c (Patricia.lead (a :: q) t) ++ rest ++
        saves c (Patricia.fork a (Patricia.lead q t) b (.leaf l v))
  | _, _ => []

/-- The acts of an insertion, but for the top node. -/
def mergeLog : Trie → List (Fin 16) → Bytes → List (Act Bytes)
  | .empty, _, _ => []
  | .leaf p w, k, v => if k = p then kills c (.leaf p w) else partLog c p (.leaf [] w) k v
  | .ext p t, k, v =>
    if p <+: k then
      kills c (.ext p t) ++ mergeLog t (k.drop p.length) v ++ saves c (t.insert (k.drop p.length) v)
    else partLog c p t k v
  | .branch _, [], _ => []
  | .branch ch, i :: k, v => kills c (.branch ch) ++ mergeLog (ch i) k v ++ saves c ((ch i).insert k v)

variable {c} {db : δ} {l m : List (Act Bytes)} {t : Trie}

theorem play_append (db : δ) (l m : List (Act Bytes)) : play c db (l ++ m) = play c (play c db l) m :=
  List.foldl_append

theorem killNode_encode (db : δ) (t : Trie) :
    killNode db ⟨encode c t⟩ (c.sha3 (encode c t)) = play c db (kills c t) := by
  unfold killNode kills
  by_cases h : (encode c t).length < 32
  · rw [if_pos h, if_neg (by show ¬32 ≤ (encode c t).length; omega)]
    rfl
  · rw [if_neg h, if_pos (by show 32 ≤ (encode c t).length; omega)]
    rfl

theorem streamNode_encode (db : δ) (t : Trie) :
    streamNode c db (encode c t) = (refer c (encode c t), play c db (saves c t)) := by
  unfold streamNode refer saves
  by_cases h : (encode c t).length < 32
  · rw [if_pos h, if_pos h, if_pos h]
    rfl
  · rw [if_neg h, if_neg h, if_neg h]
    rfl

end

/-! ## What is referred to -/

section

open Patricia (fork)

variable {c : Crypto} {t : Trie} {a b : Fin 16}

theorem turns_saves (c : Crypto) (t : Trie) (A : Multiset Bytes) : Turns (saves c t) A (stored c t + A) := by
  unfold saves stored
  split
  · rw [zero_add]
    exact .nil A
  · exact .enter (.nil _)

theorem turns_kills (c : Crypto) (t : Trie) (A : Multiset Bytes) : Turns (kills c t) (stored c t + A) A := by
  unfold kills stored
  split
  · rw [zero_add]
    exact .nil A
  · exact .strike (.nil A)

theorem own_empty (c : Crypto) : own c .empty = 0 := rfl

theorem own_leaf (c : Crypto) (p : List (Fin 16)) (v : Bytes) : own c (.leaf p v) = stored c (.leaf p v) := add_zero _

theorem kids_fork (c : Crypto) (hab : a ≠ b) (t u : Trie) : kids c (fork a t b u) = own c t + own c u := by
  show ∑ i, own c (if i = b then u else if i = a then t else .empty) = _
  rw [Fintype.sum_eq_add a b hab]
  · rw [if_neg hab, if_pos rfl, if_pos rfl]
  · rintro i ⟨ha, hb⟩
    rw [if_neg hb, if_neg ha, own_empty]

/-- The nodes below the other children. -/
def others (c : Crypto) (ch : Fin 16 → Trie) (i : Fin 16) : Multiset Bytes := ∑ j ∈ Finset.univ.erase i, own c (ch j)

theorem kids_branch (c : Crypto) (ch : Fin 16 → Trie) (i : Fin 16) :
    kids c (.branch ch) = own c (ch i) + others c ch i :=
  (Finset.add_sum_erase Finset.univ (fun j => own c (ch j)) (Finset.mem_univ i)).symm

theorem kids_branch_set (c : Crypto) (ch : Fin 16 → Trie) (i : Fin 16) (t : Trie) :
    kids c (.branch fun j => if j = i then t else ch j) = own c t + others c ch i := by
  rw [kids_branch c _ i, if_pos rfl]
  congr 1
  refine Finset.sum_congr rfl fun j hj => ?_
  dsimp only
  rw [if_neg (Finset.ne_of_mem_erase hj)]

end

/-- What a trie relies on. `Keeps db A n` says that the database answers for the nodes of `A`, each of which was
inserted once more than it was killed, and that its counters have room for `n` acts more. -/
class LawfulNodeDB (δ : Type) [NodeDB δ] where
  Keeps : δ → Multiset (H256 × Bytes) → ℕ → Prop
  lookup : ∀ {db A n h b}, Keeps db A n → (h, b) ∈ A → b ≠ [] → NodeDB.lookup db h = b
  insert : ∀ {db A n h b}, Keeps db A (n + 1) → (∀ x ∈ A, x.1 = h → x.2 = b) →
    Keeps (NodeDB.insert db h b) ((h, b) ::ₘ A) n
  kill : ∀ {db A n h b}, Keeps db ((h, b) ::ₘ A) (n + 1) → Keeps (NodeDB.kill db h) A n

/-- A database whose killed nodes stay readable, while it is `Lax`. -/
class LaxNodeDB (δ : Type) [NodeDB δ] extends LawfulNodeDB δ where
  Lax : δ → Prop
  lax_insert : ∀ {db : δ} h b, Lax db → Lax (NodeDB.insert db h b)
  lax_kill : ∀ {db : δ} h, Lax db → Lax (NodeDB.kill db h)
  lookup_insert : ∀ (db : δ) {h h'} b, h' ≠ h → NodeDB.lookup (NodeDB.insert db h b) h' = NodeDB.lookup db h'
  exists_insert : ∀ (db : δ) {h h'} b, h' ≠ h → NodeDB.exists (NodeDB.insert db h b) h' = NodeDB.exists db h'
  lookup_kill : ∀ {db : δ} h h', Lax db → NodeDB.lookup (NodeDB.kill db h) h' = NodeDB.lookup db h'
  exists_kill : ∀ {db : δ} h h', Lax db → NodeDB.exists (NodeDB.kill db h) h' = NodeDB.exists db h'
  /-- Room may be left. -/
  spare : ∀ {db : δ} {A n}, Keeps db A (n + 1) → Keeps db A n
  /-- Nothing is lost with what is not counted. -/
  idle : ∀ {db : δ} {A n h}, Keeps db A (n + 1) → (∀ x ∈ A, x.1 ≠ h) → Keeps (NodeDB.kill db h) A n

section

variable {δ : Type} [NodeDB δ] [LawfulNodeDB δ]

/-- The nodes under their hashes. -/
def hashed (c : Crypto) (A : Multiset Bytes) : Multiset (H256 × Bytes) := A.map fun b => (c.sha3 b, b)

/-- The database answers for the nodes of `A` and is about to take the acts of a list: no two nodes that there are or
will be have one hash. -/
structure Ready (c : Crypto) (N : Set Bytes) (db : δ) (A : Multiset Bytes) (l : List (Act Bytes)) : Prop where
  apart : N.InjOn c.sha3
  inside : ∀ b ∈ A, b ∈ N
  entered : ∀ b, .enter b ∈ l → b ∈ N
  keeps : LawfulNodeDB.Keeps db (hashed c A) l.length

namespace Ready

variable {c : Crypto} {N : Set Bytes} {db : δ} {A B F : Multiset Bytes} {l m : List (Act Bytes)} {b : Bytes} {t : Trie}

theorem holds (h : Ready c N db A l) : Holds c db A :=
  fun b hb => LawfulNodeDB.lookup h.keeps (Multiset.mem_map.2 ⟨b, hb, rfl⟩)

theorem enter (h : Ready c N db A (.enter b :: l)) : Ready c N (perform c db (.enter b)) (b ::ₘ A) l := by
  have hb : b ∈ N := h.entered b List.mem_cons_self
  refine ⟨h.apart, fun x hx => ?_, fun x hx => h.entered x (List.mem_cons_of_mem _ hx), ?_⟩
  · rcases Multiset.mem_cons.1 hx with rfl | hx
    · exact hb
    · exact h.inside x hx
  · rw [hashed, Multiset.map_cons]
    refine LawfulNodeDB.insert h.keeps fun x hx heq => ?_
    obtain ⟨y, hy, rfl⟩ := Multiset.mem_map.1 hx
    exact h.apart (h.inside y hy) hb heq

theorem strike (h : Ready c N db (b ::ₘ A) (.strike b :: l)) : Ready c N (perform c db (.strike b)) A l := by
  have hkeeps := h.keeps
  rw [hashed, Multiset.map_cons] at hkeeps
  exact ⟨h.apart, fun x hx => h.inside x (Multiset.mem_cons_of_mem hx),
    fun x hx => h.entered x (List.mem_cons_of_mem _ hx), LawfulNodeDB.kill hkeeps⟩

/-- The database answers for what the acts turn its nodes into. -/
theorem turns (h : Ready c N db A (l ++ m)) (hl : Turns l A B) : Ready c N (play c db l) B m := by
  induction hl generalizing db with
  | nil A => exact h
  | enter _ ih => exact ih h.enter
  | strike _ ih => exact ih h.strike

/-- A node that is not entered again is killed, and the nodes below it stay. -/
theorem kills (h : Ready c N db (own c t + F) (GenericTrieDB.kills c t ++ m)) :
    Ready c N (play c db (GenericTrieDB.kills c t)) (kids c t + F) m := by
  rw [own, add_assoc] at h
  exact h.turns (turns_kills c t _)

theorem saves (h : Ready c N db A (GenericTrieDB.saves c t ++ m)) :
    Ready c N (play c db (GenericTrieDB.saves c t)) (stored c t + A) m :=
  h.turns (turns_saves c t _)

theorem node_own (h : Ready c N db (own c t + F) l) (hlen : ¬(encode c t).length < 32) :
    node db (c.sha3 (encode c t)) = encode c t :=
  node_of_holds (h.holds.mono (Multiset.le_add_right _ _)) hlen

end Ready

end

/-! ## New nodes -/

section

open Patricia (lead fork)

variable {δ : Type} [NodeDB δ] {c : Crypto} {db : δ} {t : Trie} {s : NibbleSlice} {p q w k : List (Fin 16)}
  {a b : Fin 16} {v x e : Bytes} {leaf : Bool} {n : ℕ}

theorem killNode_null (db : δ) (h : H256) : killNode db ⟨RLPNull⟩ h = db := rfl

theorem place_empty (hs : s.Spells w) (hw : w.length + 1 < 2 ^ 31) :
    place c db ⟨RLPNull⟩ s v = .ok (encode c (.leaf w v), db) := by
  unfold place
  rw [killNode_null, hexPrefix_whole hs hw true]
  rfl

theorem place_leaf (ht : Fits (.leaf p x)) :
    place c db ⟨encode c (.leaf p x)⟩ s v = .ok (encode c (.leaf p v), play c db (kills c (.leaf p x))) := by
  have hpair : Paired p (encodeBytes x) := paired_leaf ht
  have hkill := @killNode_encode δ _ c db (.leaf p x)
  unfold place
  rw [hkill, encode, hpair.isEmpty, hpair.nodeSize, hpair.get_zero]
  rfl

/-- What a pair leads to: a value, or a branch. -/
inductive Stem (c : Crypto) : Trie → Bool → Bytes → Prop
  | leaf (x : Bytes) : Stem c (.leaf [] x) true (encodeBytes x)
  | ext (ch : Fin 16 → Trie) : Stem c (.branch ch) false (refer c (encode c (.branch ch)))

namespace Stem

variable (h : Stem c t leaf e)

include h

theorem encode_lead (hp : p ≠ [] ∨ leaf = true) : encode c (lead p t) = pair p leaf e := by
  cases h with
  | leaf x => rw [lead, List.append_nil]; rfl
  | ext ch =>
    rw [Patricia.lead_of_isBranch rfl (by simpa using hp)]
    rfl

theorem isEmpty_eq : t.isEmpty = false := by
  cases h <;> rfl

theorem isBranch_eq : t.isBranch = !leaf := by
  cases h <;> rfl

theorem paired (ht : t.Canonical) (hfits : Fits (lead p t)) : Paired p e := by
  have hp := Canonical.path_lt ht h.isEmpty_eq hfits
  cases h with
  | leaf x =>
    rw [lead, List.append_nil] at hfits
    exact paired_leaf hfits
  | ext ch => exact paired_refer hp (isItem_encode c ht hfits.of_lead)

theorem kids_lead (hp : p ≠ []) : kids c (lead p t) = if leaf = true then 0 else own c t := by
  cases h with
  | leaf x => rfl
  | ext ch =>
    rw [Patricia.lead_of_isBranch rfl hp]
    rfl

theorem kids_lead_drop (u : List (Fin 16)) (a : Fin 16) (q : List (Fin 16)) :
    kids c (lead (a :: q) t) = kids c (lead (u ++ a :: q) t) := by
  rw [h.kids_lead (List.cons_ne_nil a q), h.kids_lead (by simp)]

/-- The path is cut after so many nibbles, and the rest of it is a node. -/
theorem cleve_eq (ht : t.Canonical) (hfits : Fits (lead (p ++ a :: q) t)) (hp : p ≠ []) (db : δ) :
    cleve c db ⟨encode c (lead (p ++ a :: q) t)⟩ p.length =
      .ok (pair p false (refer c (encode c (lead (a :: q) t))),
        play c db (kills c (lead (p ++ a :: q) t) ++ saves c (lead (a :: q) t))) := by
  have hpair := h.paired ht hfits
  have hpath := hpair.path
  have hlen : p.length + 1 ≤ (p ++ a :: q).length := by
    rw [List.length_append, List.length_cons]
    omega
  have hpos : p.length ≠ 0 := fun h0 => hp (List.length_eq_zero_iff.1 h0)
  have hkill := @killNode_encode δ _ c db (lead (p ++ a :: q) t)
  have hsave := @streamNode_encode δ _ c (play c db (kills c (lead (p ++ a :: q) t))) (lead (a :: q) t)
  rw [h.encode_lead (.inl (List.cons_ne_nil a q))] at hsave
  rw [h.encode_lead (.inl (by simp))] at hkill ⊢
  obtain ⟨s, hkey, hs⟩ := hpair.keyOfItem leaf
  unfold cleve
  rw [hkill]
  dsimp only
  rw [hpair.isList, hpair.itemCount, hpair.isLeaf, hkey, hpair.get_one]
  simp only [ok_bind, hs.size_eq, hexPrefix_drop hs hpath leaf (show p.length ≤ _ by omega),
    hexPrefix_take hs hpath false (show p.length ≤ _ by omega)]
  have hcond : (decide (p.length ≠ 0) && decide (p.length ≤ (p ++ a :: q).length)) = true := by
    rw [Bool.and_eq_true, decide_eq_true_iff, decide_eq_true_iff]
    exact ⟨hpos, by omega⟩
  unfold pair at hsave
  rw [hcond, List.drop_left, List.take_left, hsave, h.encode_lead (.inl (List.cons_ne_nil a q)), play_append]
  rfl

/-- Below a branch for its first nibble, the rest of the path is a node; a branch that the path leads to stays. -/
theorem branch_eq (ht : t.Canonical) (hfits : Fits (lead (a :: q) t)) (db : δ) :
    branch c db ⟨encode c (lead (a :: q) t)⟩ =
      .ok (full fun i => if i = a then refer c (encode c (lead q t)) else RLPNull,
        play c db (kills c (lead (a :: q) t) ++ if q.isEmpty && t.isBranch then [] else saves c (lead q t))) := by
  have hpair := h.paired ht hfits
  have hkill := @killNode_encode δ _ c db (lead (a :: q) t)
  have hitems : ∀ n : Bytes, (List.range 16).map (fun i => if i = a.val then n else RLPNull) =
      (List.finRange 16).map fun i => if i = a then n else RLPNull := by
    intro n
    rw [← List.map_coe_finRange_eq_range, List.map_map]
    refine List.map_congr_left fun i _ => ?_
    exact if_congr Fin.val_inj rfl rfl
  have hsave := @streamNode_encode δ _ c (play c db (kills c (lead (a :: q) t))) (lead q t)
  rw [h.encode_lead (.inl (List.cons_ne_nil a q))] at hkill ⊢
  obtain ⟨s, hkey, hs⟩ := hpair.keyOfItem leaf
  have hget : s.get 0 = a.val := hs.get_eq (i := 0) (by simp)
  unfold branch
  rw [hkill]
  dsimp only
  rw [hpair.isList, hpair.itemCount, hpair.isLeaf, hkey, hpair.get_one]
  simp only [ok_bind, hs.size_eq, hget, hitems, List.length_cons]
  by_cases hq : q ≠ [] ∨ leaf = true
  · have hmid := hs.mid (n := 1) (by simp)
    have hpath := hpair.path
    rw [h.encode_lead hq] at hsave ⊢
    have hcond : (leaf || decide (q.length + 1 > 1)) = true := by
      rw [Bool.or_eq_true, decide_eq_true_iff]
      refine hq.symm.imp_right fun hne => ?_
      have := List.length_pos_iff.2 hne
      omega
    have hlog : (q.isEmpty && t.isBranch) = false := by
      rw [h.isBranch_eq]
      rcases hq with hne | rfl
      · rw [List.isEmpty_eq_false_iff.2 hne]
        rfl
      · rw [Bool.not_true, Bool.and_false]
    unfold pair at hsave
    rw [hlog, hexPrefix_whole hmid (by simp at hpath ⊢; omega) leaf, List.drop_succ_cons, List.drop_zero, hcond]
    simp only [ok_bind, hsave, play_append]
    rfl
  · rw [not_or, not_not, Bool.not_eq_true] at hq
    obtain ⟨rfl, rfl⟩ := hq
    cases h
    rw [play_append]
    rfl

end Stem

/-! ## One step of an insertion -/

theorem rlp_item (h : ∃ q, IsItem v q) : rlp v = .ok ⟨v⟩ := by
  obtain ⟨q, hq⟩ := h
  exact hq.ofBytes _

theorem Branched.items_eq {f : Fin 16 → Bytes} (h : Branched f) :
    GenericTrieDB.items ⟨full f⟩ 17 = .ok ((List.finRange 16).map f ++ [RLPNull]) := by
  have hget : ∀ i ∈ List.range 17, (do return (← (RLP.mk (full f)).get i).data : Except Exception Bytes) =
      .ok (((List.finRange 16).map f ++ [RLPNull]).getD i []) := by
    intro i hi
    rw [List.mem_range] at hi
    by_cases h16 : i < 16
    · rw [h.get ⟨i, h16⟩, List.getD_append _ _ _ _ (by simpa using h16), List.getD_eq_getElem _ _ (by simpa using h16)]
      simp only [List.getElem_map, List.getElem_finRange]
      rfl
    · obtain rfl : i = 16 := by omega
      rw [h.get_sixteen]
      rfl
  unfold GenericTrieDB.items
  rw [mapM_eq_ok hget]
  rfl

theorem set_items (f : Fin 16 → Bytes) (i : Fin 16) (n : Bytes) :
    encodeList (((List.finRange 16).map f ++ [RLPNull]).set i n) = full (Function.update f i n) := by
  unfold full
  rw [List.set_append_left _ _ (by simp)]
  congr 2
  refine List.ext_getElem (by simp) fun j h1 h2 => ?_
  simp only [List.getElem_set, List.getElem_map, List.getElem_finRange, Function.update_apply, Fin.ext_iff]
  simp [eq_comm]

/-- A child that is in the database is removable, and the others are a part of the node. -/
theorem mergeAtAux_eq (f : δ → RLP → Bool → Except Exception (Bytes × δ)) (ht : t.Canonical) (hfits : Fits t)
    (hdb : ¬(encode c t).length < 32 → node db (c.sha3 (encode c t)) = encode c t) :
    mergeAtAux c f db ⟨refer c (encode c t)⟩ =
      do let r ← f db ⟨encode c t⟩ (decide ((encode c t).length < 32)); return streamNode c r.2 r.1 := by
  have hitem := isItem_encode c ht hfits
  unfold mergeAtAux
  by_cases hlen : (encode c t).length < 32
  · have href : refer c (encode c t) = encode c t := if_pos hlen
    have hremove : (!(RLP.mk (encode c t)).isList && !(RLP.mk (encode c t)).isEmpty) = false := by
      rw [isList_encode c ht hfits, isEmpty_encode c ht hfits]
      cases t.isEmpty <;> rfl
    rw [href, decide_eq_true hlen]
    dsimp only
    rw [hremove]
    rfl
  · have href : refer c (encode c t) = encodeBytes (asBytes 32 (c.sha3 (encode c t))) := if_neg hlen
    obtain ⟨q, hq⟩ := hitem
    have hnull := hq.not_isNull []
    rw [List.append_nil] at hnull
    rw [href, decide_eq_false hlen]
    dsimp only
    rw [not_isList_hash, isEmpty_hash, toHash_refer]
    simp only [Bool.not_false, Bool.and_self, if_true, ok_bind, hdb hlen, rlp_item ⟨q, hq⟩, hnull,
      Bool.not_true]
    rfl

section

variable {f : Fin 16 → Bytes} {h : H256} {inLine : Bool} {fuel : ℕ}

theorem mergeAt_empty : mergeAt c (fuel + 1) db ⟨RLPNull⟩ h s v inLine = place c db ⟨RLPNull⟩ s v := by
  have hempty : (RLP.mk RLPNull).isEmpty = true := rfl
  rw [mergeAt, if_pos hempty]

theorem mergeAt_leaf (hpair : Paired p e) (hs : s.Spells p) :
    mergeAt c (fuel + 1) db ⟨pair p true e⟩ h s v inLine = place c db ⟨pair p true e⟩ s v := by
  obtain ⟨key, hkey, hk⟩ := hpair.keyOfItem true
  rw [mergeAt, hpair.isEmpty, hpair.nodeSize, hkey, hpair.isLeaf]
  simp only [ok_bind, (hk.eq_iff hs).2 rfl]
  rfl

theorem mergeAt_ext (hpair : Paired p e) (hs : s.Spells (p ++ w)) :
    mergeAt c (fuel + 1) db ⟨pair p false e⟩ h s v inLine =
      do
        let r ← mergeAtAux c (fun db r inLine => mergeAt c fuel db r (c.sha3 r.data) (s.mid p.length) v inLine)
          (if inLine then db else killNode db ⟨pair p false e⟩ h) ⟨e⟩
        return (pair p false r.1, r.2) := by
  obtain ⟨key, hkey, hk⟩ := hpair.keyOfItem false
  rw [mergeAt, hpair.isEmpty, hpair.nodeSize, hkey, hpair.isLeaf, hpair.get_zero, hpair.get_one]
  simp only [ok_bind, (hs.contains_iff hk).2 (List.prefix_append p w), hk.size_eq]
  simp
  rfl

theorem mergeAt_parts (hpair : Paired p e) (hs : s.Spells w) (hp : ¬p <+: w) :
    mergeAt c (fuel + 1) db ⟨pair p leaf e⟩ h s v inLine =
      (do
        let r ← (if Patricia.shared w p ≠ 0 then cleve c db ⟨pair p leaf e⟩ (Patricia.shared w p)
          else branch c db ⟨pair p leaf e⟩)
        let b ← rlp r.1
        mergeAt c fuel r.2 b (c.sha3 b.data) s v true) := by
  obtain ⟨key, hkey, hk⟩ := hpair.keyOfItem leaf
  have heq : key.eq s = false := by
    rw [← Bool.not_eq_true, hk.eq_iff hs]
    rintro rfl
    exact hp List.prefix_rfl
  have hcontains : s.contains key = false := by
    rw [← Bool.not_eq_true, hs.contains_iff hk]
    exact hp
  rw [mergeAt, hpair.isEmpty, hpair.nodeSize, hkey, hpair.isLeaf]
  simp only [ok_bind, heq, hcontains, hs.shared_eq hk]
  rfl

theorem mergeAt_full (hf : Branched f) (hs : s.Spells (a :: w)) :
    mergeAt c (fuel + 1) db ⟨full f⟩ h s v inLine =
      do
        let r ← mergeAtAux c (fun db r inLine => mergeAt c fuel db r (c.sha3 r.data) (s.mid 1) v inLine)
          (if inLine then db else killNode db ⟨full f⟩ h) ⟨f a⟩
        return (full (Function.update f a r.1), r.2) := by
  have hget : s.get 0 = a.val := hs.get_eq (i := 0) (by simp)
  rw [mergeAt, hf.isEmpty, hf.nodeSize]
  simp only [ok_bind, hs.size_eq, hget, hf.items_eq, hf.get, set_items]
  simp

end

end

/-! ## Whole insertions -/

section

open Patricia (lead fork Free)

variable {δ : Type} [NodeDB δ] {c : Crypto} {db : δ} {t : Trie} {s : NibbleSlice}
  {p q u l w k : List (Fin 16)} {a b : Fin 16} {v e : Bytes} {leaf : Bool} {h : H256} {inLine : Bool} {fuel : ℕ}

theorem encode_fork (c : Crypto) (a : Fin 16) (t : Trie) (b : Fin 16) (u : Trie) :
    encode c (fork a t b u) =
      full (Function.update (fun i => if i = a then refer c (encode c t) else RLPNull) b (refer c (encode c u))) := by
  show full _ = full _
  congr 1
  funext i
  rw [Function.update_apply]
  dsimp only
  by_cases hb : i = b
  · rw [if_pos hb, if_pos hb]
  · rw [if_neg hb, if_neg hb]
    by_cases ha : i = a
    · rw [if_pos ha, if_pos ha]
    · rw [if_neg ha, if_neg ha]
      rfl

theorem mergeAt_branched (hitem : ∃ x, IsItem (refer c (encode c t)) x) (hab : a ≠ b) (hs : s.Spells (b :: l))
    (hl : l.length + 1 < 2 ^ 31) :
    mergeAt c (fuel + 2) db ⟨full fun i => if i = a then refer c (encode c t) else RLPNull⟩ h s v true =
      .ok (encode c (fork a t b (.leaf l v)), play c db (saves c (.leaf l v))) := by
  have hbranched : Branched fun i => if i = a then refer c (encode c t) else RLPNull := by
    intro i
    dsimp only
    by_cases hi : i = a
    · rw [if_pos hi]
      exact ⟨hitem, length_refer c _⟩
    · rw [if_neg hi]
      exact ⟨⟨_, isItem_null⟩, by decide⟩
  have hnull : (if b = a then refer c (encode c t) else RLPNull) = refer c (encode c .empty) := by
    rw [if_neg (Ne.symm hab)]
    rfl
  have hmid : (s.mid 1).Spells l := hs.mid (by simp)
  have hfits : Fits (.empty : Trie) := fun k v hk => by cases hk
  have hshort : (encode c .empty).length < 32 := show RLPNull.length < 32 by decide
  rw [mergeAt_full hbranched hs, hnull, mergeAtAux_eq (t := .empty) _ trivial hfits fun hlen => absurd hshort hlen]
  rw [show encode c .empty = RLPNull from rfl, mergeAt_empty, place_empty hmid hl]
  simp only [ok_bind, pure_bind, if_true, streamNode_encode]
  rw [encode_fork]
  rfl

/-- The acts where nothing is shared. -/
theorem partLog_nil (c : Crypto) (hab : a ≠ b) (q : List (Fin 16)) (t : Trie) (l : List (Fin 16)) (v : Bytes) :
    partLog c (a :: q) t (b :: l) v = kills c (lead (a :: q) t) ++
      ((if q.isEmpty && t.isBranch then [] else saves c (lead q t)) ++ saves c (.leaf l v)) := by
  have hshared : Patricia.shared (b :: l) (a :: q) = 0 := Patricia.shared_append (s := []) hab
  unfold partLog
  rw [hshared]
  rfl

theorem partLog_append (c : Crypto) (hu : u ≠ []) (hab : a ≠ b) (q : List (Fin 16)) (t : Trie) (l : List (Fin 16))
    (v : Bytes) : partLog c (u ++ a :: q) t (u ++ b :: l) v = kills c (lead (u ++ a :: q) t) ++
      saves c (lead (a :: q) t) ++ partLog c (a :: q) t (b :: l) v ++ saves c (fork a (lead q t) b (.leaf l v)) := by
  have hpos : u.length ≠ 0 := fun h0 => hu (List.length_eq_zero_iff.1 h0)
  rw [partLog_nil c hab]
  unfold partLog
  rw [Patricia.shared_append hab, List.drop_left, List.drop_left]
  dsimp only
  rw [if_neg hpos]
  simp only [List.append_assoc]

theorem mergeAt_part_nil (hstem : Stem c t leaf e) (ht : t.Canonical) (hfits : Fits (lead (a :: q) t)) (hab : a ≠ b)
    (hs : s.Spells (b :: l)) (hl : l.length + 1 < 2 ^ 31) :
    mergeAt c (fuel + 3) db ⟨encode c (lead (a :: q) t)⟩ h s v inLine =
      .ok (encode c (fork a (lead q t) b (.leaf l v)), play c db (partLog c (a :: q) t (b :: l) v)) := by
  have hpair := hstem.paired ht hfits
  have hshared : Patricia.shared (b :: l) (a :: q) = 0 := Patricia.shared_append (s := []) hab
  have hpre : ¬a :: q <+: b :: l := fun hpre => hab (List.cons_prefix_cons.1 hpre).1
  have hrest : Fits (lead q t) := Fits.of_append (p := [a]) hfits
  have hitem : ∃ x, IsItem (refer c (encode c (lead q t))) x :=
    isItem_refer (isItem_encode c (Patricia.canonical_lead ht) hrest)
  have hbranch := hstem.branch_eq ht hfits db
  rw [hstem.encode_lead (.inl (List.cons_ne_nil a q))] at hbranch ⊢
  rw [mergeAt_parts hpair hs hpre, hshared, if_neg (by simp), hbranch]
  simp only [ok_bind]
  rw [rlp_item (Branched.isItem fun i => ?_), ok_bind, mergeAt_branched hitem hab hs hl, partLog_nil c hab]
  · rw [← play_append, List.append_assoc]
  · by_cases hi : i = a
    · rw [if_pos hi]
      exact ⟨hitem, length_refer c _⟩
    · rw [if_neg hi]
      exact ⟨⟨_, isItem_null⟩, by decide⟩

/-- An exposed node is killed; one that is a part of its parent is not in the database. -/
theorem kill_unless (db : δ) (hin : inLine = true → (encode c t).length < 32) :
    (if inLine = true then db else killNode db ⟨encode c t⟩ (c.sha3 (encode c t))) = play c db (kills c t) := by
  cases inLine with
  | false => exact killNode_encode db t
  | true =>
    rw [kills, if_pos (hin rfl)]
    rfl

theorem encode_branch_set (c : Crypto) (ch : Fin 16 → Trie) (i : Fin 16) (t : Trie) :
    full (Function.update (fun i => refer c (encode c (ch i))) i (refer c (encode c t))) =
      encode c (.branch fun j => if j = i then t else ch j) := by
  show full _ = full _
  congr 1
  funext j
  rw [Function.update_apply]
  dsimp only
  by_cases hj : j = i
  · rw [if_pos hj, if_pos hj]
  · rw [if_neg hj, if_neg hj]

variable [LawfulNodeDB δ] {N : Set Bytes} {F : Multiset Bytes} {m : List (Act Bytes)}

/-- A word that leaves the path to a node. -/
theorem mergeAt_part (hstem : Stem c t leaf e) (ht : t.Canonical) (hfits : Fits (lead (u ++ a :: q) t)) (hab : a ≠ b)
    (hs : s.Spells (u ++ b :: l)) (hl : (u ++ b :: l).length + 1 < 2 ^ 31)
    (hdb : Ready c N db (own c (lead (u ++ a :: q) t) + F) (partLog c (u ++ a :: q) t (u ++ b :: l) v ++ m))
    (hfuel : 2 * (u ++ b :: l).length + 1 ≤ fuel) :
    mergeAt c fuel db ⟨encode c (lead (u ++ a :: q) t)⟩ h s v inLine =
      .ok (encode c (lead u (fork a (lead q t) b (.leaf l v))),
        play c db (partLog c (u ++ a :: q) t (u ++ b :: l) v)) := by
  rw [List.length_append, List.length_cons] at hl hfuel
  by_cases hu : u = []
  · subst hu
    obtain ⟨fuel, rfl⟩ := Nat.exists_eq_add_of_le' (show 3 ≤ fuel by simp at hfuel; omega)
    exact mergeAt_part_nil hstem ht hfits hab hs (by simp at hl; omega)
  · have hpos := List.length_pos_iff.2 hu
    obtain ⟨fuel, rfl⟩ := Nat.exists_eq_add_of_le' (show 5 ≤ fuel by omega)
    have hpair := hstem.paired ht hfits
    have hrest : Fits (lead (a :: q) t) := hfits.of_append
    have hcanon : (lead (a :: q) t).Canonical := Patricia.canonical_lead ht
    have hshared : Patricia.shared (u ++ b :: l) (u ++ a :: q) = u.length := Patricia.shared_append hab
    have hpre : ¬u ++ a :: q <+: u ++ b :: l := by
      rw [List.prefix_append_right_inj]
      exact fun hpre => hab (List.cons_prefix_cons.1 hpre).1
    have htop : Paired u (refer c (encode c (lead (a :: q) t))) :=
      paired_refer (by omega) (isItem_encode c hcanon hrest)
    have hmid : (s.mid u.length).Spells (b :: l) := by
      have hdrop := hs.mid (n := u.length) (by simp)
      rwa [List.drop_left] at hdrop
    have hcleve := hstem.cleve_eq ht hfits hu db
    -- the lower half of the path has just been entered, and is read again
    have hlower : ¬(encode c (lead (a :: q) t)).length < 32 →
        node (play c (play c db (kills c (lead (u ++ a :: q) t))) (saves c (lead (a :: q) t)))
          (c.sha3 (encode c (lead (a :: q) t))) = encode c (lead (a :: q) t) := by
      intro hlen
      rw [partLog_append c hu hab, List.append_assoc, List.append_assoc, List.append_assoc] at hdb
      have hsaved := hdb.kills.saves
      rw [← hstem.kids_lead_drop u a q, ← add_assoc] at hsaved
      exact hsaved.node_own hlen
    rw [hstem.encode_lead (.inl (by simp))] at hcleve ⊢
    rw [mergeAt_parts hpair hs hpre, hshared, if_pos hpos.ne', hcleve]
    simp only [ok_bind]
    rw [rlp_item (htop.isItem false), ok_bind, mergeAt_ext htop hs, if_pos rfl, play_append,
      mergeAtAux_eq _ hcanon hrest hlower, mergeAt_part_nil hstem ht hrest hab hmid (by omega)]
    simp only [ok_bind, pure_bind, streamNode_encode, partLog_append c hu hab, play_append]
    rw [Patricia.lead_of_isBranch rfl hu]
    rfl

/-- A word that is not behind a path parts from it, as no word is a prefix of another. -/
theorem mergeAt_free (hstem : Stem c t leaf e) (ht : t.Canonical) (hfits : Fits (lead p t)) (hk : Free (lead p t) k)
    (hp : ¬p <+: k) (hs : s.Spells k) (hlen : k.length + 1 < 2 ^ 31)
    (hdb : Ready c N db (own c (lead p t) + F) (partLog c p t k v ++ m)) (hfuel : 2 * k.length + 1 ≤ fuel) :
    mergeAt c fuel db ⟨encode c (lead p t)⟩ h s v inLine =
      .ok (encode c (Patricia.part p t k v), play c db (partLog c p t k v)) := by
  obtain ⟨u, a, q, b, l, rfl, rfl, hab, -⟩ := Patricia.exists_part (hk.not_prefix ht hstem.isEmpty_eq hp) hp
  rw [Patricia.part_eq hab]
  exact mergeAt_part hstem ht hfits hab hs hlen hdb hfuel

/-- An insertion gives the bytes of the trie with the word, and does the acts that are known for it. -/
theorem mergeAt_eq (ht : t.Canonical) (hfits : Fits t) (hk : Free t k) (hs : s.Spells k)
    (hlen : k.length + 1 < 2 ^ 31) (hdb : Ready c N db (own c t + F) (mergeLog c t k v ++ m))
    (hin : inLine = true → (encode c t).length < 32) (hfuel : 2 * k.length + 1 ≤ fuel) :
    mergeAt c fuel db ⟨encode c t⟩ (c.sha3 (encode c t)) s v inLine =
      .ok (encode c (t.insert k v), play c db (mergeLog c t k v)) := by
  induction t generalizing db s k F m inLine fuel with
  | empty =>
    obtain ⟨fuel, rfl⟩ := Nat.exists_eq_add_of_le' (show 1 ≤ fuel by omega)
    exact mergeAt_empty.trans (place_empty hs hlen)
  | leaf p x =>
    rw [mergeLog] at hdb
    rw [Patricia.insert, mergeLog]
    by_cases hp : k = p
    · subst hp
      obtain ⟨fuel, rfl⟩ := Nat.exists_eq_add_of_le' (show 1 ≤ fuel by omega)
      rw [if_pos rfl, if_pos rfl]
      exact (mergeAt_leaf (paired_leaf hfits) hs).trans (place_leaf hfits)
    · rw [if_neg hp] at hdb
      rw [if_neg hp, if_neg hp]
      have hlead : lead p (.leaf [] x) = Patricia.leaf p x := by rw [lead, List.append_nil]
      have hpre : ¬p <+: k := fun h => hp (hk p x (if_pos rfl) (.inr h)).symm
      rw [← hlead] at hfits hk hdb ⊢
      exact mergeAt_free (.leaf x) trivial hfits hk hpre hs hlen hdb hfuel
  | ext p t ih =>
    rw [mergeLog] at hdb
    rw [Patricia.insert, mergeLog]
    by_cases hp : p <+: k
    · obtain ⟨k, rfl⟩ := hp
      rw [if_pos (List.prefix_append ..), List.drop_left, List.append_assoc, List.append_assoc] at hdb
      rw [if_pos (List.prefix_append ..), if_pos (List.prefix_append ..), List.drop_left]
      have hpair : Paired p (refer c (encode c t)) := paired_ext c ht hfits
      have hkilled := hdb.kills
      have hpos := List.length_pos_iff.2 ht.1
      rw [List.length_append] at hlen hfuel
      obtain ⟨fuel, rfl⟩ := Nat.exists_eq_add_of_le' (show 1 ≤ fuel by omega)
      have hmid : (s.mid p.length).Spells k := by
        have hdrop := hs.mid (n := p.length) (by simp)
        rwa [List.drop_left] at hdrop
      have hchild : Free t k := Free.of_append (p := p) (by rwa [Patricia.lead_of_isBranch ht.2.1 ht.1])
      have hkill := kill_unless db hin
      rw [encode] at hkill ⊢
      rw [mergeAt_ext hpair hs, hkill, mergeAtAux_eq _ ht.2.2 hfits.ext hkilled.node_own,
        ih ht.2.2 hfits.ext hchild hmid (by omega) hkilled of_decide_eq_true (by omega)]
      simp only [ok_bind, pure_bind, streamNode_encode, play_append]
      rfl
    · rw [if_neg hp] at hdb
      rw [if_neg hp, if_neg hp]
      have hlead : lead p t = Patricia.ext p t := Patricia.lead_of_isBranch ht.2.1 ht.1
      rw [← hlead] at hfits hk hdb ⊢
      cases t with
      | branch ch => exact mergeAt_free (.ext ch) ht.2.2 hfits hk hp hs hlen hdb hfuel
      | _ => cases ht.2.1
  | branch ch ih =>
    cases k with
    | nil => exact absurd hk (Patricia.not_free_nil ht)
    | cons i k =>
      have hbranch : Branched fun i => refer c (encode c (ch i)) := branched c ht hfits
      rw [mergeLog, List.append_assoc, List.append_assoc] at hdb
      have hkilled := hdb.kills
      rw [kids_branch c ch i, add_assoc] at hkilled
      rw [List.length_cons] at hlen hfuel
      obtain ⟨fuel, rfl⟩ := Nat.exists_eq_add_of_le' (show 1 ≤ fuel by omega)
      have hmid : (s.mid 1).Spells k := hs.mid (by simp)
      have hkill := kill_unless db hin
      have hset := encode_branch_set c ch i ((ch i).insert k v)
      rw [encode] at hkill ⊢
      rw [mergeAt_full hbranch hs, hkill,
        mergeAtAux_eq _ (ht.2 i) (hfits.child i) hkilled.node_own,
        ih i (ht.2 i) (hfits.child i) hk.child hmid (by omega) hkilled of_decide_eq_true (by omega)]
      simp only [ok_bind, pure_bind, streamNode_encode, hset, Patricia.insert, mergeLog, play_append]
      rfl

end

/-! ## The tally of an insertion -/

section

open Patricia (lead fork Free)

variable {c : Crypto} {t u : Trie} {ch : Fin 16 → Trie} {p q k l : List (Fin 16)} {a b i : Fin 16} {v e : Bytes}
  {leaf : Bool} {A : Multiset Bytes}

namespace Stem

variable (h : Stem c t leaf e)

include h

theorem turns_rest (a : Fin 16) (q : List (Fin 16)) :
    Turns (if q.isEmpty && t.isBranch then [] else saves c (lead q t)) (kids c (lead (a :: q) t))
      (own c (lead q t)) := by
  have hsave := turns_saves c (lead q t) (kids c (lead (a :: q) t))
  rw [h.kids_lead (List.cons_ne_nil a q)] at hsave ⊢
  rw [h.isBranch_eq]
  by_cases hq : q = []
  · subst hq
    cases h with
    | leaf x => exact hsave
    | ext ch => exact .nil _
  · have hcond : (q.isEmpty && !leaf) = false := by
      rw [List.isEmpty_eq_false_iff.2 hq]
      rfl
    rw [hcond]
    rw [← h.kids_lead hq] at hsave ⊢
    exact hsave

/-- What parts at the first nibble. -/
theorem turns_part_nil (hab : a ≠ b) (q l : List (Fin 16)) (v : Bytes) :
    Turns (partLog c (a :: q) t (b :: l) v) (own c (lead (a :: q) t))
      (kids c (fork a (lead q t) b (.leaf l v))) := by
  rw [partLog_nil c hab, kids_fork c hab, add_comm (own c (lead q t)), own_leaf]
  exact (turns_kills c _ _).append ((h.turns_rest a q).append (turns_saves c _ _))

theorem turns_part (hab : a ≠ b) (u q l : List (Fin 16)) (v : Bytes) :
    Turns (partLog c (u ++ a :: q) t (u ++ b :: l) v) (own c (lead (u ++ a :: q) t))
      (kids c (lead u (fork a (lead q t) b (.leaf l v)))) := by
  by_cases hu : u = []
  · subst hu
    exact h.turns_part_nil hab q l v
  · have hkids : kids c (lead (u ++ a :: q) t) = kids c (lead (a :: q) t) := (h.kids_lead_drop u a q).symm
    rw [partLog_append c hu hab, Patricia.lead_of_isBranch rfl hu, kids_ext]
    have hcleve : Turns (kills c (lead (u ++ a :: q) t) ++ saves c (lead (a :: q) t)) (own c (lead (u ++ a :: q) t))
        (own c (lead (a :: q) t)) := by
      have hkill := turns_kills c (lead (u ++ a :: q) t) (kids c (lead (u ++ a :: q) t))
      rw [hkids] at hkill
      unfold own
      rw [hkids]
      exact hkill.append (turns_saves c _ _)
    exact (hcleve.append (h.turns_part_nil hab q l v)).append (turns_saves c _ _)

end Stem

/-- An insertion enters what the new trie refers to and strikes what the old one did. -/
theorem turns_mergeLog (ht : t.Canonical) (hk : Free t k) (v : Bytes) :
    Turns (mergeLog c t k v) (own c t) (kids c (t.insert k v)) := by
  have hparts : ∀ {t : Trie} {leaf : Bool} {e : Bytes} {p k : List (Fin 16)}, Stem c t leaf e → t.Canonical →
      Free (lead p t) k → ¬p <+: k → Turns (partLog c p t k v) (own c (lead p t)) (kids c (Patricia.part p t k v)) := by
    intro t leaf e p k hstem ht hk hp
    obtain ⟨u, a, q, b, l, rfl, rfl, hab, -⟩ := Patricia.exists_part (hk.not_prefix ht hstem.isEmpty_eq hp) hp
    rw [Patricia.part_eq hab]
    exact hstem.turns_part hab u q l v
  induction t generalizing k with
  | empty => exact .nil _
  | leaf p x =>
    rw [Patricia.insert, mergeLog]
    by_cases hp : k = p
    · rw [if_pos hp, if_pos hp]
      exact turns_kills c _ _
    · rw [if_neg hp, if_neg hp]
      have hlead : lead p (.leaf [] x) = Patricia.leaf p x := by rw [lead, List.append_nil]
      have hpre : ¬p <+: k := fun h => hp (hk p x (if_pos rfl) (.inr h)).symm
      rw [← hlead] at hk ⊢
      exact hparts (.leaf x) trivial hk hpre
  | ext p t ih =>
    rw [Patricia.insert, mergeLog]
    have hlead : lead p t = Patricia.ext p t := Patricia.lead_of_isBranch ht.2.1 ht.1
    by_cases hp : p <+: k
    · obtain ⟨k, rfl⟩ := hp
      rw [if_pos (List.prefix_append ..), if_pos (List.prefix_append ..), List.drop_left]
      rw [← hlead] at hk
      exact ((turns_kills c _ _).append (ih ht.2.2 hk.of_append)).append (turns_saves c _ _)
    · rw [if_neg hp, if_neg hp]
      rw [← hlead] at hk ⊢
      cases t with
      | branch ch => exact hparts (.ext ch) ht.2.2 hk hp
      | _ => cases ht.2.1
  | branch ch ih =>
    cases k with
    | nil => exact absurd hk (Patricia.not_free_nil ht)
    | cons i k =>
      rw [Patricia.insert, mergeLog, kids_branch_set, own, kids_branch c ch i]
      have hchild := ((ih i (ht.2 i) hk.child).append (turns_saves c ((ch i).insert k v) _)).frame (others c ch i)
      rw [List.append_assoc]
      exact (turns_kills c _ _).append hchild

end

end GenericTrieDB

end Petrachor
