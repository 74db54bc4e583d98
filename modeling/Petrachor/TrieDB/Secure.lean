import Petrachor.OverlayDB
import Petrachor.TrieDB.Lax
import Petrachor.TrieDB.LowerBound

/-!
# Tries of hashed keys

The entries of a secure trie stand under the hashes of their keys, and the database is told the key of each hash. So
keys of any kind will do, as long as no two of them have one hash, and a loop over the entries comes by them in the
order of the hashes and finds the keys again.
-/

namespace Petrachor

open RLPStream Tally

/-- The keys of hashes. -/
class AuxDB (δ : Type) where
  insertAux : δ → H256 → Bytes → δ
  lookupAux : δ → H256 → Bytes

instance : AuxDB MemoryDB := ⟨MemoryDB.insertAux, MemoryDB.lookupAux⟩

def LevelOverlayDB.insertAux (db : LevelOverlayDB) (h : H256) (v : Bytes) : LevelOverlayDB :=
  { db with toMemoryDB := db.toMemoryDB.insertAux h v }

instance : AuxDB LevelOverlayDB := ⟨LevelOverlayDB.insertAux, LevelOverlayDB.lookupAux⟩

/-- Keys and nodes do not touch each other. -/
class LawfulAuxDB (δ : Type) [NodeDB δ] [GenericTrieDB.LaxNodeDB δ] [AuxDB δ] where
  keeps_insertAux : ∀ {db : δ} {A n} h v, GenericTrieDB.LawfulNodeDB.Keeps db A n →
    GenericTrieDB.LawfulNodeDB.Keeps (AuxDB.insertAux db h v) A n
  lax_insertAux : ∀ {db : δ} h v, GenericTrieDB.LaxNodeDB.Lax db → GenericTrieDB.LaxNodeDB.Lax (AuxDB.insertAux db h v)
  lookup_insertAux : ∀ (db : δ) h v h', NodeDB.lookup (AuxDB.insertAux db h v) h' = NodeDB.lookup db h'
  exists_insertAux : ∀ (db : δ) h v h', NodeDB.exists (AuxDB.insertAux db h v) h' = NodeDB.exists db h'
  lookupAux_insertAux : ∀ (db : δ) h {v}, v ≠ [] → AuxDB.lookupAux (AuxDB.insertAux db h v) h = v
  lookupAux_insertAux_ne : ∀ (db : δ) {h h'} v, h' ≠ h →
    AuxDB.lookupAux (AuxDB.insertAux db h v) h' = AuxDB.lookupAux db h'
  lookupAux_insert : ∀ (db : δ) h b h', AuxDB.lookupAux (NodeDB.insert db h b) h' = AuxDB.lookupAux db h'
  lookupAux_kill : ∀ (db : δ) h h', AuxDB.lookupAux (NodeDB.kill db h) h' = AuxDB.lookupAux db h'

namespace MemoryDB

variable {h h' : H256} {v : Bytes}

theorem lookupAux_insertAux (db : MemoryDB) (h : H256) (v : Bytes) : (db.insertAux h v).lookupAux h = v := by
  unfold lookupAux insertAux
  dsimp only
  rw [AList.lookup_insert]
  dsimp only
  rw [Bool.or_true, if_pos rfl]

theorem lookupAux_insertAux_ne (db : MemoryDB) (v : Bytes) (hne : h' ≠ h) :
    (db.insertAux h v).lookupAux h' = db.lookupAux h' := by
  unfold lookupAux insertAux
  dsimp only
  rw [AList.lookup_insert_ne hne]

theorem lookupAux_congr {db db' : MemoryDB} (ha : db'.m_aux = db.m_aux) (he : db'.m_enforceRefs = db.m_enforceRefs)
    (h : H256) : db'.lookupAux h = db.lookupAux h := by
  unfold lookupAux
  rw [ha, he]

theorem lookupAux_insert (db : MemoryDB) (h : H256) (b : Bytes) (h' : H256) :
    (db.insert h b).lookupAux h' = db.lookupAux h' := by
  refine lookupAux_congr ?_ (m_enforceRefs_insert db h b) h'
  unfold insert
  split <;> rfl

theorem lookupAux_kill (db : MemoryDB) (h h' : H256) : (db.kill h).2.lookupAux h' = db.lookupAux h' := by
  refine lookupAux_congr ?_ (m_enforceRefs_kill db h) h'
  unfold kill
  split <;> rfl

instance : LawfulAuxDB MemoryDB where
  keeps_insertAux _ _ hk := ⟨hk.cell, hk.refs, hk.room⟩
  lax_insertAux _ _ hlax := hlax
  lookup_insertAux _ _ _ _ := rfl
  exists_insertAux _ _ _ _ := rfl
  lookupAux_insertAux db h _ _ := lookupAux_insertAux db h _
  lookupAux_insertAux_ne db _ _ v hne := lookupAux_insertAux_ne db v hne
  lookupAux_insert := lookupAux_insert
  lookupAux_kill := lookupAux_kill

end MemoryDB

namespace LevelOverlayDB

theorem Keeps.insertAux {db : LevelOverlayDB} {A : Multiset (H256 × Bytes)} {n : ℕ} (hk : db.Keeps A n) (h : H256)
    (v : Bytes) : (db.insertAux h v).Keeps A n :=
  ⟨hk.room, fun h' => @kept_congr db _ _ _ h' rfl rfl (hk.kept h') (fun _ _ => Iff.rfl) rfl⟩

theorem lookupAux_insertAux (db : LevelOverlayDB) (h : H256) {v : Bytes} (hv : v ≠ []) :
    (db.insertAux h v).lookupAux h = v := by
  have hmem : (db.insertAux h v).toMemoryDB.lookupAux h = v := MemoryDB.lookupAux_insertAux db.toMemoryDB h v
  unfold LevelOverlayDB.lookupAux
  dsimp only
  rw [hmem, if_neg hv]

theorem lookupAux_of_memory {db db' : LevelOverlayDB} {h : H256}
    (hm : db'.toMemoryDB.lookupAux h = db.toMemoryDB.lookupAux h) (hd : db'.m_db = db.m_db) :
    db'.lookupAux h = db.lookupAux h := by
  unfold LevelOverlayDB.lookupAux get
  rw [hm, hd]

instance : LawfulAuxDB LevelOverlayDB where
  keeps_insertAux h v hk := hk.insertAux h v
  lax_insertAux _ _ hlax := hlax
  lookup_insertAux _ _ _ _ := rfl
  exists_insertAux _ _ _ _ := rfl
  lookupAux_insertAux db h _ hv := lookupAux_insertAux db h hv
  lookupAux_insertAux_ne db _ _ v hne := lookupAux_of_memory (MemoryDB.lookupAux_insertAux_ne db.toMemoryDB v hne) rfl
  lookupAux_insert db h b h' := lookupAux_of_memory (MemoryDB.lookupAux_insert db.toMemoryDB h b h') rfl
  lookupAux_kill db h h' := lookupAux_of_memory (MemoryDB.lookupAux_kill db.toMemoryDB h h') rfl

end LevelOverlayDB

/-! ## The tries -/

namespace FatGenericTrieDB

open GenericTrieDB

section

variable (c : Crypto) {δ : Type} [NodeDB δ] [AuxDB δ] (g : GenericTrieDB δ)

/-- The bytes under which the entry of a key stands. -/
def hashedKey (key : Bytes) : Bytes := asBytes 32 (c.sha3 key)

def «at» (key : Bytes) : Except Exception Bytes := g.at (hashedKey c key)

def contains (key : Bytes) : Except Exception Bool := do return !(← FatGenericTrieDB.at c g key).isEmpty

def insert (key value : Bytes) : Except Exception (GenericTrieDB δ) := do
  let g ← GenericTrieDB.insert c g (hashedKey c key) value
  return { g with m_db := AuxDB.insertAux g.m_db (c.sha3 key) key }

def remove (key : Bytes) : Except Exception (GenericTrieDB δ) := GenericTrieDB.remove c g (hashedKey c key)

/-- What a loop with a hashed iterator comes by: the hash of a key, the key, and the value. -/
def hashedList (fuel : ℕ) : Except Exception (List (Bytes × Bytes × Bytes)) := do
  let es ← begin g fuel >>= fun it => it.toList fuel fuel
  return es.map fun e => (e.1, AuxDB.lookupAux g.m_db (ofBytes 32 e.1), e.2)

def step : Op → Except Exception (GenericTrieDB δ)
  | .insert key value => insert c g key value
  | .remove key => remove c g key

/-- The operation on the entries under the hashes. -/
def hashedOp : Op → Op
  | .insert key value => .insert (hashedKey c key) value
  | .remove key => .remove (hashedKey c key)

end

/-- The operations of a run on the entries under the hashes. -/
def hashedOps (c : Crypto) (ops : List Op) : List Op := ops.map (hashedOp c)

/-! ## Hashed keys -/

section

variable {c : Crypto} {K : Set Bytes} {key : Bytes} {t : Trie} {f : Bytes → Option Bytes} {op : Op}

@[simp] theorem length_hashedKey (c : Crypto) (key : Bytes) : (hashedKey c key).length = 32 := length_toBigEndian _ _

theorem ofBytes_hashedKey (c : Crypto) (key : Bytes) : ofBytes 32 (hashedKey c key) = c.sha3 key :=
  ofBytes_asBytes (n := 32) (c.sha3 key)

theorem hashedKey_inj {k l : Bytes} : hashedKey c k = hashedKey c l ↔ c.sha3 k = c.sha3 l := by
  refine ⟨fun h => ?_, congrArg (asBytes 32)⟩
  rw [← ofBytes_hashedKey, h, ofBytes_hashedKey]

-- its bytes are never computed in proofs
attribute [irreducible] hashedKey

/-- Hashes are no prefixes of each other. -/
theorem keySet_hashed (c : Crypto) (K : Set Bytes) : KeySet (hashedKey c '' K) where
  free := by
    rintro _ ⟨k, -, rfl⟩ _ ⟨l, -, rfl⟩ hpre
    exact hpre.eq_of_length (by rw [length_hashedKey, length_hashedKey])
  short := by
    rintro _ ⟨k, -, rfl⟩
    exact (length_hashedKey c k).trans_lt (by norm_num)

/-- The trie has the entries of the map under the hashes of the keys. -/
structure Lists (c : Crypto) (K : Set Bytes) (t : Trie) (f : Bytes → Option Bytes) : Prop where
  canonical : t.Canonical
  words : ∀ w v, t.find w = some v → ∃ key ∈ K, w = word (hashedKey c key) ∧ v.length < 2 ^ 62
  find : ∀ key ∈ K, t.find (word (hashedKey c key)) = f key

namespace Lists

theorem shows (h : Lists c K t f) : Shows (hashedKey c '' K) t fun place => t.find (word place) where
  canonical := h.canonical
  words w v hw := by
    obtain ⟨key, hkey, rfl, hv⟩ := h.words w v hw
    exact ⟨hashedKey c key, Set.mem_image_of_mem _ hkey, rfl, hv⟩
  find _ := rfl

theorem empty (c : Crypto) (K : Set Bytes) : Lists c K .empty fun _ => none := by
  refine ⟨trivial, fun w v h => ?_, fun _ _ => rfl⟩
  cases h

theorem valid_hashedOp (hop : op.Valid K) : (hashedOp c op).Valid (hashedKey c '' K) := by
  cases op with
  | insert key v => exact ⟨⟨key, hop.1, rfl⟩, hop.2⟩
  | remove key => exact ⟨key, hop, rfl⟩

/-- As long as no two keys have one hash, an operation changes the entry of its key and no other one. -/
theorem step (hinj : K.InjOn c.sha3) (h : Lists c K t f) (hop : op.Valid K) :
    Lists c K ((hashedOp c op).after t) (op.entries f) := by
  have hshows := h.shows.step (keySet_hashed c K) (valid_hashedOp hop)
  refine ⟨hshows.canonical, fun w v hw => ?_, fun key hkey => ?_⟩
  · obtain ⟨_, ⟨key, hkey, rfl⟩, rfl, hv⟩ := hshows.words w v hw
    exact ⟨key, hkey, rfl, hv⟩
  · rw [hshows.find]
    have hplace : ∀ l ∈ K, hashedKey c key = hashedKey c l ↔ key = l := fun l hl => by
      rw [hashedKey_inj]
      exact hinj.eq_iff hkey hl
    cases op with
    | insert l v =>
      rw [Op.entries, hashedOp, Op.entries, Function.update_apply, Function.update_apply, h.find key hkey]
      exact if_congr (hplace l hop.1) rfl rfl
    | remove l =>
      rw [Op.entries, hashedOp, Op.entries, Function.update_apply, Function.update_apply, h.find key hkey]
      exact if_congr (hplace l hop) rfl rfl

theorem run (hinj : K.InjOn c.sha3) (ops : List Op) (hops : ∀ op ∈ ops, op.Valid K) (h : Lists c K t f) :
    Lists c K ((hashedOps c ops).foldl Op.after t) (ops.foldl Op.entries f) := by
  induction ops generalizing t f with
  | nil => exact h
  | cons op ops ih =>
    exact ih (fun o ho => hops o (List.mem_cons_of_mem _ ho)) (h.step hinj (hops op List.mem_cons_self))

/-- A trie is determined by what it has of the keys. -/
theorem eq_of_agree {u : Trie} {f' : Bytes → Option Bytes} (h : Lists c K t f) (h' : Lists c K u f')
    (hf : ∀ key ∈ K, f key = f' key) : t = u := by
  refine h.canonical.eq_of_find h'.canonical fun w => ?_
  by_cases hw : ∃ key ∈ K, w = word (hashedKey c key)
  · obtain ⟨key, hkey, rfl⟩ := hw
    rw [h.find key hkey, h'.find key hkey, hf key hkey]
  · have hnone : ∀ {t : Trie} {f : Bytes → Option Bytes}, Lists c K t f → t.find w = none := fun h => by
      refine Option.eq_none_iff_forall_ne_some.2 fun v hv => hw ?_
      obtain ⟨key, hkey, heq, -⟩ := h.words w v hv
      exact ⟨key, hkey, heq⟩
    rw [hnone h, hnone h']

end Lists

end

/-! ## What the database knows -/

section

variable {c : Crypto} {K M N : Set Bytes} {δ : Type} [NodeDB δ] [LaxNodeDB δ] [AuxDB δ] [LawfulAuxDB δ]
  {g : GenericTrieDB δ} {db : δ} {R : Multiset Bytes} {l : List (Act Bytes)} {t : Trie} {f : Bytes → Option Bytes}
  {op : Op} {key v : Bytes}

/-- The database finds the key of a hash. -/
def Knows (c : Crypto) (db : δ) (key : Bytes) : Prop := AuxDB.lookupAux db (c.sha3 key) = key

theorem knows_play (db : δ) (l : List (Act Bytes)) : Knows c (play c db l) key ↔ Knows c db key := by
  have hlook : ∀ h, AuxDB.lookupAux (play c db l) h = AuxDB.lookupAux db h := by
    intro h
    induction l generalizing db with
    | nil => rfl
    | cons a l ih =>
      cases a with
      | enter b => exact (ih _).trans (LawfulAuxDB.lookupAux_insert db _ b h)
      | strike b => exact (ih _).trans (LawfulAuxDB.lookupAux_kill db _ h)
  unfold Knows
  rw [hlook]

theorem afloat_insertAux (h : Afloat c N g t R l) (x : H256) (v : Bytes) :
    Afloat c N { g with m_db := AuxDB.insertAux g.m_db x v } t R l := by
  obtain ⟨A, hs, hle⟩ := h.steady
  have hlook : Nulled c (AuxDB.insertAux g.m_db x v) ↔ Nulled c g.m_db := by
    unfold Nulled node
    rw [LawfulAuxDB.lookup_insertAux]
  refine ⟨h.root, ⟨A, ⟨⟨hs.apart, hs.inside, hs.entered, LawfulAuxDB.keeps_insertAux _ _ hs.keeps⟩,
    LawfulAuxDB.lax_insertAux _ _ hs.lax, hs.null, fun hexists => ?_⟩, hle⟩, fun hempty => hlook.2 (h.read hempty)⟩
  rw [LawfulAuxDB.exists_insertAux] at hexists
  exact hlook.2 (hs.honest hexists)

/-- The trie is afloat under the hashes of its keys. -/
structure Fat (c : Crypto) (K N : Set Bytes) (g : GenericTrieDB δ) (t : Trie) (f : Bytes → Option Bytes)
    (R : Multiset Bytes) (l : List (Act Bytes)) : Prop where
  lists : Lists c K t f
  afloat : Afloat c N g t R l

/-- An operation of a secure trie: what the database knew it knows, and it learns the key of a new entry. -/
theorem Fat.step (hM : M.InjOn c.sha3) (hnil : [] ∉ M) (hK : K ⊆ M)
    (h : Fat c K N g t f R ((hashedOp c op).acts c t ++ l))
    (hop : op.Valid K) (hR : RLPNull ∉ R) :
    ∃ g', FatGenericTrieDB.step c g op = .ok g' ∧ Fat c K N g' ((hashedOp c op).after t) (op.entries f) R l ∧
      (Nulled c g.m_db → Nulled c g'.m_db) ∧
      ∀ key ∈ M, Knows c g.m_db key ∨ (∃ v, op = .insert key v) → Knows c g'.m_db key := by
  obtain ⟨hstep, hafter, hnull⟩ :=
    h.afloat.step (keySet_hashed c K) h.lists.shows (Lists.valid_hashedOp hop) hR
  have hlists := h.lists.step (hM.mono hK) hop
  cases op with
  | remove key =>
    refine ⟨_, hstep, ⟨hlists, hafter⟩, hnull, fun key _ hknows => ?_⟩
    rcases hknows with hknows | ⟨v, hop⟩
    · exact (knows_play _ _).2 hknows
    · cases hop
  | insert key v =>
    refine ⟨⟨_, AuxDB.insertAux _ (c.sha3 key) key⟩, ?_, ⟨hlists, afloat_insertAux hafter _ _⟩, fun h => ?_,
      fun k hk hknows => ?_⟩
    · show FatGenericTrieDB.insert c g key v = _
      unfold FatGenericTrieDB.insert
      rw [show GenericTrieDB.insert c g (hashedKey c key) v = _ from hstep]
      rfl
    · exact (LawfulAuxDB.lookup_insertAux _ _ _ _).trans (hnull h)
    · have hkey : key ∈ M := hK hop.1
      unfold Knows
      by_cases heq : k = key
      · subst heq
        exact LawfulAuxDB.lookupAux_insertAux _ _ fun h => hnil (h ▸ hk)
      · dsimp only
        rw [LawfulAuxDB.lookupAux_insertAux_ne _ _ fun h => heq (hM hk hkey h)]
        refine (knows_play _ _).2 (hknows.resolve_right ?_)
        rintro ⟨v, hop⟩
        cases hop
        exact heq rfl

omit [AuxDB δ] [LawfulAuxDB δ] in
theorem Fat.at_eq (h : Fat c K N g t f R l) (hkey : key ∈ K) : FatGenericTrieDB.at c g key = .ok ((f key).getD []) := by
  have hlen : (hashedKey c key).length < 2 ^ 30 := (length_hashedKey c key).trans_lt (by norm_num)
  rw [← h.lists.find key hkey]
  exact h.afloat.at_eq (keySet_hashed c K) h.lists.shows hlen

omit [LawfulAuxDB δ] in
/-- A loop over a secure trie comes by its entries in the order of the hashes, and finds the keys of those that the
database knows. -/
theorem Fat.hashedList_eq (h : Fat c K N g t f R l)
    (htold : ∀ key ∈ K, f key ≠ none → Knows c g.m_db key) : ∃ es n, (∀ fuel ≥ n, hashedList g fuel = .ok es) ∧
      es.Pairwise (fun a b => a.1 < b.1) ∧
      ∀ place key v, (place, key, v) ∈ es ↔ key ∈ K ∧ place = hashedKey c key ∧ f key = some v := by
  have hK := keySet_hashed c K
  have hshows := h.lists.shows
  have hnode := h.afloat.node_eq hK hshows
  have hown := h.afloat.holds_own
  obtain ⟨es, hes, hsorted, hmem⟩ := exists_entries hshows
  refine ⟨es.map fun e => (e.1, AuxDB.lookupAux g.m_db (ofBytes 32 e.1), e.2), max (passes t) es.length + 1,
    fun fuel hfuel => ?_, List.pairwise_map.2 hsorted, fun place key v => ?_⟩
  · unfold hashedList
    rw [begin_eq hK hshows hnode hown hes (by omega) (by omega)]
    rfl
  · -- the key that the database finds is the one that is hashed
    have hfinds : ∀ k ∈ K, ∀ w, f k = some w → AuxDB.lookupAux g.m_db (ofBytes 32 (hashedKey c k)) = k := by
      intro k hk w hw
      rw [ofBytes_hashedKey]
      exact htold k hk (by rw [hw]; exact Option.some_ne_none w)
    rw [List.mem_map]
    constructor
    · rintro ⟨⟨place', v'⟩, he, heq⟩
      rw [Prod.mk.injEq, Prod.mk.injEq] at heq
      obtain ⟨rfl, hlook, rfl⟩ := heq
      have hfind := (hmem place' v').1 he
      obtain ⟨k, hk, hword, -⟩ := h.lists.words _ _ hfind
      rw [word_inj.1 hword, h.lists.find k hk] at hfind
      rw [word_inj.1 hword, hfinds k hk _ hfind] at hlook
      subst hlook
      exact ⟨hk, word_inj.1 hword, hfind⟩
    · rintro ⟨hk, rfl, hv⟩
      refine ⟨(hashedKey c key, v), (hmem _ _).2 ((h.lists.find key hk).trans hv), ?_⟩
      dsimp only
      rw [hfinds key hk v hv]

def run (c : Crypto) (g : GenericTrieDB δ) (ops : List Op) : Except Exception (GenericTrieDB δ) :=
  ops.foldlM (FatGenericTrieDB.step c) g

theorem Fat.run_eq (hM : M.InjOn c.sha3) (hnil : [] ∉ M) (hK : K ⊆ M) (hR : RLPNull ∉ R) (ops : List Op)
    (hops : ∀ op ∈ ops, op.Valid K) (h : Fat c K N g t f R (Op.allActs c t (hashedOps c ops) ++ l)) :
    ∃ g', run c g ops = .ok g' ∧ Fat c K N g' ((hashedOps c ops).foldl Op.after t) (ops.foldl Op.entries f) R l ∧
      (Nulled c g.m_db → Nulled c g'.m_db) ∧
      ∀ key ∈ M, Knows c g.m_db key ∨ (∃ v, Op.insert key v ∈ ops) → Knows c g'.m_db key := by
  induction ops generalizing g t f with
  | nil => exact ⟨g, rfl, h, id, fun key _ hknows => hknows.resolve_right fun ⟨v, hv⟩ => List.not_mem_nil hv⟩
  | cons op ops ih =>
    rw [hashedOps, List.map_cons, Op.allActs, List.append_assoc] at h
    obtain ⟨g₁, hstep, h₁, hnull₁, hknows₁⟩ := h.step hM hnil hK (hops op List.mem_cons_self) hR
    obtain ⟨g₂, hrun, h₂, hnull₂, hknows₂⟩ := ih (fun o ho => hops o (List.mem_cons_of_mem _ ho)) h₁
    refine ⟨g₂, ?_, h₂, hnull₂ ∘ hnull₁, fun key hkey hknows => hknows₂ key hkey ?_⟩
    · rw [← hrun, run, List.foldlM_cons, hstep]
      rfl
    · rcases hknows with hknows | ⟨v, hv⟩
      · exact .inl (hknows₁ key hkey (.inl hknows))
      · rcases List.mem_cons.1 hv with rfl | hv
        · exact .inl (hknows₁ key hkey (.inr ⟨v, rfl⟩))
        · exact .inr ⟨v, hv⟩

omit [NodeDB δ] [LaxNodeDB δ] [AuxDB δ] [LawfulAuxDB δ] in
/-- What is in the map after a run was there before it or was inserted. -/
theorem mem_of_entries {v : Bytes} (ops : List Op) (h : ops.foldl Op.entries f key = some v) :
    f key = some v ∨ Op.insert key v ∈ ops := by
  induction ops generalizing f with
  | nil => exact .inl h
  | cons op ops ih =>
    rcases ih h with hf | hmem
    · cases op with
      | insert k w =>
        rw [Op.entries, Function.update_apply] at hf
        split at hf
        · rename_i heq
          obtain rfl := Option.some.inj hf
          exact .inr (heq ▸ List.mem_cons_self)
        · exact .inl hf
      | remove k =>
        rw [Op.entries, Function.update_apply] at hf
        split at hf
        · cases hf
        · exact .inl hf
    · exact .inr (List.mem_cons_of_mem _ hmem)

/-- After any run of a secure trie each key has the value that the same operations leave in a map, and a loop over the
trie comes by the keys and values of the map in the order of the hashes. -/
theorem run_lists (hinj : K.InjOn c.sha3) (hnil : [] ∉ K) (ops : List Op) (hops : ∀ op ∈ ops, op.Valid K)
    (hstart : Start c db (hashedOps c ops)) (hlax : LaxNodeDB.Lax db)
    (hhonest : NodeDB.exists db c.EmptyTrie = true → Nulled c db) :
    ∃ g es n, run c (init c db) ops = .ok g ∧
      (∀ key ∈ K, FatGenericTrieDB.at c g key = .ok ((ops.foldl Op.entries (fun _ => none) key).getD [])) ∧
      (∀ key ∈ K, contains c g key = .ok !((ops.foldl Op.entries (fun _ => none) key).getD []).isEmpty) ∧
      (∀ fuel ≥ n, hashedList g fuel = .ok es) ∧ es.Pairwise (fun a b => a.1 < b.1) ∧
      ∀ place key v, (place, key, v) ∈ es ↔
        key ∈ K ∧ place = hashedKey c key ∧ ops.foldl Op.entries (fun _ => none) key = some v := by
  have hsteady : Steady c {b | .enter b ∈ runActs c (hashedOps c ops)} db 0 (runActs c (hashedOps c ops)) :=
    ⟨hstart.ready, hlax, List.mem_cons_self, hhonest⟩
  have hinit : Fat c K {b | .enter b ∈ runActs c (hashedOps c ops)} (init c db) .empty (fun _ => none) 0
      (Op.allActs c .empty (hashedOps c ops) ++ []) := by
    rw [List.append_nil]
    refine ⟨Lists.empty c K, rfl, ⟨_, hsteady.enter, ?_⟩,
      fun _ => hsteady.enter.nulled_of_mem (Multiset.mem_cons_self _ _)⟩
    exact Multiset.zero_le _
  obtain ⟨g, hrun, hg, -, hknows⟩ := hinit.run_eq hinj hnil subset_rfl (Multiset.notMem_zero _) ops hops
  obtain ⟨es, n, hlist, hsorted, hmem⟩ := hg.hashedList_eq fun key hkey hne => by
    obtain ⟨v, hv⟩ := Option.ne_none_iff_exists'.1 hne
    rcases mem_of_entries ops hv with hf | hin
    · cases hf
    · exact hknows key hkey (.inr ⟨v, hin⟩)
  refine ⟨g, es, n, hrun, fun key hkey => hg.at_eq hkey, fun key hkey => ?_, hlist, hsorted, hmem⟩
  unfold contains
  rw [hg.at_eq hkey]
  rfl

/-- One of these keys is a prefix of another one. -/
def trialHashed : List Op :=
  [.insert [1] (List.replicate 40 7), .insert [1, 2] (List.replicate 40 8), .insert [9] [], .remove [1]]

theorem run_lists_trial : ∃ g, run rolling (init rolling MemoryDB.new) trialHashed = .ok g ∧
    FatGenericTrieDB.at rolling g [1, 2] = .ok (List.replicate 40 8) ∧ FatGenericTrieDB.at rolling g [1] = .ok [] := by
  have hinj : Set.InjOn rolling.sha3 {k | k ∈ [[1], [1, 2], [9]]} :=
    show ∀ k ∈ [[1], [1, 2], [9]], ∀ l ∈ [[1], [1, 2], [9]], rolling.sha3 k = rolling.sha3 l → k = l by decide +kernel
  have hvalid : ∀ op ∈ trialHashed, op.Valid {k | k ∈ [[1], [1, 2], [9]]} := by
    unfold trialHashed
    simp [Op.Valid]
  have hstart : Start rolling MemoryDB.new (hashedOps rolling trialHashed) :=
    ⟨Act.injOn_iff.2 (by decide +kernel), MemoryDB.keeps_new (by decide +kernel)⟩
  have hnew : NodeDB.exists MemoryDB.new rolling.EmptyTrie = false := rfl
  obtain ⟨g, es, n, hrun, hat, -⟩ :=
    run_lists hinj (by simp) trialHashed hvalid hstart rfl fun h => absurd h (ne_true_of_eq_false hnew)
  exact ⟨g, hrun, hat [1, 2] (by simp), hat [1] (by simp)⟩

end

end FatGenericTrieDB

end Petrachor
