import Petrachor.RLPCanon
import Petrachor.SnapshotImporter.StateChunks
import Petrachor.TrieDB.Lax
import Petrachor.TrieDB.Root

/-!
# The tries of an import

The state trie and the storage tries are built entry by entry, in one database, and a trie that is built so has the
root of the map of its entries. Two strings are not safe in that database. The node without entries is killed by each
trie with its first entry, whoever inserted it. And the empty string, when it gets to the disk, takes the place of
whatever the disk had for its hash.
-/

namespace Petrachor

open RLPStream SortedMap Tally

namespace GenericTrieDB

/-! ## Entries under hashes -/

def hashKeys : Set Bytes := {k | k.length = 32}

theorem keySet_hashKeys : KeySet hashKeys where
  free k hk l hl hpre := by
    rw [hashKeys, Set.mem_ofPred_eq] at hk hl
    exact hpre.eq_of_length (by omega)
  short k hk := by
    rw [hashKeys, Set.mem_ofPred_eq] at hk
    omega

/-- The entries, one after the other. -/
def insertions (l : List (ℕ × Bytes)) : List Op := l.map fun e => .insert (toBigEndian 32 e.1) e.2

/-- The trie that they make. -/
def grown (l : List (ℕ × Bytes)) : Trie := (insertions l).foldl Op.after .empty

/-- A map of numbers as one of keys. -/
def byKey (m : List (ℕ × Bytes)) (key : Bytes) : Option Bytes :=
  if key.length = 32 then m.lookup (fromBigEndian key) else none

/-- The keys have 32 bytes, and lengths of values fit. -/
def FitEntries (l : List (ℕ × Bytes)) : Prop := ∀ e ∈ l, e.1 < 2 ^ 256 ∧ e.2.length < 2 ^ 62

variable {l m : List (ℕ × Bytes)} {n : ℕ} {v key : Bytes}

theorem insertions_concat (l : List (ℕ × Bytes)) (e : ℕ × Bytes) :
    insertions (l ++ [e]) = insertions l ++ [.insert (toBigEndian 32 e.1) e.2] := List.map_append

theorem grown_concat (l : List (ℕ × Bytes)) (e : ℕ × Bytes) :
    grown (l ++ [e]) = Op.after (grown l) (.insert (toBigEndian 32 e.1) e.2) := by
  unfold grown
  rw [insertions_concat, List.foldl_append]
  rfl

theorem fromBigEndian_word (hn : n < 2 ^ 256) : fromBigEndian (toBigEndian 32 n) = n := by
  rw [fromBigEndian_toBigEndian]
  exact Nat.mod_eq_of_lt (hn.trans_eq (by norm_num))

theorem byKey_word (m : List (ℕ × Bytes)) (hn : n < 2 ^ 256) : byKey m (toBigEndian 32 n) = m.lookup n := by
  unfold byKey
  rw [if_pos (length_toBigEndian _ _), fromBigEndian_word hn]

theorem byKey_set (hm : Ascending m) (hn : n < 2 ^ 256) :
    byKey (set n v m) = Function.update (byKey m) (toBigEndian 32 n) (some v) := by
  funext key
  rw [Function.update_apply]
  by_cases hlen : key.length = 32
  · have hkey : fromBigEndian key = n ↔ key = toBigEndian 32 n := by
      constructor
      · intro heq
        rw [← heq, ← hlen, toBigEndian_fromBigEndian]
      · intro heq
        rw [heq, fromBigEndian_word hn]
    unfold byKey
    rw [if_pos hlen, if_pos hlen, hm.lookup_set]
    exact if_congr hkey rfl rfl
  · have hne : key ≠ toBigEndian 32 n := fun heq => hlen (heq ▸ length_toBigEndian 32 n)
    unfold byKey
    rw [if_neg hlen, if_neg hlen, if_neg hne]

theorem valid_insertions (h : FitEntries l) : ∀ op ∈ insertions l, op.Valid hashKeys := by
  intro op hop
  obtain ⟨e, he, rfl⟩ := List.mem_map.1 hop
  exact ⟨length_toBigEndian _ _, (h e he).2⟩

theorem FitEntries.of_concat {e : ℕ × Bytes} (h : FitEntries (l ++ [e])) :
    FitEntries l ∧ e.1 < 2 ^ 256 ∧ e.2.length < 2 ^ 62 :=
  ⟨fun x hx => h x (List.mem_append_left _ hx), h e (List.mem_append_right _ (List.mem_singleton_self e))⟩

theorem FitEntries.ofList (h : FitEntries l) : FitEntries (ofList l) := fun x hx => h x (mem_of_mem_ofList hx)

/-- The trie has the entries of the map. -/
theorem shows_grown (h : FitEntries l) : Shows hashKeys (grown l) (byKey (ofList l)) := by
  induction l using List.reverseRecOn with
  | nil =>
    have hnone : byKey (SortedMap.ofList []) = fun _ => none := funext fun key => ite_self none
    rw [hnone]
    exact Shows.empty hashKeys
  | append_singleton l e ih =>
    obtain ⟨hl, hkey, hvalue⟩ := h.of_concat
    rw [grown_concat, ofList_concat, byKey_set (ascending_ofList l) hkey]
    exact (ih hl).insert keySet_hashKeys (length_toBigEndian _ _) hvalue

/-- Its root is computed from the map. -/
theorem root_grown (c : Crypto) (h : FitEntries l) : c.sha3 (encode c (grown l)) = c.trieRoot (ofList l) := by
  have hkeys : ((SortedMap.ofList l).map fun e => (toBigEndian 32 e.1, e.2)).map Prod.fst =
      ((SortedMap.ofList l).map Prod.fst).map (toBigEndian 32) := by
    rw [List.map_map, List.map_map]
    rfl
  refine root_eq_hash256 (shows_grown h) ?_ fun key v => ?_
  · rw [hkeys]
    refine List.Nodup.map_on (fun n hn k hk heq => ?_) ((ascending_ofList l).imp fun hlt => hlt.ne)
    obtain ⟨x, hx, rfl⟩ := List.mem_map.1 hn
    obtain ⟨y, hy, rfl⟩ := List.mem_map.1 hk
    rw [← fromBigEndian_word (h.ofList x hx).1, heq, fromBigEndian_word (h.ofList y hy).1]
  · rw [List.mem_map]
    constructor
    · rintro ⟨e, he, heq⟩
      obtain ⟨hkey, hvalue⟩ := Prod.mk.inj heq
      rw [← hkey, ← hvalue, byKey_word _ (h.ofList e he).1]
      exact (ascending_ofList l).lookup_eq_some_iff.2 he
    · intro hv
      unfold byKey at hv
      split at hv
      · rename_i hlen
        refine ⟨(fromBigEndian key, v), (ascending_ofList l).lookup_eq_some_iff.1 hv, ?_⟩
        rw [← hlen, toBigEndian_fromBigEndian]
      · cases hv

theorem grown_isEmpty (h : FitEntries l) (hne : l ≠ []) : (grown l).isEmpty = false := by
  rcases l.eq_nil_or_concat with rfl | ⟨l, e, rfl⟩
  · exact absurd rfl hne
  · rw [List.concat_eq_append] at h ⊢
    have hshows := shows_grown h.of_concat.1
    rw [grown_concat]
    exact (Patricia.insert_spec hshows.canonical (hshows.free keySet_hashKeys (length_toBigEndian _ _)) e.2).2.1

/-! ## Acts on other nodes -/

/-- The node without entries is neither entered nor struck, and nothing empty is entered. -/
structure Silent (l : List (Act Bytes)) : Prop where
  enter : .enter RLPNull ∉ l
  strike : .strike RLPNull ∉ l
  empty : .enter [] ∉ l

theorem Silent.nil : Silent [] := ⟨List.not_mem_nil, List.not_mem_nil, List.not_mem_nil⟩

theorem Silent.append {l m : List (Act Bytes)} (hl : Silent l) (hm : Silent m) : Silent (l ++ m) :=
  ⟨fun h => (List.mem_append.1 h).elim hl.enter hm.enter, fun h => (List.mem_append.1 h).elim hl.strike hm.strike,
    fun h => (List.mem_append.1 h).elim hl.empty hm.empty⟩

theorem Silent.tail {a : Act Bytes} {l : List (Act Bytes)} (h : Silent (a :: l)) : Silent l :=
  ⟨fun hl => h.enter (List.mem_cons_of_mem a hl), fun hl => h.strike (List.mem_cons_of_mem a hl),
    fun hl => h.empty (List.mem_cons_of_mem a hl)⟩

theorem silent_enter {b : Bytes} (hnull : b ≠ RLPNull) (hne : b ≠ []) : Silent [.enter b] :=
  ⟨fun h => hnull (Act.enter.inj (List.mem_singleton.1 h)).symm, fun h => (by cases List.mem_singleton.1 h),
    fun h => hne (Act.enter.inj (List.mem_singleton.1 h)).symm⟩

theorem silent_strike {b : Bytes} (hnull : b ≠ RLPNull) : Silent [.strike b] :=
  ⟨fun h => (by cases List.mem_singleton.1 h), fun h => hnull (Act.strike.inj (List.mem_singleton.1 h)).symm,
    fun h => (by cases List.mem_singleton.1 h)⟩

theorem ne_null_of_length {b : Bytes} (h : ¬b.length < 32) : b ≠ RLPNull ∧ b ≠ [] := by
  constructor
  · rintro rfl
    exact h (by decide)
  · rintro rfl
    exact h (by decide)

section

variable (c : Crypto) (t : Trie)

theorem silent_saves : Silent (saves c t) := by
  unfold saves
  split
  · exact .nil
  · exact silent_enter (ne_null_of_length ‹_›).1 (ne_null_of_length ‹_›).2

theorem silent_kills : Silent (kills c t) := by
  unfold kills
  split
  · exact .nil
  · exact silent_strike (ne_null_of_length ‹_›).1

theorem silent_partLog (p k : List (Fin 16)) (v : Bytes) : Silent (partLog c p t k v) := by
  unfold partLog
  split
  · dsimp only
    refine (silent_kills c _).append ?_
    have hrest : ∀ q : List (Fin 16), ∀ l : List (Fin 16), Silent
        ((if q.isEmpty && t.isBranch then [] else saves c (Patricia.lead q t)) ++ saves c (.leaf l v)) := by
      intro q l
      refine Silent.append ?_ (silent_saves c _)
      split
      · exact .nil
      · exact silent_saves c _
    split
    · exact hrest _ _
    · exact (((silent_saves c _).append (silent_kills c _)).append (hrest _ _)).append (silent_saves c _)
  · exact .nil

theorem silent_mergeLog (k : List (Fin 16)) (v : Bytes) : Silent (mergeLog c t k v) := by
  induction t generalizing k with
  | empty => exact .nil
  | leaf p w =>
    rw [mergeLog]
    split
    · exact silent_kills c _
    · exact silent_partLog c _ p k v
  | ext p t ih =>
    rw [mergeLog]
    split
    · exact ((silent_kills c _).append (ih _)).append (silent_saves c _)
    · exact silent_partLog c _ p k v
  | branch ch ih =>
    cases k with
    | nil => exact .nil
    | cons i k => exact ((silent_kills c _).append (ih i k)).append (silent_saves c _)

end

variable {c : Crypto} {K : Set Bytes} {t : Trie} {f : Bytes → Option Bytes} {ops : List Op}

theorem encode_ne_nil (h : Shows K t f) (hK : KeySet K) : encode c t ≠ [] := by
  obtain ⟨q, hq⟩ := isItem_encode c h.canonical (h.fits hK)
  exact hq.ne_nil

/-- An insertion into a trie that has entries. -/
theorem silent_insert (hK : KeySet K) (h : Shows K t f) (hne : t.isEmpty = false) (hkey : key ∈ K)
    (hv : v.length < 2 ^ 62) : Silent (Op.acts c t (.insert key v)) := by
  have hnew : (t.insert (word key) v).isEmpty = false := (Patricia.insert_spec h.canonical (h.free hK hkey) v).2.1
  have hold := encode_ne_null (c := c) h hK hne
  have hafter := encode_ne_null (c := c) (h.insert hK hkey hv) hK hnew
  have hempty := encode_ne_nil (c := c) (h.insert hK hkey hv) hK
  refine (silent_mergeLog c t _ v).append ?_
  unfold Op.reroot
  refine Silent.append ?_ (silent_enter hafter hempty)
  split
  · exact silent_strike hold
  · exact .nil

end GenericTrieDB

open GenericTrieDB LevelOverlayDB

/-- What is known of the two strings: how often the node without entries is counted in memory, if it is there, and
whether it is on the disk; whether the empty string was ever inserted, and whether that was before the last commit. -/
structure Volatile where
  count : Option ℕ
  saved : Bool
  given : Bool
  gone : Bool

namespace Volatile

def found (n : Volatile) : Bool := n.count.isSome || n.saved

/-- A commit does not lose the node. -/
def lasts (n : Volatile) : Bool := 0 < n.count.getD 0 || n.saved

def enter (n : Volatile) : Volatile := { n with count := some (n.count.getD 0 + 1) }

/-- A count that is zero stays zero. -/
def strike (n : Volatile) : Volatile := { n with count := n.count.map fun k => k - 1 }

/-- What is not counted does not get to the disk. -/
def commit (n : Volatile) : Volatile := ⟨none, n.lasts, n.given, n.given⟩

/-- An account is imported: its storage, if it has any, is opened under the root of no entries and takes its first
entry, and so does the state trie if the account is the first one. -/
def account (n : Volatile) (first stored : Bool) : Volatile :=
  let n := if stored then (if n.found then n else n.enter).strike else n
  if first then n.strike else n

/-- A code is inserted. -/
def code (n : Volatile) (code : Bytes) : Volatile :=
  if code = RLPNull then n.enter else if code = [] then { n with given := true } else n

/-- This is how it is in a database that was opened over the disk `disk`. -/
structure At (c : Crypto) (disk : Disk) (n : Volatile) (db : LevelOverlayDB) : Prop where
  memory : db.m_main.lookup c.EmptyTrie = n.count.map fun k => (RLPNull, k)
  saved : db.get (Disk.nodeKey c.EmptyTrie) = if n.saved then RLPNull else []
  empty : ∀ h e, db.m_main.lookup h = some e → e.1 = [] → h = c.sha3 [] ∧ n.given = true
  held : ∀ h, disk.get (Disk.nodeKey h) ≠ [] → db.get (Disk.nodeKey h) ≠ [] ∨ h = c.sha3 [] ∧ n.gone = true
  gone : n.gone = true → db.get (Disk.nodeKey (c.sha3 [])) = []
  since : n.gone = true → n.given = true

variable {c : Crypto} {n : Volatile} {disk : Disk} {db db' : LevelOverlayDB} {h h' : H256}
  {b : Bytes} {writes : ℕ → Bool}

theorem At.refs (hn : n.At c disk db) : db.refs c.EmptyTrie = n.count.getD 0 := by
  unfold MemoryDB.refs
  rw [hn.memory]
  cases n.count <;> rfl

theorem At.exists (hn : n.At c disk db) (hlax : db.m_enforceRefs = false) :
    NodeDB.exists db c.EmptyTrie = n.found := by
  show LevelOverlayDB.exists db c.EmptyTrie = _
  have hne : RLPNull ≠ [] := List.cons_ne_nil _ _
  unfold LevelOverlayDB.exists MemoryDB.exists found
  rw [hn.memory, hn.saved, hlax]
  cases n.count <;> cases n.saved <;> simp [hne]

theorem At.lookup (hn : n.At c disk db) (hlax : db.m_enforceRefs = false) :
    db.lookup c.EmptyTrie = if n.found then RLPNull else [] := by
  have hne : RLPNull ≠ [] := List.cons_ne_nil _ _
  unfold LevelOverlayDB.lookup MemoryDB.lookup found
  rw [hn.memory, hn.saved, hlax]
  cases n.count <;> cases n.saved <;> simp [hne]

theorem At.nulled (hn : n.At c disk db) (hlax : db.m_enforceRefs = false) (hf : n.found = true) : Nulled c db := by
  have hlookup := hn.lookup hlax
  rwa [hf, if_pos rfl] at hlookup

/-- What was on the disk when it was opened is found, but for the hash of the empty string. -/
theorem At.lookup_ne_nil (hn : n.At c disk db) (hh : disk.get (Disk.nodeKey h) ≠ [])
    (hgone : ¬(h = c.sha3 [] ∧ n.gone = true)) : db.lookup h ≠ [] := by
  have hget := (hn.held h hh).resolve_right hgone
  unfold LevelOverlayDB.lookup
  dsimp only
  split
  · exact hget
  · assumption

/-! ### Acts -/

theorem At.insert_ne (hn : n.At c disk db) (hne : c.EmptyTrie ≠ h) (hb : b ≠ []) : n.At c disk (db.insert h b) := by
  refine ⟨(MemoryDB.m_main_insert_ne db.toMemoryDB b hne).trans hn.memory, hn.saved, fun h' e he hempty => ?_, hn.held,
    hn.gone, hn.since⟩
  by_cases hh : h' = h
  · subst hh
    have hcell : (db.insert h' b).m_main.lookup h' = _ := MemoryDB.m_main_insert_self db.toMemoryDB h' b
    rw [hcell] at he
    cases he
    exact absurd hempty hb
  · exact hn.empty h' e ((MemoryDB.m_main_insert_ne db.toMemoryDB b hh).symm.trans he) hempty

theorem At.kill (hn : n.At c disk db) (e : Bytes × ℕ) (he : (db.kill h).m_main.lookup h' = some e) (hempty : e.1 = []) :
    h' = c.sha3 [] ∧ n.given = true := by
  by_cases hh : h' = h
  · subst hh
    have hcell : (db.kill h').m_main.lookup h' = _ := MemoryDB.m_main_kill_self db.toMemoryDB h'
    rw [hcell, Option.map_eq_some_iff] at he
    obtain ⟨e', he', rfl⟩ := he
    exact hn.empty h' e' he' hempty
  · exact hn.empty h' e ((MemoryDB.m_main_kill_ne db.toMemoryDB hh).symm.trans he) hempty

theorem At.kill_ne (hn : n.At c disk db) (hne : c.EmptyTrie ≠ h) : n.At c disk (db.kill h) :=
  ⟨(MemoryDB.m_main_kill_ne db.toMemoryDB hne).trans hn.memory, hn.saved, fun _ => hn.kill, hn.held, hn.gone, hn.since⟩

theorem At.enter (hn : n.At c disk db) (hroom : n.count.getD 0 + 1 < 2 ^ 32) :
    n.enter.At c disk (db.insert c.EmptyTrie RLPNull) := by
  have hcell : (db.insert c.EmptyTrie RLPNull).m_main.lookup c.EmptyTrie = _ :=
    MemoryDB.m_main_insert_self db.toMemoryDB c.EmptyTrie RLPNull
  rw [hn.refs, Nat.mod_eq_of_lt hroom] at hcell
  refine ⟨hcell, hn.saved, fun h e he hempty => ?_, hn.held, hn.gone, hn.since⟩
  by_cases hh : h = c.EmptyTrie
  · subst hh
    rw [hcell] at he
    cases he
    cases hempty
  · exact hn.empty h e ((MemoryDB.m_main_insert_ne db.toMemoryDB RLPNull hh).symm.trans he) hempty

theorem At.strike (hn : n.At c disk db) : n.strike.At c disk (db.kill c.EmptyTrie) := by
  refine ⟨(MemoryDB.m_main_kill_self db.toMemoryDB c.EmptyTrie).trans ?_, hn.saved, fun _ => hn.kill, hn.held, hn.gone,
    hn.since⟩
  rw [hn.memory]
  cases h : n.count <;> simp [Volatile.strike, h]

theorem At.give (hn : n.At c disk db) (hne : c.EmptyTrie ≠ c.sha3 []) :
    { n with given := true }.At c disk (db.insert (c.sha3 []) []) := by
  refine ⟨(MemoryDB.m_main_insert_ne db.toMemoryDB [] hne).trans hn.memory, hn.saved, fun h e he hempty => ⟨?_, rfl⟩,
    hn.held, hn.gone, fun _ => rfl⟩
  by_cases hh : h = c.sha3 []
  · exact hh
  · exact (hn.empty h e ((MemoryDB.m_main_insert_ne db.toMemoryDB [] hh).symm.trans he) hempty).1

theorem At.commit (hn : n.At c disk db) (hdisk : db.m_db.isSome) (hc : db.commit writes = some db')
    (hgiven : n.given = true → db'.onDisk (c.sha3 []) = some []) : n.commit.At c disk db' := by
  obtain ⟨d, hd⟩ := Option.isSome_iff_exists.1 hdisk
  have hold : ∀ h, db.get (Disk.nodeKey h) = (d.lookup (Disk.nodeKey h)).getD [] := by
    intro h
    unfold LevelOverlayDB.get
    rw [hd]
    rfl
  have hgone : n.given = true → db'.get (Disk.nodeKey (c.sha3 [])) = [] := by
    intro h
    rw [get_nodeKey, hgiven h]
    rfl
  unfold LevelOverlayDB.commit at hc
  rw [hd] at hc
  dsimp only at hc
  split at hc
  · obtain rfl := Option.some.inj hc
    have hnew : ∀ h, LevelOverlayDB.get { db with m_main := ∅, m_aux := ∅, m_db := some (db.batch d) }
        (Disk.nodeKey h) = ((db.batch d).lookup (Disk.nodeKey h)).getD [] := fun h => rfl
    refine ⟨AList.lookup_empty _, ?_, fun h e he => ?_, fun h hh => ?_, hgone, id⟩
    · have hsaved := hn.saved
      rw [hold] at hsaved
      rw [hnew, lookup_batch, hn.memory]
      unfold Volatile.commit lasts
      rcases n.count with _ | _ | k
      · simpa using hsaved
      · simpa using hsaved
      · simp
    · rw [show AList.lookup h (∅ : AList fun _ : H256 => Bytes × ℕ) = none from AList.lookup_empty h] at he
      cases he
    · rw [hnew, lookup_batch]
      have hheld : (d.lookup (Disk.nodeKey h)).getD [] ≠ [] ∨ h = c.sha3 [] ∧ n.given = true := by
        rw [← hold]
        exact (hn.held h hh).imp_right fun h => ⟨h.1, hn.since h.2⟩
      cases hl : db.m_main.lookup h with
      | none => exact hheld
      | some e =>
        rw [Option.elim_some]
        split
        · by_cases he : e.1 = []
          · exact .inr (hn.empty h e hl he)
          · exact .inl he
        · exact hheld
  · cases hc

end Volatile

namespace GenericTrieDB

variable {c : Crypto} {N K : Set Bytes} {n : Volatile} {disk : Disk} {db : LevelOverlayDB} {A B R : Multiset Bytes}
  {m l : List (Act Bytes)} {g : GenericTrieDB LevelOverlayDB} {t : Trie} {f : Bytes → Option Bytes}
  {key v b : Bytes} {writes : ℕ → Bool}

theorem Steady.count_lt (h : Steady c N db A (a :: l)) (hn : n.At c disk db) : n.count.getD 0 + 1 < 2 ^ 32 := by
  have hroom := h.keeps.room c.EmptyTrie
  rw [hn.refs, List.length_cons] at hroom
  omega

theorem Steady.at_play (h : Steady c N db A (m ++ l)) (hm : Turns m A B) (hs : Silent m) (hn : n.At c disk db) :
    n.At c disk (play c db m) := by
  induction hm generalizing db with
  | nil A => exact hn
  | @enter b m A B _ ih =>
    have hnull : b ≠ RLPNull := fun heq => hs.enter (heq ▸ List.mem_cons_self)
    have hne : b ≠ [] := fun heq => hs.empty (heq ▸ List.mem_cons_self)
    exact ih h.enter hs.tail (hn.insert_ne (h.sha3_ne (h.entered b List.mem_cons_self) hnull) hne)
  | @strike b m A B _ ih =>
    have hne : b ≠ RLPNull := fun heq => hs.strike (heq ▸ List.mem_cons_self)
    have hb : b ∈ N := h.inside b (Multiset.mem_cons_self _ _)
    have hstrike := h.strike hb
    rw [Multiset.erase_cons_head] at hstrike
    exact ih hstrike hs.tail (hn.kill_ne (h.sha3_ne hb hne))

/-- An insertion strikes the node without entries if the trie had none. -/
theorem Afloat.at_insert (hK : KeySet K) (h : Shows K t f) (hkey : key ∈ K) (hv : v.length < 2 ^ 62)
    (hg : Afloat c N g t R (Op.acts c t (.insert key v) ++ l)) (hn : n.At c disk g.m_db) :
    (if t.isEmpty then n.strike else n).At c disk (play c g.m_db (Op.acts c t (.insert key v))) := by
  obtain ⟨A, hs, hle⟩ := hg.steady
  cases ht : t.isEmpty with
  | false =>
    rw [need, ht, if_neg Bool.false_ne_true] at hle
    obtain ⟨F, rfl⟩ := Multiset.le_iff_exists_add.1 hle
    have hturns := (turns_acts (c := c) hK h (show (Op.insert key v).Valid K from ⟨hkey, hv⟩)).frame (R + F)
    rw [← add_assoc, ← add_assoc] at hturns
    exact hs.at_play hturns (silent_insert hK h ht hkey hv) hn
  | true =>
    cases t with
    | empty =>
      have hstrike := Steady.strike hs hs.null
      have hne : encode c (.leaf (word key) v) ≠ RLPNull :=
        encode_ne_null (h.insert hK hkey hv) hK rfl
      have hleaf := hstrike.entered (encode c (.leaf (word key) v)) List.mem_cons_self
      exact hn.strike.insert_ne (hstrike.sha3_ne hleaf hne)
        (encode_ne_nil (h.insert hK hkey hv) hK)
    | _ => cases ht

theorem Afloat.at_insertions {es : List (ℕ × Bytes)} (hes : FitEntries es) (h : Shows hashKeys t f) (hR : RLPNull ∉ R)
    (hg : Afloat c N g t R (Op.allActs c t (insertions es) ++ l)) (hn : n.At c disk g.m_db) :
    (if t.isEmpty && !es.isEmpty then n.strike else n).At c disk (play c g.m_db (Op.allActs c t (insertions es))) := by
  induction es generalizing g t f n with
  | nil =>
    rw [List.isEmpty_nil, Bool.not_true, Bool.and_false, if_neg Bool.false_ne_true]
    exact hn
  | cons e es ih =>
    obtain ⟨hkey, hvalue⟩ := hes e List.mem_cons_self
    have hmem : toBigEndian 32 e.1 ∈ hashKeys := length_toBigEndian _ _
    have hnew : (t.insert (word (toBigEndian 32 e.1)) e.2).isEmpty = false :=
      (Patricia.insert_spec h.canonical (h.free keySet_hashKeys hmem) e.2).2.1
    have hop : (Op.insert (toBigEndian 32 e.1) e.2).Valid hashKeys := ⟨hmem, hvalue⟩
    rw [insertions, List.map_cons, Op.allActs, List.append_assoc] at hg
    obtain ⟨-, hafter, -⟩ := hg.step keySet_hashKeys h hop hR
    have hinsert := hg.at_insert keySet_hashKeys h hmem hvalue hn
    have hrest := ih (fun x hx => hes x (List.mem_cons_of_mem _ hx)) (h.insert keySet_hashKeys hmem hvalue) hafter
      hinsert
    rw [hnew, Bool.false_and, if_neg Bool.false_ne_true] at hrest
    rw [List.isEmpty_cons, Bool.not_false, Bool.and_true, insertions, List.map_cons, Op.allActs, play_append]
    exact hrest

/-- What is afloat is brought to the disk by a commit. -/
theorem Afloat.commit (hg : Afloat c N g t R l) (hdisk : g.m_db.m_db.isSome) (hn : n.At c disk g.m_db)
    (htop : t.isEmpty = true → n.lasts = true) (hgiven : n.given = true → [] ∈ R)
    (hc : g.m_db.commit writes = some db) :
    Afloat c N ⟨g.m_root, db⟩ t R l ∧ n.commit.At c disk db ∧ db.m_db.isSome := by
  obtain ⟨A, hs, hle⟩ := hg.steady
  obtain ⟨hdurable, hmain, hdisk'⟩ := LevelOverlayDB.Keeps.commit hs.keeps hdisk hc
  have hn' := hn.commit hdisk hc fun h => hdurable (c.sha3 [], [])
    (mem_hashed.2 ⟨Multiset.mem_of_le hle (Multiset.mem_add.2 (.inr (hgiven h))), rfl⟩)
  have hlax : db.m_enforceRefs = false := by
    obtain ⟨d, hd⟩ := Option.isSome_iff_exists.1 hdisk
    unfold LevelOverlayDB.commit at hc
    rw [hd] at hc
    dsimp only at hc
    split at hc
    · obtain rfl := Option.some.inj hc
      exact hs.lax
    · cases hc
  have hsmall : l.length < 2 ^ 32 := by
    have hroom := hs.keeps.room c.EmptyTrie
    omega
  refine ⟨⟨hg.root, ⟨A, ⟨⟨hs.apart, hs.inside, hs.entered, hdurable.keeps hmain hsmall fun x hx => hx⟩, hlax, hs.null,
    fun hexists => hn'.nulled hlax ((hn'.exists hlax).symm.trans hexists)⟩, hle⟩, fun ht => ?_⟩, hn', hdisk'⟩
  refine hn'.nulled hlax ?_
  show (none.isSome || n.lasts) = true
  rw [htop ht, Bool.or_true]

/-- A node that is not the one without entries is kept, once it is entered. -/
theorem Afloat.enter (hg : Afloat c N g t R (.enter b :: l)) (hn : n.At c disk g.m_db) :
    Afloat c N ⟨g.m_root, g.m_db.insert (c.sha3 b) b⟩ t (R + if b = RLPNull then 0 else {b}) l ∧
      (n.code b).At c disk (g.m_db.insert (c.sha3 b) b) := by
  obtain ⟨A, hs, hle⟩ := hg.steady
  refine ⟨⟨hg.root, ⟨_, hs.enter, ?_⟩, fun ht => hs.nulled_perform (hg.read ht)⟩, ?_⟩
  · rw [← add_assoc, ← Multiset.singleton_add, add_comm {_}]
    refine add_le_add hle ?_
    split
    · exact Multiset.zero_le _
    · exact le_rfl
  · unfold Volatile.code
    by_cases hnull : b = RLPNull
    · rw [if_pos hnull, hnull]
      exact hn.enter (hs.count_lt hn)
    · have hapart := hs.sha3_ne (hs.entered b List.mem_cons_self) hnull
      rw [if_neg hnull]
      by_cases hb : b = []
      · rw [if_pos hb]
        subst hb
        exact hn.give hapart
      · rw [if_neg hb]
        exact hn.insert_ne hapart hb

theorem Afloat.lookup_eq (hg : Afloat c N g t R l) (hb : b ∈ R) (hne : b ≠ []) : g.m_db.lookup (c.sha3 b) = b := by
  obtain ⟨A, hs, hle⟩ := hg.steady
  exact hs.holds b (Multiset.mem_of_le hle (Multiset.mem_add.2 (.inr hb))) hne

/-- The empty string hides nothing but what is on the disk. -/
theorem Afloat.lookup_nil (hg : Afloat c N g t R l) (hempty : [] ∈ R)
    (hget : g.m_db.get (Disk.nodeKey (c.sha3 [])) = []) : g.m_db.lookup (c.sha3 []) = [] := by
  obtain ⟨A, hs, hle⟩ := hg.steady
  have hmem : (c.sha3 [], []) ∈ hashed c A :=
    mem_hashed.2 ⟨Multiset.mem_of_le hle (Multiset.mem_add.2 (.inr hempty)), rfl⟩
  rcases hs.keeps.kept (c.sha3 []) with ⟨b₀, hsaved⟩ | hcount
  · rw [hsaved.lookup]
    exact (hsaved.only _ hmem rfl).symm
  · obtain ⟨k, hk⟩ := hcount.cell _ hmem rfl
    have hmemory : g.m_db.toMemoryDB.lookup (c.sha3 []) = [] := by
      unfold MemoryDB.lookup
      rw [hk]
      exact ite_self []
    unfold LevelOverlayDB.lookup
    dsimp only
    rw [hmemory, if_pos rfl, hget]

/-- A trie without entries is opened. -/
theorem open_db (h : «open» c db c.EmptyTrie = .ok g) (hn : n.At c disk db)
    (hs : Steady c N db A (.enter RLPNull :: l)) :
    (if n.found then n else n.enter).At c disk g.m_db ∧ g.m_db.m_db = db.m_db := by
  rw [← eq_of_open h, hn.exists hs.lax]
  cases hf : n.found with
  | true =>
    rw [if_pos rfl, if_neg (by simp)]
    exact ⟨hn, rfl⟩
  | false =>
    rw [if_neg Bool.false_ne_true, if_pos ⟨rfl, rfl⟩]
    exact ⟨hn.enter (hs.count_lt hn), rfl⟩

end GenericTrieDB

namespace StateImporter

variable {c : Crypto} {N K : Set Bytes} {n : Volatile} {disk : Disk} {R : Multiset Bytes} {l : List (Act Bytes)}
  {g : GenericTrieDB LevelOverlayDB} {t : Trie} {f : Bytes → Option Bytes} {m : List (ℕ × Bytes)}

/-- The root of the trie that is built from the entries of a map. -/
def rootOf (c : Crypto) (m : List (ℕ × Bytes)) : H256 := c.sha3 (encode c (grown m))

def storageActs (c : Crypto) (m : List (ℕ × Bytes)) : List (Act Bytes) :=
  if m.isEmpty then [] else .enter RLPNull :: Op.allActs c .empty (insertions m)

theorem foldlM_insert (g : GenericTrieDB LevelOverlayDB) (m : List (ℕ × Bytes)) :
    m.foldlM (fun t e => GenericTrieDB.insert c t (toBigEndian 32 e.1) e.2) g = Op.run c g (insertions m) := by
  unfold Op.run insertions
  rw [List.foldlM_map]
  rfl

theorem rootOf_eq (hm : Ascending m) (hfit : FitEntries m) : rootOf c m = c.trieRoot m := by
  unfold rootOf
  rw [root_grown c hfit, hm.ofList_eq]

/-- The storage of an account is built beside the state trie. -/
theorem storageRoot_eq (hfit : FitEntries m) (hK : KeySet K) (ht : Shows K t f) (hR : RLPNull ∉ R)
    (h : Afloat c N g t R (storageActs c m ++ l)) (hn : n.At c disk g.m_db) :
    ∃ db, storageRoot c g.m_db m = .ok (rootOf c m, db) ∧ Afloat c N ⟨g.m_root, db⟩ t R l ∧
      (n.account false !m.isEmpty).At c disk db ∧ db.m_db = g.m_db.m_db := by
  unfold storageActs at h
  unfold storageRoot
  cases hempty : m.isEmpty with
  | true =>
    rw [hempty, if_pos rfl, List.nil_append] at h
    rw [if_pos rfl, List.isEmpty_iff.1 hempty]
    exact ⟨g.m_db, rfl, h, hn, rfl⟩
  | false =>
    rw [hempty, if_neg Bool.false_ne_true, List.cons_append] at h
    rw [if_neg Bool.false_ne_true]
    have hrest : RLPNull ∉ need c t + R := fun hmem =>
      (Multiset.mem_add.1 hmem).elim (null_notMem_need hK ht) hR
    obtain ⟨A, hs, hA⟩ := h.steady
    have hA' : need c .empty + (need c t + R) ≤ A := (zero_add _).trans_le hA
    obtain ⟨g₁, hopen, hg₁, hnull₁⟩ := hs.open_eq keySet_hashKeys (Shows.empty hashKeys) hA'
    obtain ⟨hn₁, hdb₁⟩ := open_db hopen hn hs
    obtain ⟨g₂, hrun, hdb₂, hg₂, hnull₂⟩ := hg₁.run keySet_hashKeys hrest _ (valid_insertions hfit)
      (Shows.empty hashKeys)
    have hn₂ := hg₁.at_insertions hfit (Shows.empty hashKeys) hrest hn₁
    have hroot : g₂.root = .ok (rootOf c m) := hg₂.root_eq keySet_hashKeys (shows_grown hfit)
    obtain ⟨A₂, hs₂, hA₂⟩ := hg₂.steady
    refine ⟨g₂.m_db, ?_, ⟨h.root, ⟨A₂, hs₂, (Multiset.le_add_left _ _).trans hA₂⟩,
      fun ht' => hnull₂ (hnull₁ (h.read ht'))⟩, ?_, ?_⟩
    · rw [show GenericTrieDB.open c g.m_db c.EmptyTrie = .ok g₁ from hopen, ok_bind, foldlM_insert, hrun, ok_bind,
        hroot]
      rfl
    · rw [hdb₂]
      rw [hempty] at hn₂
      exact hn₂
    · rw [hdb₂, m_db_play, hdb₁]

end StateImporter

end Petrachor
