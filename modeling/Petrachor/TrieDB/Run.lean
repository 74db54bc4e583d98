import Petrachor.MemoryDB
import Petrachor.TrieDB.Remove

/-!
# Runs of a trie database

A trie database that starts empty and takes insertions and removals in any order always has the entries of a plain map
under its root, as long as no key is a prefix of another one and no two nodes that are entered have the same hash.
-/

namespace Petrachor

open NibbleSlice RLPStream Tally

/-! ## Keys -/

/-- The nibbles of a key, as letters. -/
def word (key : Bytes) : List (Fin 16) :=
  key.flatMap fun x => [Fin.ofNat 16 (x.toNat / 16), Fin.ofNat 16 (x.toNat % 16)]

theorem word_cons (x : UInt8) (key : Bytes) :
    word (x :: key) = Fin.ofNat 16 (x.toNat / 16) :: Fin.ofNat 16 (x.toNat % 16) :: word key := rfl

theorem nats_word (key : Bytes) : nats (word key) = Crypto.asNibbles key := by
  induction key with
  | nil => rfl
  | cons x key ih =>
    have hx := x.toNat_lt
    rw [word_cons]
    show [x.toNat / 16 % 16, x.toNat % 16 % 16] ++ nats (word key) =
      [x.toNat / 16, x.toNat % 16] ++ Crypto.asNibbles key
    rw [ih, Nat.mod_eq_of_lt (by omega), Nat.mod_mod]

@[simp] theorem length_word (key : Bytes) : (word key).length = 2 * key.length := by
  induction key with
  | nil => rfl
  | cons x key ih =>
    rw [word_cons, List.length_cons, List.length_cons, ih, List.length_cons]
    omega

theorem isPrefix_word : ∀ {k l : Bytes}, word k <+: word l ↔ k <+: l
  | [], _ => iff_of_true List.nil_prefix List.nil_prefix
  | x :: k, [] => by
    rw [word_cons]
    simp [word]
  | x :: k, y :: l => by
    have hx := x.toNat_lt
    have hy := y.toNat_lt
    rw [word_cons, word_cons, List.cons_prefix_cons, List.cons_prefix_cons, List.cons_prefix_cons, isPrefix_word]
    rw [← and_assoc]
    refine and_congr_left fun _ => ⟨fun h => ?_, fun h => h ▸ ⟨rfl, rfl⟩⟩
    have h1 := congrArg Fin.val h.1
    have h2 := congrArg Fin.val h.2
    simp only [Fin.val_ofNat] at h1 h2
    exact UInt8.toNat_inj.1 (by omega)

theorem word_inj {k l : Bytes} : word k = word l ↔ k = l := by
  refine ⟨fun h => ?_, congrArg word⟩
  have hpre : k <+: l := isPrefix_word.1 (h ▸ List.prefix_rfl)
  have hlen := congrArg List.length h
  rw [length_word, length_word] at hlen
  exact hpre.eq_of_length (by omega)

theorem spells_word {key : Bytes} (h : key.length < 2 ^ 30) : (NibbleSlice.mk key 0).Spells (word key) :=
  spells_key (by omega) (nats_word key).symm

namespace GenericTrieDB

/-- Keys of which none is a prefix of another one, and whose nibbles can be counted. -/
structure KeySet (K : Set Bytes) : Prop where
  free : ∀ k ∈ K, ∀ l ∈ K, k <+: l → k = l
  short : ∀ k ∈ K, k.length < 2 ^ 30

/-! ## Operations -/

inductive Op
  | insert (key value : Bytes)
  | remove (key : Bytes)

namespace Op

/-- The key is one of the set, and lengths of values fit. -/
def Valid (K : Set Bytes) : Op → Prop
  | insert key value => key ∈ K ∧ value.length < 2 ^ 62
  | remove key => key ∈ K

/-- What the operation does to a map. -/
def entries (m : Bytes → Option Bytes) : Op → Bytes → Option Bytes
  | insert key value => Function.update m key (some value)
  | remove key => Function.update m key none

/-- What the operation does to a trie. -/
def after (t : Trie) : Op → Trie
  | insert key value => t.insert (word key) value
  | remove key => (t.remove (word key)).getD t

variable (c : Crypto)

/-- The old root is killed and the new one entered. A root is in the database, however short it is. -/
def reroot (t u : Trie) : List (Act Bytes) :=
  (if (encode c t).length < 32 then [.strike (encode c t)] else []) ++ [.enter (encode c u)]

/-- What the operation does to the database. -/
def acts (t : Trie) : Op → List (Act Bytes)
  | insert key value => mergeLog c t (word key) value ++ reroot c t (t.insert (word key) value)
  | remove key => (t.remove (word key)).elim [] fun u => removeLog c t (word key) ++ reroot c t u

def allActs : Trie → List Op → List (Act Bytes)
  | _, [] => []
  | t, op :: ops => acts c t op ++ allActs (op.after t) ops

/-- The operation of the code. -/
def step {δ : Type} [NodeDB δ] (g : GenericTrieDB δ) : Op → Except Exception (GenericTrieDB δ)
  | insert key value => GenericTrieDB.insert c g key value
  | remove key => GenericTrieDB.remove c g key

def run {δ : Type} [NodeDB δ] (g : GenericTrieDB δ) (ops : List Op) : Except Exception (GenericTrieDB δ) :=
  ops.foldlM (step c) g

end Op

/-! ## Entries of a trie -/

/-- The trie has the entries of the map. -/
structure Shows (K : Set Bytes) (t : Trie) (m : Bytes → Option Bytes) : Prop where
  canonical : t.Canonical
  words : ∀ w v, t.find w = some v → ∃ key ∈ K, w = word key ∧ v.length < 2 ^ 62
  find : ∀ key, t.find (word key) = m key

namespace Shows

variable {K : Set Bytes} {t u : Trie} {m : Bytes → Option Bytes} {key v : Bytes} {op : Op}

theorem fits (hK : KeySet K) (h : Shows K t m) : Fits t := by
  intro w v hw
  obtain ⟨key, hkey, rfl, hv⟩ := h.words w v hw
  have hshort := hK.short key hkey
  rw [length_word]
  exact ⟨by omega, hv⟩

theorem free (hK : KeySet K) (h : Shows K t m) (hkey : key ∈ K) : t.Free (word key) := by
  intro w v hw hpre
  obtain ⟨l, hl, rfl, -⟩ := h.words w v hw
  rw [isPrefix_word, isPrefix_word] at hpre
  rcases hpre with hpre | hpre
  · rw [hK.free key hkey l hl hpre]
  · rw [hK.free l hl key hkey hpre]

theorem empty (K : Set Bytes) : Shows K .empty fun _ => none := by
  refine ⟨trivial, fun w v h => ?_, fun _ => rfl⟩
  cases h

theorem insert (hK : KeySet K) (h : Shows K t m) (hkey : key ∈ K) (hv : v.length < 2 ^ 62) :
    Shows K (t.insert (word key) v) (Function.update m key (some v)) := by
  obtain ⟨hc, -, -, hfind⟩ := Patricia.insert_spec h.canonical (h.free hK hkey) v
  refine ⟨hc, fun w x hw => ?_, fun l => ?_⟩
  · rw [hfind] at hw
    by_cases heq : w = word key
    · rw [if_pos heq, Option.some.injEq] at hw
      exact ⟨key, hkey, heq, hw ▸ hv⟩
    · rw [if_neg heq] at hw
      exact h.words w x hw
  · rw [hfind, Function.update_apply, h.find]
    exact if_congr word_inj rfl rfl

theorem remove (h : Shows K t m) (hu : t.remove (word key) = some u) : Shows K u (Function.update m key none) := by
  have hspec := Patricia.remove_spec h.canonical (word key)
  rw [hu] at hspec
  obtain ⟨hc, -, -, hfind⟩ := hspec
  refine ⟨hc, fun w x hw => ?_, fun l => ?_⟩
  · rw [hfind] at hw
    by_cases heq : w = word key
    · rw [if_pos heq] at hw
      cases hw
    · rw [if_neg heq] at hw
      exact h.words w x hw
  · rw [hfind, Function.update_apply, h.find]
    exact if_congr word_inj rfl rfl

theorem step (hK : KeySet K) (h : Shows K t m) (hop : op.Valid K) : Shows K (op.after t) (op.entries m) := by
  cases op with
  | insert key v => exact h.insert hK hop.1 hop.2
  | remove key =>
    cases hu : t.remove (word key) with
    | some u =>
      rw [Op.after, hu]
      exact h.remove hu
    | none =>
      -- a key that was not found is none of the map
      have hspec := Patricia.remove_spec h.canonical (word key)
      rw [hu] at hspec
      have hnone : Function.update m key none = m := Function.update_eq_self_iff.2 (h.find key ▸ hspec.symm)
      rw [Op.after, Op.entries, hu, hnone]
      exact h

end Shows

/-! ## Operations of the code -/

/-- All nodes of a trie: the root, and what is below it. -/
def all (c : Crypto) (t : Trie) : Multiset Bytes := encode c t ::ₘ kids c t

section

variable {c : Crypto} {K N : Set Bytes} {t u : Trie} {m : Bytes → Option Bytes} {op : Op} {key v : Bytes}

theorem own_le_all (c : Crypto) (t : Trie) : own c t ≤ all c t := by
  unfold own all stored
  split
  · rw [zero_add]
    exact Multiset.le_cons_self _ _
  · rw [Multiset.singleton_add]

/-- The new root takes the place of the old one. -/
theorem turns_reroot {l : List (Act Bytes)} (h : Turns l (own c t) (kids c u)) :
    Turns (l ++ Op.reroot c t u) (all c t) (all c u) := by
  unfold Op.reroot
  by_cases hlen : (encode c t).length < 32
  · rw [if_pos hlen]
    have hframe := h.frame {encode c t}
    rw [own, stored, if_pos hlen, zero_add, add_comm, Multiset.singleton_add, add_comm,
      Multiset.singleton_add] at hframe
    exact hframe.append (.strike (.enter (.nil _)))
  · rw [if_neg hlen]
    rw [own, stored, if_neg hlen, Multiset.singleton_add] at h
    exact h.append (.enter (.nil _))

/-- Every operation enters what the new trie refers to and strikes what the old one did. -/
theorem turns_acts (hK : KeySet K) (h : Shows K t m) (hop : op.Valid K) :
    Turns (op.acts c t) (all c t) (all c (op.after t)) := by
  cases op with
  | insert key v => exact turns_reroot (turns_mergeLog h.canonical (h.free hK hop.1) v)
  | remove key =>
    rw [Op.acts, Op.after]
    cases hu : t.remove (word key) with
    | none => exact .nil _
    | some u => exact turns_reroot (turns_removeLog h.canonical hu)

theorem encode_ne_null (h : Shows K t m) (hK : KeySet K) (hne : t.isEmpty = false) : encode c t ≠ RLPNull := by
  intro heq
  have hlist := isList_encode c h.canonical (h.fits hK)
  rw [heq, hne] at hlist
  cases hlist

variable {δ : Type} [NodeDB δ] {g : GenericTrieDB δ} {F : Multiset Bytes}

theorem play_reroot (db : δ) (t u : Trie) : play c db (Op.reroot c t u) =
    NodeDB.insert (if (encode c t).length < 32 then NodeDB.kill db (c.sha3 (encode c t)) else db)
      (c.sha3 (encode c u)) (encode c u) := by
  unfold Op.reroot
  split <;> rfl

theorem node_root (h : Shows K t m) (hK : KeySet K) (hroot : g.m_root = c.sha3 (encode c t))
    (hg : Holds c g.m_db (all c t)) : node g.m_db g.m_root = encode c t := by
  obtain ⟨q, hq⟩ := isItem_encode c h.canonical (h.fits hK)
  rw [hroot]
  exact hg _ (Multiset.mem_cons_self _ _) hq.ne_nil

theorem at_of_node (hK : KeySet K) (h : Shows K t m) (hnode : node g.m_db g.m_root = encode c t)
    (hown : Holds c g.m_db (own c t)) (hkey : key.length < 2 ^ 30) : g.at key = .ok ((m key).getD []) := by
  have hfits := h.fits hK
  have hfuel : (word key).length + 1 ≤ depth key := by
    rw [length_word]
    unfold depth
    omega
  unfold GenericTrieDB.at
  rw [hnode, rlp_item (isItem_encode c h.canonical hfits), ok_bind,
    atAux_eq h.canonical hfits (spells_word hkey) hown hfuel, h.find]

/-- Lookups under the root of a trie find its entries. -/
theorem at_eq (hK : KeySet K) (h : Shows K t m) (hroot : g.m_root = c.sha3 (encode c t)) (hg : Holds c g.m_db (all c t))
    (hkey : key.length < 2 ^ 30) : g.at key = .ok ((m key).getD []) :=
  at_of_node hK h (node_root h hK hroot hg) (hg.mono (own_le_all c t)) hkey

variable [LawfulNodeDB δ] {l : List (Act Bytes)}

/-- The trie is in the database under its root, beside other nodes, and the database is about to take acts. -/
structure Stored (c : Crypto) (N : Set Bytes) (g : GenericTrieDB δ) (t : Trie) (F : Multiset Bytes)
    (l : List (Act Bytes)) : Prop where
  root : g.m_root = c.sha3 (encode c t)
  ready : Ready c N g.m_db (all c t + F) l

namespace Stored

theorem all (h : Stored c N g t F l) : Holds c g.m_db (all c t) := h.ready.holds.mono (Multiset.le_add_right _ _)

/-- The nodes that are in the database because of their length, beside the other ones. -/
theorem own (h : Stored c N g t F l) : ∃ F', Ready c N g.m_db (own c t + F') l := by
  obtain ⟨B, hB⟩ := Multiset.le_iff_exists_add.1 (own_le_all c t)
  refine ⟨B + F, ?_⟩
  rw [← add_assoc, ← hB]
  exact h.ready

end Stored

theorem insert_eq (hK : KeySet K) (h : Shows K t m) (hroot : g.m_root = c.sha3 (encode c t))
    (hnode : node g.m_db g.m_root = encode c t)
    (hown : Ready c N g.m_db (own c t + F) (Op.acts c t (.insert key v) ++ l)) (hkey : key ∈ K) :
    GenericTrieDB.insert c g key v = .ok ⟨c.sha3 (encode c (t.insert (word key) v)),
      play c g.m_db (Op.acts c t (.insert key v))⟩ := by
  have hfits := h.fits hK
  have hshort := hK.short key hkey
  have hitem := isItem_encode c h.canonical hfits
  have hne : (encode c t).length ≠ 0 := by
    obtain ⟨q, hq⟩ := hitem
    exact fun h0 => hq.ne_nil (List.length_eq_zero_iff.1 h0)
  have hfuel : 2 * (word key).length + 1 ≤ depth key := by
    rw [length_word]
    unfold depth
    omega
  have hin : false = true → (encode c t).length < 32 := by rintro ⟨⟩
  rw [Op.acts, List.append_assoc] at hown
  have hmerge := mergeAt_eq (v := v) h.canonical hfits (h.free hK hkey) (spells_word hshort)
    (by rw [length_word]; omega) hown hin hfuel
  unfold GenericTrieDB.insert
  rw [hnode]
  dsimp only
  rw [if_neg hne, rlp_item hitem, hroot]
  simp only [ok_bind, hmerge, Op.acts, play_append, play_reroot]
  rfl

theorem remove_eq (hK : KeySet K) (h : Shows K t m) (hroot : g.m_root = c.sha3 (encode c t))
    (hnode : node g.m_db g.m_root = encode c t)
    (hown : Ready c N g.m_db (own c t + F) (Op.acts c t (.remove key) ++ l)) (hkey : key ∈ K) :
    GenericTrieDB.remove c g key = .ok ⟨c.sha3 (encode c (Op.after t (.remove key))),
      play c g.m_db (Op.acts c t (.remove key))⟩ := by
  have hfits := h.fits hK
  have hshort := hK.short key hkey
  have hitem := isItem_encode c h.canonical hfits
  have hfuel : (word key).length + 1 ≤ depth key := by
    rw [length_word]
    unfold depth
    omega
  have hlog : ∃ l', Ready c N g.m_db (GenericTrieDB.own c t + F) (removeLog c t (word key) ++ l') := by
    rw [Op.acts] at hown
    cases hu : t.remove (word key) with
    | none =>
      rw [hu] at hown
      rw [removeLog_of_none c hu]
      exact ⟨l, hown⟩
    | some u =>
      rw [hu, Option.elim_some, List.append_assoc] at hown
      exact ⟨_, hown⟩
  obtain ⟨l', hlog⟩ := hlog
  have hdelete := deleteAt_eq h.canonical hfits (h.free hK hkey) (spells_word hshort) hlog hfuel
  unfold GenericTrieDB.remove
  rw [hnode]
  dsimp only
  rw [rlp_item hitem]
  simp only [ok_bind, hdelete, Op.acts, Op.after]
  cases hu : t.remove (word key) with
  | none =>
    rw [hroot]
    rfl
  | some u =>
    obtain ⟨q, hq⟩ := isItem_encode c (h.remove hu).canonical ((h.remove hu).fits hK)
    have hlen : (encode c u).length ≠ 0 := fun h0 => hq.ne_nil (List.length_eq_zero_iff.1 h0)
    simp only [Option.elim_some, Option.getD_some, if_neg hlen, hroot, play_append, play_reroot]
    rfl

/-- An operation of the code does what is known of it, if the top node is found. -/
theorem act_eq (hK : KeySet K) (h : Shows K t m) (hroot : g.m_root = c.sha3 (encode c t))
    (hnode : node g.m_db g.m_root = encode c t) (hown : Ready c N g.m_db (own c t + F) (op.acts c t ++ l))
    (hop : op.Valid K) :
    Op.step c g op = .ok ⟨c.sha3 (encode c (op.after t)), play c g.m_db (op.acts c t)⟩ := by
  cases op with
  | insert key v => exact insert_eq hK h hroot hnode hown hop.1
  | remove key => exact remove_eq hK h hroot hnode hown hop

/-- After an operation of the code the nodes of the new trie are in the database, beside the other ones. -/
theorem step_eq (hK : KeySet K) (h : Shows K t m) (hg : Stored c N g t F (op.acts c t ++ l)) (hop : op.Valid K) :
    Op.step c g op = .ok ⟨c.sha3 (encode c (op.after t)), play c g.m_db (op.acts c t)⟩ ∧
      Stored c N ⟨c.sha3 (encode c (op.after t)), play c g.m_db (op.acts c t)⟩ (op.after t) F l := by
  obtain ⟨F', hown⟩ := hg.own
  exact ⟨act_eq hK h hg.root (node_root h hK hg.root hg.all) hown hop, rfl,
    hg.ready.turns ((turns_acts hK h hop).frame F)⟩

theorem run_eq (hK : KeySet K) (ops : List Op) (h : Shows K t m) (hg : Stored c N g t F (Op.allActs c t ops ++ l))
    (hops : ∀ op ∈ ops, op.Valid K) :
    ∃ g', Op.run c g ops = .ok g' ∧ g'.m_db = play c g.m_db (Op.allActs c t ops) ∧
      Stored c N g' (ops.foldl Op.after t) F l ∧ Shows K (ops.foldl Op.after t) (ops.foldl Op.entries m) := by
  induction ops generalizing g t m with
  | nil => exact ⟨g, rfl, rfl, hg, h⟩
  | cons op ops ih =>
    have hop := hops op List.mem_cons_self
    rw [Op.allActs, List.append_assoc] at hg
    obtain ⟨hstep, hstored⟩ := step_eq hK h hg hop
    obtain ⟨g', hrun, hdb, hstored', hshows'⟩ :=
      ih (h.step hK hop) hstored fun o ho => hops o (List.mem_cons_of_mem _ ho)
    refine ⟨g', ?_, ?_, hstored', hshows'⟩
    · rw [← hrun]
      unfold Op.run
      rw [List.foldlM_cons, hstep]
      rfl
    · rw [hdb, Op.allActs, play_append]

end

/-! ## The empty trie -/

section

variable {c : Crypto} {K N : Set Bytes} {δ : Type} [NodeDB δ] [LawfulNodeDB δ] {db : δ} {F : Multiset Bytes}
  {l : List (Act Bytes)}

/-- The acts of a run that starts with no entries. -/
def runActs (c : Crypto) (ops : List Op) : List (Act Bytes) := .enter RLPNull :: Op.allActs c .empty ops

theorem all_empty (c : Crypto) : all c .empty = {RLPNull} := rfl

omit [LawfulNodeDB δ] in
/-- A trie is opened if its root is there; the root of no entries is put there. -/
theorem open_of_node {root : H256} {g : GenericTrieDB δ}
    (hg : (if root = c.EmptyTrie ∧ !NodeDB.exists db root then init c db else ⟨root, db⟩) = g)
    (hnode : node g.m_db g.m_root ≠ []) : «open» c db root = .ok g := by
  unfold «open»
  rw [hg]
  dsimp only
  rw [if_neg fun h0 => hnode (List.length_eq_zero_iff.1 h0)]
  rfl

omit [LawfulNodeDB δ] in
theorem eq_of_open {root : H256} {g : GenericTrieDB δ} (h : «open» c db root = .ok g) :
    (if root = c.EmptyTrie ∧ !NodeDB.exists db root then init c db else ⟨root, db⟩) = g := by
  have hpass : ∀ t : GenericTrieDB δ,
      (if (node t.m_db t.m_root).length = 0 then throw .RootNotFound else return t : Except Exception _) = .ok g →
        t = g := by
    intro t ht
    split at ht
    · cases ht
    · exact Except.ok.inj ht
  exact hpass _ h

theorem stored_init (h : Ready c N db F (.enter RLPNull :: l)) : Stored c N (init c db) .empty F l := by
  refine ⟨rfl, ?_⟩
  rw [all_empty, Multiset.singleton_add]
  exact h.enter

/-- A run from the empty trie, in a database with other nodes. -/
theorem run_init (hK : KeySet K) (ops : List Op) (hops : ∀ op ∈ ops, op.Valid K)
    (h : Ready c N db F (runActs c ops)) : ∃ g, Op.run c (init c db) ops = .ok g ∧ g.m_db = play c db (runActs c ops) ∧
      Stored c N g (ops.foldl Op.after .empty) F [] ∧
      Shows K (ops.foldl Op.after .empty) (ops.foldl Op.entries fun _ => none) := by
  rw [runActs, ← List.append_nil (Op.allActs c .empty ops)] at h
  exact run_eq hK ops (Shows.empty K) (stored_init h) hops

/-- What a run from the empty trie asks of the hash and of the database. -/
structure Start (c : Crypto) (db : δ) (ops : List Op) : Prop where
  apart : Set.InjOn c.sha3 {b | .enter b ∈ runActs c ops}
  keeps : LawfulNodeDB.Keeps db 0 (runActs c ops).length

theorem Start.ready {ops : List Op} (h : Start c db ops) :
    Ready c {b | .enter b ∈ runActs c ops} db 0 (runActs c ops) :=
  ⟨h.apart, fun _ hb => absurd hb (Multiset.notMem_zero _), fun _ hb => hb, h.keeps⟩

/-! ### A trial -/

/-- A hash to try runs with. -/
def rolling : Crypto where
  sha3 b := BitVec.ofNat 256 (b.foldl (fun h x => 257 * h + x.toNat + 1) 0)
  toPublic s := s.setWidth 768
  sign _ m := m.setWidth 384
  verify _ _ _ := true

/-- The first two keys have all nibbles but the last one in common. -/
def trialKeys : List Bytes := [[1, 2], [1, 3], [2, 5, 6]]

def trial : List Op :=
  [.insert [1, 2] (List.replicate 40 7), .insert [1, 3] (List.replicate 40 8), .insert [2, 5, 6] [9], .remove [1, 2]]

theorem keySet_trial : KeySet {k | k ∈ trialKeys} where
  free := show ∀ k ∈ trialKeys, ∀ l ∈ trialKeys, k <+: l → k = l by decide
  short := show ∀ k ∈ trialKeys, k.length < 2 ^ 30 by decide

theorem valid_trial : ∀ op ∈ trial, op.Valid {k | k ∈ trialKeys} := by
  unfold trial
  simp [Op.Valid, trialKeys]

theorem start_trial : Start rolling MemoryDB.new trial :=
  ⟨Act.injOn_iff.2 (by decide +kernel), MemoryDB.keeps_new (by decide +kernel)⟩

/-- What the trial leaves. -/
theorem mem_trial {key v : Bytes} :
    (key, v) ∈ [([1, 3], List.replicate 40 8), ([2, 5, 6], [9])] ↔
      trial.foldl Op.entries (fun _ => none) key = some v := by
  simp only [trial, List.foldl_cons, List.foldl_nil, Op.entries, Function.update_apply, List.mem_cons,
    List.not_mem_nil, or_false, Prod.mk.injEq]
  by_cases h2 : key = [1, 2]
  · simp [h2]
  · by_cases h5 : key = [2, 5, 6]
    · simp [h5, eq_comm]
    · by_cases h3 : key = [1, 3]
      · simp [h3, eq_comm]
      · simp [h2, h3, h5]

/-- After any run from the empty trie the code finds, for every key, what the same operations leave in a map; the
database has taken the acts of the run. -/
theorem run_refines (hK : KeySet K) (ops : List Op) (hops : ∀ op ∈ ops, op.Valid K) (h : Start c db ops) :
    ∃ g, Op.run c (init c db) ops = .ok g ∧ g.m_db = play c db (runActs c ops) ∧ g.root = .ok g.m_root ∧
      ∀ key : Bytes, key.length < 2 ^ 30 → g.at key = .ok ((ops.foldl Op.entries (fun _ => none) key).getD []) := by
  obtain ⟨g, hrun, hdb, hstored, hshows⟩ := run_init hK ops hops h.ready
  obtain ⟨q, hq⟩ := isItem_encode c hshows.canonical (hshows.fits hK)
  refine ⟨g, hrun, hdb, ?_, fun key hkey => at_eq hK hshows hstored.root hstored.all hkey⟩
  unfold GenericTrieDB.root
  rw [node_root hshows hK hstored.root hstored.all, if_neg fun h0 => hq.ne_nil (List.length_eq_zero_iff.1 h0)]

theorem run_refines_trial : ∃ g, Op.run rolling (init rolling MemoryDB.new) trial = .ok g ∧
    g.at [1, 3] = .ok (List.replicate 40 8) ∧ g.at [2, 5, 6] = .ok [9] ∧ g.at [1, 2] = .ok [] := by
  obtain ⟨g, hrun, -, -, hat⟩ := run_refines keySet_trial trial valid_trial start_trial
  exact ⟨g, hrun, hat [1, 3] (by decide), hat [2, 5, 6] (by decide), hat [1, 2] (by decide)⟩

end

end GenericTrieDB

end Petrachor
