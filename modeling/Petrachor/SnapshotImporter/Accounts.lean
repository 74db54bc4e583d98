import Petrachor.SnapshotImporter.Tries
import Petrachor.StateTrie.Durability

/-!
# Accounts out of state chunks

`groups` is how the pieces of the chunks make accounts. Every piece and every commit is one step of the import: a step
is refused, or it leaves the state trie with the accounts that have come to an end, and what a commit makes of the two
volatile strings can be told from the pieces alone.
-/

namespace Petrachor

open SortedMap GenericTrieDB Tally

/-- Storage as a map. -/
def storageMap (l : List (H256 × Bytes)) : List (ℕ × Bytes) := ofList (l.map fun e => (e.1.toNat, e.2))

namespace PieceCode

/-- What the code of a piece does to the database. -/
def acts : PieceCode → List (Act Bytes)
  | bytes code => [.enter code]
  | _ => []

/-- The code that the database has of it from then on; what is the node without entries as well may be killed. -/
def kept : PieceCode → Multiset Bytes
  | bytes code => if code = RLPNull then 0 else {code}
  | _ => 0

theorem kept_bytes (code : Bytes) : (bytes code).kept = if code = RLPNull then 0 else {code} := rfl

/-- The hash by which a code is named has a property. -/
def Names (P : H256 → Prop) : PieceCode → Prop
  | known codeHash => P codeHash
  | _ => True

instance (P : H256 → Prop) [DecidablePred P] : (code : PieceCode) → Decidable (code.Names P)
  | known codeHash => inferInstanceAs (Decidable (P codeHash))
  | none => .isTrue trivial
  | bytes _ => .isTrue trivial

theorem names_iff {P : H256 → Prop} {code : PieceCode} : code.Names P ↔ ∀ h, code = known h → P h := by
  cases code with
  | known codeHash => exact ⟨fun h k hk => by cases hk; exact h, fun h => h codeHash rfl⟩
  | _ => exact ⟨fun _ _ h => (by cases h), fun _ => trivial⟩

end PieceCode

def Volatile.pieceCode (n : Volatile) : PieceCode → Volatile
  | .bytes code => n.code code
  | _ => n

namespace SnapshotImporter

section

variable (c : Crypto)

/-- What the loop knows of an account when it has seen these pieces of it. -/
def pendingOf (g : List AccountPiece) : Pending :=
  match g.getLast? with
  | none => ⟨[], 0, 0, 0, 0⟩
  | some p => ⟨storageMap (g.flatMap AccountPiece.storage), p.addressHash, p.nonce, p.balance, p.code.hash c⟩

/-- The address of an account. -/
def addressOf (g : List AccountPiece) : H256 := (g.getLast?.map AccountPiece.addressHash).getD 0

/-- The entry in the state trie. -/
def entryOf (g : List AccountPiece) : ℕ × Bytes :=
  let p := pendingOf c g
  (p.addressHash.toNat,
    StateImporter.accountRLP p.nonce p.balance (StateImporter.rootOf c p.storageMap) p.codeHash)

/-- The state trie with these accounts. -/
def trieOf (gs : List (List AccountPiece)) : List (ℕ × Bytes) := ofList (gs.map (entryOf c))

/-- Another piece, the first of its chunk or not. -/
def extend (gs : List (List AccountPiece)) (first : Bool) (p : AccountPiece) : List (List AccountPiece) :=
  if first = true ∧ addressOf (gs.getLastD []) = p.addressHash then gs.dropLast ++ [gs.getLastD [] ++ [p]]
  else gs ++ [[p]]

/-- What the loops do one after the other: they take a piece, the first of its chunk or not, and commit behind a
chunk. -/
inductive Event
  | piece (first : Bool) (p : AccountPiece)
  | commit (chunksImported : ℕ)

def chunkEvents : List AccountPiece → List Event
  | [] => []
  | p :: pieces => .piece true p :: pieces.map (.piece false)

def events : ℕ → List (List AccountPiece) → List Event
  | _, [] => []
  | n, l :: chunks => chunkEvents l ++ .commit n :: events (n + 1) chunks

def Event.extend (gs : List (List AccountPiece)) : Event → List (List AccountPiece)
  | piece first p => SnapshotImporter.extend gs first p
  | commit _ => gs

/-- The accounts of the chunks. -/
def groups (chunks : List (List AccountPiece)) : List (List AccountPiece) := (events 0 chunks).foldl Event.extend []

/-! ## The database -/

/-- What the import of an account does to the database, if these were imported before. -/
def accountActs (gs : List (List AccountPiece)) (g : List AccountPiece) : List (Act Bytes) :=
  StateImporter.storageActs c (pendingOf c g).storageMap ++
    Op.acts c (grown (gs.map (entryOf c))) (.insert (toBigEndian 32 (entryOf c g).1) (entryOf c g).2)

/-- A piece of the account before it, or the first piece of all, has no account imported. -/
def GoesOn (gs : List (List AccountPiece)) (p : AccountPiece) : Prop :=
  gs = [] ∨ addressOf (gs.getLastD []) = p.addressHash

instance (gs : List (List AccountPiece)) (p : AccountPiece) : Decidable (GoesOn gs p) :=
  inferInstanceAs (Decidable (_ ∨ _))

def previousActs (gs : List (List AccountPiece)) (p : AccountPiece) : List (Act Bytes) :=
  if GoesOn gs p then [] else accountActs c gs.dropLast (gs.getLastD [])

def actsFrom : List (List AccountPiece) → List Event → List (Act Bytes)
  | gs, [] => accountActs c gs.dropLast (gs.getLastD [])
  | gs, .piece first p :: es => previousActs c gs p ++ (p.code.acts ++ actsFrom (extend gs first p) es)
  | gs, .commit _ :: es => actsFrom gs es

/-- All that an import may do to the database. -/
def importActs (chunks : List (List AccountPiece)) : List (Act Bytes) :=
  .enter RLPNull :: actsFrom c [] (events 0 chunks)

def hasStorage (g : List AccountPiece) : Bool := !(g.flatMap AccountPiece.storage).isEmpty

/-- The strings when the account before a piece has come to an end. -/
def previousVolatile (n : Volatile) (gs : List (List AccountPiece)) (p : AccountPiece) : Volatile :=
  if GoesOn gs p then n else n.account gs.dropLast.isEmpty (hasStorage (gs.getLastD []))

/-- Wherever a code is named by its hash, the strings, the pieces before and the hash have a property. -/
def Named (P : Volatile → List AccountPiece → H256 → Prop) : Volatile → List (List AccountPiece) → List Event → Prop
  | _, _, [] => True
  | n, gs, .piece first p :: es => p.code.Names (P (previousVolatile n gs p) gs.flatten) ∧
      Named P ((previousVolatile n gs p).pieceCode p.code) (extend gs first p) es
  | n, gs, .commit _ :: es => Named P n.commit gs es

instance instDecidableNamed (P : Volatile → List AccountPiece → H256 → Prop) [∀ n pieces, DecidablePred (P n pieces)] :
    (n : Volatile) → (gs : List (List AccountPiece)) → (es : List Event) → Decidable (Named P n gs es)
  | _, _, [] => .isTrue trivial
  | n, gs, .piece first p :: es =>
    have := instDecidableNamed P ((previousVolatile n gs p).pieceCode p.code) (extend gs first p) es
    inferInstanceAs (Decidable (_ ∧ _))
  | n, gs, .commit _ :: es => instDecidableNamed P n.commit gs es

end

end SnapshotImporter

/-- What makes a piece acceptable by itself. -/
structure AccountPiece.Good (p : AccountPiece) : Prop where
  addressHash : p.addressHash ≠ 0
  storage : ∀ e ∈ p.storage, e.1 ≠ 0 ∧ e.2 ≠ []
  code : ∀ h, p.code = .known h → h ≠ 0

namespace SnapshotImporter

/-- The accounts but for the distinctness of their addresses. -/
structure Sound (gs : List (List AccountPiece)) : Prop where
  ne_nil : ∀ g ∈ gs, g ≠ []
  good : ∀ g ∈ gs, ∀ p ∈ g, p.Good
  keys : ∀ g ∈ gs, ((g.flatMap AccountPiece.storage).map Prod.fst).Nodup

/-- No zero hash, no empty value, no storage key twice in an account, and no account twice. -/
structure WellFormed (gs : List (List AccountPiece)) : Prop extends Sound gs where
  addresses : (gs.map addressOf).Nodup

section

variable {p : AccountPiece} {g : List AccountPiece} {gs : List (List AccountPiece)}

theorem pendingOf_concat (c : Crypto) : pendingOf c (g ++ [p]) =
    ⟨storageMap ((g ++ [p]).flatMap AccountPiece.storage), p.addressHash, p.nonce, p.balance, p.code.hash c⟩ := by
  unfold pendingOf
  rw [List.getLast?_concat]

theorem addressOf_concat : addressOf (g ++ [p]) = p.addressHash := by
  unfold addressOf
  rw [List.getLast?_concat]
  rfl

theorem pendingOf_address (c : Crypto) (g : List AccountPiece) : (pendingOf c g).addressHash = addressOf g := by
  rcases g.eq_nil_or_concat with rfl | ⟨g, p, rfl⟩
  · rfl
  · rw [List.concat_eq_append, pendingOf_concat, addressOf_concat]

theorem Sound.address_ne (h : Sound gs) (hg : g ∈ gs) : addressOf g ≠ 0 := by
  have hne := h.ne_nil g hg
  have hgood := h.good g hg
  rcases g.eq_nil_or_concat with rfl | ⟨g, p, rfl⟩
  · exact absurd rfl hne
  · rw [List.concat_eq_append] at hgood ⊢
    rw [addressOf_concat]
    exact (hgood p (by simp)).addressHash

theorem isSome_lookup_trieOf {c : Crypto} {h : H256} :
    ((trieOf c gs).lookup h.toNat).isSome ↔ h ∈ gs.map addressOf := by
  have hfst : (gs.map (entryOf c)).map Prod.fst = (gs.map addressOf).map BitVec.toNat := by
    rw [List.map_map, List.map_map]
    exact List.map_congr_left fun g _ => congrArg BitVec.toNat (pendingOf_address c g)
  unfold trieOf
  rw [isSome_lookup_ofList, hfst, List.mem_map]
  constructor
  · rintro ⟨x, hx, heq⟩
    rwa [← BitVec.eq_of_toNat_eq heq]
  · exact fun hx => ⟨h, hx, rfl⟩

end

/-! ## Storage -/

theorem isSome_lookup_storageMap {l : List (H256 × Bytes)} {h : H256} :
    ((storageMap l).lookup h.toNat).isSome ↔ h ∈ l.map Prod.fst := by
  unfold storageMap
  rw [isSome_lookup_ofList, List.map_map, List.mem_map, List.mem_map]
  constructor
  · rintro ⟨e, he, heq⟩
    exact ⟨e, he, BitVec.eq_of_toNat_eq heq⟩
  · rintro ⟨e, he, rfl⟩
    exact ⟨e, he, rfl⟩

/-- The storage of a piece on top of what there is of its account. -/
theorem takeStorage_eq_ok {l l0 : List (H256 × Bytes)} (hnd : (l0.map Prod.fst).Nodup) {m : List (ℕ × Bytes)} :
    takeStorage l (storageMap l0) = .ok m ↔ (∀ e ∈ l, e.1 ≠ 0 ∧ e.2 ≠ []) ∧
      ((l0 ++ l).map Prod.fst).Nodup ∧ m = storageMap (l0 ++ l) := by
  induction l generalizing l0 with
  | nil =>
    rw [List.append_nil, takeStorage, Except.ok.injEq]
    exact ⟨fun h => ⟨fun e he => absurd he List.not_mem_nil, hnd, h.symm⟩, fun h => h.2.2.symm⟩
  | cons e l ih =>
    have hsplit : l0 ++ e :: l = (l0 ++ [e]) ++ l := (List.append_cons l0 e l)
    have hset : set e.1.toNat e.2 (storageMap l0) = storageMap (l0 ++ [e]) := by
      unfold storageMap
      rw [List.map_append, List.map_singleton, ofList_concat]
    rw [takeStorage, List.forall_mem_cons, hsplit]
    by_cases h1 : e.1 = 0 ∨ ((storageMap l0).lookup e.1.toNat).isSome
    · rw [if_pos h1]
      refine ⟨fun h => (by cases h), ?_⟩
      rintro ⟨⟨⟨h0, -⟩, -⟩, hnodup, -⟩
      rcases h1 with h1 | h1
      · exact absurd h1 h0
      · rw [isSome_lookup_storageMap] at h1
        rw [List.map_append, List.map_append, List.append_assoc, List.nodup_append] at hnodup
        exact absurd rfl (hnodup.2.2 e.1 h1 e.1 (by simp))
    · rw [if_neg h1]
      rw [not_or, isSome_lookup_storageMap] at h1
      by_cases h2 : e.2 = []
      · rw [if_pos h2]
        exact ⟨fun h => (by cases h), fun h => absurd h2 h.1.1.2⟩
      · have hnd' : ((l0 ++ [e]).map Prod.fst).Nodup := by
          rw [List.map_append, List.nodup_append]
          refine ⟨hnd, by simp, fun a ha b hb => ?_⟩
          rw [List.map_singleton, List.mem_singleton] at hb
          rw [hb]
          rintro rfl
          exact h1.2 ha
        rw [if_neg h2, hset, ih hnd']
        exact ⟨fun h => ⟨⟨⟨h1.1, h2⟩, h.1⟩, h.2⟩, fun h => ⟨h.1.2, h.2⟩⟩

/-- A value that the map has comes from the storage. -/
theorem exists_of_mem_storageMap {l : List (H256 × Bytes)} {e : ℕ × Bytes} (he : e ∈ storageMap l) :
    ∃ x ∈ l, e = (x.1.toNat, x.2) := by
  obtain ⟨x, hx, rfl⟩ := List.mem_map.1 (mem_of_mem_ofList he)
  exact ⟨x, hx, rfl⟩

theorem storageMap_isEmpty (l : List (H256 × Bytes)) : (storageMap l).isEmpty = l.isEmpty := by
  cases l with
  | nil => rfl
  | cons e l =>
    have hmem : ((storageMap (e :: l)).lookup e.1.toNat).isSome :=
      isSome_lookup_storageMap.2 (List.mem_map_of_mem List.mem_cons_self)
    cases hm : storageMap (e :: l) with
    | nil =>
      rw [hm] at hmem
      cases hmem
    | cons x m => rfl

theorem takeStorage_error {l : List (H256 × Bytes)} {m : List (ℕ × Bytes)} {e : SnapshotException}
    (h : takeStorage l m = .error e) : e = .InvalidStateChunkData := by
  induction l generalizing m with
  | nil => cases h
  | cons x l ih =>
    rw [takeStorage] at h
    split at h
    · exact (Except.error.inj h).symm
    · split at h
      · exact (Except.error.inj h).symm
      · exact ih h

/-! ## An account -/

section

variable {c : Crypto} {N : Set Bytes} {disk : Disk} {gs : List (List AccountPiece)} {g : List AccountPiece}
  {C : Multiset Bytes} {n : Volatile} {s : StateImporter} {l : List (Act Bytes)} {q : Pending}

/-- These accounts are in the state trie, and the codes in the database, which may be about to take acts. -/
structure Imported (c : Crypto) (N : Set Bytes) (disk : Disk) (gs : List (List AccountPiece)) (C : Multiset Bytes)
    (n : Volatile) (s : StateImporter) (l : List (Act Bytes)) : Prop where
  trie : Afloat c N s.m_trie (grown (gs.map (entryOf c))) C l
  codes : RLPNull ∉ C
  volatile : n.At c disk s.m_trie.m_db
  top : gs = [] → n.lasts = true
  given : n.given = true → [] ∈ C
  onDisk : s.m_trie.m_db.m_db.isSome

theorem fit_entries (c : Crypto) (gs : List (List AccountPiece)) : FitEntries (gs.map (entryOf c)) := by
  intro e he
  obtain ⟨g, -, rfl⟩ := List.mem_map.1 he
  exact ⟨(pendingOf c g).addressHash.isLt, (StateTrie.Record.mk _ _ _ _).length_encode⟩

theorem fit_storageMap (hg : ∀ p ∈ g, Small p) : FitEntries (storageMap (g.flatMap AccountPiece.storage)) := by
  intro e he
  obtain ⟨x, hx, rfl⟩ := exists_of_mem_storageMap he
  obtain ⟨p, hp, hxp⟩ := List.mem_flatMap.1 hx
  exact ⟨x.1.isLt, hg p hp x hxp⟩

theorem pendingOf_storageMap (c : Crypto) (g : List AccountPiece) :
    (pendingOf c g).storageMap = storageMap (g.flatMap AccountPiece.storage) := by
  rcases g.eq_nil_or_concat with rfl | ⟨g, p, rfl⟩
  · rfl
  · rw [List.concat_eq_append, pendingOf_concat]

theorem grown_accounts_isEmpty (c : Crypto) (gs : List (List AccountPiece)) :
    (grown (gs.map (entryOf c))).isEmpty = gs.isEmpty := by
  cases gs with
  | nil => rfl
  | cons g gs => exact grown_isEmpty (fit_entries c (g :: gs)) (List.cons_ne_nil _ _)

theorem Imported.at_eq (h : Imported c N disk gs C n s l) (a : H256) :
    s.m_trie.at (asBytes 32 a) = .ok (((trieOf c gs).lookup a.toNat).getD []) := by
  have hlen : (asBytes 32 a).length < 2 ^ 30 := (length_toBigEndian 32 a.toNat).trans_lt (by norm_num)
  rw [h.trie.at_eq keySet_hashKeys (shows_grown (fit_entries c gs)) hlen]
  exact congrArg (fun v => Except.ok (Option.getD v [])) (byKey_word _ a.isLt)

theorem Imported.stateRoot_eq (h : Imported c N disk gs C n s l) : s.stateRoot = .ok (c.trieRoot (trieOf c gs)) := by
  unfold StateImporter.stateRoot trieOf
  rw [h.trie.root_eq keySet_hashKeys (shows_grown (fit_entries c gs)), root_grown c (fit_entries c gs), ofRLP_ok]

theorem Imported.containsAccount_eq (h : Imported c N disk gs C n s l) (a : H256) :
    s.containsAccount a = .ok (decide (a ∈ gs.map addressOf)) := by
  have hmem : ((trieOf c gs).lookup a.toNat).isSome ↔ a ∈ gs.map addressOf := isSome_lookup_trieOf
  unfold StateImporter.containsAccount
  rw [h.at_eq, ofRLP_ok, import_bind]
  cases hl : (trieOf c gs).lookup a.toNat with
  | none =>
    rw [hl] at hmem
    rw [decide_eq_false fun h => (by cases hmem.2 h)]
    rfl
  | some v =>
    rw [hl] at hmem
    obtain ⟨g, -, hg⟩ := List.mem_map.1 (mem_of_mem_ofList (mem_of_lookup hl))
    have hne : v.isEmpty = false := by
      rw [← (Prod.mk.inj hg).2]
      exact List.isEmpty_eq_false_iff.2 (StateTrie.Record.mk _ _ _ _).isItem_encode.ne_nil
    rw [decide_eq_true (hmem.1 rfl), Option.getD_some, hne]
    rfl

theorem account_given (n : Volatile) (first stored : Bool) : (n.account first stored).given = n.given := by
  unfold Volatile.account
  cases first <;> cases stored <;> cases n.found <;> rfl

theorem account_saved (n : Volatile) (first stored : Bool) : (n.account first stored).saved = n.saved := by
  unfold Volatile.account
  cases first <;> cases stored <;> cases n.found <;> rfl

theorem account_gone (n : Volatile) (first stored : Bool) : (n.account first stored).gone = n.gone := by
  unfold Volatile.account
  cases first <;> cases stored <;> cases n.found <;> rfl

/-- An account that is not there yet is imported. -/
theorem Imported.importAccount (h : Imported c N disk gs C n s (accountActs c gs g ++ l)) (hg : ∀ p ∈ g, Small p)
    (hnew : addressOf g ∉ gs.map addressOf) :
    ∃ s', s.importAccount c (pendingOf c g).addressHash (pendingOf c g).nonce (pendingOf c g).balance
      (pendingOf c g).storageMap (pendingOf c g).codeHash = .ok s' ∧
      Imported c N disk (gs ++ [g]) C (n.account gs.isEmpty (hasStorage g)) s' l := by
  have hshows := shows_grown (fit_entries c gs)
  have hmap := pendingOf_storageMap c g
  have hfit : FitEntries (pendingOf c g).storageMap := hmap ▸ fit_storageMap hg
  have hstored : (!(pendingOf c g).storageMap.isEmpty) = hasStorage g := by
    rw [hmap, storageMap_isEmpty, hasStorage]
  obtain ⟨hkey, hvalue⟩ := fit_entries c [g] (entryOf c g) (List.mem_singleton_self _)
  have hmem : toBigEndian 32 (entryOf c g).1 ∈ hashKeys := length_toBigEndian _ _
  have htrie := h.trie
  unfold accountActs at htrie
  rw [List.append_assoc] at htrie
  obtain ⟨db, hdb, hafter, hvolatile, hsame⟩ := StateImporter.storageRoot_eq hfit keySet_hashKeys hshows h.codes
    htrie h.volatile
  have hop : (Op.insert (toBigEndian 32 (entryOf c g).1) (entryOf c g).2).Valid hashKeys := ⟨hmem, hvalue⟩
  obtain ⟨hstep, htrie', -⟩ := hafter.step keySet_hashKeys hshows hop h.codes
  have hvolatile' := hafter.at_insert keySet_hashKeys hshows hmem hvalue hvolatile
  have hcontains := h.containsAccount_eq (addressOf g)
  rw [decide_eq_false hnew] at hcontains
  have himport : ∀ m, Op.step c ⟨s.m_trie.m_root, db⟩ (.insert (toBigEndian 32 (entryOf c g).1) (entryOf c g).2) =
      .ok m → s.importAccount c (pendingOf c g).addressHash (pendingOf c g).nonce (pendingOf c g).balance
        (pendingOf c g).storageMap (pendingOf c g).codeHash = .ok ⟨m⟩ := by
    intro m hm
    unfold StateImporter.importAccount
    rw [pendingOf_address, hcontains, import_bind, if_neg Bool.false_ne_true, hdb, ofRLP_ok, import_bind,
      ← pendingOf_address c]
    show (ofRLP (Op.step c ⟨s.m_trie.m_root, db⟩ (.insert (toBigEndian 32 (entryOf c g).1) (entryOf c g).2)) >>= _) = _
    rw [hm]
    rfl
  refine ⟨_, himport _ hstep, ?_, h.codes, ?_, fun hnil => absurd hnil (by simp), fun hgiven => h.given ?_, ?_⟩
  · rw [List.map_append, List.map_singleton, grown_concat]
    exact htrie'
  · rw [hstored, grown_accounts_isEmpty] at hvolatile'
    have haccount : n.account gs.isEmpty (hasStorage g) =
        if gs.isEmpty then (n.account false (hasStorage g)).strike else n.account false (hasStorage g) := by
      cases gs.isEmpty <;> rfl
    rw [haccount]
    exact hvolatile'
  · rwa [account_given] at hgiven
  · show (play c db _).m_db.isSome
    rw [m_db_play, hsame]
    exact h.onDisk

theorem Imported.importAccount_error (h : Imported c N disk gs C n s l) (hold : addressOf g ∈ gs.map addressOf) :
    s.importAccount c (pendingOf c g).addressHash (pendingOf c g).nonce (pendingOf c g).balance
      (pendingOf c g).storageMap (pendingOf c g).codeHash = .error .AccountAlreadyImported := by
  unfold StateImporter.importAccount
  rw [pendingOf_address, h.containsAccount_eq, decide_eq_true hold, import_bind, if_pos rfl]

/-! ### Codes and commits -/

/-- The database after the code of a piece. -/
def codeState (c : Crypto) (code : PieceCode) (s : StateImporter) : StateImporter :=
  match code with
  | .bytes code => (s.importCode c code).2
  | _ => s

theorem takeCode_eq_ok {code : PieceCode} {s' : StateImporter} : takeCode c code s = .ok s' ↔
    (∀ h, code = .known h → h ≠ 0 ∧ s.lookupCode h ≠ []) ∧ s' = codeState c code s := by
  cases code with
  | none => exact ⟨fun h => ⟨fun _ h => (by cases h), (Except.ok.inj h).symm⟩, fun h => congrArg Except.ok h.2.symm⟩
  | bytes code =>
    exact ⟨fun h => ⟨fun _ h => (by cases h), (Except.ok.inj h).symm⟩, fun h => congrArg Except.ok h.2.symm⟩
  | known h =>
    show (if h = 0 ∨ s.lookupCode h = [] then _ else _) = _ ↔ _
    by_cases hbad : h = 0 ∨ s.lookupCode h = []
    · rw [if_pos hbad]
      refine ⟨fun h => (by cases h), fun hok => ?_⟩
      obtain ⟨h1, h2⟩ := hok.1 h rfl
      exact absurd hbad (not_or.2 ⟨h1, h2⟩)
    · rw [if_neg hbad, Except.ok.injEq]
      exact ⟨fun h => ⟨fun k hk => by cases hk; exact not_or.1 hbad, h.symm⟩, fun h => h.2.symm⟩

theorem takeCode_error {code : PieceCode} {e : SnapshotException} (h : takeCode c code s = .error e) :
    e = .InvalidStateChunkData ∧ ∃ k, code = .known k ∧ (k = 0 ∨ s.lookupCode k = []) := by
  cases code with
  | none => cases h
  | bytes code => cases h
  | known k =>
    have hrefused : (if k = 0 ∨ s.lookupCode k = [] then .error .InvalidStateChunkData
        else .ok s : Import StateImporter) =
        .error e := h
    split at hrefused
    · exact ⟨(Except.error.inj hrefused).symm, k, rfl, ‹_›⟩
    · cases hrefused

theorem code_lasts {n : Volatile} (code : PieceCode) (h : n.lasts = true) : (n.pieceCode code).lasts = true := by
  cases code with
  | bytes code =>
    unfold Volatile.pieceCode Volatile.code
    dsimp only
    split
    · simp [Volatile.lasts, Volatile.enter]
    · split <;> exact h
  | _ => exact h

theorem Imported.code {code : PieceCode} (h : Imported c N disk gs C n s (code.acts ++ l)) :
    Imported c N disk gs (C + code.kept) (n.pieceCode code) (codeState c code s) l := by
  have hsame : C + 0 = C := add_zero C
  cases code with
  | none => exact hsame.symm ▸ h
  | known k => exact hsame.symm ▸ h
  | bytes code =>
    obtain ⟨htrie, hvolatile⟩ := h.trie.enter h.volatile
    refine ⟨htrie, fun hmem => ?_, hvolatile, fun hnil => code_lasts (.bytes code) (h.top hnil), fun hgiven => ?_,
      h.onDisk⟩
    · rcases Multiset.mem_add.1 hmem with hmem | hmem
      · exact h.codes hmem
      · rw [PieceCode.kept_bytes] at hmem
        split at hmem
        · exact absurd hmem (Multiset.notMem_zero _)
        · rename_i hne
          exact hne (Multiset.mem_singleton.1 hmem).symm
    · unfold Volatile.pieceCode Volatile.code at hgiven
      dsimp only at hgiven
      split at hgiven
      · exact Multiset.mem_add.2 (.inl (h.given hgiven))
      · rename_i hnull
        split at hgiven
        · rename_i hempty
          refine Multiset.mem_add.2 (.inr ?_)
          rw [PieceCode.kept_bytes, if_neg hnull, hempty]
          exact Multiset.mem_singleton_self _
        · exact Multiset.mem_add.2 (.inl (h.given hgiven))

theorem Imported.commit (h : Imported c N disk gs C n s l) {writes : ℕ → Bool}
    (hwrites : (List.range 10).any writes = true) :
    ∃ s', s.commitStateDatabase writes = .ok s' ∧ Imported c N disk gs C n.commit s' l := by
  have hsome := LevelOverlayDB.isSome_commit h.onDisk writes
  rw [hwrites] at hsome
  obtain ⟨db, hdb⟩ := Option.isSome_iff_exists.1 hsome
  have htop : (grown (gs.map (entryOf c))).isEmpty = true → n.lasts = true := fun hempty =>
    h.top (List.isEmpty_iff.1 ((grown_accounts_isEmpty c gs).symm.trans hempty))
  obtain ⟨htrie, hvolatile, hdisk⟩ := h.trie.commit h.onDisk h.volatile htop h.given hdb
  refine ⟨⟨⟨s.m_trie.m_root, db⟩⟩, ?_, htrie, h.codes, hvolatile, fun hnil => ?_, h.given, hdisk⟩
  · unfold StateImporter.commitStateDatabase
    rw [hdb]
  · show (decide (0 < (none : Option ℕ).getD 0) || n.lasts) = true
    rw [h.top hnil, Bool.or_true]

/-- The strings when an importer has just been made. -/
def startVolatile (c : Crypto) (disk : Disk) : Volatile :=
  ⟨some 1, disk.get (Disk.nodeKey c.EmptyTrie) ≠ [], false, false⟩

theorem imported_new (hdisk : StateTrie.Disk.Honest c disk) (hN : N.InjOn c.sha3)
    (hl : ∀ b, .enter b ∈ .enter RLPNull :: l → b ∈ N) (hroom : (.enter RLPNull :: l).length < 2 ^ 32) :
    Imported c N disk [] 0 (startVolatile c disk) (StateImporter.new c (fresh (some disk))) l := by
  have hempty : ∀ h, (fresh (some disk)).m_main.lookup h = none := fun h => AList.lookup_empty h
  have hfresh : Volatile.At c disk ⟨none, disk.get (Disk.nodeKey c.EmptyTrie) ≠ [], false, false⟩
      (fresh (some disk)) := by
    refine ⟨hempty _, ?_, fun h e he => ?_, fun h hh => .inl hh, fun h => (by cases h), fun h => (by cases h)⟩
    · show disk.get (Disk.nodeKey c.EmptyTrie) = _
      rcases List.mem_pair.1 hdisk with h | h
      · rw [h]
        rfl
      · rw [h]
        rfl
    · rw [hempty] at he
      cases he
  have hdurable : (fresh (some disk)).Durable 0 := fun x hx => absurd hx (Multiset.notMem_zero x)
  have hsteady : Steady c N (fresh (some disk)) 0 (.enter RLPNull :: l) :=
    ⟨⟨hN, fun b hb => absurd hb (Multiset.notMem_zero b), hl, hdurable.keeps rfl hroom fun x hx => hx⟩, rfl,
      hl RLPNull List.mem_cons_self, fun hexists => hfresh.nulled rfl ((hfresh.exists rfl).symm.trans hexists)⟩
  exact ⟨⟨rfl, ⟨_, hsteady.enter, Multiset.zero_le _⟩,
    fun _ => hsteady.enter.nulled_of_mem (Multiset.mem_cons_self _ _)⟩,
    Multiset.notMem_zero _, hfresh.enter (hsteady.count_lt hfresh), fun _ => rfl, fun h => (by cases h), rfl⟩

end

end SnapshotImporter

end Petrachor
