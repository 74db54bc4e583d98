import Petrachor.SnapshotImporter.Pieces

/-!
# Accounts cut into state chunks

However the accounts are cut into chunks, the import ends with the trie of the accounts, if there are any: the
account that is imported behind the loop is there also when the loop had none. An account that is listed again
is found out by the import, but at the beginning of a chunk it is taken for the rest of the one before it,
whatever its nonce, balance and code are. And the code 0x80 is the node without entries, which the tries kill: a commit
may lose it, and then it is not found by its hash.
-/

namespace Petrachor

open SortedMap GenericTrieDB Tally

namespace SnapshotImporter

/-- An account of a snapshot. -/
structure SnapshotAccount where
  addressHash : H256
  nonce : U256
  balance : U256
  code : Bytes
  storage : List (H256 × Bytes)

/-- No zero hash, no storage key twice, no empty value. -/
structure SnapshotAccount.Valid (c : Crypto) (a : SnapshotAccount) : Prop where
  addressHash : a.addressHash ≠ 0
  codeHash : a.code ≠ [] → c.sha3 a.code ≠ 0
  storage : ∀ e ∈ a.storage, e.1 ≠ 0 ∧ e.2 ≠ []
  keys : (a.storage.map Prod.fst).Nodup

/-- The state trie that holds the accounts. -/
def stateTrie (c : Crypto) (accounts : List SnapshotAccount) : List (ℕ × Bytes) :=
  ofList (accounts.map fun a => (a.addressHash.toNat,
    StateImporter.accountRLP a.nonce a.balance (c.trieRoot (storageMap a.storage)) (c.sha3 a.code)))

/-- The forms in which a piece may have the code of its account. -/
inductive Gives (c : Crypto) (code : Bytes) : PieceCode → Prop
  | none : code = [] → Gives c code .none
  | bytes : code ≠ [] → Gives c code (.bytes code)
  | known : code ≠ [] → Gives c code (.known (c.sha3 code))

/-- An account in pieces: its storage is spread over them. -/
structure Splits (c : Crypto) (a : SnapshotAccount) (g : List AccountPiece) : Prop where
  ne_nil : g ≠ []
  fields : ∀ p ∈ g, p.addressHash = a.addressHash ∧ p.nonce = a.nonce ∧ p.balance = a.balance
  code : ∀ p ∈ g, Gives c a.code p.code
  storage : g.flatMap AccountPiece.storage = a.storage

/-- Of a code only the hash is there if the code was there before. -/
def CodesGiven (c : Crypto) (l : List AccountPiece) : Prop :=
  ∀ pre p post h, l = pre ++ p :: post → p.code = .known h →
    ∃ q ∈ pre, ∃ code ≠ [], q.code = .bytes code ∧ c.sha3 code = h

/-- The accounts cut into chunks, no two pieces of an account in a chunk. -/
structure Cuts (c : Crypto) (accounts : List SnapshotAccount) (chunks : List (List AccountPiece)) : Prop where
  valid : ∀ a ∈ accounts, a.Valid c
  addresses : (accounts.map SnapshotAccount.addressHash).Nodup
  splits : ∃ parts, List.Forall₂ (Splits c) accounts parts ∧ chunks.flatten = parts.flatten
  apart : ∀ l ∈ chunks, (l.map AccountPiece.addressHash).Nodup
  codes : CodesGiven c chunks.flatten

/-- The pieces of an account agree on what every one of them has. -/
def Agrees (c : Crypto) (gs : List (List AccountPiece)) : Prop :=
  ∀ g ∈ gs, ∀ p ∈ g, ∀ q ∈ g, p.nonce = q.nonce ∧ p.balance = q.balance ∧ p.code.hash c = q.code.hash c

/-- What an import has to reject. -/
inductive Defect (c : Crypto) (chunks : List (List AccountPiece)) : Prop
  | zeroAddress (p) : p ∈ chunks.flatten → p.addressHash = 0 → Defect c chunks
  | zeroCode (p) : p ∈ chunks.flatten → p.code = .known 0 → Defect c chunks
  | zeroKey (p e) : p ∈ chunks.flatten → e ∈ p.storage → e.1 = 0 → Defect c chunks
  | emptyValue (p e) : p ∈ chunks.flatten → e ∈ p.storage → e.2 = [] → Defect c chunks
  | duplicateKey (g) : g ∈ groups chunks → ¬((g.flatMap AccountPiece.storage).map Prod.fst).Nodup → Defect c chunks
  | duplicateAccount : ¬((groups chunks).map addressOf).Nodup → Defect c chunks
  | otherAccount : ¬Agrees c (groups chunks) → Defect c chunks

/-! ## The accounts of the chunks -/

section

variable {gs : List (List AccountPiece)} {chunks : List (List AccountPiece)}

theorem flatten_groups (chunks : List (List AccountPiece)) : (groups chunks).flatten = chunks.flatten := by
  have hrest : ∀ (l : List AccountPiece) gs,
      ((l.map (Event.piece false)).foldl Event.extend gs).flatten = gs.flatten ++ l := by
    intro l
    induction l with
    | nil => exact fun gs => (List.append_nil _).symm
    | cons p l ih =>
      intro gs
      calc (((p :: l).map (Event.piece false)).foldl Event.extend gs).flatten
          = (extend gs false p).flatten ++ l := ih _
        _ = gs.flatten ++ [p] ++ l := by rw [flatten_extend]
        _ = gs.flatten ++ p :: l := List.append_cons .. |>.symm
  have hchunk : ∀ (l : List AccountPiece) gs, ((chunkEvents l).foldl Event.extend gs).flatten = gs.flatten ++ l := by
    intro l gs
    cases l with
    | nil => exact (List.append_nil _).symm
    | cons p l =>
      rw [chunkEvents, List.foldl_cons, hrest, Event.extend, flatten_extend, List.append_assoc, List.singleton_append]
  have hall : ∀ (l : List (List AccountPiece)) k gs,
      ((events k l).foldl Event.extend gs).flatten = gs.flatten ++ l.flatten := by
    intro l
    induction l with
    | nil => exact fun k gs => (List.append_nil _).symm
    | cons x l ih =>
      intro k gs
      calc ((events k (x :: l)).foldl Event.extend gs).flatten
          = ((chunkEvents x).foldl Event.extend gs).flatten ++ l.flatten := by
            rw [events, List.foldl_append, List.foldl_cons, ih, Event.extend]
        _ = gs.flatten ++ x ++ l.flatten := by rw [hchunk]
        _ = gs.flatten ++ (x :: l).flatten := by rw [List.flatten_cons, List.append_assoc]
  exact hall chunks 0 []

theorem mem_extend_ne_nil (hgs : ∀ g ∈ gs, g ≠ []) (first : Bool) (p : AccountPiece) :
    ∀ g ∈ extend gs first p, g ≠ [] := by
  intro g hg
  unfold extend at hg
  split at hg
  · rcases List.mem_append.1 hg with hg | hg
    · exact hgs g (List.mem_of_mem_dropLast hg)
    · rw [List.mem_singleton.1 hg]
      simp
  · rcases List.mem_append.1 hg with hg | hg
    · exact hgs g hg
    · rw [List.mem_singleton.1 hg]
      simp

theorem mem_groups_ne_nil : ∀ g ∈ groups chunks, g ≠ [] := by
  have hall : ∀ (es : List Event) gs, (∀ g ∈ gs, g ≠ []) → ∀ g ∈ es.foldl Event.extend gs, g ≠ [] := by
    intro es
    induction es with
    | nil => exact fun gs h => h
    | cons e es ih =>
      intro gs h
      refine ih _ ?_
      cases e with
      | piece first p => exact mem_extend_ne_nil h first p
      | commit k => exact h
  exact hall _ [] fun g hg => absurd hg List.not_mem_nil

theorem groups_eq_nil_iff : groups chunks = [] ↔ chunks.flatten = [] := by
  rw [← flatten_groups]
  constructor
  · intro h
    rw [h]
    rfl
  · intro h
    rw [List.flatten_eq_nil_iff] at h
    rw [List.eq_nil_iff_forall_not_mem]
    exact fun g hg => mem_groups_ne_nil g hg (h g hg)

theorem not_defect_iff {c : Crypto} : ¬Defect c chunks ↔ WellFormed (groups chunks) ∧ Agrees c (groups chunks) := by
  have hmem : ∀ {p}, p ∈ chunks.flatten ↔ ∃ g ∈ groups chunks, p ∈ g := by
    intro p
    rw [← flatten_groups, List.mem_flatten]
  constructor
  · intro h
    refine ⟨⟨⟨mem_groups_ne_nil, fun g hg p hp => ⟨fun h0 => h ?_, fun e he => ⟨fun h0 => h ?_, fun h0 => h ?_⟩,
      ?_⟩, fun g hg => ?_⟩, ?_⟩, ?_⟩
    · exact .zeroAddress p (hmem.2 ⟨g, hg, hp⟩) h0
    · exact .zeroKey p e (hmem.2 ⟨g, hg, hp⟩) he h0
    · exact .emptyValue p e (hmem.2 ⟨g, hg, hp⟩) he h0
    · rintro _ hcode rfl
      exact h (.zeroCode p (hmem.2 ⟨g, hg, hp⟩) hcode)
    · exact of_not_not fun hkeys => h (.duplicateKey g hg hkeys)
    · exact of_not_not fun haddresses => h (.duplicateAccount haddresses)
    · exact of_not_not fun hagrees => h (.otherAccount hagrees)
  · rintro ⟨hW, hA⟩ hdefect
    cases hdefect with
    | zeroAddress p hp h0 =>
      obtain ⟨g, hg, hpg⟩ := hmem.1 hp
      exact (hW.good g hg p hpg).addressHash h0
    | zeroCode p hp h0 =>
      obtain ⟨g, hg, hpg⟩ := hmem.1 hp
      exact (hW.good g hg p hpg).code 0 h0 rfl
    | zeroKey p e hp he h0 =>
      obtain ⟨g, hg, hpg⟩ := hmem.1 hp
      exact ((hW.good g hg p hpg).storage e he).1 h0
    | emptyValue p e hp he h0 =>
      obtain ⟨g, hg, hpg⟩ := hmem.1 hp
      exact ((hW.good g hg p hpg).storage e he).2 h0
    | duplicateKey g hg h => exact h (hW.keys g hg)
    | duplicateAccount h => exact h hW.addresses
    | otherAccount h => exact h hA

end

/-! ## Cut accounts -/

section

/-- Pieces of an account go on with it. -/
theorem foldl_same {h : H256} {rest : List AccountPiece} (hrest : ∀ p ∈ rest, p.addressHash = h)
    {x : List AccountPiece} (hx : addressOf x = h) (gs : List (List AccountPiece)) :
    rest.foldl (fun gs p => extend gs true p) (gs ++ [x]) = gs ++ [x ++ rest] := by
  induction rest generalizing x with
  | nil => rw [List.append_nil]; rfl
  | cons p rest ih =>
    have hp := hrest p List.mem_cons_self
    rw [List.foldl_cons, extend_same rfl (by rw [List.getLastD_concat, hx, hp]), List.dropLast_concat,
      List.getLastD_concat, ih (fun y hy => hrest y (List.mem_cons_of_mem _ hy)) (by rw [addressOf_concat, hp]),
      List.append_assoc, List.singleton_append]

theorem addressOf_of_mem {g : List AccountPiece} {h : H256} (hne : g ≠ []) (hg : ∀ p ∈ g, p.addressHash = h) :
    addressOf g = h := by
  rcases g.eq_nil_or_concat with rfl | ⟨g, p, rfl⟩
  · exact absurd rfl hne
  · rw [List.concat_eq_append] at hg ⊢
    rw [addressOf_concat]
    exact hg p (by simp)

/-- Accounts in pieces, with addresses that are not zero. -/
structure Parts (parts : List (List AccountPiece)) : Prop where
  ne_nil : ∀ g ∈ parts, g ≠ []
  address : ∀ g ∈ parts, ∀ p ∈ g, p.addressHash = addressOf g ∧ p.addressHash ≠ 0
  addresses : (parts.map addressOf).Nodup

/-- The pieces of the accounts, all in one row. -/
theorem foldl_parts {parts gs : List (List AccountPiece)} (h : Parts parts)
    (hnew : ∀ g ∈ parts, addressOf g ≠ addressOf (gs.getLastD [])) :
    parts.flatten.foldl (fun gs p => extend gs true p) gs = gs ++ parts := by
  induction parts generalizing gs with
  | nil => exact (List.append_nil gs).symm
  | cons g parts ih =>
    cases g with
    | nil => exact absurd rfl (h.ne_nil [] List.mem_cons_self)
    | cons p g =>
      have hfirst := (h.address _ List.mem_cons_self p List.mem_cons_self).1
      have hother : addressOf (gs.getLastD []) ≠ p.addressHash := by
        rw [hfirst]
        exact (hnew _ List.mem_cons_self).symm
      have hrest : ∀ q ∈ g, q.addressHash = p.addressHash := fun q hq => by
        rw [hfirst]
        exact (h.address _ List.mem_cons_self q (List.mem_cons_of_mem _ hq)).1
      have haddresses := h.addresses
      rw [List.map_cons, List.nodup_cons] at haddresses
      have htail : Parts parts := ⟨fun x hx => h.ne_nil x (List.mem_cons_of_mem _ hx),
        fun x hx => h.address x (List.mem_cons_of_mem _ hx), haddresses.2⟩
      rw [List.flatten_cons, List.foldl_append, List.foldl_cons, extend_other hother,
        foldl_same hrest (by rfl), List.singleton_append, ih htail, List.append_assoc, List.singleton_append]
      intro x hx heq
      rw [List.getLastD_concat] at heq
      exact haddresses.1 (heq ▸ List.mem_map_of_mem hx)

/-- Within a chunk without an address twice it does not matter which piece is the first. -/
theorem foldl_chunkEvents {l : List AccountPiece} (hl : (l.map AccountPiece.addressHash).Nodup)
    (gs : List (List AccountPiece)) :
    (chunkEvents l).foldl Event.extend gs = l.foldl (fun gs p => extend gs true p) gs := by
  have hrest : ∀ (l : List AccountPiece) gs, (∀ p ∈ l, addressOf (gs.getLastD []) ≠ p.addressHash) →
      (l.map AccountPiece.addressHash).Nodup →
        (l.map (Event.piece false)).foldl Event.extend gs = l.foldl (fun gs p => extend gs true p) gs := by
    intro l
    induction l with
    | nil => exact fun _ _ _ => rfl
    | cons p l ih =>
      intro gs hgs hnd
      rw [List.map_cons, List.nodup_cons] at hnd
      have hp := hgs p List.mem_cons_self
      rw [List.map_cons, List.foldl_cons, List.foldl_cons, Event.extend, extend_other hp, extend_other hp]
      refine ih _ (fun q hq heq => hnd.1 ?_) hnd.2
      rw [List.getLastD_concat] at heq
      exact List.mem_map.2 ⟨q, hq, heq.symm⟩
  cases l with
  | nil => rfl
  | cons p l =>
    rw [List.map_cons, List.nodup_cons] at hl
    refine hrest l _ (fun q hq heq => hl.1 ?_) hl.2
    have hlast : addressOf ((extend gs true p).getLastD []) = p.addressHash := by
      unfold extend
      split <;> rw [List.getLastD_concat]
      · exact addressOf_concat
      · rfl
    rw [Event.extend, hlast] at heq
    exact List.mem_map.2 ⟨q, hq, heq.symm⟩

theorem groups_eq {parts chunks : List (List AccountPiece)} (h : Parts parts)
    (hchunks : ∀ l ∈ chunks, (l.map AccountPiece.addressHash).Nodup) (heq : chunks.flatten = parts.flatten) :
    groups chunks = parts := by
  have hfold : ∀ (l : List (List AccountPiece)), (∀ x ∈ l, (x.map AccountPiece.addressHash).Nodup) →
      ∀ k gs, (events k l).foldl Event.extend gs = l.flatten.foldl (fun gs p => extend gs true p) gs := by
    intro l
    induction l with
    | nil => exact fun _ _ _ => rfl
    | cons x l ih =>
      intro hl k gs
      rw [events, List.foldl_append, List.foldl_cons, foldl_chunkEvents (hl x List.mem_cons_self), List.flatten_cons,
        List.foldl_append]
      exact ih (fun y hy => hl y (List.mem_cons_of_mem _ hy)) (k + 1) _
  have hzero : ∀ g ∈ parts, addressOf g ≠ addressOf (([] : List (List AccountPiece)).getLastD []) := by
    intro g hg
    obtain ⟨p, hp⟩ := List.exists_mem_of_ne_nil g (h.ne_nil g hg)
    obtain ⟨hpg, hp0⟩ := h.address g hg p hp
    rw [← hpg]
    exact hp0
  unfold groups
  rw [hfold chunks hchunks, heq, foldl_parts h hzero]
  rfl

theorem Gives.hash_eq {c : Crypto} {code : Bytes} {x : PieceCode} (h : Gives c code x) :
    x.hash c = c.sha3 code := by
  cases h with
  | none h => rw [h]; rfl
  | bytes h => rfl
  | known h => rfl

variable {c : Crypto} {a : SnapshotAccount} {g : List AccountPiece} {accounts : List SnapshotAccount}
  {chunks : List (List AccountPiece)}

theorem Splits.address_eq (h : Splits c a g) : addressOf g = a.addressHash :=
  addressOf_of_mem h.ne_nil fun p hp => (h.fields p hp).1

theorem Splits.entry_eq (h : Splits c a g) (hsmall : ∀ p ∈ g, Small p) : entryOf c g = (a.addressHash.toNat,
    StateImporter.accountRLP a.nonce a.balance (c.trieRoot (storageMap a.storage)) (c.sha3 a.code)) := by
  have hstorage := h.storage
  have hfields := h.fields
  have hcode := h.code
  have hroot : StateImporter.rootOf c (storageMap (g.flatMap AccountPiece.storage)) =
      c.trieRoot (storageMap (g.flatMap AccountPiece.storage)) :=
    StateImporter.rootOf_eq (ascending_ofList _) (fit_storageMap hsmall)
  rw [h.storage] at hroot
  rcases g.eq_nil_or_concat with rfl | ⟨g, p, rfl⟩
  · exact absurd rfl h.ne_nil
  · rw [List.concat_eq_append] at hstorage hfields hcode ⊢
    have hmem : p ∈ g ++ [p] := List.mem_append_right _ (List.mem_singleton_self p)
    obtain ⟨haddress, hnonce, hbalance⟩ := hfields p hmem
    unfold entryOf
    rw [pendingOf_concat, hstorage, haddress, hnonce, hbalance, (hcode p hmem).hash_eq, ← hroot]

theorem addresses_eq {parts : List (List AccountPiece)} (h : List.Forall₂ (Splits c) accounts parts) :
    parts.map addressOf = accounts.map SnapshotAccount.addressHash := by
  induction h with
  | nil => rfl
  | cons hsplit _ ih => rw [List.map_cons, List.map_cons, hsplit.address_eq, ih]

theorem entries_eq {parts : List (List AccountPiece)} (h : List.Forall₂ (Splits c) accounts parts)
    (hsmall : ∀ g ∈ parts, ∀ p ∈ g, Small p) :
    parts.map (entryOf c) = accounts.map fun a => (a.addressHash.toNat,
      StateImporter.accountRLP a.nonce a.balance (c.trieRoot (storageMap a.storage)) (c.sha3 a.code)) := by
  induction h with
  | nil => rfl
  | cons hsplit _ ih =>
    rw [List.map_cons, List.map_cons, hsplit.entry_eq (hsmall _ List.mem_cons_self),
      ih fun g hg => hsmall g (List.mem_cons_of_mem _ hg)]

theorem exists_splits {parts : List (List AccountPiece)} (h : List.Forall₂ (Splits c) accounts parts) :
    ∀ g ∈ parts, ∃ a ∈ accounts, Splits c a g := by
  induction h with
  | nil => exact fun g hg => absurd hg List.not_mem_nil
  | cons hsplit _ ih =>
    intro g hg
    rcases List.mem_cons.1 hg with rfl | hg
    · exact ⟨_, List.mem_cons_self, hsplit⟩
    · obtain ⟨a, ha, hsplit⟩ := ih g hg
      exact ⟨a, List.mem_cons_of_mem _ ha, hsplit⟩

/-- The import takes the pieces of an account for one. -/
theorem Cuts.forall₂ (h : Cuts c accounts chunks) : List.Forall₂ (Splits c) accounts (groups chunks) := by
  obtain ⟨parts, hparts, heq⟩ := h.splits
  have hP : Parts parts := by
    refine ⟨fun g hg => ?_, fun g hg p hp => ?_, ?_⟩
    · obtain ⟨a, -, hsplit⟩ := exists_splits hparts g hg
      exact hsplit.ne_nil
    · obtain ⟨a, ha, hsplit⟩ := exists_splits hparts g hg
      rw [hsplit.address_eq, (hsplit.fields p hp).1]
      exact ⟨rfl, (h.valid a ha).addressHash⟩
    · rw [addresses_eq hparts]
      exact h.addresses
  rw [groups_eq hP h.apart heq]
  exact hparts

theorem Cuts.trie_eq (h : Cuts c accounts chunks) (hsmall : ∀ l ∈ chunks, ∀ p ∈ l, Small p) :
    trieOf c (groups chunks) = stateTrie c accounts := by
  have hpieces : ∀ g ∈ groups chunks, ∀ p ∈ g, Small p := by
    intro g hg p hp
    have hmem : p ∈ chunks.flatten := flatten_groups chunks ▸ List.mem_flatten.2 ⟨g, hg, hp⟩
    obtain ⟨l, hl, hpl⟩ := List.mem_flatten.1 hmem
    exact hsmall l hl p hpl
  unfold trieOf stateTrie
  rw [entries_eq h.forall₂ hpieces]

theorem Cuts.wellFormed (h : Cuts c accounts chunks) : WellFormed (groups chunks) := by
  refine ⟨⟨mem_groups_ne_nil, fun g hg p hp => ?_, fun g hg => ?_⟩, ?_⟩
  · obtain ⟨a, ha, hsplit⟩ := exists_splits h.forall₂ g hg
    have hvalid := h.valid a ha
    refine ⟨?_, fun e he => hvalid.storage e ?_, fun k hk => ?_⟩
    · rw [(hsplit.fields p hp).1]
      exact hvalid.addressHash
    · rw [← hsplit.storage]
      exact List.mem_flatMap.2 ⟨p, hp, he⟩
    · have hgives := hsplit.code p hp
      rw [hk] at hgives
      cases hgives with
      | known hcode => exact hvalid.codeHash hcode
  · obtain ⟨a, ha, hsplit⟩ := exists_splits h.forall₂ g hg
    rw [hsplit.storage]
    exact (h.valid a ha).keys
  · rw [addresses_eq h.forall₂]
    exact h.addresses

end

/-! ## Codes that are named by their hashes -/

/-- The strings over an empty disk. -/
def start : Volatile := ⟨some 1, false, false, false⟩

/-- The code 0x80 is found wherever it is named by its hash: it was given, or killed, behind the last commit, or an
earlier commit brought it to the disk. -/
def NullFound (c : Crypto) (chunks : List (List AccountPiece)) : Prop :=
  Named (fun n _ k => k = c.EmptyTrie → n.found = true) start [] (events 0 chunks)

instance (c : Crypto) (chunks : List (List AccountPiece)) : Decidable (NullFound c chunks) :=
  inferInstanceAs (Decidable (Named _ _ _ _))

/-- The empty string is not named by its hash if it was given as a code before the last commit. -/
def Unrevoked (c : Crypto) (chunks : List (List AccountPiece)) : Prop :=
  Named (fun n _ k => k = c.EmptySHA3 → n.gone = false) start [] (events 0 chunks)

/-- What holds of the strings of two imports stays so. -/
structure Follow (R : Volatile → Volatile → Prop) : Prop where
  account : ∀ {n n'} first stored, R n n' → R (n.account first stored) (n'.account first stored)
  code : ∀ {n n'} code, R n n' → R (n.code code) (n'.code code)
  commit : ∀ {n n'}, R n n' → R n.commit n'.commit

section

variable {R : Volatile → Volatile → Prop} {P Q : Volatile → List AccountPiece → H256 → Prop} {n n' : Volatile}
  {gs : List (List AccountPiece)} {es : List Event}

theorem Follow.piece (h : Follow R) (gs : List (List AccountPiece)) (p : AccountPiece) (hn : R n n') :
    R (previousVolatile n gs p) (previousVolatile n' gs p) ∧
      R ((previousVolatile n gs p).pieceCode p.code) ((previousVolatile n' gs p).pieceCode p.code) := by
  have hprevious : R (previousVolatile n gs p) (previousVolatile n' gs p) := by
    unfold previousVolatile
    split
    · exact hn
    · exact h.account _ _ hn
  refine ⟨hprevious, ?_⟩
  cases p.code with
  | bytes code => exact h.code code hprevious
  | _ => exact hprevious

theorem exists_flatten (es : List Event) (gs : List (List AccountPiece)) :
    ∃ post, (es.foldl Event.extend gs).flatten = gs.flatten ++ post := by
  induction es generalizing gs with
  | nil => exact ⟨[], (List.append_nil _).symm⟩
  | cons e es ih =>
    obtain ⟨post, hpost⟩ := ih (e.extend gs)
    rw [List.foldl_cons, hpost]
    cases e with
    | piece first p => exact ⟨p :: post, by rw [Event.extend, flatten_extend, List.append_assoc, List.singleton_append]⟩
    | commit k => exact ⟨post, rfl⟩

/-- A property of the hashes by which codes are named, with the pieces that come before. -/
theorem Named.follow (hR : Follow R) (hn : R n n') (h : Named P n gs es)
    (hPQ : ∀ n n' pre p post k, R n n' → (es.foldl Event.extend gs).flatten = pre ++ p :: post → p.code = .known k →
      P n pre k → Q n' pre k) : Named Q n' gs es := by
  induction es generalizing gs n n' with
  | nil => trivial
  | cons e es ih =>
    cases e with
    | commit k => exact ih (hR.commit hn) h hPQ
    | piece first p =>
      obtain ⟨hprevious, hcode⟩ := hR.piece gs p hn
      refine ⟨PieceCode.names_iff.2 fun k hk => ?_, ih hcode h.2 hPQ⟩
      obtain ⟨post, hpost⟩ := exists_flatten es (extend gs first p)
      rw [flatten_extend, List.append_assoc, List.singleton_append] at hpost
      exact hPQ _ _ _ p post k hprevious hpost hk (PieceCode.names_iff.1 h.1 k hk)

/-- What is on the disk stays there, and everything else is the same. -/
theorem follow_saved : Follow fun n n' => n' = n ∨ n'.saved = true where
  account first stored h := h.imp (congrArg fun x : Volatile => x.account first stored) (account_saved _ _ _).trans
  code code h := by
    refine h.imp (congrArg fun x : Volatile => x.code code) fun hs => ?_
    unfold Volatile.code
    split
    · exact hs
    · split <;> exact hs
  commit h := by
    refine h.imp (congrArg fun x : Volatile => x.commit) fun hs => ?_
    show (_ || _) = true
    rw [hs, Bool.or_true]

/-- What becomes of the empty string depends on nothing else. -/
theorem follow_gone : Follow fun n n' => n'.given = n.given ∧ n'.gone = n.gone where
  account first stored h := by
    rw [account_given, account_given, account_gone, account_gone]
    exact h
  code code h := by
    unfold Volatile.code
    split
    · exact h
    · split
      · exact ⟨rfl, h.2⟩
      · exact h
  commit h := ⟨h.1, h.1⟩

end

/-! ## Every cut -/

/-- A stored snapshot is imported if it is a cut of accounts, and refused if there is something wrong with it, over
every disk, whatever the writes take and whatever state root the manifest has. -/
def ImportsCuts (c : Crypto) (readChunk : H256 → Import Bytes) (hashes : List H256)
    (chunks : List (List AccountPiece)) : Prop :=
  ∀ (disk : Disk) (writes : ℕ → ℕ → Bool), StateTrie.Disk.Honest c disk →
    (∀ k, (List.range 10).any (writes k) = true) →
      (∀ accounts, Cuts c accounts chunks → ∃ s,
        importStateChunks c readChunk writes hashes (c.trieRoot (stateTrie c accounts))
          (StateImporter.new c (fresh (some disk))) = .ok s ∧
        ∀ a : H256, s.m_trie.at (asBytes 32 a) = .ok (((stateTrie c accounts).lookup a.toNat).getD [])) ∧
      (Defect c chunks → ∀ stateRoot, ∃ e,
        importStateChunks c readChunk writes hashes stateRoot (StateImporter.new c (fresh (some disk))) = .error e ∧
          (Refused e ∨ e = .StateTrieReconstructionFailed))

section

variable {c : Crypto} {chunks : List (List AccountPiece)} {disk : Disk} {accounts : List SnapshotAccount}
  {readChunk : H256 → Import Bytes} {hashes : List H256} {writes : ℕ → ℕ → Bool}

theorem importedAccounts_eq (hne : groups chunks ≠ []) : importedAccounts chunks = groups chunks :=
  dropLast_getLastD hne

theorem keptOf_mem {pieces : List AccountPiece} {q : AccountPiece} {code : Bytes} (hq : q ∈ pieces)
    (hcode : q.code = .bytes code) (hne : code ≠ RLPNull) : code ∈ keptOf pieces := by
  obtain ⟨l, r, rfl⟩ := List.append_of_mem hq
  have hkept : code ∈ q.code.kept := by
    rw [hcode, PieceCode.kept_bytes, if_neg hne]
    exact Multiset.mem_singleton_self code
  unfold keptOf
  rw [List.map_append, List.sum_append, List.map_cons, List.sum_cons]
  exact Multiset.mem_add.2 (.inr (Multiset.mem_add.2 (.inl hkept)))

/-- The codes of a cut are found. -/
theorem Cuts.named (h : Cuts c accounts chunks) (hnull : NullFound c chunks) :
    Named (fun n pieces k => ¬Unanswered c disk n (keptOf pieces) k) (startVolatile c disk) [] (events 0 chunks) := by
  have hstart : startVolatile c disk = start ∨ (startVolatile c disk).saved = true := by
    unfold startVolatile
    cases decide (disk.get (Disk.nodeKey c.EmptyTrie) ≠ []) with
    | false => exact .inl rfl
    | true => exact .inr rfl
  refine Named.follow follow_saved hstart hnull fun n n' pre p post k hn hpos hk hfound hmissing => ?_
  obtain ⟨q, hq, code, hne, hcode, hhash⟩ := h.codes pre p post k ((flatten_groups chunks).symm.trans hpos) hk
  by_cases hzero : code = RLPNull
  · have hempty : k = c.EmptyTrie := by
      rw [← hhash, hzero]
      rfl
    have hnot := hmissing.null hempty
    rcases hn with rfl | hsaved
    · rw [hfound hempty] at hnot
      cases hnot
    · unfold Volatile.found at hnot
      rw [hsaved, Bool.or_true] at hnot
      cases hnot
  · exact hmissing.given code (keptOf_mem hq hcode hzero) hne hhash

/-- A disk with a string under every hash by which a code is named. -/
def full : List AccountPiece → Disk
  | [] => ∅
  | p :: pieces => match p.code with
    | .known codeHash => (full pieces).insert (Disk.nodeKey codeHash) RLPNull
    | _ => full pieces

theorem get_full (pieces : List AccountPiece) (key : Bytes) : (full pieces).get key ∈ [[], RLPNull] ∧
    ∀ p ∈ pieces, ∀ k, p.code = .known k → key = Disk.nodeKey k → (full pieces).get key ≠ [] := by
  induction pieces with
  | nil =>
    rw [full, Disk.get, AList.lookup_empty]
    exact ⟨List.mem_cons_self, fun p hp => absurd hp List.not_mem_nil⟩
  | cons x pieces ih =>
    cases hx : x.code with
    | known h =>
      rw [full, hx]
      unfold Disk.get at ih ⊢
      by_cases hkey : key = Disk.nodeKey h
      · rw [hkey, AList.lookup_insert]
        exact ⟨by simp, fun _ _ _ _ _ => List.cons_ne_nil _ _⟩
      · rw [AList.lookup_insert_ne hkey]
        refine ⟨ih.1, fun p hp k hk heq => ?_⟩
        rcases List.mem_cons.1 hp with rfl | hp
        · rw [hx] at hk
          cases hk
          exact absurd heq hkey
        · exact ih.2 p hp k hk heq
    | _ =>
      rw [full, hx]
      refine ⟨ih.1, fun p hp k hk heq => ?_⟩
      rcases List.mem_cons.1 hp with rfl | hp
      · rw [hx] at hk
        cases hk
      · exact ih.2 p hp k hk heq

/-- Over such a disk only the empty string is missed. -/
theorem named_full (h : Unrevoked c chunks) : Named (fun n pieces k => ¬Unanswered c (full chunks.flatten) n
    (keptOf pieces) k) (startVolatile c (full chunks.flatten)) [] (events 0 chunks) := by
  have hstart : (startVolatile c (full chunks.flatten)).given = start.given ∧
      (startVolatile c (full chunks.flatten)).gone = start.gone := ⟨rfl, rfl⟩
  refine Named.follow follow_gone hstart h fun n n' pre p post k hn hpos hk hgone hmissing => ?_
  have hmem : p ∈ chunks.flatten := by
    rw [← flatten_groups, show (groups chunks).flatten = _ from hpos]
    exact List.mem_append_right _ List.mem_cons_self
  obtain ⟨hempty, hlost⟩ := hmissing.onDisk ((get_full chunks.flatten (Disk.nodeKey k)).2 p hmem k hk rfl)
  rw [hn.2, hgone hempty] at hlost
  cases hlost

theorem unrevoked_of_named (h : Named (fun n _ k => Answers c n k) (startVolatile c disk) [] (events 0 chunks)) :
    Unrevoked c chunks := by
  have hstart : start.given = (startVolatile c disk).given ∧ start.gone = (startVolatile c disk).gone := ⟨rfl, rfl⟩
  refine Named.follow follow_gone hstart h fun n n' pre p post k hn hpos hk hanswers hempty => ?_
  rw [hn.2]
  exact hanswers.2 hempty

theorem cuts_nil (hnil : chunks.flatten = []) : Cuts c [] chunks := by
  refine ⟨fun a ha => absurd ha List.not_mem_nil, List.nodup_nil, ⟨[], .nil, hnil⟩, fun l hl => ?_, ?_⟩
  · rw [List.flatten_eq_nil_iff.1 hnil l hl]
    exact List.nodup_nil
  · rw [hnil]
    intro pre p post k hl
    cases pre <;> cases hl

/-- Without accounts there is one in the state trie when the import has come to its end. -/
theorem lookup_importedAccounts (hnil : groups chunks = []) :
    ((trieOf c (importedAccounts chunks)).lookup (0 : H256).toNat).getD [] ≠ [] := by
  unfold importedAccounts
  rw [hnil]
  exact (StateTrie.Record.mk _ _ _ _).isItem_encode.ne_nil

/-- The import of every cut succeeds, and every defect is found, exactly if there are accounts, nothing is taken for the
rest of an account that is not, and the code 0x80 is not lost before it is named by its hash. -/
theorem importsCuts_iff (hsize : ∀ l ∈ chunks, (stateChunk l).length < 2 ^ 62) (hread : Stored readChunk hashes chunks)
    (hapart : Set.InjOn c.sha3 {b | .enter b ∈ importActs c chunks}) (hroom : (importActs c chunks).length < 2 ^ 32) :
    ImportsCuts c readChunk hashes chunks ↔ chunks.flatten ≠ [] ∧
      (WellFormed (groups chunks) → Unrevoked c chunks → Agrees c (groups chunks)) ∧
      ((∃ accounts, Cuts c accounts chunks) → NullFound c chunks) := by
  have hsetting : ∀ {disk : Disk} {writes : ℕ → ℕ → Bool}, StateTrie.Disk.Honest c disk →
      (∀ k, (List.range 10).any (writes k) = true) → Setting c disk writes readChunk hashes chunks :=
    fun hdisk hwrites => ⟨hsize, hread, hapart, hroom, hdisk, hwrites⟩
  have htries : ∀ k : ℕ, (List.range 10).any ((fun _ _ => true : ℕ → ℕ → Bool) k) = true := fun _ => rfl
  constructor
  · intro h
    refine ⟨fun hnil => ?_, fun hW hunrevoked => of_not_not fun hA => ?_, ?_⟩
    · have hdisk : StateTrie.Disk.Honest c (∅ : Disk) := List.mem_cons_self
      obtain ⟨s, hs, hat⟩ := (h ∅ _ hdisk htries).1 [] (cuts_nil hnil)
      rcases importStateChunks_cases (hsetting hdisk htries) with ⟨s', hs', hat', -⟩ | ⟨e, he, -⟩
      · rw [hs'] at hs
        split at hs
        · cases hs
        · cases hs
          refine lookup_importedAccounts (c := c) (groups_eq_nil_iff.2 hnil) ?_
          exact Except.ok.inj ((hat' 0).symm.trans (hat 0))
      · rw [he] at hs
        cases hs
    · have hdisk : StateTrie.Disk.Honest c (full chunks.flatten) := (get_full _ _).1
      rcases importStateChunks_cases (hsetting hdisk htries) with ⟨s, hs, -⟩ | ⟨e, -, -, hnames⟩
      · obtain ⟨e, he, -⟩ := (h _ _ hdisk htries).2 (.otherAccount hA) (c.trieRoot (trieOf c (importedAccounts chunks)))
        rw [hs, if_neg (not_not.2 rfl)] at he
        cases he
      · exact hnames hW (named_full hunrevoked)
    · rintro ⟨accounts, hcuts⟩
      have hdisk : StateTrie.Disk.Honest c (∅ : Disk) := List.mem_cons_self
      obtain ⟨s, hs, -⟩ := (h ∅ _ hdisk htries).1 accounts hcuts
      rcases importStateChunks_cases (hsetting hdisk htries) with ⟨s', -, -, -, hnamed⟩ | ⟨e, he, -⟩
      · exact Named.follow follow_saved (.inl rfl) hnamed fun n n' pre p post k hn hpos hk hanswers hempty =>
          hn.elim (fun heq => heq ▸ hanswers.1 hempty) fun hsaved => by
            unfold Volatile.found
            rw [hsaved, Bool.or_true]
      · rw [he] at hs
        cases hs
  · rintro ⟨hne, hA, hnull⟩ disk writes hdisk hwrites
    rw [Ne, ← groups_eq_nil_iff] at hne
    have hcases := importStateChunks_cases (hsetting hdisk hwrites)
    rw [importedAccounts_eq hne] at hcases
    refine ⟨fun accounts hcuts => ?_, fun hdefect stateRoot => ?_⟩
    · rw [hcuts.trie_eq fun l hl => small_of_stateChunk (hsize l hl)] at hcases
      rcases hcases with ⟨s, hs, hat, -⟩ | ⟨e, -, -, hnames⟩
      · exact ⟨s, (hs _).trans (if_neg (not_not.2 rfl)), hat⟩
      · exact absurd (hcuts.named (hnull ⟨accounts, hcuts⟩)) (hnames hcuts.wellFormed)
    · rcases hcases with ⟨s, hs, -, hW, hnamed⟩ | ⟨e, he, hrefused, -⟩
      · rw [hs]
        split
        · exact ⟨_, rfl, .inr rfl⟩
        · have hW := hW.resolve_left hne
          exact absurd hdefect (not_defect_iff.2 ⟨hW, hA hW (unrevoked_of_named hnamed)⟩)
      · exact ⟨e, he stateRoot, .inl hrefused⟩

end

section

private def firstPiece : AccountPiece := ⟨1, 7, 8, .bytes [0x80], [(1, [1])]⟩
private def restPiece : AccountPiece := ⟨1, 7, 8, .known rolling.EmptyTrie, [(3, [3]), (2, [2])]⟩
private def otherPiece : AccountPiece := ⟨2, 0, 9, .none, []⟩
private def thirdPiece : AccountPiece := ⟨3, 0, 9, .known rolling.EmptyTrie, []⟩

/-- The chunks under the hashes 1 and 2. -/
private def chunkAt (first second : List AccountPiece) (h : H256) : Import Bytes :=
  .ok (stateChunk (if h = 1 then first else second))

private theorem sha3_null : rolling.sha3 [0x80] = rolling.EmptyTrie := by decide +kernel

private theorem gives_null : Gives rolling [0x80] (.known rolling.EmptyTrie) := by
  rw [← sha3_null]
  exact .known (List.cons_ne_nil _ _)

/-- The code 0x80 is given by the first piece. -/
private theorem known_null {p : AccountPiece} {pre : List AccountPiece} {h : H256}
    (hcode : p.code = .known rolling.EmptyTrie) (hpre : firstPiece ∈ pre) (hp : p.code = .known h) :
    ∃ q ∈ pre, ∃ code ≠ [], q.code = .bytes code ∧ rolling.sha3 code = h := by
  rw [hcode] at hp
  cases hp
  exact ⟨firstPiece, hpre, [0x80], List.cons_ne_nil _ _, rfl, sha3_null⟩

/-- Without a chunk there are no accounts, and one is imported. And a code 0x80 is lost: the account that has it kills
it with its storage, and once more with itself, as the first one in the state trie. -/
theorem importStateChunks_nil : (Cuts rolling [] [] ∧
      (fun _ => ()) <$> importStateChunks rolling (fun _ => .error .InvalidStateChunkData) (fun _ _ => true) []
        (rolling.trieRoot (stateTrie rolling [])) (StateImporter.new rolling (fresh (some ∅))) =
          .error .StateTrieReconstructionFailed) ∧
    Cuts rolling [⟨1, 7, 8, [0x80], [(1, [1])]⟩, ⟨2, 0, 9, [], []⟩, ⟨3, 0, 9, [0x80], []⟩]
      [[firstPiece, otherPiece], [thirdPiece]] ∧
    (fun _ => ()) <$> importStateChunks rolling (chunkAt [firstPiece, otherPiece] [thirdPiece]) (fun _ _ => true) [1, 2]
      (rolling.trieRoot (stateTrie rolling
        [⟨1, 7, 8, [0x80], [(1, [1])]⟩, ⟨2, 0, 9, [], []⟩, ⟨3, 0, 9, [0x80], []⟩]))
      (StateImporter.new rolling (fresh (some ∅))) = .error .InvalidStateChunkData := by
  refine ⟨⟨cuts_nil rfl, by decide +kernel⟩, ⟨?_, by decide, ⟨[[firstPiece], [otherPiece], [thirdPiece]],
    .cons ?_ (.cons ?_ (.cons ?_ .nil)), rfl⟩, by decide, ?_⟩, by decide +kernel⟩
  · intro a ha
    simp only [List.mem_cons, List.not_mem_nil, or_false] at ha
    rcases ha with rfl | rfl | rfl <;> exact ⟨by decide, by decide +kernel, by decide, by decide⟩
  · refine ⟨by decide, by decide, fun p hp => ?_, rfl⟩
    rw [List.mem_singleton.1 hp]
    exact .bytes (by decide)
  · refine ⟨by decide, by decide, fun p hp => ?_, rfl⟩
    rw [List.mem_singleton.1 hp]
    exact .none rfl
  · refine ⟨by decide, by decide, fun p hp => ?_, rfl⟩
    rw [List.mem_singleton.1 hp]
    exact gives_null
  · intro pre p post h hl hp
    rcases pre with _ | ⟨p1, _ | ⟨p2, _ | ⟨p3, pre⟩⟩⟩
    · cases hl
      cases hp
    · cases hl
      cases hp
    · cases hl
      exact known_null rfl List.mem_cons_self hp
    · cases pre <;> cases hl

/-- An account over two chunks, and another one. -/
theorem importsCuts_two : Cuts rolling [⟨1, 7, 8, [0x80], [(1, [1]), (3, [3]), (2, [2])]⟩, ⟨2, 0, 9, [], []⟩]
      [[firstPiece], [restPiece, otherPiece]] ∧
    ImportsCuts rolling (chunkAt [firstPiece] [restPiece, otherPiece]) [1, 2]
      [[firstPiece], [restPiece, otherPiece]] := by
  refine ⟨⟨?_, by decide, ⟨[[firstPiece, restPiece], [otherPiece]], .cons ?_ (.cons ?_ .nil), rfl⟩, by decide, ?_⟩,
    (importsCuts_iff (by decide +kernel) (by unfold Stored; decide +kernel) (Act.injOn_iff.2 (by decide +kernel))
      (by decide +kernel)).2 ⟨by decide, fun _ _ => ?_, fun _ => by decide +kernel⟩⟩
  · intro a ha
    simp only [List.mem_cons, List.not_mem_nil, or_false] at ha
    rcases ha with rfl | rfl <;> exact ⟨by decide, by decide +kernel, by decide, by decide⟩
  · refine ⟨by decide, by decide, fun p hp => ?_, rfl⟩
    simp only [List.mem_cons, List.not_mem_nil, or_false] at hp
    rcases hp with rfl | rfl
    · exact .bytes (by decide)
    · exact gives_null
  · refine ⟨by decide, by decide, fun p hp => ?_, rfl⟩
    rw [List.mem_singleton.1 hp]
    exact .none rfl
  · intro pre p post h hl hp
    rcases pre with _ | ⟨p1, _ | ⟨p2, _ | ⟨p3, pre⟩⟩⟩
    · cases hl
      cases hp
    · cases hl
      exact known_null rfl List.mem_cons_self hp
    · cases hl
      cases hp
    · cases pre <;> cases hl
  · unfold Agrees
    decide +kernel

end

end SnapshotImporter

end Petrachor
