import Petrachor.StateTrie

/-!
# What a commit leaves

After any number of commits the database has the accounts of a plain map: their records in the state trie, their
storage under the root that the record names, and their code.
-/

namespace Petrachor

open RLPStream Tally GenericTrieDB FatGenericTrieDB

namespace StateTrie

/-- What a state has of an account. -/
structure Contents where
  nonce : U256
  balance : U256
  codeHash : H256
  storage : U256 → U256

/-- The tries of a state. -/
structure Tries where
  state : Trie
  storage : Address → Trie

namespace Account

variable (c : Crypto) (acc : Account) (a : Address) (s : Tries) (u : Trie)

/-- The storage that the changes of a commit are made to. -/
def base : Trie := if acc.m_storageRoot = c.EmptyTrie then .empty else u

/-- The storage that a commit leaves. -/
def stored : Trie := (hashedOps c (storageOps acc.m_storageOverlay)).foldl Op.after (acc.base c u)

def record : Record := ⟨acc.m_nonce, acc.m_balance, c.sha3 (encode c (acc.stored c u)), acc.m_codeHash⟩

/-- The change of the state trie. -/
def stateOp : Op :=
  if acc.m_isAlive then .insert (asBytes 20 a) (acc.record c u).encode else .remove (asBytes 20 a)

/-- What a commit makes of the account. -/
def contents (old : Option Contents) : Option Contents :=
  if acc.isDirty then
    if acc.m_isAlive then
      some ⟨acc.m_nonce, acc.m_balance, acc.m_codeHash, fun slot => (acc.m_storageOverlay.lookup slot).getD
        (if acc.m_storageRoot = c.EmptyTrie then 0 else old.elim 0 fun r => r.storage slot)⟩
    else none
  else old

/-- What a commit makes of the tries. -/
def tries : Tries :=
  if acc.isDirty then
    ⟨(hashedOp c (acc.stateOp c a (s.storage a))).after s.state,
      Function.update s.storage a (if acc.m_isAlive then acc.stored c (s.storage a) else .empty)⟩
  else s

def storageActs : List (Act Bytes) :=
  if acc.m_storageOverlay.entries.isEmpty then []
  else .enter RLPNull :: Op.allActs c (acc.base c u) (hashedOps c (storageOps acc.m_storageOverlay))

def codeActs : List (Act Bytes) := if acc.m_hasNewCode then [.enter acc.m_codeCache] else []

/-- What a commit does to the database. -/
def acts : List (Act Bytes) :=
  if acc.isDirty then
    (if acc.m_isAlive then acc.storageActs c (s.storage a) ++ acc.codeActs else []) ++
      (hashedOp c (acc.stateOp c a (s.storage a))).acts c s.state
  else []

/-- The code that a commit adds; what is the node without entries as well may be killed as such. -/
def newCode : Multiset Bytes :=
  if acc.isDirty && acc.m_isAlive && acc.m_hasNewCode && acc.m_codeCache ≠ RLPNull then {acc.m_codeCache} else 0

/-- The account was read from the state, or made or cleared since, and its new code is under the hash of it. -/
structure Fits (As : Finset Address) (Ss : Set U256) : Prop where
  known : a ∈ As
  slots : ∀ slot ∈ acc.m_storageOverlay, slot ∈ Ss
  based : acc.isDirty → acc.m_isAlive → acc.m_storageRoot = c.sha3 (encode c (acc.base c u))
  coded : acc.m_hasNewCode → acc.m_codeHash = c.sha3 acc.m_codeCache

end Account

def addressKeys (As : Finset Address) : Set Bytes := asBytes 20 '' (As : Set Address)

def slotKeys (Ss : Set U256) : Set Bytes := asBytes 32 '' Ss

/-- What is stored for the value of a slot. -/
def slotValue (v : U256) : Option Bytes := if v ≠ 0 then some (encodeInt v.toNat) else none

section

variable {c : Crypto} {As : Finset Address} {Ss : Set U256} {K N : Set Bytes} {t u : Trie} {f f' : Bytes → Option Bytes}
  {acc : Account} {a : Address} {s : Tries}

theorem slotKey_inj {slot slot' : U256} : asBytes 32 slot = asBytes 32 slot' ↔ slot = slot' := by
  refine ⟨fun h => ?_, congrArg _⟩
  have h' := congrArg (ofBytes 32) h
  rwa [ofBytes_asBytes (n := 32) slot, ofBytes_asBytes (n := 32) slot'] at h'

theorem addressKey_inj {a b : Address} : asBytes 20 a = asBytes 20 b ↔ a = b := by
  refine ⟨fun h => ?_, congrArg _⟩
  have h' := congrArg (ofBytes 20) h
  rwa [ofBytes_asBytes (n := 20) a, ofBytes_asBytes (n := 20) b] at h'

theorem nil_notMem_addressKeys (As : Finset Address) : [] ∉ addressKeys As := by
  rintro ⟨a, -, ha⟩
  have hlen : (asBytes 20 a).length = 20 := length_toBigEndian _ _
  rw [ha] at hlen
  cases hlen

theorem nil_notMem_slotKeys (Ss : Set U256) : [] ∉ slotKeys Ss := by
  rintro ⟨slot, -, hslot⟩
  have hlen : (asBytes 32 slot).length = 32 := length_toBigEndian _ _
  rw [hslot] at hlen
  cases hlen

/-! ## The changes of the storage -/

theorem entries_storageOp (f : Bytes → Option Bytes) (slot v : U256) :
    Op.entries f (storageOp slot v) = Function.update f (asBytes 32 slot) (slotValue v) := by
  unfold storageOp slotValue
  split <;> rfl

theorem storageOps_valid (h : ∀ slot ∈ acc.m_storageOverlay, slot ∈ Ss) :
    ∀ op ∈ storageOps acc.m_storageOverlay, op.Valid (slotKeys Ss) := by
  intro op hop
  obtain ⟨j, hj, rfl⟩ := List.mem_map.1 hop
  have hslot : asBytes 32 j.1 ∈ slotKeys Ss := ⟨j.1, h _ (List.mem_map_of_mem hj), rfl⟩
  unfold storageOp
  split
  · exact ⟨hslot, (length_encodeInt_toNat _).trans_lt (by norm_num)⟩
  · exact hslot

/-- The changes leave of a slot what the overlay has for it. -/
theorem entries_storageOps (overlay : AList fun _ : U256 => U256) (f : Bytes → Option Bytes) (slot : U256) :
    (storageOps overlay).foldl Op.entries f (asBytes 32 slot) =
      (overlay.lookup slot).elim (f (asBytes 32 slot)) slotValue := by
  have hall : ∀ (l : List (Sigma fun _ : U256 => U256)) (f : Bytes → Option Bytes), l.NodupKeys →
      (l.map fun j => storageOp j.1 j.2).foldl Op.entries f (asBytes 32 slot) =
        (l.dlookup slot).elim (f (asBytes 32 slot)) slotValue := by
    intro l
    induction l with
    | nil => exact fun _ _ => rfl
    | cons j l ih =>
      intro f hnodup
      obtain ⟨k, v⟩ := j
      rw [List.nodupKeys_cons] at hnodup
      rw [List.map_cons, List.foldl_cons, ih _ hnodup.2, entries_storageOp]
      by_cases heq : slot = k
      · subst heq
        rw [List.dlookup_cons_eq, List.dlookup_eq_none.2 hnodup.1, Option.elim_none, Function.update_self]
        rfl
      · rw [List.dlookup_cons_ne _ _ heq, Function.update_of_ne fun h => heq (slotKey_inj.1 h)]
  exact hall overlay.entries f overlay.nodupKeys

/-! ## One account -/

variable {δ : Type} [NodeDB δ] [LaxNodeDB δ] [AuxDB δ] [LawfulAuxDB δ] {g : GenericTrieDB δ} {R C : Multiset Bytes}
  {l : List (Act Bytes)} {b : Bytes}

omit [AuxDB δ] [LawfulAuxDB δ] in
theorem afloat_mono
    {R' : Multiset Bytes} (h : Afloat c N g t R l) (hle : R' ≤ R) : Afloat c N g t R' l := by
  obtain ⟨A, hs, hA⟩ := h.steady
  exact ⟨h.root, ⟨A, hs, (Multiset.add_le_add_left hle).trans hA⟩, h.read⟩

/-- The second database comes of the first one by nodes and keys that are inserted, and nodes that are killed. -/
inductive Follows {δ : Type} [NodeDB δ] [AuxDB δ] (db : δ) : δ → Prop
  | refl : Follows db db
  | insert {db' : δ} (h : H256) (b : Bytes) : Follows db db' → Follows db (NodeDB.insert db' h b)
  | kill {db' : δ} (h : H256) : Follows db db' → Follows db (NodeDB.kill db' h)
  | insertAux {db' : δ} (h : H256) (b : Bytes) : Follows db db' → Follows db (AuxDB.insertAux db' h b)

namespace Follows

variable {db db' db'' : δ}

omit [LaxNodeDB δ] [LawfulAuxDB δ]

theorem trans (h : Follows db db') (h' : Follows db' db'') : Follows db db'' := by
  induction h' with
  | refl => exact h
  | insert x b _ ih => exact ih.insert x b
  | kill x _ ih => exact ih.kill x
  | insertAux x b _ ih => exact ih.insertAux x b

theorem play (c : Crypto) (db : δ) (l : List (Act Bytes)) : Follows db (play c db l) := by
  induction l generalizing db with
  | nil => exact .refl
  | cons a l ih =>
    have hact : Follows db (perform c db a) := by
      cases a with
      | enter b => exact .insert _ b .refl
      | strike b => exact .kill _ .refl
    exact hact.trans (ih _)

theorem «open» {root : H256} (h : GenericTrieDB.open c db root = .ok g) : Follows db g.m_db := by
  rw [← eq_of_open h]
  split
  · exact .insert _ _ .refl
  · exact .refl

end Follows

omit [LawfulAuxDB δ] in
theorem follows_step {op : Op} (h : Fat c K N g t f R ((hashedOp c op).acts c t ++ l)) (hop : op.Valid K)
    (hR : RLPNull ∉ R) {g' : GenericTrieDB δ} (hstep : FatGenericTrieDB.step c g op = .ok g') :
    Follows g.m_db g'.m_db := by
  obtain ⟨heq, -, -⟩ := h.afloat.step (keySet_hashed c K) h.lists.shows (Lists.valid_hashedOp hop) hR
  cases op with
  | remove key =>
    obtain rfl := Except.ok.inj (heq.symm.trans hstep)
    exact .play c _ _
  | insert key v =>
    have hinsert : FatGenericTrieDB.insert c g key v = .ok g' := hstep
    unfold FatGenericTrieDB.insert at hinsert
    rw [show GenericTrieDB.insert c g (hashedKey c key) v = _ from heq, ok_bind] at hinsert
    obtain rfl := Except.ok.inj hinsert
    exact .insertAux _ _ (.play c _ _)

theorem follows_run (hinj : K.InjOn c.sha3) (hnil : [] ∉ K) (hR : RLPNull ∉ R) (ops : List Op)
    (hops : ∀ op ∈ ops, op.Valid K) (h : Fat c K N g t f R (Op.allActs c t (hashedOps c ops) ++ l))
    {g' : GenericTrieDB δ} (hrun : FatGenericTrieDB.run c g ops = .ok g') : Follows g.m_db g'.m_db := by
  induction ops generalizing g t f with
  | nil =>
    obtain rfl := Except.ok.inj hrun
    exact .refl
  | cons op ops ih =>
    have hop := hops op List.mem_cons_self
    rw [hashedOps, List.map_cons, Op.allActs, List.append_assoc] at h
    obtain ⟨g₁, hstep, h₁, -, -⟩ := h.step hinj hnil subset_rfl hop hR
    rw [FatGenericTrieDB.run, List.foldlM_cons, hstep, ok_bind] at hrun
    exact (follows_step h hop hR hstep).trans (ih (fun o ho => hops o (List.mem_cons_of_mem _ ho)) h₁ hrun)

theorem need_base (c : Crypto) (acc : Account) (u : Trie) : need c (acc.base c u) ≤ need c u := by
  unfold Account.base
  split
  · exact Multiset.zero_le _
  · exact le_rfl

theorem lists_base (acc : Account) (h : Lists c K u f) :
    Lists c K (acc.base c u) (if acc.m_storageRoot = c.EmptyTrie then fun _ => none else f) := by
  unfold Account.base
  split
  · exact Lists.empty c K
  · exact h

/-- The storage of an account is committed beside the state trie. -/
theorem commitStorage_eq (hK : KeySet K) (hSs : (slotKeys Ss).InjOn c.sha3) (ht : Shows K t f)
    (hu : Lists c (slotKeys Ss) u f') (hslots : ∀ slot ∈ acc.m_storageOverlay, slot ∈ Ss)
    (hbased : acc.m_storageRoot = c.sha3 (encode c (acc.base c u))) (hR : RLPNull ∉ R)
    (h : Afloat c N g t (need c u + R) (acc.storageActs c u ++ l)) :
    ∃ db, commitStorage c g.m_db acc = .ok (c.sha3 (encode c (acc.stored c u)), db) ∧
      Afloat c N ⟨g.m_root, db⟩ t (need c (acc.stored c u) + R) l ∧ Follows g.m_db db := by
  unfold Account.storageActs at h
  unfold commitStorage
  have hbase := lists_base acc hu
  have hle : need c (acc.base c u) + R ≤ need c u + R := Multiset.add_le_add_right (need_base c acc u)
  cases hempty : acc.m_storageOverlay.entries.isEmpty with
  | true =>
    have hstored : acc.stored c u = acc.base c u := by
      unfold Account.stored storageOps
      rw [List.isEmpty_iff.1 hempty]
      rfl
    rw [hempty, if_pos rfl, List.nil_append] at h
    rw [if_pos rfl, hbased, hstored]
    exact ⟨g.m_db, rfl, afloat_mono h hle, .refl⟩
  | false =>
    rw [hempty, if_neg Bool.false_ne_true, List.cons_append] at h
    rw [if_neg Bool.false_ne_true, hbased]
    have hrest : RLPNull ∉ need c t + R := fun hmem =>
      (Multiset.mem_add.1 hmem).elim (null_notMem_need hK ht) hR
    obtain ⟨A, hs, hA⟩ := h.steady
    have hA' : need c (acc.base c u) + (need c t + R) ≤ A := by
      calc need c (acc.base c u) + (need c t + R) = need c t + (need c (acc.base c u) + R) := add_left_comm _ _ _
        _ ≤ _ := Multiset.add_le_add_left hle
        _ ≤ A := hA
    obtain ⟨g₁, hopen, hg₁, hnull₁⟩ := hs.open_eq (keySet_hashed c _) hbase.shows hA'
    have hfat : Fat c (slotKeys Ss) N g₁ (acc.base c u) _ (need c t + R) _ := ⟨hbase, hg₁⟩
    obtain ⟨g₂, hrun, hg₂, hnull₂, -⟩ := hfat.run_eq hSs (nil_notMem_slotKeys Ss) subset_rfl hrest
      (storageOps acc.m_storageOverlay) (storageOps_valid hslots)
    have hfollows := follows_run hSs (nil_notMem_slotKeys Ss) hrest _ (storageOps_valid hslots) hfat hrun
    obtain ⟨A₂, hs₂, hA₂⟩ := hg₂.afloat.steady
    refine ⟨g₂.m_db, ?_, ⟨h.root, ⟨A₂, hs₂, ?_⟩, fun ht' => hnull₂ (hnull₁ (h.read ht'))⟩,
      (Follows.open hopen).trans hfollows⟩
    · rw [hopen, ok_bind, hrun, ok_bind, hg₂.afloat.root_eq (keySet_hashed c _) hg₂.lists.shows]
      rfl
    · rw [add_left_comm]
      exact hA₂

omit [AuxDB δ] [LawfulAuxDB δ] in
/-- The new code of an account is entered under its hash. -/
theorem codeActs_eq (hcoded : acc.m_hasNewCode → acc.m_codeHash = c.sha3 acc.m_codeCache)
    (h : Afloat c N g t R (acc.codeActs ++ l)) :
    Afloat c N ⟨g.m_root, if acc.m_hasNewCode then NodeDB.insert g.m_db acc.m_codeHash acc.m_codeCache else g.m_db⟩ t
      (R + if acc.m_hasNewCode && acc.m_codeCache ≠ RLPNull then {acc.m_codeCache} else 0) l := by
  unfold Account.codeActs at h
  cases hnew : acc.m_hasNewCode with
  | false =>
    rw [hnew] at h
    rw [Bool.false_and, if_neg Bool.false_ne_true, if_neg Bool.false_ne_true, add_zero]
    exact h
  | true =>
    rw [hnew, if_pos rfl, List.singleton_append] at h
    rw [if_pos rfl, hcoded hnew]
    obtain ⟨A, hs, hA⟩ := h.steady
    refine ⟨h.root, ⟨_, hs.enter, ?_⟩, fun ht => hs.nulled_perform (h.read ht)⟩
    rw [← add_assoc, ← Multiset.singleton_add, add_comm {_}]
    refine add_le_add hA ?_
    split
    · exact le_rfl
    · exact Multiset.zero_le _

/-- The record of an account whose storage is a given trie. -/
def Contents.record (c : Crypto) (u : Trie) (r : Contents) : Record :=
  ⟨r.nonce, r.balance, c.sha3 (encode c u), r.codeHash⟩

/-- The database has what the map says of the accounts, and their code. -/
structure Committed (c : Crypto) (As : Finset Address) (Ss : Set U256) (N : Set Bytes) (g : GenericTrieDB δ) (s : Tries)
    (m : Address → Option Contents) (C : Multiset Bytes) (l : List (Act Bytes)) : Prop where
  afloat : Afloat c N g s.state (∑ a ∈ As, need c (s.storage a) + C) l
  records : ∃ f, Lists c (addressKeys As) s.state f ∧
    ∀ a ∈ As, f (asBytes 20 a) = (m a).map fun r => (r.record c (s.storage a)).encode
  slots : ∀ a ∈ As, ∃ f, Lists c (slotKeys Ss) (s.storage a) f ∧
    ∀ slot ∈ Ss, f (asBytes 32 slot) = slotValue ((m a).elim 0 fun r => r.storage slot)
  codes : RLPNull ∉ C

section

variable {m : Address → Option Contents} {w : Option Contents} {v : Trie} {σ : Address → Trie}

omit [NodeDB δ] [LaxNodeDB δ] [AuxDB δ] [LawfulAuxDB δ] in
theorem sum_need_update (ha : a ∈ As) :
    ∑ b ∈ As, need c (Function.update σ a v b) = need c v + ∑ b ∈ As.erase a, need c (σ b) := by
  rw [← Finset.add_sum_erase _ _ ha, Function.update_self]
  congr 1
  refine Finset.sum_congr rfl fun b hb => ?_
  rw [Function.update_of_ne (Finset.ne_of_mem_erase hb)]

omit [NodeDB δ] [LaxNodeDB δ] [AuxDB δ] [LawfulAuxDB δ] in
theorem records_update (hf : ∀ b ∈ As, f (asBytes 20 b) = (m b).map fun r => (r.record c (σ b)).encode) :
    ∀ b ∈ As, Function.update f (asBytes 20 a) (w.map fun r => (r.record c v).encode) (asBytes 20 b) =
      (Function.update m a w b).map fun r => (r.record c (Function.update σ a v b)).encode := by
  intro b hb
  by_cases heq : b = a
  · subst heq
    rw [Function.update_self, Function.update_self, Function.update_self]
  · rw [Function.update_of_ne fun h => heq (addressKey_inj.1 h), Function.update_of_ne heq, Function.update_of_ne heq]
    exact hf b hb

omit [NodeDB δ] [LaxNodeDB δ] [AuxDB δ] [LawfulAuxDB δ] in
theorem slots_update (hslots : ∀ b ∈ As, ∃ f, Lists c (slotKeys Ss) (σ b) f ∧
      ∀ slot ∈ Ss, f (asBytes 32 slot) = slotValue ((m b).elim 0 fun r => r.storage slot))
    (hv : Lists c (slotKeys Ss) v f)
    (hf : ∀ slot ∈ Ss, f (asBytes 32 slot) = slotValue (w.elim 0 fun r => r.storage slot)) :
    ∀ b ∈ As, ∃ f, Lists c (slotKeys Ss) (Function.update σ a v b) f ∧
      ∀ slot ∈ Ss, f (asBytes 32 slot) = slotValue ((Function.update m a w b).elim 0 fun r => r.storage slot) := by
  intro b hb
  by_cases heq : b = a
  · subst heq
    rw [Function.update_self, Function.update_self]
    exact ⟨f, hv, hf⟩
  · rw [Function.update_of_ne heq, Function.update_of_ne heq]
    exact hslots b hb

omit [NodeDB δ] [LaxNodeDB δ] [AuxDB δ] [LawfulAuxDB δ] in
theorem null_notMem_sum {As' : Finset Address} (hsub : As' ⊆ As)
    (hslots : ∀ b ∈ As, ∃ f, Lists c (slotKeys Ss) (σ b) f ∧
      ∀ slot ∈ Ss, f (asBytes 32 slot) = slotValue ((m b).elim 0 fun r => r.storage slot)) (hC : RLPNull ∉ C) :
    RLPNull ∉ ∑ b ∈ As', need c (σ b) + C := by
  intro hmem
  rcases Multiset.mem_add.1 hmem with hmem | hmem
  · obtain ⟨b, hb, hnull⟩ := Multiset.mem_sum.1 hmem
    obtain ⟨f, hf, -⟩ := hslots b (hsub hb)
    exact null_notMem_need (keySet_hashed c _) hf.shows hnull
  · exact hC hmem

namespace Committed

/-- The storage and the code of an account are committed before its record. -/
theorem storage_code (hSs : (slotKeys Ss).InjOn c.sha3) (hfits : acc.Fits c a (s.storage a) As Ss)
    (hdirty : acc.isDirty = true) (halive : acc.m_isAlive = true)
    (h : Committed c As Ss N g s m C (acc.storageActs c (s.storage a) ++ (acc.codeActs ++ l))) :
    ∃ db, commitStorage c g.m_db acc = .ok (c.sha3 (encode c (acc.stored c (s.storage a))), db) ∧
      Afloat c N ⟨g.m_root, if acc.m_hasNewCode then NodeDB.insert db acc.m_codeHash acc.m_codeCache else db⟩ s.state
        (∑ b ∈ As, need c (Function.update s.storage a (acc.stored c (s.storage a)) b) + (C + acc.newCode)) l ∧
      Follows g.m_db (if acc.m_hasNewCode then NodeDB.insert db acc.m_codeHash acc.m_codeCache else db) := by
  obtain ⟨f, hf, -⟩ := h.records
  obtain ⟨fs, hfs, -⟩ := h.slots a hfits.known
  have hafloat := h.afloat
  rw [← Finset.add_sum_erase _ _ hfits.known, add_assoc] at hafloat
  obtain ⟨db, hstorage, hdb, hfollows⟩ := commitStorage_eq (keySet_hashed c _) hSs hf.shows hfs hfits.slots
    (hfits.based hdirty halive) (null_notMem_sum (Finset.erase_subset _ _) h.slots h.codes) hafloat
  have hentered :
      Follows g.m_db (if acc.m_hasNewCode then NodeDB.insert db acc.m_codeHash acc.m_codeCache else db) := by
    split
    · exact hfollows.insert _ _
    · exact hfollows
  refine ⟨db, hstorage, ?_, hentered⟩
  have hcode := codeActs_eq hfits.coded hdb
  rw [sum_need_update hfits.known]
  unfold Account.newCode
  rw [hdirty, halive, Bool.true_and, Bool.true_and, ← add_assoc]
  rw [← add_assoc] at hcode
  exact hcode

omit [NodeDB δ] [LaxNodeDB δ] [AuxDB δ] [LawfulAuxDB δ] in
/-- What the storage that a commit leaves has of a slot. -/
theorem stored_slots (hSs : (slotKeys Ss).InjOn c.sha3) (hslots : ∀ slot ∈ acc.m_storageOverlay, slot ∈ Ss)
    {old : Option Contents} (hu : Lists c (slotKeys Ss) u f)
    (hf : ∀ slot ∈ Ss, f (asBytes 32 slot) = slotValue (old.elim 0 fun r => r.storage slot)) :
    ∃ f', Lists c (slotKeys Ss) (acc.stored c u) f' ∧ ∀ slot ∈ Ss, f' (asBytes 32 slot) =
      slotValue ((acc.m_storageOverlay.lookup slot).getD
        (if acc.m_storageRoot = c.EmptyTrie then 0 else old.elim 0 fun r => r.storage slot)) := by
  refine ⟨_, (lists_base acc hu).run hSs _ (storageOps_valid hslots), fun slot hslot => ?_⟩
  rw [entries_storageOps]
  cases acc.m_storageOverlay.lookup slot with
  | some v => rfl
  | none =>
    rw [Option.elim_none, Option.getD_none]
    split
    · rfl
    · exact hf slot hslot

/-- An account is taken out of the state trie. -/
theorem killed (hAs : (addressKeys As).InjOn c.sha3) (ha : a ∈ As)
    (h : Committed c As Ss N g s m C ((hashedOp c (.remove (asBytes 20 a))).acts c s.state ++ l)) :
    ∃ g', FatGenericTrieDB.remove c g (asBytes 20 a) = .ok g' ∧
      Committed c As Ss N g' ⟨(hashedOp c (.remove (asBytes 20 a))).after s.state, Function.update s.storage a .empty⟩
        (Function.update m a none) C l ∧ Follows g.m_db g'.m_db := by
  obtain ⟨f, hf, hrecords⟩ := h.records
  have hfat : Fat c (addressKeys As) N g s.state f _ _ := ⟨hf, h.afloat⟩
  have hkey : Op.Valid (addressKeys As) (.remove (asBytes 20 a)) := ⟨a, ha, rfl⟩
  obtain ⟨g', hstep, hg', -, -⟩ :=
    hfat.step hAs (nil_notMem_addressKeys As) subset_rfl hkey (null_notMem_sum subset_rfl h.slots h.codes)
  refine ⟨g', hstep, ⟨afloat_mono hg'.afloat ?_, ⟨_, hg'.lists, ?_⟩, ?_, h.codes⟩,
    follows_step hfat hkey (null_notMem_sum subset_rfl h.slots h.codes) hstep⟩
  · rw [sum_need_update ha, ← Finset.add_sum_erase _ _ ha]
    exact Multiset.add_le_add_right (Multiset.add_le_add_right (Multiset.zero_le _))
  · have hupdate := @records_update c As f a m none .empty s.storage hrecords
    exact hupdate
  · exact slots_update h.slots (Lists.empty c _) fun _ _ => rfl

/-- The record of an account is written into the state trie, after its storage and its code. -/
theorem written (hAs : (addressKeys As).InjOn c.sha3) (ha : a ∈ As) {r : Contents} {C' : Multiset Bytes}
    {l' : List (Act Bytes)} (h : Committed c As Ss N g s m C l') {g₁ : GenericTrieDB δ} (hC : RLPNull ∉ C')
    (hv : ∃ f, Lists c (slotKeys Ss) v f ∧ ∀ slot ∈ Ss, f (asBytes 32 slot) = slotValue (r.storage slot))
    (hafloat : Afloat c N g₁ s.state (∑ b ∈ As, need c (Function.update s.storage a v b) + C')
      ((hashedOp c (.insert (asBytes 20 a) (r.record c v).encode)).acts c s.state ++ l)) :
    ∃ g', FatGenericTrieDB.insert c g₁ (asBytes 20 a) (r.record c v).encode = .ok g' ∧
      Committed c As Ss N g' ⟨(hashedOp c (.insert (asBytes 20 a) (r.record c v).encode)).after s.state,
        Function.update s.storage a v⟩ (Function.update m a (some r)) C' l ∧ Follows g₁.m_db g'.m_db := by
  obtain ⟨f, hf, hrecords⟩ := h.records
  obtain ⟨fs, hfs, hfs'⟩ := hv
  have hslots := slots_update (a := a) (w := some r) h.slots hfs hfs'
  have hfat : Fat c (addressKeys As) N g₁ s.state f _ _ := ⟨hf, hafloat⟩
  have hvalid : Op.Valid (addressKeys As) (.insert (asBytes 20 a) (r.record c v).encode) :=
    ⟨⟨a, ha, rfl⟩, (r.record c v).length_encode⟩
  obtain ⟨g', hstep, hg', -, -⟩ :=
    hfat.step hAs (nil_notMem_addressKeys As) subset_rfl hvalid (null_notMem_sum subset_rfl hslots hC)
  refine ⟨g', hstep, ⟨hg'.afloat, ⟨_, hg'.lists, ?_⟩, hslots, hC⟩,
    follows_step hfat hvalid (null_notMem_sum subset_rfl hslots hC) hstep⟩
  have hupdate := @records_update c As f a m (some r) v s.storage hrecords
  exact hupdate

theorem null_notMem_newCode (acc : Account) : RLPNull ∉ acc.newCode := by
  unfold Account.newCode
  split
  · rename_i h
    rw [Bool.and_eq_true, decide_eq_true_eq] at h
    exact fun hmem => h.2 (Multiset.mem_singleton.1 hmem).symm
  · exact Multiset.notMem_zero _

/-- One account is committed. -/
theorem step (hAs : (addressKeys As).InjOn c.sha3) (hSs : (slotKeys Ss).InjOn c.sha3)
    (hfits : acc.Fits c a (s.storage a) As Ss) (h : Committed c As Ss N g s m C (acc.acts c a s ++ l)) :
    ∃ g', commitAccount c g a acc = .ok g' ∧ Committed c As Ss N g' (acc.tries c a s)
      (Function.update m a (acc.contents c (m a))) (C + acc.newCode) l ∧ Follows g.m_db g'.m_db := by
  unfold Account.acts at h
  unfold commitAccount Account.tries Account.contents
  cases hdirty : acc.isDirty with
  | false =>
    have hcode : acc.newCode = 0 := by
      unfold Account.newCode
      rw [hdirty]
      rfl
    rw [hdirty, if_neg Bool.false_ne_true, List.nil_append] at h
    rw [if_neg Bool.false_ne_true, if_neg Bool.false_ne_true, if_neg Bool.false_ne_true, Function.update_eq_self, hcode,
      add_zero]
    exact ⟨g, rfl, h, .refl⟩
  | true =>
    rw [hdirty, if_pos rfl] at h
    rw [if_pos rfl, if_pos rfl, if_pos rfl]
    cases halive : acc.m_isAlive with
    | false =>
      have hop : acc.stateOp c a (s.storage a) = .remove (asBytes 20 a) := by
        unfold Account.stateOp
        rw [halive, if_neg Bool.false_ne_true]
      have hcode : acc.newCode = 0 := by
        unfold Account.newCode
        rw [halive, Bool.and_false]
        rfl
      rw [halive, if_neg Bool.false_ne_true, List.nil_append, hop] at h
      rw [Bool.not_false, if_pos rfl, if_neg Bool.false_ne_true, if_neg Bool.false_ne_true, hop, hcode, add_zero]
      exact h.killed hAs hfits.known
    | true =>
      have hop : acc.stateOp c a (s.storage a) = .insert (asBytes 20 a) (acc.record c (s.storage a)).encode := by
        unfold Account.stateOp
        rw [halive, if_pos rfl]
      obtain ⟨r, hr⟩ : ∃ r : Contents, r = ⟨acc.m_nonce, acc.m_balance, acc.m_codeHash, fun slot =>
        (acc.m_storageOverlay.lookup slot).getD
          (if acc.m_storageRoot = c.EmptyTrie then 0 else (m a).elim 0 fun r => r.storage slot)⟩ := ⟨_, rfl⟩
      have hrecord : acc.record c (s.storage a) = r.record c (acc.stored c (s.storage a)) := by
        rw [hr]
        rfl
      rw [hrecord] at hop
      rw [halive, if_pos rfl, hop, List.append_assoc, List.append_assoc] at h
      rw [Bool.not_true, if_neg Bool.false_ne_true, if_pos rfl, if_pos rfl, hop, ← hr]
      obtain ⟨db, hstorage, hdb, hfollows⟩ := h.storage_code hSs hfits hdirty halive
      obtain ⟨fs, hfs, hfs'⟩ := h.slots a hfits.known
      have hC : RLPNull ∉ C + acc.newCode := fun hmem =>
        (Multiset.mem_add.1 hmem).elim h.codes (null_notMem_newCode acc)
      have hv := stored_slots hSs hfits.slots hfs hfs'
      have hvr : ∃ f, Lists c (slotKeys Ss) (acc.stored c (s.storage a)) f ∧
          ∀ slot ∈ Ss, f (asBytes 32 slot) = slotValue (r.storage slot) := by
        rw [hr]
        exact hv
      obtain ⟨g', hinsert, hg', hfollows'⟩ := h.written hAs hfits.known hC hvr hdb
      refine ⟨g', ?_, hg', hfollows.trans hfollows'⟩
      rw [hstorage, ok_bind, ← hinsert, ← hrecord]
      rfl

end Committed

end

end

end StateTrie

end Petrachor
