import Petrachor.MemoryDB
import Petrachor.Lib.Keyed

/-!
# The database over the disk

New nodes are kept in memory until they are committed, and what is not in memory is read from the disk. The disk is a
map of byte strings that takes a batch of writes whole or not at all; nothing is ever deleted from it.
-/

namespace Petrachor

abbrev Disk := AList fun _ : Bytes => Bytes

namespace Disk

/-- `Get`; what is not found is empty. -/
def get (d : Disk) (key : Bytes) : Bytes := (d.lookup key).getD []

def nodeKey (h : H256) : Bytes := asBytes 32 h

def auxKey (h : H256) : Bytes := asBytes 32 h ++ [255]

/-- The part of the batch for one node. -/
def putNode (d : Disk) (h : H256) (e : Bytes × ℕ) : Disk := if e.2 ≠ 0 then d.insert (nodeKey h) e.1 else d

def putAux (d : Disk) (h : H256) (e : Bytes × Bool) : Disk := if e.2 then d.insert (auxKey h) e.1 else d

end Disk

structure LevelOverlayDB extends MemoryDB where
  m_db : Option Disk

namespace LevelOverlayDB

open Disk

/-- What the disk has under a key. -/
def get (db : LevelOverlayDB) (key : Bytes) : Bytes := (db.m_db.map fun d => d.get key).getD []

def lookup (db : LevelOverlayDB) (h : H256) : Bytes :=
  let ret := db.toMemoryDB.lookup h
  if ret = [] then db.get (nodeKey h) else ret

def «exists» (db : LevelOverlayDB) (h : H256) : Bool := db.toMemoryDB.exists h || db.get (nodeKey h) ≠ []

def insert (db : LevelOverlayDB) (h : H256) (v : Bytes) : LevelOverlayDB :=
  { db with toMemoryDB := db.toMemoryDB.insert h v }

/-- A node that is not counted in memory stays on the disk. -/
def kill (db : LevelOverlayDB) (h : H256) : LevelOverlayDB := { db with toMemoryDB := (db.toMemoryDB.kill h).2 }

def lookupAux (db : LevelOverlayDB) (h : H256) : Bytes :=
  let ret := db.toMemoryDB.lookupAux h
  if ret = [] then db.get (auxKey h) else ret

/-- The writes of a commit. -/
def batch (db : LevelOverlayDB) (d : Disk) : Disk := db.m_aux.foldl putAux (db.m_main.foldl putNode d)

/-- A write is tried ten times, and the process ends if none of them succeeds. -/
def commit (db : LevelOverlayDB) (writes : ℕ → Bool) : Option LevelOverlayDB :=
  match db.m_db with
  | none => some db
  | some d =>
    if (List.range 10).any writes then
      some { db with m_main := ∅, m_aux := ∅, m_db := some (db.batch d) }
    else none

def rollback (db : LevelOverlayDB) : LevelOverlayDB := { db with m_main := ∅ }

instance : NodeDB LevelOverlayDB where
  lookup := lookup
  «exists» := «exists»
  insert := insert
  kill := kill

/-! ## The disk -/

/-- What the disk has for a hash. -/
def onDisk (db : LevelOverlayDB) (h : H256) : Option Bytes := db.m_db.bind fun d => d.lookup (nodeKey h)

theorem nodeKey_injective : Function.Injective nodeKey := by
  intro h h' heq
  have hval := congrArg fromBigEndian heq
  unfold nodeKey asBytes at hval
  rw [fromBigEndian_toBigEndian, fromBigEndian_toBigEndian] at hval
  have h1 := h.isLt
  have h2 := h'.isLt
  exact BitVec.eq_of_toNat_eq (by omega)

theorem nodeKey_ne_auxKey (h h' : H256) : nodeKey h ≠ auxKey h' := by
  intro heq
  have hlen := congrArg List.length heq
  unfold nodeKey auxKey asBytes at hlen
  rw [List.length_append, length_toBigEndian, length_toBigEndian] at hlen
  simp at hlen

/-- The nodes of a disk, as the cells of a store. -/
def nodes : Keyed.Store Disk (Option Bytes) H256 (Bytes × ℕ) where
  get d h := d.lookup (nodeKey h)
  act := putNode
  cell e b := if e.2 ≠ 0 then some e.1 else b
  get_act_self d h e := by
    unfold putNode
    split
    · exact AList.lookup_insert _
    · rfl
  get_act_ne d h e h' hne := by
    unfold putNode
    split
    · exact AList.lookup_insert_ne fun heq => hne (nodeKey_injective heq)
    · rfl

theorem lookup_aux_foldl (m : AList fun _ : H256 => Bytes × Bool) (d : Disk) (h : H256) :
    (m.foldl putAux d).lookup (nodeKey h) = d.lookup (nodeKey h) := by
  rw [AList.foldl]
  induction m.entries generalizing d with
  | nil => rfl
  | cons e l ih =>
    rw [List.foldl_cons, ih]
    unfold putAux
    split
    · exact AList.lookup_insert_ne (nodeKey_ne_auxKey h _)
    · rfl

/-- What a batch leaves of a node: what was in memory and counted, or else what was on the disk. -/
theorem lookup_batch (db : LevelOverlayDB) (d : Disk) (h : H256) : (db.batch d).lookup (nodeKey h) =
    (db.m_main.lookup h).elim (d.lookup (nodeKey h)) fun e => if e.2 ≠ 0 then some e.1 else d.lookup (nodeKey h) := by
  have hwrite : db.m_main.foldl putNode d = Keyed.writeBack nodes d db.m_main := by
    rw [AList.foldl, Keyed.writeBack, Keyed.Store.actAll, List.foldl_map]
    rfl
  rw [batch, lookup_aux_foldl, hwrite]
  exact Keyed.get_writeBack nodes d db.m_main h

/-! ## What the database keeps -/

variable {db db' : LevelOverlayDB} {A B : Multiset (H256 × Bytes)} {h h' : H256} {b : Bytes} {n : ℕ}

/-- The node is on the disk, and the memory has no other one for the hash. -/
structure Saved (db : LevelOverlayDB) (A : Multiset (H256 × Bytes)) (h : H256) (b : Bytes) : Prop where
  disk : db.onDisk h = some b
  memory : ∀ e, db.m_main.lookup h = some e → e.1 = b
  only : ∀ x ∈ A, x.1 = h → x.2 = b

/-- The node is in memory, counted at least as often as it is referred to. -/
structure Counted (db : LevelOverlayDB) (A : Multiset (H256 × Bytes)) (h : H256) : Prop where
  cell : ∀ x ∈ A, x.1 = h → ∃ k, db.m_main.lookup h = some (x.2, k)
  refs : references A h ≤ db.refs h

structure Keeps (db : LevelOverlayDB) (A : Multiset (H256 × Bytes)) (n : ℕ) : Prop where
  room : ∀ h, db.refs h + n < 2 ^ 32
  kept : ∀ h, (∃ b, db.Saved A h b) ∨ db.Counted A h

theorem get_nodeKey (db : LevelOverlayDB) (h : H256) : db.get (nodeKey h) = (db.onDisk h).getD [] := by
  unfold get onDisk
  cases db.m_db <;> rfl

theorem Saved.lookup (hs : db.Saved A h b) : db.lookup h = b := by
  have hdisk : db.get (nodeKey h) = b := by
    rw [get_nodeKey, hs.disk]
    rfl
  have hmem : db.toMemoryDB.lookup h = [] ∨ db.toMemoryDB.lookup h = b := by
    unfold MemoryDB.lookup
    cases hl : db.m_main.lookup h with
    | none => exact .inl rfl
    | some e =>
      dsimp only
      split
      · exact .inr (hs.memory e hl)
      · exact .inl rfl
  unfold LevelOverlayDB.lookup
  dsimp only
  rcases hmem with hmem | hmem
  · rw [if_pos hmem, hdisk]
  · split
    · exact hdisk
    · exact hmem

theorem Counted.lookup {x : H256 × Bytes} (hc : db.Counted A x.1) (hx : x ∈ A) (hne : x.2 ≠ []) :
    db.lookup x.1 = x.2 := by
  obtain ⟨k, hl⟩ := hc.cell x hx rfl
  have hpos : 0 < k := by
    rw [← MemoryDB.refs_of_lookup hl]
    exact (references_pos.2 ⟨x, hx, rfl⟩).trans_le hc.refs
  have hmem : db.toMemoryDB.lookup x.1 = x.2 := MemoryDB.lookup_of_pos hl hpos
  unfold LevelOverlayDB.lookup
  dsimp only
  rw [hmem, if_neg hne]

theorem refs_insert (db : LevelOverlayDB) (h : H256) (b : Bytes) (h' : H256) :
    (db.insert h b).refs h' = (db.toMemoryDB.insert h b).refs h' := rfl

theorem refs_kill (db : LevelOverlayDB) (h h' : H256) : (db.kill h).refs h' = (db.toMemoryDB.kill h).2.refs h' := rfl

/-- Other hashes are left alone. -/
theorem kept_congr (hl : db'.m_main.lookup h' = db.m_main.lookup h') (hd : db'.m_db = db.m_db)
    (hk : (∃ b, db.Saved A h' b) ∨ db.Counted A h') (hB : ∀ x, x.1 = h' → (x ∈ B ↔ x ∈ A))
    (hr : references B h' = references A h') : (∃ b, db'.Saved B h' b) ∨ db'.Counted B h' := by
  have hdisk : db'.onDisk h' = db.onDisk h' := by
    unfold onDisk
    rw [hd]
  have hrefs : db'.refs h' = db.refs h' := by
    unfold MemoryDB.refs
    rw [hl]
  rcases hk with ⟨b, hs⟩ | hc
  · exact .inl ⟨b, hdisk.trans hs.disk, fun e he => hs.memory e (hl ▸ he),
      fun x hx hxh => hs.only x ((hB x hxh).1 hx) hxh⟩
  · refine .inr ⟨fun x hx hxh => ?_, ?_⟩
    · obtain ⟨k, hk⟩ := hc.cell x ((hB x hxh).1 hx) hxh
      exact ⟨k, hl.trans hk⟩
    · rw [hr, hrefs]
      exact hc.refs

theorem Keeps.insert (hk : db.Keeps A (n + 1)) (hA : ∀ x ∈ A, x.1 = h → x.2 = b) :
    (db.insert h b).Keeps ((h, b) ::ₘ A) n := by
  have hsmall : (db.refs h + 1) % 2 ^ 32 = db.refs h + 1 := Nat.mod_eq_of_lt (by have := hk.room h; omega)
  have hcell : (db.insert h b).m_main.lookup h = some (b, (db.refs h + 1) % 2 ^ 32) :=
    MemoryDB.m_main_insert_self db.toMemoryDB h b
  have hall : ∀ x ∈ (h, b) ::ₘ A, x.1 = h → x.2 = b := by
    intro x hx hxh
    rcases Multiset.mem_cons.1 hx with rfl | hx
    · rfl
    · exact hA x hx hxh
  refine ⟨fun h' => ?_, fun h' => ?_⟩
  · have hroom := hk.room h'
    by_cases hh : h' = h
    · rw [hh] at hroom ⊢
      rw [refs_insert, MemoryDB.refs_insert_self, hsmall]
      omega
    · rw [refs_insert, MemoryDB.refs_insert_ne db.toMemoryDB b hh]
      omega
  · by_cases hh : h' = h
    · subst hh
      have hcount : references A h' ≤ db.refs h' → (db.insert h' b).Counted ((h', b) ::ₘ A) h' := by
        intro hle
        refine ⟨fun x hx hxh => ⟨_, by rw [hall x hx hxh, hcell]⟩, ?_⟩
        rw [references_cons_self, refs_insert, MemoryDB.refs_insert_self, hsmall]
        omega
      rcases hk.kept h' with ⟨b₀, hs⟩ | hc
      · by_cases hb : b = b₀
        · subst hb
          refine .inl ⟨b, hs.disk, fun e he => ?_, hall⟩
          rw [hcell, Option.some.injEq] at he
          rw [← he]
        · -- then the node on the disk is none of those that are kept
          have hnone : references A h' = 0 := by
            by_contra hpos
            obtain ⟨x, hx, hxh⟩ := references_pos.1 (Nat.pos_of_ne_zero hpos)
            exact hb ((hA x hx hxh).symm.trans (hs.only x hx hxh))
          exact .inr (hcount (by omega))
      · exact .inr (hcount hc.refs)
    · refine kept_congr (MemoryDB.m_main_insert_ne db.toMemoryDB b hh) rfl (hk.kept h') (fun x hxh => ?_)
        (references_cons_ne A b hh)
      rw [Multiset.mem_cons, or_iff_right]
      rintro rfl
      exact hh hxh.symm

theorem Keeps.kill (hk : db.Keeps ((h, b) ::ₘ A) (n + 1)) : (db.kill h).Keeps A n := by
  have hcell : (db.kill h).m_main.lookup h = (db.m_main.lookup h).map fun e => (e.1, e.2 - 1) :=
    MemoryDB.m_main_kill_self db.toMemoryDB h
  refine ⟨fun h' => ?_, fun h' => ?_⟩
  · have hroom := hk.room h'
    by_cases hh : h' = h
    · rw [hh] at hroom ⊢
      rw [refs_kill, MemoryDB.refs_kill_self]
      omega
    · rw [refs_kill, MemoryDB.refs_kill_ne db.toMemoryDB hh]
      omega
  · by_cases hh : h' = h
    · subst hh
      rcases hk.kept h' with ⟨b₀, hs⟩ | hc
      · refine .inl ⟨b₀, hs.disk, fun e he => ?_, fun x hx => hs.only x (Multiset.mem_cons_of_mem hx)⟩
        rw [hcell, Option.map_eq_some_iff] at he
        obtain ⟨e, he, rfl⟩ := he
        exact hs.memory e he
      · refine .inr ⟨fun x hx hxh => ?_, ?_⟩
        · obtain ⟨k, hl⟩ := hc.cell x (Multiset.mem_cons_of_mem hx) hxh
          exact ⟨k - 1, by rw [hcell, hl]; rfl⟩
        · have hrefs := hc.refs
          rw [references_cons_self] at hrefs
          rw [refs_kill, MemoryDB.refs_kill_self]
          omega
    · refine kept_congr (MemoryDB.m_main_kill_ne db.toMemoryDB hh) rfl (hk.kept h') (fun x hxh => ?_)
        (references_cons_ne A b hh).symm
      rw [Multiset.mem_cons, or_iff_right]
      rintro rfl
      exact hh hxh.symm

instance : GenericTrieDB.LawfulNodeDB LevelOverlayDB where
  Keeps := Keeps
  lookup {db A n h b} hk hx hne := by
    rcases hk.kept h with ⟨b₀, hs⟩ | hc
    · exact hs.lookup.trans (hs.only _ hx rfl).symm
    · exact hc.lookup hx hne
  insert hk hA := hk.insert hA
  kill hk := hk.kill

/-! ## Answers for what was killed -/

theorem Keeps.spare (hk : db.Keeps A (n + 1)) : db.Keeps A n :=
  ⟨fun h => by have := hk.room h; omega, hk.kept⟩

theorem Keeps.idle (hk : db.Keeps A (n + 1)) (hA : ∀ x ∈ A, x.1 ≠ h) : (db.kill h).Keeps A n := by
  have hcell : (db.kill h).m_main.lookup h = (db.m_main.lookup h).map fun e => (e.1, e.2 - 1) :=
    MemoryDB.m_main_kill_self db.toMemoryDB h
  refine ⟨fun h' => ?_, fun h' => ?_⟩
  · have hroom := hk.room h'
    by_cases hh : h' = h
    · rw [hh] at hroom ⊢
      rw [refs_kill, MemoryDB.refs_kill_self]
      omega
    · rw [refs_kill, MemoryDB.refs_kill_ne db.toMemoryDB hh]
      omega
  · by_cases hh : h' = h
    · subst hh
      rcases hk.kept h' with ⟨b₀, hs⟩ | -
      · refine .inl ⟨b₀, hs.disk, fun e he => ?_, hs.only⟩
        rw [hcell, Option.map_eq_some_iff] at he
        obtain ⟨e, he, rfl⟩ := he
        exact hs.memory e he
      · exact .inr ⟨fun x hx hxh => absurd hxh (hA x hx), (references_eq_zero hA).trans_le (Nat.zero_le _)⟩
    · exact kept_congr (MemoryDB.m_main_kill_ne db.toMemoryDB hh) rfl (hk.kept h') (fun x _ => Iff.rfl) rfl

theorem lookup_congr {db db' : LevelOverlayDB} (hm : db'.toMemoryDB.lookup h = db.toMemoryDB.lookup h)
    (hd : db'.m_db = db.m_db) : db'.lookup h = db.lookup h := by
  unfold LevelOverlayDB.lookup get
  rw [hm, hd]

theorem exists_congr {db db' : LevelOverlayDB} (hm : db'.toMemoryDB.exists h = db.toMemoryDB.exists h)
    (hd : db'.m_db = db.m_db) : db'.exists h = db.exists h := by
  unfold LevelOverlayDB.exists get
  rw [hm, hd]

instance : GenericTrieDB.LaxNodeDB LevelOverlayDB where
  Lax db := db.m_enforceRefs = false
  lax_insert h b hlax := (MemoryDB.m_enforceRefs_insert _ h b).trans hlax
  lax_kill h hlax := (MemoryDB.m_enforceRefs_kill _ h).trans hlax
  lookup_insert db _ _ b hne := lookup_congr (MemoryDB.lookup_insert db.toMemoryDB b hne) rfl
  exists_insert db _ _ b hne := exists_congr (MemoryDB.exists_insert db.toMemoryDB b hne) rfl
  lookup_kill h h' hlax := lookup_congr (MemoryDB.lookup_kill h h' hlax) rfl
  exists_kill h h' hlax := exists_congr (MemoryDB.exists_kill h h' hlax) rfl
  spare hk := hk.spare
  idle hk hA := hk.idle hA

/-! ## Commits -/

/-- The nodes are all on the disk. -/
def Durable (db : LevelOverlayDB) (A : Multiset (H256 × Bytes)) : Prop := ∀ x ∈ A, db.onDisk x.1 = some x.2

@[simp] theorem durable_insert : (db.insert h b).Durable A ↔ db.Durable A := Iff.rfl

@[simp] theorem durable_kill : (db.kill h).Durable A ↔ db.Durable A := Iff.rfl

@[simp] theorem durable_rollback : db.rollback.Durable A ↔ db.Durable A := Iff.rfl

/-- With nothing in memory the disk is all there is. -/
theorem Durable.keeps (hd : db.Durable A) (hm : db.m_main = ∅) (hn : n < 2 ^ 32) (hB : ∀ x ∈ B, x ∈ A) :
    db.Keeps B n := by
  have hnone : ∀ h, db.m_main.lookup h = none := by
    intro h
    rw [hm]
    exact AList.lookup_empty h
  have hrefs : ∀ h, db.refs h = 0 := by
    intro h
    unfold MemoryDB.refs
    rw [hnone]
    rfl
  refine ⟨fun h => by rw [hrefs, zero_add]; exact hn, fun h => ?_⟩
  by_cases hpos : 0 < references B h
  · obtain ⟨x, hx, rfl⟩ := references_pos.1 hpos
    refine .inl ⟨x.2, hd x (hB x hx), fun e he => ?_, fun y hy hyx => ?_⟩
    · rw [hnone] at he
      cases he
    · have hsame := hd y (hB y hy)
      rw [hyx, hd x (hB x hx), Option.some.injEq] at hsame
      exact hsame.symm
  · refine .inr ⟨fun x hx hxh => absurd (references_pos.2 ⟨x, hx, hxh⟩) hpos, ?_⟩
    rw [hrefs]
    omega

theorem isSome_commit (hdisk : db.m_db.isSome) (writes : ℕ → Bool) :
    (db.commit writes).isSome = (List.range 10).any writes := by
  obtain ⟨d, hd⟩ := Option.isSome_iff_exists.1 hdisk
  unfold commit
  rw [hd]
  dsimp only
  cases (List.range 10).any writes <;> rfl

/-- A commit brings what is kept to the disk. -/
theorem Keeps.commit {writes : ℕ → Bool} (hk : db.Keeps A n) (hdisk : db.m_db.isSome)
    (hc : db.commit writes = some db') : db'.Durable A ∧ db'.m_main = ∅ ∧ db'.m_db.isSome := by
  obtain ⟨d, hd⟩ := Option.isSome_iff_exists.1 hdisk
  unfold LevelOverlayDB.commit at hc
  rw [hd] at hc
  dsimp only at hc
  split at hc
  · rw [Option.some.injEq] at hc
    subst hc
    refine ⟨fun x hx => ?_, rfl, rfl⟩
    show (db.batch d).lookup (nodeKey x.1) = some x.2
    rw [lookup_batch]
    rcases hk.kept x.1 with ⟨b, hs⟩ | hcount
    · have hold : d.lookup (nodeKey x.1) = some b := by
        have hdisk := hs.disk
        rwa [onDisk, hd] at hdisk
      rw [hs.only x hx rfl, hold]
      cases hl : db.m_main.lookup x.1 with
      | none => rfl
      | some e =>
        rw [Option.elim_some, hs.memory e hl, ite_self]
    · obtain ⟨k, hl⟩ := hcount.cell x hx rfl
      have hpos : 0 < k := by
        rw [← MemoryDB.refs_of_lookup hl]
        exact (references_pos.2 ⟨x, hx, rfl⟩).trans_le hcount.refs
      rw [hl, Option.elim_some, if_pos hpos.ne']
  · cases hc

end LevelOverlayDB

end Petrachor
