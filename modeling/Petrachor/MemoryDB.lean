import Mathlib.Data.List.AList
import Petrachor.TrieDB.Merge

/-!
# The database in memory

Nodes under their hashes, each with the number of times it was inserted and not killed since. A killed node stays
readable until it is purged, unless the counts are enforced.
-/

namespace Petrachor

/-- The map without the entries that a test rejects. -/
def keepIf {α β : Type} (p : β → Bool) (m : AList fun _ : α => β) : AList fun _ : α => β :=
  ⟨m.entries.filter fun e => p e.2, m.nodupKeys.sublist List.filter_sublist⟩

theorem lookup_keepIf {α β : Type} [DecidableEq α] (p : β → Bool) (m : AList fun _ : α => β) (a : α) :
    (keepIf p m).lookup a = (m.lookup a).filter p := by
  refine Option.ext fun b => ?_
  rw [Option.filter_eq_some_iff]
  show b ∈ (keepIf p m).lookup a ↔ b ∈ m.lookup a ∧ _
  rw [AList.mem_lookup_iff, AList.mem_lookup_iff]
  exact List.mem_filter

/-- How often a hash is referred to. -/
def references (A : Multiset (H256 × Bytes)) (h : H256) : ℕ := A.countP fun x => x.1 = h

section

variable {A B : Multiset (H256 × Bytes)} {h h' : H256} {b : Bytes}

@[simp] theorem references_cons_self (A : Multiset (H256 × Bytes)) (h : H256) (b : Bytes) :
    references ((h, b) ::ₘ A) h = references A h + 1 :=
  Multiset.countP_cons_of_pos (p := fun x : H256 × Bytes => x.1 = h) A rfl

theorem references_cons_ne (A : Multiset (H256 × Bytes)) (b : Bytes) (hne : h' ≠ h) :
    references ((h, b) ::ₘ A) h' = references A h' :=
  Multiset.countP_cons_of_neg (p := fun x : H256 × Bytes => x.1 = h') A fun heq => hne heq.symm

theorem references_pos : 0 < references A h ↔ ∃ x ∈ A, x.1 = h := Multiset.countP_pos

theorem references_eq_zero (hA : ∀ x ∈ A, x.1 ≠ h) : references A h = 0 := by
  rw [← Nat.le_zero, ← not_lt, references_pos]
  rintro ⟨x, hx, rfl⟩
  exact hA x hx rfl

end

structure MemoryDB where
  m_main : AList fun _ : H256 => Bytes × ℕ
  m_aux : AList fun _ : H256 => Bytes × Bool
  m_enforceRefs : Bool

namespace MemoryDB

/-- `MemoryDB()` -/
def new : MemoryDB := ⟨∅, ∅, false⟩

def lookup (db : MemoryDB) (h : H256) : Bytes :=
  match db.m_main.lookup h with
  | some (v, n) => if !db.m_enforceRefs || 0 < n then v else []
  | none => []

def «exists» (db : MemoryDB) (h : H256) : Bool :=
  match db.m_main.lookup h with
  | some (_, n) => !db.m_enforceRefs || 0 < n
  | none => false

/-- The counter has 32 bits. -/
def insert (db : MemoryDB) (h : H256) (v : Bytes) : MemoryDB :=
  match db.m_main.lookup h with
  | some (_, n) => { db with m_main := db.m_main.insert h (v, (n + 1) % 2 ^ 32) }
  | none => { db with m_main := db.m_main.insert h (v, 1) }

/-- Whether there was something to count down. -/
def kill (db : MemoryDB) (h : H256) : Bool × MemoryDB :=
  match db.m_main.lookup h with
  | some (v, n + 1) => (true, { db with m_main := db.m_main.insert h (v, n) })
  | _ => (false, db)

def lookupAux (db : MemoryDB) (h : H256) : Bytes :=
  match db.m_aux.lookup h with
  | some (v, live) => if !db.m_enforceRefs || live then v else []
  | none => []

def insertAux (db : MemoryDB) (h : H256) (v : Bytes) : MemoryDB := { db with m_aux := db.m_aux.insert h (v, true) }

def purge (db : MemoryDB) : MemoryDB :=
  { db with m_main := keepIf (fun e => e.2 ≠ 0) db.m_main, m_aux := keepIf (fun e => e.2) db.m_aux }

def keys (db : MemoryDB) : Finset H256 := ((keepIf (fun e => e.2 ≠ 0) db.m_main).entries.map Sigma.fst).toFinset

instance : NodeDB MemoryDB where
  lookup := lookup
  «exists» := «exists»
  insert := insert
  kill db h := (db.kill h).2

/-! ## Cells -/

/-- The number of references to a hash. -/
def refs (db : MemoryDB) (h : H256) : ℕ := ((db.m_main.lookup h).map Prod.snd).getD 0

variable {db : MemoryDB} {h h' : H256} {v b : Bytes} {n : ℕ} {A : Multiset (H256 × Bytes)}

theorem refs_of_lookup (hl : db.m_main.lookup h = some (b, n)) : db.refs h = n := by
  rw [refs, hl]
  rfl

@[simp] theorem m_main_insert_self (db : MemoryDB) (h : H256) (v : Bytes) :
    (db.insert h v).m_main.lookup h = some (v, (db.refs h + 1) % 2 ^ 32) := by
  unfold insert refs
  cases hl : db.m_main.lookup h with
  | none => exact AList.lookup_insert _
  | some e => exact AList.lookup_insert _

theorem m_main_insert_ne (db : MemoryDB) (v : Bytes) (hne : h' ≠ h) :
    (db.insert h v).m_main.lookup h' = db.m_main.lookup h' := by
  unfold insert
  split <;> exact AList.lookup_insert_ne hne

@[simp] theorem m_main_kill_self (db : MemoryDB) (h : H256) :
    (db.kill h).2.m_main.lookup h = (db.m_main.lookup h).map fun e => (e.1, e.2 - 1) := by
  unfold kill
  rcases hl : db.m_main.lookup h with _ | ⟨v, _ | n⟩
  · exact hl
  · exact hl
  · exact AList.lookup_insert _

theorem m_main_kill_ne (db : MemoryDB) (hne : h' ≠ h) : (db.kill h).2.m_main.lookup h' = db.m_main.lookup h' := by
  unfold kill
  split
  · exact AList.lookup_insert_ne hne
  · rfl

@[simp] theorem refs_insert_self (db : MemoryDB) (h : H256) (v : Bytes) :
    (db.insert h v).refs h = (db.refs h + 1) % 2 ^ 32 := refs_of_lookup (m_main_insert_self db h v)

theorem refs_insert_ne (db : MemoryDB) (v : Bytes) (hne : h' ≠ h) : (db.insert h v).refs h' = db.refs h' := by
  rw [refs, m_main_insert_ne db v hne, refs]

@[simp] theorem refs_kill_self (db : MemoryDB) (h : H256) : (db.kill h).2.refs h = db.refs h - 1 := by
  rw [refs, m_main_kill_self, refs]
  cases db.m_main.lookup h <;> rfl

theorem refs_kill_ne (db : MemoryDB) (hne : h' ≠ h) : (db.kill h).2.refs h' = db.refs h' := by
  rw [refs, m_main_kill_ne db hne, refs]

/-- A live cell is read, whether or not the counts are enforced. -/
theorem lookup_of_pos (hl : db.m_main.lookup h = some (b, n)) (hn : 0 < n) : db.lookup h = b := by
  unfold lookup
  rw [hl]
  dsimp only
  rw [decide_eq_true hn, Bool.or_true, if_pos rfl]

@[simp] theorem m_main_purge (db : MemoryDB) (h : H256) :
    db.purge.m_main.lookup h = (db.m_main.lookup h).filter fun e => e.2 ≠ 0 := lookup_keepIf _ _ _

@[simp] theorem refs_purge (db : MemoryDB) (h : H256) : db.purge.refs h = db.refs h := by
  rw [refs, m_main_purge, refs]
  rcases db.m_main.lookup h with _ | ⟨v, _ | n⟩ <;> rfl

theorem mem_keys : h ∈ db.keys ↔ 0 < db.refs h := by
  have hcell : h ∈ db.keys ↔ h ∈ keepIf (fun e => e.2 ≠ 0) db.m_main := List.mem_toFinset.trans AList.mem_keys.symm
  rw [hcell, ← AList.lookup_isSome, lookup_keepIf, refs]
  rcases db.m_main.lookup h with _ | ⟨v, _ | n⟩ <;> simp

/-! ## What the database keeps -/

/-- Every node of `A` has its cell, the counts are exact, and no counter overflows within `n` insertions. -/
structure Keeps (db : MemoryDB) (A : Multiset (H256 × Bytes)) (n : ℕ) : Prop where
  cell : ∀ x ∈ A, ∃ k, db.m_main.lookup x.1 = some (x.2, k)
  refs : ∀ h, db.refs h = references A h
  room : ∀ h, db.refs h + n < 2 ^ 32

theorem Keeps.pos {x : H256 × Bytes} (hk : db.Keeps A n) (hx : x ∈ A) : 0 < db.refs x.1 := by
  rw [hk.refs]
  exact references_pos.2 ⟨x, hx, rfl⟩

theorem Keeps.lookup {x : H256 × Bytes} (hk : db.Keeps A n) (hx : x ∈ A) : db.lookup x.1 = x.2 := by
  obtain ⟨k, hl⟩ := hk.cell x hx
  exact lookup_of_pos hl (refs_of_lookup hl ▸ hk.pos hx)

theorem Keeps.insert (hk : db.Keeps A (n + 1)) (hA : ∀ x ∈ A, x.1 = h → x.2 = b) :
    (db.insert h b).Keeps ((h, b) ::ₘ A) n := by
  have hsmall : (db.refs h + 1) % 2 ^ 32 = db.refs h + 1 := Nat.mod_eq_of_lt (by have := hk.room h; omega)
  refine ⟨fun x hx => ?_, fun h' => ?_, fun h' => ?_⟩
  · by_cases hxh : x.1 = h
    · have hxb : x.2 = b := by
        rcases Multiset.mem_cons.1 hx with rfl | hx
        · rfl
        · exact hA x hx hxh
      exact ⟨_, by rw [hxh, hxb, m_main_insert_self]⟩
    · obtain ⟨k, hl⟩ := hk.cell x ((Multiset.mem_cons.1 hx).resolve_left fun heq => hxh (congrArg Prod.fst heq))
      exact ⟨k, by rw [m_main_insert_ne db b hxh, hl]⟩
  · by_cases hh : h' = h
    · rw [hh, refs_insert_self, hsmall, references_cons_self, hk.refs]
    · rw [refs_insert_ne db b hh, references_cons_ne A b hh, hk.refs]
  · have hroom := hk.room h'
    by_cases hh : h' = h
    · rw [hh] at hroom ⊢
      rw [refs_insert_self, hsmall]
      omega
    · rw [refs_insert_ne db b hh]
      omega

theorem Keeps.kill (hk : db.Keeps ((h, b) ::ₘ A) (n + 1)) : (db.kill h).2.Keeps A n := by
  refine ⟨fun x hx => ?_, fun h' => ?_, fun h' => ?_⟩
  · obtain ⟨k, hl⟩ := hk.cell x (Multiset.mem_cons_of_mem hx)
    by_cases hxh : x.1 = h
    · rw [hxh] at hl ⊢
      exact ⟨k - 1, by rw [m_main_kill_self, hl]; rfl⟩
    · exact ⟨k, by rw [m_main_kill_ne db hxh, hl]⟩
  · have hrefs := hk.refs h'
    by_cases hh : h' = h
    · rw [hh, references_cons_self] at hrefs
      rw [hh, refs_kill_self, hrefs, Nat.add_sub_cancel]
    · rwa [references_cons_ne A b hh, ← refs_kill_ne db hh] at hrefs
  · have hroom := hk.room h'
    by_cases hh : h' = h
    · rw [hh] at hroom ⊢
      rw [refs_kill_self]
      omega
    · rw [refs_kill_ne db hh]
      omega

theorem keeps_new (hn : n < 2 ^ 32) : new.Keeps 0 n := by
  have hnone : ∀ h, new.m_main.lookup h = none := fun h => AList.lookup_empty h
  have hrefs : ∀ h, new.refs h = 0 := by
    intro h
    rw [MemoryDB.refs, hnone]
    rfl
  refine ⟨fun x hx => absurd hx (Multiset.notMem_zero x), hrefs, fun h => ?_⟩
  rwa [hrefs, zero_add]

instance : GenericTrieDB.LawfulNodeDB MemoryDB where
  Keeps := Keeps
  lookup hk hx _ := hk.lookup hx
  insert hk hA := hk.insert hA
  kill hk := hk.kill

/-! ## Answers for what was killed -/

@[simp] theorem m_enforceRefs_kill (db : MemoryDB) (h : H256) : (db.kill h).2.m_enforceRefs = db.m_enforceRefs := by
  unfold kill
  split <;> rfl

@[simp] theorem m_enforceRefs_insert (db : MemoryDB) (h : H256) (b : Bytes) :
    (db.insert h b).m_enforceRefs = db.m_enforceRefs := by
  unfold insert
  split <;> rfl

/-- Without enforced counts a kill changes no answer. -/
theorem lookup_kill (h h' : H256) (hlax : db.m_enforceRefs = false) : (db.kill h).2.lookup h' = db.lookup h' := by
  unfold lookup
  rw [m_enforceRefs_kill, hlax]
  by_cases hh : h' = h
  · rw [hh, m_main_kill_self]
    cases db.m_main.lookup h <;> rfl
  · rw [m_main_kill_ne db hh]

theorem exists_kill (h h' : H256) (hlax : db.m_enforceRefs = false) : (db.kill h).2.exists h' = db.exists h' := by
  unfold «exists»
  rw [m_enforceRefs_kill, hlax]
  by_cases hh : h' = h
  · rw [hh, m_main_kill_self]
    cases db.m_main.lookup h <;> rfl
  · rw [m_main_kill_ne db hh]

theorem lookup_insert (db : MemoryDB) (b : Bytes) (hne : h' ≠ h) : (db.insert h b).lookup h' = db.lookup h' := by
  unfold lookup
  rw [m_enforceRefs_insert, m_main_insert_ne db b hne]

theorem exists_insert (db : MemoryDB) (b : Bytes) (hne : h' ≠ h) : (db.insert h b).exists h' = db.exists h' := by
  unfold «exists»
  rw [m_enforceRefs_insert, m_main_insert_ne db b hne]

theorem Keeps.spare (hk : db.Keeps A (n + 1)) : db.Keeps A n :=
  ⟨hk.cell, hk.refs, fun h => by have := hk.room h; omega⟩

theorem Keeps.idle (hk : db.Keeps A (n + 1)) (hA : ∀ x ∈ A, x.1 ≠ h) : (db.kill h).2.Keeps A n := by
  have hzero : db.refs h = 0 := (hk.refs h).trans (references_eq_zero hA)
  have hrefs : ∀ h', (db.kill h).2.refs h' = db.refs h' := by
    intro h'
    by_cases hh : h' = h
    · rw [hh, refs_kill_self, hzero]
    · rw [refs_kill_ne db hh]
  refine ⟨fun x hx => ?_, fun h' => (hrefs h').trans (hk.refs h'), fun h' => ?_⟩
  · obtain ⟨k, hl⟩ := hk.cell x hx
    exact ⟨k, (m_main_kill_ne db (hA x hx)).trans hl⟩
  · have hroom := hk.room h'
    rw [hrefs]
    omega

instance : GenericTrieDB.LaxNodeDB MemoryDB where
  Lax db := db.m_enforceRefs = false
  lax_insert h b hlax := (m_enforceRefs_insert _ h b).trans hlax
  lax_kill h hlax := (m_enforceRefs_kill _ h).trans hlax
  lookup_insert db _ _ b hne := lookup_insert db b hne
  exists_insert db _ _ b hne := exists_insert db b hne
  lookup_kill h h' hlax := lookup_kill h h' hlax
  exists_kill h h' hlax := exists_kill h h' hlax
  spare hk := hk.spare
  idle hk hA := hk.idle hA

/-! ## Purges -/

/-- The keys are the hashes of the nodes that are kept. -/
theorem Keeps.mem_keys (hk : db.Keeps A n) : h ∈ db.keys ↔ ∃ x ∈ A, x.1 = h := by
  rw [MemoryDB.mem_keys, hk.refs, references_pos]

/-- A purge loses no node that is kept. -/
theorem Keeps.purge (hk : db.Keeps A n) : db.purge.Keeps A n := by
  refine ⟨fun x hx => ?_, fun h => ?_, fun h => ?_⟩
  · obtain ⟨k, hl⟩ := hk.cell x hx
    have hpos : k ≠ 0 := (refs_of_lookup hl ▸ hk.pos hx).ne'
    exact ⟨k, by rw [m_main_purge, hl, Option.filter_some, if_pos (decide_eq_true hpos)]⟩
  · rw [refs_purge, hk.refs]
  · rw [refs_purge]
    exact hk.room h

/-- After a purge there is a cell for the nodes that are kept, and no other one. -/
theorem Keeps.purge_isSome (hk : db.Keeps A n) : (db.purge.m_main.lookup h).isSome ↔ ∃ x ∈ A, x.1 = h := by
  rw [← references_pos, ← hk.refs, m_main_purge, MemoryDB.refs]
  rcases db.m_main.lookup h with _ | ⟨v, _ | n⟩ <;> simp

end MemoryDB

end Petrachor
