import Petrachor.SnapshotImporter.Accounts

/-!
# Pieces of accounts

A piece is taken or refused, whatever came before it, and so the import of any chunks comes to its end or is refused.
It is refused only if the pieces do not make accounts that are right, or if a code is named by its hash and not found.
-/

namespace Petrachor

open SortedMap GenericTrieDB Tally

namespace SnapshotImporter

/-! ## A piece -/

section

variable {c : Crypto} {N : Set Bytes} {disk : Disk} {gs : List (List AccountPiece)} {C : Multiset Bytes} {n : Volatile}
  {s : StateImporter} {l : List (Act Bytes)} {q : Pending} {k : H256} {p : AccountPiece}

/-- The codes of pieces that stay in the database. -/
def keptOf (pieces : List AccountPiece) : Multiset Bytes := (pieces.map fun p => p.code.kept).sum

theorem keptOf_concat (pieces : List AccountPiece) (p : AccountPiece) :
    keptOf (pieces ++ [p]) = keptOf pieces + p.code.kept := by
  unfold keptOf
  rw [List.map_append, List.sum_append, List.map_singleton, List.sum_singleton]

/-- A code is found by its hash only if the strings allow it. -/
def Answers (c : Crypto) (n : Volatile) (k : H256) : Prop :=
  (k = c.EmptyTrie → n.found = true) ∧ (k = c.EmptySHA3 → n.gone = false)

/-- A code is not found by its hash: it was not given before, unless a commit lost it, and it was not on the disk. -/
structure Unanswered (c : Crypto) (disk : Disk) (n : Volatile) (C : Multiset Bytes) (k : H256) : Prop where
  null : k = c.EmptyTrie → n.found = false
  given : ∀ code ∈ C, code ≠ [] → c.sha3 code ≠ k
  onDisk : disk.get (Disk.nodeKey k) ≠ [] → k = c.EmptySHA3 ∧ n.gone = true

theorem Imported.lookup_null (h : Imported c N disk gs C n s l) :
    s.lookupCode c.EmptyTrie = if n.found then RLPNull else [] := by
  obtain ⟨A, hs, -⟩ := h.trie.steady
  exact h.volatile.lookup hs.lax

theorem Imported.answers (h : Imported c N disk gs C n s l) (hk : s.lookupCode k ≠ []) : Answers c n k := by
  constructor
  · rintro rfl
    rw [h.lookup_null] at hk
    exact of_not_not fun hfound => hk (if_neg hfound)
  · rintro rfl
    refine Bool.eq_false_iff.2 fun hgone => hk ?_
    exact h.trie.lookup_nil (h.given (h.volatile.since hgone)) (h.volatile.gone hgone)

theorem Imported.unanswered (h : Imported c N disk gs C n s l) (hk : s.lookupCode k = []) :
    Unanswered c disk n C k := by
  refine ⟨?_, ?_, fun hdisk => of_not_not fun hgone => h.volatile.lookup_ne_nil hdisk hgone hk⟩
  · rintro rfl
    rw [h.lookup_null] at hk
    refine Bool.eq_false_iff.2 fun hfound => ?_
    rw [if_pos hfound] at hk
    cases hk
  · rintro code hcode hne rfl
    exact hne ((h.trie.lookup_eq hcode hne).symm.trans hk)

/-- The loop has seen the pieces of these accounts. All but the last are imported, and they are right but for the
address of the last one. -/
structure Seen (c : Crypto) (N : Set Bytes) (disk : Disk) (gs : List (List AccountPiece)) (n : Volatile) (q : Pending)
    (s : StateImporter) (l : List (Act Bytes)) : Prop
    extends Sound gs, Imported c N disk gs.dropLast (keptOf gs.flatten) n s l where
  pending : q = pendingOf c (gs.getLastD [])
  addresses : (gs.dropLast.map addressOf).Nodup
  small : ∀ p ∈ gs.flatten, Small p

theorem Seen.address (h : Seen c N disk gs n q s l) : q.addressHash = addressOf (gs.getLastD []) := by
  rw [h.pending, pendingOf_address]

theorem dropLast_getLastD (hne : gs ≠ []) : gs.dropLast ++ [gs.getLastD []] = gs := by
  rcases gs.eq_nil_or_concat with rfl | ⟨D, g, rfl⟩
  · exact absurd rfl hne
  · rw [List.concat_eq_append, List.dropLast_concat, List.getLastD_concat]

theorem getLastD_mem (hne : gs ≠ []) : gs.getLastD [] ∈ gs := by
  have hmem := List.mem_append_right gs.dropLast (List.mem_singleton_self (gs.getLastD []))
  rwa [dropLast_getLastD hne] at hmem

theorem Sound.dropLast (h : Sound gs) : Sound gs.dropLast :=
  ⟨fun x hx => h.ne_nil x (List.mem_of_mem_dropLast hx), fun x hx => h.good x (List.mem_of_mem_dropLast hx),
    fun x hx => h.keys x (List.mem_of_mem_dropLast hx)⟩

theorem nodup_addresses_iff (hne : gs ≠ []) : (gs.map addressOf).Nodup ↔
    (gs.dropLast.map addressOf).Nodup ∧ addressOf (gs.getLastD []) ∉ gs.dropLast.map addressOf := by
  conv_lhs => rw [← dropLast_getLastD hne, List.map_append, List.map_singleton]
  rw [List.nodup_append]
  constructor
  · rintro ⟨h1, -, h2⟩
    exact ⟨h1, fun hmem => h2 _ hmem _ (List.mem_singleton_self _) rfl⟩
  · rintro ⟨h1, h2⟩
    refine ⟨h1, List.nodup_singleton _, fun a ha b hb => ?_⟩
    rw [List.mem_singleton.1 hb]
    rintro rfl
    exact h2 ha

theorem extend_same {first : Bool} {p : AccountPiece} (hfirst : first = true)
    (hsame : addressOf (gs.getLastD []) = p.addressHash) :
    extend gs first p = gs.dropLast ++ [gs.getLastD [] ++ [p]] := if_pos ⟨hfirst, hsame⟩

theorem extend_other {first : Bool} {p : AccountPiece} (hother : addressOf (gs.getLastD []) ≠ p.addressHash) :
    extend gs first p = gs ++ [[p]] := if_neg fun h => hother h.2

theorem flatMap_concat (g : List AccountPiece) (p : AccountPiece) :
    (g ++ [p]).flatMap AccountPiece.storage = g.flatMap AccountPiece.storage ++ p.storage := by
  rw [List.flatMap_append, List.flatMap_cons, List.flatMap_nil, List.append_nil]

theorem sound_concat {D : List (List AccountPiece)} {g : List AccountPiece} {p : AccountPiece} :
    Sound (D ++ [g ++ [p]]) ↔ Sound D ∧ (∀ x ∈ g, x.Good) ∧ p.Good ∧
      ((g.flatMap AccountPiece.storage ++ p.storage).map Prod.fst).Nodup := by
  constructor
  · intro h
    have hlast : g ++ [p] ∈ D ++ [g ++ [p]] := List.mem_append_right _ (List.mem_singleton_self _)
    have hkeys := h.keys _ hlast
    rw [flatMap_concat] at hkeys
    exact ⟨⟨fun x hx => h.ne_nil x (List.mem_append_left _ hx), fun x hx => h.good x (List.mem_append_left _ hx),
      fun x hx => h.keys x (List.mem_append_left _ hx)⟩,
      fun x hx => h.good _ hlast x (List.mem_append_left _ hx),
      h.good _ hlast p (List.mem_append_right _ (List.mem_singleton_self _)), hkeys⟩
  · rintro ⟨hD, hg, hp, hkeys⟩
    have hmem : ∀ {P : List AccountPiece → Prop}, (∀ x ∈ D, P x) → P (g ++ [p]) → ∀ x ∈ D ++ [g ++ [p]], P x := by
      intro P h1 h2 x hx
      rcases List.mem_append.1 hx with hx | hx
      · exact h1 x hx
      · rw [List.mem_singleton.1 hx]
        exact h2
    refine ⟨hmem hD.ne_nil (by simp), hmem hD.good fun x hx => ?_, hmem hD.keys ?_⟩
    · rcases List.mem_append.1 hx with hx | hx
      · exact hg x hx
      · rw [List.mem_singleton.1 hx]
        exact hp
    · rw [flatMap_concat]
      exact hkeys

/-- Accounts that are right were right without their last piece. -/
theorem WellFormed.of_extend {b : Bool} {p : AccountPiece} (h : WellFormed (extend gs b p)) : WellFormed gs := by
  by_cases hext : b = true ∧ addressOf (gs.getLastD []) = p.addressHash
  · obtain ⟨hb, hsame⟩ := hext
    rw [extend_same hb hsame] at h
    obtain ⟨hdrop, hgood, hp, hkeys⟩ := sound_concat.1 h.toSound
    have hlast : gs.getLastD [] ≠ [] := fun hnil => hp.addressHash (by rw [← hsame, hnil]; rfl)
    have hne : gs ≠ [] := by
      rintro rfl
      exact hlast rfl
    have hmem : ∀ {P : List AccountPiece → Prop}, (∀ x ∈ gs.dropLast, P x) → P (gs.getLastD []) → ∀ x ∈ gs, P x := by
      intro P h1 h2 x hx
      rw [← dropLast_getLastD hne] at hx
      rcases List.mem_append.1 hx with hx | hx
      · exact h1 x hx
      · rw [List.mem_singleton.1 hx]
        exact h2
    rw [List.map_append, List.nodup_append] at hkeys
    refine ⟨⟨hmem hdrop.ne_nil hlast, hmem hdrop.good hgood, hmem hdrop.keys hkeys.1⟩, ?_⟩
    have haddresses := h.addresses
    rw [List.map_append, List.map_singleton, addressOf_concat, ← hsame] at haddresses
    rwa [← dropLast_getLastD hne, List.map_append, List.map_singleton]
  · rw [extend, if_neg hext] at h
    have haddresses := h.addresses
    rw [List.map_append, List.nodup_append] at haddresses
    exact ⟨⟨fun x hx => h.ne_nil x (List.mem_append_left _ hx), fun x hx => h.good x (List.mem_append_left _ hx),
      fun x hx => h.keys x (List.mem_append_left _ hx)⟩, haddresses.1⟩

theorem flatten_extend (gs : List (List AccountPiece)) (first : Bool) (p : AccountPiece) :
    (extend gs first p).flatten = gs.flatten ++ [p] := by
  unfold extend
  split
  · by_cases hne : gs = []
    · subst hne
      rfl
    · conv_rhs => rw [← dropLast_getLastD hne]
      simp
  · simp

/-- The account before a piece has come to an end, or is gone on with: the piece joins the pieces `g`, and before them
the accounts `D` are imported. -/
structure Before (c : Crypto) (N : Set Bytes) (disk : Disk) (gs : List (List AccountPiece)) (first : Bool)
    (p : AccountPiece) (n : Volatile) (D : List (List AccountPiece)) (g : List AccountPiece) (q : Pending)
    (s : StateImporter) (l : List (Act Bytes)) : Prop
    extends Imported c N disk D (keptOf gs.flatten) (previousVolatile n gs p) s l where
  pieces : extend gs first p = D ++ [g ++ [p]]
  sound : Sound D
  good : ∀ x ∈ g, x.Good
  keys : ((g.flatMap AccountPiece.storage).map Prod.fst).Nodup
  addresses : (D.map addressOf).Nodup
  storage : q.storageMap = storageMap (g.flatMap AccountPiece.storage)

/-- The exceptions by which a snapshot is refused before its root is known. -/
def Refused (e : SnapshotException) : Prop := e ∈ [.InvalidStateChunkData, .AccountAlreadyImported]

/-- The address of a piece is new, or it goes on with the account before it, or it is refused. -/
theorem Seen.importPrevious (first : Bool) (h : Seen c N disk gs n q s (previousActs c gs p ++ l))
    (ha : p.addressHash ≠ 0) :
    (∃ D g q₁ s₁, SnapshotImporter.importPrevious c q p.addressHash (if first then 0 else 1) s = .ok (q₁, s₁) ∧
      Before c N disk gs first p n D g q₁ s₁ l) ∨
    ∃ e, SnapshotImporter.importPrevious c q p.addressHash (if first then 0 else 1) s = .error e ∧ Refused e ∧
      ¬WellFormed (extend gs first p) := by
  have himported := h.toImported
  unfold previousActs at himported
  unfold SnapshotImporter.importPrevious
  rw [h.address]
  by_cases hnil : gs = []
  · -- there is no account before it
    subst hnil
    rw [if_pos (.inl rfl), List.nil_append] at himported
    have hother : addressOf (([] : List (List AccountPiece)).getLastD []) ≠ p.addressHash := ha.symm
    have hzero : addressOf (([] : List (List AccountPiece)).getLastD []) = 0 := rfl
    rw [if_neg (not_not.2 hzero)]
    refine .inl ⟨[], [], q, s, rfl, ?_, extend_other hother, h.toSound, fun x hx => (by cases hx), List.nodup_nil,
      List.nodup_nil, by rw [h.pending]; rfl⟩
    rw [previousVolatile, if_pos (.inl rfl)]
    exact himported
  · have hlast := getLastD_mem hnil
    rw [if_pos (h.address_ne hlast)]
    by_cases hsame : addressOf (gs.getLastD []) = p.addressHash
    · rw [if_pos (.inr hsame), List.nil_append] at himported
      rw [hsame, if_neg (not_not.2 rfl)]
      cases first with
      | true =>
        refine .inl ⟨gs.dropLast, gs.getLastD [], q, s, rfl, ?_, extend_same rfl hsame, h.toSound.dropLast,
          h.good _ hlast, h.keys _ hlast, h.addresses, by rw [h.pending, pendingOf_storageMap]⟩
        rw [previousVolatile, if_pos (.inr hsame)]
        exact himported
      | false =>
        refine .inr ⟨.InvalidStateChunkData, rfl, List.mem_cons_self, fun hW => ?_⟩
        have haddresses := hW.addresses
        rw [extend, if_neg fun hext => (by cases hext.1), List.map_append, List.nodup_append] at haddresses
        exact haddresses.2.2 _ (List.mem_map_of_mem hlast) _ (by simp [addressOf]) hsame
    · rw [if_neg fun hgo => hgo.elim hnil hsame] at himported
      rw [if_pos fun heq => hsame heq.symm, h.pending, ← pendingOf_address c]
      by_cases hold : addressOf (gs.getLastD []) ∈ gs.dropLast.map addressOf
      · refine .inr ⟨.AccountAlreadyImported, ?_, by simp [Refused], fun hW => ?_⟩
        · rw [himported.importAccount_error hold]
          rfl
        · exact ((nodup_addresses_iff hnil).1 hW.of_extend.addresses).2 hold
      · have hsmall : ∀ x ∈ gs.getLastD [], Small x := fun x hx => h.small x (List.mem_flatten.2 ⟨_, hlast, hx⟩)
        obtain ⟨s₁, hs₁, hafter⟩ := himported.importAccount hsmall hold
        rw [dropLast_getLastD hnil] at hafter
        rw [hs₁, import_bind]
        refine .inl ⟨gs, [], _, s₁, rfl, ?_, extend_other hsame, h.toSound, fun x hx => (by cases hx), List.nodup_nil,
          (nodup_addresses_iff hnil).2 ⟨h.addresses, hold⟩, rfl⟩
        rw [previousVolatile, if_neg fun hgo => hgo.elim hnil hsame]
        exact hafter

theorem Before.piece {first : Bool} {D : List (List AccountPiece)} {g : List AccountPiece}
    (h : Before c N disk gs first p n D g q s (p.code.acts ++ l)) (hsound : Sound (D ++ [g ++ [p]]))
    (hsmall : ∀ x ∈ gs.flatten ++ [p], Small x) :
    Seen c N disk (extend gs first p) ((previousVolatile n gs p).pieceCode p.code) (pendingOf c (g ++ [p]))
      (codeState c p.code s) l := by
  have hcode := h.toImported.code
  rw [← keptOf_concat, ← flatten_extend gs first] at hcode
  rw [← flatten_extend gs first] at hsmall
  rw [h.pieces] at hcode hsmall ⊢
  refine ⟨hsound, ?_, ?_, ?_, hsmall⟩
  · rwa [List.dropLast_concat]
  · rw [List.getLastD_concat]
  · rw [List.dropLast_concat]
    exact h.addresses

/-- A piece is taken if it is right, and the code that it names is found. -/
theorem Seen.piece (first : Bool) (h : Seen c N disk gs n q s (previousActs c gs p ++ (p.code.acts ++ l)))
    (hp : Small p) :
    (∃ x, takePiece c p (if first then 0 else 1) q s = .ok x ∧
      Seen c N disk (extend gs first p) ((previousVolatile n gs p).pieceCode p.code) x.1 x.2 l ∧
      p.code.Names (Answers c (previousVolatile n gs p))) ∨
    ∃ e, takePiece c p (if first then 0 else 1) q s = .error e ∧ Refused e ∧ (WellFormed (extend gs first p) →
      ¬p.code.Names fun k => ¬Unanswered c disk (previousVolatile n gs p) (keptOf gs.flatten) k) := by
  unfold takePiece
  by_cases ha : p.addressHash = 0
  · refine .inr ⟨.InvalidStateChunkData, by rw [if_pos ha]; rfl, List.mem_cons_self, fun hW => ?_⟩
    obtain ⟨g, hg, hpg⟩ := List.mem_flatten.1 (flatten_extend gs first p ▸ List.mem_append_right _
      (List.mem_singleton_self p))
    exact absurd ha (hW.good g hg p hpg).addressHash
  rw [if_neg ha, import_bind]
  rcases h.importPrevious first ha with ⟨D, g, q₁, s₁, hprevious, hbefore⟩ | ⟨e, hprevious, he, hW⟩
  · rw [hprevious, import_bind]
    dsimp only
    rw [hbefore.storage]
    have hgood : WellFormed (extend gs first p) → p.Good ∧
        ((g.flatMap AccountPiece.storage ++ p.storage).map Prod.fst).Nodup := fun hW => by
      have hsound := hW.toSound
      rw [hbefore.pieces] at hsound
      exact (sound_concat.1 hsound).2.2
    cases hstorage : takeStorage p.storage (storageMap (g.flatMap AccountPiece.storage)) with
    | error e =>
      refine .inr ⟨e, rfl, takeStorage_error hstorage ▸ List.mem_cons_self, fun hW => ?_⟩
      obtain ⟨hp, hkeys⟩ := hgood hW
      rw [(takeStorage_eq_ok hbefore.keys).2 ⟨hp.storage, hkeys, rfl⟩] at hstorage
      cases hstorage
    | ok m =>
      obtain ⟨hvalues, hkeys, rfl⟩ := (takeStorage_eq_ok hbefore.keys).1 hstorage
      rw [import_bind]
      cases hcode : takeCode c p.code s₁ with
      | error e =>
        obtain ⟨rfl, k, hk, hmissing⟩ := takeCode_error hcode
        refine .inr ⟨_, rfl, List.mem_cons_self, fun hW hnames => ?_⟩
        have hzero := (hgood hW).1.code k hk
        exact PieceCode.names_iff.1 hnames k hk (hbefore.toImported.unanswered (hmissing.resolve_left hzero))
      | ok s₂ =>
        obtain ⟨hknown, rfl⟩ := takeCode_eq_ok.1 hcode
        have hsound : Sound (D ++ [g ++ [p]]) := sound_concat.2 ⟨hbefore.sound, hbefore.good,
          ⟨ha, hvalues, fun k hk => (hknown k hk).1⟩, hkeys⟩
        have hsmall : ∀ x ∈ gs.flatten ++ [p], Small x := by
          intro x hx
          rcases List.mem_append.1 hx with hx | hx
          · exact h.small x hx
          · rwa [List.mem_singleton.1 hx]
        refine .inl ⟨_, rfl, ?_, PieceCode.names_iff.2 fun k hk => hbefore.toImported.answers (hknown k hk).2⟩
        have hseen := hbefore.piece hsound hsmall
        rwa [pendingOf_concat, flatMap_concat] at hseen
  · refine .inr ⟨e, by rw [hprevious]; rfl, he, fun hW' => absurd hW' hW⟩

end

/-! ## A run -/

section

variable {c : Crypto} {N : Set Bytes} {disk : Disk} {gs : List (List AccountPiece)} {n : Volatile} {s : StateImporter}
  {l : List (Act Bytes)} {q : Pending} {es : List Event} {writes : ℕ → ℕ → Bool}

def takeEvent (c : Crypto) (writes : ℕ → ℕ → Bool) (x : Pending × StateImporter) :
    Event → Import (Pending × StateImporter)
  | .piece first p => takePiece c p (if first then 0 else 1) x.1 x.2
  | .commit n => do
    let s ← x.2.commitStateDatabase (writes n)
    .ok (x.1, s)

theorem takePiece_succ (writes : ℕ → ℕ → Bool) (p : AccountPiece) (i : ℕ) (q : Pending) (s : StateImporter) :
    takePiece c p (i + 1) q s = takeEvent c writes (q, s) (.piece false p) := rfl

theorem takeChunk_eq (pieces : List AccountPiece) (k : ℕ) (x : Pending × StateImporter) :
    takeChunk c (writes k) pieces 0 x.1 x.2 =
      (chunkEvents pieces ++ [Event.commit k]).foldlM (takeEvent c writes) x := by
  have hrest : ∀ (pieces : List AccountPiece) (i : ℕ) (x : Pending × StateImporter),
      takeChunk c (writes k) pieces (i + 1) x.1 x.2 =
        (pieces.map (Event.piece false) ++ [Event.commit k]).foldlM (takeEvent c writes) x := by
    intro pieces
    induction pieces with
    | nil =>
      intro i x
      rw [List.map_nil, List.nil_append, List.foldlM_cons]
      exact (bind_pure _).symm
    | cons p pieces ih =>
      intro i x
      rw [takeChunk, takePiece_succ writes, List.map_cons, List.cons_append, List.foldlM_cons]
      exact bind_congr fun y => ih (i + 1) y
  cases pieces with
  | nil =>
    rw [chunkEvents, List.nil_append, List.foldlM_cons]
    exact (bind_pure _).symm
  | cons p pieces =>
    rw [chunkEvents, List.cons_append, List.foldlM_cons, takeChunk]
    exact bind_congr fun y => hrest pieces 0 y

theorem takeChunks_eq (chunks : List (List AccountPiece)) (k : ℕ) (x : Pending × StateImporter) :
    takeChunks c writes chunks k x.1 x.2 = (events k chunks).foldlM (takeEvent c writes) x := by
  induction chunks generalizing k x with
  | nil => rfl
  | cons pieces chunks ih =>
    rw [takeChunks, events, List.append_cons, List.foldlM_append, ← takeChunk_eq]
    exact bind_congr fun y => ih (k + 1) y

theorem WellFormed.of_events (h : WellFormed (es.foldl Event.extend gs)) : WellFormed gs := by
  induction es generalizing gs with
  | nil => exact h
  | cons e es ih =>
    cases e with
    | piece first p => exact (ih h).of_extend
    | commit k => exact ih h

theorem Seen.commit (h : Seen c N disk gs n q s l) {w : ℕ → Bool} (hw : (List.range 10).any w = true) :
    ∃ s', s.commitStateDatabase w = .ok s' ∧ Seen c N disk gs n.commit q s' l := by
  obtain ⟨s', hs', h'⟩ := h.toImported.commit hw
  exact ⟨s', hs', h.toSound, h', h.pending, h.addresses, h.small⟩

/-- An import goes on to the end of the chunks, or is refused before. -/
theorem Seen.run (hwrites : ∀ k, (List.range 10).any (writes k) = true) (h : Seen c N disk gs n q s (actsFrom c gs es))
    (hsmall : ∀ first p, .piece first p ∈ es → Small p) :
    (∃ x n', es.foldlM (takeEvent c writes) (q, s) = .ok x ∧
      Seen c N disk (es.foldl Event.extend gs) n' x.1 x.2 (actsFrom c (es.foldl Event.extend gs) []) ∧
      Named (fun n _ k => Answers c n k) n gs es) ∨
    ∃ e, es.foldlM (takeEvent c writes) (q, s) = .error e ∧ Refused e ∧ (WellFormed (es.foldl Event.extend gs) →
      ¬Named (fun n pieces k => ¬Unanswered c disk n (keptOf pieces) k) n gs es) := by
  induction es generalizing gs n q s with
  | nil => exact .inl ⟨_, n, rfl, h, trivial⟩
  | cons e es ih =>
    have hrest : ∀ first p, .piece first p ∈ es → Small p := fun first p hp =>
      hsmall first p (List.mem_cons_of_mem _ hp)
    cases e with
    | commit k =>
      obtain ⟨s', hs', h'⟩ := h.commit (hwrites k)
      have hstep : takeEvent c writes (q, s) (.commit k) = .ok (q, s') := by
        show (s.commitStateDatabase (writes k) >>= _) = _
        rw [hs']
        rfl
      rw [List.foldlM_cons, hstep]
      exact ih h' hrest
    | piece first p =>
      rw [List.foldlM_cons]
      rcases h.piece first (hsmall first p List.mem_cons_self) with
        ⟨x, hx, hseen, hanswers⟩ | ⟨e, he, hrefused, hnames⟩
      · rw [show takeEvent c writes (q, s) (.piece first p) = .ok x from hx]
        rcases ih hseen hrest with ⟨y, n', hy, hseen', hnamed⟩ | ⟨e, he, hrefused, hnames⟩
        · exact .inl ⟨y, n', hy, hseen', hanswers, hnamed⟩
        · exact .inr ⟨e, he, hrefused, fun hW hnamed => hnames hW hnamed.2⟩
      · rw [show takeEvent c writes (q, s) (.piece first p) = .error e from he]
        exact .inr ⟨e, rfl, hrefused, fun hW hnamed => hnames (WellFormed.of_events hW) hnamed.1⟩

/-! ## The import -/

/-- The accounts that are imported: without any, one with the address 0. -/
def importedAccounts (chunks : List (List AccountPiece)) : List (List AccountPiece) :=
  (groups chunks).dropLast ++ [(groups chunks).getLastD []]

variable {chunks : List (List AccountPiece)} {hashes : List H256} {readChunk : H256 → Import Bytes}

/-- What an import asks of the snapshot, the hash and the disk: chunks of less than 2⁶² bytes, no two inserted strings
of one hash, fewer than 2³² insertions and kills, a disk that has nothing but the node without entries under the hash of
it, and writes that go through. -/
structure Setting (c : Crypto) (disk : Disk) (writes : ℕ → ℕ → Bool) (readChunk : H256 → Import Bytes)
    (hashes : List H256) (chunks : List (List AccountPiece)) : Prop where
  size : ∀ l ∈ chunks, (stateChunk l).length < 2 ^ 62
  read : Stored readChunk hashes chunks
  apart : Set.InjOn c.sha3 {b | .enter b ∈ importActs c chunks}
  room : (importActs c chunks).length < 2 ^ 32
  disk : StateTrie.Disk.Honest c disk
  writes : ∀ k, (List.range 10).any (writes k) = true

theorem piece_mem_events {first : Bool} {p : AccountPiece} {k : ℕ} (h : .piece first p ∈ events k chunks) :
    ∃ l ∈ chunks, p ∈ l := by
  induction chunks generalizing k with
  | nil => cases h
  | cons l chunks ih =>
    rw [events, List.mem_append, List.mem_cons] at h
    rcases h with h | h | h
    · refine ⟨l, List.mem_cons_self, ?_⟩
      cases l with
      | nil => cases h
      | cons x l =>
        rcases List.mem_cons.1 h with h | h
        · cases h
          exact List.mem_cons_self
        · obtain ⟨y, hy, heq⟩ := List.mem_map.1 h
          cases heq
          exact List.mem_cons_of_mem _ hy
    · cases h
    · obtain ⟨l', hl', hp⟩ := ih h
      exact ⟨l', List.mem_cons_of_mem _ hl', hp⟩

/-- An import of any chunks reaches their end, with all the accounts in the state trie, or is refused. -/
theorem importStateChunks_cases (h : Setting c disk writes readChunk hashes chunks) :
    (∃ s, (∀ stateRoot, importStateChunks c readChunk writes hashes stateRoot
        (StateImporter.new c (fresh (some disk))) =
          if c.trieRoot (trieOf c (importedAccounts chunks)) ≠ stateRoot then .error .StateTrieReconstructionFailed
          else .ok s) ∧
      (∀ a : H256, s.m_trie.at (asBytes 32 a) =
        .ok (((trieOf c (importedAccounts chunks)).lookup a.toNat).getD [])) ∧
      (groups chunks = [] ∨ WellFormed (groups chunks)) ∧
      Named (fun n _ k => Answers c n k) (startVolatile c disk) [] (events 0 chunks)) ∨
    ∃ e, (∀ stateRoot, importStateChunks c readChunk writes hashes stateRoot
        (StateImporter.new c (fresh (some disk))) = .error e) ∧ Refused e ∧
      (WellFormed (groups chunks) → ¬Named (fun n pieces k => ¬Unanswered c disk n (keptOf pieces) k)
        (startVolatile c disk) [] (events 0 chunks)) := by
  have hstart : Seen c {b | .enter b ∈ importActs c chunks} disk [] (startVolatile c disk) ⟨[], 0, 0, 0, 0⟩
      (StateImporter.new c (fresh (some disk))) (actsFrom c [] (events 0 chunks)) :=
    ⟨⟨fun x hx => (by cases hx), fun x hx => (by cases hx), fun x hx => (by cases hx)⟩,
      imported_new h.disk h.apart (fun b hb => hb) h.room, rfl, List.nodup_nil, fun x hx => (by cases hx)⟩
  have hsmall : ∀ first p, .piece first p ∈ events 0 chunks → Small p := by
    intro first p hp
    obtain ⟨l, hl, hpl⟩ := piece_mem_events hp
    exact small_of_stateChunk (h.size l hl) p hpl
  have himport : ∀ stateRoot, importStateChunks c readChunk writes hashes stateRoot
      (StateImporter.new c (fresh (some disk))) =
        (events 0 chunks).foldlM (takeEvent c writes) (⟨[], 0, 0, 0, 0⟩, StateImporter.new c (fresh (some disk))) >>=
          fun x => x.2.importAccount c x.1.addressHash x.1.nonce x.1.balance x.1.storageMap x.1.codeHash >>= fun s =>
            s.commitStateDatabase (writes hashes.length) >>= fun s => s.stateRoot >>= fun root =>
              if root ≠ stateRoot then .error .StateTrieReconstructionFailed else .ok s := by
    intro stateRoot
    unfold importStateChunks
    rw [importChunks_eq h.size h.read]
    exact congrArg (· >>= _) (takeChunks_eq chunks 0 (⟨[], 0, 0, 0, 0⟩, StateImporter.new c (fresh (some disk))))
  rcases hstart.run h.writes hsmall with ⟨x, n, hx, hseen, hnamed⟩ | ⟨e, he, hrefused, hnames⟩
  · have hlast : ∀ y ∈ (groups chunks).getLastD [], Small y := by
      intro y hy
      by_cases hnil : groups chunks = []
      · rw [hnil] at hy
        cases hy
      · exact hseen.small y (List.mem_flatten.2 ⟨_, getLastD_mem hnil, hy⟩)
    have hpending : x.1 = pendingOf c ((groups chunks).getLastD []) := hseen.pending
    by_cases hold : addressOf ((groups chunks).getLastD []) ∈ (groups chunks).dropLast.map addressOf
    · refine .inr ⟨.AccountAlreadyImported, fun stateRoot => ?_, by simp [Refused], fun hW => ?_⟩
      · rw [himport, hx, import_bind, hpending, hseen.toImported.importAccount_error hold]
        rfl
      · have hnil : groups chunks ≠ [] := by
          intro hnil
          rw [hnil] at hold
          cases hold
        exact absurd hold ((nodup_addresses_iff hnil).1 hW.addresses).2
    · have hacts : actsFrom c (groups chunks) [] =
          accountActs c (groups chunks).dropLast ((groups chunks).getLastD []) ++ [] := (List.append_nil _).symm
      have himported := hseen.toImported
      rw [show (events 0 chunks).foldl Event.extend [] = groups chunks from rfl, hacts] at himported
      obtain ⟨s₁, hs₁, h₁⟩ := himported.importAccount hlast hold
      obtain ⟨s₂, hs₂, h₂⟩ := h₁.commit (h.writes hashes.length)
      refine .inl ⟨s₂, fun stateRoot => ?_, h₂.at_eq, ?_, hnamed⟩
      · rw [himport, hx, import_bind, hpending, hs₁, import_bind, hs₂, import_bind, h₂.stateRoot_eq, import_bind]
        rfl
      · by_cases hnil : groups chunks = []
        · exact .inl hnil
        · exact .inr ⟨hseen.toSound, (nodup_addresses_iff hnil).2 ⟨hseen.addresses, hold⟩⟩
  · refine .inr ⟨e, fun stateRoot => ?_, hrefused, hnames⟩
    rw [himport, he]
    rfl

end

end SnapshotImporter

end Petrachor
