import Petrachor.BlockChainSync.Requests
import Petrachor.Lib.Reservation
import Petrachor.Lib.PartialRun

/-!
# What is being downloaded

The numbers that are being downloaded are in step with what the peers were asked for: no number is asked of two peers,
and none is left over when a peer has answered. All that the reactions to messages do to the numbers is requests,
clearing the numbers of a peer, or of those that are gone, resets, and erasing a number alone; the last one takes a
number from under the peer that was asked for it.
-/

namespace Petrachor

namespace BlockChainSync

namespace Sync

variable {ι : Type}

/-- The numbers that are being downloaded, beside what each peer was asked for. -/
def reservation (downloading : Finset ℕ) (peers : SyncPeers ι) : Reservation ι :=
  ⟨downloading, peers.entries.map fun e => (e.1, e.2)⟩

def headers (s : Sync ι) : Reservation ι := reservation s.m_downloadingHeaders s.m_headerSyncPeers

def bodies (s : Sync ι) : Reservation ι := reservation s.m_downloadingBodies s.m_bodySyncPeers

/-- Every number that is being downloaded was asked of one peer, and every number that a peer was asked for is being
downloaded. -/
def InStep (s : Sync ι) : Prop := s.headers.InStep ∧ s.bodies.InStep

/-- Every number that is being downloaded was asked of a peer that has not answered. -/
def Covered (s : Sync ι) : Prop := s.headers.Covered ∧ s.bodies.Covered

/-! ## Clearing -/

section

variable [DecidableEq ι] {downloading : Finset ℕ} {peers : SyncPeers ι} {p : ι}

theorem kerase_eq_filter : ∀ {l : List (Sigma fun _ : ι => List ℕ)}, l.NodupKeys →
    l.kerase p = l.filter fun e => e.1 ≠ p
  | [], _ => rfl
  | e :: l, h => by
    rw [List.nodupKeys_cons] at h
    by_cases he : p = e.1
    · rw [List.kerase_cons_eq he, List.filter_cons_of_neg (by simp [he])]
      refine (List.filter_eq_self.2 ?_).symm
      intro x hx
      refine decide_eq_true ?_
      intro hxp
      exact h.1 (he ▸ hxp ▸ List.mem_map_of_mem hx)
    · rw [List.kerase_cons_ne he, List.filter_cons_of_pos (by simp [Ne.symm he]), kerase_eq_filter h.2]

theorem foldl_erase (blocks : List ℕ) (downloading : Finset ℕ) :
    blocks.foldl Finset.erase downloading = downloading \ blocks.toFinset := by
  induction blocks generalizing downloading with
  | nil => simp
  | cons n blocks ih =>
    rw [List.foldl_cons, ih, List.toFinset_cons]
    ext m
    simp only [Finset.mem_sdiff, Finset.mem_erase, Finset.mem_insert, not_or]
    tauto

/-- A peer that is cleared gives its numbers back. -/
theorem reservation_erasePeer :
    reservation (erasePeer p downloading peers).1 (erasePeer p downloading peers).2 =
      (reservation downloading peers).release fun q => q = p := by
  have howners : ∀ l : List (Sigma fun _ : ι => List ℕ), (l.map fun e => (e.1, e.2)).filter (fun o =>
      !decide (o.1 = p)) = (l.filter fun e => e.1 ≠ p).map fun e => (e.1, e.2) := by
    intro l
    rw [List.filter_map]
    exact congrArg _ (List.filter_congr fun e _ => by simp)
  have hgiven : ∀ n, n ∈ (((reservation downloading peers).owners.filter fun o => decide (o.1 = p)).flatMap
      Prod.snd) ↔ ∃ blocks, peers.lookup p = some blocks ∧ n ∈ blocks := by
    intro n
    rw [List.mem_flatMap]
    constructor
    · rintro ⟨o, ho, hn⟩
      obtain ⟨hmem, hp⟩ := List.mem_filter.1 ho
      obtain ⟨e, he, rfl⟩ := List.mem_map.1 hmem
      obtain rfl : e.1 = p := of_decide_eq_true hp
      exact ⟨e.2, AList.mem_lookup_iff.2 he, hn⟩
    · rintro ⟨blocks, hblocks, hn⟩
      refine ⟨(p, blocks), List.mem_filter.2 ⟨?_, decide_eq_true rfl⟩, hn⟩
      exact List.mem_map.2 ⟨⟨p, blocks⟩, AList.mem_lookup_iff.1 hblocks, rfl⟩
  unfold Reservation.release
  rw [Reservation.mk.injEq]
  unfold erasePeer
  cases hpeer : peers.lookup p with
  | none =>
    refine ⟨?_, ?_⟩
    · ext n
      rw [Finset.mem_sdiff, List.mem_toFinset, hgiven]
      simp [hpeer, reservation]
    · show _ = ((peers.entries.map fun e => (e.1, e.2)).filter fun o => !decide (o.1 = p))
      rw [howners, ← kerase_eq_filter peers.nodupKeys, List.kerase_of_notMem_keys (AList.lookup_eq_none.1 hpeer)]
      rfl
  | some blocks =>
    refine ⟨?_, ?_⟩
    · show blocks.foldl Finset.erase downloading = _
      rw [foldl_erase]
      ext n
      rw [Finset.mem_sdiff, Finset.mem_sdiff, List.mem_toFinset, List.mem_toFinset, hgiven]
      simp [hpeer, reservation]
    · show ((peers.erase p).entries.map fun e => (e.1, e.2)) =
        ((peers.entries.map fun e => (e.1, e.2)).filter fun o => !decide (o.1 = p))
      rw [howners, ← kerase_eq_filter peers.nodupKeys]
      rfl

/-- Nobody else's numbers are recorded for a peer that was cleared. -/
theorem ne_of_mem_release {r : Reservation ι} {o : ι × List ℕ} (ho : o ∈ (r.release fun q => q = p).owners) :
    o.1 ≠ p := of_decide_eq_false (Reservation.not_of_mem_release (P := fun q => decide (q = p)) ho)

theorem reservation_insert {numbers : List ℕ} :
    reservation (downloading ∪ numbers.toFinset) (peers.insert p numbers) =
      (reservation downloading peers).take p numbers := by
  unfold Reservation.take
  rw [Reservation.mk.injEq]
  refine ⟨rfl, ?_⟩
  show ((peers.insert p numbers).entries.map fun e => (e.1, e.2)) =
    (p, numbers) :: (peers.entries.map fun e => (e.1, e.2)).filter fun o => o.1 ≠ p
  rw [AList.entries_insert, List.map_cons, kerase_eq_filter peers.nodupKeys, List.filter_map]
  rfl

/-- The loop over the peers that are gone. -/
theorem reservation_eraseExpired {Q : Reservation ι → Prop} (hkept : Reservation.Kept Q) (expired : ι → Bool)
    (hQ : Q (reservation downloading peers)) : Q (reservation (eraseExpired expired downloading peers).1
      (eraseExpired expired downloading peers).2) := by
  unfold eraseExpired
  generalize peers.keys.filter expired = gone
  induction gone generalizing downloading peers with
  | nil => exact hQ
  | cons p gone ih =>
    have hnext : Q (reservation (erasePeer p downloading peers).1 (erasePeer p downloading peers).2) := by
      rw [reservation_erasePeer]
      exact hkept.release _ _ hQ
    exact ih hnext

/-! ## Asking -/

/-- The numbers of the bodies that are asked for were free. -/
theorem neededBodies_spec (m_bodies : Items Bytes) : ∀ (hs : List Header) (block : ℕ) (found : List (ℕ × H256))
    (downloading : Finset ℕ), ∃ new, neededBodies m_bodies block hs found downloading =
      (found ++ new, downloading ∪ (new.map Prod.fst).toFinset) ∧ (new.map Prod.fst).Nodup ∧
        ∀ n ∈ new.map Prod.fst, n ∉ downloading
  | [], _, found, downloading => ⟨[], by simp [neededBodies], List.nodup_nil, by simp⟩
  | header :: hs, block, found, downloading => by
    unfold neededBodies
    by_cases hroom : found.length < c_maxRequestBodies
    · rw [if_pos hroom]
      by_cases hneeded : block ∉ downloading ∧ haveItem m_bodies block = false
      · rw [if_pos hneeded]
        obtain ⟨new, heq, hnodup, hfree⟩ := neededBodies_spec m_bodies hs ((block + 1) % 2 ^ 32)
          (found ++ [(block, header.hash)]) (insert block downloading)
        refine ⟨(block, header.hash) :: new, ?_, ?_, ?_⟩
        · rw [heq, List.append_assoc, List.map_cons, List.toFinset_cons, Finset.union_insert, Finset.insert_union]
          rfl
        · rw [List.map_cons, List.nodup_cons]
          exact ⟨fun hn => hfree block hn (Finset.mem_insert_self _ _), hnodup⟩
        · rw [List.map_cons, List.forall_mem_cons]
          exact ⟨hneeded.1, fun n hn hd => hfree n hn (Finset.mem_insert_of_mem hd)⟩
      · rw [if_neg hneeded]
        exact neededBodies_spec m_bodies hs ((block + 1) % 2 ^ 32) found downloading
    · rw [if_neg hroom]
      exact ⟨[], by simp, List.nodup_nil, by simp⟩

/-- Numbers that a peer may be asked for. -/
structure Free (downloading : Finset ℕ) (numbers : List ℕ) : Prop where
  ne_nil : numbers ≠ []
  nodup : numbers.Nodup
  free : ∀ n ∈ numbers, n ∉ downloading

omit [DecidableEq ι] in
theorem free_needed {s : Sync ι} (hne : s.needed.1 ≠ []) : Free s.m_downloadingBodies (s.needed.1.map Prod.fst) ∧
    s.needed.2 = s.m_downloadingBodies ∪ (s.needed.1.map Prod.fst).toFinset := by
  unfold needed at hne ⊢
  split at hne
  · exact absurd rfl hne
  · rename_i header tail hheaders
    split at hne
    · rename_i hfirst
      obtain ⟨new, heq, hnodup, hfree⟩ := neededBodies_spec s.m_bodies header.2 header.1 [] s.m_downloadingBodies
      rw [heq, List.nil_append] at hne
      simp only [if_pos hfirst, heq, List.nil_append]
      exact ⟨⟨fun hnil => hne (List.map_eq_nil_iff.1 hnil), hnodup, hfree⟩, trivial⟩
    · exact absurd rfl hne

theorem free_nextHeaders {next start : ℕ} (h : 0 < (nextHeaders downloading next start).2.length) :
    Free downloading (nextHeaders downloading next start).2 := by
  refine ⟨List.ne_nil_of_length_pos h, List.Nodup.filter _ List.nodup_range', ?_⟩
  intro n hn
  exact of_decide_eq_true (List.mem_filter.1 hn).2

/-- The search ends with the first free numbers below a run of headers. -/
theorem free_searchHeaders {first : ℕ} {numbers : List ℕ} {fuel : ℕ} {items : Items Header} {start : ℕ}
    (h : searchHeaders downloading fuel items start = some (some (first, numbers))) : Free downloading numbers := by
  fun_induction searchHeaders downloading fuel items start with
  | case1 => cases h
  | case2 => cases h
  | case3 fuel next tail start found hlen =>
    have heq : found = (first, numbers) := Option.some.inj (Option.some.inj h)
    have hfree : Free downloading found.2 := free_nextHeaders hlen
    rw [heq] at hfree
    exact hfree
  | case4 _ _ _ _ _ _ _ ih => exact ih h
  | case5 _ _ _ _ _ _ _ ih => exact ih h

/-! ## Requests -/

variable {s s' : Sync ι} {host : Host} {fuel : ℕ} {request : Option Request} {Q : Reservation ι → Prop}

theorem headers_clearPeerDownload : (s.clearPeerDownload p).headers = s.headers.release fun q => q = p :=
  reservation_erasePeer

theorem bodies_clearPeerDownload : (s.clearPeerDownload p).bodies = s.bodies.release fun q => q = p :=
  reservation_erasePeer

/-- Free numbers are asked of a peer that was cleared. -/
theorem kept_ask {numbers : List ℕ} {r : Reservation ι} (hkept : Reservation.Kept Q)
    (hr : reservation downloading peers = r.release fun q => q = p) (hQ : Q r) (hfree : Free downloading numbers) :
    Q (reservation (downloading ∪ numbers.toFinset) (peers.insert p numbers)) := by
  rw [reservation_insert]
  refine hkept.take _ _ _ ?_ ?_ hfree.ne_nil hfree.nodup hfree.free
  · rw [hr]
    exact hkept.release _ _ hQ
  · rw [hr]
    exact fun o ho => ne_of_mem_release ho

/-- What a request for headers does to the numbers. -/
theorem requestHeaders_cases (h : s.requestHeaders fuel p = some (s', request)) :
    s'.bodies = s.bodies ∧ (s'.headers = s.headers ∨ ∃ numbers, Free s.m_downloadingHeaders numbers ∧
      s'.headers = reservation (s.m_downloadingHeaders ∪ numbers.toFinset) (s.m_headerSyncPeers.insert p numbers)) := by
  unfold requestHeaders at h
  obtain ⟨found, hfound, h⟩ := Option.bind_eq_some_iff.1 h
  have hfree : ∀ first numbers, found = some (first, numbers) → Free s.m_downloadingHeaders numbers := by
    rintro first numbers rfl
    split at hfound
    · exact free_searchHeaders hfound
    · split at hfound
      · exact free_searchHeaders hfound
      · exact free_searchHeaders hfound
  cases found with
  | none =>
    cases h
    exact ⟨rfl, .inl rfl⟩
  | some x =>
    dsimp only at h
    split at h
    · cases h
    · cases h
      exact ⟨rfl, .inr ⟨x.2, hfree x.1 x.2 rfl, rfl⟩⟩

/-- A request keeps what owners keep. -/
theorem kept_requestBlocks (hkept : Reservation.Kept Q) (hs : Q s.headers ∧ Q s.bodies)
    (h : s.requestBlocks host fuel p = some (s', request)) : Q s'.headers ∧ Q s'.bodies := by
  have hheaders : Q (s.clearPeerDownload p).headers := by
    rw [headers_clearPeerDownload]
    exact hkept.release _ _ hs.1
  have hbodies : Q (s.clearPeerDownload p).bodies := by
    rw [bodies_clearPeerDownload]
    exact hkept.release _ _ hs.2
  have hgiven := headers_clearPeerDownload (s := s) (p := p)
  have hgiven' := bodies_clearPeerDownload (s := s) (p := p)
  unfold requestBlocks at h
  generalize s.clearPeerDownload p = c at h hheaders hbodies hgiven hgiven'
  dsimp only at h
  split at h
  · cases h
    exact ⟨hheaders, hbodies⟩
  · split at h
    · -- bodies
      rename_i hne
      obtain ⟨hfree, hdownloading⟩ := free_needed hne
      cases h
      refine ⟨hheaders, ?_⟩
      show Q (reservation c.needed.2 _)
      rw [hdownloading]
      exact kept_ask hkept hgiven' hs.2 hfree
    · -- headers, after a step back if no common block is known
      have hstep : ∀ c' : Sync ι, c' = (if c.m_haveCommonHeader = true then c else c.stepBack host) →
          c'.m_downloadingHeaders = c.m_downloadingHeaders ∧ c'.m_headerSyncPeers = c.m_headerSyncPeers ∧
            c'.headers = c.headers ∧ c'.bodies = c.bodies := by
        rintro c' rfl
        split
        · exact ⟨rfl, rfl, rfl, rfl⟩
        · exact ⟨rfl, rfl, rfl, rfl⟩
      obtain ⟨hd, hp, hh, hb⟩ := hstep _ rfl
      generalize (if c.m_haveCommonHeader = true then c else c.stepBack host) = c' at h hd hp hh hb
      split at h
      · obtain ⟨hb', hh' | ⟨numbers, hfree, hh'⟩⟩ := requestHeaders_cases h
        · rw [hh', hb', hh, hb]
          exact ⟨hheaders, hbodies⟩
        · rw [hh', hb', hb, hd, hp]
          exact ⟨kept_ask hkept hgiven hs.1 (hd ▸ hfree), hbodies⟩
      · cases h
        rw [hh, hb]
        exact ⟨hheaders, hbodies⟩

/-! ## Runs -/

/-- What the reactions to messages do: all they do to the numbers being downloaded, and whatever else they do to the
rest of the state. -/
inductive Op (ι : Type)
  | requestBlocks (host : Host) (fuel : ℕ) (p : ι)
  | clearPeerDownload (p : ι)
  | clearExpired (expired : ι → Bool)
  | eraseNumber (n : ℕ)
  | resetSync
  | other (t : Sync ι)

/-- A request that does not return leaves no state. -/
def step (s : Sync ι) : Op ι → Option (Sync ι)
  | .requestBlocks host fuel p => (s.requestBlocks host fuel p).map Prod.fst
  | .clearPeerDownload p => some (s.clearPeerDownload p)
  | .clearExpired expired => some (s.clearExpired expired)
  | .eraseNumber n => some (s.eraseNumber n)
  | .resetSync => some s.resetSync
  | .other t => some { t with
      m_downloadingHeaders := s.m_downloadingHeaders, m_downloadingBodies := s.m_downloadingBodies,
      m_headerSyncPeers := s.m_headerSyncPeers, m_bodySyncPeers := s.m_bodySyncPeers }

/-- Nothing that is being downloaded is erased alone. -/
def Untouched (s : Sync ι) (op : Op ι) : Prop :=
  ∀ n, op = .eraseNumber n → n ∉ s.m_downloadingHeaders ∧ n ∉ s.m_downloadingBodies

/-- What owners keep is kept by all operations but the erasure of a number. -/
theorem kept_step {op : Op ι} (hkept : Reservation.Kept Q) (hempty : Q .empty) (hs : Q s.headers ∧ Q s.bodies)
    (hop : ∀ n, op ≠ .eraseNumber n) (h : s.step op = some s') : Q s'.headers ∧ Q s'.bodies := by
  cases op with
  | requestBlocks host fuel p =>
    obtain ⟨⟨t, request⟩, hrequest, rfl⟩ := Option.map_eq_some_iff.1 h
    exact kept_requestBlocks hkept hs hrequest
  | clearPeerDownload p =>
    cases h
    rw [headers_clearPeerDownload, bodies_clearPeerDownload]
    exact ⟨hkept.release _ _ hs.1, hkept.release _ _ hs.2⟩
  | clearExpired expired =>
    cases h
    exact ⟨reservation_eraseExpired hkept expired hs.1, reservation_eraseExpired hkept expired hs.2⟩
  | eraseNumber n => exact absurd rfl (hop n)
  | resetSync =>
    cases h
    exact ⟨hempty, hempty⟩
  | other t =>
    cases h
    exact hs

theorem inStep_step_iff {op : Op ι} (hs : s.InStep) (h : s.step op = some s') : s'.InStep ↔ Untouched s op := by
  cases op with
  | eraseNumber n =>
    cases h
    refine (and_congr hs.1.strike_iff hs.2.strike_iff).trans ⟨?_, fun hun => hun n rfl⟩
    rintro hn m ⟨⟩
    exact hn
  | _ =>
    refine iff_of_true (kept_step Reservation.kept_inStep Reservation.inStep_empty hs ?_ h) ?_
    · intro n hop
      cases hop
    · intro n hop
      cases hop

theorem covered_step {op : Op ι} (hs : s.Covered) (h : s.step op = some s') : s'.Covered := by
  cases op with
  | eraseNumber n =>
    cases h
    exact ⟨hs.1.strike n, hs.2.strike n⟩
  | _ =>
    refine kept_step Reservation.kept_covered Reservation.covered_empty hs ?_ h
    intro n hop
    cases hop

omit [DecidableEq ι] in
/-- The checks on the download maps pass where the numbers are in step. -/
theorem InStep.mapsMatch (hs : s.InStep) : s.mapsMatch = true := by
  have hmatch : ∀ {downloading : Finset ℕ} {peers : SyncPeers ι}, (reservation downloading peers).InStep →
      ¬(peers.entries = [] ↔ downloading ≠ ∅) := by
    intro downloading peers h hiff
    have hempty : peers.entries = [] ↔ downloading = ∅ := List.map_eq_nil_iff.symm.trans h.owners_eq_nil_iff
    by_cases hd : downloading = ∅
    · exact hiff.1 (hempty.2 hd) hd
    · exact hd (hempty.1 (hiff.2 hd))
  unfold Sync.mapsMatch
  rw [decide_eq_false (hmatch hs.1), decide_eq_false (hmatch hs.2), Bool.false_and]
  rfl

/-- From a reset on, what is being downloaded is in step with what the peers were asked for just as long as no number is
erased while it is being downloaded, and until then the checks on the download maps pass; whatever happens, no number is
left over without a peer that was asked for it. -/
theorem downloads_inStep_iff (t : Sync ι) (ops : List (Op ι)) :
    (PartialRun.Always step InStep t.resetSync ops ↔ PartialRun.Along step Untouched t.resetSync ops) ∧
      (PartialRun.Along step Untouched t.resetSync ops →
        PartialRun.Always step (fun s => s.mapsMatch = true) t.resetSync ops) ∧
      PartialRun.Always step Covered t.resetSync ops := by
  have hiff : PartialRun.Always step InStep t.resetSync ops ↔ PartialRun.Along step Untouched t.resetSync ops := by
    refine PartialRun.always_iff_along (I := fun _ => True) ?_ (fun _ _ _ _ _ => trivial) ?_ trivial
      ⟨Reservation.inStep_empty, Reservation.inStep_empty⟩
    · intro s op _
      cases op with
      | eraseNumber n => exact .inr ⟨_, rfl⟩
      | _ =>
        refine .inl fun n hop => ?_
        cases hop
    · intro s op s' _ hs h
      exact inStep_step_iff hs h
  refine ⟨hiff, fun h => (hiff.2 h).mono fun s hs => hs.mapsMatch, ?_⟩
  have hstep : ∀ (s : Sync ι) op s', s.Covered → step s op = some s' → s'.Covered :=
    fun _ _ _ hs h => covered_step hs h
  exact PartialRun.always_of_step hstep ⟨Reservation.covered_empty, Reservation.covered_empty⟩

end

end Sync

end BlockChainSync

end Petrachor
