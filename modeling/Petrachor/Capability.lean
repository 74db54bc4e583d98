import Petrachor.RLP
import Petrachor.Lib.RemoveIf
import Petrachor.Lib.SortedMap
import Mathlib.Data.Prod.Lex
import Mathlib.Data.String.Basic

/-!
# Capabilities of a session

Two hosts tell each other in their hellos which capabilities they have. Each keeps the greatest common
version of every name and gives the ones it keeps their packet ids, in the order of the other's hello,
from `UserPacket` on; nothing confirms that the other does the same.
-/

namespace Petrachor

namespace P2P

def UserPacket : ℕ := 0x10

def c_protocolVersion : ℕ := 4

/-- Name and version. The bytes of the name are its characters; the version is a `u256`, which is only
compared. -/
structure CapDesc where
  name : String
  version : ℕ
  deriving DecidableEq

namespace CapDesc

instance : LinearOrder CapDesc :=
  LinearOrder.lift' (fun c => toLex (c.name, c.version)) fun a b h => by
    obtain ⟨a, v⟩ := a
    obtain ⟨b, w⟩ := b
    have hpair : (a, v) = (b, w) := h
    rw [Prod.mk.injEq] at hpair
    rw [hpair.1, hpair.2]

theorem lt_iff {a b : CapDesc} : a < b ↔ a.name < b.name ∨ a.name = b.name ∧ a.version < b.version :=
  Prod.Lex.lt_iff

theorem not_lt_empty (s : String) : ¬s < "" := by
  intro h
  rw [String.lt_iff_toList_lt] at h
  exact List.not_lt_nil _ h

/-- A moved-from descriptor: the string is emptied, the number stays. -/
def movedFrom (c : CapDesc) : CapDesc := { c with name := "" }

end CapDesc

inductive DisconnectReason
  | BadProtocol | UselessPeer | TooManyPeers | DuplicatePeer | IncompatibleProtocol | UnexpectedIdentity
  deriving DecidableEq

/-! ## Sessions -/

/-- A capability of a session, with its host capability's message count. -/
structure Capability where
  c_protocolID : ℕ
  m_idOffset : ℕ
  messageCount : ℕ
  m_enabled : Bool
  deriving DecidableEq

/-- The type byte of a packet. -/
def Capability.prep (p : Capability) (id : ℕ) : UInt8 := UInt8.ofNat ((id + p.m_idOffset) % 2 ^ 32)

structure Session where
  /-- The peer's. -/
  protocolVersion : ℕ
  m_capabilities : List (CapDesc × Capability)
  ascending : SortedMap.Ascending m_capabilities

/-- What becomes of a packet. -/
inductive Received
  /-- It is a packet of the session itself. -/
  | interpret (type : ℕ)
  | capability (c : CapDesc) (id : ℕ)
  | disabled
  | unknown
  | disconnect (r : DisconnectReason)
  | thrown (e : Exception)
  deriving DecidableEq

namespace Session

def isFramingAllowedForVersion (version : ℕ) : Bool := 4 < version

def isFramingEnabled (s : Session) : Bool := isFramingAllowedForVersion s.protocolVersion

def registerCapability (s : Session) (desc : CapDesc) (p : Capability) : Session :=
  { s with
    m_capabilities := SortedMap.set desc p s.m_capabilities
    ascending := s.ascending.set desc p }

/-- The packet type is one of the capability's. -/
def hasId (p : Capability) (t : ℕ) : Bool := p.m_idOffset ≤ t && t - p.m_idOffset < p.messageCount

/-- The first capability that the packet belongs to gets it. -/
def readPacket (s : Session) (capId t : ℕ) : Received :=
  if capId = 0 ∧ t < UserPacket then .interpret t
  else if s.isFramingEnabled then
    match s.m_capabilities.find? fun i => i.2.c_protocolID = capId with
    | some i => if i.2.m_enabled then .capability i.1 t else .disabled
    | none => .unknown
  else
    match s.m_capabilities.find? fun i => hasId i.2 t with
    | some i => if i.2.m_enabled then .capability i.1 (t - i.2.m_idOffset) else .disabled
    | none => .unknown

/-- A packet with this type byte is read; `checkPacket` has no types above `0x7f`. -/
def doRead (s : Session) (capId : ℕ) (type : UInt8) : Received :=
  if 0x7f < type.toNat then .disconnect .BadProtocol
  else match (RLP.mk [type]).toInt 4 RLP.Strict with
    | .ok t => s.readPacket capId t
    | .error e => .thrown e

end Session

/-! ## Hosts -/

/-- The capabilities of a host, with their message counts. -/
structure Host where
  m_capabilities : List (CapDesc × ℕ)
  ascending : SortedMap.Ascending m_capabilities

namespace Host

/-- A host that was just made. -/
def empty : Host := ⟨[], SortedMap.ascending_nil⟩

def registerCapability (h : Host) (c : CapDesc) (messageCount : ℕ) : Host :=
  ⟨SortedMap.set c messageCount h.m_capabilities, h.ascending.set c messageCount⟩

def caps (h : Host) : List CapDesc := h.m_capabilities.map Prod.fst

def haveCapability (h : Host) (c : CapDesc) : Bool := c ∈ h.caps

/-- The host does not have the capability, or has a higher version that is among these. -/
def superseded (h : Host) (caps : List CapDesc) (r : CapDesc) : Bool :=
  !h.haveCapability r ||
    caps.any fun o => r.name = o.name && r.version < o.version && h.haveCapability o

/-- What is left of the capabilities in a hello. The predicate searches the vector it is called on the
elements of. -/
def negotiate (h : Host) (caps : List CapDesc) : List CapDesc :=
  (RemoveIf.removeIfIn CapDesc.movedFrom h.superseded caps).1

/-- The loop that gives out the ids: ranges of packet types, or protocol ids where frames carry them. -/
def register (h : Host) : List CapDesc → ℕ → ℕ → Session → Except DisconnectReason Session
  | [], _, _, s => .ok s
  | i :: caps, offset, cnt, s =>
    match h.m_capabilities.lookup i with
    | none => .error .IncompatibleProtocol
    | some messageCount =>
      if s.isFramingEnabled then
        h.register caps offset ((cnt + 1) % 2 ^ 16) (s.registerCapability i ⟨cnt, 0, messageCount, true⟩)
      else
        h.register caps ((offset + messageCount) % 2 ^ 32) cnt
          (s.registerCapability i ⟨0, offset, messageCount, true⟩)

/-- The session that is started on a hello; `refusal` is what the checks of the peer's identity, of a
session with it and of the free slots say. -/
def startPeerSession (h : Host) (refusal : Option DisconnectReason) (protocolVersion : ℕ)
    (caps : List CapDesc) : Except DisconnectReason Session :=
  let caps := h.negotiate caps
  if protocolVersion < c_protocolVersion - 1 then .error .IncompatibleProtocol
  else if caps.isEmpty then .error .UselessPeer
  else match refusal with
    | some r => .error r
    | none => h.register caps UserPacket 1 ⟨protocolVersion, [], SortedMap.ascending_nil⟩

/-! ## What is kept -/

section

variable {a b h : Host} {c e : CapDesc} {l : List CapDesc}

theorem caps_ascending (h : Host) : h.caps.Pairwise (· < ·) := h.ascending

theorem haveCapability_iff : h.haveCapability c = true ↔ c ∈ h.caps := decide_eq_true_iff

theorem superseded_iff : h.superseded l c = true ↔
    c ∉ h.caps ∨ ∃ o ∈ l, c.name = o.name ∧ c.version < o.version ∧ o ∈ h.caps := by
  unfold superseded
  simp only [Bool.or_eq_true, Bool.not_eq_true', Bool.and_eq_true, List.any_eq_true, decide_eq_true_eq,
    haveCapability_iff, ← Bool.not_eq_true, and_assoc]

/-- In an ascending sequence the predicate gives the same answer at every stage of the removal: what
could supersede an element stands behind it, and a moved-from one is too low. -/
theorem superseded_stage (hl : l.Pairwise (· < ·)) {done kept gap rest : List CapDesc}
    (heq : l = done ++ e :: rest) (hs : RemoveIf.Stage CapDesc.movedFrom done kept gap) :
    h.superseded (kept ++ gap ++ e :: rest) e = h.superseded l e := by
  subst heq
  obtain ⟨-, hpair, hbefore⟩ := List.pairwise_append.1 hl
  rw [Bool.eq_iff_iff, superseded_iff, superseded_iff]
  refine or_congr Iff.rfl ⟨?_, ?_⟩
  · rintro ⟨o, ho, hname, hversion, hhave⟩
    rcases List.mem_append.1 ho with ho | ho
    · rcases List.mem_append.1 ho with ho | ho
      · exact ⟨o, List.mem_append_left _ (hs.kept o ho), hname, hversion, hhave⟩
      · rcases hs.gap o ho with ho | ⟨y, hy, rfl⟩
        · exact ⟨o, List.mem_append_left _ ho, hname, hversion, hhave⟩
        · -- the element was moved from a name that is not above the empty one
          have hlt := CapDesc.lt_iff.1 (hbefore y hy e List.mem_cons_self)
          have hempty : e.name = "" := hname
          rcases hlt with hlt | ⟨-, hlt⟩
          · rw [hempty] at hlt
            exact absurd hlt (CapDesc.not_lt_empty _)
          · exact absurd hversion (not_lt.2 hlt.le)
    · exact ⟨o, List.mem_append_right _ ho, hname, hversion, hhave⟩
  · rintro ⟨o, ho, hname, hversion, hhave⟩
    have hlt : e < o := CapDesc.lt_iff.2 (.inr ⟨hname, hversion⟩)
    rcases List.mem_append.1 ho with ho | ho
    · exact absurd (hlt.trans (hbefore o ho e List.mem_cons_self)) (lt_irrefl e)
    · exact ⟨o, List.mem_append_right _ ho, hname, hversion, hhave⟩

theorem negotiate_eq (hl : l.Pairwise (· < ·)) :
    h.negotiate l = l.filter fun r => !h.superseded l r := by
  unfold negotiate
  rw [RemoveIf.removeIfIn_eq fun done kept gap e rest => superseded_stage hl, RemoveIf.removeIf_fst]

/-- The capability is common to the hosts, and no higher version of it is. -/
def Greatest (a b : Host) (c : CapDesc) : Prop :=
  c ∈ a.caps ∧ c ∈ b.caps ∧ ∀ o, o ∈ a.caps → o ∈ b.caps → o.name = c.name → o.version ≤ c.version

theorem Greatest.symm (hg : Greatest a b c) : Greatest b a c :=
  ⟨hg.2.1, hg.1, fun o ho ho' => hg.2.2 o ho' ho⟩

theorem mem_negotiate_caps : c ∈ a.negotiate b.caps ↔ Greatest a b c := by
  rw [negotiate_eq b.caps_ascending, List.mem_filter, Bool.not_eq_true', ← Bool.not_eq_true, superseded_iff]
  constructor
  · rintro ⟨hb, hnot⟩
    rw [not_or, not_not] at hnot
    refine ⟨hnot.1, hb, fun o ho ho' hname => ?_⟩
    by_contra hlt
    exact hnot.2 ⟨o, ho', hname.symm, not_le.1 hlt, ho⟩
  · rintro ⟨ha, hb, hmax⟩
    refine ⟨hb, ?_⟩
    rintro (hna | ⟨o, ho, hname, hlt, ho'⟩)
    · exact hna ha
    · exact absurd (hmax o ho' ho hname.symm) (not_le.2 hlt)

theorem negotiate_ascending : (a.negotiate b.caps).Pairwise (· < ·) := by
  rw [negotiate_eq b.caps_ascending]
  exact b.caps_ascending.filter _

/-- Both hosts keep the same capabilities in the same order. -/
theorem negotiate_comm (a b : Host) : a.negotiate b.caps = b.negotiate a.caps := by
  apply negotiate_ascending.eq_of_mem_iff negotiate_ascending
  intro c
  rw [mem_negotiate_caps, mem_negotiate_caps]
  exact ⟨Greatest.symm, Greatest.symm⟩

/-- Whatever the hello, only capabilities of the host are kept. -/
theorem mem_caps_of_mem_negotiate (hc : c ∈ h.negotiate l) : c ∈ h.caps := by
  rcases RemoveIf.mem_shiftIn l [] [] hc with hc | ⟨-, l', hr⟩
  · cases hc
  · rw [← Bool.not_eq_true, superseded_iff, not_or, not_not] at hr
    exact hr.1

end

/-! ## What is registered -/

/-- The packet ids that the kept capabilities take. -/
def idsUsed (h : Host) (kept : List CapDesc) : ℕ :=
  UserPacket + (kept.map fun c => (h.m_capabilities.lookup c).getD 0).sum

/-- The registrations of the loop, in its order. -/
def assigned (h : Host) (framing : Bool) : List CapDesc → ℕ → ℕ → List (CapDesc × Capability)
  | [], _, _ => []
  | i :: caps, offset, cnt =>
    let messageCount := (h.m_capabilities.lookup i).getD 0
    if framing then
      (i, ⟨cnt, 0, messageCount, true⟩) :: h.assigned framing caps offset ((cnt + 1) % 2 ^ 16)
    else
      (i, ⟨0, offset, messageCount, true⟩) :: h.assigned framing caps ((offset + messageCount) % 2 ^ 32) cnt

section

variable {a b h : Host} {c : CapDesc} {l : List CapDesc} {s s' : Session} {x y : CapDesc × Capability}
  {offset cnt t : ℕ}

theorem exists_lookup (hc : c ∈ h.caps) : ∃ n, h.m_capabilities.lookup c = some n := by
  unfold caps at hc
  cases hl : h.m_capabilities.lookup c with
  | some n => exact ⟨n, rfl⟩
  | none =>
    rw [List.lookup_eq_none_iff] at hl
    obtain ⟨e, he, rfl⟩ := List.mem_map.1 hc
    have := hl e he
    simp at this

theorem mem_of_lookup {n : ℕ} (hl : h.m_capabilities.lookup c = some n) : (c, n) ∈ h.m_capabilities := by
  rw [List.lookup_eq_some_iff] at hl
  obtain ⟨l₁, l₂, heq, -⟩ := hl
  rw [heq]
  exact List.mem_append_right _ List.mem_cons_self

/-- The registrations decide what the loop makes of a session. -/
theorem register_eq : ∀ (l : List CapDesc) (offset cnt : ℕ) (s : Session), (∀ c ∈ l, c ∈ h.caps) →
    h.register l offset cnt s = .ok ((h.assigned s.isFramingEnabled l offset cnt).foldl
      (fun s x => s.registerCapability x.1 x.2) s) := by
  intro l
  induction l with
  | nil => exact fun offset cnt s _ => rfl
  | cons i l ih =>
    intro offset cnt s hl
    obtain ⟨n, hn⟩ := exists_lookup (hl i List.mem_cons_self)
    have htail : ∀ c ∈ l, c ∈ h.caps := fun c hc => hl c (List.mem_cons_of_mem _ hc)
    unfold register assigned
    rw [hn]
    dsimp only [Option.getD_some]
    split
    · exact ih _ _ _ htail
    · exact ih _ _ _ htail

/-- What a session has registered is among the registrations. -/
theorem mem_of_mem_foldl : ∀ (r : List (CapDesc × Capability)) (s : Session),
    x ∈ (r.foldl (fun s x => s.registerCapability x.1 x.2) s).m_capabilities →
      x ∈ s.m_capabilities ∨ x ∈ r := by
  intro r
  induction r with
  | nil => exact fun s hx => .inl hx
  | cons e r ih =>
    intro s hx
    rcases ih _ hx with hx | hx
    · rcases (SortedMap.mem_set s.ascending).1 hx with rfl | ⟨hx, -⟩
      · exact .inr List.mem_cons_self
      · exact .inl hx
    · exact .inr (List.mem_cons_of_mem _ hx)

/-- Every registration leaves its descriptor in the session. -/
theorem mem_keys_foldl : ∀ (r : List (CapDesc × Capability)) (s : Session),
    (c ∈ s.m_capabilities.map Prod.fst ∨ c ∈ r.map Prod.fst) →
      c ∈ (r.foldl (fun s x => s.registerCapability x.1 x.2) s).m_capabilities.map Prod.fst := by
  intro r
  induction r with
  | nil =>
    rintro s (hc | hc)
    · exact hc
    · cases hc
  | cons e r ih =>
    intro s hc
    apply ih
    have hset : c ∈ s.m_capabilities.map Prod.fst ∨ c = e.1 →
        c ∈ (s.registerCapability e.1 e.2).m_capabilities.map Prod.fst := by
      intro hor
      by_cases he : c = e.1
      · exact List.mem_map.2 ⟨(e.1, e.2), (SortedMap.mem_set s.ascending).2 (.inl rfl), he.symm⟩
      · rcases hor with hc | hc
        · obtain ⟨x, hx, rfl⟩ := List.mem_map.1 hc
          exact List.mem_map.2 ⟨x, (SortedMap.mem_set s.ascending).2 (.inr ⟨hx, he⟩), rfl⟩
        · exact absurd hc he
    rcases hc with hc | hc
    · exact .inl (hset (.inl hc))
    · rcases List.mem_cons.1 hc with hc | hc
      · exact .inl (hset (.inr hc))
      · exact .inr hc

theorem assigned_map_fst (framing : Bool) : ∀ (l : List CapDesc) (offset cnt : ℕ),
    (h.assigned framing l offset cnt).map Prod.fst = l := by
  intro l
  induction l with
  | nil => exact fun offset cnt => rfl
  | cons i l ih =>
    intro offset cnt
    unfold assigned
    dsimp only
    split <;> rw [List.map_cons, ih]

/-- A registration without framing names no protocol, and is enabled. -/
theorem mem_assigned : ∀ {l : List CapDesc} {offset cnt : ℕ}, x ∈ h.assigned false l offset cnt →
    x.2.c_protocolID = 0 ∧ x.2.m_enabled = true := by
  intro l
  induction l with
  | nil =>
    intro offset cnt hx
    cases hx
  | cons i l ih =>
    intro offset cnt hx
    unfold assigned at hx
    dsimp only at hx
    rw [if_neg (by decide)] at hx
    rcases List.mem_cons.1 hx with rfl | hx
    · exact ⟨rfl, rfl⟩
    · exact ih hx

/-- A session that was started has registered what was kept. -/
theorem startPeerSession_ok {refusal : Option DisconnectReason} {version : ℕ}
    (hs : h.startPeerSession refusal version l = .ok s) :
    s.protocolVersion = version ∧
    s = (h.assigned (Session.isFramingAllowedForVersion version) (h.negotiate l) UserPacket 1).foldl
      (fun s x => s.registerCapability x.1 x.2) ⟨version, [], SortedMap.ascending_nil⟩ := by
  unfold startPeerSession at hs
  dsimp only at hs
  split at hs
  · cases hs
  split at hs
  · cases hs
  split at hs
  · cases hs
  · rw [register_eq _ _ _ _ fun c hc => mem_caps_of_mem_negotiate hc, Except.ok.injEq] at hs
    subst hs
    refine ⟨?_, rfl⟩
    generalize h.assigned _ _ _ _ = r
    generalize hs : (⟨version, [], SortedMap.ascending_nil⟩ : Session) = s
    have hv : s.protocolVersion = version := by rw [← hs]
    clear hs
    induction r generalizing s with
    | nil => exact hv
    | cons e r ih => exact ih _ hv

/-- The ranges of the registrations follow each other. -/
theorem assigned_pairwise : ∀ (l : List CapDesc) (offset cnt : ℕ),
    offset + (l.map fun c => (h.m_capabilities.lookup c).getD 0).sum < 2 ^ 32 →
    (h.assigned false l offset cnt).Pairwise
        (fun x y => x.2.m_idOffset + x.2.messageCount ≤ y.2.m_idOffset) ∧
      ∀ x ∈ h.assigned false l offset cnt, offset ≤ x.2.m_idOffset := by
  intro l
  induction l with
  | nil => exact fun offset cnt _ => ⟨List.Pairwise.nil, fun x hx => (by cases hx)⟩
  | cons i l ih =>
    intro offset cnt hlt
    rw [List.map_cons, List.sum_cons] at hlt
    unfold assigned
    dsimp only
    rw [if_neg (by decide), Nat.mod_eq_of_lt (by omega)]
    obtain ⟨hpair, hle⟩ := ih (offset + (h.m_capabilities.lookup i).getD 0) cnt (by omega)
    refine ⟨List.pairwise_cons.2 ⟨fun y hy => hle y hy, hpair⟩, fun x hx => ?_⟩
    rcases List.mem_cons.1 hx with rfl | hx
    · exact le_rfl
    · exact (Nat.le_add_right _ _).trans (hle x hx)

/-- The protocol ids of the registrations ascend. -/
theorem assigned_framing_pairwise : ∀ (l : List CapDesc) (offset cnt : ℕ), cnt + l.length ≤ 2 ^ 16 →
    (h.assigned true l offset cnt).Pairwise (fun x y => x.2.c_protocolID < y.2.c_protocolID) ∧
      ∀ x ∈ h.assigned true l offset cnt, cnt ≤ x.2.c_protocolID := by
  intro l
  induction l with
  | nil => exact fun offset cnt _ => ⟨List.Pairwise.nil, fun x hx => (by cases hx)⟩
  | cons i l ih =>
    intro offset cnt hle
    rw [List.length_cons] at hle
    unfold assigned
    dsimp only
    rw [if_pos rfl]
    rcases Nat.eq_zero_or_pos l.length with h0 | hpos
    · rw [List.length_eq_zero_iff.1 h0]
      refine ⟨List.pairwise_singleton _ _, fun x hx => ?_⟩
      rw [List.mem_singleton.1 hx]
    · rw [Nat.mod_eq_of_lt (by omega)]
      obtain ⟨hpair, hge⟩ := ih offset (cnt + 1) (by omega)
      refine ⟨List.pairwise_cons.2 ⟨fun y hy => hge y hy, hpair⟩, fun x hx => ?_⟩
      rcases List.mem_cons.1 hx with rfl | hx
      · exact le_rfl
      · exact (Nat.le_succ cnt).trans (hge x hx)

/-- A packet belongs to one capability of the session: its type to one range of ids, or, where frames
carry it, its protocol id to one capability. -/
def Separate (s : Session) : Prop :=
  ∀ x ∈ s.m_capabilities, ∀ y ∈ s.m_capabilities, x ≠ y →
    if s.isFramingEnabled then x.2.c_protocolID ≠ y.2.c_protocolID
    else ∀ t, ¬(Session.hasId x.2 t = true ∧ Session.hasId y.2 t = true)

theorem hasId_iff {p : Capability} :
    Session.hasId p t = true ↔ p.m_idOffset ≤ t ∧ t - p.m_idOffset < p.messageCount := by
  unfold Session.hasId
  rw [Bool.and_eq_true, decide_eq_true_iff, decide_eq_true_iff]

/-- Two registrations are in some order. -/
theorem pairwise_or {R : CapDesc × Capability → CapDesc × Capability → Prop}
    {r : List (CapDesc × Capability)} (hr : r.Pairwise R) (hx : x ∈ r) (hy : y ∈ r) (hne : x ≠ y) :
    R x y ∨ R y x := by
  induction hr with
  | nil => cases hx
  | cons hhead htail ih =>
    rcases List.mem_cons.1 hx with rfl | hx'
    · rcases List.mem_cons.1 hy with rfl | hy'
      · exact absurd rfl hne
      · exact .inl (hhead y hy')
    · rcases List.mem_cons.1 hy with rfl | hy'
      · exact .inr (hhead x hx')
      · exact ih hx' hy'

/-- Whatever the hello, the packets of different capabilities are told apart, as long as the ids do not
overflow. -/
theorem separate_of_startPeerSession {refusal : Option DisconnectReason} {version : ℕ}
    (hs : h.startPeerSession refusal version l = .ok s)
    (hfits : if Session.isFramingAllowedForVersion version then (h.negotiate l).length < 2 ^ 16
      else h.idsUsed (h.negotiate l) < 2 ^ 32) : Separate s := by
  obtain ⟨hversion, heq⟩ := startPeerSession_ok hs
  have hmem : ∀ x ∈ s.m_capabilities, x ∈ h.assigned (Session.isFramingAllowedForVersion version)
      (h.negotiate l) UserPacket 1 := by
    intro x hx
    rw [heq] at hx
    rcases mem_of_mem_foldl _ _ hx with hx | hx
    · cases hx
    · exact hx
  intro x hx y hy hne
  have hx := hmem x hx
  have hy := hmem y hy
  unfold Session.isFramingEnabled
  rw [hversion]
  split at hfits <;> rename_i hframing
  · rw [hframing] at hx hy
    rw [if_pos hframing]
    have hpair := (@assigned_framing_pairwise h (h.negotiate l) UserPacket 1 (by omega)).1
    rcases pairwise_or hpair hx hy hne with hlt | hlt
    · exact hlt.ne
    · exact hlt.ne'
  · rw [Bool.not_eq_true] at hframing
    rw [hframing] at hx hy
    rw [hframing, if_neg (by decide)]
    rintro t ⟨hxt, hyt⟩
    rw [hasId_iff] at hxt hyt
    have hpair := (@assigned_pairwise h (h.negotiate l) UserPacket 1 hfits).1
    rcases pairwise_or hpair hx hy hne with hle | hle <;> omega

set_option maxRecDepth 100000 in
/-- A packet type in the range of a capability, which is in one byte, gets to it. -/
theorem doRead_prep {refusal : Option DisconnectReason} {version m : ℕ} {p : Capability}
    (hframing : Session.isFramingAllowedForVersion version = false)
    (hs : h.startPeerSession refusal version l = .ok s) (hfits : h.idsUsed (h.negotiate l) < 2 ^ 32)
    (hp : (c, p) ∈ s.m_capabilities) (hm : m < p.messageCount) (hbyte : p.m_idOffset + m ≤ 0x7f) :
    s.doRead p.c_protocolID (p.prep m) = .capability c m := by
  have hsep : Separate s := separate_of_startPeerSession hs (by rw [hframing]; exact hfits)
  obtain ⟨hversion, heq⟩ := startPeerSession_ok hs
  have hassigned : (c, p) ∈ h.assigned false (h.negotiate l) UserPacket 1 := by
    rw [heq, hframing] at hp
    rcases mem_of_mem_foldl _ _ hp with hp | hp
    · cases hp
    · exact hp
  have hoffset : UserPacket ≤ p.m_idOffset :=
    (assigned_pairwise (h.negotiate l) UserPacket 1 hfits).2 _ hassigned
  obtain ⟨hprotocol, henabled⟩ := mem_assigned hassigned
  have hsession : s.isFramingEnabled = false := by
    unfold Session.isFramingEnabled
    rw [hversion]
    exact hframing
  have hfind : s.m_capabilities.find? (fun i => Session.hasId i.2 (m + p.m_idOffset)) = some (c, p) := by
    have hhas : Session.hasId p (m + p.m_idOffset) = true := hasId_iff.2 ⟨by omega, by omega⟩
    cases hf : s.m_capabilities.find? (fun i => Session.hasId i.2 (m + p.m_idOffset)) with
    | none =>
      rw [List.find?_eq_none] at hf
      exact absurd hhas (hf (c, p) hp)
    | some i =>
      by_contra hne
      have hi : i ≠ (c, p) := fun h => hne (by rw [h])
      have hboth := hsep i (List.mem_of_find?_eq_some hf) (c, p) hp hi
      rw [hsession, if_neg (by decide)] at hboth
      have hi' : Session.hasId i.2 (m + p.m_idOffset) = true := by
        rw [List.find?_eq_some_iff_append] at hf
        exact hf.1
      exact hboth _ ⟨hi', hhas⟩
  have htype : (p.prep m).toNat = m + p.m_idOffset := by
    unfold Capability.prep
    rw [UInt8.toNat_ofNat']
    omega
  have hint : ∀ n : Fin 256, n.val ≠ 0 → n.val ≤ 0x7f →
      (RLP.mk [UInt8.ofNat n.val]).toInt 4 RLP.Strict = .ok n.val := by decide
  have hread : (RLP.mk [p.prep m]).toInt 4 RLP.Strict = .ok (m + p.m_idOffset) := by
    have h16 : UserPacket = 16 := rfl
    have hn := hint ⟨(p.prep m).toNat, (p.prep m).toNat_lt⟩ (by simp only [htype]; omega)
      (by simp only [htype]; omega)
    simp only [UInt8.ofNat_toNat] at hn
    rw [hn, htype]
  unfold Session.doRead
  rw [if_neg (by rw [htype]; omega), hread]
  unfold Session.readPacket
  dsimp only
  rw [if_neg (by rintro ⟨-, hlt⟩; omega), hsession, if_neg (by decide), hfind]
  dsimp only
  rw [henabled, if_pos rfl, Nat.add_sub_cancel]

end

/-! ## Agreement -/

/-- The hosts give their common capabilities as many messages. -/
def Agree (a b : Host) : Prop :=
  ∀ c n n', (c, n) ∈ a.m_capabilities → (c, n') ∈ b.m_capabilities → n = n'

section

variable {a b : Host}

theorem Agree.lookup (hab : Agree a b) {c : CapDesc} (ha : c ∈ a.caps) (hb : c ∈ b.caps) :
    a.m_capabilities.lookup c = b.m_capabilities.lookup c := by
  obtain ⟨n, hn⟩ := exists_lookup ha
  obtain ⟨n', hn'⟩ := exists_lookup hb
  rw [hn, hn', hab c n n' (mem_of_lookup hn) (mem_of_lookup hn')]

theorem register_congr : ∀ (l : List CapDesc) (offset cnt : ℕ) (s : Session),
    (∀ c ∈ l, a.m_capabilities.lookup c = b.m_capabilities.lookup c) →
    a.register l offset cnt s = b.register l offset cnt s := by
  intro l
  induction l with
  | nil => exact fun offset cnt s _ => rfl
  | cons i l ih =>
    intro offset cnt s hl
    have htail : ∀ c ∈ l, a.m_capabilities.lookup c = b.m_capabilities.lookup c :=
      fun c hc => hl c (List.mem_cons_of_mem _ hc)
    unfold register
    rw [hl i List.mem_cons_self]
    cases b.m_capabilities.lookup i with
    | none => rfl
    | some n =>
      dsimp only
      rw [ih _ _ _ htail, ih _ _ _ htail]

/-- Both hosts start the same session, or refuse it for the same reason. -/
theorem startPeerSession_comm (hab : Agree a b) (version : ℕ) :
    a.startPeerSession none version b.caps = b.startPeerSession none version a.caps := by
  unfold startPeerSession
  dsimp only
  rw [negotiate_comm a b]
  have hcommon : ∀ c ∈ b.negotiate a.caps, a.m_capabilities.lookup c = b.m_capabilities.lookup c := by
    intro c hc
    have hg := mem_negotiate_caps.1 hc
    exact hab.lookup hg.2.1 hg.1
  rw [register_congr _ _ _ _ hcommon]

end

/-- Two hosts that agree on the messages of their common capabilities start the same session on each
other's hellos: it has the greatest common version of every common name, at the same ids, and a packet
whose type is in one byte gets to the message it was built for. And on every hello the packets of different
capabilities are told apart, as long as the ids do not overflow. -/
theorem negotiation {a b : Host} (hab : Agree a b) :
    a.startPeerSession none c_protocolVersion b.caps = b.startPeerSession none c_protocolVersion a.caps ∧
    (∀ s, a.startPeerSession none c_protocolVersion b.caps = .ok s →
      (∀ c, c ∈ s.m_capabilities.map Prod.fst ↔ Greatest a b c) ∧
      (a.idsUsed (a.negotiate b.caps) < 2 ^ 32 → ∀ c p m, (c, p) ∈ s.m_capabilities →
        m < p.messageCount → p.m_idOffset + m ≤ 0x7f →
        s.doRead p.c_protocolID (p.prep m) = .capability c m)) ∧
    ∀ (h : Host) refusal version hello s, h.startPeerSession refusal version hello = .ok s →
      (if Session.isFramingAllowedForVersion version then (h.negotiate hello).length < 2 ^ 16
        else h.idsUsed (h.negotiate hello) < 2 ^ 32) → Separate s := by
  refine ⟨startPeerSession_comm hab _, fun s hs => ⟨fun c => ?_, ?_⟩, ?_⟩
  · obtain ⟨-, heq⟩ := startPeerSession_ok hs
    rw [← mem_negotiate_caps, heq]
    constructor
    · intro hc
      obtain ⟨x, hx, rfl⟩ := List.mem_map.1 hc
      rcases mem_of_mem_foldl _ _ hx with hx | hx
      · cases hx
      · have hfst := List.mem_map_of_mem (f := Prod.fst) hx
        rwa [assigned_map_fst] at hfst
    · intro hc
      refine mem_keys_foldl _ _ (.inr ?_)
      rw [assigned_map_fst]
      exact hc
  · intro hfits c p m hp hm hbyte
    exact doRead_prep (by decide) hs hfits hp hm hbyte
  · intro h refusal version hello s hs hfits
    exact separate_of_startPeerSession hs hfits

/-! ## Examples -/

/-- Two versions of one protocol, and another protocol. -/
def eth : Host :=
  ((empty.registerCapability ⟨"eth", 63⟩ 17).registerCapability ⟨"eth", 62⟩ 8).registerCapability ⟨"shh", 2⟩ 3

/-- The older version only. -/
def old : Host := (empty.registerCapability ⟨"shh", 2⟩ 3).registerCapability ⟨"eth", 62⟩ 8

theorem agree_eth_old : eth.Agree old := by
  intro c n n' hn hn'
  have hpairs : ∀ x ∈ eth.m_capabilities, ∀ y ∈ old.m_capabilities, x.1 = y.1 → x.2 = y.2 := by
    decide
  exact hpairs (c, n) hn (c, n') hn' rfl

/-- The session of the two. -/
def shared : Session :=
  ⟨4, [(⟨"eth", 62⟩, ⟨0, 16, 8, true⟩), (⟨"shh", 2⟩, ⟨0, 24, 3, true⟩)], by
    unfold SortedMap.Ascending
    decide⟩

theorem startPeerSession_eth : eth.startPeerSession none c_protocolVersion old.caps = .ok shared := by
  rfl

theorem negotiation_eth :
    old.startPeerSession none c_protocolVersion eth.caps = .ok shared ∧
    shared.doRead 0 (Capability.prep ⟨0, 24, 3, true⟩ 2) = .capability ⟨"shh", 2⟩ 2 := by
  obtain ⟨hsame, hgets, -⟩ := negotiation agree_eth_old
  constructor
  · rw [← hsame]
    exact startPeerSession_eth
  · exact (hgets shared startPeerSession_eth).2 (by decide) ⟨"shh", 2⟩ ⟨0, 24, 3, true⟩ 2
      (by decide) (by decide) (by decide)

/-- One more message than there are packet types. -/
def wide : Host := empty.registerCapability ⟨"wide", 1⟩ 113

/-- Two capabilities of as many messages as an `unsigned` counts. -/
def huge : Host := (empty.registerCapability ⟨"a", 1⟩ (2 ^ 32 - 1)).registerCapability ⟨"b", 1⟩ (2 ^ 32 - 1)

/-- The last message of a capability of 113 messages has no packet type that may be sent, and the ids of two
huge capabilities overlap. -/
theorem negotiation_overflows :
    (∃ s p, wide.startPeerSession none c_protocolVersion wide.caps = .ok s ∧
      (⟨"wide", 1⟩, p) ∈ s.m_capabilities ∧ 112 < p.messageCount ∧
      s.doRead p.c_protocolID (p.prep 112) = .disconnect .BadProtocol) ∧
    ∃ s, huge.startPeerSession none c_protocolVersion huge.caps = .ok s ∧ ¬Separate s := by
  constructor
  · refine ⟨⟨4, [(⟨"wide", 1⟩, ⟨0, 16, 113, true⟩)], ?_⟩, ⟨0, 16, 113, true⟩, rfl, ?_, ?_, ?_⟩
    · unfold SortedMap.Ascending
      decide
    · exact List.mem_singleton.2 rfl
    · decide
    · decide
  · refine ⟨⟨4, [(⟨"a", 1⟩, ⟨0, 16, 2 ^ 32 - 1, true⟩), (⟨"b", 1⟩, ⟨0, 15, 2 ^ 32 - 1, true⟩)], ?_⟩, rfl, ?_⟩
    · unfold SortedMap.Ascending
      decide
    · intro hsep
      have hboth := hsep (⟨"a", 1⟩, ⟨0, 16, 2 ^ 32 - 1, true⟩) (by decide)
        (⟨"b", 1⟩, ⟨0, 15, 2 ^ 32 - 1, true⟩) (by decide) (by decide)
      rw [if_neg (by decide)] at hboth
      exact hboth 16 (by decide)

end Host

end P2P

end Petrachor
