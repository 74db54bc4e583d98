import Petrachor.RLPXFrame

/-!
# Frames that a peer sends

A packet is checked, its type is read and its payload is made an RLP object before anything catches what is thrown.
What catches it prints the payload, which throws again if an item somewhere inside is malformed.
-/

namespace Petrachor

/-- What is printed of an RLP object, item by item, down to a depth. -/
def RLP.streamOut : ℕ → RLP → Except Exception Unit
  | 0, _ => .ok ()
  | depth + 1, r =>
    if r.isNull then .ok ()
    else do
      if ← r.isInt then
        let _ ← r.toInt (2 ^ 32 - 1) RLP.LaissezFaire
      else if r.isData then
        let _ ← r.payload
      else
        for x in ← r.toList do
          streamOut depth x

inductive DisconnectReason where
  | DisconnectRequested
  | BadProtocol
  deriving DecidableEq, Repr

/-- How a handler goes wrong: it reads past the frame, or lets an exception out. -/
inductive Fault where
  | OutOfFrame
  | Escaped (e : NetException)
  deriving DecidableEq, Repr

/-- How it ends: the session is dropped, or so many packets were read and the next frame is read if they did not drop
it. -/
inductive Handled where
  | dropped (reason : DisconnectReason)
  | read (packets : ℕ) (dropped : Option DisconnectReason)
  deriving DecidableEq, Repr

/-- The session is dropped with `BadProtocol`, or a packet came to be read. -/
def Handled.Answered (h : Handled) : Prop := h = .dropped .BadProtocol ∨ ∃ n d, h = .read (n + 1) d

/-- What a session is given: how much is printed, and what the capability of a packet makes of it. -/
structure Peering where
  g_logVerbosity : ℤ
  interpretCapability : ℕ → ℕ → RLP → Except Exception Unit

namespace Session

def UserPacket : ℕ := 0x10
def NetWarn : ℤ := 0
def NetRight : ℤ := 14

/-- An exception that nothing catches. -/
def escape {α : Type} : Except Exception α → Except Fault α
  | .ok a => .ok a
  | .error e => .error (.Escaped (.rlp e))

def checkPacket : Bytes → Except Fault Bool
  | [] => .error .OutOfFrame
  | b :: msg =>
    if 0x7f < b || msg = [] then .ok false
    else do
      let r ← escape (RLP.ofBytes msg RLP.VeryStrict)
      return (← escape r.actualSize) + 1 = msg.length + 1

/-- The packets of the session itself, by what they drop it for. -/
def interpret (t : ℕ) (r : RLP) : Except Exception (Option DisconnectReason) := do
  if t = 1 then
    let reason ← r.get 0
    let _ ← reason.toInt 4 RLP.Strict
    return some (if ← reason.isInt then .DisconnectRequested else .BadProtocol)
  else return none

/-- What interpreting a packet throws or drops the session for. -/
def interpretPacket (c : Peering) (capId t : ℕ) (r : RLP) : Except Exception (Option DisconnectReason) :=
  if capId = 0 && t < UserPacket then interpret t r
  else do
    c.interpretCapability capId t r
    return none

def readPacket (c : Peering) (capId t : ℕ) (r : RLP) : Except Exception (Option DisconnectReason) := do
  if NetRight ≤ c.g_logVerbosity then r.streamOut 65
  match interpretPacket c capId t r with
  | .ok reason => return reason
  | .error _ =>
    if NetWarn ≤ c.g_logVerbosity then r.streamOut 65
    return some .BadProtocol

/-- The handler of a frame that is one packet. -/
def readFrame (c : Peering) (protocolId : ℕ) (frame : Bytes) : Except Fault Handled := do
  if !(← checkPacket frame) then return .dropped .BadProtocol
  else
    let packetType ← escape (do (← RLP.ofBytes (frame.take 1) RLP.VeryStrict).toInt 4 RLP.Strict)
    let r ← escape (RLP.ofBytes (frame.drop 1) RLP.VeryStrict)
    return .read 1 (← escape (readPacket c protocolId packetType r))

/-- `doRead`: a header and the bytes that follow it, each decrypted, or nothing if its MAC is wrong. -/
def doRead (c : Peering) (header data : Option Bytes) : Except Fault Handled :=
  match header.map RLPXFrameInfo.ofHeader, data with
  | some (.ok info), some data => readFrame c info.protocolId (data.take info.length)
  | _, _ => .ok (.dropped .BadProtocol)

/-- The type of a packet that was put together from frames. -/
def packetType (p : RLPXPacket) : Except Exception ℕ := do
  return (← (← RLP.ofBytes p.m_type RLP.VeryStrict).toInt 4 RLP.AllowNonCanon) % 2 ^ 32

/-- The packets that a frame completes, one after the other. -/
def readPackets (c : Peering) (protocolId : ℕ) : List RLPXPacket → Except Exception (Option DisconnectReason)
  | [] => .ok none
  | p :: ps => do
    let t ← packetType p
    let dropped ← readPacket c protocolId t (← RLP.ofBytes p.m_data RLP.VeryStrict)
    return dropped.or (← readPackets c protocolId ps)

/-- `doReadFrames`, with the readers of the protocols that there are. -/
def doReadFrames (c : Peering) (framing : ℕ → Option RLPXFrameReader) (header data : Option Bytes) :
    Except Fault (Handled × (ℕ → Option RLPXFrameReader)) :=
  match header.map RLPXFrameInfo.ofHeader with
  | some (.ok info) =>
    match framing info.protocolId with
    | none => .ok (.dropped .BadProtocol, framing)
    | some reader =>
      match reader.demux info data with
      | .error e => .error (.Escaped e)
      | .ok (px, reader) => do
        let dropped ← escape (readPackets c info.protocolId px)
        return (.read px.length dropped, Function.update framing info.protocolId (some reader))
  | _ => .ok (.dropped .BadProtocol, framing)

/-! ## What is thrown -/

/-- What is printed of a packet can be printed: all of them if that much is printed, those that cannot be interpreted
if warnings are. -/
def Printable (c : Peering) (capId t : ℕ) (r : RLP) : Prop :=
  (NetRight ≤ c.g_logVerbosity → r.streamOut 65 = .ok ()) ∧
    (NetWarn ≤ c.g_logVerbosity → (∃ e, interpretPacket c capId t r = .error e) → r.streamOut 65 = .ok ())

/-- A frame that is one packet is handled: it is not empty, and if it passes for a packet its type is not zero, its
payload is one RLP item, and what is printed of that can be printed. -/
def FrameReadable (c : Peering) (protocolId : ℕ) : Bytes → Prop
  | [] => False
  | b :: msg => 0x7f < b ∨ msg = [] ∨
    b ≠ 0 ∧ ∃ r, RLP.ofBytes msg RLP.VeryStrict = .ok r ∧ Printable c protocolId b.toNat r

/-- A packet that was put together is handled: its type can be read, and what is printed of it can be printed. -/
def PacketReadable (c : Peering) (protocolId : ℕ) (p : RLPXPacket) : Prop :=
  ∃ t r, packetType p = .ok t ∧ RLP.ofBytes p.m_data RLP.VeryStrict = .ok r ∧ Printable c protocolId t r

section

variable {c : Peering} {capId protocolId t fuel : ℕ} {r : RLP} {b : UInt8} {msg frame buffer : Bytes}
  {info : RLPXFrameInfo} {reader : RLPXFrameReader} {p : RLPXPacket} {px ret : List RLPXPacket} {P : RLPXPacket → Prop}

theorem readPacket_iff : (∃ d, readPacket c capId t r = .ok d) ↔ Printable c capId t r := by
  have hunit : ∀ x : Except Exception Unit, (∃ e, x = .error e) ∨ x = .ok () := by
    intro x
    cases x with
    | error e => exact .inl ⟨e, rfl⟩
    | ok u => exact .inr rfl
  unfold readPacket Printable
  by_cases hright : NetRight ≤ c.g_logVerbosity
  · have hwarn : NetWarn ≤ c.g_logVerbosity := le_trans (by decide) hright
    rw [if_pos hright]
    rcases hunit (r.streamOut 65) with ⟨e, he⟩ | hok
    · rw [he, error_bind]
      refine iff_of_false ?_ ?_
      · rintro ⟨d, hd⟩
        cases hd
      · rintro ⟨h, -⟩
        cases h hright
    · rw [hok, ok_bind, if_pos hwarn]
      refine iff_of_true ?_ ⟨fun _ => rfl, fun _ _ => rfl⟩
      cases interpretPacket c capId t r with
      | ok d => exact ⟨d, rfl⟩
      | error e => exact ⟨_, rfl⟩
  · rw [if_neg hright]
    cases hint : interpretPacket c capId t r with
    | ok d =>
      refine iff_of_true ⟨d, rfl⟩ ⟨fun h => absurd h hright, ?_⟩
      rintro - ⟨e, he⟩
      cases he
    | error e =>
      by_cases hwarn : NetWarn ≤ c.g_logVerbosity
      · rcases hunit (r.streamOut 65) with ⟨e', he⟩ | hok
        · refine iff_of_false ?_ ?_
          · rintro ⟨d, hd⟩
            simp only [if_pos hwarn, he] at hd
            cases hd
          · rintro ⟨-, h⟩
            rw [he] at h
            cases h hwarn ⟨e, rfl⟩
        · refine iff_of_true ⟨some .BadProtocol, ?_⟩ ⟨fun h => absurd h hright, fun _ _ => hok⟩
          simp only [if_pos hwarn, hok]
          rfl
      · refine iff_of_true ⟨some .BadProtocol, ?_⟩ ⟨fun h => absurd h hright, fun h => absurd h hwarn⟩
        simp only [if_neg hwarn]
        rfl

/-- The type of a packet is read from its first byte; zero is no integer there. -/
theorem packetType_byte (hb : ¬0x7f < b) :
    (do (← RLP.ofBytes [b] RLP.VeryStrict).toInt 4 RLP.Strict) = if b = 0 then .error .BadCast else .ok b.toNat := by
  have hlt : b.toNat < 0x80 := by
    have hle := UInt8.le_iff_toNat_le.1 (UInt8.not_lt.1 hb)
    have h7f : (0x7f : UInt8).toNat = 0x7f := rfl
    omega
  rw [(isItem_single hlt).ofBytes, ok_bind]
  by_cases h0 : b = 0
  · subst h0
    rw [if_pos rfl]
    rfl
  · have hne : b.toNat ≠ 0 := fun h => h0 (UInt8.toNat_inj.1 h)
    have hencode : RLPStream.encodeInt b.toNat = [b] := by
      unfold RLPStream.encodeInt
      rw [if_neg hne, if_pos (show b.toNat < c_rlpDataImmLenStart from hlt), UInt8.ofNat_toNat]
    rw [if_neg h0, ← hencode]
    exact toInt_encodeInt (lt_trans hlt (by decide)) (by decide) _

theorem escape_eq_ok {α : Type} {x : Except Exception α} {a : α} : escape x = .ok a ↔ x = .ok a := by
  cases x with
  | error e => exact iff_of_false (fun h => by cases h) (fun h => by cases h)
  | ok b =>
    show Except.ok b = Except.ok a ↔ _
    rw [Except.ok.injEq, Except.ok.injEq]

theorem bind_ok_iff {α β : Type} {x : Except Fault α} {f : α → Except Fault β} :
    (∃ d, (x >>= f) = .ok d) ↔ ∃ a, x = .ok a ∧ ∃ d, f a = .ok d := by
  cases x with
  | error e =>
    refine iff_of_false ?_ ?_
    · rintro ⟨d, hd⟩
      cases hd
    · rintro ⟨a, ha, -⟩
      cases ha
  | ok a =>
    constructor
    · exact fun h => ⟨a, rfl, h⟩
    · rintro ⟨a', ha, h⟩
      cases ha
      exact h

/-- What passes for a packet has a payload that is one RLP item. -/
theorem checkPacket_cons (h : ¬(0x7f < b ∨ msg = [])) {ok : Bool} :
    checkPacket (b :: msg) = .ok ok ↔ ok = true ∧ RLP.ofBytes msg RLP.VeryStrict = .ok ⟨msg⟩ := by
  have hif : ¬((decide (0x7f < b) || decide (msg = [])) = true) := by
    rw [Bool.or_eq_true, decide_eq_true_eq, decide_eq_true_eq]
    exact h
  unfold checkPacket
  dsimp only
  rw [if_neg hif]
  cases hr : RLP.ofBytes msg RLP.VeryStrict with
  | error e =>
    refine iff_of_false (fun h => ?_) (fun h => ?_)
    · cases h
    · cases h.2
  | ok r =>
    obtain ⟨rfl, hsize⟩ := ofBytes_veryStrict.1 hr
    show (do return decide ((← escape (RLP.mk msg).actualSize) + 1 = msg.length + 1)) = Except.ok ok ↔ _
    rw [hsize]
    show Except.ok (decide (msg.length + 1 = msg.length + 1)) = Except.ok ok ↔ _
    rw [decide_eq_true rfl, Except.ok.injEq]
    exact ⟨fun h => ⟨h.symm, rfl⟩, fun h => h.1.symm⟩

/-- The handler of a frame that is one packet. -/
theorem readFrame_iff : (∃ h, readFrame c protocolId frame = .ok h) ↔ FrameReadable c protocolId frame := by
  cases frame with
  | nil => exact iff_of_false (fun ⟨h, hh⟩ => by cases hh) not_false
  | cons b msg =>
    unfold FrameReadable
    dsimp only
    by_cases hno : 0x7f < b ∨ msg = []
    · refine iff_of_true ⟨.dropped .BadProtocol, ?_⟩ (or_assoc.1 (.inl hno))
      have hif : (decide (0x7f < b) || decide (msg = [])) = true := by
        rw [Bool.or_eq_true, decide_eq_true_eq, decide_eq_true_eq]
        exact hno
      unfold readFrame checkPacket
      dsimp only
      rw [if_pos hif]
      rfl
    · rw [← or_assoc, or_iff_right hno]
      unfold readFrame
      rw [bind_ok_iff]
      constructor
      · rintro ⟨ok, hok, d, hd⟩
        obtain ⟨rfl, hmsg⟩ := (checkPacket_cons hno).1 hok
        rw [if_neg (by decide)] at hd
        obtain ⟨t, ht, d, hd⟩ := bind_ok_iff.1 ⟨d, hd⟩
        obtain ⟨r, hr, d, hd⟩ := bind_ok_iff.1 ⟨d, hd⟩
        obtain ⟨x, hx, -⟩ := bind_ok_iff.1 ⟨d, hd⟩
        rw [escape_eq_ok] at ht hr hx
        have htype := packetType_byte (not_or.1 hno).1
        rw [show (b :: msg).take 1 = [b] from rfl, htype] at ht
        split_ifs at ht with h0
        cases ht
        exact ⟨h0, r, hr, readPacket_iff.1 ⟨x, hx⟩⟩
      · rintro ⟨h0, r, hr, hprint⟩
        obtain ⟨rfl, -⟩ := ofBytes_veryStrict.1 hr
        refine ⟨true, (checkPacket_cons hno).2 ⟨rfl, hr⟩, ?_⟩
        obtain ⟨x, hx⟩ := readPacket_iff.2 hprint
        have htype := packetType_byte (not_or.1 hno).1
        rw [if_neg h0] at htype
        rw [if_neg (by decide)]
        refine bind_ok_iff.2 ⟨b.toNat, escape_eq_ok.2 htype, ?_⟩
        refine bind_ok_iff.2 ⟨_, escape_eq_ok.2 hr, ?_⟩
        exact bind_ok_iff.2 ⟨x, escape_eq_ok.2 hx, _, rfl⟩

/-- Where it returns, the packet was refused or read. -/
theorem answered_of_readFrame {h : Handled} (hh : readFrame c protocolId frame = .ok h) : h.Answered := by
  unfold readFrame at hh
  rw [bind_eq_ok] at hh
  obtain ⟨ok, -, hh⟩ := hh
  split at hh
  · cases hh
    exact .inl rfl
  · rw [bind_eq_ok] at hh
    obtain ⟨t, -, hh⟩ := hh
    rw [bind_eq_ok] at hh
    obtain ⟨r, -, hh⟩ := hh
    rw [bind_eq_ok] at hh
    obtain ⟨d, -, hh⟩ := hh
    cases hh
    exact .inr ⟨0, d, rfl⟩

/-! ## Frames of several packets -/

/-- Every packet of a frame is complete and as asked, or one of several frames with bytes missing. -/
inductive Unpacks (P : RLPXPacket → Prop) (protocolType : ℕ) (info : RLPXFrameInfo) : Bytes → Prop
  | stop {b : Bytes} (h : b = [] ∨ nextRLP b = []) : Unpacks P protocolType info b
  | packet {b : Bytes} (ne : ¬(b = [] ∨ nextRLP b = []))
    (valid : (RLPXFrameReader.packetOf protocolType info b).1.isValid = true)
    (ok : P (RLPXFrameReader.packetOf protocolType info b).1)
    (rest : Unpacks P protocolType info (RLPXFrameReader.packetOf protocolType info b).2) :
    Unpacks P protocolType info b
  | part {b : Bytes} (ne : ¬(b = [] ∨ nextRLP b = []))
    (invalid : (RLPXFrameReader.packetOf protocolType info b).1.isValid = false) (multi : info.multiFrame = true)
    (missing : RLPXFrameReader.remainingOf info b (RLPXFrameReader.packetOf protocolType info b).2 ≠ 0)
    (rest : Unpacks P protocolType info (RLPXFrameReader.packetOf protocolType info b).2) :
    Unpacks P protocolType info b

/-- A frame is taken: if it is the last of a packet that packet is valid and as asked, and if it begins packets they
are. -/
def Takes (P : RLPXPacket → Prop) (reader : RLPXFrameReader) (info : RLPXFrameInfo) (buffer : Bytes) : Prop :=
  info.multiFrame = true ∧ info.totalLength ≠ 0 ∧ info.totalLength < buffer.length ∨
  match (if info.multiFrame then reader.m_incomplete.lookup info.sequenceId else none) with
  | none => Unpacks P reader.m_protocolType info buffer
  | some (p, remaining) =>
    if info.totalLength = 0 ∧ 0 < buffer.length ∧ buffer.length ≤ remaining then
      remaining = buffer.length → (p.append buffer).isValid = true ∧ P (p.append buffer)
    else Unpacks P reader.m_protocolType info buffer

theorem packetOf_length_lt (protocolType : ℕ) (info : RLPXFrameInfo) (hne : ¬(buffer = [] ∨ nextRLP buffer = [])) :
    (RLPXFrameReader.packetOf protocolType info buffer).2.length < buffer.length := by
  rw [not_or] at hne
  have hpos := List.length_pos_iff.2 hne.1
  have htype := List.length_pos_iff.2 hne.2
  unfold RLPXFrameReader.packetOf
  dsimp only
  rw [List.length_drop, List.length_drop]
  omega

theorem unpack_iff : ∀ {fuel : ℕ} {buffer : Bytes} {ret : List RLPXPacket} {reader : RLPXFrameReader},
    buffer.length ≤ fuel →
    ((∃ px reader', RLPXFrameReader.unpack info fuel buffer ret reader = .ok (px, reader') ∧ ∀ p ∈ px, P p) ↔
      (∀ p ∈ ret, P p) ∧ Unpacks P reader.m_protocolType info buffer) := by
  intro fuel
  induction fuel with
  | zero =>
    intro buffer ret reader hfuel
    obtain rfl := List.length_eq_zero_iff.1 (Nat.le_zero.1 hfuel)
    rw [RLPXFrameReader.unpack]
    constructor
    · rintro ⟨px, reader', heq, hP⟩
      cases heq
      exact ⟨hP, .stop (.inl rfl)⟩
    · rintro ⟨hP, -⟩
      exact ⟨_, _, rfl, hP⟩
  | succ fuel ih =>
    intro buffer ret reader hfuel
    rw [RLPXFrameReader.unpack]
    by_cases hstop : buffer = [] ∨ nextRLP buffer = []
    · rw [if_pos hstop]
      constructor
      · rintro ⟨px, reader', heq, hP⟩
        cases heq
        exact ⟨hP, .stop hstop⟩
      · rintro ⟨hP, -⟩
        exact ⟨_, _, rfl, hP⟩
    · rw [if_neg hstop]
      have hlt := packetOf_length_lt reader.m_protocolType info hstop
      generalize hp : RLPXFrameReader.packetOf reader.m_protocolType info buffer = p at hlt
      have hrest : p.2.length ≤ fuel := by omega
      obtain ⟨p, rest⟩ := p
      dsimp only at hrest ⊢
      by_cases hvalid : p.isValid = true
      · rw [if_pos hvalid, ih hrest]
        constructor
        · rintro ⟨hP, hunpacks⟩
          refine ⟨fun q hq => hP q (List.mem_append_left _ hq), .packet hstop ?_ ?_ ?_⟩
          · rwa [hp]
          · rw [hp]
            exact hP p (List.mem_append_right _ (List.mem_singleton_self p))
          · rwa [hp]
        · rintro ⟨hP, hunpacks⟩
          cases hunpacks with
          | stop h => exact absurd h hstop
          | packet ne valid ok rest =>
            rw [hp] at ok rest
            refine ⟨fun q hq => ?_, rest⟩
            rcases List.mem_append.1 hq with hq | hq
            · exact hP q hq
            · rwa [List.mem_singleton.1 hq]
          | part ne invalid multi missing rest =>
            rw [hp, hvalid] at invalid
            cases invalid
      · rw [if_neg hvalid]
        by_cases hpart : (info.multiFrame && decide (RLPXFrameReader.remainingOf info buffer rest ≠ 0)) = true
        · rw [if_pos hpart, ih hrest]
          rw [Bool.and_eq_true, decide_eq_true_eq] at hpart
          refine and_congr_right fun hP => ?_
          constructor
          · intro hunpacks
            refine .part hstop ?_ hpart.1 ?_ ?_
            · rw [hp]
              exact eq_false_of_ne_true hvalid
            · rw [hp]
              exact hpart.2
            · rwa [hp]
          · intro hunpacks
            cases hunpacks with
            | stop h => exact absurd h hstop
            | packet ne valid ok rest =>
              rw [hp] at valid
              exact absurd valid hvalid
            | part ne invalid multi missing rest =>
              rwa [hp] at rest
        · rw [if_neg hpart]
          refine iff_of_false ?_ ?_
          · rintro ⟨px, reader', heq, -⟩
            cases heq
          · rintro ⟨-, hunpacks⟩
            rw [Bool.and_eq_true, decide_eq_true_eq] at hpart
            cases hunpacks with
            | stop h => exact absurd h hstop
            | packet ne valid ok rest =>
              rw [hp] at valid
              exact absurd valid hvalid
            | part ne invalid multi missing rest =>
              rw [hp] at missing
              exact absurd ⟨multi, missing⟩ hpart

theorem demux_iff {data : Bytes} (hdata : data ≠ []) :
    (∃ px reader', reader.demux info (some data) = .ok (px, reader') ∧ ∀ p ∈ px, P p) ↔
      Takes P reader info (data.take (data.length - (16 + info.padding))) := by
  have hnil : ∀ p ∈ ([] : List RLPXPacket), P p := fun p hp => absurd hp List.not_mem_nil
  unfold RLPXFrameReader.demux Takes
  dsimp only
  rw [if_neg hdata]
  generalize data.take (data.length - (16 + info.padding)) = buffer
  by_cases hlarge : info.multiFrame = true ∧ info.totalLength ≠ 0 ∧ info.totalLength < buffer.length
  · have hif : (info.multiFrame && decide (info.totalLength ≠ 0) && decide (info.totalLength < buffer.length)) =
        true := by
      rw [Bool.and_eq_true, Bool.and_eq_true, decide_eq_true_eq, decide_eq_true_eq]
      exact and_assoc.2 hlarge
    rw [if_pos hif]
    exact iff_of_true ⟨[], reader, rfl, hnil⟩ (.inl hlarge)
  · have hif : ¬((info.multiFrame && decide (info.totalLength ≠ 0) && decide (info.totalLength < buffer.length)) =
        true) := by
      rw [Bool.and_eq_true, Bool.and_eq_true, decide_eq_true_eq, decide_eq_true_eq, and_assoc]
      exact hlarge
    rw [if_neg hif, or_iff_right hlarge]
    cases hlookup : (if info.multiFrame = true then reader.m_incomplete.lookup info.sequenceId else none) with
    | none =>
      dsimp only
      rw [unpack_iff le_rfl, and_iff_right hnil]
    | some x =>
      obtain ⟨p, remaining⟩ := x
      dsimp only
      by_cases hgoes : info.totalLength = 0 ∧ 0 < buffer.length ∧ buffer.length ≤ remaining
      · rw [if_pos hgoes, if_pos hgoes]
        by_cases hlast : remaining = buffer.length
        · rw [if_neg (by omega)]
          by_cases hvalid : (p.append buffer).isValid = true
          · rw [if_pos hvalid]
            constructor
            · rintro ⟨px, reader', heq, hP⟩ -
              cases heq
              exact ⟨hvalid, hP _ (List.mem_singleton_self _)⟩
            · intro h
              refine ⟨_, _, rfl, fun q hq => ?_⟩
              rw [List.mem_singleton.1 hq]
              exact (h hlast).2
          · rw [if_neg hvalid]
            refine iff_of_false ?_ ?_
            · rintro ⟨px, reader', heq, -⟩
              cases heq
            · exact fun h => hvalid (h hlast).1
        · rw [if_pos (by omega)]
          exact iff_of_true ⟨_, _, rfl, hnil⟩ fun h => absurd h hlast
      · rw [if_neg hgoes, if_neg hgoes, unpack_iff le_rfl, and_iff_right hnil]
        rfl

/-! ### What becomes of a frame -/

/-- The frame is too large for its packet. -/
def TooLarge (info : RLPXFrameInfo) (buffer : Bytes) : Prop :=
  info.multiFrame = true ∧ info.totalLength ≠ 0 ∧ info.totalLength < buffer.length

/-- The frame is one of several, and the reader has a packet with bytes missing that ends in it. -/
def Kept (reader : RLPXFrameReader) (info : RLPXFrameInfo) (buffer : Bytes) : Prop :=
  info.multiFrame = true ∧ ¬TooLarge info buffer ∧ buffer ≠ [] ∧ ∃ p remaining,
    reader.m_incomplete.lookup info.sequenceId = some (p, remaining) ∧ remaining ≠ 0 ∧ buffer <:+ p.m_type ++ p.m_data

/-- The frame is not too large, and it begins with the type of a packet or goes on with one. -/
def TakenUp (reader : RLPXFrameReader) (info : RLPXFrameInfo) (buffer : Bytes) : Prop :=
  ¬TooLarge info buffer ∧ (¬(buffer = [] ∨ nextRLP buffer = []) ∨ ∃ p remaining,
    (if info.multiFrame then reader.m_incomplete.lookup info.sequenceId else none) = some (p, remaining) ∧
      info.totalLength = 0 ∧ 0 < buffer.length ∧ buffer.length ≤ remaining)

theorem nextRLP_prefix (b : Bytes) : nextRLP b <+: b := by
  unfold nextRLP
  split
  · unfold cropped
    split
    · rw [List.drop_zero]
      exact List.take_prefix _ _
    · exact List.nil_prefix
  · exact List.nil_prefix

theorem nextRLP_append_drop (b : Bytes) : nextRLP b ++ b.drop (nextRLP b).length = b := by
  obtain ⟨rest, hrest⟩ := nextRLP_prefix b
  have hdrop : b.drop (nextRLP b).length = rest := by
    rw [← congrArg (List.drop (nextRLP b).length) hrest]
    exact List.drop_left
  rw [hdrop, hrest]

/-- The packet of a frame that is one of several is all of the frame. -/
theorem packetOf_multiFrame (protocolType : ℕ) (hmulti : info.multiFrame = true) (buffer : Bytes) :
    (RLPXFrameReader.packetOf protocolType info buffer).1.m_type ++
        (RLPXFrameReader.packetOf protocolType info buffer).1.m_data = buffer ∧
      (RLPXFrameReader.packetOf protocolType info buffer).2 = [] := by
  unfold RLPXFrameReader.packetOf
  dsimp only
  rw [if_pos hmulti]
  constructor
  · show nextRLP (nextRLP buffer) ++ ((nextRLP buffer).drop (nextRLP (nextRLP buffer)).length ++
      buffer.drop (nextRLP buffer).length) = buffer
    rw [← List.append_assoc, nextRLP_append_drop, nextRLP_append_drop]
  · exact List.drop_length

theorem buffered_of_unpack : ∀ {fuel : ℕ} {buffer : Bytes} {ret : List RLPXPacket} {reader reader' : RLPXFrameReader},
    RLPXFrameReader.unpack info fuel buffer ret reader = .ok (px, reader') → ret <+: px
  | 0, _, _, _, _, h => by
    cases h
    exact List.prefix_rfl
  | fuel + 1, buffer, ret, reader, reader', h => by
    rw [RLPXFrameReader.unpack] at h
    dsimp only at h
    split_ifs at h
    · cases h
      exact List.prefix_rfl
    · exact (List.prefix_append _ _).trans (buffered_of_unpack h)
    · exact buffered_of_unpack h

/-- What begins with the type of a packet gives that packet, or is kept. -/
theorem unpack_takenUp {reader' : RLPXFrameReader} (hbegins : ¬(buffer = [] ∨ nextRLP buffer = []))
    (hlarge : ¬TooLarge info buffer)
    (h : RLPXFrameReader.unpack info buffer.length buffer [] reader = .ok (px, reader')) :
    px ≠ [] ∨ Kept reader' info buffer := by
  obtain ⟨fuel, hfuel⟩ := Nat.exists_eq_succ_of_ne_zero (mt List.length_eq_zero_iff.1 (not_or.1 hbegins).1)
  rw [hfuel, RLPXFrameReader.unpack, if_neg hbegins] at h
  dsimp only at h
  split_ifs at h with hvalid hpart
  · obtain ⟨rest, hrest⟩ := buffered_of_unpack h
    rw [List.nil_append] at hrest
    rw [← hrest]
    exact .inl (List.cons_ne_nil _ _)
  · rw [Bool.and_eq_true, decide_eq_true_eq] at hpart
    obtain ⟨hall, hrest⟩ := packetOf_multiFrame reader.m_protocolType hpart.1 buffer
    rw [hrest] at h hpart
    have hend : reader.insert info.sequenceId (RLPXFrameReader.packetOf reader.m_protocolType info buffer).1
        (RLPXFrameReader.remainingOf info buffer []) = reader' := by
      cases fuel with
      | zero => exact congrArg Prod.snd (Except.ok.inj h)
      | succ fuel =>
        rw [RLPXFrameReader.unpack, if_pos (.inl rfl)] at h
        exact congrArg Prod.snd (Except.ok.inj h)
    refine .inr ⟨hpart.1, hlarge, (not_or.1 hbegins).1, (RLPXFrameReader.packetOf reader.m_protocolType info buffer).1,
      _, ?_, hpart.2, ?_⟩
    · rw [← hend]
      exact List.lookup_cons_self
    · rw [hall]

theorem lookup_erase (sequenceId : ℕ) : (reader.erase sequenceId).m_incomplete.lookup sequenceId = none := by
  rw [List.lookup_eq_none_iff]
  intro x hx
  have hne : x.1 ≠ sequenceId := of_decide_eq_true (List.mem_filter.1 hx).2
  rw [bne_iff_ne]
  exact hne.symm

/-- A frame that is unpacked. -/
theorem takenUp_iff_of_unpack {reader₁ reader' : RLPXFrameReader}
    (hnone : info.multiFrame = true → reader₁.m_incomplete.lookup info.sequenceId = none)
    (hgoes : ¬∃ p remaining, (if info.multiFrame then reader.m_incomplete.lookup info.sequenceId else none) =
      some (p, remaining) ∧ info.totalLength = 0 ∧ 0 < buffer.length ∧ buffer.length ≤ remaining)
    (hlarge : ¬TooLarge info buffer)
    (h : RLPXFrameReader.unpack info buffer.length buffer [] reader₁ = .ok (px, reader')) :
    px ≠ [] ∨ Kept reader' info buffer ↔ TakenUp reader info buffer := by
  by_cases hbegins : buffer = [] ∨ nextRLP buffer = []
  · have hend : px = [] ∧ reader₁ = reader' := by
      cases hlen : buffer.length with
      | zero =>
        rw [hlen] at h
        cases h
        exact ⟨rfl, rfl⟩
      | succ fuel =>
        rw [hlen, RLPXFrameReader.unpack, if_pos hbegins] at h
        cases h
        exact ⟨rfl, rfl⟩
    obtain ⟨rfl, rfl⟩ := hend
    refine iff_of_false ?_ fun htaken => htaken.2.elim (fun hn => hn hbegins) hgoes
    rintro (hne | ⟨hmulti, -, -, p, remaining, hlookup, -⟩)
    · exact hne rfl
    · rw [hnone hmulti] at hlookup
      cases hlookup
  · exact iff_of_true (unpack_takenUp hbegins hlarge h) ⟨hlarge, .inl hbegins⟩

/-- The reader gives a packet or keeps the frame just where it takes it up. -/
theorem demux_takenUp {data : Bytes} {reader' : RLPXFrameReader} (hdata : data ≠ [])
    (h : reader.demux info (some data) = .ok (px, reader')) :
    px ≠ [] ∨ Kept reader' info (data.take (data.length - (16 + info.padding))) ↔
      TakenUp reader info (data.take (data.length - (16 + info.padding))) := by
  unfold RLPXFrameReader.demux at h
  dsimp only at h
  rw [if_neg hdata] at h
  generalize data.take (data.length - (16 + info.padding)) = buffer at h ⊢
  have hif : (info.multiFrame && decide (info.totalLength ≠ 0) && decide (info.totalLength < buffer.length)) = true ↔
      TooLarge info buffer := by
    rw [Bool.and_eq_true, Bool.and_eq_true, decide_eq_true_eq, decide_eq_true_eq, and_assoc]
    rfl
  by_cases hlarge : TooLarge info buffer
  · rw [if_pos (hif.2 hlarge)] at h
    cases h
    refine iff_of_false ?_ fun htaken => htaken.1 hlarge
    rintro (hne | hkept)
    · exact hne rfl
    · exact hkept.2.1 hlarge
  rw [if_neg (mt hif.1 hlarge)] at h
  cases hlookup : (if info.multiFrame = true then reader.m_incomplete.lookup info.sequenceId else none) with
  | none =>
    rw [hlookup] at h
    refine takenUp_iff_of_unpack (fun hmulti => ?_) ?_ hlarge h
    · rwa [if_pos hmulti] at hlookup
    · rintro ⟨p, remaining, heq, -⟩
      rw [hlookup] at heq
      cases heq
  | some x =>
    obtain ⟨p, remaining⟩ := x
    rw [hlookup] at h
    dsimp only at h
    split_ifs at h with hgoes hmore hvalid
    · cases h
      have hmulti : info.multiFrame = true := by
        by_contra hnot
        rw [if_neg hnot] at hlookup
        cases hlookup
      refine iff_of_true (.inr ?_) ⟨hlarge, .inr ⟨p, remaining, hlookup, hgoes⟩⟩
      refine ⟨hmulti, hlarge, List.length_pos_iff.1 hgoes.2.1, p.append buffer, remaining - buffer.length, ?_,
        hmore, ?_⟩
      · exact List.lookup_cons_self
      · show buffer <:+ p.m_type ++ (p.m_data ++ buffer)
        rw [← List.append_assoc]
        exact List.suffix_append _ _
    · cases h
      exact iff_of_true (.inl (List.cons_ne_nil _ _)) ⟨hlarge, .inr ⟨p, remaining, hlookup, hgoes⟩⟩
    · refine takenUp_iff_of_unpack (fun _ => lookup_erase _) ?_ hlarge h
      rintro ⟨p', remaining', heq, hg⟩
      rw [hlookup, Option.some.injEq, Prod.mk.injEq] at heq
      obtain ⟨rfl, rfl⟩ := heq
      exact hgoes hg

theorem readPackets_iff : (∃ d, readPackets c protocolId px = .ok d) ↔ ∀ p ∈ px, PacketReadable c protocolId p := by
  induction px with
  | nil => exact iff_of_true ⟨none, rfl⟩ fun p hp => absurd hp List.not_mem_nil
  | cons p px ih =>
    rw [List.forall_mem_cons, ← ih, readPackets]
    unfold PacketReadable
    constructor
    · rintro ⟨d, hd⟩
      rw [bind_eq_ok] at hd
      obtain ⟨t, ht, hd⟩ := hd
      rw [bind_eq_ok] at hd
      obtain ⟨r, hr, hd⟩ := hd
      rw [bind_eq_ok] at hd
      obtain ⟨x, hx, hd⟩ := hd
      rw [bind_eq_ok] at hd
      obtain ⟨y, hy, -⟩ := hd
      exact ⟨⟨t, r, ht, hr, readPacket_iff.1 ⟨x, hx⟩⟩, y, hy⟩
    · rintro ⟨⟨t, r, ht, hr, hprint⟩, y, hy⟩
      obtain ⟨x, hx⟩ := readPacket_iff.2 hprint
      rw [ht, ok_bind, hr, ok_bind, hx, ok_bind, hy]
      exact ⟨_, rfl⟩

end

/-! ## The handlers -/

/-- The frames that the handler of one packet a frame copes with, where header and frame come decrypted. -/
def ReadSafely (c : Peering) (header data : Option Bytes) : Prop :=
  ∀ h info d, header = some h → RLPXFrameInfo.ofHeader h = .ok info → data = some d →
    FrameReadable c info.protocolId (d.take info.length)

/-- Those that the handler of framed packets copes with: a frame of a protocol that there is has to come decrypted, and
to be taken up. -/
def ReadFramesSafely (c : Peering) (framing : ℕ → Option RLPXFrameReader) (header data : Option Bytes) : Prop :=
  ∀ h info reader, header = some h → RLPXFrameInfo.ofHeader h = .ok info → framing info.protocolId = some reader →
    ∃ d, data = some d ∧ d ≠ [] ∧ TakenUp reader info (d.take (d.length - (16 + info.padding))) ∧
      Takes (PacketReadable c info.protocolId) reader info (d.take (d.length - (16 + info.padding)))

/-- The frame is kept as a part of a packet. -/
def KeepsFrame (framing : ℕ → Option RLPXFrameReader) (header data : Option Bytes) : Prop :=
  ∃ h info reader d, header = some h ∧ RLPXFrameInfo.ofHeader h = .ok info ∧ framing info.protocolId = some reader ∧
    data = some d ∧ Kept reader info (d.take (d.length - (16 + info.padding)))

theorem answered_read {n : ℕ} {d : Option DisconnectReason} : (Handled.read n d).Answered ↔ n ≠ 0 := by
  constructor
  · rintro (h | ⟨k, d', h⟩)
    · cases h
    · cases h
      exact Nat.succ_ne_zero k
  · intro h
    obtain ⟨k, rfl⟩ := Nat.exists_eq_succ_of_ne_zero h
    exact .inr ⟨k, d, rfl⟩

theorem keepsFrame_update {framing : ℕ → Option RLPXFrameReader} {h d : Bytes} {info : RLPXFrameInfo}
    {reader : RLPXFrameReader} (hinfo : RLPXFrameInfo.ofHeader h = .ok info) :
    KeepsFrame (Function.update framing info.protocolId (some reader)) (some h) (some d) ↔
      Kept reader info (d.take (d.length - (16 + info.padding))) := by
  constructor
  · rintro ⟨h', info', reader', d', hh, hi, hr, hd, hkept⟩
    cases hh
    cases hd
    rw [hinfo, Except.ok.injEq] at hi
    subst hi
    rw [Function.update_self, Option.some.injEq] at hr
    rwa [hr]
  · exact fun hkept => ⟨h, info, reader, d, rfl, hinfo, Function.update_self .., rfl, hkept⟩

/-- With a header that is not understood, or of a protocol that there is not, the session is dropped. -/
theorem doReadFrames_dropped {c : Peering} {framing : ℕ → Option RLPXFrameReader} {header data : Option Bytes}
    (h : ∀ h info reader, header = some h → RLPXFrameInfo.ofHeader h = .ok info →
      framing info.protocolId ≠ some reader) :
    doReadFrames c framing header data = .ok (.dropped .BadProtocol, framing) := by
  unfold doReadFrames
  cases header with
  | none => rfl
  | some hd =>
    rw [Option.map_some]
    cases hinfo : RLPXFrameInfo.ofHeader hd with
    | error e => rfl
    | ok info =>
      cases hframing : framing info.protocolId with
      | none =>
        dsimp only
        rw [hframing]
      | some reader => exact absurd hframing (h hd info reader rfl hinfo)

/-- A frame of a protocol that there is. -/
theorem doReadFrames_iff {c : Peering} {framing : ℕ → Option RLPXFrameReader} {h : Bytes} {info : RLPXFrameInfo}
    {reader : RLPXFrameReader} {data : Option Bytes} (hinfo : RLPXFrameInfo.ofHeader h = .ok info)
    (hframing : framing info.protocolId = some reader) :
    (∃ r framing', doReadFrames c framing (some h) data = .ok (r, framing') ∧
      (r.Answered ∨ KeepsFrame framing' (some h) data)) ↔
    ∃ d, data = some d ∧ d ≠ [] ∧ TakenUp reader info (d.take (d.length - (16 + info.padding))) ∧
      Takes (PacketReadable c info.protocolId) reader info (d.take (d.length - (16 + info.padding))) := by
  unfold doReadFrames
  rw [Option.map_some, hinfo]
  dsimp only
  rw [hframing]
  dsimp only
  constructor
  · rintro ⟨r, framing', hr, hanswer⟩
    cases hdemux : reader.demux info data with
    | error e =>
      rw [hdemux] at hr
      cases hr
    | ok y =>
      obtain ⟨px, reader'⟩ := y
      rw [hdemux] at hr
      dsimp only at hr
      rw [bind_eq_ok] at hr
      obtain ⟨dropped, hread, hr⟩ := hr
      cases hr
      cases data with
      | none => cases hdemux
      | some d =>
        rw [answered_read, keepsFrame_update hinfo, Ne, List.length_eq_zero_iff] at hanswer
        by_cases hd : d = []
        · subst hd
          cases hdemux
          rcases hanswer with hne | hkept
          · exact absurd rfl hne
          · exact absurd List.take_nil hkept.2.2.1
        · have hall := readPackets_iff.1 ⟨dropped, escape_eq_ok.1 hread⟩
          exact ⟨d, rfl, hd, (demux_takenUp hd hdemux).1 hanswer, (demux_iff hd).1 ⟨px, reader', hdemux, hall⟩⟩
  · rintro ⟨d, rfl, hd, htaken, htakes⟩
    obtain ⟨px, reader', hdemux, hall⟩ := (demux_iff hd).2 htakes
    obtain ⟨dropped, hread⟩ := readPackets_iff.2 hall
    rw [hdemux]
    refine ⟨.read px.length dropped, Function.update framing info.protocolId (some reader'), ?_, ?_⟩
    · dsimp only
      rw [hread]
      rfl
    · rw [answered_read, keepsFrame_update hinfo, Ne, List.length_eq_zero_iff]
      exact (demux_takenUp hd hdemux).2 htaken

/-- `doRead` answers wherever it returns. -/
theorem doRead_iff {c : Peering} {header data : Option Bytes} :
    (∃ h, doRead c header data = .ok h ∧ h.Answered) ↔ ReadSafely c header data := by
  have hdropped : (∃ h, (.ok (.dropped .BadProtocol) : Except Fault Handled) = .ok h ∧ h.Answered) :=
    ⟨_, rfl, .inl rfl⟩
  unfold doRead ReadSafely
  cases header with
  | none => exact iff_of_true hdropped fun h info d hh => by cases hh
  | some hd =>
    rw [Option.map_some]
    cases hinfo : RLPXFrameInfo.ofHeader hd with
    | error e =>
      refine iff_of_true hdropped ?_
      intro h info d hh hi
      cases hh
      rw [hinfo] at hi
      cases hi
    | ok info =>
      cases data with
      | none => exact iff_of_true hdropped fun h info d _ _ hd => by cases hd
      | some d =>
        dsimp only
        constructor
        · rintro ⟨r, hr, -⟩ h' info' d' hh hi hd
          cases hh
          cases hd
          rw [hinfo, Except.ok.injEq] at hi
          subst hi
          exact readFrame_iff.1 ⟨r, hr⟩
        · intro hall
          obtain ⟨r, hr⟩ := readFrame_iff.2 (hall hd info d rfl hinfo rfl)
          exact ⟨r, hr, answered_of_readFrame hr⟩

/-- Each handler drops the session with `BadProtocol` or comes to read a packet, or keeps the frame as a part of one,
exactly if the frame is one of these; with the others it reads past the frame, lets an exception out, or goes on
with nothing done. -/
theorem handled_iff (c : Peering) (framing : ℕ → Option RLPXFrameReader) (header data : Option Bytes) :
    ((∃ h, doRead c header data = .ok h ∧ h.Answered) ↔ ReadSafely c header data) ∧
      ((∃ h framing', doReadFrames c framing header data = .ok (h, framing') ∧
        (h.Answered ∨ KeepsFrame framing' header data)) ↔ ReadFramesSafely c framing header data) := by
  refine ⟨doRead_iff, ?_⟩
  by_cases hknown : ∃ h info reader, header = some h ∧ RLPXFrameInfo.ofHeader h = .ok info ∧
      framing info.protocolId = some reader
  · obtain ⟨h, info, reader, rfl, hinfo, hframing⟩ := hknown
    rw [doReadFrames_iff hinfo hframing]
    constructor
    · intro hsafe h' info' reader' hh hi hr
      cases hh
      rw [hinfo, Except.ok.injEq] at hi
      subst hi
      rw [hframing, Option.some.injEq] at hr
      rwa [← hr]
    · exact fun hall => hall h info reader rfl hinfo hframing
  · have hnone : ∀ h info reader, header = some h → RLPXFrameInfo.ofHeader h = .ok info →
        framing info.protocolId ≠ some reader := fun h info reader hh hi hr => hknown ⟨h, info, reader, hh, hi, hr⟩
    refine iff_of_true ⟨_, _, doReadFrames_dropped hnone, .inl (.inl rfl)⟩ ?_
    exact fun h info reader hh hi hr => absurd hr (hnone h info reader hh hi)

/-- A session that prints warnings and whose capabilities take everything. -/
def quietPeering : Peering := ⟨5, fun _ _ _ => .ok ()⟩

/-- The header of a frame of so many bytes. -/
def frameHeader (length : UInt8) : Bytes := [0, 0, length, 0xc1, 0x80] ++ List.replicate 27 0

/-- The header of a frame of two bytes, of a packet of one. -/
def tooSmallHeader : Bytes := [0, 0, 2, 0xc3, 0x80, 0x01, 0x01] ++ List.replicate 25 0

/-- The bytes of a frame with padding and a MAC. -/
def frameData (frame : Bytes) : Bytes :=
  frame ++ List.replicate (RLPXFrameInfo.paddingOf frame.length + 16) 0

/-- An empty frame is read past its end; a payload that breaks off, a type of zero and a malformed item within what is
printed throw, and so do a wrong MAC and a packet that breaks off where there are several frames. There a frame without
the type of a packet, or too large for its packet, is passed over. -/
theorem frames_escape :
    doRead quietPeering (some (frameHeader 0)) (some (frameData [])) = .error .OutOfFrame ∧
    doRead quietPeering (some (frameHeader 2)) (some (frameData [0x01, 0x81])) = .error (.Escaped (.rlp .BadRLP)) ∧
    doRead quietPeering (some (frameHeader 2)) (some (frameData [0x00, 0x80])) = .error (.Escaped (.rlp .BadCast)) ∧
    doRead quietPeering (some (frameHeader 3)) (some (frameData [0x01, 0xc1, 0x81])) =
      .error (.Escaped (.rlp .BadRLP)) ∧
    (doReadFrames quietPeering (fun _ => some ⟨0, []⟩) (some (frameHeader 2)) none).map Prod.fst =
      .error (.Escaped .RLPXFrameDecryptFailed) ∧
    (doReadFrames quietPeering (fun _ => some ⟨0, []⟩) (some (frameHeader 3))
      (some (frameData [0x01, 0x82, 0x00]))).map Prod.fst = .error (.Escaped .RLPXInvalidPacket) ∧
    (doReadFrames quietPeering (fun _ => some ⟨0, []⟩) (some (frameHeader 1)) (some (frameData [0xb9]))).map Prod.fst =
      .ok (.read 0 none) ∧
    (doReadFrames quietPeering (fun _ => some ⟨0, []⟩) (some tooSmallHeader) (some (frameData [0x01, 0xc0]))).map
      Prod.fst = .ok (.read 0 none) := by
  refine ⟨?_, ?_, ?_, ?_, rfl, ?_, ?_, ?_⟩ <;> decide

end Session

end Petrachor
