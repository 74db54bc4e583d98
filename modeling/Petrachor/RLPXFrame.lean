import Petrachor.RLPCanon

/-!
# Frames and packets

A frame has a header, which says how many bytes it carries and whether it is one of several of a packet, and those bytes
with padding and a MAC. A packet is an RLP item for its type and one for its data.
-/

namespace Petrachor

/-- What is thrown while frames are read. -/
inductive NetException where
  | rlp (e : Exception)
  | RLPXFrameDecryptFailed
  | RLPXInvalidPacket
  deriving DecidableEq, Repr

/-- The item at the front, as far as it is there; nothing if its prefix is malformed. -/
def nextRLP (b : Bytes) : Bytes :=
  match (do let r ← RLP.ofBytes b RLP.AllowNonCanon; r.actualSize) with
  | .ok n => cropped b 0 (min n b.length)
  | .error _ => []

structure RLPXPacket where
  m_cap : ℕ
  m_type : Bytes
  m_data : Bytes
  deriving DecidableEq, Repr

namespace RLPXPacket

/-- The constructor from a type item and what comes behind it. -/
def ofBytes (capId : ℕ) (b : Bytes) : RLPXPacket := ⟨capId, nextRLP b, b.drop (nextRLP b).length⟩

/-- `RLP(b).actualSize() == b.size()`. -/
def isItem (b : Bytes) : Bool :=
  match (do let r ← RLP.ofBytes b RLP.VeryStrict; r.actualSize) with
  | .ok n => n = b.length
  | .error _ => false

def isValid (p : RLPXPacket) : Bool := !(p.m_type.isEmpty && p.m_data.isEmpty) && isItem p.m_type && isItem p.m_data

/-- The data is appended to; whether the packet is valid then is another question. -/
def append (p : RLPXPacket) (b : Bytes) : RLPXPacket := { p with m_data := p.m_data ++ b }

end RLPXPacket

structure RLPXFrameInfo where
  length : ℕ
  padding : ℕ
  protocolId : ℕ
  multiFrame : Bool
  sequenceId : ℕ
  totalLength : ℕ
  deriving DecidableEq, Repr

namespace RLPXFrameInfo

/-- The padding of so many bytes. -/
def paddingOf (length : ℕ) : ℕ := (16 - length % 16) % 16

/-- What a decrypted header says. -/
def ofHeader (h : Bytes) : Except Exception RLPXFrameInfo := do
  let length := (byteAt h 0 * 256 + byteAt h 1) * 256 + byteAt h 2
  let header ← RLP.ofBytes (h.drop 3) (RLP.ThrowOnFail ||| RLP.FailIfTooSmall)
  let protocolId ← (← header.get 0).toInt 2 RLP.Strict
  let items ← header.itemCount
  let multiFrame : Bool := 1 < items
  let sequenceId ← if multiFrame then do (← header.get 1).toInt 2 RLP.Strict else .ok 0
  let totalLength ← if items = 3 then do (← header.get 2).toInt 4 RLP.Strict else .ok 0
  return ⟨length, paddingOf length, protocolId, multiFrame, sequenceId, totalLength⟩

end RLPXFrameInfo

/-- The packets whose frames have not all come, by their sequence, with the number of bytes still missing. -/
structure RLPXFrameReader where
  m_protocolType : ℕ
  m_incomplete : List (ℕ × RLPXPacket × ℕ)
  deriving DecidableEq, Repr

namespace RLPXFrameReader

def erase (r : RLPXFrameReader) (sequenceId : ℕ) : RLPXFrameReader :=
  { r with m_incomplete := r.m_incomplete.filter (·.1 ≠ sequenceId) }

def insert (r : RLPXFrameReader) (sequenceId : ℕ) (p : RLPXPacket) (remaining : ℕ) : RLPXFrameReader :=
  { r with m_incomplete := (sequenceId, p, remaining) :: r.m_incomplete }

/-- The packet at the front of a frame: the item at the front is its type, and its data is the item behind that or, if
the packet has several frames, all the rest. What is left of the frame comes with it. -/
def packetOf (protocolType : ℕ) (info : RLPXFrameInfo) (buffer : Bytes) : RLPXPacket × Bytes :=
  let type := nextRLP buffer
  let buffer := buffer.drop type.length
  let packet := if info.multiFrame then buffer else nextRLP buffer
  ((RLPXPacket.ofBytes protocolType type).append packet, buffer.drop packet.length)

/-- The bytes of a packet that a frame leaves out, in 32 bits. -/
def remainingOf (info : RLPXFrameInfo) (buffer rest : Bytes) : ℕ :=
  (((info.totalLength : ℤ) - (buffer.length - rest.length)) % 2 ^ 32).toNat

/-- The loop over the packets of a frame. -/
def unpack (info : RLPXFrameInfo) : ℕ → Bytes → List RLPXPacket → RLPXFrameReader →
    Except NetException (List RLPXPacket × RLPXFrameReader)
  | 0, _, ret, r => .ok (ret, r)
  | fuel + 1, buffer, ret, r =>
    if buffer = [] ∨ nextRLP buffer = [] then .ok (ret, r)
    else
      let (p, rest) := packetOf r.m_protocolType info buffer
      if p.isValid then unpack info fuel rest (ret ++ [p]) r
      else if info.multiFrame && remainingOf info buffer rest ≠ 0 then
        unpack info fuel rest ret (r.insert info.sequenceId p (remainingOf info buffer rest))
      else .error .RLPXInvalidPacket

/-- What a frame completes. It comes decrypted, with its padding and its MAC, or not at all if that is wrong. -/
def demux (r : RLPXFrameReader) (info : RLPXFrameInfo) (frame : Option Bytes) :
    Except NetException (List RLPXPacket × RLPXFrameReader) :=
  match frame with
  | none => .error .RLPXFrameDecryptFailed
  | some frame =>
    let buffer := frame.take (frame.length - (16 + info.padding))
    if frame = [] then .ok ([], r)
    else if info.multiFrame && info.totalLength ≠ 0 && info.totalLength < buffer.length then .ok ([], r)
    else
      match (if info.multiFrame then r.m_incomplete.lookup info.sequenceId else none) with
      | none => unpack info buffer.length buffer [] r
      | some (p, remaining) =>
        if info.totalLength = 0 ∧ 0 < buffer.length ∧ buffer.length ≤ remaining then
          let p := p.append buffer
          if remaining - buffer.length ≠ 0 then
            .ok ([], (r.erase info.sequenceId).insert info.sequenceId p (remaining - buffer.length))
          else if p.isValid then .ok ([p], r.erase info.sequenceId)
          else .error .RLPXInvalidPacket
        else unpack info buffer.length buffer [] (r.erase info.sequenceId)

end RLPXFrameReader

end Petrachor
