import Petrachor.Common

/-!
# Recursive linear prefix

`RLP` reads an item out of a byte string without copying it; every accessor that meets an
ill-formed prefix throws. `RLPStream` writes items: `appendList n` opens a list whose prefix is put
in front of its items when the `n`-th of them has been appended.
-/

namespace Petrachor

/-- `vector_ref::cropped(i, n)`: empty as soon as the range leaves the data. -/
def cropped (b : Bytes) (i n : ℕ) : Bytes :=
  if i ≤ b.length ∧ n ≤ b.length ∧ i + n ≤ b.length then (b.drop i).take n else []

/-- Byte `i`, as a number. -/
def byteAt (b : Bytes) (i : ℕ) : ℕ := (b.getD i 0).toNat

def c_rlpMaxLengthBytes : ℕ := 8
def c_rlpDataImmLenStart : ℕ := 0x80
def c_rlpListStart : ℕ := 0xc0
def c_rlpDataImmLenCount : ℕ := c_rlpListStart - c_rlpDataImmLenStart - c_rlpMaxLengthBytes
def c_rlpDataIndLenZero : ℕ := c_rlpDataImmLenStart + c_rlpDataImmLenCount - 1
def c_rlpListImmLenCount : ℕ := 256 - c_rlpListStart - c_rlpMaxLengthBytes
def c_rlpListIndLenZero : ℕ := c_rlpListStart + c_rlpListImmLenCount - 1

/-- An item, with the bytes it was constructed from. -/
structure RLP where
  data : Bytes
  deriving DecidableEq, Repr

namespace RLP

/-- The conversion and construction flags. -/
abbrev Strictness := ℕ

def AllowNonCanon : Strictness := 1
def ThrowOnFail : Strictness := 4
def FailIfTooBig : Strictness := 8
def FailIfTooSmall : Strictness := 16
def Strict : Strictness := ThrowOnFail ||| FailIfTooBig
def VeryStrict : Strictness := ThrowOnFail ||| FailIfTooBig ||| FailIfTooSmall
def LaissezFaire : Strictness := AllowNonCanon

def flag (s f : Strictness) : Bool := s &&& f ≠ 0

/-! ## Reading the prefix -/

def isNull (r : RLP) : Bool := r.data.length = 0

def isEmpty (r : RLP) : Bool :=
  !r.isNull && (byteAt r.data 0 = c_rlpDataImmLenStart || byteAt r.data 0 = c_rlpListStart)

def isData (r : RLP) : Bool := !r.isNull && byteAt r.data 0 < c_rlpListStart

def isList (r : RLP) : Bool := !r.isNull && c_rlpListStart ≤ byteAt r.data 0

def isSingleByte (r : RLP) : Bool := !r.isNull && byteAt r.data 0 < c_rlpDataImmLenStart

/-- Throws on a single byte below `0x80` written in two bytes. -/
def requireGood (r : RLP) : Except Exception Unit :=
  if r.isNull then .error .BadRLP
  else if byteAt r.data 0 ≠ c_rlpDataImmLenStart + 1 then .ok ()
  else if r.data.length < 2 then .error .BadRLP
  else if byteAt r.data 1 < c_rlpDataImmLenStart then .error .BadRLP
  else .ok ()

/-- A length written in `lengthSize` bytes behind the first one: no leading zero, nothing the short
form could hold, and room for the payload offset in a `size_t`. -/
def longLength (b : Bytes) (lengthSize minimum : ℕ) : Except Exception ℕ :=
  if b.length ≤ lengthSize then .error .BadRLP
  else if byteAt b 1 = 0 then .error .BadRLP
  else
    let ret := fromBigEndian ((b.drop 1).take lengthSize)
    if ret < minimum then .error .BadRLP
    else if 2 ^ 64 - 1 - 0x100 ≤ ret then .error .UndersizeRLP
    else .ok ret

/-- The size of the payload, as the prefix gives it. -/
def length (r : RLP) : Except Exception ℕ :=
  if r.isNull then .ok 0
  else do
    r.requireGood
    let n := byteAt r.data 0
    if n < c_rlpDataImmLenStart then .ok 1
    else if n ≤ c_rlpDataIndLenZero then .ok (n - c_rlpDataImmLenStart)
    else if n < c_rlpListStart then
      longLength r.data (n - c_rlpDataIndLenZero)
        (c_rlpListStart - c_rlpDataImmLenStart - c_rlpMaxLengthBytes)
    else if n ≤ c_rlpListIndLenZero then .ok (n - c_rlpListStart)
    else longLength r.data (n - c_rlpListIndLenZero) (0x100 - c_rlpListStart - c_rlpMaxLengthBytes)

/-- `RLP::size`. -/
def size (r : RLP) : Except Exception ℕ := if r.isData then r.length else .ok 0

def lengthSize (r : RLP) : ℕ :=
  if r.isData && c_rlpDataIndLenZero < byteAt r.data 0 then byteAt r.data 0 - c_rlpDataIndLenZero
  else if r.isList && c_rlpListIndLenZero < byteAt r.data 0 then
    byteAt r.data 0 - c_rlpListIndLenZero
  else 0

def payloadOffset (r : RLP) : ℕ := if r.isSingleByte then 0 else 1 + r.lengthSize

def payload (r : RLP) : Except Exception Bytes := do
  let l ← r.length
  if r.data.length < l then .error .BadRLP else .ok (cropped r.data r.payloadOffset l)

def actualSize (r : RLP) : Except Exception ℕ :=
  if r.isNull then .ok 0
  else if r.isSingleByte then .ok 1
  else do return r.payloadOffset + (← r.length)

/-- The constructor `RLP(bytesConstRef, Strictness)`. -/
def ofBytes (d : Bytes) (s : Strictness) : Except Exception RLP := do
  let mut r : RLP := ⟨d⟩
  if flag s FailIfTooBig then
    if (← r.actualSize) < d.length then
      if flag s ThrowOnFail then throw .OversizeRLP else r := ⟨[]⟩
  if flag s FailIfTooSmall then
    if d.length < (← r.actualSize) then
      if flag s ThrowOnFail then throw .UndersizeRLP else r := ⟨[]⟩
  return r

/-- The size of the item at the front of `d`; throws if `d` is too short for it. -/
def sizeAsEncoded (d : Bytes) : Except Exception ℕ := do
  (← ofBytes d (ThrowOnFail ||| FailIfTooSmall)).actualSize

/-! ## Lists -/

/-- The items a payload splits into; every item takes at least a byte, so the payload's length is
fuel enough. -/
def split : ℕ → Bytes → Except Exception (List Bytes)
  | _, [] => .ok []
  | 0, _ :: _ => .error .abort
  | fuel + 1, d => do
    let n ← sizeAsEncoded d
    return d.take n :: (← split fuel (d.drop n))

def itemCount (r : RLP) : Except Exception ℕ :=
  if r.isList then do
    let p ← r.payload
    return (← split p.length p).length
  else .ok 0

/-- The loop of `operator[]`: `steps` items further, from the item `lastItem` that ends at
`lastEnd`. -/
def seek (p : Bytes) : ℕ → ℕ → Bytes → Except Exception Bytes
  | 0, _, lastItem => .ok lastItem
  | steps + 1, lastEnd, lastItem =>
    if lastItem.length = 0 then .ok lastItem
    else do
      let rest := p.drop lastEnd
      let item := rest.take (← sizeAsEncoded rest)
      seek p steps (lastEnd + item.length) item

/-- `operator[]` on a fresh object. -/
def get (r : RLP) (i : ℕ) : Except Exception RLP := do
  let p ← r.payload
  let lastEnd ← sizeAsEncoded p
  ofBytes (← seek p i lastEnd (cropped p 0 lastEnd)) (ThrowOnFail ||| FailIfTooSmall)

/-- The list-indexing cache of an object: the item read last, its index and where it ends. -/
structure Cursor where
  m_lastIndex : ℕ
  m_lastEnd : ℕ
  m_lastItem : Bytes

/-- The cache of a fresh object, with the index `(size_t)-1`. -/
def Cursor.fresh : Cursor := ⟨2 ^ 64 - 1, 0, []⟩

/-- The loop of `operator[]` from the item in the cache. -/
def advance (r : RLP) : ℕ → Cursor → Except Exception Cursor
  | 0, c => .ok c
  | steps + 1, c =>
    if c.m_lastItem.length = 0 then .ok c
    else do
      let rest := (← r.payload).drop c.m_lastEnd
      let item := cropped rest 0 (← sizeAsEncoded rest)
      r.advance steps ⟨c.m_lastIndex + 1, c.m_lastEnd + item.length, item⟩

/-- `operator[]`, with the cache it finds and the one it leaves: an index before the cached one starts
from the first item again. -/
def item (r : RLP) (c : Cursor) (i : ℕ) : Except Exception (RLP × Cursor) := do
  let c ← (if i < c.m_lastIndex then do
      let p ← r.payload
      let lastEnd ← sizeAsEncoded p
      return ⟨0, lastEnd, cropped p 0 lastEnd⟩
    else .ok c)
  let c ← r.advance (i - c.m_lastIndex) c
  return (← ofBytes c.m_lastItem (ThrowOnFail ||| FailIfTooSmall), c)

/-- A number of items read one after the other from one object. -/
def itemsAt (r : RLP) : List ℕ → Cursor → Except Exception (List RLP)
  | [], _ => .ok []
  | i :: is, c => do
    let (x, c) ← r.item c i
    return x :: (← r.itemsAt is c)

/-- The items `begin()` to `end()` run through. -/
def toList (r : RLP) : Except Exception (List RLP) :=
  if r.isList then do
    let p ← r.payload
    (← split p.length p).mapM fun d => ofBytes d VeryStrict
  else .ok []

/-! ## Conversions -/

/-- An integer has no leading zero; zero itself is the empty string. -/
def isInt (r : RLP) : Except Exception Bool :=
  if r.isNull then .ok false
  else do
    r.requireGood
    let n := byteAt r.data 0
    if n < c_rlpDataImmLenStart then .ok (n ≠ 0)
    else if n = c_rlpDataImmLenStart then .ok true
    else if n ≤ c_rlpDataIndLenZero then
      if r.data.length ≤ 1 then .error .BadRLP else .ok (byteAt r.data 1 ≠ 0)
    else if n < c_rlpListStart then
      let i := 1 + n - c_rlpDataIndLenZero
      if r.data.length ≤ i then .error .BadRLP else .ok (byteAt r.data i ≠ 0)
    else .ok false

/-- `toInt<T>` for an integer type of at most `maxSize` bytes, before the value is cut to `T`. -/
def toInt (r : RLP) (maxSize : ℕ) (flags : Strictness) : Except Exception ℕ := do
  r.requireGood
  if (!(← r.isInt) && !flag flags AllowNonCanon) || r.isList || r.isNull then
    if flag flags ThrowOnFail then throw .BadCast else return 0
  let p ← r.payload
  if maxSize < p.length && flag flags FailIfTooBig then
    if flag flags ThrowOnFail then throw .BadCast else return 0
  return fromBigEndian p

def toU256 (r : RLP) (flags : Strictness) : Except Exception U256 := do
  return BitVec.ofNat 256 (← r.toInt 32 flags)

/-- `toHash<FixedHash<n>>`; a shorter string is aligned right. -/
def toHash (r : RLP) (n : ℕ) (flags : Strictness) : Except Exception (BitVec (8 * n)) := do
  r.requireGood
  let p ← r.payload
  if !r.isData || (n < p.length && flag flags FailIfTooBig) ||
      (p.length < n && flag flags FailIfTooSmall) then
    if flag flags ThrowOnFail then throw .BadCast else return 0
  return BitVec.ofNat (8 * n) (fromBigEndian (p.take n))

def toBytes (r : RLP) (flags : Strictness) : Except Exception Bytes :=
  if r.isData then r.payload
  else if flag flags ThrowOnFail then .error .BadCast
  else .ok []

end RLP

/-! ## Writing -/

/-- The bytes written so far, and for each list still open, innermost first, the items it waits
for and where its payload starts. -/
structure RLPStream where
  m_out : Bytes
  m_listStack : List (ℕ × ℕ)
  deriving DecidableEq, Repr

/-- The number of bytes of `n` without leading zeros. -/
def bytesRequired (n : ℕ) : ℕ := if n = 0 then 0 else Nat.log 256 n + 1

namespace RLPStream

def empty : RLPStream := ⟨[], []⟩

/-- The prefix of a payload of `n` bytes: short form from `start`, long form from `base`. -/
def lengthPrefix (n start base : ℕ) : Bytes :=
  if n < c_rlpListImmLenCount then [UInt8.ofNat (start + n)]
  else UInt8.ofNat (base + bytesRequired n) :: toBigEndian (bytesRequired n) n

/-- Closes the lists that `itemCount` appended items complete. -/
def noteAppended (s : RLPStream) : ℕ → Except Exception RLPStream
  | 0 => .ok s
  | itemCount + 1 => go s.m_out s.m_listStack (itemCount + 1)
where
  go (out : Bytes) : List (ℕ × ℕ) → ℕ → Except Exception RLPStream
    | [], _ => .ok ⟨out, []⟩
    | (items, p) :: stack, itemCount =>
      if items < itemCount then .error .RLPException
      else if items ≠ itemCount then .ok ⟨out, (items - itemCount, p) :: stack⟩
      else
        let payload := out.drop p
        go (out.take p ++ lengthPrefix payload.length c_rlpListStart c_rlpListIndLenZero ++ payload)
          stack 1

def appendRaw (s : RLPStream) (b : Bytes) (itemCount : ℕ) : Except Exception RLPStream :=
  noteAppended ⟨s.m_out ++ b, s.m_listStack⟩ itemCount

/-- The encoding of a byte string. -/
def encodeBytes (b : Bytes) : Bytes :=
  if b.length = 1 ∧ byteAt b 0 < c_rlpDataImmLenStart then b
  else lengthPrefix b.length c_rlpDataImmLenStart c_rlpDataIndLenZero ++ b

/-- The encoding of a non-negative integer. -/
def encodeInt (n : ℕ) : Bytes :=
  if n = 0 then [UInt8.ofNat c_rlpDataImmLenStart]
  else if n < c_rlpDataImmLenStart then [UInt8.ofNat n]
  else
    lengthPrefix (bytesRequired n) c_rlpDataImmLenStart c_rlpDataIndLenZero ++
      toBigEndian (bytesRequired n) n

/-- The encoding of a list of encoded items. -/
def encodeList (items : List Bytes) : Bytes :=
  lengthPrefix items.flatten.length c_rlpListStart c_rlpListIndLenZero ++ items.flatten

def append (s : RLPStream) (b : Bytes) : Except Exception RLPStream :=
  s.appendRaw (encodeBytes b) 1

def appendInt (s : RLPStream) (n : ℕ) : Except Exception RLPStream :=
  s.appendRaw (encodeInt n) 1

def appendList (s : RLPStream) (items : ℕ) : Except Exception RLPStream :=
  if items = 0 then s.appendRaw (lengthPrefix 0 c_rlpListStart c_rlpListIndLenZero) 1
  else .ok ⟨s.m_out, (items, s.m_out.length) :: s.m_listStack⟩

def out (s : RLPStream) : Except Exception Bytes :=
  if s.m_listStack.isEmpty then .ok s.m_out else .error .RLPException

end RLPStream

end Petrachor
