import Petrachor.TrieHash
import Petrachor.RLPRead

/-!
# Hex-prefix coding

Keys of a trie are read by nibbles, from either half of a byte on. A run of nibbles is stored in bytes behind a nibble
of flags, for an odd number of nibbles and for a leaf; an even number has one more nibble, of zero. Positions are 32-bit
integers; a signed sum that leaves them has no value.
-/

namespace Petrachor

def nibble (data : Bytes) (i : ℕ) : ℕ := if i % 2 = 1 then byteAt data (i / 2) &&& 15 else byteAt data (i / 2) >>> 4

def isOdd (n : ℕ) : Bool := n % 2 = 1

structure NibbleSlice where
  data : Bytes
  offset : ℕ
  deriving DecidableEq, Repr

namespace NibbleSlice

def get (s : NibbleSlice) (index : ℕ) : ℕ := nibble s.data ((s.offset + index) % 2 ^ 32)

def size (s : NibbleSlice) : ℕ := toUnsigned (s.data.length * 2 - s.offset)

/-- The nibbles that `operator[]` gives below `size()`. -/
def nibbles (s : NibbleSlice) : List ℕ := (List.range s.size).map s.get

end NibbleSlice

def isLeaf (twoItem : RLP) : Except Exception Bool := do
  if !(twoItem.isList && (← twoItem.itemCount) = 2) then throw .abort
  let pl ← (← twoItem.get 0).payload
  return byteAt pl 0 &&& 0x20 ≠ 0

def keyOf (hpe : Bytes) : NibbleSlice :=
  if hpe.length = 0 then ⟨hpe, 0⟩
  else if byteAt hpe 0 &&& 0x10 ≠ 0 then ⟨hpe, 1⟩
  else ⟨hpe, 2⟩

/-- `keyOf` of an item. -/
def keyOfItem (twoItem : RLP) : Except Exception NibbleSlice := do return keyOf (← (← twoItem.get 0).payload)

/-! ## The overloads -/

/-- `(int) n`. -/
def toSigned (n : ℤ) : ℤ := (BitVec.ofInt 32 n).toInt

/-- The sum of two `int`s. -/
def addSigned (a b : ℤ) : Option ℤ := if -2 ^ 31 ≤ a + b ∧ a + b < 2 ^ 31 then some (a + b) else none

/-- The byte of flags, without the first nibble. -/
def flags (leaf odd : Bool) : UInt8 := UInt8.ofNat (((if leaf then 2 else 0) ||| if odd then 1 else 0) * 16)

/-- What is written so far, and whether its last byte waits for its low nibble. -/
def pushNibble (ret : Bytes × Bool) (n : ℕ) : Bytes × Bool :=
  if ret.2 then (ret.1.dropLast ++ [ret.1.getLastD 0 ||| UInt8.ofNat n], false)
  else (ret.1 ++ [UInt8.ofNat (n <<< 4)], true)

/-- `hexPrefixEncode` of a vector that has one nibble in each byte. -/
def hexPrefixEncodeVector (hexVector : Bytes) (leaf : Bool) (begin_ end_ : ℤ) : Bytes :=
  let b := toUnsigned begin_
  let e := if end_ < 0 then toUnsigned (hexVector.length + 1 + end_) else toUnsigned end_
  let odd := isOdd (toUnsigned ((e : ℤ) - b))
  let first := if odd then flags leaf odd ||| UInt8.ofNat (byteAt hexVector b) else flags leaf odd
  let b := if odd then b + 1 else b
  first :: (List.range' b ((e - b + 1) / 2) 2).map fun i =>
    UInt8.ofNat (byteAt hexVector i * 16 + byteAt hexVector (i + 1))

/-- The end of a range of so many nibbles; a negative one counts from behind the last of them. -/
def endNibbleOf (size endNibble : ℤ) : Option ℤ :=
  if endNibble < 0 then do addSigned (← addSigned (toSigned size) 1) endNibble else some endNibble

/-- `hexPrefixEncode` of a range of the nibbles from an offset on. -/
def hexPrefixEncodeRef (data : Bytes) (leaf : Bool) (beginNibble endNibble : ℤ) (offset : ℕ) : Option Bytes := do
  let b := toUnsigned (beginNibble + offset)
  let e := toUnsigned ((← endNibbleOf (data.length * 2 - offset) endNibble) + offset)
  let odd := isOdd (toUnsigned ((e : ℤ) - b))
  return (((List.range' b (e - b)).map (nibble data)).foldl pushNibble ([flags leaf odd], odd)).1

/-- `hexPrefixEncode` of one slice. -/
def hexPrefixEncodeSlice (s : NibbleSlice) (leaf : Bool) (begin_ end_ : ℤ) : Option Bytes :=
  hexPrefixEncodeRef s.data leaf begin_ end_ s.offset

/-- `hexPrefixEncode` of two slices, one behind the other. -/
def hexPrefixEncodeTwo (s₁ s₂ : NibbleSlice) (leaf : Bool) : Bytes :=
  let end₁ := toUnsigned (s₁.data.length * 2)
  let end₂ := toUnsigned (s₂.data.length * 2)
  let odd := isOdd (toUnsigned ((end₁ : ℤ) - s₁.offset + end₂ - s₂.offset))
  let ret := ((List.range' s₁.offset (end₁ - s₁.offset)).map (nibble s₁.data)).foldl pushNibble ([flags leaf odd], odd)
  (((List.range' s₂.offset (end₂ - s₂.offset)).map (nibble s₂.data)).foldl pushNibble ret).1

/-! ## Runs of nibbles in bytes -/

section

open Crypto

variable {data : Bytes} {l q : List ℕ} {leaf : Bool} {n : ℕ}

theorem isOdd_succ (n : ℕ) : isOdd (n + 1) = !isOdd n := by
  unfold isOdd
  rw [← decide_not, decide_eq_decide]
  omega

theorem isOdd_add_two (n : ℕ) : isOdd (n + 2) = isOdd n := by
  rw [isOdd_succ, isOdd_succ, Bool.not_not]

theorem nibble_eq (data : Bytes) (i : ℕ) :
    nibble data i = if i % 2 = 1 then byteAt data (i / 2) % 16 else byteAt data (i / 2) / 16 := by
  unfold nibble
  rw [show (15 : ℕ) = 2 ^ 4 - 1 from rfl, Nat.and_two_pow_sub_one_eq_mod, Nat.shiftRight_eq_div_pow]

theorem asNibbles_eq : ∀ data : Bytes, asNibbles data = (List.range (data.length * 2)).map (nibble data)
  | [] => rfl
  | x :: data => by
    have htail : List.map (nibble data) (List.range (data.length * 2)) =
        List.map (nibble (x :: data) ∘ fun i => 2 + i) (List.range (data.length * 2)) := by
      refine List.map_congr_left fun i _ => ?_
      rw [Function.comp_apply, nibble_eq, nibble_eq, Nat.add_mod_left, Nat.add_div_left i (by decide), byteAt_cons_succ]
    have hhead : List.map (nibble (x :: data)) (List.range 2) = [x.toNat / 16, x.toNat % 16] := by
      simp [List.range_succ, nibble_eq, byteAt]
    calc asNibbles (x :: data) = [x.toNat / 16, x.toNat % 16] ++ asNibbles data := List.flatMap_cons
      _ = (List.range 2).map (nibble (x :: data)) ++ (List.range (data.length * 2)).map (nibble data) := by
          rw [hhead, asNibbles_eq data]
      _ = (List.range 2 ++ (List.range (data.length * 2)).map (2 + ·)).map (nibble (x :: data)) := by
          rw [htail, List.map_append, List.map_map]
      _ = (List.range ((x :: data).length * 2)).map (nibble (x :: data)) := by
          rw [← List.range_add, List.length_cons, Nat.succ_mul, Nat.add_comm]

theorem asNibbles_drop (data : Bytes) (o : ℕ) :
    (asNibbles data).drop o = (List.range' o (data.length * 2 - o)).map (nibble data) := by
  calc (asNibbles data).drop o = ((List.range' 0 (data.length * 2)).map (nibble data)).drop o := by
        rw [asNibbles_eq, List.range_eq_range']
    _ = ((List.range' 0 (data.length * 2)).drop o).map (nibble data) := (List.map_drop ..).symm
    _ = (List.range' o (data.length * 2 - o)).map (nibble data) := by
        rw [List.drop_range', Nat.mul_one, Nat.zero_add]

theorem even_tail {a b : ℕ} (h : (a :: b :: l).length % 2 = 0) : l.length % 2 = 0 := by
  rw [List.length_cons, List.length_cons] at h
  omega

theorem asNibbles_packNibbles : ∀ {l : List ℕ}, l.length % 2 = 0 → (∀ n ∈ l, n < 16) → asNibbles (packNibbles l) = l
  | [], _, _ => rfl
  | [_], h, _ => by simp at h
  | a :: b :: l, h, hl => by
    have ha := hl a (by simp)
    have hb := hl b (by simp)
    have hrest := asNibbles_packNibbles (l := l) (even_tail h) fun n hn => hl n (by simp [hn])
    unfold asNibbles at hrest ⊢
    rw [packNibbles, List.flatMap_cons, hrest, toNat_ofNat_of_lt (by omega)]
    rw [show (a * 16 + b) / 16 = a by omega, show (a * 16 + b) % 16 = b by omega]
    rfl

theorem length_packNibbles : ∀ {l : List ℕ}, l.length % 2 = 0 → (packNibbles l).length * 2 = l.length
  | [], _ => rfl
  | [_], h => by simp at h
  | a :: b :: l, h => by
    have hrest := length_packNibbles (l := l) (even_tail h)
    rw [packNibbles, List.length_cons, List.length_cons, List.length_cons]
    omega

/-- Nibbles in bytes; behind an odd number of them is the low half of a byte. -/
def packHalf : List ℕ → Bytes
  | a :: b :: l => UInt8.ofNat (a * 16 + b) :: packHalf l
  | [a] => [UInt8.ofNat (a * 16)]
  | [] => []

theorem packHalf_eq : ∀ {l : List ℕ}, l.length % 2 = 0 → packHalf l = packNibbles l
  | [], _ => rfl
  | [_], h => by simp at h
  | a :: b :: l, h => by
    rw [packHalf, packNibbles, packHalf_eq (l := l) (even_tail h)]

theorem or_nibble {a b : ℕ} (ha : a < 16) (hb : b < 16) :
    UInt8.ofNat (a * 16) ||| UInt8.ofNat b = UInt8.ofNat (a * 16 + b) := by
  have h : ∀ a b : Fin 16, UInt8.ofNat (a * 16) ||| UInt8.ofNat b = UInt8.ofNat (a * 16 + b) := by decide
  exact h ⟨a, ha⟩ ⟨b, hb⟩

theorem pushNibble_snd (r : Bytes) (f : Bool) (n : ℕ) : (pushNibble (r, f) n).2 = !f := by
  cases f <;> rfl

theorem pushNibble_cons {r : Bytes} {f : Bool} (x : UInt8) (hr : f = true → r ≠ []) :
    (pushNibble (x :: r, f) n).1 = x :: (pushNibble (r, f) n).1 := by
  cases f with
  | false => rfl
  | true =>
    obtain ⟨y, r, rfl⟩ := List.exists_cons_of_ne_nil (hr rfl)
    rfl

/-- One more nibble. -/
theorem pushNibble_packHalf : ∀ {q : List ℕ}, (∀ m ∈ q, m < 16) → n < 16 →
    (pushNibble (packHalf q, isOdd q.length) n).1 = packHalf (q ++ [n])
  | [], _, _ => by
    show [UInt8.ofNat (n <<< 4)] = [UInt8.ofNat (n * 16)]
    rw [Nat.shiftLeft_eq]
  | [a], hq, hn => by
    show [UInt8.ofNat (a * 16) ||| UInt8.ofNat n] = [UInt8.ofNat (a * 16 + n)]
    rw [or_nibble (hq a List.mem_cons_self) hn]
  | a :: b :: q, hq, hn => by
    have hrest := pushNibble_packHalf (q := q) (fun m hm => hq m (by simp [hm])) hn
    have hne : isOdd q.length = true → packHalf q ≠ [] := by
      rcases q with _ | ⟨c, _ | ⟨d, q⟩⟩
      · simp [isOdd]
      · simp [packHalf]
      · simp [packHalf]
    rw [packHalf, List.length_cons, List.length_cons, isOdd_add_two, pushNibble_cons _ hne, hrest]
    rfl

theorem foldl_pushNibble (hq : ∀ m ∈ q, m < 16) (hl : ∀ m ∈ l, m < 16) :
    l.foldl pushNibble (packHalf q, isOdd q.length) = (packHalf (q ++ l), isOdd (q ++ l).length) := by
  induction l generalizing q with
  | nil => rw [List.foldl_nil, List.append_nil]
  | cons n l ih =>
    obtain ⟨hn, hl⟩ := List.forall_mem_cons.1 hl
    have hpush : pushNibble (packHalf q, isOdd q.length) n = (packHalf (q ++ [n]), isOdd (q ++ [n]).length) := by
      rw [Prod.ext_iff, pushNibble_packHalf hq hn, pushNibble_snd, List.length_append, List.length_singleton,
        isOdd_succ]
      exact ⟨rfl, rfl⟩
    have hq' : ∀ m ∈ q ++ [n], m < 16 := by
      intro m hm
      rcases List.mem_append.1 hm with hm | hm
      · exact hq m hm
      · rwa [List.mem_singleton.1 hm]
    rw [List.foldl_cons, hpush, ih hq' hl, List.append_assoc]
    rfl

/-- The flags, and the nibble of zero in front of an even number. -/
def prefixNibbles (leaf odd : Bool) : List ℕ :=
  if odd then [(if leaf then 2 else 0) + 1] else [if leaf then 2 else 0, 0]

theorem hexPrefixEncode_eq (l : List ℕ) (leaf : Bool) :
    hexPrefixEncode l leaf = packNibbles (prefixNibbles leaf (isOdd l.length) ++ l) := by
  unfold hexPrefixEncode prefixNibbles isOdd
  by_cases h : l.length % 2 = 1
  · simp [h]
  · simp [h]

theorem prefixNibbles_lt (leaf odd : Bool) : ∀ n ∈ prefixNibbles leaf odd, n < 16 := by
  cases leaf <;> cases odd <;> decide

theorem length_prefixNibbles (leaf : Bool) (l : List ℕ) :
    (prefixNibbles leaf (isOdd l.length) ++ l).length % 2 = 0 := by
  rw [List.length_append]
  unfold prefixNibbles isOdd
  by_cases h : l.length % 2 = 1
  · simp only [h, decide_true, if_true, List.length_singleton]
    omega
  · simp only [h, decide_false, Bool.false_eq_true, if_false, List.length_cons, List.length_nil]
    omega

/-- Pushing the nibbles behind the flags. -/
theorem foldl_flags (leaf : Bool) (hl : ∀ n ∈ l, n < 16) :
    (l.foldl pushNibble ([flags leaf (isOdd l.length)], isOdd l.length)).1 = hexPrefixEncode l leaf := by
  have hflags : ∀ odd : Bool, ([flags leaf odd], odd) =
      (packHalf (prefixNibbles leaf odd), isOdd (prefixNibbles leaf odd).length) := by
    cases leaf <;> decide
  rw [hflags, foldl_pushNibble (prefixNibbles_lt _ _) hl, packHalf_eq (length_prefixNibbles leaf l),
    hexPrefixEncode_eq]

/-! ## Reading -/

theorem NibbleSlice.nibbles_eq {s : NibbleSlice} (ho : s.offset ≤ s.data.length * 2) (hlen : s.data.length * 2 ≤ 2 ^ 32)
    (hsize : s.data.length * 2 - s.offset < 2 ^ 32) : s.nibbles = (asNibbles s.data).drop s.offset := by
  have hs : s.size = s.data.length * 2 - s.offset := by
    unfold size toUnsigned
    omega
  rw [nibbles, hs, asNibbles_drop, List.range'_eq_map_range, List.map_map]
  refine List.map_congr_left fun i hi => ?_
  have hlt := List.mem_range.1 hi
  rw [get, Function.comp_apply, Nat.mod_eq_of_lt (by omega)]

theorem flag_bits (leaf odd : Bool) {b : ℕ} (hb : b < 16) :
    let x := ((if leaf then 2 else 0) + if odd then 1 else 0) * 16 + b
    (x &&& 0x10 ≠ 0 ↔ odd = true) ∧ (x &&& 0x20 ≠ 0 ↔ leaf = true) := by
  have h : ∀ (leaf odd : Bool) (b : Fin 16),
      ((((if leaf then 2 else 0) + if odd then 1 else 0) * 16 + b : ℕ) &&& 0x10 ≠ 0 ↔ odd = true) ∧
        ((((if leaf then 2 else 0) + if odd then 1 else 0) * 16 + b : ℕ) &&& 0x20 ≠ 0 ↔ leaf = true) := by
    decide
  exact h leaf odd ⟨b, hb⟩

/-- The first byte has the flags and one more nibble. -/
theorem exists_first (leaf : Bool) (hl : ∀ n ∈ l, n < 16) : ∃ b < 16,
    byteAt (hexPrefixEncode l leaf) 0 = ((if leaf then 2 else 0) + if isOdd l.length then 1 else 0) * 16 + b := by
  rw [hexPrefixEncode_eq]
  have hlt : ∀ a b : ℕ, a < 4 → b < 16 → ∀ q, byteAt (packNibbles (a :: b :: q)) 0 = a * 16 + b := by
    intro a b ha hb q
    rw [packNibbles, byteAt_cons_zero, toNat_ofNat_of_lt (by omega)]
  unfold prefixNibbles
  cases hodd : isOdd l.length with
  | false => exact ⟨0, by decide, hlt _ _ (by cases leaf <;> decide) (by decide) _⟩
  | true =>
    obtain ⟨b, q, rfl⟩ : ∃ b q, l = b :: q := by
      refine List.exists_cons_of_ne_nil ?_
      rintro rfl
      cases hodd
    exact ⟨b, hl b List.mem_cons_self, hlt _ _ (by cases leaf <;> decide) (hl b List.mem_cons_self) _⟩

theorem leaf_hexPrefixEncode (leaf : Bool) (hl : ∀ n ∈ l, n < 16) :
    decide (byteAt (hexPrefixEncode l leaf) 0 &&& 0x20 ≠ 0) = leaf := by
  obtain ⟨b, hb, heq⟩ := exists_first leaf hl
  rw [heq, Bool.eq_iff_iff, decide_eq_true_iff]
  exact (flag_bits leaf (isOdd l.length) hb).2

theorem length_hexPrefixEncode (l : List ℕ) (leaf : Bool) :
    (hexPrefixEncode l leaf).length * 2 = l.length + if isOdd l.length then 1 else 2 := by
  rw [hexPrefixEncode_eq, length_packNibbles (length_prefixNibbles leaf l), List.length_append, Nat.add_comm]
  unfold prefixNibbles
  split <;> rfl

theorem nibbles_keyOf (leaf : Bool) (hl : ∀ n ∈ l, n < 16) (hlen : l.length < 2 ^ 32) :
    (keyOf (hexPrefixEncode l leaf)).nibbles = l := by
  have hlength := length_hexPrefixEncode l leaf
  have hkey : keyOf (hexPrefixEncode l leaf) = ⟨hexPrefixEncode l leaf, if isOdd l.length then 1 else 2⟩ := by
    obtain ⟨b, hb, heq⟩ := exists_first leaf hl
    have hpos : (hexPrefixEncode l leaf).length ≠ 0 := by
      split_ifs at hlength <;> omega
    unfold keyOf
    rw [if_neg hpos, heq]
    simp only [(flag_bits leaf (isOdd l.length) hb).1]
    split <;> rfl
  have hodd : isOdd l.length = true ↔ l.length % 2 = 1 := decide_eq_true_iff
  have hall : ∀ n ∈ prefixNibbles leaf (isOdd l.length) ++ l, n < 16 := by
    intro n hn
    rcases List.mem_append.1 hn with hn | hn
    · exact prefixNibbles_lt _ _ n hn
    · exact hl n hn
  rw [hkey, NibbleSlice.nibbles_eq]
  · dsimp only
    rw [hexPrefixEncode_eq, asNibbles_packNibbles (length_prefixNibbles leaf l) hall]
    unfold prefixNibbles
    split <;> rfl
  all_goals
    dsimp only
    split_ifs at hlength ⊢ <;> omega

/-- The nibbles and the flag are read back from the bytes, and from a node that has them as its first item. -/
structure Recovers (hpe : Bytes) (l : List ℕ) (leaf : Bool) : Prop where
  nibbles : (keyOf hpe).nibbles = l
  item : ∀ value p, IsItem value p → hpe.length + value.length < 2 ^ 63 →
    keyOfItem ⟨RLPStream.encodeList [RLPStream.encodeBytes hpe, value]⟩ = .ok (keyOf hpe) ∧
      isLeaf ⟨RLPStream.encodeList [RLPStream.encodeBytes hpe, value]⟩ = .ok leaf

theorem length_encodeBytes_le {b : Bytes} (h : b.length < 2 ^ 63) :
    (RLPStream.encodeBytes b).length ≤ b.length + 9 := by
  unfold RLPStream.encodeBytes RLPStream.lengthPrefix
  have h8 : bytesRequired b.length ≤ 8 := bytesRequired_le (h.trans (by norm_num))
  split_ifs
  · omega
  · simp only [List.length_append, List.length_singleton]
    omega
  · simp only [List.length_append, List.length_cons, length_toBigEndian]
    omega

theorem recovers_hexPrefixEncode (leaf : Bool) (hl : ∀ n ∈ l, n < 16) (hlen : l.length < 2 ^ 32) :
    Recovers (hexPrefixEncode l leaf) l leaf := by
  refine ⟨nibbles_keyOf leaf hl hlen, ?_⟩
  intro value p hvalue hmax
  generalize hpe : hexPrefixEncode l leaf = e at hmax
  have he : e.length < 2 ^ 63 := by omega
  have hbytes : IsItem (RLPStream.encodeBytes e) e := isItem_encodeBytes (he.trans (by norm_num [maxPayload]))
  have hitems : Items [RLPStream.encodeBytes e, value] := by
    intro x hx
    rcases List.mem_pair.1 hx with rfl | rfl
    · exact ⟨e, hbytes⟩
    · exact ⟨p, hvalue⟩
  have hpayload : [RLPStream.encodeBytes e, value].flatten.length < maxPayload := by
    have := length_encodeBytes_le he
    simp only [List.flatten_cons, List.flatten_nil, List.append_nil, List.length_append]
    unfold maxPayload
    omega
  have hget := get_encodeList hitems hpayload (i := 0) rfl
  refine ⟨?_, ?_⟩
  · unfold keyOfItem
    rw [hget, ok_bind, hbytes.payload_eq]
    rfl
  · unfold isLeaf
    rw [isList_encodeList hpayload, itemCount_encodeList hitems hpayload, hget]
    simp only [ok_bind, hbytes.payload_eq]
    rw [← hpe]
    exact congrArg Except.ok (leaf_hexPrefixEncode leaf hl)

end

/-! ## What is encoded -/

/-- The end of a range; a negative one counts from behind the last nibble. -/
def endOf (size : ℕ) (end_ : ℤ) : ℤ := if end_ < 0 then size + 1 + end_ else end_

def part (l : List ℕ) (begin_ end_ : ℤ) : List ℕ := (l.drop begin_.toNat).take (end_ - begin_).toNat

namespace NibbleSlice

/-- The nibbles behind the offset. -/
def rest (s : NibbleSlice) : List ℕ := (Crypto.asNibbles s.data).drop s.offset

end NibbleSlice

/-- What an overload of `hexPrefixEncode` is called with. -/
inductive HexPrefixCall where
  | vector (hexVector : Bytes) (begin_ end_ : ℤ)
  | slice (s : NibbleSlice) (begin_ end_ : ℤ)
  | two (s₁ s₂ : NibbleSlice)
  deriving DecidableEq, Repr

namespace HexPrefixCall

def encode (leaf : Bool) : HexPrefixCall → Option Bytes
  | vector hexVector begin_ end_ => some (hexPrefixEncodeVector hexVector leaf begin_ end_)
  | slice s begin_ end_ => hexPrefixEncodeSlice s leaf begin_ end_
  | two s₁ s₂ => some (hexPrefixEncodeTwo s₁ s₂ leaf)

/-- The nibbles that the call is about. -/
def nibbles : HexPrefixCall → List ℕ
  | vector hexVector begin_ end_ => part (hexVector.map UInt8.toNat) begin_ (endOf hexVector.length end_)
  | slice s begin_ end_ => part s.rest begin_ (endOf s.rest.length end_)
  | two s₁ s₂ => s₁.rest ++ s₂.rest

/-- The vector has nibbles, slices start in their data, and the range is one of the nibbles that there are. -/
def InRange : HexPrefixCall → Prop
  | vector hexVector begin_ end_ => (∀ x ∈ hexVector, x.toNat < 16) ∧ 0 ≤ begin_ ∧
    begin_ ≤ endOf hexVector.length end_ ∧ endOf hexVector.length end_ ≤ hexVector.length
  | slice s begin_ end_ => s.offset ≤ s.data.length * 2 ∧ 0 ≤ begin_ ∧
    begin_ ≤ endOf s.rest.length end_ ∧ endOf s.rest.length end_ ≤ s.rest.length
  | two s₁ s₂ => s₁.offset ≤ s₁.data.length * 2 ∧ s₂.offset ≤ s₂.data.length * 2

/-- Positions are 32-bit integers; a size that an end is counted from is an `int` with one more nibble. -/
def Fits : HexPrefixCall → Prop
  | vector hexVector _ end_ => endOf hexVector.length end_ < 2 ^ 32
  | slice s _ end_ => s.offset + endOf s.rest.length end_ < 2 ^ 32 ∧ (end_ < 0 → s.rest.length + 1 < 2 ^ 31)
  | two s₁ s₂ => s₁.data.length * 2 < 2 ^ 32 ∧ s₂.data.length * 2 < 2 ^ 32 ∧ s₁.rest.length + s₂.rest.length < 2 ^ 32

end HexPrefixCall

section

open Crypto

variable {leaf leaf' : Bool} {call call' : HexPrefixCall}

theorem map_range'_step_two (g : ℕ → ℕ) : ∀ k b : ℕ,
    (List.range' b k 2).map (fun i => UInt8.ofNat (g i * 16 + g (i + 1))) =
      packNibbles ((List.range' b (k * 2)).map g)
  | 0, _ => rfl
  | k + 1, b => by
    rw [List.range'_succ, List.map_cons, map_range'_step_two g k (b + 2), Nat.succ_mul, List.range'_succ,
      List.range'_succ]
    rfl

theorem part_eq {v : Bytes} {b e : ℕ} (he : e ≤ v.length) :
    part (v.map UInt8.toNat) b e = (List.range' b (e - b)).map (byteAt v) := by
  have hall : v.map UInt8.toNat = (List.range' 0 v.length).map (byteAt v) := by
    refine List.ext_getElem (by simp) fun i hi _ => ?_
    rw [List.length_map] at hi
    simp [byteAt, hi]
  unfold part
  rw [hall, Int.toNat_natCast, ← List.map_drop, List.drop_range', ← List.map_take,
    List.take_range'_of_length_ge (by omega)]
  congr 2 <;> omega

theorem hexPrefixEncodeVector_eq {v : Bytes} {b e : ℤ} (h : (HexPrefixCall.vector v b e).InRange)
    (hfits : (HexPrefixCall.vector v b e).Fits) :
    hexPrefixEncodeVector v leaf b e = hexPrefixEncode (HexPrefixCall.vector v b e).nibbles leaf := by
  obtain ⟨hv, hb, hbe, he⟩ := h
  have hlt32 : endOf v.length e < 2 ^ 32 := hfits
  have hend : (if e < 0 then toUnsigned (v.length + 1 + e) else toUnsigned e) = (endOf v.length e).toNat := by
    unfold endOf toUnsigned at *
    split_ifs at * <;> omega
  have hbegin : toUnsigned b = b.toNat := by
    unfold toUnsigned
    omega
  show hexPrefixEncodeVector v leaf b e = hexPrefixEncode (part (v.map UInt8.toNat) b (endOf v.length e)) leaf
  unfold hexPrefixEncodeVector
  rw [hend, hbegin]
  generalize hn : endOf v.length e = m at *
  obtain ⟨m, rfl⟩ := Int.eq_ofNat_of_zero_le (hb.trans hbe)
  obtain ⟨b, rfl⟩ := Int.eq_ofNat_of_zero_le hb
  rw [part_eq (by omega), Int.toNat_natCast, Int.toNat_natCast]
  have hdiff : toUnsigned ((m : ℤ) - b) = m - b := by
    unfold toUnsigned
    omega
  have hlt : ∀ i, byteAt v i < 16 := by
    intro i
    unfold byteAt
    rcases Nat.lt_or_ge i v.length with hi | hi
    · rw [List.getD_eq_getElem _ _ hi]
      exact hv _ (List.getElem_mem hi)
    · rw [List.getD_eq_default _ _ hi]
      decide
  dsimp only
  rw [hdiff, hexPrefixEncode_eq, List.length_map, List.length_range']
  unfold prefixNibbles
  obtain ⟨k, hk | hk⟩ := Nat.even_or_odd' (m - b)
  · have hodd : isOdd (m - b) = false := decide_eq_false (by omega)
    rw [hodd, if_neg Bool.false_ne_true, if_neg Bool.false_ne_true, if_neg Bool.false_ne_true,
      show (m - b + 1) / 2 = k by omega, map_range'_step_two, show m - b = k * 2 by omega]
    cases leaf <;> rfl
  · have hodd : isOdd (m - b) = true := decide_eq_true (by omega)
    rw [hodd, if_pos rfl, if_pos rfl, if_pos rfl, show (m - (b + 1) + 1) / 2 = k by omega, map_range'_step_two,
      show m - b = k * 2 + 1 by omega, List.range'_succ]
    have hfirst : flags leaf true ||| UInt8.ofNat (byteAt v b) =
        UInt8.ofNat (((if leaf then 2 else 0) + 1) * 16 + byteAt v b) := by
      rw [← or_nibble (by cases leaf <;> decide) (hlt b)]
      cases leaf <;> rfl
    rw [hfirst]
    rfl

theorem nibble_lt (data : Bytes) (i : ℕ) : nibble data i < 16 := by
  have hbyte : byteAt data (i / 2) < 256 := UInt8.toNat_lt _
  rw [nibble_eq]
  split <;> omega

theorem NibbleSlice.rest_eq (s : NibbleSlice) :
    s.rest = (List.range' s.offset (s.data.length * 2 - s.offset)).map (nibble s.data) := asNibbles_drop _ _

theorem NibbleSlice.rest_lt (s : NibbleSlice) : ∀ n ∈ s.rest, n < 16 := by
  intro n hn
  rw [rest_eq] at hn
  obtain ⟨i, -, rfl⟩ := List.mem_map.1 hn
  exact nibble_lt _ _

theorem NibbleSlice.length_rest (s : NibbleSlice) : s.rest.length = s.data.length * 2 - s.offset := by
  rw [rest_eq, List.length_map, List.length_range']

theorem part_rest_eq (s : NibbleSlice) {b e : ℕ} (he : e ≤ s.rest.length) :
    part s.rest b e = (List.range' (b + s.offset) (e - b)).map (nibble s.data) := by
  rw [s.length_rest] at he
  unfold part
  rw [s.rest_eq, Int.toNat_natCast, ← List.map_drop, List.drop_range', ← List.map_take,
    List.take_range'_of_length_ge (by omega)]
  congr 2 <;> omega

theorem hexPrefixEncodeSlice_eq {s : NibbleSlice} {b e : ℤ} (h : (HexPrefixCall.slice s b e).InRange)
    (hfits : (HexPrefixCall.slice s b e).Fits) :
    hexPrefixEncodeSlice s leaf b e = some (hexPrefixEncode (HexPrefixCall.slice s b e).nibbles leaf) := by
  obtain ⟨ho, hb, hbe, he⟩ := h
  obtain ⟨hlt32, hint⟩ : s.offset + endOf s.rest.length e < 2 ^ 32 ∧ (e < 0 → s.rest.length + 1 < 2 ^ 31) := hfits
  show hexPrefixEncodeSlice s leaf b e = some (hexPrefixEncode (part s.rest b (endOf s.rest.length e)) leaf)
  have hlen : (s.rest.length : ℤ) = s.data.length * 2 - s.offset := by
    rw [s.length_rest]
    omega
  have hend : endNibbleOf (s.data.length * 2 - s.offset) e = some (endOf s.rest.length e) := by
    unfold endNibbleOf endOf
    rw [← hlen]
    split_ifs with hneg
    · have hsize : toSigned s.rest.length = s.rest.length := by
        unfold toSigned
        rw [BitVec.toInt_ofInt, Int.bmod_eq_of_le (by omega) (by have := hint hneg; omega)]
      have hone : addSigned s.rest.length 1 = some (s.rest.length + 1) := if_pos (by have := hint hneg; omega)
      rw [hsize, hone]
      exact if_pos (by have := hint hneg; unfold endOf at hbe; split_ifs at hbe; omega)
    · rfl
  unfold hexPrefixEncodeSlice hexPrefixEncodeRef
  rw [hend]
  generalize endOf s.rest.length e = m at *
  obtain ⟨m, rfl⟩ := Int.eq_ofNat_of_zero_le (hb.trans hbe)
  obtain ⟨b, rfl⟩ := Int.eq_ofNat_of_zero_le hb
  have hbegin : toUnsigned ((b : ℤ) + s.offset) = b + s.offset := by
    unfold toUnsigned
    omega
  have hstop : toUnsigned ((m : ℤ) + s.offset) = m + s.offset := by
    unfold toUnsigned
    omega
  have hdiff : toUnsigned (((m + s.offset : ℕ) : ℤ) - (b + s.offset : ℕ)) = m - b := by
    unfold toUnsigned
    omega
  have hpart := part_rest_eq s (b := b) (e := m) (by omega)
  have hlt : ∀ n ∈ part s.rest b m, n < 16 := by
    intro n hn
    rw [hpart] at hn
    obtain ⟨i, -, rfl⟩ := List.mem_map.1 hn
    exact nibble_lt _ _
  have hcount : (part s.rest b m).length = m - b := by rw [hpart, List.length_map, List.length_range']
  have hpush := foldl_flags leaf hlt
  rw [hcount, hpart] at hpush
  simp only [Option.bind_eq_bind, Option.bind_some, hbegin, hstop, hdiff, Nat.add_sub_add_right]
  rw [hpart]
  exact congrArg some hpush

theorem hexPrefixEncodeTwo_eq {s₁ s₂ : NibbleSlice} (h : (HexPrefixCall.two s₁ s₂).InRange)
    (hfits : (HexPrefixCall.two s₁ s₂).Fits) :
    hexPrefixEncodeTwo s₁ s₂ leaf = hexPrefixEncode (HexPrefixCall.two s₁ s₂).nibbles leaf := by
  obtain ⟨ho₁, ho₂⟩ := h
  obtain ⟨hlt₁, hlt₂, hlt⟩ := hfits
  show hexPrefixEncodeTwo s₁ s₂ leaf = hexPrefixEncode (s₁.rest ++ s₂.rest) leaf
  have hend₁ : toUnsigned ((s₁.data.length : ℤ) * 2) = s₁.data.length * 2 := by
    unfold toUnsigned
    omega
  have hend₂ : toUnsigned ((s₂.data.length : ℤ) * 2) = s₂.data.length * 2 := by
    unfold toUnsigned
    omega
  have hall : ∀ n ∈ s₁.rest ++ s₂.rest, n < 16 := by
    intro n hn
    rcases List.mem_append.1 hn with hn | hn
    · exact s₁.rest_lt n hn
    · exact s₂.rest_lt n hn
  have hlen₁ := s₁.length_rest
  have hlen₂ := s₂.length_rest
  have hcount : toUnsigned (((s₁.data.length * 2 : ℕ) : ℤ) - s₁.offset + (s₂.data.length * 2 : ℕ) - s₂.offset) =
      (s₁.rest ++ s₂.rest).length := by
    rw [List.length_append]
    unfold toUnsigned
    omega
  rw [← foldl_flags leaf hall, List.foldl_append]
  unfold hexPrefixEncodeTwo
  simp only [hend₁, hend₂, hcount]
  rw [s₁.rest_eq, s₂.rest_eq]

theorem nibbles_lt (h : call.InRange) : ∀ n ∈ call.nibbles, n < 16 := by
  have hpart : ∀ {l : List ℕ} {b e : ℤ}, (∀ n ∈ l, n < 16) → ∀ n ∈ part l b e, n < 16 :=
    fun hl n hn => hl n (List.mem_of_mem_drop (List.mem_of_mem_take hn))
  cases call with
  | vector v b e =>
    refine hpart fun n hn => ?_
    obtain ⟨x, hx, rfl⟩ := List.mem_map.1 hn
    exact h.1 x hx
  | slice s b e => exact hpart s.rest_lt
  | two s₁ s₂ =>
    intro n hn
    rcases List.mem_append.1 hn with hn | hn
    · exact s₁.rest_lt n hn
    · exact s₂.rest_lt n hn

theorem length_nibbles (h : call.InRange) (hfits : call.Fits) : call.nibbles.length < 2 ^ 32 := by
  cases call with
  | vector v b e =>
    obtain ⟨-, hb, hbe, -⟩ := h
    have hlt32 : endOf v.length e < 2 ^ 32 := hfits
    refine (List.length_take_le _ _).trans_lt ?_
    omega
  | slice s b e =>
    obtain ⟨-, hb, hbe, -⟩ := h
    have hlt32 : s.offset + endOf s.rest.length e < 2 ^ 32 := hfits.1
    refine (List.length_take_le _ _).trans_lt ?_
    omega
  | two s₁ s₂ =>
    rw [HexPrefixCall.nibbles, List.length_append]
    exact hfits.2.2

/-- All overloads encode their nibbles in one way. -/
theorem encode_eq (h : call.InRange) (hfits : call.Fits) :
    call.encode leaf = some (hexPrefixEncode call.nibbles leaf) := by
  cases call with
  | vector v b e => exact congrArg some (hexPrefixEncodeVector_eq h hfits)
  | slice s b e => exact hexPrefixEncodeSlice_eq h hfits
  | two s₁ s₂ => exact congrArg some (hexPrefixEncodeTwo_eq h hfits)

theorem recovers_encode (h : call.InRange) (hfits : call.Fits) :
    ∃ hpe, call.encode leaf = some hpe ∧ Recovers hpe call.nibbles leaf :=
  ⟨_, encode_eq h hfits, recovers_hexPrefixEncode leaf (nibbles_lt h) (length_nibbles h hfits)⟩

/-- The flag is read from any node with the bytes, so that equal bytes have one flag. -/
theorem Recovers.unique {hpe : Bytes} {l l' : List ℕ} (h : Recovers hpe l leaf) (h' : Recovers hpe l' leaf')
    (hlen : hpe.length < 2 ^ 62) : l = l' ∧ leaf = leaf' := by
  refine ⟨h.nibbles.symm.trans h'.nibbles, ?_⟩
  have hempty : IsItem (RLPStream.encodeBytes []) [] := isItem_encodeBytes (by decide)
  have hmax : hpe.length + (RLPStream.encodeBytes []).length < 2 ^ 63 := by
    show hpe.length + 1 < 2 ^ 63
    omega
  exact Except.ok.inj ((h.item _ _ hempty hmax).2.symm.trans (h'.item _ _ hempty hmax).2)

/-- Every overload writes bytes that its nibbles and the flag are read back from, and no two calls for other nibbles or
another flag write the same bytes. -/
theorem hexPrefix_coding (h : call.InRange) (hfits : call.Fits) :
    (∃ hpe, call.encode leaf = some hpe ∧ Recovers hpe call.nibbles leaf) ∧
      ∀ (call' : HexPrefixCall) leaf', call'.InRange → call'.Fits → call.encode leaf = call'.encode leaf' →
        call.nibbles = call'.nibbles ∧ leaf = leaf' := by
  refine ⟨recovers_encode h hfits, ?_⟩
  intro call' leaf' h' hfits' heq
  obtain ⟨hpe, henc, hrec⟩ := @recovers_encode leaf _ h hfits
  obtain ⟨hpe', henc', hrec'⟩ := @recovers_encode leaf' _ h' hfits'
  obtain rfl : hpe = hpe' := Option.some.inj (henc.symm.trans (heq.trans henc'))
  have hlength := length_hexPrefixEncode call.nibbles leaf
  have hshort := length_nibbles h hfits
  rw [encode_eq h hfits] at henc
  obtain rfl := Option.some.inj henc
  refine hrec.unique hrec' ?_
  split_ifs at hlength <;> omega

/-- The last three nibbles of two bytes, behind the two of one byte. -/
theorem hexPrefix_coding_two :
    (∃ hpe, HexPrefixCall.encode true (.two ⟨[0x12], 0⟩ ⟨[0x34, 0x56], 1⟩) = some hpe ∧
      Recovers hpe [1, 2, 4, 5, 6] true) ∧
    ∀ (call' : HexPrefixCall) leaf', call'.InRange → call'.Fits →
      HexPrefixCall.encode true (.two ⟨[0x12], 0⟩ ⟨[0x34, 0x56], 1⟩) = call'.encode leaf' →
      [1, 2, 4, 5, 6] = call'.nibbles ∧ true = leaf' := by
  have hrange : (HexPrefixCall.two ⟨[0x12], 0⟩ ⟨[0x34, 0x56], 1⟩).InRange := ⟨by decide, by decide⟩
  exact hexPrefix_coding hrange ⟨by decide, by decide, by decide⟩

/-- Of a vector of 2^32 nibbles nothing is encoded. -/
theorem nibbles_lost : ∃ call : HexPrefixCall, call.InRange ∧
    ∀ hpe, call.encode false = some hpe → ¬Recovers hpe call.nibbles false := by
  obtain ⟨v, hv, hlen⟩ : ∃ v : Bytes, (∀ x ∈ v, x.toNat < 16) ∧ v.length = 2 ^ 32 := by
    refine ⟨List.replicate (2 ^ 32) 0, fun x hx => ?_, List.length_replicate⟩
    rw [List.eq_of_mem_replicate hx]
    decide
  have hend : endOf v.length (-1) = 2 ^ 32 := by
    rw [hlen]
    decide
  refine ⟨.vector v 0 (-1), ⟨hv, le_rfl, by rw [hend]; decide, by rw [hend, hlen]; decide⟩, ?_⟩
  intro hpe henc hrec
  have hzero : toUnsigned ((v.length : ℤ) + 1 + -1) = 0 := by
    rw [hlen]
    decide
  have hnothing : hexPrefixEncodeVector v false 0 (-1) = [0] := by
    unfold hexPrefixEncodeVector
    rw [hzero]
    rfl
  obtain rfl : [0] = hpe := hnothing.symm.trans (Option.some.inj henc)
  have hnibbles : [] = part (v.map UInt8.toNat) 0 (endOf v.length (-1)) := hrec.nibbles
  have hcount := congrArg List.length hnibbles
  rw [hend] at hcount
  unfold part at hcount
  rw [List.length_take, List.length_drop, List.length_map, hlen] at hcount
  exact absurd hcount (by decide)

end

end Petrachor
