import Petrachor.RLPRead

/-!
# Trees of items

What `append` and `appendList` write of a tree is its encoding, and `RLP` reads the same tree back.
The other way around a byte string that is read without an exception, item by item, is the encoding
of what was read.
-/

namespace Petrachor

/-- A tree of items with data of some kind at its leaves. -/
inductive RLPTree (α : Type)
  | leaf (a : α)
  | list (ts : List (RLPTree α))

/-- Induction on a tree: a list has the property if its items have. -/
@[elab_as_elim, induction_eliminator]
theorem RLPTree.induct {α : Type} {motive : RLPTree α → Prop} (leaf : ∀ a, motive (.leaf a))
    (list : ∀ ts, (∀ t ∈ ts, motive t) → motive (.list ts)) (t : RLPTree α) : motive t := by
  refine @RLPTree.rec α motive (fun ts => ∀ t ∈ ts, motive t) leaf list ?_ ?_ t
  · intro t ht
    cases ht
  · intro t ts ht hts t' ht'
    rcases List.mem_cons.1 ht' with rfl | ht'
    · exact ht
    · exact hts t' ht'

/-- The data a stream takes. -/
inductive Datum
  | bytes (b : Bytes)
  | int (n : ℕ)

/-! ## Big integers -/

namespace RLPStream

/-- `pushInt`: the bytes of the integer are written from the back, all of them, whatever room was
made. -/
def pushInt (out : Bytes) (i br : ℕ) : Except Exception Bytes :=
  let out := out ++ List.replicate br 0
  let digits := toBigEndian (bytesRequired i) i
  if out.length < digits.length then .error .abort
  else .ok (out.take (out.length - digits.length) ++ digits)

/-- `append(bigint)`; the bytes it needs are counted in an `unsigned`. -/
def appendBigint (s : RLPStream) (n : ℕ) : Except Exception RLPStream :=
  if n = 0 then s.appendRaw [UInt8.ofNat c_rlpDataImmLenStart] 1
  else if n < c_rlpDataImmLenStart then s.appendRaw [UInt8.ofNat n] 1
  else do
    let br := bytesRequired n % 2 ^ 32
    let out ← (if br < c_rlpDataImmLenCount then
        .ok (s.m_out ++ [UInt8.ofNat (br + c_rlpDataImmLenStart)])
      else
        let brbr := bytesRequired br
        if 0xff < c_rlpDataIndLenZero + brbr then .error .RLPException
        else pushInt (s.m_out ++ [UInt8.ofNat (c_rlpDataIndLenZero + brbr)]) br brbr)
    noteAppended ⟨← pushInt out n br, s.m_listStack⟩ 1

theorem pushInt_eq (out : Bytes) (i : ℕ) :
    pushInt out i (bytesRequired i) = .ok (out ++ toBigEndian (bytesRequired i) i) := by
  unfold pushInt
  simp only [List.length_append, List.length_replicate, length_toBigEndian]
  rw [if_neg (by omega), Nat.add_sub_cancel, List.take_left]

/-- An integer is written as it should be if its bytes can be counted. -/
theorem appendBigint_eq (s : RLPStream) {n : ℕ} (h : bytesRequired n < 2 ^ 32) :
    s.appendBigint n = s.appendInt n := by
  obtain ⟨h80, hc0, hb7, -, -, h8⟩ := rlp_constants
  unfold appendBigint appendInt encodeInt
  by_cases h0 : n = 0
  · rw [if_pos h0, if_pos h0]
  rw [if_neg h0, if_neg h0]
  by_cases hlt : n < c_rlpDataImmLenStart
  · rw [if_pos hlt, if_pos hlt]
  rw [if_neg hlt, if_neg hlt]
  simp only [Nat.mod_eq_of_lt h]
  have h4 : bytesRequired (bytesRequired n) ≤ 4 := bytesRequired_le (by omega)
  by_cases hs : bytesRequired n < c_rlpDataImmLenCount
  · have hs' : bytesRequired n < c_rlpListImmLenCount := hs
    rw [if_pos hs, ok_bind, pushInt_eq, ok_bind, lengthPrefix, if_pos hs', appendRaw,
      List.append_assoc, add_comm]
  · have hs' : ¬bytesRequired n < c_rlpListImmLenCount := hs
    rw [if_neg hs, if_neg (by omega), pushInt_eq, ok_bind, pushInt_eq, ok_bind, lengthPrefix,
      if_neg hs', appendRaw]
    simp only [List.append_assoc, List.cons_append, List.nil_append]

end RLPStream

/-! ## Writing a tree -/

namespace RLPTree

section

variable {α : Type} (put : RLPStream → α → Except Exception RLPStream) (enc : α → Bytes)

mutual

/-- A tree written to a stream: a list is opened with the number of its items. -/
def write : RLPTree α → RLPStream → Except Exception RLPStream
  | .leaf a, s => put s a
  | .list ts, s => do writeAll ts (← s.appendList ts.length)

def writeAll : List (RLPTree α) → RLPStream → Except Exception RLPStream
  | [], s => .ok s
  | t :: ts, s => do writeAll ts (← write t s)

end

mutual

/-- The encoding of a tree. -/
def encode : RLPTree α → Bytes
  | .leaf a => enc a
  | .list ts => RLPStream.encodeList (encodeAll ts)

def encodeAll : List (RLPTree α) → List Bytes
  | [] => []
  | t :: ts => encode t :: encodeAll ts

end

theorem encodeAll_eq (ts : List (RLPTree α)) : encodeAll enc ts = ts.map (encode enc) := by
  induction ts with
  | nil => rfl
  | cons t ts ih => rw [encodeAll, List.map_cons, ih]

theorem encode_list (ts : List (RLPTree α)) :
    encode enc (.list ts) = RLPStream.encodeList (ts.map (encode enc)) := by
  rw [encode, encodeAll_eq]

mutual

/-- The leaves of a tree are all of some kind. -/
def Leaves (P : α → Prop) : RLPTree α → Prop
  | .leaf a => P a
  | .list ts => LeavesAll P ts

def LeavesAll (P : α → Prop) : List (RLPTree α) → Prop
  | [] => True
  | t :: ts => Leaves P t ∧ LeavesAll P ts

end

theorem leaves_list {P : α → Prop} {ts : List (RLPTree α)} :
    Leaves P (.list ts) ↔ ∀ t ∈ ts, Leaves P t := by
  rw [Leaves]
  induction ts with
  | nil => simp [LeavesAll]
  | cons t ts ih => rw [LeavesAll, ih, List.forall_mem_cons]

end

section

variable {α : Type} {put : RLPStream → α → Except Exception RLPStream} {enc : α → Bytes}
  {P : α → Prop} (hput : ∀ s a, P a → put s a = s.appendRaw (enc a) 1)

/-- One more item of a list that is still open, or the last one, which closes it. -/
theorem appendRaw_open (out pre e : Bytes) (k : ℕ) (stack : List (ℕ × ℕ)) :
    RLPStream.appendRaw ⟨out ++ pre, (k + 1, out.length) :: stack⟩ e 1 =
      if k = 0 then
        RLPStream.appendRaw ⟨out, stack⟩ (RLPStream.lengthPrefix (pre ++ e).length c_rlpListStart
          c_rlpListIndLenZero ++ (pre ++ e)) 1
      else .ok ⟨out ++ (pre ++ e), (k, out.length) :: stack⟩ := by
  unfold RLPStream.appendRaw RLPStream.noteAppended
  simp only
  rw [RLPStream.noteAppended.go, if_neg (by omega)]
  by_cases hk : k = 0
  · subst hk
    rw [if_neg (by simp), if_pos rfl]
    simp only [List.append_assoc, List.drop_left, List.take_left]
  · rw [if_pos (by omega), if_neg hk, List.append_assoc]
    rfl

/-- The items of a list that is open, the last of which closes it. -/
theorem writeAll_eq (ts : List (RLPTree α)) :
    ∀ (t : RLPTree α) (out pre : Bytes) (stack : List (ℕ × ℕ)),
      (∀ t' ∈ t :: ts, ∀ s, t'.write put s = s.appendRaw (t'.encode enc) 1) →
      writeAll put (t :: ts) ⟨out ++ pre, (ts.length + 1, out.length) :: stack⟩ =
        RLPStream.appendRaw ⟨out, stack⟩ (RLPStream.lengthPrefix
          (pre ++ ((t :: ts).map (encode enc)).flatten).length c_rlpListStart c_rlpListIndLenZero ++
            (pre ++ ((t :: ts).map (encode enc)).flatten)) 1 := by
  induction ts with
  | nil =>
    intro t out pre stack h
    rw [writeAll, h t List.mem_cons_self, List.length_nil, appendRaw_open, if_pos rfl, List.map_cons,
      List.map_nil, List.flatten_cons, List.flatten_nil, List.append_nil]
    cases RLPStream.appendRaw ⟨out, stack⟩ (RLPStream.lengthPrefix (pre ++ encode enc t).length
      c_rlpListStart c_rlpListIndLenZero ++ (pre ++ encode enc t)) 1 with
    | error e => rfl
    | ok s => rw [ok_bind, writeAll]
  | cons t' ts ih =>
    intro t out pre stack h
    have hts := ih t' out (pre ++ encode enc t) stack fun x hx => h x (List.mem_cons_of_mem _ hx)
    rw [writeAll, h t List.mem_cons_self, List.length_cons, appendRaw_open, if_neg (by omega), ok_bind,
      hts]
    simp only [List.map_cons, List.flatten_cons, List.append_assoc]

include hput in
/-- What is written of a tree is one item, its encoding, wherever the stream stands. -/
theorem write_eq (t : RLPTree α) :
    ∀ s : RLPStream, t.Leaves P → t.write put s = s.appendRaw (t.encode enc) 1 := by
  induction t with
  | leaf a =>
    intro s h
    exact hput s a h
  | list ts ih =>
    intro s h
    rw [leaves_list] at h
    cases ts with
    | nil =>
      rw [write, List.length_nil, RLPStream.appendList, if_pos rfl, encode_list, RLPStream.encodeList,
        List.map_nil, List.flatten_nil, List.length_nil, List.append_nil]
      cases s.appendRaw (RLPStream.lengthPrefix 0 c_rlpListStart c_rlpListIndLenZero) 1 with
      | error e => rfl
      | ok s' => rw [ok_bind, writeAll]
    | cons t ts =>
      have hall := writeAll_eq ts t s.m_out [] s.m_listStack fun x hx s' => ih x hx s' (h x hx)
      rw [List.append_nil, List.nil_append] at hall
      rw [write, RLPStream.appendList, if_neg (by simp), ok_bind, List.length_cons, hall, encode_list]
      rfl

include hput in
/-- A tree written to an empty stream. -/
theorem out_write {t : RLPTree α} (h : t.Leaves P) :
    (do (← t.write put .empty).out) = .ok (t.encode enc) := by
  rw [write_eq hput t _ h, RLPStream.empty, RLPStream.appendRaw, List.nil_append,
    RLPStream.noteAppended, RLPStream.noteAppended.go, ok_bind]
  rfl

end

end RLPTree

/-! ## Reading items by their index -/

/-- A payload falls into items, as `sizeAsEncoded` finds their ends. -/
inductive Splits : Bytes → List Bytes → Prop
  | nil : Splits [] []
  | cons {e rest : Bytes} {items : List Bytes} (ne_nil : e ≠ [])
    (size : RLP.sizeAsEncoded (e ++ rest) = .ok e.length) (h : Splits rest items) :
    Splits (e ++ rest) (e :: items)

namespace Splits

theorem flatten_eq {p : Bytes} {items : List Bytes} (h : Splits p items) : p = items.flatten := by
  induction h with
  | nil => rfl
  | cons ne_nil size h ih => rw [List.flatten_cons, ← ih]

theorem drop {p : Bytes} {items : List Bytes} (h : Splits p items) (k : ℕ) :
    Splits (items.drop k).flatten (items.drop k) := by
  induction h generalizing k with
  | nil =>
    rw [List.drop_nil]
    exact .nil
  | cons ne_nil size h ih =>
    cases k with
    | zero =>
      rw [List.drop_zero, List.flatten_cons, ← h.flatten_eq]
      exact .cons ne_nil size h
    | succ k => exact ih k

theorem of_items {items : List Bytes} (h : Items items) : Splits items.flatten items := by
  induction items with
  | nil => exact .nil
  | cons e items ih =>
    obtain ⟨p, hp⟩ := h e List.mem_cons_self
    exact .cons hp.ne_nil (hp.sizeAsEncoded _) (ih fun x hx => h x (List.mem_cons_of_mem _ hx))

theorem uncons {p e : Bytes} {items : List Bytes} (h : Splits p (e :: items)) :
    ∃ rest, p = e ++ rest ∧ e ≠ [] ∧ RLP.sizeAsEncoded (e ++ rest) = .ok e.length := by
  cases h with
  | cons ne_nil size _ => exact ⟨_, rfl, ne_nil, size⟩

/-- The `k`-th item stands at the front of what is left behind the ones before it. -/
theorem front {p : Bytes} {items : List Bytes} (h : Splits p items) {k : ℕ} {e : Bytes}
    (he : items[k]? = some e) : ∃ rest, p.drop (items.take k).flatten.length = e ++ rest ∧ e ≠ [] ∧
      RLP.sizeAsEncoded (e ++ rest) = .ok e.length := by
  have hlt : k < items.length := (List.getElem?_eq_some_iff.1 he).1
  have hget : items[k] = e := (List.getElem?_eq_some_iff.1 he).2
  have hdrop : p.drop (items.take k).flatten.length = (items.drop k).flatten := by
    rw [h.flatten_eq]
    conv_lhs => rw [← List.take_append_drop k items, List.flatten_append]
    rw [List.take_append_of_le_length (List.length_take_of_le hlt.le).ge, List.take_take,
      min_self, List.drop_left]
  have hcons : items.drop k = e :: items.drop (k + 1) := by
    rw [List.drop_eq_getElem_cons hlt, hget]
  have hs := h.drop k
  rw [hdrop]
  rw [hcons] at hs ⊢
  exact hs.uncons

end Splits

theorem cropped_append_left (a b : Bytes) : cropped (a ++ b) 0 a.length = a := by
  rw [cropped, if_pos (by rw [List.length_append]; omega), List.drop_zero, List.take_left]

/-- The cache with the `i`-th of the items. -/
def cursorAt (items : List Bytes) (i : ℕ) : RLP.Cursor :=
  ⟨i, (items.take (i + 1)).flatten.length, items.getD i []⟩

section

variable {r : RLP} {p : Bytes} {items : List Bytes} (hp : r.payload = .ok p) (h : Splits p items)

include hp h

/-- The loop moves the cache on by so many items. -/
theorem advance_eq (steps : ℕ) :
    ∀ j, j + steps < items.length →
      r.advance steps (cursorAt items j) = .ok (cursorAt items (j + steps)) := by
  induction steps with
  | zero =>
    intro j _
    rfl
  | succ steps ih =>
    intro j hj
    obtain ⟨x, hx⟩ : ∃ x, items[j]? = some x := ⟨_, List.getElem?_eq_getElem (by omega)⟩
    obtain ⟨e, he⟩ : ∃ e, items[j + 1]? = some e := ⟨_, List.getElem?_eq_getElem (by omega)⟩
    obtain ⟨-, -, hxne, -⟩ := h.front hx
    obtain ⟨rest, hrest, -, hsize⟩ := h.front he
    have hlast : (cursorAt items j).m_lastItem = x := by
      simp [cursorAt, List.getD_eq_getElem?_getD, hx]
    have hnext : (⟨j + 1, (items.take (j + 1)).flatten.length + e.length, e⟩ : RLP.Cursor) =
        cursorAt items (j + 1) := by
      have htake : items.take (j + 1 + 1) = items.take (j + 1) ++ [e] := by
        rw [List.take_add_one, he, Option.toList_some]
      simp [cursorAt, htake, List.getD_eq_getElem?_getD, he]
    rw [RLP.advance, if_neg (by rw [hlast]; simpa using hxne), hp, ok_bind]
    change (do
      let rest := p.drop (items.take (j + 1)).flatten.length
      let item := cropped rest 0 (← RLP.sizeAsEncoded rest)
      r.advance steps ⟨j + 1, (items.take (j + 1)).flatten.length + item.length, item⟩) = _
    simp only [hrest, hsize, ok_bind, cropped_append_left, hnext]
    rw [ih (j + 1) (by omega)]
    congr 2
    omega

/-- Whatever has been read of the object, `operator[]` finds the item. -/
theorem item_eq {c : RLP.Cursor} (hc : c = .fresh ∨ ∃ j < items.length, c = cursorAt items j)
    (hlen : items.length < 2 ^ 64) {i : ℕ} {e : Bytes} (he : items[i]? = some e) :
    r.item c i = do
      return (← RLP.ofBytes e (RLP.ThrowOnFail ||| RLP.FailIfTooSmall), cursorAt items i) := by
  have hi : i < items.length := (List.getElem?_eq_some_iff.1 he).1
  have hlast : (cursorAt items i).m_lastItem = e := by
    simp [cursorAt, List.getD_eq_getElem?_getD, he]
  -- where the loop starts
  have hstart : ∃ j ≤ i, (if i < c.m_lastIndex then do
      let p ← r.payload
      let lastEnd ← RLP.sizeAsEncoded p
      return (⟨0, lastEnd, cropped p 0 lastEnd⟩ : RLP.Cursor)
    else .ok c) = .ok (cursorAt items j) := by
    split
    · obtain ⟨x, hx⟩ : ∃ x, items[0]? = some x := ⟨_, List.getElem?_eq_getElem (by omega)⟩
      obtain ⟨rest, hrest, -, hsize⟩ := h.front hx
      rw [List.take_zero, List.flatten_nil, List.length_nil, List.drop_zero] at hrest
      refine ⟨0, Nat.zero_le _, ?_⟩
      rw [hp, ok_bind, hrest, hsize, ok_bind, cropped_append_left]
      have htake : items.take (0 + 1) = [x] := by
        rw [List.take_add_one, hx]
        rfl
      simp [cursorAt, htake, List.getD_eq_getElem?_getD, hx, pure, Except.pure]
    · rename_i hle
      rcases hc with rfl | ⟨j, hj, rfl⟩
      · simp only [RLP.Cursor.fresh] at hle
        omega
      · exact ⟨j, not_lt.1 hle, rfl⟩
  obtain ⟨j, hj, hstart⟩ := hstart
  unfold RLP.item
  rw [hstart, ok_bind]
  have hidx : i - (cursorAt items j).m_lastIndex = i - j := rfl
  rw [hidx, advance_eq hp h (i - j) j (by omega), ok_bind, Nat.add_sub_cancel' hj, hlast]

/-- Any number of items, in any order. -/
theorem itemsAt_eq (hlen : items.length < 2 ^ 64) (is : List ℕ) :
    ∀ c : RLP.Cursor, (c = .fresh ∨ ∃ j < items.length, c = cursorAt items j) →
      (∀ i ∈ is, i < items.length) →
      r.itemsAt is c = is.mapM fun i =>
        RLP.ofBytes (items.getD i []) (RLP.ThrowOnFail ||| RLP.FailIfTooSmall) := by
  induction is with
  | nil =>
    intro c _ _
    rfl
  | cons i is ih =>
    intro c hc hi
    have hlt := hi i List.mem_cons_self
    have he : items[i]? = some (items.getD i []) := by
      rw [List.getElem?_eq_getElem hlt, List.getD_eq_getElem _ _ hlt]
    rw [RLP.itemsAt, item_eq hp h hc hlen he, List.mapM_cons]
    cases RLP.ofBytes (items.getD i []) (RLP.ThrowOnFail ||| RLP.FailIfTooSmall) with
    | error e => rfl
    | ok x =>
      rw [ok_bind, ok_bind, ← ih (cursorAt items i) (.inr ⟨i, hlt, rfl⟩)
        fun j hj => hi j (List.mem_cons_of_mem _ hj)]
      rfl

end

/-- The items of a list that was written, in any order. -/
theorem itemsAt_encodeList {items : List Bytes} (h : Items items)
    (hmax : items.flatten.length < maxPayload) {is : List ℕ} (his : ∀ i ∈ is, i < items.length) :
    (RLP.mk (RLPStream.encodeList items)).itemsAt is .fresh =
      .ok (is.map fun i => ⟨items.getD i []⟩) := by
  have hlen : items.length < 2 ^ 64 :=
    (length_le_length_flatten h).trans_lt (hmax.trans (by decide))
  rw [itemsAt_eq (isItem_encodeList hmax).payload_eq (.of_items h) hlen is _ (.inl rfl) his]
  apply mapM_eq_ok
  intro i hi
  obtain ⟨p, hp⟩ := h _ (List.getElem_mem (his i hi))
  rw [List.getD_eq_getElem _ _ (his i hi), hp.ofBytes]

/-! ## The round trip -/

/-- `intTraits<bigint>::maxSize`. -/
def bigintMaxSize : ℕ := 2 ^ 32 - 1

namespace Datum

def append (s : RLPStream) : Datum → Except Exception RLPStream
  | .bytes b => s.append b
  | .int n => s.appendBigint n

def encode : Datum → Bytes
  | .bytes b => RLPStream.encodeBytes b
  | .int n => RLPStream.encodeInt n

/-- The datum is what an item converts to. -/
def ReadFrom (r : RLP) : Datum → Prop
  | .bytes b => r.isData = true ∧ r.toBytes RLP.VeryStrict = .ok b
  | .int n => r.toInt bigintMaxSize RLP.VeryStrict = .ok n

/-- An integer of at most as many bytes as `bigint` is read from. -/
def InRange : Datum → Prop
  | .bytes _ => True
  | .int n => n < 256 ^ bigintMaxSize

theorem append_eq (s : RLPStream) (a : Datum) (h : a.InRange) :
    a.append s = s.appendRaw a.encode 1 := by
  cases a with
  | bytes b => rfl
  | int n =>
    have hlt : bytesRequired n ≤ bigintMaxSize := bytesRequired_le h
    exact RLPStream.appendBigint_eq s (by unfold bigintMaxSize at hlt; omega)

/-- A datum is one item, with its bytes as the payload. -/
theorem isItem_encode {a : Datum} (h : a.encode.length < maxPayload) : ∃ p, IsItem a.encode p := by
  have hbytes : ∀ b : Bytes, b.length ≤ (RLPStream.encodeBytes b).length := by
    intro b
    unfold RLPStream.encodeBytes
    split
    · exact le_rfl
    · rw [List.length_append]
      omega
  cases a with
  | bytes b => exact ⟨b, isItem_encodeBytes ((hbytes b).trans_lt h)⟩
  | int n =>
    refine ⟨_, isItem_encodeInt (n := n) (lt_of_le_of_lt ?_ h)⟩
    have hle := hbytes (toBigEndian (bytesRequired n) n)
    rw [length_toBigEndian, ← encodeInt_eq] at hle
    exact hle

theorem readFrom_encode {a : Datum} (h : a.encode.length < maxPayload) (hr : a.InRange) :
    a.ReadFrom ⟨a.encode⟩ := by
  cases a with
  | bytes b =>
    have hlt : b.length < maxPayload := by
      refine lt_of_le_of_lt ?_ h
      change b.length ≤ (RLPStream.encodeBytes b).length
      unfold RLPStream.encodeBytes
      split
      · exact le_rfl
      · rw [List.length_append]
        omega
    exact ⟨isData_encodeBytes hlt, toBytes_encodeBytes hlt _⟩
  | int n => exact toInt_encodeInt hr (by decide) _

end Datum

namespace RLPTree

mutual

/-- A byte string is read, with every check on at every level, as this tree: a list has its items by
their number, by their indices in any order, and one after the other. -/
def ReadFrom : RLPTree Datum → Bytes → Prop
  | .leaf a, b => ∃ r, RLP.ofBytes b RLP.VeryStrict = .ok r ∧ a.ReadFrom r
  | .list ts, b => ∃ r, RLP.ofBytes b RLP.VeryStrict = .ok r ∧ r.isList = true ∧ ∃ items,
    r.itemCount = .ok items.length ∧ r.toList = .ok items ∧
    (∀ is : List ℕ, (∀ i ∈ is, i < items.length) →
      r.itemsAt is .fresh = .ok (is.map fun i => items.getD i ⟨[]⟩)) ∧
    ReadFromAll ts items

def ReadFromAll : List (RLPTree Datum) → List RLP → Prop
  | [], items => items = []
  | t :: ts, items => ∃ r rest, items = r :: rest ∧ ReadFrom t r.data ∧ ReadFromAll ts rest

end

theorem readFromAll_map {ts : List (RLPTree Datum)} {enc : RLPTree Datum → Bytes}
    (h : ∀ t ∈ ts, t.ReadFrom (enc t)) :
    ReadFromAll ts ((ts.map enc).map RLP.mk) := by
  induction ts with
  | nil => rfl
  | cons t ts ih =>
    exact ⟨_, _, rfl, h t List.mem_cons_self, ih fun t' ht' => h t' (List.mem_cons_of_mem _ ht')⟩

theorem length_le_encodeList (items : List Bytes) :
    items.flatten.length < (RLPStream.encodeList items).length := by
  unfold RLPStream.encodeList RLPStream.lengthPrefix
  split <;> simp

theorem length_le_of_mem {items : List Bytes} {e : Bytes} (h : e ∈ items) :
    e.length ≤ items.flatten.length := (List.sublist_flatten_of_mem h).length_le

/-- A tree is one item if its leaves are. -/
theorem isItem_encode {α : Type} {enc : α → Bytes}
    (henc : ∀ a, (enc a).length < maxPayload → ∃ p, IsItem (enc a) p) (t : RLPTree α)
    (h : (t.encode enc).length < maxPayload) : ∃ p, IsItem (t.encode enc) p := by
  cases t with
  | leaf a => exact henc a h
  | list ts =>
    rw [encode_list] at h ⊢
    exact ⟨_, isItem_encodeList ((length_le_encodeList _).trans h)⟩

/-- The items of a list are shorter than it, and each of them is one item. -/
theorem items_encode {α : Type} {enc : α → Bytes}
    (henc : ∀ a, (enc a).length < maxPayload → ∃ p, IsItem (enc a) p) {ts : List (RLPTree α)}
    (h : ((ts.map (encode enc)).flatten).length < maxPayload) :
    Items (ts.map (encode enc)) ∧ ∀ t ∈ ts, (t.encode enc).length < maxPayload := by
  have hshort : ∀ t ∈ ts, (t.encode enc).length < maxPayload := by
    intro t ht
    exact (length_le_of_mem (List.mem_map_of_mem ht)).trans_lt h
  refine ⟨fun e he => ?_, hshort⟩
  obtain ⟨t, ht, rfl⟩ := List.mem_map.1 he
  exact t.isItem_encode henc (hshort t ht)

/-- The encoding is read as the tree it is of. -/
theorem readFrom_encode (t : RLPTree Datum) :
    t.Leaves Datum.InRange → (t.encode Datum.encode).length < maxPayload →
      t.ReadFrom (t.encode Datum.encode) := by
  induction t with
  | leaf a =>
    intro hr h
    obtain ⟨p, hp⟩ := a.isItem_encode h
    exact ⟨_, hp.ofBytes _, a.readFrom_encode h hr⟩
  | list ts ih =>
    intro hr h
    rw [leaves_list] at hr
    rw [encode_list] at h ⊢
    have hmax := (length_le_encodeList _).trans h
    obtain ⟨hitems, hshort⟩ := items_encode (fun a => a.isItem_encode) hmax
    have hlist := isItem_encodeList hmax
    refine ⟨_, hlist.ofBytes _, isList_encodeList hmax, (ts.map (encode Datum.encode)).map RLP.mk,
      ?_, toList_encodeList hitems hmax, ?_, readFromAll_map fun t ht => ih t ht (hr t ht) (hshort t ht)⟩
    · rw [itemCount_encodeList hitems hmax]
      simp only [List.length_map]
    · intro is his
      rw [List.length_map] at his
      rw [itemsAt_encodeList hitems hmax his]
      congr 1
      apply List.map_congr_left
      intro i hi
      have hlt := his i hi
      rw [List.getD_eq_getElem _ _ hlt, List.getD_eq_getElem _ _ (by simpa using hlt)]
      simp only [List.getElem_map]

/-- Every tree is written, and what is written is read as this tree; it is shorter than a prefix can
announce, as everything in memory is. -/
theorem round_trip {t : RLPTree Datum} (hr : t.Leaves Datum.InRange) :
    ∃ b, (do (← t.write Datum.append .empty).out) = .ok b ∧
      (b.length < maxPayload → t.ReadFrom b) :=
  ⟨_, out_write Datum.append_eq hr, t.readFrom_encode hr⟩

/-- A list of a string, an integer, and a list of an empty list. -/
theorem round_trip_nested :
    let t : RLPTree Datum := .list [.leaf (.bytes [1, 2]), .leaf (.int 1024), .list [.list []]]
    ∃ b, (do (← t.write Datum.append .empty).out) = .ok b ∧ (b.length < maxPayload → t.ReadFrom b) := by
  intro t
  refine round_trip (leaves_list.2 fun t' ht => ?_)
  simp only [List.mem_cons, List.not_mem_nil, or_false] at ht
  rcases ht with rfl | rfl | rfl
  · exact trivial
  · change 1024 < 256 ^ bigintMaxSize
    exact (show 1024 < 256 ^ 2 by decide).trans_le (Nat.pow_le_pow_right (by decide) (by decide))
  · rw [leaves_list]
    intro t' ht'
    rw [List.mem_singleton.1 ht', leaves_list]
    exact fun _ h => (List.not_mem_nil h).elim

/-- The first byte count that an `unsigned` does not hold is taken for zero: the bytes are written in
front of the buffer. -/
theorem appendBigint_overflow {k : ℕ} (hk : k = bigintMaxSize) :
    RLPStream.empty.appendBigint (256 ^ k) = .error .abort := by
  have hpos : 256 ^ 1 ≤ 256 ^ k := Nat.pow_le_pow_right (by decide) (by rw [hk]; decide)
  have hreq : bytesRequired (256 ^ k) = 2 ^ 32 := by
    unfold bytesRequired
    rw [if_neg (by omega), Nat.log_pow (by decide), hk]
    rfl
  unfold RLPStream.appendBigint
  rw [if_neg (by omega), if_neg (by rw [rlp_constants.1]; omega), hreq]
  have hpush : RLPStream.pushInt [UInt8.ofNat (0 + c_rlpDataImmLenStart)] (256 ^ k) 0 =
      .error .abort := by
    unfold RLPStream.pushInt
    simp only [List.replicate_zero, List.append_nil, length_toBigEndian, hreq]
    rw [if_pos (by decide)]
  simp only [Nat.mod_self]
  rw [if_pos (by decide), ok_bind, RLPStream.empty, List.nil_append, hpush]
  rfl

/-- The smallest integer of more bytes than `bigint` is read from is not written. -/
theorem round_trip_fails :
    ¬∃ b, (do (← (RLPTree.leaf (Datum.int (256 ^ bigintMaxSize))).write Datum.append .empty).out) =
        .ok b ∧
      (b.length < maxPayload → (RLPTree.leaf (Datum.int (256 ^ bigintMaxSize))).ReadFrom b) := by
  have hw := appendBigint_overflow (Eq.refl bigintMaxSize)
  generalize 256 ^ bigintMaxSize = n at *
  rintro ⟨b, hb, -⟩
  rw [write, Datum.append, hw] at hb
  cases hb

end RLPTree

end Petrachor
