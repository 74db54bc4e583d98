import Petrachor.RLPCursor

/-!
# Iterators of a list

`begin()` is at the first item of the payload and `end()` behind the last byte of the data. They meet where the payload
ends with the data. Behind the last item of a list that has bytes after it, or of one that is cut short, an iterator
stays where it is.
-/

namespace Petrachor

/-- A `bytesConstRef` into a buffer: where it starts, unless it is null, and its size. -/
structure BytesRef where
  m_data : Option ℕ
  m_count : ℕ
  deriving DecidableEq, Repr

namespace BytesRef

def null : BytesRef := ⟨none, 0⟩

def cropped (b : BytesRef) (i n : ℕ) : BytesRef :=
  match b.m_data with
  | none => null
  | some p => if i ≤ b.m_count ∧ n ≤ b.m_count ∧ i + n ≤ b.m_count then ⟨some (p + i), n⟩ else null

def next (b : BytesRef) : BytesRef :=
  match b.m_data with
  | none => b
  | some p => ⟨some (p + b.m_count), b.m_count⟩

/-- What it refers to in a buffer. -/
def bytes (d : Bytes) (b : BytesRef) : Bytes :=
  match b.m_data with
  | none => []
  | some p => (d.drop p).take b.m_count

end BytesRef

/-- What an RLP object throws. -/
def Exception.IsRLP (e : Exception) : Prop := e = .BadRLP ∨ e = .OversizeRLP ∨ e = .UndersizeRLP

namespace RLP

/-- The data, as a reference. -/
def ref (r : RLP) : BytesRef := ⟨some 0, r.data.length⟩

def payloadRef (r : RLP) : Except Exception BytesRef := do
  let l ← r.length
  if r.data.length < l then .error .BadRLP else .ok (r.ref.cropped r.payloadOffset l)

structure Iterator where
  m_remaining : ℕ
  m_currentItem : BytesRef
  deriving DecidableEq, Repr

/-- `end()`. -/
def endIterator (r : RLP) : Iterator := ⟨0, r.ref.cropped r.data.length 0⟩

/-- `begin()`. -/
def beginIterator (r : RLP) : Except Exception Iterator :=
  if r.isList then do
    let pl ← r.payloadRef
    let m_currentItem := pl.cropped 0 (← sizeAsEncoded (pl.bytes r.data))
    return ⟨pl.m_count - m_currentItem.m_count, m_currentItem⟩
  else .ok r.endIterator

/-- `operator++`. -/
def Iterator.next (d : Bytes) (it : Iterator) : Except Exception Iterator :=
  if it.m_remaining ≠ 0 then do
    let item : BytesRef := ⟨it.m_currentItem.next.m_data, it.m_remaining⟩
    let item := item.cropped 0 (← sizeAsEncoded (item.bytes d))
    return ⟨it.m_remaining - min it.m_remaining item.m_count, item⟩
  else .ok ⟨0, ⟨it.m_currentItem.next.m_data, 0⟩⟩

/-- `operator*`. -/
def Iterator.deref (d : Bytes) (it : Iterator) : Except Exception RLP := ofBytes (it.m_currentItem.bytes d) VeryStrict

/-- What a loop to the end runs through; nothing if it is not there after so many rounds. -/
def iterateFrom (r : RLP) : ℕ → Iterator → Except Exception (Option (List RLP))
  | 0, it => .ok (if it.m_currentItem = r.endIterator.m_currentItem then some [] else none)
  | fuel + 1, it =>
    if it.m_currentItem = r.endIterator.m_currentItem then .ok (some [])
    else do
      let x ← it.deref r.data
      let it ← it.next r.data
      return (← r.iterateFrom fuel it).map (x :: ·)

def iterate (r : RLP) (fuel : ℕ) : Except Exception (Option (List RLP)) := do
  r.iterateFrom fuel (← r.beginIterator)

/-- A loop from `begin()` to `end()` throws, or ends with the items that indexing one object yields. -/
def IteratesItems (r : RLP) : Prop :=
  (∃ fuel e, r.iterate fuel = .error e ∧ e.IsRLP) ∨
    ∃ fuel n xs, r.iterate fuel = .ok (some xs) ∧ r.itemCount = .ok n ∧ r.itemsAt (List.range n) .fresh = .ok xs

/-! ## What is thrown -/

section

variable {r : RLP} {d b : Bytes} {e : Exception} {s : Strictness} {it it' : Iterator} {xs items : List RLP}
  {p q l n o k fuel : ℕ}

theorem isRLP_of_requireGood (h : r.requireGood = .error e) : e.IsRLP := by
  unfold requireGood at h
  split_ifs at h <;> cases h <;> exact .inl rfl

theorem isRLP_of_longLength {lengthSize minimum : ℕ} (h : longLength b lengthSize minimum = .error e) : e.IsRLP := by
  unfold longLength at h
  dsimp only at h
  split_ifs at h <;> cases h
  · exact .inl rfl
  · exact .inl rfl
  · exact .inl rfl
  · exact .inr (.inr rfl)

theorem isRLP_of_length (h : r.length = .error e) : e.IsRLP := by
  unfold length at h
  split at h
  · cases h
  · cases hgood : r.requireGood with
    | error x =>
      rw [hgood, error_bind] at h
      cases h
      exact isRLP_of_requireGood hgood
    | ok u =>
      rw [hgood, ok_bind] at h
      dsimp only at h
      split_ifs at h
      · exact isRLP_of_longLength h
      · exact isRLP_of_longLength h

theorem isRLP_of_actualSize (h : r.actualSize = .error e) : e.IsRLP := by
  unfold actualSize at h
  split_ifs at h
  cases hl : r.length with
  | error x =>
    rw [hl, error_bind] at h
    cases h
    exact isRLP_of_length hl
  | ok n =>
    rw [hl, ok_bind] at h
    cases h

/-- Making an item only measures it. -/
theorem isRLP_of_tooSmall (h : ofBytes d (ThrowOnFail ||| FailIfTooSmall) = .error e) : e.IsRLP := by
  have hf : flag (ThrowOnFail ||| FailIfTooSmall) FailIfTooBig = false := rfl
  have hs : flag (ThrowOnFail ||| FailIfTooSmall) FailIfTooSmall = true := rfl
  have ht : flag (ThrowOnFail ||| FailIfTooSmall) ThrowOnFail = true := rfl
  cases hn : (RLP.mk d).actualSize with
  | error x =>
    unfold ofBytes at h
    simp only [hf, hs, hn, Bool.false_eq_true, if_false, if_true, error_bind] at h
    cases h
    exact isRLP_of_actualSize hn
  | ok n =>
    unfold ofBytes at h
    simp only [hf, hs, ht, hn, Bool.false_eq_true, if_false, pure, Except.pure, ok_bind, if_true, throw, throwThe,
      MonadExceptOf.throw] at h
    split_ifs at h
    cases h
    exact .inr (.inr rfl)

theorem isRLP_of_sizeAsEncoded (h : sizeAsEncoded d = .error e) : e.IsRLP := by
  unfold sizeAsEncoded at h
  cases hr : ofBytes d (ThrowOnFail ||| FailIfTooSmall) with
  | error x =>
    rw [hr, error_bind] at h
    cases h
    exact isRLP_of_tooSmall hr
  | ok r =>
    rw [hr, ok_bind] at h
    exact isRLP_of_actualSize h

theorem isRLP_of_payload (h : r.payload = .error e) : e.IsRLP := by
  unfold payload at h
  cases hl : r.length with
  | error x =>
    rw [hl, error_bind] at h
    cases h
    exact isRLP_of_length hl
  | ok n =>
    rw [hl, ok_bind] at h
    split_ifs at h
    cases h
    exact .inl rfl

/-! ## Rounds of the loop -/

/-- The loop goes from one iterator to another, over these items. -/
inductive Rounds (r : RLP) : Iterator → List RLP → Iterator → Prop
  | nil (it : Iterator) : Rounds r it [] it
  | cons {it it₁ it' : Iterator} {x : RLP} {xs : List RLP} (ne : it.m_currentItem ≠ r.endIterator.m_currentItem)
    (deref : it.deref r.data = .ok x) (next : it.next r.data = .ok it₁) (rounds : Rounds r it₁ xs it') :
    Rounds r it (x :: xs) it'

theorem Rounds.iterateFrom (h : Rounds r it xs it') (fuel : ℕ) :
    r.iterateFrom (xs.length + fuel) it = do return (← r.iterateFrom fuel it').map (xs ++ ·) := by
  induction h with
  | nil it =>
    rw [List.length_nil, Nat.zero_add]
    cases r.iterateFrom fuel it with
    | error e => rfl
    | ok o => cases o <;> rfl
  | cons ne deref next rounds ih =>
    rename_i it it₁ it' x xs
    have hfuel : (x :: xs).length + fuel = (xs.length + fuel) + 1 := by
      rw [List.length_cons]
      omega
    rw [hfuel, RLP.iterateFrom, if_neg ne, deref, ok_bind, next, ok_bind, ih]
    cases r.iterateFrom fuel it' with
    | error e => rfl
    | ok o => cases o <;> rfl

/-- A loop that goes on for ever from somewhere goes on for ever from where it came from. -/
theorem Rounds.never (h : Rounds r it xs it') (hnever : ∀ fuel, r.iterateFrom fuel it' = .ok none) (fuel : ℕ) :
    r.iterateFrom fuel it = .ok none := by
  induction h generalizing fuel with
  | nil it => exact hnever fuel
  | cons ne deref next rounds ih =>
    cases fuel with
    | zero => rw [RLP.iterateFrom, if_neg ne]
    | succ fuel =>
      rw [RLP.iterateFrom, if_neg ne, deref, ok_bind, next, ok_bind, ih hnever]
      rfl

theorem ofBytes_nil (s : Strictness) : ofBytes [] s = .ok ⟨[]⟩ := by
  unfold ofBytes
  cases flag s FailIfTooBig <;> cases flag s FailIfTooSmall <;> rfl

/-- An iterator with nothing left stays where it is. -/
theorem iterateFrom_stuck {o : Option ℕ} (hne : (⟨o, 0⟩ : BytesRef) ≠ r.endIterator.m_currentItem) (fuel : ℕ) :
    r.iterateFrom fuel ⟨0, ⟨o, 0⟩⟩ = .ok none := by
  induction fuel with
  | zero => exact congrArg Except.ok (if_neg hne)
  | succ fuel ih =>
    have hbytes : (⟨o, 0⟩ : BytesRef).bytes r.data = [] := by
      cases o with
      | none => rfl
      | some p => exact List.take_zero (l := r.data.drop p)
    have hderef : Iterator.deref r.data ⟨0, ⟨o, 0⟩⟩ = .ok ⟨[]⟩ := by
      show ofBytes ((⟨o, 0⟩ : BytesRef).bytes r.data) VeryStrict = _
      rw [hbytes, ofBytes_nil]
    have hnext : Iterator.next r.data ⟨0, ⟨o, 0⟩⟩ = .ok ⟨0, ⟨o, 0⟩⟩ := by
      cases o <;> rfl
    rw [iterateFrom, if_neg hne, hderef, ok_bind, hnext, ok_bind, ih]
    rfl

theorem endIterator_eq (r : RLP) : r.endIterator.m_currentItem = ⟨some r.data.length, 0⟩ := by
  have hcrop : r.ref.cropped r.data.length 0 = ⟨some (0 + r.data.length), 0⟩ :=
    if_pos ⟨le_rfl, Nat.zero_le _, le_rfl⟩
  rw [Nat.zero_add] at hcrop
  exact hcrop

/-! ## The walk through a payload -/

/-- The iterator is at an item of `n` bytes from `o` on, with `k` bytes of the payload behind it. -/
def atItem (o n k : ℕ) : Iterator := ⟨k, ⟨some o, n⟩⟩

theorem atItem_ne_end (hn : 0 < n) : (atItem o n k).m_currentItem ≠ r.endIterator.m_currentItem := by
  rw [endIterator_eq]
  intro h
  have hcount : n = 0 := congrArg BytesRef.m_count h
  omega

/-- One step on: what is measured of the rest becomes the item, and behind the last item the iterator is at the end of
the payload. -/
theorem next_at (hk : k ≠ 0) : (atItem o n k).next d = do
    let m ← sizeAsEncoded ((d.drop (o + n)).take k)
    return ⟨k - min k ((⟨some (o + n), k⟩ : BytesRef).cropped 0 m).m_count,
      (⟨some (o + n), k⟩ : BytesRef).cropped 0 m⟩ := if_pos hk

theorem next_atItem_zero : (atItem o n 0).next d = .ok (atItem (o + n) 0 0) := if_neg (not_not.2 rfl)

theorem next_at_of_size {m : ℕ} (hk : k ≠ 0) (hm : sizeAsEncoded ((d.drop (o + n)).take k) = .ok m) (hle : m ≤ k) :
    (atItem o n k).next d = .ok (atItem (o + n) m (k - m)) := by
  have hcrop : (⟨some (o + n), k⟩ : BytesRef).cropped 0 m = ⟨some (o + n), m⟩ :=
    if_pos ⟨Nat.zero_le _, hle, by rwa [Nat.zero_add]⟩
  rw [next_at hk, hm, ok_bind, hcrop, min_eq_right hle]
  rfl

/-- What was measured at the front of the rest is an item. -/
theorem deref_at {m : ℕ} (hm : sizeAsEncoded ((d.drop o).take k) = .ok m) (hle : m ≤ k) :
    (atItem o m l).deref d = .ok ⟨((d.drop o).take k).take m⟩ := by
  have hbytes : (⟨some o, m⟩ : BytesRef).bytes d = ((d.drop o).take k).take m := by
    rw [List.take_take, min_eq_left hle]
    rfl
  show ofBytes ((⟨some o, m⟩ : BytesRef).bytes d) VeryStrict = _
  rw [hbytes, ← cropped_of_size hm]
  exact ofBytes_of_size hm VeryStrict

/-- From an item the loop goes through those that the rest of the payload splits into, or up to the one that is not
well formed. -/
theorem rounds_of_split (fuel : ℕ) {x : RLP} (hn : 0 < n) (hlen : o + n + k ≤ r.data.length)
    (hfuel : k ≤ fuel) (hx : (atItem o n k).deref r.data = .ok x) :
    (∀ rest, split fuel ((r.data.drop (o + n)).take k) = .ok rest →
      Rounds r (atItem o n k) (x :: rest.map RLP.mk) (atItem (o + n + k) 0 0)) ∧
    ∀ e, split fuel ((r.data.drop (o + n)).take k) = .error e →
      ∃ xs it, Rounds r (atItem o n k) xs it ∧ it.m_currentItem ≠ r.endIterator.m_currentItem ∧
        (∃ y, it.deref r.data = .ok y) ∧ it.next r.data = .error e ∧ e.IsRLP := by
  induction fuel generalizing o n k x with
  | zero =>
    obtain rfl : k = 0 := by omega
    rw [List.take_zero, split]
    constructor
    · intro rest hrest
      cases hrest
      exact .cons (atItem_ne_end hn) hx next_atItem_zero (.nil _)
    · intro e he
      cases he
  | succ fuel ih =>
    by_cases hk : k = 0
    · subst hk
      rw [List.take_zero, split]
      constructor
      · intro rest hrest
        cases hrest
        exact .cons (atItem_ne_end hn) hx next_atItem_zero (.nil _)
      · intro e he
        cases he
    · have hlength : ((r.data.drop (o + n)).take k).length = k := by
        rw [List.length_take, List.length_drop]
        omega
      have hne : (r.data.drop (o + n)).take k ≠ [] := by
        intro h0
        rw [h0] at hlength
        exact hk hlength.symm
      rw [split.eq_3 _ _ hne]
      cases hm : sizeAsEncoded ((r.data.drop (o + n)).take k) with
      | error y =>
        rw [error_bind]
        constructor
        · intro rest hrest
          cases hrest
        · intro e he
          cases he
          refine ⟨[], _, .nil _, atItem_ne_end hn, ⟨x, hx⟩, ?_, isRLP_of_sizeAsEncoded hm⟩
          rw [next_at hk, hm, error_bind]
      | ok m =>
        obtain ⟨hsize, hle⟩ := sizeAsEncoded_eq_ok hm
        have hpos := actualSize_pos hne hsize
        rw [hlength] at hle
        have hrest : ((r.data.drop (o + n)).take k).drop m = (r.data.drop (o + n + m)).take (k - m) := by
          rw [List.drop_take, List.drop_drop]
        have hend : o + n + m + (k - m) = o + n + k := by omega
        obtain ⟨hok, herror⟩ := ih hpos (by omega) (by omega) (deref_at (l := k - m) hm hle)
        rw [ok_bind, hrest]
        rw [hend] at hok
        constructor
        · intro rest hall
          rw [bind_eq_ok] at hall
          obtain ⟨tail, htail, hall⟩ := hall
          cases hall
          exact .cons (atItem_ne_end hn) hx (next_at_of_size hk hm hle) (hok tail htail)
        · intro e he
          cases htail : split fuel ((r.data.drop (o + n + m)).take (k - m)) with
          | ok tail =>
            rw [htail, ok_bind] at he
            cases he
          | error y =>
            rw [htail, error_bind] at he
            cases he
            obtain ⟨xs, it, hrounds, hrest⟩ := herror _ htail
            exact ⟨_, it, .cons (atItem_ne_end hn) hx (next_at_of_size hk hm hle) hrounds, hrest⟩

/-! ## From the first item to the end -/

theorem isSingleByte_of_isList (h : r.isList = true) : r.isSingleByte = false := by
  unfold isList at h
  unfold isSingleByte
  rw [Bool.and_eq_true, decide_eq_true_eq] at h
  rw [h.1, Bool.true_and, decide_eq_false_iff_not]
  have hle : c_rlpDataImmLenStart ≤ c_rlpListStart := by decide
  omega

theorem actualSize_of_isList (h : r.isList = true) (hl : r.length = .ok l) :
    r.actualSize = .ok (r.payloadOffset + l) := by
  have hnull : r.isNull = false := by
    unfold isList at h
    rw [Bool.and_eq_true, Bool.not_eq_true'] at h
    exact h.1
  rw [actualSize, hnull, isSingleByte_of_isList h, hl]
  rfl

theorem payloadRef_of_error (h : r.payload = .error e) : r.payloadRef = .error e := by
  unfold payload at h
  unfold payloadRef
  cases hl : r.length with
  | error x =>
    rw [hl, error_bind] at h
    rw [error_bind]
    cases h
    rfl
  | ok n =>
    rw [hl, ok_bind] at h
    rw [ok_bind]
    split_ifs at h ⊢
    cases h
    rfl

/-- The payload of an item that is all there. -/
theorem payloadRef_of_le (hl : r.length = .ok l) (hle : r.payloadOffset + l ≤ r.data.length) :
    r.payloadRef = .ok ⟨some r.payloadOffset, l⟩ ∧ r.payload = .ok ((r.data.drop r.payloadOffset).take l) := by
  have hnot : ¬r.data.length < l := by omega
  have href : r.ref.cropped r.payloadOffset l = ⟨some (0 + r.payloadOffset), l⟩ :=
    if_pos ⟨by show r.payloadOffset ≤ r.data.length; omega, by show l ≤ r.data.length; omega, hle⟩
  rw [Nat.zero_add] at href
  have hbytes : cropped r.data r.payloadOffset l = (r.data.drop r.payloadOffset).take l :=
    if_pos ⟨by omega, by omega, hle⟩
  rw [payloadRef, payload, hl, ok_bind, ok_bind, if_neg hnot, if_neg hnot, href, hbytes]
  exact ⟨rfl, rfl⟩

/-- There is none of an item that is cut short. -/
theorem payloadRef_of_lt (hl : r.length = .ok l) (hle : l ≤ r.data.length) (hlt : r.data.length < r.payloadOffset + l) :
    r.payloadRef = .ok .null ∧ r.payload = .ok [] := by
  have hnot : ¬r.data.length < l := by omega
  have href : r.ref.cropped r.payloadOffset l = .null := by
    refine if_neg ?_
    rintro ⟨-, -, h⟩
    exact absurd h (not_le.2 hlt)
  have hbytes : Petrachor.cropped r.data r.payloadOffset l = [] := by
    refine if_neg ?_
    rintro ⟨-, -, h⟩
    exact absurd h (not_le.2 hlt)
  rw [payloadRef, payload, hl, ok_bind, ok_bind, if_neg hnot, if_neg hnot, href, hbytes]
  exact ⟨rfl, rfl⟩

/-- A payload without items: the iterator is at its end. -/
theorem beginIterator_of_empty {o : Option ℕ} (h : r.isList = true) (hp : r.payloadRef = .ok ⟨o, 0⟩) :
    r.beginIterator = .ok ⟨0, ⟨o, 0⟩⟩ := by
  have hbytes : (⟨o, 0⟩ : BytesRef).bytes r.data = [] := by
    cases o with
    | none => rfl
    | some p => exact List.take_zero (l := r.data.drop p)
  have hcrop : (⟨o, 0⟩ : BytesRef).cropped 0 0 = ⟨o, 0⟩ := by
    cases o <;> rfl
  rw [beginIterator, if_pos h, hp, ok_bind, hbytes, sizeAsEncoded_nil, ok_bind, hcrop]
  rfl

theorem iterate_eq (h : r.beginIterator = .ok it) (fuel : ℕ) : r.iterate fuel = r.iterateFrom fuel it := by
  rw [iterate, h, ok_bind]

/-- A loop that never ends and never throws yields no items. -/
theorem not_iteratesItems (h : ∀ fuel, r.iterate fuel = .ok none) : ¬r.IteratesItems := by
  rintro (⟨fuel, e, he, -⟩ | ⟨fuel, n, xs, hxs, -⟩)
  · rw [h] at he
    cases he
  · rw [h] at hxs
    cases hxs

/-- The items of a payload, as indexing finds them. -/
theorem itemsAt_of_split {items : List Bytes} (hp : r.payload = .ok d) (h : split d.length d = .ok items) :
    r.itemsAt (List.range items.length) .fresh = .ok (items.map RLP.mk) := by
  have hs := splits_of_split h
  have hitems := (items_of_split h).1
  have hlen : items.length < 2 ^ 64 := by
    have hle := hs.length_le
    have hlt := payload_length_lt hp
    unfold npos at hlt
    omega
  rw [itemsAt_eq hp hs hlen _ _ (.inl rfl) fun i hi => List.mem_range.1 hi]
  have hmap : (List.range items.length).map (fun i => RLP.mk (items.getD i [])) = items.map RLP.mk := by
    conv_rhs => rw [← getD_range_map items, List.map_map]
    rfl
  rw [← hmap]
  apply mapM_eq_ok
  intro i hi
  have hlt := List.mem_range.1 hi
  obtain ⟨q, hq⟩ := hitems _ (List.getElem_mem hlt)
  rw [List.getD_eq_getElem _ _ hlt, hq.ofBytes]

theorem beginIterator_of_size (h : r.isList = true) (hp : r.payloadRef = .ok ⟨some o, l⟩)
    (hn : sizeAsEncoded ((r.data.drop o).take l) = .ok n) (hle : n ≤ l) :
    r.beginIterator = .ok (atItem o n (l - n)) := by
  have hcrop : (⟨some o, l⟩ : BytesRef).cropped 0 n = ⟨some (o + 0), n⟩ :=
    if_pos ⟨Nat.zero_le _, hle, by rwa [Nat.zero_add]⟩
  rw [Nat.add_zero] at hcrop
  have hbytes : (⟨some o, l⟩ : BytesRef).bytes r.data = (r.data.drop o).take l := rfl
  rw [beginIterator, if_pos h, hp, ok_bind, hbytes, hn, ok_bind, hcrop]
  rfl

/-- A loop over a payload that is all there goes through what the payload splits into, or throws what is thrown
there. -/
theorem iterate_of_split (h : r.isList = true) (hl : r.length = .ok l)
    (hle : r.payloadOffset + l ≤ r.data.length) (hp : r.payload = .ok d) :
    (∀ items, split d.length d = .ok items → ∃ it, r.beginIterator = .ok it ∧
      Rounds r it (items.map RLP.mk) (atItem (r.payloadOffset + l) 0 0)) ∧
    ∀ e, split d.length d = .error e → ∃ fuel, r.iterate fuel = .error e ∧ e.IsRLP := by
  obtain ⟨href, hd⟩ := payloadRef_of_le hl hle
  rw [hp, Except.ok.injEq] at hd
  have hlen : d.length = l := by
    rw [hd, List.length_take, List.length_drop]
    omega
  by_cases h0 : l = 0
  · subst h0
    rw [List.length_eq_zero_iff.1 hlen, split]
    constructor
    · intro items hitems
      cases hitems
      exact ⟨_, beginIterator_of_empty h href, .nil _⟩
    · intro e he
      cases he
  · have hne : d ≠ [] := by
      intro hnil
      rw [hnil] at hlen
      exact h0 hlen.symm
    obtain ⟨k, hk⟩ := Nat.exists_eq_add_of_lt (Nat.pos_of_ne_zero h0)
    rw [hlen, hk, Nat.zero_add, split.eq_3 _ _ hne]
    cases hn : sizeAsEncoded d with
    | error y =>
      rw [error_bind]
      constructor
      · intro items hitems
        cases hitems
      · intro e he
        cases he
        refine ⟨0, ?_, isRLP_of_sizeAsEncoded hn⟩
        have hbytes : (⟨some r.payloadOffset, l⟩ : BytesRef).bytes r.data = d := hd.symm
        rw [iterate, beginIterator, if_pos h, href, ok_bind, hbytes, hn]
        rfl
    | ok n =>
      obtain ⟨hsize, hnle⟩ := sizeAsEncoded_eq_ok hn
      have hpos := actualSize_pos hne hsize
      rw [hlen] at hnle
      have hn' := hn
      rw [hd] at hn'
      have hbegin := beginIterator_of_size h href hn' hnle
      have hderef := deref_at (l := l - n) hn' hnle
      have hrest : d.drop n = (r.data.drop (r.payloadOffset + n)).take (l - n) := by
        rw [hd, List.drop_take, List.drop_drop]
      have hend : r.payloadOffset + n + (l - n) = r.payloadOffset + l := by omega
      obtain ⟨hok, herror⟩ := rounds_of_split k hpos (by omega) (by omega) hderef
      rw [hend] at hok
      rw [ok_bind, hrest]
      constructor
      · intro items hitems
        rw [bind_eq_ok] at hitems
        obtain ⟨rest, hsplit, hitems⟩ := hitems
        cases hitems
        refine ⟨_, hbegin, ?_⟩
        rw [List.map_cons, hd, ← Nat.zero_add (k + 1), ← Nat.add_assoc 0, ← hk]
        exact hok rest hsplit
      · intro e he
        cases hsplit : split k ((r.data.drop (r.payloadOffset + n)).take (l - n)) with
        | ok rest =>
          rw [hsplit, ok_bind] at he
          cases he
        | error y =>
          rw [hsplit, error_bind] at he
          cases he
          obtain ⟨xs, it, hrounds, hne, ⟨z, hz⟩, hnext, hrlp⟩ := herror _ hsplit
          refine ⟨xs.length + 1, ?_, hrlp⟩
          rw [iterate_eq hbegin, hrounds.iterateFrom, iterateFrom, if_neg hne, hz, ok_bind, hnext]
          rfl

/-- A constructor that throws nothing keeps the data, or drops all of it. -/
theorem data_of_ofBytes (h : ofBytes d s = .ok r) (hlist : r.isList = true) : r.data = d := by
  have hcases : r = ⟨d⟩ ∨ r = ⟨[]⟩ := by
    have hnull : (RLP.mk []).actualSize = .ok 0 := rfl
    unfold ofBytes at h
    generalize flag s FailIfTooBig = big at h
    generalize flag s FailIfTooSmall = small at h
    generalize flag s ThrowOnFail = throws at h
    cases hsize : (RLP.mk d).actualSize with
    | error e =>
      cases big <;> cases small <;> simp [hsize, pure, Except.pure] at h
      exact .inl h.symm
    | ok n =>
      cases big <;> cases small <;> cases throws <;>
        simp [hsize, hnull, pure, Except.pure, throw, throwThe, MonadExceptOf.throw] at h <;>
        first | exact .inl h.symm | (split_ifs at h <;> simp_all)
  rcases hcases with rfl | rfl
  · rfl
  · cases hlist

/-- Where the count does not throw, the loop ends if the item fills the data. -/
theorem iteratesItems_of_count (h : r.isList = true) (hn : r.itemCount = .ok n) :
    r.IteratesItems ↔ r.actualSize = .ok r.data.length := by
  rw [itemCount, if_pos h, bind_eq_ok] at hn
  obtain ⟨d, hd, hn⟩ := hn
  rw [bind_eq_ok] at hn
  obtain ⟨items, hsplit, hn⟩ := hn
  have hcount : items.length = n := Except.ok.inj hn
  cases hl : r.length with
  | error e =>
    rw [payload, hl] at hd
    cases hd
  | ok l =>
    have hsize := actualSize_of_isList h hl
    by_cases hle : r.payloadOffset + l ≤ r.data.length
    · obtain ⟨it, hbegin, hrounds⟩ := (iterate_of_split h hl hle hd).1 items hsplit
      by_cases hend : r.payloadOffset + l = r.data.length
      · refine iff_of_true (.inr ⟨items.length, n, items.map RLP.mk, ?_, ?_, ?_⟩) (hend ▸ hsize)
        · have hdone : r.iterateFrom 0 (atItem (r.payloadOffset + l) 0 0) = .ok (some []) := by
            rw [hend]
            exact congrArg Except.ok (if_pos r.endIterator_eq.symm)
          have hrun := hrounds.iterateFrom 0
          rw [List.length_map, Nat.add_zero, hdone, ok_bind] at hrun
          rw [iterate_eq hbegin, hrun]
          show Except.ok (some (items.map RLP.mk ++ [])) = _
          rw [List.append_nil]
        · rw [itemCount, if_pos h, hd, ok_bind, hsplit]
          exact congrArg Except.ok hcount
        · rw [← hcount]
          exact itemsAt_of_split hd hsplit
      · refine iff_of_false (not_iteratesItems fun fuel => ?_) ?_
        · rw [iterate_eq hbegin]
          refine hrounds.never (fun fuel => iterateFrom_stuck ?_ fuel) fuel
          rw [endIterator_eq]
          intro heq
          exact hend (Option.some.inj (congrArg BytesRef.m_data heq))
        · rw [hsize, Except.ok.injEq]
          exact hend
    · -- an item that is cut short has no payload, and the loop starts at no byte at all
      have hll : l ≤ r.data.length := by
        rw [payload, hl, ok_bind] at hd
        split_ifs at hd with hlt
        exact not_lt.1 hlt
      obtain ⟨href, -⟩ := payloadRef_of_lt hl hll (not_le.1 hle)
      refine iff_of_false (not_iteratesItems fun fuel => ?_) ?_
      · rw [iterate_eq (beginIterator_of_empty h href)]
        refine iterateFrom_stuck ?_ fuel
        rw [endIterator_eq]
        intro heq
        cases congrArg BytesRef.m_data heq
      · rw [hsize, Except.ok.injEq]
        omega

/-- Where the count throws, the loop does. -/
theorem iteratesItems_of_error (h : r.isList = true) (hn : r.itemCount = .error e) : r.IteratesItems := by
  rw [itemCount, if_pos h] at hn
  cases hd : r.payload with
  | error x =>
    refine .inl ⟨0, x, ?_, isRLP_of_payload hd⟩
    rw [iterate, beginIterator, if_pos h, payloadRef_of_error hd]
    rfl
  | ok d =>
    rw [hd, ok_bind] at hn
    cases hsplit : split d.length d with
    | ok items =>
      rw [hsplit, ok_bind] at hn
      cases hn
    | error x =>
      cases hl : r.length with
      | error y =>
        rw [payload, hl] at hd
        cases hd
      | ok l =>
        by_cases hle : r.payloadOffset + l ≤ r.data.length
        · obtain ⟨fuel, hfuel, hrlp⟩ := (iterate_of_split h hl hle hd).2 x hsplit
          exact .inl ⟨fuel, x, hfuel, hrlp⟩
        · have hll : l ≤ r.data.length := by
            rw [payload, hl, ok_bind] at hd
            split_ifs at hd with hlt
            exact not_lt.1 hlt
          rw [(payloadRef_of_lt hl hll (not_le.1 hle)).2, Except.ok.injEq] at hd
          rw [← hd, split] at hsplit
          cases hsplit

end

/-- A loop over a list that a constructor accepts throws or yields what indexing yields, if the count throws or the
list is all of the data. -/
theorem iteratesItems_iff {d : Bytes} {s : Strictness} {r : RLP} (h : ofBytes d s = .ok r) (hlist : r.isList = true) :
    r.IteratesItems ↔ (∃ e, r.itemCount = .error e) ∨ r.actualSize = .ok d.length := by
  have hdata : r.data = d := data_of_ofBytes h hlist
  cases hn : r.itemCount with
  | error e => exact iff_of_true (iteratesItems_of_error hlist hn) (.inl ⟨e, rfl⟩)
  | ok n =>
    rw [iteratesItems_of_count hlist hn, hdata]
    refine ⟨.inr, ?_⟩
    rintro (⟨e, he⟩ | hsize)
    · cases he
    · exact hsize

theorem iteratesItems_pair : (RLP.mk [0xc2, 0x01, 0x02]).IteratesItems := by
  have hread : ofBytes [0xc2, 0x01, 0x02] VeryStrict = .ok ⟨[0xc2, 0x01, 0x02]⟩ := by decide
  exact (iteratesItems_iff hread (by decide)).2 (.inr (by decide))

/-- The loop goes past the item of a list that a byte follows, and never gets to one that is cut short. -/
theorem iteration_goes_on : (ofBytes [0xc1, 0x05, 0x00] LaissezFaire = .ok ⟨[0xc1, 0x05, 0x00]⟩ ∧
      ¬(RLP.mk [0xc1, 0x05, 0x00]).IteratesItems) ∧
    ofBytes [0xc2, 0x05] LaissezFaire = .ok ⟨[0xc2, 0x05]⟩ ∧ ¬(RLP.mk [0xc2, 0x05]).IteratesItems := by
  refine ⟨⟨rfl, ?_⟩, rfl, ?_⟩
  · rw [iteratesItems_of_count rfl (show (RLP.mk [0xc1, 0x05, 0x00]).itemCount = .ok 1 from rfl)]
    decide
  · rw [iteratesItems_of_count rfl (show (RLP.mk [0xc2, 0x05]).itemCount = .ok 0 from rfl)]
    decide

end RLP

end Petrachor
