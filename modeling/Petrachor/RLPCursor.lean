import Petrachor.RLPStrict

/-!
# Reading items in any order

`operator[]` goes on from the item it read last, or from the first one if that is behind the item it is asked for.
A call that throws keeps what it had done so far: the rest of the payload stands in place of an item, under
the index of the item before it.
-/

namespace Petrachor

namespace RLP

/-- `(size_t)-1`. -/
def npos : ℕ := 2 ^ 64 - 1

/-! ## One object -/

/-- The loop of `operator[]`, with the cursor that it leaves, also when it throws. -/
def walk (r : RLP) : ℕ → Cursor → Except Exception Unit × Cursor
  | 0, c => (.ok (), c)
  | steps + 1, c =>
    if c.m_lastItem.length = 0 then (.ok (), c)
    else match r.payload with
      | .error x => (.error x, c)
      | .ok p =>
        -- `m_lastItem` is the rest of the payload until its size is known
        let rest := p.drop c.m_lastEnd
        match sizeAsEncoded rest with
        | .error x => (.error x, { c with m_lastItem := rest })
        | .ok n =>
          walk r steps ⟨c.m_lastIndex + 1, c.m_lastEnd + (cropped rest 0 n).length, cropped rest 0 n⟩

/-- `operator[]`. -/
def access (r : RLP) (c : Cursor) (i : ℕ) : Except Exception RLP × Cursor :=
  let first : Except Exception Cursor :=
    if i < c.m_lastIndex then do
      let p ← r.payload
      let lastEnd ← sizeAsEncoded p
      return ⟨0, lastEnd, cropped p 0 lastEnd⟩
    else .ok c
  match first with
  | .error x => (.error x, c)
  | .ok c =>
    match r.walk (i - c.m_lastIndex) c with
    | (.error x, c) => (.error x, c)
    | (.ok (), c) => (ofBytes c.m_lastItem (ThrowOnFail ||| FailIfTooSmall), c)

/-- What one object returns or throws for these indexes, one after the other. -/
def accesses (r : RLP) : List ℕ → Cursor → List (Except Exception RLP)
  | [], _ => []
  | i :: is, c => (r.access c i).1 :: r.accesses is (r.access c i).2

/-- What returns leaves the cursor where a call that throws nothing leaves it. -/
theorem advance_eq_walk (r : RLP) : ∀ (n : ℕ) (c : Cursor), r.advance n c = (r.walk n c).1.map fun _ => (r.walk n c).2
  | 0, _ => rfl
  | n + 1, c => by
    rw [advance, walk]
    split
    · rfl
    · cases r.payload with
      | error x => rfl
      | ok p =>
        rw [ok_bind]
        simp only
        cases sizeAsEncoded (p.drop c.m_lastEnd) with
        | error x => rfl
        | ok l => exact advance_eq_walk r n _

theorem item_eq_access (r : RLP) (c : Cursor) (i : ℕ) :
    r.item c i = (r.access c i).1.map fun x => (x, (r.access c i).2) := by
  rw [item, access]
  cases (if i < c.m_lastIndex then do
      let p ← r.payload
      let lastEnd ← sizeAsEncoded p
      return ⟨0, lastEnd, cropped p 0 lastEnd⟩
    else .ok c : Except Exception Cursor) with
  | error x => rfl
  | ok c =>
    rw [ok_bind, advance_eq_walk]
    cases hw : r.walk (i - c.m_lastIndex) c with
    | mk res c' =>
      cases res with
      | error x => simp only [hw]; rfl
      | ok u =>
        simp only [hw]
        show (do return (← ofBytes c'.m_lastItem (ThrowOnFail ||| FailIfTooSmall), c')) = _
        cases ofBytes c'.m_lastItem (ThrowOnFail ||| FailIfTooSmall) with
        | error x => rfl
        | ok y => rfl

/-! ## The items -/

/-- The end of an item of a payload, and the item; behind the last one everything is empty. -/
def itemAt (p : Bytes) : ℕ → Except Exception (ℕ × Bytes)
  | 0 => do
    let n ← sizeAsEncoded p
    return (n, cropped p 0 n)
  | i + 1 => do
    let x ← itemAt p i
    if x.2.length = 0 then return x
    else do
      let n ← sizeAsEncoded (p.drop x.1)
      return (x.1 + (cropped (p.drop x.1) 0 n).length, cropped (p.drop x.1) 0 n)

/-- The items before the `m`-th are well formed, and that is not; there is one before it. -/
def BreaksOff (r : RLP) (m : ℕ) : Prop :=
  ∃ p, r.payload = .ok p ∧ ∃ k, m = k + 1 ∧ (∃ x, itemAt p k = .ok x) ∧ ∃ x, itemAt p m = .error x

/-- What `operator[]` returns of a fresh object, for an index that it can count up to. -/
def itemOf (r : RLP) (i : ℕ) : Except Exception RLP := do
  let p ← r.payload
  let x ← itemAt p i
  ofBytes x.2 (ThrowOnFail ||| FailIfTooSmall)

/-! ## Items of a payload -/

section

variable {p d : Bytes} {n i j e : ℕ} {item : Bytes} {x : Exception}

theorem sizeAsEncoded_nil : sizeAsEncoded [] = .ok 0 := rfl

theorem cropped_of_size (h : sizeAsEncoded d = .ok n) : cropped d 0 n = d.take n := by
  have hle := (sizeAsEncoded_eq_ok h).2
  rw [cropped, if_pos ⟨Nat.zero_le _, hle, by rwa [Nat.zero_add]⟩, List.drop_zero]

/-- What was measured can be made an item of. -/
theorem ofBytes_of_size (h : sizeAsEncoded d = .ok n) (s : Strictness) :
    ofBytes (cropped d 0 n) s = .ok ⟨cropped d 0 n⟩ := by
  rw [cropped_of_size h]
  rcases eq_or_ne d [] with rfl | hne
  · rw [List.take_nil]
    simp [ofBytes, actualSize, isNull, pure, Except.pure]
  · obtain ⟨q, hq⟩ := isItem_take hne h
    exact hq.ofBytes s

/-- What cannot be measured cannot be made an item of. -/
theorem ofBytes_of_error (h : sizeAsEncoded d = .error x) :
    ∃ y, ofBytes d (ThrowOnFail ||| FailIfTooSmall) = .error y := by
  cases hr : ofBytes d (ThrowOnFail ||| FailIfTooSmall) with
  | error y => exact ⟨y, rfl⟩
  | ok r =>
    obtain ⟨rfl, n, -, hn⟩ := ofBytes_tooSmall hr
    rw [sizeAsEncoded, hr, ok_bind, hn] at h
    cases h

theorem itemAt_succ (h : itemAt p i = .ok (e, item)) : itemAt p (i + 1) =
    if item.length = 0 then .ok (e, item) else do
      let n ← sizeAsEncoded (p.drop e)
      return (e + (cropped (p.drop e) 0 n).length, cropped (p.drop e) 0 n) := by
  rw [itemAt, h, ok_bind]
  rfl

theorem itemAt_error_of_le (h : itemAt p i = .error x) (hij : i ≤ j) : itemAt p j = .error x := by
  induction j, hij using Nat.le_induction with
  | base => exact h
  | succ j _ ih => rw [itemAt, ih, error_bind]

theorem itemAt_ok_of_le {y : ℕ × Bytes} (h : itemAt p j = .ok y) (hij : i ≤ j) : ∃ y, itemAt p i = .ok y := by
  cases hi : itemAt p i with
  | ok y => exact ⟨y, rfl⟩
  | error x =>
    rw [itemAt_error_of_le hi hij] at h
    cases h

/-- Behind an empty item there is nothing. -/
theorem itemAt_of_empty (h : itemAt p i = .ok (e, item)) (hitem : item.length = 0) (hij : i ≤ j) :
    itemAt p j = .ok (e, item) := by
  induction j, hij using Nat.le_induction with
  | base => exact h
  | succ j _ ih => rw [itemAt_succ ih, if_pos hitem]

/-- An item that was reached can be made an item of. -/
theorem ofBytes_itemAt : ∀ {i : ℕ} {e : ℕ} {item : Bytes}, itemAt p i = .ok (e, item) → ∀ s, ofBytes item s = .ok ⟨item⟩
  | 0, e, item, h, s => by
    rw [itemAt, bind_eq_ok] at h
    obtain ⟨n, hn, h⟩ := h
    cases h
    exact ofBytes_of_size hn s
  | i + 1, e, item, h, s => by
    obtain ⟨⟨e', item'⟩, h'⟩ := itemAt_ok_of_le h (Nat.le_succ i)
    rw [itemAt_succ h'] at h
    split at h
    · cases h
      exact ofBytes_itemAt h' s
    · rw [bind_eq_ok] at h
      obtain ⟨n, hn, h⟩ := h
      cases h
      exact ofBytes_of_size hn s

/-- Every item that is not empty takes a byte of the payload. -/
theorem lt_of_itemAt : ∀ {i : ℕ} {e : ℕ} {item : Bytes}, itemAt p i = .ok (e, item) →
    e ≤ p.length ∧ (item.length ≠ 0 → i < e)
  | 0, e, item, h => by
    rw [itemAt, bind_eq_ok] at h
    obtain ⟨n, hn, h⟩ := h
    cases h
    have hle := (sizeAsEncoded_eq_ok hn).2
    refine ⟨hle, fun hitem => ?_⟩
    rw [cropped_of_size hn, List.length_take_of_le hle] at hitem
    exact Nat.pos_of_ne_zero hitem
  | i + 1, e, item, h => by
    obtain ⟨⟨e', item'⟩, h'⟩ := itemAt_ok_of_le h (Nat.le_succ i)
    obtain ⟨hle', hlt'⟩ := lt_of_itemAt h'
    rw [itemAt_succ h'] at h
    split at h
    · rename_i hempty
      cases h
      exact ⟨hle', fun hitem => absurd hempty hitem⟩
    · rename_i hne
      rw [bind_eq_ok] at h
      obtain ⟨n, hn, h⟩ := h
      cases h
      have hle := (sizeAsEncoded_eq_ok hn).2
      rw [cropped_of_size hn, List.length_take_of_le hle]
      rw [List.length_drop] at hle
      have := hlt' hne
      exact ⟨by omega, fun _ => by omega⟩

theorem payload_length_lt {r : RLP} (h : r.payload = .ok p) : p.length < npos := by
  unfold payload at h
  rw [bind_eq_ok] at h
  obtain ⟨l, hl, h⟩ := h
  split at h
  · cases h
  · cases h
    have hlt := length_lt_maxPayload hl
    have hlen : (cropped r.data r.payloadOffset l).length ≤ l := by
      unfold cropped
      split
      · exact List.length_take_le _ _
      · exact Nat.zero_le _
    unfold maxPayload at hlt
    unfold npos
    omega

end

/-! ## The cursor -/

/-- The cursor stands on an item. -/
def Reached (p : Bytes) (c : Cursor) : Prop := itemAt p c.m_lastIndex = .ok (c.m_lastEnd, c.m_lastItem)

/-- The cursor stands before the item that is not well formed, with what is left of the payload. -/
def Stuck (p : Bytes) (c : Cursor) : Prop :=
  c.m_lastItem = p.drop c.m_lastEnd ∧ (∃ item, itemAt p c.m_lastIndex = .ok (c.m_lastEnd, item)) ∧
    ∃ x, itemAt p (c.m_lastIndex + 1) = .error x

section

variable {r : RLP} {p : Bytes} {c : Cursor} {i j m n : ℕ} {x : Exception}

theorem Stuck.size_error {item : Bytes} {e : ℕ} (hk : itemAt p i = .ok (e, item)) (hx : itemAt p (i + 1) = .error x) :
    item.length ≠ 0 ∧ sizeAsEncoded (p.drop e) = .error x := by
  rw [itemAt_succ hk] at hx
  split at hx
  · cases hx
  · rename_i hne
    refine ⟨hne, ?_⟩
    cases hs : sizeAsEncoded (p.drop e) with
    | ok n =>
      rw [hs] at hx
      cases hx
    | error y =>
      rw [hs, error_bind] at hx
      cases hx
      rfl

/-- One step of the loop, in terms of what it measures. -/
theorem walk_succ (hp : r.payload = .ok p) (hne : c.m_lastItem.length ≠ 0) : r.walk (n + 1) c =
    match sizeAsEncoded (p.drop c.m_lastEnd) with
    | .error x => (.error x, { c with m_lastItem := p.drop c.m_lastEnd })
    | .ok l => r.walk n ⟨c.m_lastIndex + 1, c.m_lastEnd + (cropped (p.drop c.m_lastEnd) 0 l).length,
        cropped (p.drop c.m_lastEnd) 0 l⟩ := by
  rw [walk, if_neg hne, hp]

/-- The loop stops at the item it was asked for, or before the one that is not well formed. -/
theorem walk_reached (hp : r.payload = .ok p) : ∀ {n : ℕ} {c : Cursor}, Reached p c →
    (∀ y, itemAt p (c.m_lastIndex + n) = .ok y →
      (r.walk n c).1 = .ok () ∧ Reached p (r.walk n c).2 ∧ (r.walk n c).2.m_lastItem = y.2) ∧
    ∀ x, itemAt p (c.m_lastIndex + n) = .error x →
      (r.walk n c).1 = .error x ∧ Stuck p (r.walk n c).2 ∧ (r.walk n c).2.m_lastIndex < c.m_lastIndex + n
  | 0, c, hc => by
    have hc' : itemAt p c.m_lastIndex = _ := hc
    rw [Nat.add_zero, hc']
    constructor
    · intro y hy
      cases hy
      exact ⟨rfl, hc, rfl⟩
    · intro x hx
      cases hx
  | n + 1, c, hc => by
    have hc' : itemAt p c.m_lastIndex = _ := hc
    by_cases hempty : c.m_lastItem.length = 0
    · rw [walk, if_pos hempty, itemAt_of_empty hc' hempty (Nat.le_add_right _ _)]
      constructor
      · intro y hy
        cases hy
        exact ⟨rfl, hc, rfl⟩
      · intro x hx
        cases hx
    · rw [walk_succ hp hempty]
      have hsucc := itemAt_succ hc'
      rw [if_neg hempty] at hsucc
      have hle : c.m_lastIndex + 1 ≤ c.m_lastIndex + (n + 1) := by omega
      cases hs : sizeAsEncoded (p.drop c.m_lastEnd) with
      | error x =>
        rw [hs, error_bind] at hsucc
        rw [itemAt_error_of_le hsucc hle]
        constructor
        · intro y hy
          cases hy
        · intro x' hx
          cases hx
          have hstuck : Stuck p { c with m_lastItem := p.drop c.m_lastEnd } := ⟨rfl, ⟨_, hc'⟩, x, hsucc⟩
          exact ⟨rfl, hstuck, hle⟩
      | ok l =>
        rw [hs, ok_bind] at hsucc
        have ih := walk_reached hp (n := n) (c := ⟨c.m_lastIndex + 1,
          c.m_lastEnd + (cropped (p.drop c.m_lastEnd) 0 l).length, cropped (p.drop c.m_lastEnd) 0 l⟩) hsucc
        simp only at ih ⊢
        rwa [show c.m_lastIndex + 1 + n = c.m_lastIndex + (n + 1) by omega] at ih

theorem walk_stuck (hp : r.payload = .ok p) (hc : Stuck p c) (hx : itemAt p (c.m_lastIndex + 1) = .error x) :
    r.walk (n + 1) c = (.error x, c) := by
  obtain ⟨hrest, ⟨item, hk⟩, -⟩ := hc
  have hs := (Stuck.size_error hk hx).2
  have hne : c.m_lastItem.length ≠ 0 := by
    rw [hrest]
    intro h0
    rw [List.length_eq_zero_iff.1 h0] at hs
    cases hs
  rw [walk_succ hp hne, hs]
  simp only
  rw [← hrest]

/-- A call that starts from an item, or from the first one, does what it does on a fresh object. -/
theorem access_reached (hp : r.payload = .ok p)
    (hc : Reached p c ∨ i < c.m_lastIndex ∧ ∃ y, itemAt p 0 = .ok y) :
    (∀ y, itemAt p i = .ok y → (r.access c i).1 = .ok ⟨y.2⟩ ∧ Reached p (r.access c i).2) ∧
    ∀ x, itemAt p i = .error x →
      (r.access c i).1 = .error x ∧ Stuck p (r.access c i).2 ∧ (r.access c i).2.m_lastIndex < i := by
  -- where the loop begins
  obtain ⟨c₀, hc₀, hle, heq⟩ : ∃ c₀, Reached p c₀ ∧ c₀.m_lastIndex ≤ i ∧ r.access c i =
      match r.walk (i - c₀.m_lastIndex) c₀ with
      | (.error x, c) => (.error x, c)
      | (.ok (), c) => (ofBytes c.m_lastItem (ThrowOnFail ||| FailIfTooSmall), c) := by
    by_cases hlt : i < c.m_lastIndex
    · obtain ⟨y, hy⟩ : ∃ y, itemAt p 0 = .ok y := by
        rcases hc with hc | hc
        · exact itemAt_ok_of_le hc (Nat.zero_le _)
        · exact hc.2
      have hy' := hy
      rw [itemAt, bind_eq_ok] at hy
      obtain ⟨l, hl, hy⟩ := hy
      cases hy
      refine ⟨⟨0, l, cropped p 0 l⟩, hy', Nat.zero_le _, ?_⟩
      rw [access, if_pos hlt, hp, ok_bind, hl, ok_bind]
      rfl
    · refine ⟨c, ?_, by omega, ?_⟩
      · rcases hc with hc | hc
        · exact hc
        · exact absurd hc.1 hlt
      · rw [access, if_neg hlt]
  obtain ⟨hok, herror⟩ := walk_reached hp (n := i - c₀.m_lastIndex) hc₀
  rw [Nat.add_sub_cancel' hle] at hok herror
  rw [heq]
  generalize r.walk (i - c₀.m_lastIndex) c₀ = w at hok herror ⊢
  obtain ⟨res, c'⟩ := w
  constructor
  · intro y hy
    obtain ⟨hres, hc', hitem⟩ := hok y hy
    simp only at hres hc' hitem
    rw [hres]
    refine ⟨?_, hc'⟩
    rw [← hitem]
    exact ofBytes_itemAt hc' (ThrowOnFail ||| FailIfTooSmall)
  · intro x hx
    obtain ⟨hres, hc', hlt⟩ := herror x hx
    simp only at hres hc' hlt
    rw [hres]
    exact ⟨rfl, hc', hlt⟩

theorem BreaksOff.lt_npos (hp : r.payload = .ok p) (h : BreaksOff r m) : m < npos := by
  obtain ⟨q, hq, k, rfl, ⟨⟨e, item⟩, hk⟩, x, hx⟩ := h
  rw [hp, Except.ok.injEq] at hq
  subst hq
  have hlen := payload_length_lt hp
  obtain ⟨hle, hlt⟩ := lt_of_itemAt hk
  have := hlt (Stuck.size_error hk hx).1
  omega

/-- Behind the last index that is counted there is nothing. -/
theorem item_npos (hp : r.payload = .ok p) {y : ℕ × Bytes} (hy : itemAt p npos = .ok y) : y.2 = [] := by
  obtain ⟨e, item⟩ := y
  have hlen := payload_length_lt hp
  obtain ⟨hle, hlt⟩ := lt_of_itemAt hy
  by_contra hne
  have := hlt (fun h0 => hne (List.length_eq_zero_iff.1 h0))
  omega

/-- A payload whose first item is well formed and in which an item is not breaks off in between. -/
theorem exists_breaksOff (hp : r.payload = .ok p) {y : ℕ × Bytes} (hy : itemAt p i = .ok y) :
    ∀ {n : ℕ} {x : Exception}, itemAt p (i + n) = .error x → ∃ m, BreaksOff r m
  | 0, x, hx => by
    rw [Nat.add_zero, hy] at hx
    cases hx
  | n + 1, x, hx => by
    cases hn : itemAt p (i + n) with
    | ok z => exact ⟨i + n + 1, p, hp, i + n, rfl, ⟨z, hn⟩, x, hx⟩
    | error x' => exact exists_breaksOff hp hy hn

theorem BreaksOff.lt_of_ok (hp : r.payload = .ok p) (h : BreaksOff r m) {y : ℕ × Bytes} (hy : itemAt p i = .ok y) :
    i < m := by
  obtain ⟨q, hq, k, rfl, -, x, hx⟩ := h
  rw [hp, Except.ok.injEq] at hq
  subst hq
  by_contra hlt
  rw [itemAt_error_of_le hx (by omega)] at hy
  cases hy

theorem Stuck.breaksOff (hp : r.payload = .ok p) (hc : Stuck p c) : BreaksOff r (c.m_lastIndex + 1) := by
  obtain ⟨-, ⟨item, hk⟩, hx⟩ := hc
  exact ⟨p, hp, c.m_lastIndex, rfl, ⟨_, hk⟩, hx⟩

/-! ## Calls one after the other -/

/-- After the index `j` the index `i` is not behind an item that a call has failed on: not the one before an item
that is not well formed and that was passed, and not the last index that is counted. -/
def Follows (r : RLP) (j i : ℕ) : Prop :=
  ∀ m, BreaksOff r m → ¬(m ≤ j ∧ j < npos ∧ i + 1 = m) ∧ ¬(j < npos ∧ i = npos)

/-- Where the cursor is after a call with the index `j`. -/
inductive After (r : RLP) (j : ℕ) (c : Cursor) : Prop
  | fresh (h : c = .fresh) (hj : j = npos ∨ ∀ m, ¬BreaksOff r m) : After r j c
  | reached {p : Bytes} (hp : r.payload = .ok p) (h : Reached p c) (hj : ∀ m, BreaksOff r m → j < m) : After r j c
  | stuck {p : Bytes} (hp : r.payload = .ok p) (h : Stuck p c) (hlt : c.m_lastIndex < j) (hj : j < npos) : After r j c

/-- A fresh object finds the item of the payload. -/
theorem access_fresh (hi : i < npos) : (r.access .fresh i).1 = itemOf r i ∧
    ((∀ p, r.payload = .ok p → ∀ y, itemAt p 0 ≠ .ok y) → (r.access .fresh i).2 = .fresh) := by
  cases hp : r.payload with
  | error x =>
    rw [access, if_pos (show i < Cursor.fresh.m_lastIndex from hi), itemOf, hp]
    exact ⟨rfl, fun _ => rfl⟩
  | ok p =>
    cases h0 : itemAt p 0 with
    | error x =>
      rw [itemOf, hp, ok_bind, itemAt_error_of_le h0 (Nat.zero_le i)]
      rw [itemAt] at h0
      rw [access, if_pos (show i < Cursor.fresh.m_lastIndex from hi), hp, ok_bind]
      cases hs : sizeAsEncoded p with
      | error y =>
        rw [hs, error_bind, Except.error.injEq] at h0
        rw [h0]
        exact ⟨rfl, fun _ => rfl⟩
      | ok n =>
        rw [hs] at h0
        cases h0
    | ok y =>
      refine ⟨?_, fun hno => absurd h0 (hno p rfl y)⟩
      obtain ⟨hok, herror⟩ := access_reached hp (c := .fresh) (i := i) (.inr ⟨hi, y, h0⟩)
      rw [itemOf, hp, ok_bind]
      cases hi' : itemAt p i with
      | ok z => rw [(hok z hi').1, ok_bind, ofBytes_itemAt hi']
      | error x => rw [(herror x hi').1, error_bind]

theorem access_fresh_npos : r.access .fresh npos = (.ok ⟨[]⟩, .fresh) := rfl

/-- A call that starts from an item or from the first one agrees with a fresh object. -/
theorem after_reached (hp : r.payload = .ok p) (hc : Reached p c ∨ i < c.m_lastIndex ∧ ∃ y, itemAt p 0 = .ok y)
    (hi : i < npos) : (r.access c i).1 = (r.access .fresh i).1 ∧ After r i (r.access c i).2 := by
  obtain ⟨hok, herror⟩ := access_reached hp hc
  rw [(access_fresh hi).1, itemOf, hp, ok_bind]
  cases hy : itemAt p i with
  | ok y =>
    obtain ⟨hres, hreached⟩ := hok y hy
    rw [hres, ok_bind, ofBytes_itemAt hy]
    exact ⟨rfl, .reached hp hreached fun m hm => hm.lt_of_ok hp hy⟩
  | error x =>
    obtain ⟨hres, hstuck, hlt⟩ := herror x hy
    rw [hres, error_bind]
    exact ⟨rfl, .stuck hp hstuck hlt hi⟩

theorem after_fresh (hi : i ≤ npos) : After r i (r.access .fresh i).2 := by
  rcases Nat.lt_or_eq_of_le hi with hi | rfl
  · by_cases hno : ∀ p, r.payload = .ok p → ∀ y, itemAt p 0 ≠ .ok y
    · refine .fresh ((access_fresh hi).2 hno) (.inr ?_)
      rintro m ⟨p, hp, k, -, ⟨y, hy⟩, -⟩
      obtain ⟨z, hz⟩ := itemAt_ok_of_le hy (Nat.zero_le k)
      exact hno p hp z hz
    · push Not at hno
      obtain ⟨p, hp, y, hy⟩ := hno
      exact (after_reached hp (.inr ⟨hi, y, hy⟩) hi).2
  · rw [access_fresh_npos]
    exact .fresh rfl (.inl rfl)

theorem follows_of_lt (hj : ∀ m, BreaksOff r m → j < m) (hi : i < npos) : Follows r j i := by
  intro m hm
  have := hj m hm
  exact ⟨by omega, by omega⟩

/-- Behind an item that was reached the index that is not counted is the end, unless the payload breaks off. -/
theorem access_reached_npos (hp : r.payload = .ok p) (hc : Reached p c) (hj : ∀ m, BreaksOff r m → j < m) :
    ((r.access c npos).1 = (r.access .fresh npos).1 ↔ Follows r j npos) ∧
      (Follows r j npos → After r npos (r.access c npos).2) := by
  obtain ⟨hok, herror⟩ := access_reached hp (i := npos) (.inl hc)
  rw [access_fresh_npos]
  cases hy : itemAt p npos with
  | ok y =>
    obtain ⟨hres, hreached⟩ := hok y hy
    have hno : ∀ m, BreaksOff r m → False := by
      intro m hm
      have hlt := hm.lt_npos hp
      have := hm.lt_of_ok hp hy
      omega
    rw [hres, item_npos hp hy]
    exact ⟨⟨fun _ m hm => (hno m hm).elim, fun _ => rfl⟩, fun _ => .reached hp hreached fun m hm => (hno m hm).elim⟩
  | error x =>
    obtain ⟨hres, -, hlt⟩ := herror x hy
    have hle : c.m_lastIndex ≤ npos := by
      by_contra hgt
      have hc' : itemAt p c.m_lastIndex = _ := hc
      rw [itemAt_error_of_le hy (by omega)] at hc'
      cases hc'
    have hy' : itemAt p (c.m_lastIndex + (npos - c.m_lastIndex)) = .error x := by
      rw [Nat.add_sub_cancel' hle]
      exact hy
    obtain ⟨m, hm⟩ := exists_breaksOff hp hc hy'
    have hmj := hj m hm
    have hmn := hm.lt_npos hp
    have hnot : ¬Follows r j npos := fun hf => (hf m hm).2 ⟨by omega, rfl⟩
    rw [hres]
    exact ⟨⟨nofun, fun h => absurd h hnot⟩, fun h => absurd h hnot⟩

/-- Before the item that is not well formed, the object has lost the item that it stands on. -/
theorem access_stuck (hp : r.payload = .ok p) (hc : Stuck p c) (hlt : c.m_lastIndex < j) (hj : j < npos)
    (hi : i ≤ npos) :
    ((r.access c i).1 = (r.access .fresh i).1 ↔ Follows r j i) ∧ (Follows r j i → After r i (r.access c i).2) := by
  have hm := hc.breaksOff hp
  obtain ⟨hrest, ⟨item, hk⟩, x, hx⟩ := id hc
  rcases lt_trichotomy i c.m_lastIndex with hik | rfl | hik
  · obtain ⟨hres, hafter⟩ := after_reached hp (.inr ⟨hik, itemAt_ok_of_le hk (Nat.zero_le _)⟩) (by omega)
    have hf : Follows r j i := by
      intro m hm'
      have := hm'.lt_of_ok hp hk
      exact ⟨by omega, by omega⟩
    exact ⟨⟨fun _ => hf, fun _ => hres⟩, fun _ => hafter⟩
  · -- the item itself: what is left of the payload stands in its place
    have hnot : ¬Follows r j c.m_lastIndex := fun hf => (hf _ hm).1 ⟨hlt, hj, rfl⟩
    obtain ⟨y, hy⟩ := ofBytes_of_error (Stuck.size_error hk hx).2
    refine ⟨⟨fun h => ?_, fun h => absurd h hnot⟩, fun h => absurd h hnot⟩
    rw [(access_fresh (hlt.trans hj)).1, itemOf, hp, ok_bind, hk, ok_bind, ofBytes_itemAt hk, access,
      if_neg (Nat.lt_irrefl _)] at h
    simp only [Nat.sub_self, walk] at h
    rw [hrest, hy] at h
    cases h
  · have hres : r.access c i = (.error x, c) := by
      obtain ⟨n, hn⟩ : ∃ n, i - c.m_lastIndex = n + 1 := ⟨i - c.m_lastIndex - 1, by omega⟩
      rw [access, if_neg (by omega)]
      simp only
      rw [hn, walk_stuck hp hc hx]
    rw [hres]
    rcases Nat.lt_or_eq_of_le hi with hi | rfl
    · have hf : Follows r j i := by
        intro m hm'
        have hmk := hm'.lt_of_ok hp hk
        have hle : m ≤ c.m_lastIndex + 1 := by
          obtain ⟨q, hq, k, rfl, ⟨y, hy⟩, -⟩ := hm'
          have := hm.lt_of_ok hq hy
          omega
        exact ⟨by omega, by omega⟩
      refine ⟨⟨fun _ => hf, fun _ => ?_⟩, fun _ => .stuck hp hc hik hi⟩
      rw [(access_fresh hi).1, itemOf, hp, ok_bind, itemAt_error_of_le hx hik, error_bind]
    · have hnot : ¬Follows r j npos := fun hf => (hf _ hm).2 ⟨hj, rfl⟩
      rw [access_fresh_npos]
      exact ⟨⟨nofun, fun h => absurd h hnot⟩, fun h => absurd h hnot⟩

/-- A call agrees with a fresh object just when its index follows the last one; the cursor is then where the
indexes up to it leave it. -/
theorem After.step (h : After r j c) (hi : i ≤ npos) :
    ((r.access c i).1 = (r.access .fresh i).1 ↔ Follows r j i) ∧ (Follows r j i → After r i (r.access c i).2) := by
  cases h with
  | fresh h hj =>
    subst h
    have hf : Follows r j i := by
      intro m hm
      rcases hj with rfl | hno
      · exact ⟨by omega, by omega⟩
      · exact absurd hm (hno m)
    exact ⟨⟨fun _ => hf, fun _ => rfl⟩, fun _ => after_fresh hi⟩
  | reached hp h hj =>
    rcases Nat.lt_or_eq_of_le hi with hi | rfl
    · obtain ⟨hres, hafter⟩ := after_reached hp (.inl h) hi
      exact ⟨⟨fun _ => follows_of_lt hj hi, fun _ => hres⟩, fun _ => hafter⟩
    · exact access_reached_npos hp h hj
  | stuck hp h hlt hj => exact access_stuck hp h hlt hj hi

theorem After.accesses {is : List ℕ} (h : After r j c) (his : ∀ i ∈ is, i ≤ npos) :
    r.accesses is c = is.map (fun i => (r.access .fresh i).1) ↔ (j :: is).IsChain (Follows r) := by
  induction is generalizing j c with
  | nil => simp [RLP.accesses]
  | cons i is ih =>
    obtain ⟨hiff, hafter⟩ := h.step (his i (by simp))
    rw [RLP.accesses, List.map_cons, List.cons.injEq, hiff, List.isChain_cons_cons]
    constructor
    · rintro ⟨hf, hrest⟩
      exact ⟨hf, (ih (hafter hf) fun k hk => his k (by simp [hk])).1 hrest⟩
    · rintro ⟨hf, hrest⟩
      exact ⟨hf, (ih (hafter hf) fun k hk => his k (by simp [hk])).2 hrest⟩

end

/-- One object answers a sequence of calls as fresh objects answer each of them just when, from each index to the
next, none is asked for that stands before an item on which the object has failed. -/
theorem accesses_eq_fresh_iff (r : RLP) (is : List ℕ) (his : ∀ i ∈ is, i < 2 ^ 64) :
    r.accesses is .fresh = is.map (fun i => (r.access .fresh i).1) ↔ is.IsChain (Follows r) := by
  have hfresh : After r npos .fresh := .fresh rfl (.inl rfl)
  have hle : ∀ i ∈ is, i ≤ npos := fun i hi => Nat.le_sub_one_of_lt (his i hi)
  rw [hfresh.accesses hle]
  cases is with
  | nil => simp
  | cons i is =>
    rw [List.isChain_cons_cons, and_iff_right]
    intro m _
    exact ⟨fun h => absurd h.2.1 (lt_irrefl _), fun h => absurd h.1 (lt_irrefl _)⟩

/-- From the first item on nothing is lost, whatever is in the list. -/
theorem follows_ascending : [0, 1, 2].IsChain (Follows ⟨[0xc2, 1, 0x81]⟩) :=
  (accesses_eq_fresh_iff ⟨[0xc2, 1, 0x81]⟩ [0, 1, 2] (by decide)).1 (by decide)

/-- A list of two items, the second of them cut off: after a call for it has thrown, the call for the first one
throws too. -/
theorem accesses_lose_item : (RLP.mk [0xc2, 1, 0x81]).accesses [1, 0] .fresh ≠
    [1, 0].map (fun i => ((RLP.mk [0xc2, 1, 0x81]).access .fresh i).1) := by
  decide

end RLP

end Petrachor
