import Petrachor.TrieDB.Run

/-!
# Iterators of a trie

An iterator keeps the trail of nodes from the root to where it is. Whatever the trie was made from, an iterator from the
beginning comes by its entries in the order of their keys, and one from a lower bound by those that are not before it.
-/

namespace Petrachor

open NibbleSlice RLPStream

namespace GenericTrieDB

/-- `iterator::Node`: a node, its key in hex-prefix coding, and where in the node the iterator is; 255 before it has
entered, 16 at the value, 0 to 15 in a child, 17 at the end. -/
structure IterNode where
  rlp : Bytes
  key : Bytes
  child : ℕ

/-- `incrementChild()` -/
def incrementChild (child : ℕ) : ℕ := if child = 16 then 0 else if child = 15 then 17 else (child + 1) % 256

/-- `m_trail`, with the back first, and `m_that`. -/
structure Iterator (δ : Type) where
  m_trail : List IterNode
  m_that : Option (GenericTrieDB δ)

/-- How a pass of the loop of `next` ends: the loop goes on, an entry is found, or a node is broken. -/
inductive Pass (κ : Type)
  | again (trail : List IterNode) (k : κ)
  | found (trail : List IterNode)
  | broken

/-- The same pass, with another key. -/
def Pass.withKey {κ κ' : Type} (k : κ') : Pass κ → Pass κ'
  | again trail _ => .again trail k
  | found trail => .found trail
  | broken => .broken

section

variable {δ : Type} [NodeDB δ] (t : GenericTrieDB δ)

def deref (db : δ) (n : RLP) : Except Exception Bytes := do
  if n.isList then return n.data else return node db (← n.toHash 32 RLP.Strict)

/-- The inner loop: the first place from here on that is not empty, or the end. -/
def seek (r : RLP) : ℕ → ℕ → Except Exception ℕ
  | 0, _ => .error .abort
  | fuel + 1, child => do
    if child = 17 then return 17
    else if !(← r.get child).isEmpty then return child
    else seek r fuel (incrementChild child)

/-- What follows the inner loop, if it stops before the end. -/
def enterChild (r : RLP) (b : IterNode) (trail : List IterNode) (child : ℕ) : Except Exception (List IterNode) := do
  let key := hexPrefixEncodeTwo (keyOf b.key) ⟨[UInt8.ofNat child], 1⟩ false
  return ⟨← deref t.m_db (← r.get child), key, 255⟩ :: { b with child := child } :: trail

/-- The inner loop and what follows it: where in the node it stops, and how the pass ends. -/
def advance (r : RLP) (b : IterNode) (trail : List IterNode) (child : ℕ) : Except Exception (ℕ × Pass Unit) := do
  if !(r.isList && (← r.itemCount) = 17) then throw .abort
  let c ← seek r 18 child
  if c = 17 then return (c, .again trail ())
  else if c = 16 then return (c, .found ({ b with child := 16 } :: trail))
  else return (c, .again (← enterChild t r b trail c) ())

/-- A pass of `next()`; `b` is the back of the trail. -/
def pass (b : IterNode) (trail : List IterNode) : Except Exception (Pass Unit) := do
  let r ← rlp b.rlp
  if b.child = 255 then
    if r.isEmpty then return .again trail ()
    else
      let itemCount ← r.itemCount
      if !(r.isList && (itemCount = 2 || itemCount = 17)) then return .broken
      else if itemCount = 2 then
        let key := hexPrefixEncodeTwo (keyOf b.key) (← keyOfItem r) false
        if ← isLeaf r then return .found (⟨b.rlp, key, 0⟩ :: trail)
        else return .again (⟨← deref t.m_db (← r.get 1), key, 255⟩ :: trail) ()
      else return (← advance t r b trail 16).2
  else if !(r.isList && (← r.itemCount) = 17) then return .again trail ()
  else return (← advance t r b trail (incrementChild b.child)).2

/-- The key is given up where the iterator does not find the place that it is looking for. -/
def keyAt (k : NibbleSlice) (child c : ℕ) : NibbleSlice := if c = child ∧ c ≠ 17 then k else k.clear

/-- A pass of `next(_key)`, with what is left of the key. -/
def passKey (b : IterNode) (trail : List IterNode) (k : NibbleSlice) : Except Exception (Pass NibbleSlice) := do
  let r ← rlp b.rlp
  if b.child = 255 then
    if r.isEmpty then return .again trail k.clear
    else
      let itemCount ← r.itemCount
      if !r.isList || (itemCount ≠ 2 && itemCount ≠ 17) then return .broken
      else if itemCount = 2 then
        let keyOfRLP ← keyOfItem r
        if !k.contains keyOfRLP && !k.isEarlierThan keyOfRLP then return .again trail k.clear
        else
          let k := if !k.contains keyOfRLP then k.clear else k
          let k := k.mid (min k.size keyOfRLP.size)
          let key := hexPrefixEncodeTwo (keyOf b.key) keyOfRLP false
          if ← isLeaf r then
            if k.empty then return .found (⟨b.rlp, key, 0⟩ :: trail) else return .again trail k.clear
          else return .again (⟨← deref t.m_db (← r.get 1), key, 255⟩ :: trail) k
      else
        let (child, k) := if k.size ≠ 0 then (k.get 0, k.mid 1) else (16, k)
        let (c, p) ← advance t r b trail child
        return p.withKey (keyAt k child c)
  else if !(r.isList && (← r.itemCount) = 17) then return .again trail k.clear
  else
    let child := incrementChild b.child
    let (c, p) ← advance t r b trail child
    return p.withKey (keyAt k child c)

/-- `next()`, from a trail. -/
def nextFrom : ℕ → List IterNode → Except Exception (Iterator δ)
  | 0, _ => .error .abort
  | _ + 1, [] => .ok ⟨[], none⟩
  | fuel + 1, b :: trail => do
    match ← pass t b trail with
    | .again trail _ => nextFrom fuel trail
    | .found trail => return ⟨trail, some t⟩
    | .broken => return ⟨b :: trail, none⟩

/-- `next(_key)`, from a trail. -/
def nextKeyFrom : ℕ → List IterNode → NibbleSlice → Except Exception (Iterator δ)
  | 0, _, _ => .error .abort
  | _ + 1, [], _ => .ok ⟨[], none⟩
  | fuel + 1, b :: trail, k => do
    match ← passKey t b trail k with
    | .again trail k => nextKeyFrom fuel trail k
    | .found trail => return ⟨trail, some t⟩
    | .broken => return ⟨b :: trail, none⟩

/-- The trail before the root is entered; a null byte is the coding of no nibbles. -/
def rootTrail : List IterNode := [⟨node t.m_db t.m_root, [0], 255⟩]

def begin (fuel : ℕ) : Except Exception (Iterator δ) := nextFrom t fuel (rootTrail t)

def lowerBound (fuel : ℕ) (key : Bytes) : Except Exception (Iterator δ) := nextKeyFrom t fuel (rootTrail t) ⟨key, 0⟩

namespace Iterator

/-- `operator++` -/
def next (it : Iterator δ) (fuel : ℕ) : Except Exception (Iterator δ) :=
  match it.m_that with
  | some t => nextFrom t fuel it.m_trail
  | none => .ok it

def «at» (it : Iterator δ) : Except Exception (Bytes × Bytes) := do
  match it.m_trail with
  | [] => throw .abort
  | b :: _ =>
    -- a key has a whole number of bytes
    if b.key.length = 0 || byteAt b.key 0 &&& 0x10 ≠ 0 then throw .abort
    let r ← rlp b.rlp
    let i := if (← r.itemCount) = 2 then 1 else 16
    return (b.key.drop 1, ← (← r.get i).payload)

/-- What a loop from an iterator to the end comes by. -/
def toList (fuel : ℕ) : ℕ → Iterator δ → Except Exception (List (Bytes × Bytes))
  | 0, _ => .error .abort
  | steps + 1, it => do
    if it.m_trail.isEmpty then return []
    else return (← it.at) :: (← toList fuel steps (← it.next fuel))

end Iterator

end

/-! ## Keys on the trail -/

section

variable {w p : List (Fin 16)} {s : NibbleSlice}

/-- The key of a node behind a word. -/
def path (w : List (Fin 16)) : Bytes := Crypto.hexPrefixEncode (nats w) false

theorem path_append (hs : s.Spells p) (hw : (w ++ p).length + 1 < 2 ^ 31) :
    hexPrefixEncodeTwo (keyOf (path w)) s false = path (w ++ p) := by
  rw [List.length_append] at hw
  exact hexPrefixTwo (spells_keyOf false (by omega)) hs (by omega) false

theorem spells_child (i : Fin 16) : (NibbleSlice.mk [UInt8.ofNat i] 1).Spells [i] := by
  refine ⟨by simp, by simp, ?_⟩
  revert i
  decide

theorem packNibbles_asNibbles (key : Bytes) : Crypto.packNibbles (Crypto.asNibbles key) = key := by
  induction key with
  | nil => rfl
  | cons x key ih =>
    have hx : UInt8.ofNat (x.toNat / 16 * 16 + x.toNat % 16) = x := by
      rw [Nat.div_add_mod']
      exact UInt8.ofNat_toNat
    show UInt8.ofNat (x.toNat / 16 * 16 + x.toNat % 16) :: Crypto.packNibbles (Crypto.asNibbles key) = _
    rw [hx, ih]

/-- The key of an entry is read behind the flags. -/
theorem path_word (key : Bytes) : path (word key) = 0 :: key := by
  have heven : (nats (word key)).length % 2 ≠ 1 := by
    rw [length_nats, length_word]
    omega
  unfold path Crypto.hexPrefixEncode
  rw [if_neg heven, nats_word]
  show UInt8.ofNat 0 :: Crypto.packNibbles (Crypto.asNibbles key) = _
  rw [packNibbles_asNibbles]
  rfl

end

/-! ## What is still to come -/

section

variable {δ : Type} [NodeDB δ] {c : Crypto} {db : δ} {t : Trie} {ch : Fin 16 → Trie} {w p u : List (Fin 16)}
    {i : Fin 16}
  {v : Bytes}

/-- Entries behind a word. -/
def under (w : List (Fin 16)) (l : List (List (Fin 16) × Bytes)) : List (List (Fin 16) × Bytes) :=
  l.map fun e => (w ++ e.1, e.2)

@[simp] theorem under_nil (w : List (Fin 16)) : under w [] = [] := rfl

theorem under_nil_left (l : List (List (Fin 16) × Bytes)) : under [] l = l := List.map_id l

theorem under_append (w : List (Fin 16)) (l l' : List (List (Fin 16) × Bytes)) :
    under w (l ++ l') = under w l ++ under w l' := List.map_append

theorem under_under (w p : List (Fin 16)) (l : List (List (Fin 16) × Bytes)) :
    under w (under p l) = under (w ++ p) l := by
  simp [under, Function.comp_def]

theorem entries_ext (p : List (Fin 16)) (t : Trie) : (Patricia.ext p t).entries = under p t.entries := rfl

theorem entries_branch (ch : Fin 16 → Trie) :
    (Patricia.branch ch).entries = (List.finRange 16).flatMap fun i => under [i] (ch i).entries := rfl

theorem under_flatMap (w : List (Fin 16)) (js : List (Fin 16)) (ch : Fin 16 → Trie) :
    under w (js.flatMap fun i => under [i] (ch i).entries) = js.flatMap fun i => under (w ++ [i]) (ch i).entries := by
  simp [under, List.map_flatMap, Function.comp_def]

/-- The bounds for a trie behind a word. -/
def Reach (w : List (Fin 16)) (t : Trie) : Prop :=
  ∀ k v, t.find k = some v → (w ++ k).length + 1 < 2 ^ 31 ∧ v.length < 2 ^ 62

theorem Reach.fits (h : Reach w t) : Fits t := by
  intro k v hk
  have hlen := h k v hk
  rw [List.length_append] at hlen
  exact ⟨by omega, hlen.2⟩

theorem Reach.ext (h : Reach w (.ext p t)) : Reach (w ++ p) t := by
  intro k v hk
  have hlen := h (p ++ k) v (by rw [Patricia.find, if_pos (List.prefix_append ..), List.drop_left, hk])
  rwa [← List.append_assoc] at hlen

theorem Reach.child (h : Reach w (.branch ch)) (i : Fin 16) : Reach (w ++ [i]) (ch i) := by
  intro k v hk
  have hlen := h (i :: k) v hk
  rwa [List.append_cons] at hlen

theorem Reach.lt (h : Reach w t) (ht : t.Canonical) (hne : t.isEmpty = false) : w.length + 1 < 2 ^ 31 := by
  obtain ⟨k, v, hk⟩ := ht.exists_find hne
  have hlen := (h k v hk).1
  rw [List.length_append] at hlen
  omega

/-- How many passes a trie takes. -/
def passes : Trie → ℕ
  | .empty => 1
  | .leaf _ _ => 2
  | .ext _ t => passes t + 1
  | .branch ch => ∑ i, (passes (ch i) + 1) + 1

/-- The passes for some of the children. -/
def passesOf (ch : Fin 16 → Trie) (js : List (Fin 16)) : ℕ := (js.map fun j => passes (ch j) + 1).sum

theorem passes_branch (ch : Fin 16 → Trie) : passes (.branch ch) = passesOf ch (List.finRange 16) + 1 := by
  rw [passes, passesOf, Fin.sum_univ_def]

/-- The entries that an iterator with this trail has yet to come by, and how many passes that takes at most. -/
inductive Awaits (c : Crypto) (db : δ) : List IterNode → List (List (Fin 16) × Bytes) → ℕ → Prop
  | nil : Awaits c db [] [] 0
  | entering {t : Trie} {w : List (Fin 16)} {trail R n} (ht : t.Canonical) (hreach : Reach w t)
      (hdb : Holds c db (own c t)) (hrest : Awaits c db trail R n) :
      Awaits c db (⟨encode c t, path w, 255⟩ :: trail) (under w t.entries ++ R) (passes t + n)
  | leaf {p w : List (Fin 16)} {v : Bytes} {trail R n} (hfits : Fits (.leaf p v)) (hrest : Awaits c db trail R n) :
      Awaits c db (⟨encode c (.leaf p v), path w, 0⟩ :: trail) R (n + 1)
  | branch {ch : Fin 16 → Trie} {w pre js : List (Fin 16)} {i : Fin 16} {trail R n}
      (ht : (Patricia.branch ch).Canonical)
      (hreach : Reach w (.branch ch)) (hdb : Holds c db (kids c (.branch ch)))
      (hsplit : List.finRange 16 = pre ++ i :: js) (hrest : Awaits c db trail R n) :
      Awaits c db (⟨encode c (.branch ch), path w, i⟩ :: trail)
        ((js.flatMap fun j => under (w ++ [j]) (ch j).entries) ++ R) (passesOf ch js + 1 + n)

/-- The iterator is at an entry. -/
structure Found (c : Crypto) (trail : List IterNode) (k : List (Fin 16)) (v : Bytes) : Prop where
  back : ∃ p rest, trail = ⟨encode c (.leaf p v), path k, 0⟩ :: rest ∧ Fits (.leaf p v)

/-! ## One pass -/

theorem deref_refer (ht : t.Canonical) (hfits : Fits t) (hne : t.isEmpty = false) (hdb : Holds c db (own c t)) :
    deref db ⟨refer c (encode c t)⟩ = .ok (encode c t) := by
  unfold deref refer
  split
  · rw [isList_encode c ht hfits, hne]
    rfl
  · rename_i hlen
    rw [not_isList_hash, toHash_refer, if_neg Bool.false_ne_true, ok_bind, node_of_holds hdb hlen]
    rfl

theorem val_of_split {pre js : List (Fin 16)} (hsplit : List.finRange 16 = pre ++ i :: js) : i.val = pre.length := by
  have hget : (List.finRange 16)[pre.length]? = some i := by
    rw [hsplit, List.getElem?_append_right le_rfl, Nat.sub_self, List.getElem?_cons_zero]
  obtain ⟨hlt, heq⟩ := List.getElem?_eq_some_iff.1 hget
  rw [← heq, List.getElem_finRange]
  rfl

theorem split_snoc {α : Type} {l pre js : List α} {i : α} (hsplit : l = pre ++ i :: js) : l = pre ++ [i] ++ js := by
  rw [hsplit, List.append_cons]

/-- The place of the first of some children. -/
def firstPlace (js : List (Fin 16)) : ℕ := js.head?.elim 17 Fin.val

/-- After a nibble comes the next one, and after the last one the end. -/
theorem incrementChild_eq {pre js : List (Fin 16)} (hsplit : List.finRange 16 = pre ++ i :: js) :
    incrementChild i = firstPlace js := by
  have hi := val_of_split hsplit
  have hlen := congrArg List.length hsplit
  rw [List.length_finRange, List.length_append, List.length_cons] at hlen
  unfold incrementChild
  cases js with
  | nil =>
    rw [List.length_nil] at hlen
    rw [if_neg (by omega), if_pos (by omega)]
    rfl
  | cons j js =>
    have hj : j.val = (pre ++ [i]).length := val_of_split (split_snoc hsplit)
    rw [List.length_append, List.length_singleton] at hj
    rw [List.length_cons] at hlen
    rw [if_neg (by omega), if_neg (by omega), Nat.mod_eq_of_lt (by omega)]
    exact (hj.trans (by rw [hi])).symm

/-- The first child that is not empty, and the ones behind it. -/
def first (ch : Fin 16 → Trie) : List (Fin 16) → Option (Fin 16 × List (Fin 16))
  | [] => none
  | j :: js => if (ch j).isEmpty then first ch js else some (j, js)

theorem isEmpty_of_first {js js' : List (Fin 16)} {j : Fin 16} (h : first ch js = some (j, js')) :
    (ch j).isEmpty = false := by
  induction js with
  | nil => cases h
  | cons x js ih =>
    rw [first] at h
    split at h
    · exact ih h
    · rename_i hne
      cases h
      simpa using hne

theorem split_of_first {pre js js' : List (Fin 16)} {j : Fin 16} (h : first ch js = some (j, js'))
    (hsplit : List.finRange 16 = pre ++ js) : ∃ pre', List.finRange 16 = pre' ++ j :: js' := by
  induction js generalizing pre with
  | nil => cases h
  | cons x js ih =>
    rw [first] at h
    split at h
    · exact ih h (split_snoc hsplit)
    · cases h
      exact ⟨pre, hsplit⟩

theorem entries_of_isEmpty (h : t.isEmpty = true) : t.entries = [] := by
  cases t with
  | empty => rfl
  | _ => cases h

/-- Empty children have no entries. -/
theorem flatMap_first (w : List (Fin 16)) (ch : Fin 16 → Trie) (js : List (Fin 16)) :
    (js.flatMap fun j => under (w ++ [j]) (ch j).entries) = (first ch js).elim [] fun r =>
      under (w ++ [r.1]) (ch r.1).entries ++ r.2.flatMap fun j => under (w ++ [j]) (ch j).entries := by
  induction js with
  | nil => rfl
  | cons j js ih =>
    rw [List.flatMap_cons, first]
    cases hne : (ch j).isEmpty with
    | true =>
      rw [entries_of_isEmpty hne, under_nil, List.nil_append, ih, if_pos rfl]
    | false => rw [if_neg Bool.false_ne_true, Option.elim_some]

theorem passes_of_first {js js' : List (Fin 16)} {j : Fin 16} (h : first ch js = some (j, js')) :
    passes (ch j) + 1 + passesOf ch js' ≤ passesOf ch js := by
  induction js with
  | nil => cases h
  | cons x js ih =>
    have hcons : passesOf ch (x :: js) = passes (ch x) + 1 + passesOf ch js := by
      unfold passesOf
      rw [List.map_cons, List.sum_cons]
    rw [first] at h
    split at h
    · exact (ih h).trans (hcons ▸ Nat.le_add_left _ _)
    · cases h
      exact hcons.ge

/-- The inner loop stops at the first child that is not empty. -/
theorem seek_eq (ht : (Patricia.branch ch).Canonical) (hfits : Fits (.branch ch)) {js : List (Fin 16)} :
    ∀ {pre : List (Fin 16)} {n : ℕ}, List.finRange 16 = pre ++ js → js.length < n →
      seek ⟨encode c (.branch ch)⟩ n (firstPlace js) = .ok ((first ch js).elim 17 fun r => r.1) := by
  have hbranch : Branched fun i => refer c (encode c (ch i)) := branched c ht hfits
  induction js with
  | nil =>
    intro pre n hsplit hn
    obtain ⟨n, rfl⟩ := Nat.exists_eq_add_of_lt hn
    rw [List.length_nil, Nat.zero_add, seek]
    rfl
  | cons j js ih =>
    intro pre n hsplit hn
    obtain ⟨n, rfl⟩ := Nat.exists_eq_add_of_le' (show 1 ≤ n by omega)
    have hnext := incrementChild_eq hsplit
    have hplace : firstPlace (j :: js) = j := rfl
    have hj : j.val ≠ 17 := by omega
    rw [hplace, seek, encode, if_neg hj, hbranch.get, ok_bind, isEmpty_refer (ht.2 j) (hfits.child j), first, hnext]
    cases (ch j).isEmpty with
    | true => exact ih (split_snoc hsplit) (by rw [List.length_cons] at hn; omega)
    | false => rfl

theorem seek_value (ht : (Patricia.branch ch).Canonical) (hfits : Fits (.branch ch)) :
    seek ⟨encode c (.branch ch)⟩ 18 16 = .ok ((first ch (List.finRange 16)).elim 17 fun r => r.1) := by
  have hbranch : Branched fun i => refer c (encode c (ch i)) := branched c ht hfits
  have hnull : (RLP.mk RLPNull).isEmpty = true := rfl
  have hseek := seek_eq (c := c) (n := 17) ht hfits (List.nil_append (List.finRange 16)).symm (by simp)
  rw [seek, encode, if_neg (by omega), hbranch.get_sixteen, ok_bind, hnull]
  exact hseek

variable {g : GenericTrieDB δ} {trail : List IterNode} {child x : ℕ}

theorem Reach.child_lt (h : Reach w (.branch ch)) (ht : (Patricia.branch ch).Canonical) (hne : (ch i).isEmpty = false) :
    (w ++ [i]).length + 1 < 2 ^ 31 := (h.child i).lt (ht.2 i) hne

/-- The trail after the inner loop at a branch: the child that was found is entered next. -/
def descended (c : Crypto) (ch : Fin 16 → Trie) (w : List (Fin 16)) (trail : List IterNode) :
    Option (Fin 16 × List (Fin 16)) → List IterNode
  | none => trail
  | some (j, _) => ⟨encode c (ch j), path (w ++ [j]), 255⟩ :: ⟨encode c (.branch ch), path w, j⟩ :: trail

/-- The inner loop and what follows it, at the node of a branch. -/
theorem advance_eq (trail : List IterNode) (x : ℕ) (ht : (Patricia.branch ch).Canonical) (hreach : Reach w (.branch ch))
    (hdb : Holds c g.m_db (kids c (.branch ch))) {js : List (Fin 16)}
    (hseek : seek ⟨encode c (.branch ch)⟩ 18 child = .ok ((first ch js).elim 17 fun r => r.1)) :
    advance g ⟨encode c (.branch ch)⟩ ⟨encode c (.branch ch), path w, x⟩ trail child =
      .ok ((first ch js).elim 17 fun r => r.1, .again (descended c ch w trail (first ch js)) ()) := by
  have hbranch : Branched fun i => refer c (encode c (ch i)) := branched c ht hreach.fits
  unfold advance
  rw [hseek]
  rw [encode, hbranch.isList, hbranch.itemCount]
  cases hfirst : first ch js with
  | none => rfl
  | some r =>
    obtain ⟨j, js'⟩ := r
    have hne := isEmpty_of_first hfirst
    have hown : Holds c g.m_db (own c (ch j)) := hdb.mono (own_le_kids c ch j)
    have h16 : j.val ≠ 16 := by omega
    have h17 : j.val ≠ 17 := by omega
    have henter : enterChild g ⟨full fun i => refer c (encode c (ch i))⟩
        ⟨full fun i => refer c (encode c (ch i)), path w, x⟩ trail j =
          .ok (descended c ch w trail (some (j, js'))) := by
      unfold enterChild
      dsimp only
      rw [hbranch.get, ok_bind, deref_refer (ht.2 j) (hreach.child j).fits hne hown,
        path_append (spells_child j) (hreach.child_lt ht hne)]
      rfl
    simp only [ok_bind, Option.elim_some, if_neg h16, if_neg h17, henter]
    rfl

/-- What is still to come at a branch, when the inner loop has found the next child. -/
theorem awaits_descended {pre js : List (Fin 16)} {R : List (List (Fin 16) × Bytes)} {n : ℕ}
    (ht : (Patricia.branch ch).Canonical) (hreach : Reach w (.branch ch)) (hdb : Holds c db (kids c (.branch ch)))
    (hsplit : List.finRange 16 = pre ++ js) (hrest : Awaits c db trail R n) :
    ∃ n' ≤ passesOf ch js + n, Awaits c db (descended c ch w trail (first ch js))
      ((js.flatMap fun j => under (w ++ [j]) (ch j).entries) ++ R) n' := by
  rw [flatMap_first]
  cases hfirst : first ch js with
  | none => exact ⟨n, Nat.le_add_left _ _, hrest⟩
  | some r =>
    obtain ⟨j, js'⟩ := r
    obtain ⟨pre', hsplit'⟩ := split_of_first hfirst hsplit
    have hpasses := passes_of_first hfirst
    rw [Option.elim_some, List.append_assoc]
    exact ⟨passes (ch j) + (passesOf ch js' + 1 + n), by omega, .entering (ht.2 j) (hreach.child j)
      (hdb.mono (own_le_kids c ch j)) (.branch ht hreach hdb hsplit' hrest)⟩

theorem pass_empty : pass g ⟨encode c .empty, path w, 255⟩ trail = .ok (.again trail ()) := by
  have hempty : (RLP.mk RLPNull).isEmpty = true := rfl
  unfold pass
  rw [encode, rlp_item ⟨_, isItem_null⟩]
  simp only [ok_bind, if_true, hempty]
  rfl

theorem pass_leaf (hreach : Reach w (.leaf p v)) : pass g ⟨encode c (.leaf p v), path w, 255⟩ trail =
    .ok (.found (⟨encode c (.leaf p v), path (w ++ p), 0⟩ :: trail)) := by
  have hpair : Paired p (encodeBytes v) := paired_leaf hreach.fits
  have hlen := (hreach p v (if_pos rfl)).1
  obtain ⟨s, hkey, hs⟩ := hpair.keyOfItem true
  unfold pass
  rw [encode, rlp_item (hpair.isItem true)]
  simp only [ok_bind, if_true, hpair.isEmpty, hpair.itemCount, hpair.isList, hkey, hpair.isLeaf, path_append hs hlen]
  rfl

theorem pass_ext (ht : (Patricia.ext p t).Canonical) (hreach : Reach w (.ext p t))
    (hdb : Holds c g.m_db (own c t)) : pass g ⟨encode c (.ext p t), path w, 255⟩ trail =
      .ok (.again (⟨encode c t, path (w ++ p), 255⟩ :: trail) ()) := by
  have hpair : Paired p (refer c (encode c t)) := paired_ext c ht hreach.fits
  have hne := Patricia.isEmpty_of_isBranch ht.2.1
  have hlen := hreach.ext.lt ht.2.2 hne
  obtain ⟨s, hkey, hs⟩ := hpair.keyOfItem false
  unfold pass
  rw [encode, rlp_item (hpair.isItem false)]
  simp only [ok_bind, if_true, hpair.isEmpty, hpair.itemCount, hpair.isList, hkey, hpair.isLeaf, hpair.get_one,
    path_append hs hlen, deref_refer ht.2.2 hreach.ext.fits hne hdb]
  rfl

theorem pass_leaf_done (hfits : Fits (.leaf p v)) :
    pass g ⟨encode c (.leaf p v), path w, 0⟩ trail = .ok (.again trail ()) := by
  have hpair : Paired p (encodeBytes v) := paired_leaf hfits
  unfold pass
  rw [encode, rlp_item (hpair.isItem true)]
  simp only [ok_bind, hpair.itemCount, hpair.isList]
  rfl

theorem pass_branch (ht : (Patricia.branch ch).Canonical) (hreach : Reach w (.branch ch))
    (hdb : Holds c g.m_db (kids c (.branch ch))) : pass g ⟨encode c (.branch ch), path w, 255⟩ trail =
      .ok (.again (descended c ch w trail (first ch (List.finRange 16))) ()) := by
  have hbranch : Branched fun i => refer c (encode c (ch i)) := branched c ht hreach.fits
  have hadvance := advance_eq trail 255 ht hreach hdb (seek_value ht hreach.fits)
  unfold pass
  rw [encode] at hadvance ⊢
  rw [rlp_item hbranch.isItem]
  simp only [ok_bind, if_true, hbranch.isEmpty, hbranch.itemCount, hbranch.isList, hadvance]
  rfl

theorem pass_branch_next {pre js : List (Fin 16)} (ht : (Patricia.branch ch).Canonical) (hreach : Reach w (.branch ch))
    (hdb : Holds c g.m_db (kids c (.branch ch))) (hsplit : List.finRange 16 = pre ++ i :: js) :
    pass g ⟨encode c (.branch ch), path w, i⟩ trail = .ok (.again (descended c ch w trail (first ch js)) ()) := by
  have hbranch : Branched fun i => refer c (encode c (ch i)) := branched c ht hreach.fits
  have hlen := congrArg List.length hsplit
  rw [List.length_finRange, List.length_append, List.length_cons] at hlen
  have hseek := seek_eq (c := c) (n := 18) ht hreach.fits (split_snoc hsplit) (by omega)
  have hadvance := advance_eq trail i ht hreach hdb hseek
  have hi : i.val ≠ 255 := by omega
  unfold pass
  rw [encode] at hadvance ⊢
  rw [rlp_item hbranch.isItem]
  simp only [ok_bind, if_neg hi, hbranch.itemCount, hbranch.isList, incrementChild_eq hsplit, hadvance]
  rfl

/-- A pass goes on, or it finds the next entry. -/
theorem pass_spec {b : IterNode} {R : List (List (Fin 16) × Bytes)} {n : ℕ} (h : Awaits c g.m_db (b :: trail) R n) :
    (∃ trail' n', pass g b trail = .ok (.again trail' ()) ∧ Awaits c g.m_db trail' R n' ∧ n' < n) ∨
    ∃ trail' k v R' n', pass g b trail = .ok (.found trail') ∧ R = (k, v) :: R' ∧ Found c trail' k v ∧
      Awaits c g.m_db trail' R' n' ∧ n' < n := by
  cases h with
  | @entering t w _ R n ht hreach hdb hrest =>
    cases t with
    | empty => exact .inl ⟨trail, n, pass_empty, hrest, by rw [passes]; omega⟩
    | leaf p v =>
      exact .inr ⟨_, w ++ p, v, R, n + 1, pass_leaf hreach, rfl, ⟨p, trail, rfl, hreach.fits⟩,
        .leaf hreach.fits hrest, by rw [passes]; omega⟩
    | ext p t =>
      have hown : Holds c g.m_db (own c t) := hdb.mono (Multiset.le_add_left _ _)
      refine .inl ⟨_, passes t + n, pass_ext ht hreach hown, ?_, by rw [passes]; omega⟩
      rw [entries_ext, under_under]
      exact .entering ht.2.2 hreach.ext hown hrest
    | branch ch =>
      have hkids : Holds c g.m_db (kids c (.branch ch)) := hdb.mono (Multiset.le_add_left _ _)
      obtain ⟨n', hn', hawaits⟩ := awaits_descended ht hreach hkids (List.nil_append _).symm hrest
      refine .inl ⟨_, n', pass_branch ht hreach hkids, ?_, by rw [passes_branch]; omega⟩
      rw [entries_branch, under_flatMap]
      exact hawaits
  | leaf hfits hrest => exact .inl ⟨trail, _, pass_leaf_done hfits, hrest, Nat.lt_succ_self _⟩
  | @branch ch w pre js i _ R n ht hreach hdb hsplit hrest =>
    obtain ⟨n', hn', hawaits⟩ := awaits_descended ht hreach hdb (split_snoc hsplit) hrest
    exact .inl ⟨_, n', pass_branch_next ht hreach hdb hsplit, hawaits, by omega⟩

/-- What a call of `next` gives: the next entry, or the end. -/
def Leads (c : Crypto) (g : GenericTrieDB δ) (r : Except Exception (Iterator δ)) (n : ℕ) :
    List (List (Fin 16) × Bytes) → Prop
  | [] => r = .ok ⟨[], none⟩
  | (k, v) :: R => ∃ trail n', r = .ok ⟨trail, some g⟩ ∧ Found c trail k v ∧ Awaits c g.m_db trail R n' ∧ n' ≤ n

theorem Leads.mono {r : Except Exception (Iterator δ)} {n n' : ℕ} {R : List (List (Fin 16) × Bytes)}
    (h : Leads c g r n R) (hle : n ≤ n') : Leads c g r n' R := by
  cases R with
  | nil => exact h
  | cons e R =>
    obtain ⟨trail, m, hr, hfound, hawaits, hm⟩ := h
    exact ⟨trail, m, hr, hfound, hawaits, hm.trans hle⟩

/-- `next` comes by the next entry. -/
theorem nextFrom_spec {R : List (List (Fin 16) × Bytes)} {n fuel : ℕ} (h : Awaits c g.m_db trail R n)
    (hfuel : n < fuel) : Leads c g (nextFrom g fuel trail) n R := by
  induction fuel generalizing trail R n with
  | zero => omega
  | succ fuel ih =>
    cases trail with
    | nil =>
      cases h
      rfl
    | cons b trail =>
      rw [nextFrom]
      rcases pass_spec h with ⟨trail', n', hpass, hawaits, hn⟩ | ⟨trail', k, v, R', n', hpass, rfl, hfound, hawaits, hn⟩
      · rw [hpass]
        exact (ih hawaits (by omega)).mono hn.le
      · rw [hpass]
        exact ⟨trail', n', rfl, hfound, hawaits, hn.le⟩

/-! ## Loops -/

omit [NodeDB δ] in
theorem at_found {key : Bytes} {m : Option (GenericTrieDB δ)} (h : Found c trail (word key) v) :
    (Iterator.mk trail m).at = .ok (key, v) := by
  obtain ⟨p, rest, rfl, hfits⟩ := h.back
  have hpair : Paired p (encodeBytes v) := paired_leaf hfits
  have hv := (hfits p v (if_pos rfl)).2
  have hpayload := (isItem_encodeBytes (b := v) (by unfold maxPayload; omega)).payload_eq
  have hflags : (decide ((0 :: key : Bytes).length = 0) || decide (byteAt (0 :: key) 0 &&& 0x10 ≠ 0)) = false := by
    rw [byteAt_cons_zero]
    rfl
  unfold Iterator.at
  dsimp only
  rw [path_word, hflags, encode, rlp_item (hpair.isItem true)]
  simp only [ok_bind, hpair.itemCount, if_true, hpair.get_one, hpayload]
  rfl

/-- A loop comes by all that is still to come. -/
theorem toList_of_leads {es : List (Bytes × Bytes)} : ∀ {r : Except Exception (Iterator δ)} {n fuel steps : ℕ},
    Leads c g r n (es.map fun e => (word e.1, e.2)) → n < fuel → es.length < steps →
      (r >>= fun it => it.toList fuel steps) = .ok es := by
  induction es with
  | nil =>
    intro r n fuel steps h hn hsteps
    obtain ⟨steps, rfl⟩ := Nat.exists_eq_add_of_le' (show 1 ≤ steps by omega)
    rw [show r = .ok ⟨[], none⟩ from h]
    rfl
  | cons e es ih =>
    intro r n fuel steps h hn hsteps
    rw [List.length_cons] at hsteps
    obtain ⟨steps, rfl⟩ := Nat.exists_eq_add_of_le' (show 1 ≤ steps by omega)
    obtain ⟨trail, n', rfl, hfound, hawaits, hn'⟩ := h
    have hne : trail.isEmpty = false := by
      obtain ⟨p, rest, rfl, -⟩ := hfound.back
      rfl
    have hnext := ih (nextFrom_spec hawaits (hn'.trans_lt hn)) (hn'.trans_lt hn) (show es.length < steps by omega)
    rw [ok_bind, Iterator.toList]
    dsimp only
    rw [hne, at_found hfound, if_neg Bool.false_ne_true, ok_bind]
    show (nextFrom g fuel trail >>= fun it => it.toList fuel steps >>= fun l => pure (e :: l)) = .ok (e :: es)
    rw [← bind_assoc, hnext]
    rfl

end

end GenericTrieDB

end Petrachor
