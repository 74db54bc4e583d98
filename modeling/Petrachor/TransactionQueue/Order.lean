import Petrachor.TransactionQueue.Known
import Petrachor.Lib.Ranked

/-!
# The order of the current transactions

The comparator of the multiset measures a nonce from the lowest current one of its sender, which changes while
elements are stored. The multiset stays sorted in runs in which the lowest nonce of a sender who has other current
transactions changes only when nobody else has any.
-/

namespace Petrachor

namespace TransactionQueue

open Grouped

section

variable (c : Crypto)

/-- Nobody else has current transactions. -/
def Alone (q : TransactionQueue) (a : Address) : Prop := ∀ x ∈ q.m_current, x.sender c = a

/-- A new nonce does not become the lowest one of current transactions, unless nobody else has any. -/
def Enters (q : TransactionQueue) (a : Address) (n : ℕ) : Prop :=
  (∀ b, q.lowest a = some b → b ≤ n) ∨ Alone c q a

/-- Where the lowest nonce of a sender goes, it was the only current one, or nobody else has any. -/
def Leaves (q : TransactionQueue) (t : Transaction) : Prop :=
  (q.lowest (t.sender c) = some t.nonce.toNat → ∀ y ∈ q.m_current, y.sender c = t.sender c → y = t) ∨
    Alone c q (t.sender c)

/-- The transaction that follows may become current. -/
def Promotable (q : TransactionQueue) (t : Transaction) : Prop :=
  (find q.m_future (t.sender c) ((t.nonce.toNat + 1) % 2 ^ 256)).isSome →
    Enters c q (t.sender c) ((t.nonce.toNat + 1) % 2 ^ 256)

/-- The step does not change the lowest nonce of stored transactions. -/
def Steady (q : TransactionQueue) (k : Containers) : Op → Prop
  | .importTransaction t ik => Accepts c q t ik →
    Enters c q (t.sender c) t.nonce.toNat ∧
      (t.nonce.toNat + 1 = 2 ^ 256 → (find q.m_future (t.sender c) 0).isSome → Alone c q (t.sender c))
  | .drop h => ∀ x ∈ q.m_current, hash c x = h → Leaves c q x
  | .dropGood t => Promotable c q t ∧
    ∀ q₁, q.makeCurrent c k t = some q₁ → ∀ x ∈ q₁.m_current, hash c x = hash c t → Leaves c q₁ x
  | _ => True

/-- The multiset is sorted under its comparator as it evaluates now. -/
def Sorted (q : TransactionQueue) : Prop := q.m_current.Pairwise fun x y => q.less c y x = false

/-- The transactions of a sender are listed in the order of their nonces. -/
def ByNonce (l : List Transaction) : Prop :=
  l.Pairwise fun x y => x.sender c = y.sender c → x.nonce.toNat < y.nonce.toNat

/-- The nonce that heights are measured from. -/
def base (q : TransactionQueue) (a : Address) : ℕ := (q.lowest a).getD 0

abbrev IsFloor (l : List Transaction) (f : Address → ℕ) : Prop :=
  Ranked.IsFloor (Transaction.sender c) (fun t => t.nonce.toNat) l f

abbrev Before (f : Address → ℕ) (x y : Transaction) : Prop :=
  Ranked.Before (Transaction.sender c) (fun t => t.nonce.toNat) (fun t => t.gasPrice.toNat) f x y

abbrev RankedFrom (f : Address → ℕ) (l : List Transaction) : Prop :=
  Ranked.Sorted (Transaction.sender c) (fun t => t.nonce.toNat) (fun t => t.gasPrice.toNat) f l

end

variable {c : Crypto} {k : Containers} {q q' q₁ : TransactionQueue} {t x y : Transaction} {a : Address} {n : ℕ}
    {h : H256}

/-! ## Heights -/

theorem lowest_spec (hq : Consistent c q) {b : ℕ} (hb : q.lowest a = some b) :
    (∃ y ∈ q.m_current, y.sender c = a ∧ y.nonce.toNat = b) ∧
      ∀ y ∈ q.m_current, y.sender c = a → b ≤ y.nonce.toNat := by
  obtain ⟨⟨y, hy⟩, hall⟩ := head_spec hq.tidy hb
  refine ⟨⟨y, (hq.byNonce a b y).1 hy⟩, ?_⟩
  intro z hz hsender
  exact hall _ z ((hq.byNonce a _ z).2 ⟨hz, hsender, rfl⟩)

theorem lowest_eq_base (hq : Consistent c q) (hx : x ∈ q.m_current) :
    q.lowest (x.sender c) = some (q.base (x.sender c)) := by
  have hreadable : q.readable c x = true := readable_iff.2 (group_ne_nil ((hq.byNonce _ _ x).2 ⟨hx, rfl, rfl⟩))
  obtain ⟨b, hb⟩ := Option.isSome_iff_exists.1 hreadable
  unfold base
  rw [hb, Option.getD_some]

theorem isFloor_base (hq : Consistent c q) : IsFloor c q.m_current q.base := by
  intro x hx
  obtain ⟨hex, hall⟩ := lowest_spec hq (lowest_eq_base hq hx)
  exact ⟨hall x hx rfl, hex⟩

theorem toNat_height (hx : q.base (x.sender c) ≤ x.nonce.toNat) :
    (q.height c x).toNat = x.nonce.toNat - q.base (x.sender c) := by
  have hlt : q.base (x.sender c) < 2 ^ 256 := hx.trans_lt x.nonce.isLt
  change (x.nonce - BitVec.ofNat 256 (q.base (x.sender c))).toNat = _
  rw [BitVec.toNat_sub_of_le, BitVec.toNat_ofNat, Nat.mod_eq_of_lt hlt]
  rw [BitVec.le_def, BitVec.toNat_ofNat, Nat.mod_eq_of_lt hlt]
  exact hx

theorem less_iff (hx : q.base (x.sender c) ≤ x.nonce.toNat) (hy : q.base (y.sender c) ≤ y.nonce.toNat) :
    q.less c x y = true ↔ Before c q.base x y := by
  unfold less Before Ranked.Before Ranked.rank
  rw [← toNat_height hx, ← toNat_height hy]
  simp [BitVec.lt_def, ← BitVec.toNat_inj]

theorem sorted_iff (hq : Consistent c q) : Sorted c q ↔ RankedFrom c q.base q.m_current := by
  have hfloor := isFloor_base hq
  unfold Sorted RankedFrom Ranked.Sorted
  refine List.Pairwise.iff_of_mem ?_
  intro x y hx hy
  rw [← Bool.not_eq_true, less_iff (hfloor y hy).1 (hfloor x hx).1]

theorem Sorted.byNonce (hq : Consistent c q) (hs : Sorted c q) (limit : ℕ) (avoid : Finset H256) :
    ByNonce c (q.topTransactions c limit avoid) := by
  have hlevels := ((sorted_iff hq).1 hs).levels fun x hx => (isFloor_base hq x hx).1
  have hall : ByNonce c q.m_current := by
    refine List.Pairwise.imp_of_mem ?_ (hlevels.and hq.nodup)
    intro x y hx hy hxy hsender
    refine lt_of_le_of_ne (hxy.1 hsender) ?_
    intro hnonce
    exact hxy.2 (hq.eq_of_place (.inl hx) (.inl hy) hsender (BitVec.eq_of_toNat_eq hnonce))
  exact hall.sublist ((List.take_sublist _ _).trans List.filter_sublist)

/-! ## Transactions leave -/

/-- The rest of a sorted list, where the floor is still attained. -/
theorem Sorted.rest (hq : Consistent c q) (hs : Sorted c q) (hq' : Consistent c q')
    (hsub : q'.m_current.Sublist q.m_current)
    (hfloor : ∀ x ∈ q'.m_current, ∀ y ∈ q.m_current, y.sender c = x.sender c →
      y.nonce.toNat = q.base (x.sender c) → y ∈ q'.m_current) : Sorted c q' := by
  have hkept : IsFloor c q'.m_current q.base := by
    intro x hx
    obtain ⟨hle, y, hy, hsender, hnonce⟩ := isFloor_base hq x (hsub.subset hx)
    exact ⟨hle, y, hfloor x hx y hy hsender hnonce, hsender, hnonce⟩
  have hranked := ((sorted_iff hq).1 hs).sublist hsub
  exact (sorted_iff hq').2 (hranked.congr fun x hx => hkept.eq_of_mem (isFloor_base hq') hx)

theorem Sorted.removed (hq : Consistent c q) (hs : Sorted c q) (ht : t ∈ q.m_current) (hleaves : Leaves c q t) :
    Sorted c (removed c q t) := by
  have hq' := hq.removed ht
  have hsub : (TransactionQueue.removed c q t).m_current.Sublist q.m_current := List.erase_sublist
  rcases hleaves with hlast | halone
  · apply Sorted.rest hq hs hq' hsub
    intro x hx y hy hsender hnonce
    refine (mem_without hq).2 ⟨?_, hy⟩
    rintro rfl
    have hlowest : q.lowest (y.sender c) = some y.nonce.toNat := by
      rw [hnonce, ← hsender]
      exact lowest_eq_base hq hy
    obtain ⟨hne, hx⟩ := (mem_without hq).1 hx
    exact hne (hlast hlowest x hx hsender.symm)
  · have hone : ∀ x ∈ (TransactionQueue.removed c q t).m_current, x.sender c = t.sender c :=
      fun x hx => halone x (hsub.subset hx)
    refine (sorted_iff hq').2 ((((sorted_iff hq).1 hs).sublist hsub).shift hone ?_ ?_)
    · intro x hx
      rw [← hone x hx]
      exact (isFloor_base hq x (hsub.subset hx)).1
    · intro x hx
      rw [← hone x hx]
      exact (isFloor_base hq' x hx).1

/-- The last transaction is the lowest one of its sender only where it is the only one. -/
theorem leaves_last (hq : Consistent c q) (hs : Sorted c q) (hlast : q.m_current.getLast? = some t) : Leaves c q t := by
  have ht : t ∈ q.m_current := List.mem_of_getLast? hlast
  refine .inl ?_
  intro hlowest y hy hsender
  have hbase : q.base (t.sender c) = t.nonce.toNat := Option.some.inj ((lowest_eq_base hq ht).symm.trans hlowest)
  have hrank := ((sorted_iff hq).1 hs).le_last hlast hy
  have hle := (isFloor_base hq y hy).1
  unfold Ranked.rank at hrank
  rw [hsender, hbase] at hrank hle
  have hnonce : y.nonce.toNat = t.nonce.toNat := by
    dsimp only at hrank hle
    omega
  exact hq.eq_of_place (.inl hy) (.inl ht) hsender (BitVec.eq_of_toNat_eq hnonce)

theorem demote_current (a : Address) : ∀ (l : List (ℕ × Transaction)) (q : TransactionQueue), Consistent c q →
    (l.map Prod.fst).Nodup → (∀ e ∈ l, find q.m_currentByAddressAndNonce a e.1 = some e.2) →
    ∃ q', demote c a l q = some q' ∧ Consistent c q' ∧ q'.m_current.Sublist q.m_current ∧
      ∀ x, x ∈ q'.m_current ↔ x ∈ q.m_current ∧ ∀ e ∈ l, x ≠ e.2 := by
  intro l
  induction l with
  | nil =>
    intro q hq _ _
    refine ⟨q, rfl, hq, List.Sublist.refl _, fun x => ?_⟩
    simp
  | cons e l ih =>
    intro q hq hnodup hfind
    obtain ⟨m, x⟩ := e
    rw [List.map_cons, List.nodup_cons] at hnodup
    have hx : find q.m_currentByAddressAndNonce a m = some x := hfind (m, x) List.mem_cons_self
    obtain ⟨hmem, hsender, hnonce⟩ := (hq.byNonce a m x).1 hx
    obtain ⟨q', hq', hcons, hsub, hall⟩ := ih _ (hq.demoted hmem) hnodup.2 (by
      intro e he
      refine (find_remove hq.tidy).2 ⟨?_, hfind e (List.mem_cons_of_mem _ he)⟩
      rintro ⟨-, hn⟩
      rw [hnonce] at hn
      exact hnodup.1 (List.mem_map.2 ⟨e, he, hn⟩))
    refine ⟨q', ?_, hcons, hsub.trans List.erase_sublist, ?_⟩
    · rw [demote_cons hq hx]
      exact hq'
    · intro y
      rw [hall y, show y ∈ (demoted c q x).m_current ↔ y ≠ x ∧ y ∈ q.m_current from mem_without hq,
        List.forall_mem_cons]
      tauto

/-- All transactions of a sender from one nonce on are set future, so that a lowest one that goes is the only one. -/
theorem setFuture_sorted (hq : Consistent c q) (hs : Sorted c q) (hq' : q.setFuture c h = some q') : Sorted c q' := by
  by_cases hex : ∃ t ∈ q.m_current, hash c t = h
  · obtain ⟨t, ht, rfl⟩ := hex
    rw [setFuture_eq hq ht] at hq'
    obtain ⟨q₁, hq₁, hcons, hsub, hall⟩ := demote_current (t.sender c) (cutoff c q t) q hq (nodup_cutoff hq)
      fun e he => mem_cutoff hq he
    obtain rfl : q₁ = q' := Option.some.inj (hq₁.symm.trans hq')
    apply Sorted.rest hq hs hcons hsub
    intro x hx y hy hsender hnonce
    obtain ⟨hx, hkept⟩ := (hall x).1 hx
    refine (hall y).2 ⟨hy, ?_⟩
    rintro e he rfl
    obtain ⟨-, hown, hkey⟩ := (hq.byNonce _ _ e.2).1 (mem_cutoff hq he)
    have hle : t.nonce.toNat ≤ e.1 := (hq.tidy.ascending (t.sender c)).le_of_mem_dropWhile he
    have hbase : q.base (x.sender c) ≤ x.nonce.toNat := (isFloor_base hq x hx).1
    -- the lowest one is not below the cut, and so neither is this one
    have hentry : (x.nonce.toNat, x) ∈ group q.m_currentByAddressAndNonce (t.sender c) :=
      (find_eq_some_iff hq.tidy).1 ((hq.byNonce _ _ x).2 ⟨hx, hsender ▸ hown, rfl⟩)
    rw [← List.takeWhile_append_dropWhile (p := fun e => decide (e.1 < t.nonce.toNat))
      (l := group q.m_currentByAddressAndNonce (t.sender c)), List.mem_append] at hentry
    rcases hentry with htake | hdrop
    · have hlt : x.nonce.toNat < t.nonce.toNat := of_decide_eq_true
        (List.mem_takeWhile_imp (p := fun e : ℕ × Transaction => decide (e.1 < t.nonce.toNat)) htake)
      omega
    · exact hkept _ hdrop rfl
  · rw [setFuture_of_not hq fun x hx hhash => hex ⟨x, hx, hhash⟩] at hq'
    exact Option.some.inj hq' ▸ hs

/-! ## Transactions enter -/

/-- The list that a transaction enters is sorted from the floor it has afterwards. -/
theorem ranked_entered {i : ℕ} (hq : Consistent c q) (hs : Sorted c q) (hsub : q₁.m_current.Sublist q.m_current)
    (hrest : ∀ y ∈ q.m_current, y ∈ q₁.m_current ∨ y.sender c = t.sender c ∧ y.nonce = t.nonce)
    (hcons : Consistent c (entered c q₁ i t)) (henters : Enters c q (t.sender c) t.nonce.toNat) :
    RankedFrom c (entered c q₁ i t).base q₁.m_current := by
  have hfloor := isFloor_base hq
  have hfloor₁ := isFloor_base hcons
  have hin : ∀ x ∈ q₁.m_current, x ∈ (entered c q₁ i t).m_current := fun x hx => mem_entered.2 (.inr hx)
  have hranked := ((sorted_iff hq).1 hs).sublist hsub
  rcases henters with hbase | halone
  · refine hranked.congr ?_
    intro x hx
    apply Nat.le_antisymm
    · obtain ⟨-, y, hy, hsender, hnonce⟩ := hfloor₁ x (hin x hx)
      rw [← hnonce]
      rcases mem_entered.1 hy with rfl | hy
      · refine hbase _ ?_
        rw [hsender]
        exact lowest_eq_base hq (hsub.subset hx)
      · rw [← hsender]
        exact (hfloor y (hsub.subset hy)).1
    · obtain ⟨-, y, hy, hsender, hnonce⟩ := hfloor x (hsub.subset hx)
      rw [← hnonce, ← hsender]
      rcases hrest y hy with hy | ⟨hown, hsame⟩
      · exact (hfloor₁ y (hin y hy)).1
      · show _ ≤ y.nonce.toNat
        rw [hown, hsame]
        exact (hfloor₁ t (mem_entered.2 (.inl rfl))).1
  · have hone : ∀ x ∈ q₁.m_current, x.sender c = t.sender c := fun x hx => halone x (hsub.subset hx)
    refine hranked.shift hone ?_ ?_
    · intro x hx
      rw [← hone x hx]
      exact (hfloor x (hsub.subset hx)).1
    · intro x hx
      rw [← hone x hx]
      exact (hfloor₁ x (hin x hx)).1

/-- The multiset finds the place between those the transaction does not come before and those it does. -/
theorem sorted_entered (hcons : Consistent c (entered c q (spot c k q t) t))
    (hranked : RankedFrom c (entered c q (spot c k q t) t).base q.m_current) :
    Sorted c (entered c q (spot c k q t) t) := by
  have hfloor := isFloor_base hcons
  have hless : ∀ y ∈ q.m_current, (entered c q 0 t).less c t y = true ↔
      Before c (entered c q (spot c k q t) t).base t y := fun y hy =>
    less_iff (q := entered c q (spot c k q t) t) (hfloor t (mem_entered.2 (.inl rfl))).1
      (hfloor y (mem_entered.2 (.inr hy))).1
  obtain ⟨l, m, hl, hle, hlt⟩ := hranked.divide ((entered c q 0 t).less c t) hless
  have hspot : spot c k q t = l.length := by
    unfold spot
    rw [hl]
    exact k.place_eq _ l m hle hlt
  have hcurrent : (entered c q (spot c k q t) t).m_current = l ++ t :: m := by
    change q.m_current.take (spot c k q t) ++ t :: q.m_current.drop (spot c k q t) = _
    rw [hspot, hl, List.take_left, List.drop_left]
  rw [sorted_iff hcons, hcurrent]
  rw [hl] at hranked hless
  refine Ranked.Sorted.insert hranked ?_ ?_
  · intro y hy hbefore
    have htrue := (hless y (List.mem_append_left m hy)).2 hbefore
    rw [hle y hy] at htrue
    cases htrue
  · intro y hy
    exact (hless y (List.mem_append_right l hy)).1 (hlt y hy)

/-- A transaction enters a queue that was made ready for it. -/
theorem enter_sorted {i : ℕ} (hq : Consistent c q) (hs : Sorted c q) (hq₁ : Consistent c q₁)
    (hsub : q₁.m_current.Sublist q.m_current)
    (hrest : ∀ y ∈ q.m_current, y ∈ q₁.m_current ∨ y.sender c = t.sender c ∧ y.nonce = t.nonce)
    (hi : q₁.enter c k t = some (entered c q₁ i t)) (hcons : Consistent c (entered c q₁ i t))
    (henters : Enters c q (t.sender c) t.nonce.toNat) : Sorted c (entered c q₁ i t) := by
  have hspot : entered c q₁ (spot c k q₁ t) t = entered c q₁ i t :=
    Option.some.inj ((enter_spot hq₁ k t).symm.trans hi)
  rw [← hspot] at hcons ⊢
  exact sorted_entered hcons (ranked_entered hq hs hsub hrest hcons henters)

/-- What follows a current transaction does not become the lowest one; at the end of the numbers nothing follows. -/
theorem promote_sorted (a : Address) : ∀ (l : List (ℕ × Transaction)) (nonce : ℕ) (q q' : TransactionQueue),
    Consistent c q → SortedMap.Ascending l → (∀ e ∈ l, find q.m_future a e.1 = some e.2) → Sorted c q →
    (∀ e ∈ l.head?, e.2.nonce.toNat = nonce → Enters c q a nonce) →
      promote c k a l nonce q = some q' → Sorted c q' := by
  intro l
  induction l with
  | nil =>
    intro nonce q q' _ _ _ hs _ hq'
    exact Option.some.inj hq' ▸ hs
  | cons ft l ih =>
    intro nonce q q' hq hasc hfind hs henters hq'
    unfold promote at hq'
    by_cases hnonce : ft.2.nonce.toNat = nonce
    · have hx := hfind ft List.mem_cons_self
      obtain ⟨hsender, hkey⟩ := hq.future a ft.1 ft.2 hx
      obtain ⟨i, hi, hcons⟩ := hq.promote_step k hx
      rw [if_pos hnonce, hi] at hq'
      have hfirst : Enters c q (ft.2.sender c) ft.2.nonce.toNat := by
        rw [hsender, hnonce]
        exact henters ft rfl hnonce
      have hs₁ : Sorted c (entered c (q.takeFuture a ft.1) i ft.2) :=
        enter_sorted hq hs (hq.takeFuture hx) (List.Sublist.refl _) (fun y hy => .inl hy) hi hcons hfirst
      obtain ⟨hhead, htail⟩ := SortedMap.ascending_cons.1 hasc
      refine ih _ _ q' hcons htail ?_ hs₁ ?_ hq'
      · intro e he
        refine (find_takeFuture hq).2 ⟨?_, hfind e (List.mem_cons_of_mem _ he)⟩
        rintro ⟨-, hn⟩
        exact absurd hn (hhead e he).ne'
      · intro e he hnext
        have hmem : e ∈ l := List.mem_of_mem_head? he
        have hlt := hhead e hmem
        have hsame := (hq.future a e.1 e.2 (hfind e (List.mem_cons_of_mem _ hmem))).2
        have hbound := e.2.nonce.isLt
        refine .inl ?_
        intro b hb
        have hle := (lowest_spec hcons hb).2 ft.2 (mem_entered.2 (.inl rfl)) hsender
        omega
    · rw [if_neg hnonce] at hq'
      exact Option.some.inj hq' ▸ hs

theorem Forgets.sorted (hf : Forgets c q q') (hs : Sorted c q) : Sorted c q' := by
  have hless : q'.less c = q.less c := by
    funext x y
    unfold less height lowest
    rw [hf.table]
  unfold Sorted
  rw [hf.current, hless]
  exact hs

theorem makeCurrent_sorted (hq : Consistent c q) (hs : Sorted c q) (ht : Promotable c q t)
    (hq' : q.makeCurrent c k t = some q') : Sorted c q' := by
  obtain ⟨q₁, q₂, hpromote, hpromotes, -, -, hq₂, hforgets, -⟩ := makeCurrent_spec hq k t
  obtain rfl : q₂ = q' := Option.some.inj (hq₂.symm.trans hq')
  refine hforgets.sorted ?_
  have hasc := hq.tidyFuture.ascending (t.sender c)
  have hsub : (following c q t).Sublist (group q.m_future (t.sender c)) := List.dropWhile_sublist _
  have hfind : ∀ e ∈ following c q t, find q.m_future (t.sender c) e.1 = some e.2 :=
    fun e he => (find_eq_some_iff hq.tidyFuture).2 (hsub.subset he)
  refine promote_sorted (t.sender c) _ _ q q₁ hq (hasc.sublist (hsub.map _)) hfind hs ?_ hpromote
  intro e he hnonce
  have hx := hfind e (List.mem_of_mem_head? he)
  apply ht
  rw [← hnonce, (hq.future _ _ _ hx).2, hx]
  rfl

/-! ## Operations -/

/-- Only a transaction at the same place makes room. -/
theorem room_current (hq : Consistent c q) : (room c q t).m_current.Sublist q.m_current ∧
    ∀ y ∈ q.m_current, y ∈ (room c q t).m_current ∨ y.sender c = t.sender c ∧ y.nonce = t.nonce := by
  cases hcurrent : find q.m_currentByAddressAndNonce (t.sender c) t.nonce.toNat with
  | some old =>
    obtain ⟨-, hsender, hnonce⟩ := (hq.byNonce _ _ old).1 hcurrent
    rw [room_of_current hcurrent]
    refine ⟨List.erase_sublist, ?_⟩
    intro y hy
    by_cases hold : y = old
    · rw [hold]
      exact .inr ⟨hsender, BitVec.eq_of_toNat_eq hnonce⟩
    · exact .inl ((mem_without hq).2 ⟨hold, hy⟩)
  | none =>
    have hsame : (room c q t).m_current = q.m_current := by
      cases hfuture : find q.m_future (t.sender c) t.nonce.toNat with
      | some old =>
        rw [room_of_future hcurrent hfuture]
        rfl
      | none => rw [room_of_none hcurrent hfuture]
    rw [hsame]
    exact ⟨List.Sublist.refl _, fun y hy => .inl hy⟩

theorem find_room_future (hq : Consistent c q) (hx : find (room c q t).m_future a n = some x) :
    find q.m_future a n = some x := by
  cases hcurrent : find q.m_currentByAddressAndNonce (t.sender c) t.nonce.toNat with
  | some old =>
    rw [room_of_current hcurrent] at hx
    exact hx
  | none =>
    cases hfuture : find q.m_future (t.sender c) t.nonce.toNat with
    | some old =>
      rw [room_of_future hcurrent hfuture] at hx
      exact ((find_takeFuture hq).1 hx).2
    | none =>
      rw [room_of_none hcurrent hfuture] at hx
      exact hx

theorem Sorted.dropCurrent (hq : Consistent c q) (hs : Sorted c q) {rounds : ℕ} (hrounds : rounds ≤ q.m_current.length)
    (hq' : q.dropCurrent c rounds = some q') : Sorted c q' := by
  obtain ⟨q₁, hq₁, -, hs₁, -⟩ := dropCurrent_spec (P := Sorted c)
    (fun _ _ hq ht hlast hs => hs.removed hq ht (leaves_last hq hs hlast)) rounds q hq hrounds hs
  obtain rfl : q₁ = q' := Option.some.inj (hq₁.symm.trans hq')
  exact hs₁

theorem manageImport_sorted (hq : Sound c q) (hs : Sorted c q) (hnew : hash c t ∉ q.m_known) (hprice : ¬Overbid c q t)
    (henters : Enters c q (t.sender c) t.nonce.toNat)
    (hend : t.nonce.toNat + 1 = 2 ^ 256 → (find q.m_future (t.sender c) 0).isSome → Alone c q (t.sender c))
    {r : ImportResult} (hq' : q.manageImport c k (hash c t) t = some (r, q')) : Sorted c q' := by
  obtain ⟨hf, hfree, hfuture⟩ := room_spec (A := fun _ => False) hq t
  obtain ⟨hsub, hrest⟩ := room_current (t := t) hq.consistent
  have hheld : ∀ x, Held c (room c q t) x → Held c q x := fun x hx => (hf.held x hx).resolve_right id
  have hfresh : ∀ x, Held c (room c q t) x → hash c x ≠ hash c t :=
    fun x hx hhash => hnew (hhash ▸ hq.known x (hheld x hx))
  obtain ⟨i, q₁, q₂, hi, hcons, hq₁, hq₂, rfl, hf₂, -⟩ := insertCurrent_spec hf.sound k hfresh hfree hfuture
  have hs₁ : Sorted c (entered c (room c q t) i t) :=
    enter_sorted hq.consistent hs hf.sound.consistent hsub hrest hi hcons henters
  have hpromotable : Promotable c (entered c (room c q t) i t) t := by
    intro hsome
    by_cases hlast : t.nonce.toNat + 1 = 2 ^ 256
    · rw [hlast, Nat.mod_self] at hsome ⊢
      obtain ⟨x, hx⟩ := Option.isSome_iff_exists.1 hsome
      have halone := hend hlast (Option.isSome_iff_exists.2 ⟨x, find_room_future hq.consistent hx⟩)
      refine .inr ?_
      intro y hy
      rcases mem_entered.1 hy with rfl | hy
      · rfl
      · exact halone y (hsub.subset hy)
    · have hbound := t.nonce.isLt
      refine .inl ?_
      intro b hb
      have hle := (lowest_spec hcons hb).2 t (mem_entered.2 (.inl rfl)) rfl
      omega
  have hs₂ : Sorted c q₁ := makeCurrent_sorted hcons hs₁ hpromotable hq₁
  rw [manageImport_eq hq.consistent k _ hprice, hq₂] at hq'
  dsimp only [Option.bind_eq_bind, Option.bind_some] at hq'
  obtain ⟨q₃, hq₃, hr⟩ := Option.bind_eq_some_iff.1 hq'
  obtain rfl : q₃ = q' := congrArg Prod.snd (Option.some.inj hr)
  have hs₂' : Sorted c { q₁ with m_known := insert (hash c t) q₁.m_known } := hs₂
  exact hs₂'.dropCurrent hf₂.sound.consistent (Nat.sub_le _ _) hq₃

theorem Sorted.remove (hq : Consistent c q) (hs : Sorted c q) (hleaves : ∀ x ∈ q.m_current, hash c x = h → Leaves c q x)
    {b : Bool} (hq' : q.remove c h = some (b, q')) : Sorted c q' := by
  by_cases hex : ∃ t ∈ q.m_current, hash c t = h
  · obtain ⟨t, ht, rfl⟩ := hex
    rw [remove_of_mem hq ht] at hq'
    obtain rfl : _ = q' := congrArg Prod.snd (Option.some.inj hq')
    exact hs.removed hq ht (hleaves t ht rfl)
  · rw [remove_of_not hq fun x hx hhash => hex ⟨x, hx, hhash⟩] at hq'
    obtain rfl : q = q' := congrArg Prod.snd (Option.some.inj hq')
    exact hs

theorem sorted_empty (limit futureLimit : ℕ) : Sorted c (empty limit futureLimit) := List.Pairwise.nil

/-- A steady step keeps the multiset sorted. -/
theorem step_sorted (hq : Sound c q) (hs : Sorted c q) {o : Op} (ho : Steady c q k o) (hq' : q.step c k o = some q') :
    Sorted c q' := by
  cases o with
  | importTransaction t ik =>
    obtain ⟨r, hr, heq⟩ := Option.bind_eq_some_iff.1 hq'
    obtain rfl : r.2 = q' := Option.some.inj heq
    by_cases ht : Accepts c q t ik
    · obtain ⟨henters, hend⟩ := ho ht
      rw [importTransaction_of_accepts k ht] at hr
      obtain ⟨r', hr', hpair⟩ := Option.bind_eq_some_iff.1 hr
      obtain rfl := Option.some.inj hpair
      exact manageImport_sorted hq hs ht.notMem ht.price henters hend hr'
    · obtain ⟨r', hr'⟩ := importTransaction_of_not_accepts hq.consistent k ht
      obtain rfl : (r', q) = r := Option.some.inj (hr'.symm.trans hr)
      exact hs
  | drop h =>
    change q.drop c h = some q' at hq'
    unfold drop at hq'
    by_cases hknown : h ∈ q.m_known
    · rw [if_neg (not_not.2 hknown)] at hq'
      obtain ⟨r, hr, heq⟩ := Option.bind_eq_some_iff.1 hq'
      obtain rfl : r.2 = q' := Option.some.inj heq
      exact Sorted.remove (q := { q with m_dropped := insert h q.m_dropped }) (hq.consistent.withKnown _ _) hs ho hr
    · rw [if_pos hknown] at hq'
      exact Option.some.inj hq' ▸ hs
  | dropGood t =>
    obtain ⟨hpromotable, hleaves⟩ := ho
    obtain ⟨q₁, hmake, hf₁⟩ := makeCurrent_follows (A := fun _ => False) hq k t
    have hs₁ := makeCurrent_sorted hq.consistent hs hpromotable hmake
    rcases dropGood_cases hmake hq' with rfl | ⟨b, hr⟩
    · exact hs₁
    · exact hs₁.remove hf₁.sound.consistent (hleaves q₁ hmake) hr
  | setFuture h => exact setFuture_sorted hq.consistent hs hq'
  | clear =>
    obtain rfl : q.clear = q' := Option.some.inj hq'
    exact sorted_empty q.m_limit q.m_futureLimit

/-- In a run of steady steps the multiset is sorted in every state, and what it lists first is in the order of
nonces. -/
theorem sorted_of_steady (c : Crypto) (limit futureLimit : ℕ) (os : List (Containers × Op))
    (hos : PartialRun.Along (fun q o => q.step c o.1 o.2) (fun q o => Steady c q o.1 o.2)
      (empty limit futureLimit) os) :
    PartialRun.Always (fun q o => q.step c o.1 o.2)
      (fun q => Sorted c q ∧ ∀ n avoid, ByNonce c (q.topTransactions c n avoid)) (empty limit futureLimit) os := by
  have hinv : PartialRun.Always (fun q o => q.step c o.1 o.2) (fun q => Sound c q ∧ Sorted c q)
      (empty limit futureLimit) os := by
    refine PartialRun.always_of_along ?_ ⟨sound_empty limit futureLimit, sorted_empty limit futureLimit⟩ hos
    rintro q o q' ⟨hq, hs⟩ ho hq'
    obtain ⟨q₁, hq₁, hf⟩ := step_spec hq o.1 o.2
    obtain rfl : q₁ = q' := Option.some.inj (hq₁.symm.trans hq')
    exact ⟨hf.sound, step_sorted hq hs ho hq'⟩
  exact hinv.mono fun q hq => ⟨hq.2, fun n avoid => hq.2.byNonce hq.1.consistent n avoid⟩

section

instance : Decidable (Overbid c q t) :=
  decidable_of_iff ((∃ old ∈ find q.m_currentByAddressAndNonce (t.sender c) t.nonce.toNat, t.gasPrice < old.gasPrice) ∨
      ∃ old ∈ find q.m_future (t.sender c) t.nonce.toNat, t.gasPrice < old.gasPrice) (by
    unfold Overbid
    simp only [or_and_right, exists_or, Option.mem_def])

instance {ik : IfDropped} : Decidable (Accepts c q t ik) :=
  decidable_of_iff (t.hasZeroSignature = false ∧ t.sha3 c .WithSignature = .ok (hash c t) ∧
      q.check (hash c t) ik = .Success ∧ ¬Overbid c q t)
    ⟨fun h => ⟨h.1, h.2.1, h.2.2.1, h.2.2.2⟩, fun h => ⟨h.notZero, h.signed, h.check, h.price⟩⟩

instance : Decidable (Alone c q a) := by unfold Alone; infer_instance

instance : Decidable (Enters c q a n) :=
  inferInstanceAs (Decidable ((∀ b ∈ q.lowest a, b ≤ n) ∨ Alone c q a))

instance : Decidable (Leaves c q t) := by unfold Leaves; infer_instance

instance : Decidable (Promotable c q t) := by unfold Promotable; infer_instance

instance : ∀ o : Op, Decidable (Steady c q k o)
  | .importTransaction t ik => inferInstanceAs (Decidable (Accepts c q t ik →
      Enters c q (t.sender c) t.nonce.toNat ∧
        (t.nonce.toNat + 1 = 2 ^ 256 → (find q.m_future (t.sender c) 0).isSome → Alone c q (t.sender c))))
  | .drop h => inferInstanceAs (Decidable (∀ x ∈ q.m_current, hash c x = h → Leaves c q x))
  | .dropGood t => inferInstanceAs (Decidable (Promotable c q t ∧
      ∀ q₁ ∈ q.makeCurrent c k t, ∀ x ∈ q₁.m_current, hash c x = hash c t → Leaves c q₁ x))
  | .setFuture _ => .isTrue trivial
  | .clear => .isTrue trivial

end

/-- Two senders: nonces 4 to 6 of the one around the nonce 2 of the other, a higher price for nonce 5, nonce 6 set
future and made current again. -/
def steadySteps : List (Containers × Op) :=
  [(.back, .importTransaction (transfer 2 2 1) .Ignore), (.front, .importTransaction (transfer 1 4 1) .Ignore),
    (.back, .importTransaction (transfer 1 5 2) .Ignore), (.front, .importTransaction (transfer 1 6 9) .Ignore),
    (.back, .importTransaction (transfer 2 3 3) .Ignore), (.front, .setFuture (hash checksum (transfer 1 6 9))),
    (.back, .importTransaction (transfer 1 5 4) .Ignore), (.front, .drop (hash checksum (transfer 2 3 3)))]

theorem sorted_of_steadySteps :
    PartialRun.Always (fun q o => q.step checksum o.1 o.2)
      (fun q => Sorted checksum q ∧ ∀ n avoid, ByNonce checksum (q.topTransactions checksum n avoid)) (empty 1024 1024)
      steadySteps ∧
    ((empty 1024 1024).run checksum steadySteps).map (fun q => q.topTransactions checksum 9 ∅) =
      some [transfer 2 2 1, transfer 1 4 1, transfer 1 5 4, transfer 1 6 9] :=
  ⟨sorted_of_steady checksum 1024 1024 steadySteps (by decide +kernel), by decide +kernel⟩

/-- The tree has the transaction of another sender at its root when one with a lower nonce comes in; this goes to the
right of the root, and the one with the higher nonce is on the left. -/
theorem lower_nonce_last :
    let os : List (Containers × Op) := [(.back, .importTransaction (transfer 2 0 1) .Ignore),
      (.back, .importTransaction (transfer 1 6 2) .Ignore), (.back, .importTransaction (transfer 1 4 1) .Ignore)]
    ∃ q, (empty 1024 1024).run checksum os = some q ∧ ¬Sorted checksum q ∧
      q.topTransactions checksum 3 ∅ = [transfer 1 6 2, transfer 2 0 1, transfer 1 4 1] ∧
      (transfer 1 6 2).sender checksum = (transfer 1 4 1).sender checksum := by
  intro os
  obtain ⟨q, hq, -⟩ := run_spec os _ (sound_empty (c := checksum) 1024 1024)
  have htop : ((empty 1024 1024).run checksum os).map (fun q => q.topTransactions checksum 3 ∅) =
      some [transfer 1 6 2, transfer 2 0 1, transfer 1 4 1] := by decide +kernel
  have hcurrent : ((empty 1024 1024).run checksum os).map m_current =
      some [transfer 1 6 2, transfer 2 0 1, transfer 1 4 1] := by decide +kernel
  have hless : ((empty 1024 1024).run checksum os).map
      (fun q => q.less checksum (transfer 2 0 1) (transfer 1 6 2)) = some true := by decide +kernel
  rw [hq] at htop hcurrent hless
  refine ⟨q, hq, ?_, Option.some.inj htop, by decide +kernel⟩
  intro hs
  unfold Sorted at hs
  rw [Option.some.inj hcurrent] at hs
  have hnot := (List.pairwise_cons.1 hs).1 (transfer 2 0 1) List.mem_cons_self
  exact absurd (hnot.symm.trans (Option.some.inj hless)) Bool.false_ne_true

end TransactionQueue

end Petrachor
