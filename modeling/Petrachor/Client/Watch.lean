import Petrachor.Lib.PartialRun
import Petrachor.Lib.SortedMap
import Petrachor.LogFilter

/-!
# Watches

Watches refer to filters by their hash. A filter is installed with its first watch and counts one reference from
then on; the first watch of it that is uninstalled takes it away.
-/

namespace Petrachor

structure InstalledFilter where
  filter : LogFilter
  refCount : ℕ

/-- The filters and the watches of a client; of a watch, the hash that it refers to. -/
structure Watches where
  m_filters : H256 → Option InstalledFilter
  m_watches : List (ℕ × H256)
  m_subscribedWatch : ℕ → Option Bool
  ascending : SortedMap.Ascending m_watches
  unsigned : ∀ w ∈ m_watches, w.1 < 2 ^ 32

namespace Watches

def empty : Watches where
  m_filters _ := none
  m_watches := []
  m_subscribedWatch _ := none
  ascending := SortedMap.ascending_nil
  unsigned _ hw := absurd hw List.not_mem_nil

/-! ## The client's calls -/

/-- The number of the next watch. -/
def next (s : Watches) : ℕ :=
  match s.m_watches.getLast? with
  | some w => (w.1 + 1) % 2 ^ 32
  | none => 0

theorem next_lt (s : Watches) : s.next < 2 ^ 32 := by
  unfold next
  split
  · exact Nat.mod_lt _ (by decide)
  · decide

/-- `m_watches[i] = ClientWatch(h, …)`. -/
def setWatch (s : Watches) (i : ℕ) (h : H256) (hi : i < 2 ^ 32) : Watches :=
  { s with
    m_watches := SortedMap.set i h s.m_watches
    ascending := s.ascending.set i h
    unsigned := by
      intro w hw
      rcases (SortedMap.mem_set s.ascending).1 hw with rfl | ⟨hw, -⟩
      · exact hi
      · exact s.unsigned w hw }

def eraseWatch (s : Watches) (i : ℕ) : Watches :=
  { s with
    m_watches := SortedMap.erase i s.m_watches
    ascending := s.ascending.erase i
    unsigned := fun w hw => s.unsigned w (SortedMap.mem_erase.1 hw).1 }

/-- `installWatch` of a hash. -/
def installId (s : Watches) (h : H256) : ℕ × Watches := (s.next, s.setWatch s.next h s.next_lt)

/-- A filter that is not there is inserted. -/
def addFilter (s : Watches) (h : H256) (f : LogFilter) : Watches :=
  match s.m_filters h with
  | none => { s with m_filters := Function.update s.m_filters h (some ⟨f, 1⟩) }
  | some _ => s

/-- `installWatch` of a filter. -/
def installWatch (c : Crypto) (s : Watches) (f : LogFilter) : ℕ × Watches :=
  (s.addFilter (f.sha3 c) f).installId (f.sha3 c)

def installWatchWS (c : Crypto) (s : Watches) (f : LogFilter) : ℕ × Watches :=
  let (ret, s) := s.installWatch c f
  (ret, { s with m_subscribedWatch := Function.update s.m_subscribedWatch ret (some true) })

/-- The reference of a watch that is gone is given back. -/
def release (s : Watches) (h : H256) : Watches :=
  match s.m_filters h with
  | none => s
  | some fit =>
    let refCount := (fit.refCount + 2 ^ 32 - 1) % 2 ^ 32
    if refCount = 0 then { s with m_filters := Function.update s.m_filters h none }
    else { s with m_filters := Function.update s.m_filters h (some { fit with refCount }) }

def uninstallWatch (s : Watches) (i : ℕ) : Bool × Watches :=
  if s.m_subscribedWatch i = some true then (false, s)
  else match s.m_watches.lookup i with
    | none => (false, s)
    | some h => (true, (s.eraseWatch i).release h)

def uninstallWatchWS (s : Watches) (i : ℕ) : Bool × Watches :=
  match s.m_subscribedWatch i with
  | none => (false, s)
  | some _ =>
    let s := { s with m_subscribedWatch := Function.update s.m_subscribedWatch i none }
    (true, (s.uninstallWatch i).2)

inductive Op
  | installWatch (f : LogFilter)
  | installId (h : H256)
  | installWatchWS (f : LogFilter)
  | uninstallWatch (i : ℕ)
  | uninstallWatchWS (i : ℕ)

def step (c : Crypto) (s : Watches) : Op → Watches
  | .installWatch f => (s.installWatch c f).2
  | .installId h => (s.installId h).2
  | .installWatchWS f => (s.installWatchWS c f).2
  | .uninstallWatch i => (s.uninstallWatch i).2
  | .uninstallWatchWS i => (s.uninstallWatchWS i).2

/-! ## What is counted -/

/-- How many live watches refer to the hash. -/
def refers (s : Watches) (h : H256) : ℕ := s.m_watches.countP fun w => w.2 = h

/-- The hash is one of a log filter. -/
def IsFilter (c : Crypto) (h : H256) : Prop := ∃ f : LogFilter, h = f.sha3 c

/-- Every watch of a log filter has it installed, a filter counts its watches, and it is installed as long as it
has one. -/
structure Counted (c : Crypto) (s : Watches) : Prop where
  present : ∀ w ∈ s.m_watches, IsFilter c w.2 → s.m_filters w.2 ≠ none
  counted : ∀ h fit, s.m_filters h = some fit → fit.refCount = s.refers h
  referred : ∀ h, s.m_filters h ≠ none → ∃ w ∈ s.m_watches, w.2 = h

/-- The hash that the watch refers to which the next one overwrites: numbers start again behind the last one. -/
def overwritten (s : Watches) : Option H256 :=
  if s.m_watches.any fun w => w.1 = 2 ^ 32 - 1 then s.m_watches.lookup 0 else none

/-- A filter is installed only if no watch refers to it, and no hash of a filter is; no watch of a filter is
overwritten, unless by one of the same filter. -/
def Keeps (c : Crypto) (s : Watches) : Op → Prop
  | .installWatch f | .installWatchWS f => s.overwritten = some (f.sha3 c) ∨
      (∀ w ∈ s.m_watches, w.2 ≠ f.sha3 c) ∧ ∀ h, s.overwritten = some h → ¬IsFilter c h
  | .installId h => s.overwritten = some h ∨ ¬IsFilter c h ∧ ∀ h', s.overwritten = some h' → ¬IsFilter c h'
  | .uninstallWatch _ | .uninstallWatchWS _ => True

/-! ## One step -/

section

variable {c : Crypto} {s : Watches} {f : LogFilter} {h k : H256} {i : ℕ}

/-- The watch that is overwritten is the one with the next number. -/
theorem overwritten_eq (s : Watches) : s.overwritten = s.m_watches.lookup s.next := by
  unfold overwritten next
  cases hlast : s.m_watches.getLast? with
  | none =>
    rw [List.getLast?_eq_none_iff.1 hlast]
    rfl
  | some w =>
    have hmem := List.mem_of_getLast? hlast
    have hlt := s.unsigned w hmem
    by_cases hw : w.1 = 2 ^ 32 - 1
    · have hany : s.m_watches.any (fun w => w.1 = 2 ^ 32 - 1) = true :=
        List.any_eq_true.2 ⟨w, hmem, decide_eq_true hw⟩
      rw [if_pos hany]
      simp only
      rw [hw]
      rfl
    · have hnot : ¬s.m_watches.any (fun w => w.1 = 2 ^ 32 - 1) = true := by
        rw [List.any_eq_true]
        rintro ⟨x, hx, heq⟩
        have hle := s.ascending.le_getLast hlast hx
        rw [decide_eq_true_eq] at heq
        omega
      have hnone : s.m_watches.lookup (w.1 + 1) = none := by
        cases hl : s.m_watches.lookup (w.1 + 1) with
        | none => rfl
        | some x =>
          have hle := s.ascending.le_getLast hlast (SortedMap.mem_of_lookup hl)
          exact absurd hle (Nat.not_succ_le_self _)
      rw [if_neg hnot]
      simp only
      rw [Nat.mod_eq_of_lt (by omega), hnone]

theorem refers_setWatch (hi : i < 2 ^ 32) (k : H256) :
    (s.setWatch i h hi).refers k + (if s.m_watches.lookup i = some k then 1 else 0) =
      s.refers k + if h = k then 1 else 0 := by
  have hset : (s.setWatch i h hi).refers k = _ := s.ascending.countP_set i h fun w => w.2 = k
  rw [hset]
  unfold refers
  cases hl : s.m_watches.lookup i with
  | none =>
    have herase := SortedMap.erase_eq_self (s.ascending.ne_of_lookup_eq_none hl)
    rw [herase]
    simp
  | some x =>
    rw [s.ascending.countP_eq hl fun w => w.2 = k]
    simp only [decide_eq_true_eq, Option.some.injEq]
    omega

theorem refers_eraseWatch (hl : s.m_watches.lookup i = some h) (k : H256) :
    s.refers k = (s.eraseWatch i).refers k + if h = k then 1 else 0 := by
  have heq : s.refers k = _ := s.ascending.countP_eq hl fun w => w.2 = k
  rw [heq]
  simp only [decide_eq_true_eq]
  rfl

theorem refers_pos : 0 < s.refers k ↔ ∃ w ∈ s.m_watches, w.2 = k := by
  simp [refers, List.countP_pos_iff]

/-- What is installed is a filter with one reference. -/
def Single (c : Crypto) (s : Watches) : Prop := ∀ h fit, s.m_filters h = some fit → fit.refCount = 1 ∧ IsFilter c h

theorem Single.counted_iff (hs : s.Single c) :
    s.Counted c ↔ ∀ h, IsFilter c h → s.refers h = if (s.m_filters h).isSome then 1 else 0 := by
  constructor
  · intro hcount h hf
    cases hfit : s.m_filters h with
    | none =>
      have hnot : ¬0 < s.refers h := by
        rw [refers_pos]
        rintro ⟨w, hw, rfl⟩
        exact hcount.present w hw hf hfit
      exact Nat.eq_zero_of_not_pos hnot
    | some fit => exact (hcount.counted h fit hfit).symm.trans (hs h fit hfit).1
  · intro heq
    constructor
    · intro w hw hf hnone
      have hpos := refers_pos.2 ⟨w, hw, rfl⟩
      rw [heq w.2 hf, hnone] at hpos
      exact absurd hpos (lt_irrefl _)
    · intro h fit hfit
      obtain ⟨hone, hf⟩ := hs h fit hfit
      rw [hone, heq h hf, hfit]
      rfl
    · intro h hne
      obtain ⟨fit, hfit⟩ := Option.ne_none_iff_exists'.1 hne
      rw [← refers_pos, heq h (hs h fit hfit).2, hfit]
      exact Nat.one_pos

/-- A watch whose filter is not installed with it. -/
theorem Single.counted_setWatch_iff (hs : s.Single c) (hcount : s.Counted c) (h : H256) :
    (s.setWatch s.next h s.next_lt).Counted c ↔
      s.overwritten = some h ∨ ¬IsFilter c h ∧ ∀ k, s.overwritten = some k → ¬IsFilter c k := by
  have hs' : (s.setWatch s.next h s.next_lt).Single c := hs
  have heq := hs.counted_iff.1 hcount
  rw [hs'.counted_iff, overwritten_eq]
  constructor
  · intro heq'
    have hsame : ∀ k, IsFilter c k → (s.m_watches.lookup s.next = some k ↔ h = k) := by
      intro k hk
      have hrefers := refers_setWatch (s := s) (h := h) s.next_lt k
      have hfilters : s.refers k = (s.setWatch s.next h s.next_lt).refers k := (heq k hk).trans (heq' k hk).symm
      rw [hfilters, Nat.add_left_cancel_iff] at hrefers
      by_cases hl : s.m_watches.lookup s.next = some k
      · rw [if_pos hl] at hrefers
        exact iff_of_true hl (by by_contra hne; rw [if_neg hne] at hrefers; cases hrefers)
      · rw [if_neg hl] at hrefers
        exact iff_of_false hl fun he => (by rw [if_pos he] at hrefers; cases hrefers)
    by_cases hf : IsFilter c h
    · exact .inl ((hsame h hf).2 rfl)
    · refine .inr ⟨hf, fun k hk hfk => hf ?_⟩
      rw [(hsame k hfk).1 hk]
      exact hfk
  · intro hcond k hk
    have hrefers := refers_setWatch (s := s) (h := h) s.next_lt k
    have hsame : s.m_watches.lookup s.next = some k ↔ h = k := by
      rcases hcond with hl | ⟨hf, hold⟩
      · rw [hl, Option.some.injEq]
      · exact iff_of_false (fun hl => hold k hl hk) fun he => hf (he ▸ hk)
    rw [if_congr hsame rfl rfl, Nat.add_right_cancel_iff] at hrefers
    exact hrefers.trans (heq k hk)

theorem addFilter_of_some (h : (s.m_filters k).isSome) : s.addFilter k f = s := by
  obtain ⟨fit, hfit⟩ := Option.isSome_iff_exists.1 h
  rw [addFilter, hfit]

theorem addFilter_filters (hnone : s.m_filters h = none) (k : H256) :
    (s.addFilter h f).m_filters k = if k = h then some ⟨f, 1⟩ else s.m_filters k := by
  rw [addFilter, hnone]
  exact Function.update_apply ..

theorem addFilter_watches (s : Watches) (h : H256) (f : LogFilter) : (s.addFilter h f).m_watches = s.m_watches := by
  unfold addFilter
  split <;> rfl

theorem Single.addFilter (hs : s.Single c) (f : LogFilter) : (s.addFilter (f.sha3 c) f).Single c := by
  intro k fit hfit
  cases hf : s.m_filters (f.sha3 c) with
  | some fit' =>
    rw [addFilter_of_some (by rw [hf]; rfl)] at hfit
    exact hs k fit hfit
  | none =>
    rw [addFilter_filters hf] at hfit
    split at hfit
    · cases hfit
      exact ⟨rfl, f, by assumption⟩
    · exact hs k fit hfit

/-- A watch with which its filter is installed. -/
theorem Single.counted_install_iff (hs : s.Single c) (hcount : s.Counted c) (hnone : s.m_filters (f.sha3 c) = none) :
    (s.installWatch c f).2.Counted c ↔ ∀ k, s.overwritten = some k → ¬IsFilter c k := by
  have heq := hs.counted_iff.1 hcount
  have hzero : s.refers (f.sha3 c) = 0 := by
    rw [heq _ ⟨f, rfl⟩, hnone]
    rfl
  have hwatches := addFilter_watches s (f.sha3 c) f
  have hfilters : ∀ k, (s.installWatch c f).2.m_filters k = if k = f.sha3 c then some ⟨f, 1⟩ else s.m_filters k :=
    addFilter_filters hnone
  have hs' : (s.installWatch c f).2.Single c := hs.addFilter f
  have hrefers : ∀ k, (s.installWatch c f).2.refers k + (if s.overwritten = some k then 1 else 0) =
      s.refers k + if f.sha3 c = k then 1 else 0 := by
    intro k
    have hk := refers_setWatch (s := s.addFilter (f.sha3 c) f) (h := f.sha3 c)
      (s.addFilter (f.sha3 c) f).next_lt k
    have hover : (s.addFilter (f.sha3 c) f).overwritten = s.overwritten := by
      unfold overwritten
      rw [hwatches]
    have hsame : (s.addFilter (f.sha3 c) f).refers k = s.refers k := by
      unfold refers
      rw [hwatches]
    rw [← overwritten_eq, hover, hsame] at hk
    exact hk
  rw [hs'.counted_iff]
  constructor
  · intro heq' k hk hfk
    have hk' := hrefers k
    rw [overwritten_eq] at hk
    have hpos : 0 < s.refers k := refers_pos.2 ⟨_, SortedMap.mem_of_lookup hk, rfl⟩
    have hne : k ≠ f.sha3 c := by
      rintro rfl
      rw [hzero] at hpos
      exact lt_irrefl 0 hpos
    rw [heq' k hfk, hfilters, if_neg hne, ← heq k hfk, overwritten_eq, if_pos hk, if_neg hne.symm] at hk'
    omega
  · intro hold k hfk
    have hk' := hrefers k
    rw [if_neg fun hl => hold k hl hfk, Nat.add_zero] at hk'
    rw [hk', hfilters]
    by_cases hk : k = f.sha3 c
    · subst hk
      rw [hzero, if_pos rfl, if_pos rfl]
      rfl
    · rw [if_neg (Ne.symm hk), if_neg hk, Nat.add_zero, heq k hfk]

theorem Single.installWatch_iff (hs : s.Single c) (hcount : s.Counted c) (f : LogFilter) :
    (s.installWatch c f).2.Counted c ↔ s.Keeps c (.installWatch f) := by
  have heq := hs.counted_iff.1 hcount (f.sha3 c) ⟨f, rfl⟩
  cases hf : s.m_filters (f.sha3 c) with
  | none =>
    have hno : ∀ w ∈ s.m_watches, w.2 ≠ f.sha3 c := by
      intro w hw he
      have hpos := refers_pos.2 ⟨w, hw, he⟩
      rw [heq, hf] at hpos
      exact absurd hpos (lt_irrefl 0)
    have hnot : s.overwritten ≠ some (f.sha3 c) := by
      intro hl
      rw [overwritten_eq] at hl
      exact hno _ (SortedMap.mem_of_lookup hl) rfl
    rw [hs.counted_install_iff hcount hf, Keeps]
    exact ⟨fun h => .inr ⟨hno, h⟩, fun h => (h.resolve_left hnot).2⟩
  | some fit =>
    have hyes : ∃ w ∈ s.m_watches, w.2 = f.sha3 c := by
      rw [← refers_pos, heq, hf]
      exact Nat.one_pos
    rw [installWatch, addFilter_of_some (by rw [hf]; rfl), installId, hs.counted_setWatch_iff hcount, Keeps]
    refine or_congr .rfl ⟨fun h => absurd ⟨f, rfl⟩ h.1, fun h => ?_⟩
    obtain ⟨w, hw, he⟩ := hyes
    exact absurd he (h.1 w hw)

theorem release_of_none (hf : s.m_filters h = none) : s.release h = s := by rw [release, hf]

theorem release_of_last {fit : InstalledFilter} (hf : s.m_filters h = some fit)
    (hzero : (fit.refCount + 2 ^ 32 - 1) % 2 ^ 32 = 0) :
    s.release h = { s with m_filters := Function.update s.m_filters h none } := by
  rw [release, hf]
  exact if_pos hzero

theorem release_of_more {fit : InstalledFilter} (hf : s.m_filters h = some fit)
    (hmore : (fit.refCount + 2 ^ 32 - 1) % 2 ^ 32 ≠ 0) : s.release h = { s with
      m_filters := Function.update s.m_filters h
        (some { fit with refCount := (fit.refCount + 2 ^ 32 - 1) % 2 ^ 32 }) } := by
  rw [release, hf]
  exact if_neg hmore

theorem release_watches (s : Watches) (h : H256) : (s.release h).m_watches = s.m_watches := by
  cases hf : s.m_filters h with
  | none => rw [release_of_none hf]
  | some fit =>
    by_cases hzero : (fit.refCount + 2 ^ 32 - 1) % 2 ^ 32 = 0
    · rw [release_of_last hf hzero]
    · rw [release_of_more hf hzero]

/-- What is uninstalled takes its filter with it. -/
theorem Single.release (hs : s.Single c) (h k : H256) :
    (s.release h).m_filters k = if k = h then none else s.m_filters k := by
  cases hf : s.m_filters h with
  | none =>
    rw [release_of_none hf]
    by_cases hk : k = h
    · rw [if_pos hk, hk, hf]
    · rw [if_neg hk]
  | some fit =>
    have hone := (hs h fit hf).1
    rw [release_of_last hf (by omega)]
    exact Function.update_apply ..

theorem Single.eraseWatch_release (hs : s.Single c) (hcount : s.Counted c) (hl : s.m_watches.lookup i = some h) :
    ((s.eraseWatch i).release h).Counted c := by
  have hs₁ : (s.eraseWatch i).Single c := hs
  have hfilters : ∀ k, ((s.eraseWatch i).release h).m_filters k = if k = h then none else s.m_filters k :=
    hs₁.release h
  have hs' : ((s.eraseWatch i).release h).Single c := by
    intro k fit hfit
    rw [hfilters] at hfit
    split at hfit
    · cases hfit
    · exact hs k fit hfit
  rw [hs'.counted_iff]
  intro k hk
  have hrefers := refers_eraseWatch hl k
  rw [hs.counted_iff.1 hcount k hk] at hrefers
  have hpos : 0 < s.refers h := refers_pos.2 ⟨_, SortedMap.mem_of_lookup hl, rfl⟩
  rw [refers, release_watches, hfilters]
  by_cases hkh : k = h
  · subst hkh
    rw [hs.counted_iff.1 hcount k hk] at hpos
    have hone : (if (s.m_filters k).isSome then 1 else 0) = 1 := by
      split at hpos
      · rw [if_pos (by assumption)]
      · exact absurd hpos (lt_irrefl 0)
    rw [hone, if_pos rfl] at hrefers
    rw [if_pos rfl]
    exact (Nat.succ.inj hrefers).symm
  · rw [if_neg (Ne.symm hkh), Nat.add_zero] at hrefers
    rw [if_neg hkh]
    exact hrefers.symm

theorem Single.release_single (hs : s.Single c) (h : H256) : (s.release h).Single c := by
  intro k fit hfit
  rw [hs.release h] at hfit
  split at hfit
  · cases hfit
  · exact hs k fit hfit

theorem Single.uninstallWatch (hs : s.Single c) (i : ℕ) :
    (s.uninstallWatch i).2.Single c ∧ (s.Counted c → (s.uninstallWatch i).2.Counted c) := by
  unfold Watches.uninstallWatch
  split
  · exact ⟨hs, id⟩
  · split
    · exact ⟨hs, id⟩
    · rename_i h hl
      have hs₁ : (s.eraseWatch i).Single c := hs
      exact ⟨hs₁.release_single h, fun hcount => hs.eraseWatch_release hcount hl⟩

/-- Only what is installed can break the count. -/
theorem Single.step (hs : s.Single c) (op : Op) :
    (s.step c op).Single c ∧ (s.Counted c → ((s.step c op).Counted c ↔ s.Keeps c op)) := by
  cases op with
  | installWatch f => exact ⟨hs.addFilter f, fun hcount => hs.installWatch_iff hcount f⟩
  | installId h => exact ⟨hs, fun hcount => hs.counted_setWatch_iff hcount h⟩
  | installWatchWS f =>
    refine ⟨hs.addFilter f, fun hcount => ?_⟩
    rw [show s.Keeps c (.installWatchWS f) ↔ s.Keeps c (.installWatch f) from .rfl, ← hs.installWatch_iff hcount f]
    exact ⟨fun h => ⟨h.present, h.counted, h.referred⟩, fun h => ⟨h.present, h.counted, h.referred⟩⟩
  | uninstallWatch i =>
    obtain ⟨hsingle, hcount'⟩ := hs.uninstallWatch i
    exact ⟨hsingle, fun hcount => iff_of_true (hcount' hcount) trivial⟩
  | uninstallWatchWS i =>
    rw [Watches.step, uninstallWatchWS]
    split
    · exact ⟨hs, fun hcount => iff_of_true hcount trivial⟩
    · have hs₁ : Single c { s with m_subscribedWatch := Function.update s.m_subscribedWatch i none } := hs
      obtain ⟨hsingle, hcount'⟩ := hs₁.uninstallWatch i
      exact ⟨hsingle, fun hcount => iff_of_true (hcount' ⟨hcount.present, hcount.counted, hcount.referred⟩) trivial⟩

/-- A filter goes when its last watch goes, and not before. -/
theorem Counted.removed_iff {s' : Watches} (h : s.Counted c) (h' : s'.Counted c) (hk : IsFilter c k) :
    s.m_filters k ≠ none ∧ s'.m_filters k = none ↔ 0 < s.refers k ∧ s'.refers k = 0 := by
  have hheld : ∀ {t : Watches}, t.Counted c → (t.m_filters k ≠ none ↔ 0 < t.refers k) := by
    intro t ht
    rw [refers_pos]
    constructor
    · exact ht.referred k
    · rintro ⟨w, hw, rfl⟩
      exact ht.present w hw hk
  rw [hheld h, ← not_iff_not.1 ((hheld h').trans Nat.pos_iff_ne_zero)]

end

/-! ## Runs -/

theorem counted_empty (c : Crypto) : empty.Counted c where
  present _ hw := absurd hw List.not_mem_nil
  counted _ _ hfit := by cases hfit
  referred _ hne := absurd rfl hne

/-- In the step a filter goes just when its last watch goes. -/
def GoesWithLast (c : Crypto) (s : Watches) (op : Op) : Prop :=
  ∀ k, IsFilter c k →
    (s.m_filters k ≠ none ∧ (step c s op).m_filters k = none ↔ 0 < s.refers k ∧ (step c s op).refers k = 0)

/-- The references are counted in every state of a run just when no step of it installs a filter, or the hash of
one, that a watch refers to already; in such a run each filter goes with its last watch. -/
theorem always_counted_iff (c : Crypto) (ops : List Op) :
    (PartialRun.Always (fun s op => some (step c s op)) (Counted c) empty ops ↔
      PartialRun.Along (fun s op => some (step c s op)) (Keeps c) empty ops) ∧
    (PartialRun.Always (fun s op => some (step c s op)) (Counted c) empty ops →
      PartialRun.Along (fun s op => some (step c s op)) (GoesWithLast c) empty ops) := by
  have hsingle : empty.Single c := fun _ _ hfit => by cases hfit
  constructor
  · apply PartialRun.always_iff_along (I := Single c) _ _ _ hsingle (counted_empty c)
    · exact fun s op _ => .inr ⟨_, rfl⟩
    · rintro s op s' hs ⟨rfl⟩
      exact (hs.step op).1
    · rintro s op s' hs hcount ⟨rfl⟩
      exact (hs.step op).2 hcount
  · intro halways
    refine halways.along fun s op hcount hnext => ?_
    intro k hk
    exact hcount.removed_iff (hnext _ rfl) hk

set_option maxRecDepth 100000 in
/-- Two watches of one filter, one of which is uninstalled: the other one is left without it. -/
theorem counted_lost : ¬PartialRun.Always (fun s op => some (step Devnet.crypto s op)) (Counted Devnet.crypto) empty
    [.installWatch (.forTopic 7), .installWatch (.forTopic 7), .uninstallWatch 0] := by
  rintro ⟨-, h⟩
  obtain ⟨-, h⟩ := h _ rfl
  obtain ⟨-, h⟩ := h _ rfl
  have hlast := h _ rfl
  refine hlast.present (1, (LogFilter.forTopic 7).sha3 Devnet.crypto) ?_ ⟨_, rfl⟩ ?_
  · decide
  · rw [← Option.isNone_iff_eq_none]
    decide

end Watches

end Petrachor
