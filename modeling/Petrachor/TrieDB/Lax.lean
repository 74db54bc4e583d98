import Petrachor.TrieDB.Run

/-!
# Tries in a lenient database

A database that does not enforce its counts goes on answering for a node that was killed. So a trie without entries can
be opened and changed although the node it has for its root was counted for another trie, or is not counted any more.
-/

namespace Petrachor

open RLPStream Tally

namespace GenericTrieDB

section

variable {c : Crypto} {K N : Set Bytes} {δ : Type} [NodeDB δ] [LaxNodeDB δ] {db : δ} {A B R : Multiset Bytes}
  {l m : List (Act Bytes)} {a : Act Bytes} {b : Bytes} {t : Trie} {f : Bytes → Option Bytes} {op : Op}

/-- The node without entries is read under the root that it has. -/
def Nulled (c : Crypto) (db : δ) : Prop := node db c.EmptyTrie = RLPNull

/-- The database is lenient and about to take acts, and what it has under the root without entries is the right node. -/
structure Steady (c : Crypto) (N : Set Bytes) (db : δ) (A : Multiset Bytes) (l : List (Act Bytes)) : Prop
    extends Ready c N db A l where
  lax : LaxNodeDB.Lax db
  null : RLPNull ∈ N
  honest : NodeDB.exists db c.EmptyTrie = true → Nulled c db

namespace Steady

/-- An act may be left out. -/
theorem skip (h : Steady c N db A (a :: l)) : Steady c N db A l :=
  ⟨⟨h.apart, h.inside, fun b hb => h.entered b (List.mem_cons_of_mem _ hb), LaxNodeDB.spare h.keeps⟩, h.lax, h.null,
    h.honest⟩

theorem sha3_ne (h : Steady c N db A l) (hb : b ∈ N) (hne : b ≠ RLPNull) : c.EmptyTrie ≠ c.sha3 b :=
  fun heq => hne (h.apart hb h.null heq.symm)

theorem nulled_of_mem (h : Steady c N db A l) (hmem : RLPNull ∈ A) : Nulled c db :=
  h.holds _ hmem (List.cons_ne_nil _ _)

theorem enter (h : Steady c N db A (.enter b :: l)) : Steady c N (perform c db (.enter b)) (b ::ₘ A) l := by
  have hready := h.toReady.enter
  refine ⟨hready, LaxNodeDB.lax_insert _ _ h.lax, h.null, fun hexists => ?_⟩
  by_cases hb : b = RLPNull
  · exact hready.holds _ (hb ▸ Multiset.mem_cons_self _ _) (List.cons_ne_nil _ _)
  · have hne := h.sha3_ne (h.entered b List.mem_cons_self) hb
    exact (LaxNodeDB.lookup_insert db b hne).trans (h.honest ((LaxNodeDB.exists_insert db b hne).symm.trans hexists))

/-- What is struck need not be there. -/
theorem strike (h : Steady c N db A (.strike b :: l)) (hb : b ∈ N) :
    Steady c N (perform c db (.strike b)) (A.erase b) l := by
  refine ⟨?_, LaxNodeDB.lax_kill _ h.lax, h.null, fun hexists => ?_⟩
  · by_cases hmem : b ∈ A
    · have hready := h.toReady
      rw [← Multiset.cons_erase hmem] at hready
      exact hready.strike
    · rw [Multiset.erase_of_notMem hmem]
      refine ⟨h.apart, h.inside, fun x hx => h.entered x (List.mem_cons_of_mem _ hx), LaxNodeDB.idle h.keeps ?_⟩
      intro x hx heq
      obtain ⟨y, hy, rfl⟩ := Multiset.mem_map.1 hx
      exact hmem (h.apart (h.inside y hy) hb heq ▸ hy)
  · exact (LaxNodeDB.lookup_kill _ _ h.lax).trans (h.honest ((LaxNodeDB.exists_kill _ _ h.lax).symm.trans hexists))

theorem turns (h : Steady c N db A (m ++ l)) (hm : Turns m A B) : Steady c N (play c db m) B l := by
  induction hm generalizing db with
  | nil A => exact h
  | enter _ ih => exact ih h.enter
  | @strike b m A B _ ih =>
    have hstrike := h.strike (h.inside b (Multiset.mem_cons_self _ _))
    rw [Multiset.erase_cons_head] at hstrike
    exact ih hstrike

/-- The node without entries stays readable. -/
theorem nulled_perform (h : Steady c N db A (a :: l)) (hnull : Nulled c db) : Nulled c (perform c db a) := by
  cases a with
  | enter b =>
    by_cases hb : b = RLPNull
    · exact h.enter.nulled_of_mem (hb ▸ Multiset.mem_cons_self _ _)
    · exact (LaxNodeDB.lookup_insert db b (h.sha3_ne (h.entered b List.mem_cons_self) hb)).trans hnull
  | strike b => exact (LaxNodeDB.lookup_kill _ _ h.lax).trans hnull

theorem nulled_play (h : Steady c N db A (m ++ l)) (hm : Turns m A B) (hnull : Nulled c db) :
    Nulled c (play c db m) := by
  induction hm generalizing db with
  | nil A => exact hnull
  | enter _ ih => exact ih h.enter (h.nulled_perform hnull)
  | @strike b m A B _ ih =>
    have hstrike := h.strike (h.inside b (Multiset.mem_cons_self _ _))
    rw [Multiset.erase_cons_head] at hstrike
    exact ih hstrike (h.nulled_perform hnull)

end Steady

/-! ## What a trie needs -/

/-- The nodes of a trie that has entries; the one without any is made when it is needed. -/
def need (c : Crypto) (t : Trie) : Multiset Bytes := if t.isEmpty then 0 else all c t

theorem need_le_all (c : Crypto) (t : Trie) : need c t ≤ all c t := by
  unfold need
  split
  · exact Multiset.zero_le _
  · exact le_rfl

theorem own_le_need (c : Crypto) (t : Trie) : own c t ≤ need c t := by
  cases t with
  | empty => exact le_rfl
  | _ => exact own_le_all c _

theorem length_of_mem_stored (hb : b ∈ stored c t) : 32 ≤ b.length := by
  unfold stored at hb
  split at hb
  · exact absurd hb (Multiset.notMem_zero b)
  · rename_i hlen
    rw [Multiset.mem_singleton.1 hb]
    omega

theorem length_of_mem_kids (hb : b ∈ kids c t) : 32 ≤ b.length := by
  induction t with
  | empty => exact absurd hb (Multiset.notMem_zero b)
  | leaf p v => exact absurd hb (Multiset.notMem_zero b)
  | ext p t ih => exact (Multiset.mem_add.1 hb).elim length_of_mem_stored ih
  | branch ch ih =>
    obtain ⟨i, -, hi⟩ := Multiset.mem_sum.1 hb
    exact (Multiset.mem_add.1 hi).elim length_of_mem_stored (ih i)

theorem null_notMem_need (hK : KeySet K) (h : Shows K t f) : RLPNull ∉ need c t := by
  unfold need
  split
  · exact Multiset.notMem_zero _
  · rename_i hne
    intro hmem
    rcases Multiset.mem_cons.1 hmem with heq | hmem
    · exact encode_ne_null h hK (Bool.eq_false_of_not_eq_true hne) heq.symm
    · exact absurd (length_of_mem_kids hmem) (by decide)

/-- The trie is under its root, and the database has room for what it needs beside other nodes. -/
structure Afloat (c : Crypto) (N : Set Bytes) (g : GenericTrieDB δ) (t : Trie) (R : Multiset Bytes)
    (l : List (Act Bytes)) : Prop where
  root : g.m_root = c.sha3 (encode c t)
  steady : ∃ A, Steady c N g.m_db A l ∧ need c t + R ≤ A
  read : t.isEmpty = true → Nulled c g.m_db

variable {g : GenericTrieDB δ}

/-- The nodes that the trie refers to are in the database. -/
theorem Afloat.holds_own (hg : Afloat c N g t R l) : Holds c g.m_db (own c t) := by
  obtain ⟨A, hs, hle⟩ := hg.steady
  refine hs.holds.mono ?_
  calc GenericTrieDB.own c t ≤ need c t := own_le_need c t
    _ ≤ need c t + R := Multiset.le_add_right _ R
    _ ≤ A := hle

theorem Afloat.node_eq (hK : KeySet K) (h : Shows K t f) (hg : Afloat c N g t R l) :
    node g.m_db g.m_root = encode c t := by
  obtain ⟨A, hs, hle⟩ := hg.steady
  cases ht : t.isEmpty with
  | true =>
    cases t with
    | empty => exact (congrArg _ hg.root).trans (hg.read rfl)
    | _ => cases ht
  | false =>
    refine node_root h hK hg.root (hs.holds.mono ((Multiset.le_add_right _ R).trans ?_))
    rwa [need, ht, if_neg Bool.false_ne_true] at hle

/-- An operation on the trie leaves the other nodes alone. -/
theorem Afloat.step (hK : KeySet K) (h : Shows K t f) (hop : op.Valid K) (hg : Afloat c N g t R (op.acts c t ++ l))
    (hR : RLPNull ∉ R) :
    Op.step c g op = .ok ⟨c.sha3 (encode c (op.after t)), play c g.m_db (op.acts c t)⟩ ∧
      Afloat c N ⟨c.sha3 (encode c (op.after t)), play c g.m_db (op.acts c t)⟩ (op.after t) R l ∧
      (Nulled c g.m_db → Nulled c (play c g.m_db (op.acts c t))) := by
  have hnode := hg.node_eq hK h
  obtain ⟨A, hs, hle⟩ := hg.steady
  cases ht : t.isEmpty with
  | false =>
    rw [need, ht, if_neg Bool.false_ne_true] at hle
    obtain ⟨F, rfl⟩ := Multiset.le_iff_exists_add.1 hle
    obtain ⟨E, hE⟩ := Multiset.le_iff_exists_add.1 (own_le_all c t)
    have hturns := (turns_acts (c := c) hK h hop).frame (R + F)
    rw [← add_assoc, ← add_assoc] at hturns
    have hown := hs.toReady
    rw [hE, add_assoc, add_assoc] at hown
    refine ⟨act_eq hK h hg.root hnode hown hop, ⟨rfl, ⟨_, hs.turns hturns, ?_⟩, fun hempty => ?_⟩,
      hs.nulled_play hturns⟩
    · exact (Multiset.add_le_add_right (need_le_all c _)).trans (Multiset.le_add_right _ _)
    · refine (hs.turns hturns).nulled_of_mem ?_
      cases hafter : op.after t with
      | empty => exact Multiset.mem_add.2 (.inl (Multiset.mem_add.2 (.inl (Multiset.mem_cons_self _ _))))
      | _ =>
        rw [hafter] at hempty
        cases hempty
  | true =>
    cases t with
    | empty =>
      have hown : Ready c N g.m_db (own c .empty + A) (op.acts c .empty ++ l) := by
        rw [own_empty, zero_add]
        exact hs.toReady
      have hstep := act_eq hK h hg.root hnode hown hop
      rw [need, ht, if_pos rfl, zero_add] at hle
      cases op with
      | remove key =>
        have hneed : need c .empty + R ≤ A := (zero_add R).trans_le hle
        exact ⟨hstep, ⟨rfl, ⟨A, hs, hneed⟩, hg.read⟩, id⟩
      | insert key v =>
        -- the root of no entries is killed, whether or not it is counted
        have hstrike : Steady c N (perform c g.m_db (.strike RLPNull)) (A.erase RLPNull)
            (.enter (encode c (.leaf (word key) v)) :: l) := Steady.strike hs hs.null
        refine ⟨hstep, ⟨rfl, ⟨_, hstrike.enter, ?_⟩, fun hempty => by cases hempty⟩, fun hnull => ?_⟩
        · have hrest : R ≤ A.erase RLPNull := by
            rw [← Multiset.erase_of_notMem hR]
            exact Multiset.erase_le_erase _ hle
          have hneed : need c (.leaf (word key) v) = {encode c (.leaf (word key) v)} := rfl
          show need c (.leaf (word key) v) + R ≤ _
          rw [hneed, Multiset.singleton_add]
          exact Multiset.cons_le_cons _ hrest
        · exact hstrike.nulled_perform (Steady.nulled_perform hs hnull)
    | _ => cases ht

theorem Afloat.run (hK : KeySet K) (hR : RLPNull ∉ R) (ops : List Op) (hops : ∀ op ∈ ops, op.Valid K)
    (h : Shows K t f) (hg : Afloat c N g t R (Op.allActs c t ops ++ l)) :
    ∃ g', Op.run c g ops = .ok g' ∧ g'.m_db = play c g.m_db (Op.allActs c t ops) ∧
      Afloat c N g' (ops.foldl Op.after t) R l ∧ (Nulled c g.m_db → Nulled c g'.m_db) := by
  induction ops generalizing g t f with
  | nil => exact ⟨g, rfl, rfl, hg, id⟩
  | cons op ops ih =>
    have hop := hops op List.mem_cons_self
    rw [Op.allActs, List.append_assoc] at hg
    obtain ⟨hstep, hafter, hnull⟩ := hg.step hK h hop hR
    obtain ⟨g', hrun, hdb, hg', hnull'⟩ := ih (fun o ho => hops o (List.mem_cons_of_mem _ ho)) (h.step hK hop) hafter
    refine ⟨g', ?_, ?_, hg', hnull' ∘ hnull⟩
    · rw [← hrun]
      unfold Op.run
      rw [List.foldlM_cons, hstep]
      rfl
    · rw [hdb, Op.allActs, play_append]

theorem Afloat.at_eq (hK : KeySet K) (h : Shows K t f) (hg : Afloat c N g t R l) {key : Bytes}
    (hkey : key.length < 2 ^ 30) : g.at key = .ok ((f key).getD []) := by
  exact at_of_node hK h (hg.node_eq hK h) hg.holds_own hkey

theorem Afloat.root_eq (hK : KeySet K) (h : Shows K t f) (hg : Afloat c N g t R l) :
    g.root = .ok (c.sha3 (encode c t)) := by
  obtain ⟨q, hq⟩ := isItem_encode c h.canonical (h.fits hK)
  unfold GenericTrieDB.root
  rw [hg.node_eq hK h, if_neg fun h0 => hq.ne_nil (List.length_eq_zero_iff.1 h0), hg.root]

/-- A trie is opened under its root; the node without entries is entered if it is not there. -/
theorem Steady.open_eq (hK : KeySet K) (h : Shows K t f) (hs : Steady c N db A (.enter RLPNull :: l))
    (hle : need c t + R ≤ A) : ∃ g, «open» c db (c.sha3 (encode c t)) = .ok g ∧ Afloat c N g t R l ∧
      (Nulled c db → Nulled c g.m_db) := by
  obtain ⟨q, hq⟩ := isItem_encode c h.canonical (h.fits hK)
  cases ht : t.isEmpty with
  | false =>
    rw [need, ht, if_neg Bool.false_ne_true] at hle
    have hall : all c t ≤ A := (Multiset.le_add_right _ R).trans hle
    have hin : encode c t ∈ N := hs.inside _ (Multiset.mem_of_le hall (Multiset.mem_cons_self _ _))
    have hroot : c.sha3 (encode c t) ≠ c.EmptyTrie :=
      (hs.sha3_ne hin (encode_ne_null h hK ht)).symm
    have hnode : node db (c.sha3 (encode c t)) = encode c t := hs.holds _
      (Multiset.mem_of_le hall (Multiset.mem_cons_self _ _)) hq.ne_nil
    refine ⟨⟨c.sha3 (encode c t), db⟩, ?_, ⟨rfl, ⟨A, hs.skip, ?_⟩, fun hempty => ?_⟩, id⟩
    · exact open_of_node (if_neg fun hnew => hroot hnew.1) (ne_of_eq_of_ne hnode hq.ne_nil)
    · rwa [need, ht, if_neg Bool.false_ne_true]
    · rw [ht] at hempty
      cases hempty
  | true =>
    cases t with
    | empty =>
      have hne : RLPNull ≠ [] := List.cons_ne_nil _ _
      have hroot : c.sha3 (encode c .empty) = c.EmptyTrie := rfl
      rw [hroot]
      cases hexists : NodeDB.exists db c.EmptyTrie with
      | true =>
        have hnull := hs.honest hexists
        refine ⟨⟨c.EmptyTrie, db⟩, open_of_node (if_neg ?_) (ne_of_eq_of_ne hnull hne),
          ⟨rfl, ⟨A, hs.skip, hle⟩, fun _ => hnull⟩, id⟩
        simp [hexists]
      | false =>
        have henter := hs.enter
        have hnull : Nulled c (perform c db (.enter RLPNull)) := henter.nulled_of_mem (Multiset.mem_cons_self _ _)
        refine ⟨init c db, open_of_node (if_pos ⟨rfl, ?_⟩) (ne_of_eq_of_ne hnull hne),
          ⟨rfl, ⟨_, henter, hle.trans (Multiset.le_cons_self _ _)⟩, fun _ => hnull⟩, fun _ => hnull⟩
        simp [hexists]
    | _ => cases ht

end

end GenericTrieDB

end Petrachor
