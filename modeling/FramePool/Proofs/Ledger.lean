import FramePool.Proofs.Threads
import Mathlib.Data.List.Nodup

/-!
# Ledgers: the blocks that were handed out

A ledger lists the blocks that a pool handed out and did not get back, each with the references that
are held to it. It is no part of the pool: nothing in the table says where a block ends that was
handed out. What the table has of a ledger are the descriptors of the heads, and `Books` says that
they agree with it and that no other frame looks as if it headed such a block.

A ledger changes in three ways: a block is added, it is settled, or its references are recounted.
For each of them there is the write that keeps the books (`Books.lend`, `Books.settle`,
`Books.recount`).
-/

namespace FramePool

/-- A block that was handed out, and the number of references to it. -/
structure Loan extends Extent where
  /-- The references that are held. -/
  refs : Nat := 0
deriving DecidableEq, Repr

namespace Loan

variable {l l' : Loan} {ledger : List Loan} {t : FrameTable} {f : Nat}

/-- The blocks of a ledger. -/
def extents (ledger : List Loan) : List Extent := ledger.map (·.toExtent)

/-- The ledger once the block at a frame came back. -/
def settle (f : Nat) (ledger : List Loan) : List Loan := ledger.filter fun l ↦ l.head ≠ f

/-- The ledger with the references to the block at a frame counted anew. -/
def recount (f : Nat) (u : Nat → Nat) (ledger : List Loan) : List Loan :=
  ledger.map fun l ↦ if l.head = f then { l with refs := u l.refs } else l

/-- The ledger once a reference to the block at a frame was given back, and with the last one the
block itself. -/
def drop (f : Nat) (ledger : List Loan) : List Loan :=
  (recount f (· - 1) ledger).filter fun l ↦ ¬(l.head = f ∧ l.refs = 0)

theorem mem_extents (hl : l ∈ ledger) : l.toExtent ∈ extents ledger :=
  List.mem_map_of_mem hl

theorem mem_settle : l ∈ settle f ledger ↔ l ∈ ledger ∧ l.head ≠ f := by
  simp [settle]

@[simp] theorem extents_recount (f : Nat) (u : Nat → Nat) (ledger : List Loan) :
    extents (recount f u ledger) = extents ledger := by
  rw [extents, recount, List.map_map]
  refine List.map_congr_left fun l _ ↦ ?_
  rw [Function.comp_apply]
  split <;> rfl

/-- What is in a recounted ledger is a recounted loan. -/
theorem mem_recount {u : Nat → Nat} (hl : l ∈ recount f u ledger) :
    ∃ l' ∈ ledger, l'.toExtent = l.toExtent ∧
      l.refs = if l'.head = f then u l'.refs else l'.refs := by
  obtain ⟨l', hl', rfl⟩ := List.mem_map.1 hl
  refine ⟨l', hl', ?_⟩
  split <;> exact ⟨rfl, rfl⟩

theorem mem_recount_of_mem (hl : l ∈ ledger) (u : Nat → Nat) :
    { l with refs := u l.refs } ∈ recount l.head u ledger :=
  List.mem_map.2 ⟨l, hl, if_pos rfl⟩

/-- Each block is still there when references are recounted. -/
theorem exists_mem_recount (hl : l ∈ ledger) (f : Nat) (u : Nat → Nat) :
    ∃ k ∈ recount f u ledger, k.toExtent = l.toExtent := by
  refine ⟨_, List.mem_map_of_mem hl, ?_⟩
  split <;> rfl

/-- A loan of a recounted ledger, when its references are counted up. -/
theorem exists_of_mem_recount_succ (hl : l ∈ recount f (· + 1) ledger) :
    ∃ k ∈ ledger, k.toExtent = l.toExtent ∧ l.refs = k.refs + if f = l.head then 1 else 0 := by
  obtain ⟨k, hk, hext, hrefs⟩ := mem_recount hl
  refine ⟨k, hk, hext, ?_⟩
  rw [hrefs, hext]
  rcases eq_or_ne f l.head with rfl | hf
  · rw [if_pos rfl, if_pos rfl]
  · rw [if_neg hf.symm, if_neg hf, Nat.add_zero]

/-- A loan that is left when a reference to the block at a frame was given back: if it was to this
one, there are others, or it would not be left. -/
theorem exists_of_mem_drop (hl : l ∈ drop f ledger) :
    ∃ k ∈ ledger, k.toExtent = l.toExtent ∧ (l.refs + if f = l.head then 1 else 0) = k.refs := by
  obtain ⟨hl, hleft⟩ := List.mem_filter.1 hl
  obtain ⟨k, hk, hext, hrefs⟩ := mem_recount hl
  refine ⟨k, hk, hext, ?_⟩
  rw [hext] at hrefs
  rcases eq_or_ne f l.head with rfl | hf
  · have hpos : l.refs ≠ 0 := fun hzero ↦ by simp [hzero] at hleft
    rw [if_pos rfl] at hrefs ⊢
    omega
  · rw [if_neg hf.symm] at hrefs
    rw [if_neg hf, hrefs, Nat.add_zero]

/-- A block is still there when a reference is given back that is not its last one. -/
theorem exists_mem_drop (hl : l ∈ ledger) (hrefs : (if f = l.head then 1 else 0) < l.refs) :
    ∃ k ∈ drop f ledger, k.toExtent = l.toExtent := by
  refine ⟨_, List.mem_filter.2 ⟨List.mem_map_of_mem hl, decide_eq_true ?_⟩, ?_⟩
  · rcases eq_or_ne l.head f with heq | hne
    · rw [if_pos heq]
      rw [if_pos heq.symm] at hrefs
      rintro ⟨-, hzero : l.refs - 1 = 0⟩
      omega
    · rw [if_neg hne]
      exact fun h ↦ hne h.1
  · split <;> rfl

/-- The head of a block that was handed out lies in no block apart from it. -/
theorem head_not_mem {b : Extent} {bs : List Extent} (ht : Tiling t (b :: (bs ++ extents ledger)))
    (hl : l ∈ ledger) : l.head ∉ b := fun hmem ↦
  ht.not_mem_tail (List.mem_append_right _ (mem_extents hl)) hmem l.head_mem

/-- In a ledger whose blocks share no frame, a loan is known by its head. -/
theorem eq_of_head (ht : Tiling t (extents ledger)) (hl : l ∈ ledger) (hl' : l' ∈ ledger)
    (hhead : l'.head = l.head) : l' = l := by
  have hnodup : (extents ledger).Nodup := ht.nodup
  refine List.inj_on_of_nodup_map hnodup hl' hl ?_
  exact ht.eq_of_mem (mem_extents hl') (mem_extents hl) l'.head_mem (hhead ▸ l.head_mem)

/-- Counting the references to the first loan. -/
theorem recount_cons (ht : Tiling t (extents (l :: ledger))) (u : Nat → Nat) :
    recount l.head u (l :: ledger) = { l with refs := u l.refs } :: ledger := by
  have hrest : ∀ k ∈ ledger, k.head ≠ l.head := fun k hk heq ↦
    ht.not_mem_tail (mem_extents hk) l.head_mem (heq ▸ k.head_mem)
  rw [recount, List.map_cons, if_pos rfl]
  refine congrArg _ ((List.map_congr_left fun k hk ↦ ?_).trans (List.map_id ledger))
  rw [if_neg (hrest k hk), id]

/-- Settling the first loan. -/
theorem settle_cons (ht : Tiling t (extents (l :: ledger))) :
    settle l.head (l :: ledger) = ledger := by
  have hrest : ∀ k ∈ ledger, k.head ≠ l.head := fun k hk heq ↦
    ht.not_mem_tail (mem_extents hk) l.head_mem (heq ▸ k.head_mem)
  rw [settle, List.filter_cons_of_neg (by simp)]
  exact List.filter_eq_self.2 fun k hk ↦ decide_eq_true (hrest k hk)

/-- Settling takes one block out. -/
theorem extents_settle (ht : Tiling t (extents ledger)) (hl : l ∈ ledger) :
    (extents ledger).Perm (l.toExtent :: extents (settle l.head ledger)) := by
  have hnodup : ledger.Nodup := ht.nodup.of_map _
  have hsettle : ledger.erase l = settle l.head ledger := by
    rw [hnodup.erase_eq_filter, settle]
    refine List.filter_congr fun l' hl' ↦ ?_
    have hiff : l' = l ↔ l'.head = l.head := ⟨fun h ↦ h ▸ rfl, eq_of_head ht hl hl'⟩
    rw [bne, beq_eq_decide, ← decide_not, decide_eq_decide, hiff]
  rw [← hsettle]
  exact (List.perm_cons_erase hl).map _

end Loan

open FrameTable Loan

/-- The descriptors of the table agree with the ledger. -/
structure Books (t : FrameTable) (ledger : List Loan) : Prop where
  /-- The head of a block that was handed out says so, and has its order and its references. -/
  lent : ∀ l ∈ ledger, ∃ d, t.get? l.head = some d ∧ d.allocated = true ∧ d.order = l.order ∧
    d.refs = l.refs
  /-- No other frame is flagged allocated or has references. -/
  idle : ∀ f d, t.get? f = some d → (∀ l ∈ ledger, l.head ≠ f) → d.allocated = false ∧ d.refs = 0

namespace Books

variable {t t' : FrameTable} {ledger : List Loan} {f : Nat} {d : Descriptor} {S : Nat → Prop}

/-- Only the head of a block that was handed out is flagged allocated. -/
theorem exists_loan (h : Books t ledger) (hd : t.get? f = some d) (halloc : d.allocated = true) :
    ∃ l ∈ ledger, l.head = f ∧ d.order = l.order ∧ d.refs = l.refs := by
  by_contra hnone
  have hidle := h.idle f d hd fun l hl hf ↦ by
    obtain ⟨d', hd', -, ho, hr⟩ := h.lent l hl
    rw [hf, hd, Option.some.injEq] at hd'
    exact hnone ⟨l, hl, hf, hd' ▸ ho, hd' ▸ hr⟩
  rw [hidle.1] at halloc
  cases halloc

/-- **A ledger determines allocated flags and references** in the tables that agree with it. -/
theorem get?_eq {d' : Descriptor} (h : Books t ledger) (h' : Books t' ledger)
    (hd : t.get? f = some d) (hd' : t'.get? f = some d') :
    d'.allocated = d.allocated ∧ d'.refs = d.refs := by
  rcases Classical.em (∃ l ∈ ledger, l.head = f) with ⟨l, hl, rfl⟩ | hnone
  · obtain ⟨e, he, halloc, -, hrefs⟩ := h.lent l hl
    obtain ⟨e', he', halloc', -, hrefs'⟩ := h'.lent l hl
    obtain rfl : e = d := Option.some.inj (he.symm.trans hd)
    obtain rfl : e' = d' := Option.some.inj (he'.symm.trans hd')
    exact ⟨halloc'.trans halloc.symm, hrefs'.trans hrefs.symm⟩
  · have hf : ∀ l ∈ ledger, l.head ≠ f := fun l hl heq ↦ hnone ⟨l, hl, heq⟩
    obtain ⟨halloc, hrefs⟩ := h.idle f d hd hf
    obtain ⟨halloc', hrefs'⟩ := h'.idle f d' hd' hf
    exact ⟨halloc'.trans halloc.symm, hrefs'.trans hrefs.symm⟩

/-- Linking and labelling other frames keeps the books. -/
theorem relabelled (h : Books t ledger) (hre : t.Relabelled S t') (hS : ∀ l ∈ ledger, ¬S l.head) :
    Books t' ledger where
  lent l hl := by
    obtain ⟨d, hd, halloc, ho, hr⟩ := h.lent l hl
    obtain ⟨d', hd', -, halloc', hr', ho'⟩ := hre.get? hd
    exact ⟨d', hd', halloc'.trans halloc, (ho' (hS l hl)).trans ho, hr'.trans hr⟩
  idle f d' hd' hf := by
    obtain ⟨d, hd, -, halloc, hr, -⟩ := hre.symm.get? hd'
    rw [← halloc, ← hr]
    exact h.idle f d hd hf

/-- **Handing out** the block at a frame. -/
theorem lend (h : Books t ledger) (hd : t.get? f = some d) (hf : ∀ l ∈ ledger, l.head ≠ f) :
    Books (t.update f fun d ↦ { d with allocated := true }) (⟨⟨f, d.order⟩, 0⟩ :: ledger) where
  lent l hl := by
    rcases List.mem_cons.1 hl with rfl | hl
    · refine ⟨{ d with allocated := true }, ?_, rfl, rfl, (h.idle f d hd hf).2⟩
      rw [get?_update_self, hd]
      rfl
    · rw [get?_update_of_ne _ _ (hf l hl).symm]
      exact h.lent l hl
  idle g e he hg := by
    have hfg : f ≠ g := hg _ List.mem_cons_self
    rw [get?_update_of_ne _ _ hfg] at he
    exact h.idle g e he fun l hl ↦ hg l (List.mem_cons_of_mem _ hl)

/-- **Taking back** a block without references. -/
theorem settle (h : Books t ledger) {l : Loan} (hl : l ∈ ledger) (hrefs : l.refs = 0) :
    Books (t.update l.head fun d ↦ { d with allocated := false }) (settle l.head ledger) where
  lent l' hl' := by
    obtain ⟨hl', hne⟩ := mem_settle.1 hl'
    rw [get?_update_of_ne _ _ hne.symm]
    exact h.lent l' hl'
  idle f d hd hf := by
    by_cases hfl : f = l.head
    · subst hfl
      obtain ⟨e, he, -, -, hr⟩ := h.lent l hl
      rw [get?_update_self, he, Option.map_some, Option.some.injEq] at hd
      subst hd
      exact ⟨rfl, hr.trans hrefs⟩
    · rw [get?_update_of_ne _ _ (Ne.symm hfl)] at hd
      refine h.idle f d hd fun l' hl' hf' ↦ ?_
      exact hf l' (mem_settle.2 ⟨hl', fun heq ↦ hfl (hf' ▸ heq)⟩) hf'

/-- **Counting references** to a block that was handed out. -/
theorem recount (h : Books t ledger) {l : Loan} (hl : l ∈ ledger) (u : Nat → Nat) :
    Books (t.update l.head fun d ↦ { d with refs := u l.refs }) (recount l.head u ledger) where
  lent l' hl' := by
    obtain ⟨k, hk, hext, hr⟩ := mem_recount hl'
    obtain ⟨d, hd, halloc, ho, hrefs⟩ := h.lent k hk
    rw [← hext, hr]
    by_cases hhead : k.head = l.head
    · obtain ⟨e, he, -, -, hrefs'⟩ := h.lent l hl
      rw [← hhead, hd, Option.some.injEq] at he
      have hsame : k.refs = l.refs := by rw [← hrefs, he, hrefs']
      refine ⟨{ d with refs := u l.refs }, ?_, halloc, ho, ?_⟩
      · rw [← hhead, get?_update_self, hd]
        rfl
      · rw [if_pos hhead, hsame]
    · refine ⟨d, ?_, halloc, ho, ?_⟩
      · rw [get?_update_of_ne _ _ (Ne.symm hhead), hd]
      · rw [if_neg hhead, hrefs]
  idle f d hd hf := by
    have hf' : ∀ k ∈ ledger, k.head ≠ f := fun k hk heq ↦ by
      refine hf _ (List.mem_map_of_mem hk) ?_
      split <;> exact heq
    rw [get?_update_of_ne _ _ (hf' l hl)] at hd
    exact h.idle f d hd hf'

end Books

end FramePool
