import FramePool.Proofs.FreeList
import Mathlib.Logic.Function.Basic

/-!
# Many free lists through one table

Any number of lists may be threaded through one table, as long as no frame is on two of them
(`FreeList.Family`). An operation on one of them writes to the descriptors of its own frames, which
is why the others do not notice it: that is `Family.relist`, and it is all that the operations have
to share.

An iteration over a list has no bound of its own: it goes from link to link until one leads nowhere
(`FreeList.Yields`). On a list that stands for a sequence it ends, and gives the sequence
(`Represents.yields_iff`).

So **a family of lists behaves as a family of sequences** (`Family.refines_sequences`).
-/

namespace FramePool.FreeList

open FrameTable Function

variable {ι : Type*} {t t' : FrameTable} {l l' : FreeList} {f : Frame} {d : Descriptor}
  {fs gs : List Frame}

/-! ### Iterating -/

/-- One step of an iteration: the frame that a link leads to, which the table must have, and the
link after it. -/
def next? (t : FrameTable) : (link : Option Frame) → Except Fault (Option (Frame × Option Frame))
  | none => .ok none
  | some f => (t.read f).map fun d ↦ some (f, d.next)

/-- From a link on, an iteration gives these frames and then ends. -/
inductive Yields (t : FrameTable) : (link : Option Frame) → List Frame → Prop
  /-- There is no frame any more. -/
  | finished {link : Option Frame} : next? t link = .ok none → Yields t link []
  /-- There is one, and the iteration goes on after it. -/
  | yielded {link rest : Option Frame} {f : Frame} {fs : List Frame} :
    next? t link = .ok (some (f, rest)) → Yields t rest fs → Yields t link (f :: fs)

/-- An iteration gives one sequence of frames at most. -/
theorem Yields.unique {link : Option Frame} (h : Yields t link fs) (h' : Yields t link gs) :
    gs = fs := by
  induction h generalizing gs with
  | finished hlast =>
    cases h' with
    | finished _ => rfl
    | yielded hnext _ => cases hlast.symm.trans hnext
  | yielded hnext _ ih =>
    cases h' with
    | finished hlast => cases hlast.symm.trans hnext
    | yielded hnext' hrest =>
      obtain ⟨rfl, rfl⟩ := Prod.mk.inj (Option.some.inj (Except.ok.inj (hnext.symm.trans hnext')))
      rw [ih hrest]

/-- Links that follow a sequence are iterated over to its end. -/
theorem yields_of_linked {prev : Option Frame} (h : t.Linked prev fs) : Yields t fs.head? fs := by
  induction fs generalizing prev with
  | nil => exact .finished rfl
  | cons f fs ih =>
    obtain ⟨⟨d, hd, -, -, hnext⟩, hrest⟩ := h
    have hstep : next? t (some f) = .ok (some (f, fs.head?)) := by
      rw [next?, read_eq_ok_iff.2 hd, ← hnext]
      rfl
    exact .yielded hstep (ih hrest)

/-- **Iterating** gives the sequence. -/
theorem Represents.yields_iff (h : l.Represents t fs) : Yields t l.head gs ↔ gs = fs := by
  have hyields : Yields t l.head fs := h.head_eq ▸ yields_of_linked h.linked
  exact ⟨fun hgs ↦ hyields.unique hgs, fun hgs ↦ hgs ▸ hyields⟩

/-! ### Families -/

/-- Lists through one table, each of which stands for a sequence of its own. -/
structure Family (t : FrameTable) (lists : ι → FreeList) (seqs : ι → List Frame) : Prop where
  /-- Each list stands for its sequence. -/
  represents : ∀ i, (lists i).Represents t (seqs i)
  /-- No frame is on two lists. -/
  disjoint : ∀ i j, i ≠ j → ∀ f ∈ seqs i, f ∉ seqs j

variable {lists : ι → FreeList} {seqs : ι → List Frame} {i j : ι}

/-- An unflagged frame is on no list. -/
theorem Family.not_mem (h : Family t lists seqs) (hd : t.get? f = some d) (hfree : d.free = false)
    (j : ι) : f ∉ seqs j := fun hf ↦ by
  obtain ⟨e, he, hefree⟩ := (h.represents j).get? hf
  obtain rfl := Option.some.inj (hd.symm.trans he)
  rw [hfree] at hefree
  cases hefree

/-- The counter of a list is no more than the number of frames: the members of the list are frames
of the table, and there are no two of them the same. -/
theorem Family.length_le (h : Family t lists seqs) (i : ι) : (seqs i).length ≤ t.length := by
  have hsub : seqs i ⊆ List.range t.length := fun f hf ↦ by
    obtain ⟨d, hd, -⟩ := (h.represents i).get? hf
    exact List.mem_range.2 (lt_of_get? hd)
  have hle := (List.subperm_of_subset (h.represents i).nodup hsub).length_le
  rwa [List.length_range] at hle

variable [DecidableEq ι]

/-- **One list is rethreaded.** `gs` are the frames whose links the change touches. Where they are
on no other list, the other lists stay as they are. -/
theorem Family.relist (h : Family t lists seqs) (hrep : l'.Represents t' fs)
    (hre : t.Rethreaded gs t') (hsub : ∀ g ∈ fs, g ∈ gs)
    (hgs : ∀ g ∈ gs, ∀ j, j ≠ i → g ∉ seqs j) :
    Family t' (update lists i l') (update seqs i fs) := by
  have hoff : ∀ j, j ≠ i → ∀ g ∈ seqs j, g ∉ gs := fun j hne g hg hmem ↦ hgs g hmem j hne hg
  refine ⟨fun j ↦ ?_, fun j k hjk g hj hk ↦ ?_⟩
  · rcases eq_or_ne j i with rfl | hne
    · rwa [update_self, update_self]
    · rw [update_of_ne hne, update_of_ne hne]
      exact (h.represents j).congr fun g hg ↦ hre.off g (hoff j hne g hg)
  · rcases eq_or_ne j i with rfl | hj'
    · rw [update_self] at hj
      rw [update_of_ne hjk.symm] at hk
      exact hoff k hjk.symm g hk (hsub g hj)
    · rw [update_of_ne hj'] at hj
      rcases eq_or_ne k i with rfl | hk'
      · rw [update_self] at hk
        exact hoff j hj' g hj (hsub g hk)
      · rw [update_of_ne hk'] at hk
        exact h.disjoint j k hjk g hj hk

/-- **Push** on one of the lists. -/
theorem Family.push (h : Family t lists seqs) (i : ι) (hd : t.get? f = some d)
    (hfree : d.free = false) :
    ∃ t' l', (lists i).push t f = .ok (t', l') ∧
      Family t' (update lists i l') (update seqs i (f :: seqs i)) ∧
      t.Rethreaded (f :: seqs i) t' := by
  obtain ⟨t', l', hpush, hrep, hre⟩ := (h.represents i).push hd hfree
  refine ⟨t', l', hpush, h.relist hrep hre (fun _ hg ↦ hg) fun g hg j hne ↦ ?_, hre⟩
  rcases List.mem_cons.1 hg with rfl | hg
  · exact h.not_mem hd hfree j
  · exact h.disjoint i j hne.symm g hg

/-- **Remove** on one of the lists, whose member is left without flag and links. -/
theorem Family.remove (h : Family t lists seqs) (hf : f ∈ seqs i) :
    ∃ t' l', (lists i).remove t f = .ok (t', l') ∧
      Family t' (update lists i l') (update seqs i ((seqs i).erase f)) ∧
      t.Rethreaded (seqs i) t' ∧ ∃ d, t.get? f = some d ∧ t'.get? f = some d.unlinked := by
  obtain ⟨d, hd, -⟩ := (h.represents i).get? hf
  obtain ⟨t', l', hremove, hrep, hre, hget⟩ := (h.represents i).remove hf hd
  refine ⟨t', l', hremove, ?_, hre, d, hd, hget⟩
  exact h.relist hrep hre (fun g ↦ List.mem_of_mem_erase) fun g hg j hne ↦
    h.disjoint i j hne.symm g hg

/-- **Pop** on one of the lists answers its first frame, if it has one, and leaves the others. -/
theorem Family.pop (h : Family t lists seqs) (i : ι) :
    ∃ t' l', (lists i).pop t = .ok ((seqs i).head?, t', l') ∧
      Family t' (update lists i l') (update seqs i (seqs i).tail) ∧
      t.Rethreaded (seqs i) t' ∧
      ∀ f ∈ (seqs i).head?, ∃ d, t.get? f = some d ∧ t'.get? f = some d.unlinked := by
  have hhead := (h.represents i).head_eq
  cases hseq : seqs i with
  | nil =>
    rw [hseq, List.head?_nil] at hhead
    refine ⟨t, lists i, by rw [FreeList.pop, hhead]; rfl, ?_, ⟨fun _ _ ↦ rfl, fun _ ↦ rfl⟩,
      fun f hf ↦ by cases hf⟩
    rw [List.tail_nil, ← hseq, update_eq_self, update_eq_self]
    exact h
  | cons f fs =>
    obtain ⟨t', l', hremove, hfamily, hre, hget⟩ :=
      h.remove (show f ∈ seqs i from hseq ▸ List.mem_cons_self)
    rw [hseq, List.erase_cons_head] at hfamily
    rw [hseq] at hre
    rw [hseq, List.head?_cons] at hhead
    refine ⟨t', l', by rw [FreeList.pop, hhead]; simp only [hremove]; rfl, hfamily, hre, ?_⟩
    intro g hg
    obtain rfl := Option.some.inj hg
    exact hget

/-- **A family of lists behaves as a family of sequences.** Take any of the lists. Putting an
unflagged frame on it puts the frame in front of its sequence. Taking the first frame off it answers
the first frame of the sequence, so none exactly if there is none, and leaves the tail. Taking a
member off, wherever it stands, leaves the others in their order. A frame that is taken off keeps
neither flag nor links. None of this is a fault. The other lists and their sequences stay, and so do
the descriptors of all frames that are not on the list, and of those that are, everything but flag
and links. An iteration gives the sequence and ends, with or without a bound. Whether it is empty
and how many frames it has can be read off the list, and there are no more of them than frames in
the table. -/
theorem Family.refines_sequences (h : Family t lists seqs) (i : ι) :
    (∀ f d, t.get? f = some d → d.free = false →
      ∃ t' l', (lists i).push t f = .ok (t', l') ∧
        Family t' (update lists i l') (update seqs i (f :: seqs i)) ∧
        t.Rethreaded (f :: seqs i) t') ∧
    (∃ t' l', (lists i).pop t = .ok ((seqs i).head?, t', l') ∧
        Family t' (update lists i l') (update seqs i (seqs i).tail) ∧
        t.Rethreaded (seqs i) t' ∧
        ∀ f ∈ (seqs i).head?, ∃ d, t.get? f = some d ∧ t'.get? f = some d.unlinked) ∧
    (∀ f ∈ seqs i, ∃ t' l', (lists i).remove t f = .ok (t', l') ∧
        Family t' (update lists i l') (update seqs i ((seqs i).erase f)) ∧
        t.Rethreaded (seqs i) t' ∧ ∃ d, t.get? f = some d ∧ t'.get? f = some d.unlinked) ∧
    (∀ fs, Yields t (lists i).head fs ↔ fs = seqs i) ∧ (lists i).walk t = seqs i ∧
    ((lists i).isEmpty = true ↔ seqs i = []) ∧
    (lists i).len = (seqs i).length ∧ (seqs i).length ≤ t.length := by
  have hrep := h.represents i
  exact ⟨fun f d hd hfree ↦ h.push i hd hfree, h.pop i, fun f hf ↦ h.remove hf,
    fun fs ↦ hrep.yields_iff, hrep.walk, hrep.isEmpty_iff, hrep.len_eq, h.length_le i⟩

/-- A table of six frames: 4, 2 and 0 are on one list, 5 and 1 on another, and 3 on none. -/
def braid : FrameTable where
  frames := #[{ free := true, prev := some 2 }, { free := true, prev := some 5 },
    { free := true, order := 1, prev := some 4, next := some 0 }, { refs := 1 },
    { free := true, next := some 2 }, { free := true, next := some 1 }]

/-- The two lists. -/
def strands : Bool → FreeList
  | false => ⟨some 4, 3⟩
  | true => ⟨some 5, 2⟩

/-- The sequences that they stand for. -/
def strandSeqs : Bool → List Frame
  | false => [4, 2, 0]
  | true => [5, 1]

theorem family_braid : Family braid strands strandSeqs where
  represents i := by
    cases i with
    | false =>
      exact ⟨by decide, rfl, rfl, ⟨_, rfl, rfl, rfl, rfl⟩, ⟨_, rfl, rfl, rfl, rfl⟩,
        ⟨_, rfl, rfl, rfl, rfl⟩, trivial⟩
    | true =>
      exact ⟨by decide, rfl, rfl, ⟨_, rfl, rfl, rfl, rfl⟩, ⟨_, rfl, rfl, rfl, rfl⟩, trivial⟩
  disjoint := by decide

/-- The frame in the middle of one list is taken off, and the other list does not notice. -/
theorem Family.refines_sequences_braid :
    Family braid strands strandSeqs ∧ 2 ∈ strandSeqs false ∧
      ∃ t' l', (strands false).remove braid 2 = .ok (t', l') ∧
        Family t' (update strands false l') (update strandSeqs false [4, 0]) ∧
        ∀ f ∈ strandSeqs true, t'.get? f = braid.get? f := by
  have hmem : 2 ∈ strandSeqs false := by decide
  obtain ⟨t', l', hremove, hfamily, hre, -⟩ :=
    (family_braid.refines_sequences false).2.2.1 2 hmem
  refine ⟨family_braid, hmem, t', l', hremove, hfamily, fun f hf ↦ hre.off f ?_⟩
  exact family_braid.disjoint true false (by decide) f hf

end FramePool.FreeList
