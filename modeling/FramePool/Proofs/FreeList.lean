import FramePool.FreeList
import FramePool.Proofs.Outcome
import Mathlib.Data.List.Perm.Basic

/-!
# Free lists as sequences

A free list stands for a sequence of distinct frames (`FreeList.Represents`): its first frame is the
head, its length is the counter, and each frame on it is flagged free and linked to its neighbours
(`FrameTable.Linked`, which follows the sequence). The three operations are then those of sequences:

* `push` puts a frame in front (`Represents.push`),
* `remove` takes a member out, wherever it stands (`Represents.remove`),
* `walk` reads the sequence off the table (`Represents.walk`).

Many lists share one table, so each statement comes with its frame: descriptors of frames that are
not on the list stay, and nothing but links and the free flag changes anywhere
(`FrameTable.Rethreaded`).
-/

namespace FramePool

/-- The descriptor of a frame that is on no list and is the same otherwise. -/
def Descriptor.unlinked (d : Descriptor) : Descriptor :=
  { d with free := false, prev := none, next := none }

namespace FrameTable

variable {t t' : FrameTable} {f g : Frame} {fs : List Frame} {prev : Option Frame}

/-- The frames are flagged free and linked to each other in the order of the sequence; `prev` is
what comes before the first. -/
def Linked (t : FrameTable) : (prev : Option Frame) → List Frame → Prop
  | _, [] => True
  | prev, f :: fs =>
    (∃ d, t.get? f = some d ∧ d.free = true ∧ d.prev = prev ∧ d.next = fs.head?) ∧
      Linked t (some f) fs

/-- Another threading of the same frames: links and free flags may differ on `fs`, and nothing
else. -/
structure Rethreaded (fs : List Frame) (t t' : FrameTable) : Prop where
  /-- Off `fs` nothing differs. -/
  off : ∀ f, f ∉ fs → t'.get? f = t.get? f
  /-- On `fs` only flag and links differ. -/
  unlinked : ∀ f, (t'.get? f).map Descriptor.unlinked = (t.get? f).map Descriptor.unlinked

/-- A linked sequence stays linked when the descriptors of its members stay. -/
theorem Linked.congr (h : t.Linked prev fs) (heq : ∀ f ∈ fs, t'.get? f = t.get? f) :
    t'.Linked prev fs := by
  induction fs generalizing prev with
  | nil => trivial
  | cons f fs ih =>
    obtain ⟨hd, hrest⟩ := h
    refine ⟨?_, ih hrest fun g hg ↦ heq g (List.mem_cons_of_mem f hg)⟩
    rwa [heq f List.mem_cons_self]

/-- A write that leaves free flag and links of a frame alone leaves sequences linked. -/
theorem Linked.write {u : Descriptor → Descriptor} (h : t.Linked prev fs)
    (hu : ∀ d, (u d).free = d.free ∧ (u d).prev = d.prev ∧ (u d).next = d.next) :
    (t.update f u).Linked prev fs := by
  induction fs generalizing prev with
  | nil => trivial
  | cons g fs ih =>
    obtain ⟨⟨d, hd, hfree, hprev, hnext⟩, hrest⟩ := h
    refine ⟨?_, ih hrest⟩
    rw [get?_update, hd]
    split
    · exact ⟨u d, rfl, (hu d).1.trans hfree, (hu d).2.1.trans hprev, (hu d).2.2.trans hnext⟩
    · exact ⟨d, rfl, hfree, hprev, hnext⟩

/-- The descriptor of a member, with its neighbours. -/
theorem Linked.get?_of_append {fs gs : List Frame} (h : t.Linked prev (fs ++ f :: gs)) :
    ∃ d, t.get? f = some d ∧ d.free = true ∧ d.prev = fs.getLast?.or prev ∧
      d.next = gs.head? := by
  induction fs generalizing prev with
  | nil => exact h.1
  | cons e fs ih =>
    obtain ⟨d, hd, hfree, hprev, hnext⟩ := ih h.2
    refine ⟨d, hd, hfree, ?_, hnext⟩
    rw [hprev, List.getLast?_cons]
    cases fs.getLast? with
    | none => rfl
    | some x => rfl

theorem Linked.get?_of_mem (h : t.Linked prev fs) (hf : f ∈ fs) :
    ∃ d, t.get? f = some d ∧ d.free = true := by
  obtain ⟨before, after, rfl⟩ := List.append_of_mem hf
  obtain ⟨d, hd, hfree, -⟩ := h.get?_of_append
  exact ⟨d, hd, hfree⟩

/-- Where two tables link the same sequence, its members have the same links. -/
theorem Linked.get?_eq {d d' : Descriptor} (h : t.Linked prev fs) (h' : t'.Linked prev fs)
    (hf : f ∈ fs) (hd : t.get? f = some d) (hd' : t'.get? f = some d') :
    d'.free = d.free ∧ d'.prev = d.prev ∧ d'.next = d.next := by
  obtain ⟨before, after, rfl⟩ := List.append_of_mem hf
  obtain ⟨e, he, hfree, hprev, hnext⟩ := h.get?_of_append
  obtain ⟨e', he', hfree', hprev', hnext'⟩ := h'.get?_of_append
  obtain rfl : e = d := Option.some.inj (he.symm.trans hd)
  obtain rfl : e' = d' := Option.some.inj (he'.symm.trans hd')
  exact ⟨hfree'.trans hfree.symm, hprev'.trans hprev.symm, hnext'.trans hnext.symm⟩

/-- Only the first member looks at what comes before the sequence. -/
theorem Linked.relink {prev' : Option Frame} (h : t.Linked prev fs) (hnodup : fs.Nodup)
    (hhead : ∀ g e, fs.head? = some g → t.get? g = some e →
      t'.get? g = some { e with prev := prev' })
    (hrest : ∀ g ∈ fs, fs.head? ≠ some g → t'.get? g = t.get? g) : t'.Linked prev' fs := by
  cases fs with
  | nil => trivial
  | cons g fs =>
    obtain ⟨⟨e, he, hfree, -, hnext⟩, htail⟩ := h
    refine ⟨⟨_, hhead g e rfl he, hfree, rfl, hnext⟩, htail.congr fun x hx ↦ ?_⟩
    refine hrest x (List.mem_cons_of_mem g hx) fun heq ↦ ?_
    rw [List.head?_cons, Option.some.injEq] at heq
    exact (List.nodup_cons.1 hnodup).1 (heq ▸ hx)

/-- The frame `f`, whose descriptor was `d`, is on no list any more, and its neighbours are linked
to each other. -/
structure Bypassed (t : FrameTable) (f : Frame) (d : Descriptor) (t' : FrameTable) : Prop where
  /-- The frame itself has no flag and no links. -/
  self : t'.get? f = some d.unlinked
  /-- The frame before it comes before the frame after it. -/
  before : ∀ g e, d.prev = some g → t.get? g = some e → t'.get? g = some { e with next := d.next }
  /-- The frame after it comes after the frame before it. -/
  after : ∀ g e, d.next = some g → t.get? g = some e → t'.get? g = some { e with prev := d.prev }
  /-- The other frames stay. -/
  rest : ∀ g, g ≠ f → d.prev ≠ some g → d.next ≠ some g → t'.get? g = t.get? g
  /-- Nothing but flag and links differs. -/
  unlinked : ∀ g, (t'.get? g).map Descriptor.unlinked = (t.get? g).map Descriptor.unlinked

/-- **Unlinking.** A sequence without a member that was bypassed is linked. The induction is on what
comes before `f`; only its last frame, or the head of the list if there is none, gets another
successor. -/
theorem Linked.unlink {before after : List Frame} {d : Descriptor}
    (h : t.Linked prev (before ++ f :: after)) (hnodup : (before ++ f :: after).Nodup)
    (hprev : ∀ g, prev = some g → g ∉ before ++ f :: after) (hd : t.get? f = some d)
    (hby : t.Bypassed f d t') : t'.Linked prev (before ++ after) := by
  induction before generalizing prev with
  | nil =>
    obtain ⟨d', hd', -, hdprev, hdnext⟩ := h.1
    obtain rfl : d = d' := Option.some.inj (hd.symm.trans hd')
    rw [List.nil_append, List.nodup_cons] at hnodup
    rw [← hdprev]
    refine h.2.relink hnodup.2 (fun g e hg ↦ hby.after g e (hdnext.trans hg)) fun g hg hne ↦ ?_
    refine hby.rest g ?_ ?_ (hdnext ▸ hne)
    · rintro rfl; exact hnodup.1 hg
    · intro heq
      exact hprev g (hdprev ▸ heq) (List.mem_cons_of_mem f hg)
  | cons g before ih =>
    obtain ⟨⟨e, he, hefree, heprev, henext⟩, htail⟩ := h
    rw [List.cons_append, List.nodup_cons] at hnodup
    have hlink : t'.Linked (some g) (before ++ after) :=
      ih htail hnodup.2 fun x hx ↦ by
        rw [← Option.some.inj hx]; exact hnodup.1
    refine ⟨?_, hlink⟩
    obtain ⟨d', hd', -, hdprev, hdnext⟩ := htail.get?_of_append
    obtain rfl : d = d' := Option.some.inj (hd.symm.trans hd')
    cases before with
    | nil =>
      exact ⟨_, hby.before g e hdprev he, hefree, heprev, hdnext⟩
    | cons x before =>
      refine ⟨e, ?_, hefree, heprev, henext⟩
      rw [hby.rest g ?_ ?_ ?_, he]
      · rintro rfl; exact hnodup.1 (by simp)
      · intro heq
        rw [hdprev, List.getLast?_eq_some_getLast (List.cons_ne_nil x before), Option.some_or,
          Option.some.injEq] at heq
        exact hnodup.1 (List.mem_append_left _ (heq ▸ List.getLast_mem _))
      · intro heq
        rw [hdnext] at heq
        exact hnodup.1 (List.mem_append_right _
          (List.mem_cons_of_mem _ (List.mem_of_mem_head? heq)))

theorem lt_of_get? {d : Descriptor} (h : t.get? f = some d) : f < t.length :=
  get?_isSome.1 (by rw [h]; rfl)

/-- A link that leads into the table can be followed by a write. -/
theorem writeLink_eq_ok (link : Option Frame) (u : Descriptor → Descriptor)
    (h : ∀ g, link = some g → g < t.length) :
    ∃ t', t.writeLink link u = .ok t' ∧ t'.length = t.length ∧
      ∀ g, t'.get? g = if link = some g then (t.get? g).map u else t.get? g := by
  cases link with
  | none => exact ⟨t, rfl, rfl, fun g ↦ by simp⟩
  | some e =>
    refine ⟨t.update e u, ?_, length_update t e u, fun g ↦ ?_⟩
    · rw [writeLink, write, if_pos (h e rfl)]
    · rw [get?_update]
      simp only [Option.some.injEq]

/-- **Three writes** bypass a frame whose neighbours are two other frames of the table. -/
theorem exists_bypassed {d : Descriptor} (hd : t.get? f = some d)
    (hprev : ∀ g, d.prev = some g → g < t.length ∧ f ≠ g ∧ d.next ≠ some g)
    (hnext : ∀ g, d.next = some g → g < t.length ∧ f ≠ g) :
    ∃ t₁ t₂,
      (t.update f fun d ↦ { d with free := false, prev := none, next := none }).writeLink d.prev
        (fun e ↦ { e with next := d.next }) = .ok t₁ ∧
      t₁.writeLink d.next (fun e ↦ { e with prev := d.prev }) = .ok t₂ ∧ t.Bypassed f d t₂ := by
  obtain ⟨t₁, hwrite₁, hlen₁, hget₁⟩ := writeLink_eq_ok
    (t := t.update f fun d ↦ { d with free := false, prev := none, next := none })
    d.prev (fun e ↦ { e with next := d.next }) fun g hg ↦ by
      rw [length_update]
      exact (hprev g hg).1
  obtain ⟨t₂, hwrite₂, -, hget₂⟩ := writeLink_eq_ok (t := t₁)
    d.next (fun e ↦ { e with prev := d.prev }) fun g hg ↦ by
      rw [hlen₁, length_update]
      exact (hnext g hg).1
  refine ⟨t₁, t₂, hwrite₁, hwrite₂, ?_, fun g e hg he ↦ ?_, fun g e hg he ↦ ?_,
    fun g hg hgprev hgnext ↦ ?_, fun g ↦ ?_⟩
  · rw [hget₂, if_neg fun hf ↦ (hnext f hf).2 rfl, hget₁, if_neg fun hf ↦ (hprev f hf).2.1 rfl,
      get?_update_self, hd]
    rfl
  · rw [hget₂, if_neg (hprev g hg).2.2, hget₁, if_pos hg,
      get?_update_of_ne _ _ (hprev g hg).2.1, he]
    rfl
  · rw [hget₂, if_pos hg, hget₁, if_neg fun hg' ↦ (hprev g hg').2.2 hg,
      get?_update_of_ne _ _ (hnext g hg).2, he]
    rfl
  · rw [hget₂, if_neg hgnext, hget₁, if_neg hgprev, get?_update_of_ne _ _ hg.symm]
  · rw [hget₂, hget₁, get?_update]
    split <;> split <;> split <;> cases t.get? g <;> rfl

end FrameTable

namespace FreeList

open FrameTable

variable {t t' : FrameTable} {l : FreeList} {f : Frame} {fs : List Frame} {d : Descriptor}

/-- The list stands for the sequence. -/
structure Represents (l : FreeList) (t : FrameTable) (fs : List Frame) : Prop where
  /-- No frame is on the list twice. -/
  nodup : fs.Nodup
  /-- The list starts with the first frame of the sequence. -/
  head_eq : l.head = fs.head?
  /-- The counter is the length. -/
  len_eq : l.len = fs.length
  /-- Flags and links follow the sequence. -/
  linked : t.Linked none fs

theorem Represents.congr (h : l.Represents t fs) (heq : ∀ f ∈ fs, t'.get? f = t.get? f) :
    l.Represents t' fs :=
  ⟨h.nodup, h.head_eq, h.len_eq, h.linked.congr heq⟩

theorem Represents.get? (h : l.Represents t fs) (hf : f ∈ fs) :
    ∃ d, t.get? f = some d ∧ d.free = true :=
  h.linked.get?_of_mem hf

/-- Lists that stand for the same sequence are the same. -/
theorem Represents.eq {l' : FreeList} (h : l.Represents t fs) (h' : l'.Represents t' fs) :
    l' = l := by
  obtain ⟨head, len⟩ := l
  obtain ⟨head', len'⟩ := l'
  rw [FreeList.mk.injEq]
  exact ⟨h'.head_eq.trans h.head_eq.symm, h'.len_eq.trans h.len_eq.symm⟩

/-- The empty list stands for the empty sequence. -/
theorem represents_nil (t : FrameTable) : ({} : FreeList).Represents t [] :=
  ⟨List.nodup_nil, rfl, rfl, trivial⟩

/-- **Push** puts an unflagged frame of the table in front. -/
theorem Represents.push (h : l.Represents t fs) (hd : t.get? f = some d) (hfree : d.free = false) :
    ∃ t' l', l.push t f = .ok (t', l') ∧ l'.Represents t' (f :: fs) ∧
      t.Rethreaded (f :: fs) t' := by
  have hf : f ∉ fs := fun hmem ↦ by
    obtain ⟨e, he, hefree⟩ := h.get? hmem
    rw [hd, Option.some.injEq] at he
    rw [he, hefree] at hfree
    exact Bool.noConfusion hfree
  have hhead : ∀ g, l.head = some g → g ∈ fs := fun g hg ↦
    List.mem_of_mem_head? (h.head_eq ▸ hg)
  obtain ⟨t', hwrite, -, hget⟩ :=
    writeLink_eq_ok (t := t.update f fun d ↦ { d with free := true, prev := none, next := l.head })
      l.head (fun e ↦ { e with prev := some f }) fun g hg ↦ by
        obtain ⟨e, he, -⟩ := h.get? (hhead g hg)
        rw [length_update]; exact lt_of_get? he
  have hne : ∀ g ∈ fs, f ≠ g := fun g hg heq ↦ hf (heq ▸ hg)
  refine ⟨t', { head := some f, len := l.len + 1 }, ?_,
    ⟨List.nodup_cons.2 ⟨hf, h.nodup⟩, rfl, ?_, ?_, ?_⟩, ?_, ?_⟩
  · simp only [FreeList.push, read_eq_ok_iff.2 hd, ok_bind, require_of_pos hfree, hwrite]
    rfl
  · rw [h.len_eq]; rfl
  · refine ⟨{ d with free := true, prev := none, next := l.head }, ?_, rfl, rfl, h.head_eq⟩
    rw [hget, if_neg fun hg ↦ hf (hhead f hg), get?_update_self, hd]
    rfl
  · refine h.linked.relink h.nodup (fun g e hg he ↦ ?_) fun g hg hgne ↦ ?_
    · rw [hget, if_pos (h.head_eq.trans hg),
        get?_update_of_ne _ _ (hne g (List.mem_of_mem_head? hg)), he]
      rfl
    · rw [hget, if_neg (h.head_eq ▸ hgne), get?_update_of_ne _ _ (hne g hg)]
  · intro g hg
    rw [List.mem_cons, not_or] at hg
    rw [hget, if_neg fun hg' ↦ hg.2 (hhead g hg'), get?_update_of_ne _ _ (Ne.symm hg.1)]
  · intro g
    rw [hget, get?_update]
    split <;> split <;> cases t.get? g <;> rfl

/-- **Remove** takes a member out, wherever it stands. -/
theorem Represents.remove (h : l.Represents t fs) (hf : f ∈ fs) (hd : t.get? f = some d) :
    ∃ t' l', l.remove t f = .ok (t', l') ∧ l'.Represents t' (fs.erase f) ∧ t.Rethreaded fs t' ∧
      t'.get? f = some d.unlinked := by
  obtain ⟨before, after, rfl⟩ := List.append_of_mem hf
  obtain ⟨d', hd', hfree, hdprev, hdnext⟩ := h.linked.get?_of_append
  obtain rfl : d = d' := Option.some.inj (hd.symm.trans hd')
  rw [Option.or_none] at hdprev
  have hnodup := List.nodup_append.1 h.nodup
  have hfbefore : f ∉ before := fun hmem ↦ hnodup.2.2 f hmem f List.mem_cons_self rfl
  have hfafter : f ∉ after := (List.nodup_cons.1 hnodup.2.1).1
  have hprevmem : ∀ g, d.prev = some g → g ∈ before := fun g hg ↦
    List.mem_of_getLast? (hdprev ▸ hg)
  have hnextmem : ∀ g, d.next = some g → g ∈ after := fun g hg ↦
    List.mem_of_mem_head? (hdnext ▸ hg)
  have hlt : ∀ g ∈ before ++ f :: after, g < t.length := fun g hg ↦ by
    obtain ⟨e, he, -⟩ := h.get? hg
    exact lt_of_get? he
  obtain ⟨t₁, t₂, hwrite₁, hwrite₂, hby⟩ := exists_bypassed hd
    (fun g hg ↦ ⟨hlt g (List.mem_append_left _ (hprevmem g hg)),
      fun heq ↦ hfbefore (heq ▸ hprevmem g hg),
      fun hg' ↦ hnodup.2.2 g (hprevmem g hg) g (List.mem_cons_of_mem f (hnextmem g hg')) rfl⟩)
    fun g hg ↦ ⟨hlt g (List.mem_append_right _ (List.mem_cons_of_mem f (hnextmem g hg))),
      fun heq ↦ hfafter (heq ▸ hnextmem g hg)⟩
  have herase : (before ++ f :: after).erase f = before ++ after := by
    rw [List.erase_append_right _ hfbefore, List.erase_cons_head]
  refine ⟨t₂, { head := if d.prev = none then d.next else l.head, len := l.len - 1 }, ?_,
    ⟨h.nodup.erase f, ?_, ?_, ?_⟩, ⟨fun g hg ↦ ?_, hby.unlinked⟩, hby.self⟩
  · have hfirst : d.prev = none → l.head = some f := fun hnone ↦ by
      rw [hdprev, List.getLast?_eq_none_iff] at hnone
      rw [h.head_eq, hnone]; rfl
    have hpos : 1 ≤ l.len := by rw [h.len_eq, List.length_append, List.length_cons]; omega
    simp only [FreeList.remove, read_eq_ok_iff.2 hd, ok_bind, require_of_pos hfree,
      require_of_pos hfirst, hwrite₁, hwrite₂, Word.sub_eq_ok_iff.2 ⟨hpos, rfl⟩]
    rfl
  · rw [herase]
    cases before with
    | nil => simp only [hdprev, hdnext, List.getLast?_nil, List.nil_append, if_true]
    | cons x before =>
      rw [hdprev, List.getLast?_cons, if_neg (Option.some_ne_none _), h.head_eq]
      rfl
  · rw [List.length_erase_of_mem hf, h.len_eq]
  · rw [herase]
    exact h.linked.unlink h.nodup (fun g hg ↦ absurd hg (Option.some_ne_none g).symm) hd hby
  · rw [List.mem_append, List.mem_cons, not_or, not_or] at hg
    exact hby.rest g hg.2.1 (fun hg' ↦ hg.1 (hprevmem g hg')) fun hg' ↦ hg.2.2 (hnextmem g hg')

/-- **Pop** takes the first frame off. -/
theorem Represents.pop (h : l.Represents t (f :: fs)) (hd : t.get? f = some d) :
    ∃ t' l', l.pop t = .ok (some f, t', l') ∧ l'.Represents t' fs ∧
      t.Rethreaded (f :: fs) t' ∧ t'.get? f = some d.unlinked := by
  obtain ⟨t', l', hremove, hrep, hrest, hf⟩ := h.remove List.mem_cons_self hd
  rw [List.erase_cons_head] at hrep
  refine ⟨t', l', ?_, hrep, hrest, hf⟩
  have hhead : l.head = some f := h.head_eq
  simp only [FreeList.pop, hhead, hremove]
  rfl

/-! ### Reading the sequence -/

/-- Following the links from a member on gives the rest of the sequence. -/
theorem follow_eq {prev : Option Frame} (h : t.Linked prev fs) :
    follow t fs.length fs.head? = fs := by
  induction fs generalizing prev with
  | nil => rfl
  | cons f fs ih =>
    obtain ⟨⟨d, hd, -, -, hnext⟩, htail⟩ := h
    rw [List.length_cons, List.head?_cons, follow, hd, Option.bind_some, hnext, ih htail]

/-- **Walk** reads the sequence off the table. -/
theorem Represents.walk (h : l.Represents t fs) : l.walk t = fs := by
  rw [FreeList.walk, h.len_eq, h.head_eq, follow_eq h.linked]

/-- A list is empty when the sequence is. -/
theorem Represents.isEmpty_iff (h : l.Represents t fs) : l.isEmpty = true ↔ fs = [] := by
  rw [isEmpty, h.head_eq]
  cases fs <;> simp

end FreeList

end FramePool
