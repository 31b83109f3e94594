import FramePool.Pool.Basic
import FramePool.Proofs.FreeList
import FramePool.Proofs.Layout

/-!
# The threads of a pool

A pool is threaded by a layout (`Pool.Threads`) when the list of each order stands for the sequence
that the layout has there, and flags, orders and links in the table say the same: a frame is flagged
free exactly when it is on the list of its order, and a frame on no list has no links.

Each of the four small changes to a pool has one statement here: `link` pushes a block on the
layout, `unlink` erases one, `popFirst` takes the first off, and a write to a frame that is on no
list leaves the layout alone. What they do to the rest of the table is bounded by
`FrameTable.Relabelled`: the order may change on the frames named, and otherwise only free flags and
links do.
-/

namespace FramePool

open Function

/-! ### What a change of labels leaves alone -/

/-- The descriptor of a frame without its list, its links and its order. -/
def Descriptor.stripped (d : Descriptor) : Descriptor := { d.unlinked with order := 0 }

namespace FrameTable

/-- The tables differ in free flags and links, and on the frames of `S` in orders. -/
structure Relabelled (S : Nat → Prop) (t t' : FrameTable) : Prop where
  /-- Reserved and allocated flags and references stay. -/
  stripped : ∀ f, (t'.get? f).map Descriptor.stripped = (t.get? f).map Descriptor.stripped
  /-- Orders stay where they are not to be changed. -/
  unlinked : ∀ f, ¬S f → (t'.get? f).map Descriptor.unlinked = (t.get? f).map Descriptor.unlinked

namespace Relabelled

variable {S S' : Nat → Prop} {t t' t'' : FrameTable} {f : Nat} {d : Descriptor}

theorem refl (S : Nat → Prop) (t : FrameTable) : t.Relabelled S t := ⟨fun _ ↦ rfl, fun _ _ ↦ rfl⟩

theorem symm (h : t.Relabelled S t') : t'.Relabelled S t :=
  ⟨fun f ↦ (h.stripped f).symm, fun f hf ↦ (h.unlinked f hf).symm⟩

theorem trans (h : t.Relabelled S t') (h' : t'.Relabelled S t'') : t.Relabelled S t'' :=
  ⟨fun f ↦ (h'.stripped f).trans (h.stripped f),
    fun f hf ↦ (h'.unlinked f hf).trans (h.unlinked f hf)⟩

theorem mono (h : t.Relabelled S t') (hS : ∀ f, S f → S' f) : t.Relabelled S' t' :=
  ⟨h.stripped, fun f hf ↦ h.unlinked f fun hf' ↦ hf (hS f hf')⟩

theorem get? (h : t.Relabelled S t') (hd : t.get? f = some d) :
    ∃ d', t'.get? f = some d' ∧ d'.reserved = d.reserved ∧ d'.allocated = d.allocated ∧
      d'.refs = d.refs ∧ (¬S f → d'.order = d.order) := by
  have hs := h.stripped f
  rw [hd, Option.map_some, Option.map_eq_some_iff] at hs
  obtain ⟨d', hd', heq⟩ := hs
  have hfields : d'.stripped.reserved = d.stripped.reserved ∧
      d'.stripped.allocated = d.stripped.allocated ∧ d'.stripped.refs = d.stripped.refs := by
    rw [heq]; exact ⟨rfl, rfl, rfl⟩
  refine ⟨d', hd', hfields.1, hfields.2.1, hfields.2.2, fun hf ↦ ?_⟩
  have hu := h.unlinked f hf
  rw [hd, hd', Option.map_some, Option.map_some, Option.some.injEq] at hu
  have horder : d'.unlinked.order = d.unlinked.order := by rw [hu]
  exact horder

theorem length_eq (h : t.Relabelled S t') : t'.length = t.length := by
  have hle : ∀ {t t' : FrameTable}, t.Relabelled S t' → t.length ≤ t'.length := by
    intro t t' h
    refine Nat.le_of_not_lt fun hlt ↦ ?_
    obtain ⟨d, hd⟩ := Option.isSome_iff_exists.1 (get?_isSome.2 hlt)
    obtain ⟨d', hd', -⟩ := h.get? hd
    exact absurd (lt_of_get? hd') (Nat.lt_irrefl _)
  exact Nat.le_antisymm (hle h.symm) (hle h)

theorem isReserved_eq (h : t.Relabelled S t') (f : Nat) : t'.isReserved f = t.isReserved f := by
  have key : ∀ {t t' : FrameTable}, t.Relabelled S t' → ∀ d, t.get? f = some d →
      t'.isReserved f = t.isReserved f := fun h d hd ↦ by
    obtain ⟨d', hd', hres, -⟩ := h.get? hd
    rw [isReserved, isReserved, hd, hd', Option.any_some, Option.any_some, hres]
  cases hd : t.get? f with
  | some d => exact key h d hd
  | none =>
    cases hd' : t'.get? f with
    | some d' => exact (key h.symm d' hd').symm
    | none => rw [isReserved, isReserved, hd, hd']

end Relabelled

theorem Rethreaded.relabelled {fs : List Frame} {t t' : FrameTable} (h : t.Rethreaded fs t')
    (S : Nat → Prop) : t.Relabelled S t' where
  stripped f := by
    have hcongr := congrArg (Option.map fun d : Descriptor ↦ { d with order := 0 }) (h.unlinked f)
    rw [Option.map_map, Option.map_map] at hcongr
    exact hcongr
  unlinked f _ := h.unlinked f

/-- A write that touches no more than the order of one frame. -/
theorem relabelled_update (t : FrameTable) (f o : Nat) :
    t.Relabelled (· = f) (t.update f fun d ↦ { d with order := o }) where
  stripped g := by
    rw [get?_update]
    split <;> cases t.get? g <;> rfl
  unlinked g hg := by
    rw [get?_update_of_ne _ _ (Ne.symm hg)]

end FrameTable

/-! ### Threads -/

namespace Pool

open FrameTable FreeList

variable {p : Pool} {L : Layout} {o f : Nat} {d : Descriptor}

/-- The lists of the pool stand for the sequences of the layout, and the table agrees. -/
structure Threads (p : Pool) (L : Layout) : Prop where
  /-- Each list stands for its sequence. -/
  represents : ∀ o < orderCount, (p.list o).Represents p.table (L o)
  /-- There are no other orders. -/
  bounded : L.Bounded
  /-- A listed frame has the order of its list and is not handed out. -/
  labelled : ∀ o, ∀ f ∈ L o, ∀ d, p.table.get? f = some d → d.order = o ∧ d.allocated = false
  /-- A frame flagged free is on the list of its order. -/
  listed : ∀ f d, p.table.get? f = some d → d.free = true → f ∈ L d.order
  /-- A frame on no list has no links. -/
  unlinked : ∀ f d, p.table.get? f = some d → d.free = false → d.prev = none ∧ d.next = none

theorem Threads.lt_orderCount (h : p.Threads L) (hf : f ∈ L o) : o < orderCount := by
  refine Nat.lt_of_not_le fun hle ↦ ?_
  rw [h.bounded o hle] at hf
  cases hf

theorem Threads.get? (h : p.Threads L) (hf : f ∈ L o) :
    ∃ d, p.table.get? f = some d ∧ d.free = true ∧ d.order = o ∧ d.allocated = false := by
  obtain ⟨d, hd, hfree⟩ := (h.represents o (h.lt_orderCount hf)).get? hf
  exact ⟨d, hd, hfree, h.labelled o f hf d hd⟩

/-- A frame is on one list only. -/
theorem Threads.eq_of_mem {o' : Nat} (h : p.Threads L) (hf : f ∈ L o) (hf' : f ∈ L o') :
    o' = o := by
  obtain ⟨d, hd, -, ho, -⟩ := h.get? hf
  rw [← ho, (h.labelled o' f hf' d hd).1]

/-- The free flag says whether the frame is on a list. -/
theorem Threads.free_eq_false_iff (h : p.Threads L) (hd : p.table.get? f = some d) :
    d.free = false ↔ ∀ o, f ∉ L o := by
  constructor
  · intro hfree o hf
    obtain ⟨d', hd', hfree', -⟩ := h.get? hf
    rw [hd, Option.some.injEq] at hd'
    rw [hd', hfree'] at hfree
    cases hfree
  · intro hf
    rw [Bool.eq_false_iff]
    exact fun hfree ↦ hf _ (h.listed f d hd hfree)

/-- What the merging loop asks of a buddy: whether it is a block of the layout. -/
theorem Threads.isFreeHead_iff (h : p.Threads L) :
    p.table.isFreeHead f o = true ↔ f ∈ L o := by
  rw [isFreeHead, Option.any_eq_true]
  constructor
  · rintro ⟨d, hd, hfree⟩
    rw [Bool.and_eq_true, beq_iff_eq] at hfree
    exact hfree.2 ▸ h.listed f d hd hfree.1
  · intro hf
    obtain ⟨d, hd, hfree, ho, -⟩ := h.get? hf
    exact ⟨d, hd, by rw [hfree, ho, beq_self_eq_true]; rfl⟩

theorem list_eq_getElem (ho : o < orderCount) : p.list o = p.lists[o] := by
  rw [list, Vector.getElem?_eq_getElem ho, Option.getD_some]

/-- The number of free blocks of an order is the length of the list. -/
theorem Threads.freeCount_eq (h : p.Threads L) (ho : o < orderCount) :
    p.freeCount o = (L o).length :=
  (h.represents o ho).len_eq

/-- **A layout determines the lists** of the pools that it threads. -/
theorem Threads.lists_eq {p' : Pool} (h : p.Threads L) (h' : p'.Threads L) :
    p'.lists = p.lists := by
  refine Vector.ext fun o ho ↦ ?_
  rw [← list_eq_getElem ho, ← list_eq_getElem ho]
  exact (h.represents o ho).eq (h'.represents o ho)

/-- **A layout determines free flags and links** in the tables of the pools that it threads. -/
theorem Threads.get?_eq {p' : Pool} {d' : Descriptor} (h : p.Threads L) (h' : p'.Threads L)
    (hd : p.table.get? f = some d) (hd' : p'.table.get? f = some d') :
    d'.free = d.free ∧ d'.prev = d.prev ∧ d'.next = d.next := by
  rcases Bool.eq_false_or_eq_true d.free with hfree | hfree
  · have hf := h.listed f d hd hfree
    have ho := h.lt_orderCount hf
    exact (h.represents _ ho).linked.get?_eq (h'.represents _ ho).linked hf hd hd'
  · have hfree' := (h'.free_eq_false_iff hd').2 ((h.free_eq_false_iff hd).1 hfree)
    obtain ⟨hprev, hnext⟩ := h.unlinked f d hd hfree
    obtain ⟨hprev', hnext'⟩ := h'.unlinked f d' hd' hfree'
    exact ⟨hfree'.trans hfree.symm, hprev'.trans hprev.symm, hnext'.trans hnext.symm⟩

/-! #### Changing one list -/

/-- A change to one list together with the table. -/
theorem withList_eq_ok {α : Type} {a : α} {t' : FrameTable} {l' : FreeList}
    (change : FrameTable → FreeList → Except Fault (α × FrameTable × FreeList))
    (ho : o < orderCount) (h : change p.table (p.list o) = .ok (a, t', l')) :
    ∃ p', p.withList o change = .ok (a, p') ∧ p'.table = t' ∧ p'.total = p.total ∧
      p'.list o = l' ∧ ∀ o', o' ≠ o → p'.list o' = p.list o' := by
  rw [list_eq_getElem ho] at h
  refine ⟨⟨t', p.lists.set o l', p.total⟩, ?_, rfl, rfl, ?_, fun o' hne ↦ ?_⟩
  · rw [withList]
    simp only [dif_pos ho, h, ok_bind]
    rfl
  · rw [list_eq_getElem ho, Vector.getElem_set_self]
  · simp only [list, Vector.getElem?_set_ne _ (Ne.symm hne)]

/-- **One list is rethreaded.** `gs` are the frames whose links the change touches: they hold the
old list and are on no other, and those that are not on the new list are left without links. -/
theorem Threads.relist {p' : Pool} {fs' gs : List Nat} (h : p.Threads L) (ho : o < orderCount)
    (hrep : (p'.list o).Represents p'.table fs') (hother : ∀ o', o' ≠ o → p'.list o' = p.list o')
    (hre : p.table.Rethreaded gs p'.table) (hsub : ∀ g ∈ L o, g ∈ gs)
    (hgs : ∀ g ∈ gs, ∀ o', o' ≠ o → g ∉ L o')
    (hlabel : ∀ g ∈ fs', ∀ d, p.table.get? g = some d → d.order = o ∧ d.allocated = false)
    (hoff : ∀ g ∈ gs, g ∉ fs' → ∃ d, p'.table.get? g = some (Descriptor.unlinked d)) :
    p'.Threads (update L o fs') := by
  have hsame := hre.relabelled fun _ ↦ False
  refine ⟨fun o' ho' ↦ ?_, fun o' ho' ↦ ?_, fun o' g hg d hd ↦ ?_, fun g d hd hfree ↦ ?_,
    fun g d hd hfree ↦ ?_⟩
  · by_cases heq : o' = o
    · subst heq; rwa [update_self]
    · rw [update_of_ne heq, hother o' heq]
      refine (h.represents o' ho').congr fun g hg ↦ hre.off g fun hmem ↦ ?_
      exact hgs g hmem o' heq hg
  · rw [update_of_ne (by omega), h.bounded o' ho']
  · obtain ⟨d', hd', -, halloc, -, horder⟩ := hsame.symm.get? hd
    rw [← halloc, ← horder not_false]
    by_cases heq : o' = o
    · subst heq
      rw [update_self] at hg
      exact hlabel g hg d' hd'
    · rw [update_of_ne heq] at hg
      exact h.labelled o' g hg d' hd'
  · by_cases hmem : g ∈ gs
    · by_cases hg : g ∈ fs'
      · obtain ⟨d', hd', -, -, -, horder⟩ := hsame.symm.get? hd
        rw [← horder not_false, (hlabel g hg d' hd').1, update_self]
        exact hg
      · obtain ⟨e, he⟩ := hoff g hmem hg
        rw [hd, Option.some.injEq] at he
        rw [he] at hfree
        cases hfree
    · rw [hre.off g hmem] at hd
      have hg := h.listed g d hd hfree
      have hne : d.order ≠ o := fun heq ↦ hmem (hsub g (heq ▸ hg))
      rwa [update_of_ne hne]
  · by_cases hmem : g ∈ gs
    · by_cases hg : g ∈ fs'
      · obtain ⟨d', hd', hfree'⟩ := hrep.get? hg
        rw [hd, Option.some.injEq] at hd'
        rw [hd', hfree'] at hfree
        cases hfree
      · obtain ⟨e, he⟩ := hoff g hmem hg
        rw [hd, Option.some.injEq] at he
        rw [he]
        exact ⟨rfl, rfl⟩
    · rw [hre.off g hmem] at hd
      exact h.unlinked g d hd hfree

/-- **Linking** pushes a block on the layout. -/
theorem Threads.link (h : p.Threads L) (ho : o < orderCount) (hd : p.table.get? f = some d)
    (hf : ∀ o, f ∉ L o) (horder : d.order = o) (halloc : d.allocated = false) :
    ∃ p', p.link o f = .ok p' ∧ p'.Threads (L.push o f) ∧ p'.total = p.total ∧
      p.table.Relabelled (fun _ ↦ False) p'.table := by
  obtain ⟨t', l', hpush, hrep, hre⟩ :=
    (h.represents o ho).push hd ((h.free_eq_false_iff hd).2 hf)
  obtain ⟨p', hwith, rfl, htotal, rfl, hother⟩ :=
    withList_eq_ok (p := p) (a := ()) (fun t l ↦ (l.push t f).map ((), ·)) ho
      (by rw [hpush]; rfl)
  refine ⟨p', by rw [Pool.link, hwith]; rfl, ?_, htotal, hre.relabelled _⟩
  refine h.relist ho hrep hother hre (fun g hg ↦ List.mem_cons_of_mem f hg) ?_ ?_ ?_
  · rintro g hg o' hne hmem
    rcases List.mem_cons.1 hg with rfl | hg
    · exact hf o' hmem
    · exact hne (h.eq_of_mem hg hmem)
  · intro g hg e he
    rcases List.mem_cons.1 hg with rfl | hg
    · rw [hd, Option.some.injEq] at he
      exact he ▸ ⟨horder, halloc⟩
    · exact h.labelled o g hg e he
  · exact fun g hg hg' ↦ absurd hg hg'

/-- A member of a list is taken off, whatever the change that removes it is called. -/
theorem Threads.removed {p' : Pool} {t' : FrameTable} (h : p.Threads L) (hf : f ∈ L o)
    (hrep : (p'.list o).Represents p'.table ((L o).erase f))
    (hother : ∀ o', o' ≠ o → p'.list o' = p.list o') (htable : p'.table = t')
    (hre : p.table.Rethreaded (L o) t') (hget : t'.get? f = some d.unlinked) :
    p'.Threads (L.erase o f) := by
  subst htable
  refine h.relist (h.lt_orderCount hf) hrep hother hre (fun g hg ↦ hg) ?_ ?_ ?_
  · exact fun g hg o' hne hmem ↦ hne (h.eq_of_mem hg hmem)
  · exact fun g hg e he ↦ h.labelled o g (List.mem_of_mem_erase hg) e he
  · intro g hg hg'
    by_cases heq : g = f
    · exact ⟨d, heq ▸ hget⟩
    · exact absurd ((List.mem_erase_of_ne heq).2 hg) hg'

/-- **Unlinking** erases a block of the layout. -/
theorem Threads.unlink (h : p.Threads L) (hf : f ∈ L o) :
    ∃ p', p.unlink o f = .ok p' ∧ p'.Threads (L.erase o f) ∧ p'.total = p.total ∧
      p.table.Relabelled (fun _ ↦ False) p'.table := by
  have ho := h.lt_orderCount hf
  obtain ⟨d, hd, -⟩ := h.get? hf
  obtain ⟨t', l', hremove, hrep, hre, hget⟩ := (h.represents o ho).remove hf hd
  obtain ⟨p', hwith, rfl, htotal, rfl, hother⟩ :=
    withList_eq_ok (p := p) (a := ()) (fun t l ↦ (l.remove t f).map ((), ·)) ho
      (by rw [hremove]; rfl)
  exact ⟨p', by rw [Pool.unlink, hwith]; rfl, h.removed hf hrep hother rfl hre hget, htotal,
    hre.relabelled _⟩

/-- **Popping** takes the first block off a list. -/
theorem Threads.popFirst {fs : List Nat} (h : p.Threads L) (hfs : L o = f :: fs) :
    ∃ p', p.popFirst o = .ok (some f, p') ∧ p'.Threads (L.erase o f) ∧ p'.total = p.total ∧
      p.table.Relabelled (fun _ ↦ False) p'.table := by
  have hf : f ∈ L o := hfs ▸ List.mem_cons_self
  have ho := h.lt_orderCount hf
  obtain ⟨d, hd, -⟩ := h.get? hf
  obtain ⟨t', l', hpop, hrep, hre, hget⟩ := (hfs ▸ h.represents o ho).pop hd
  obtain ⟨p', hwith, rfl, htotal, rfl, hother⟩ :=
    withList_eq_ok (p := p) (fun t l ↦ l.pop t) ho hpop
  have hrep' : (p'.list o).Represents p'.table ((L o).erase f) := by
    rwa [hfs, List.erase_cons_head]
  exact ⟨p', hwith, h.removed hf hrep' hother rfl (hfs ▸ hre) hget, htotal, hre.relabelled _⟩

/-! #### Writing to a descriptor -/

theorem write_eq_ok (u : Descriptor → Descriptor) (hf : f < p.table.length) :
    p.write f u = .ok { p with table := p.table.update f u } := by
  rw [write]
  simp only [FrameTable.write, if_pos hf]
  rfl

/-- A write that leaves free flag and links of the frame alone, and of a listed frame its order and
allocated flag as well, leaves the lists alone. -/
theorem Threads.write {u : Descriptor → Descriptor} (h : p.Threads L)
    (hu : ∀ d, (u d).free = d.free ∧ (u d).prev = d.prev ∧ (u d).next = d.next)
    (hlisted : ∀ o, f ∈ L o → ∀ d, (u d).order = d.order ∧ (u d).allocated = d.allocated) :
    ({ p with table := p.table.update f u } : Pool).Threads L := by
  -- Every descriptor is as before, or it is that of `f`, written once.
  have hcases : ∀ g d, (p.table.update f u).get? g = some d →
      ∃ e, p.table.get? g = some e ∧ (d = e ∨ g = f ∧ d = u e) := by
    intro g d hd
    rw [get?_update] at hd
    split at hd
    · rename_i heq
      obtain ⟨e, he, rfl⟩ := Option.map_eq_some_iff.1 hd
      exact ⟨e, he, Or.inr ⟨heq.symm, rfl⟩⟩
    · exact ⟨d, hd, Or.inl rfl⟩
  refine ⟨fun o ho ↦ ?_, h.bounded, fun o g hg d hd ↦ ?_, fun g d hd hfree ↦ ?_,
    fun g d hd hfree ↦ ?_⟩
  · have hrep := h.represents o ho
    refine ⟨hrep.nodup, hrep.head_eq, hrep.len_eq, hrep.linked.write hu⟩
  · obtain ⟨e, he, rfl | ⟨rfl, rfl⟩⟩ := hcases g d hd
    · exact h.labelled o g hg d he
    · rw [(hlisted o hg e).1, (hlisted o hg e).2]
      exact h.labelled o g hg e he
  · obtain ⟨e, he, rfl | ⟨rfl, rfl⟩⟩ := hcases g d hd
    · exact h.listed g d he hfree
    · rw [(hu e).1] at hfree
      have hg := h.listed g e he hfree
      rwa [(hlisted _ hg e).1]
  · obtain ⟨e, he, rfl | ⟨rfl, rfl⟩⟩ := hcases g d hd
    · exact h.unlinked g d he hfree
    · rw [(hu e).1] at hfree
      rw [(hu e).2.1, (hu e).2.2]
      exact h.unlinked g e he hfree

/-- **Noting an order** of a frame that is on no list. -/
theorem Threads.setOrder (h : p.Threads L) (hlt : f < p.table.length) (hf : ∀ o, f ∉ L o)
    (o : Nat) :
    ∃ p', p.setOrder f o = .ok p' ∧ p'.Threads L ∧ p'.total = p.total ∧
      p'.table = p.table.update f fun d ↦ { d with order := o } :=
  ⟨_, write_eq_ok _ hlt, h.write (fun _ ↦ ⟨rfl, rfl, rfl⟩) fun o hmem ↦ absurd hmem (hf o), rfl,
    rfl⟩

/-! ### The layout of a pool -/

/-- The layout that is read off the lists. -/
def layout (p : Pool) : Layout := fun o ↦ (p.list o).walk p.table

theorem list_of_le (ho : orderCount ≤ o) : p.list o = {} := by
  rw [list, Vector.getElem?_eq_none ho, Option.getD_none]

/-- A pool is threaded by one layout at most, the one that can be read off. -/
theorem Threads.layout_eq (h : p.Threads L) : p.layout = L := by
  funext o
  rcases Nat.lt_or_ge o orderCount with ho | ho
  · exact (h.represents o ho).walk
  · rw [layout, list_of_le ho, h.bounded o ho]
    rfl

end Pool

end FramePool
