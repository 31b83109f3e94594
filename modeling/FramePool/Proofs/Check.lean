import FramePool.Pool.Check
import FramePool.Proofs.Counting
import FramePool.Proofs.Invariant

/-!
# What the checker accepts

The checker walks lists that may be corrupt in any way: links may form a cycle or lead out of the
table, counters may be wrong, blocks may overlap. It accepts a pool exactly when its lists are
intact (`Pool.Intact`) and the buddies it has to look at have an address (`check_eq_ok_iff`).

The proof follows the checker in both directions at once: each of `cover`, `checkBlock`, `checkFrom`
and `checkLists` has a lemma for what its answer shows (`of_cover`, ...) and one for when it answers
(`cover_eq_ok`, ...). What joins them is that the frames noted so far are exactly those of the
blocks that were passed (`Coverage.Notes`), so a frame seen twice is a frame covered twice.

The count at the end is the one step where the checker sees less than it decides. It only compares
how many frames are flagged free with how many are listed; but the listed blocks share no frame by
then and their heads are flagged, so equal numbers are equal sets (`countP_free_eq_iff`).

A pool that is sound is intact (`Sound.intact`), hence a pool that checks itself goes on as one that
does not (`Sound.verify`).
-/

namespace FramePool

open Extent

/-- The blocks of some orders. -/
def Layout.extentsOf (L : Layout) (os : List Nat) : List Extent :=
  os.flatMap fun o ↦ (L o).map (⟨·, o⟩)

theorem Layout.extentsOf_cons (L : Layout) (o : Nat) (os : List Nat) :
    L.extentsOf (o :: os) = (L o).map (⟨·, o⟩) ++ L.extentsOf os :=
  List.flatMap_cons

theorem Layout.extentsOf_range (L : Layout) : L.extentsOf (List.range orderCount) = L.extents := rfl

namespace Pool

open FrameTable Loan

variable {P : Platform} {p : Pool} {t : FrameTable} {L : Layout} {ledger : List Loan}
  {b : Extent} {bs cs : List Extent} {d : Descriptor} {seen seen' : Coverage}
  {o fuel count first n : Nat} {head : Frame} {prev link : Option Frame} {noted noted' : Array Bool}

/-! ### Covering the frames of a block -/

/-- The walk has passed the blocks: noted are their frames and no others. -/
structure Coverage.Notes (t : FrameTable) (seen : Coverage) (bs : List Extent) : Prop where
  /-- There is room for a note on each frame of the table. -/
  size : seen.seen.size = t.length
  /-- What is noted belongs to a block, and conversely. -/
  covered : ∀ f, seen.seen.getD f false = true ↔ 0 < depth bs f
  /-- The frames are counted. -/
  frames : seen.frames = (bs.map fun b ↦ 2 ^ b.order).sum

theorem Coverage.Notes.perm (h : seen.Notes t bs) (hperm : bs.Perm cs) : seen.Notes t cs where
  size := h.size
  covered f := by rw [← depth_perm hperm f]; exact h.covered f
  frames := h.frames.trans (hperm.map _).sum_nat

/-- A walk that has passed no block has noted nothing. -/
theorem Coverage.notes_nil (t : FrameTable) :
    Coverage.Notes t { seen := Array.replicate t.length false } [] where
  size := Array.size_replicate
  covered f := by
    rw [Array.getD_eq_getD_getElem?, Array.getElem?_replicate]
    split <;> simp
  frames := rfl

theorem getD_note_of_ne (noted : Array Bool) {f g : Nat} (hne : f ≠ g) :
    (noted.setIfInBounds g true).getD f false = noted.getD f false := by
  simp [Array.getElem?_setIfInBounds_ne (Ne.symm hne)]

/-- What was covered was usable and not noted before. -/
theorem of_cover (h : cover t head count first noted = .ok noted') :
    ∀ f, first ≤ f → f < first + count → noted.getD f false = false ∧ t.isReserved f = false := by
  induction count generalizing first noted with
  | zero => exact fun f hle hlt ↦ absurd hlt (Nat.not_lt.2 hle)
  | succ count ih =>
    simp only [cover, demand, bind_eq_ok_iff, require_eq_ok_iff, exists_const] at h
    obtain ⟨hnoted, hres, hrest⟩ := h
    intro f hle hlt
    rcases Nat.eq_or_lt_of_le hle with heq | hlt'
    · exact heq ▸ ⟨hnoted, hres⟩
    · rw [← getD_note_of_ne noted (Nat.ne_of_gt hlt')]
      exact ih hrest f hlt' (by omega)

/-- **Covering** usable frames that were not noted before notes them and no others. -/
theorem cover_eq_ok (head first : Nat) (noted : Array Bool) (hsize : first + count ≤ noted.size)
    (h : ∀ f, first ≤ f → f < first + count → noted.getD f false = false ∧ t.isReserved f = false) :
    ∃ noted', cover t head count first noted = .ok noted' ∧ noted'.size = noted.size ∧
      ∀ f, noted'.getD f false = true ↔
        noted.getD f false = true ∨ first ≤ f ∧ f < first + count := by
  induction count generalizing first noted with
  | zero =>
    refine ⟨noted, rfl, rfl, fun f ↦ ⟨Or.inl, fun h ↦ h.resolve_right fun hf ↦ ?_⟩⟩
    exact absurd hf.2 (Nat.not_lt.2 hf.1)
  | succ count ih =>
    obtain ⟨hnoted, hres⟩ := h first (Nat.le_refl _) (by omega)
    have hself : (noted.setIfInBounds first true).getD first false = true := by
      simp [show first < noted.size by omega]
    obtain ⟨noted', hcover, hsize', hnoted'⟩ := ih (first + 1) (noted.setIfInBounds first true)
      (by rw [Array.size_setIfInBounds]; omega) fun f hle hlt ↦ by
        rw [getD_note_of_ne noted (by omega)]
        exact h f (by omega) (by omega)
    refine ⟨noted', ?_, hsize'.trans Array.size_setIfInBounds, fun f ↦ ?_⟩
    · simp only [cover, demand, require_of_pos hnoted, require_of_pos hres, ok_bind, hcover]
    · rw [hnoted']
      rcases Nat.decEq f first with hne | rfl
      · rw [getD_note_of_ne noted hne]
        exact or_congr_right (by omega)
      · simp [hself]

/-! ### Passing a block -/

/-- What the checker wants of a listed block, whatever is on the lists otherwise. -/
structure Passable (P : Platform) (t : FrameTable) (b : Extent) : Prop where
  /-- It is not handed out, has the order of its list and no references. -/
  described : ∀ d, t.get? b.head = some d → d.allocated = false ∧ d.order = b.order ∧ d.refs = 0
  /-- It starts at a multiple of its length. -/
  aligned : b.Aligned
  /-- It ends inside the table. -/
  inside : b.head + 2 ^ b.order ≤ t.length
  /-- It contains no reserved frame. -/
  usable : ∀ f ∈ b, t.isReserved f = false
  /-- Its buddy can be computed and heads no free block of the order. -/
  lone : b.order < topOrder →
    b.head < P.frameLimit ∧ t.isFreeHead (Frame.buddy b.head b.order) b.order = false

/-- What the checker looks at, in the order in which it does. -/
theorem checkBlock_eq_ok_iff :
    checkBlock P t o prev head d seen = .ok seen' ↔
      d.free = true ∧ d.reserved = false ∧ d.allocated = false ∧ d.order = o ∧
        head % 2 ^ o = 0 ∧ d.refs = 0 ∧ d.prev = prev ∧
        (o < topOrder → ∃ buddy, Block.buddy P head o = .ok buddy ∧
          t.isFreeHead buddy o = false) ∧
        head + 2 ^ o ≤ t.length ∧
        ∃ noted, cover t head (2 ^ o) head seen.seen = .ok noted ∧
          seen' = ⟨noted, seen.frames + 2 ^ o⟩ := by
  have hpure : ∀ s, (pure s : Except Fault Coverage) = .ok seen' ↔ seen' = s := fun s ↦ by
    rw [eq_comm (a := seen')]
    exact Except.ok.injEq s seen' ▸ Iff.rfl
  rcases Nat.lt_or_ge o topOrder with hlt | hge
  · simp only [checkBlock, demand, bind_eq_ok_iff, require_eq_ok_iff, exists_const, hlt, if_true,
      hpure, true_imp_iff]
    simp only [← and_assoc, exists_and_right]
  · simp only [checkBlock, demand, bind_eq_ok_iff, require_eq_ok_iff, exists_const,
      Nat.not_lt.2 hge, if_false, hpure, false_imp_iff, true_and]

/-- **A block that is passed** is passable, and none of its frames was noted before. -/
theorem of_checkBlock (hd : t.get? b.head = some d) (hnotes : seen.Notes t bs)
    (h : checkBlock P t b.order prev b.head d seen = .ok seen') :
    d.free = true ∧ d.prev = prev ∧ Passable P t b ∧ ∀ f ∈ b, depth bs f = 0 := by
  obtain ⟨hfree, -, halloc, horder, hmod, hrefs, hprev, hbuddy, hinside, noted, hcover, -⟩ :=
    checkBlock_eq_ok_iff.1 h
  have hfresh := of_cover hcover
  refine ⟨hfree, hprev, ⟨fun d' hd' ↦ ?_, Nat.dvd_of_mod_eq_zero hmod, hinside,
    fun f hf ↦ (hfresh f hf.1 hf.2).2, fun hlt ↦ ?_⟩, fun f hf ↦ ?_⟩
  · obtain rfl : d = d' := Option.some.inj (hd.symm.trans hd')
    exact ⟨halloc, horder, hrefs⟩
  · obtain ⟨buddy, hbuddy, hlone⟩ := hbuddy hlt
    have hlimit := Block.lt_frameLimit_of_buddy hbuddy
    rw [Block.buddy_eq_ok hlimit hlt, Except.ok.injEq] at hbuddy
    exact ⟨hlimit, hbuddy ▸ hlone⟩
  · have hnot := (hfresh f hf.1 hf.2).1
    rw [← Bool.not_eq_true, hnotes.covered] at hnot
    exact Nat.eq_zero_of_not_pos hnot

/-- **A passable block** whose frames were not noted before is passed. -/
theorem checkBlock_eq_ok (hd : t.get? b.head = some d) (hfree : d.free = true)
    (hprev : d.prev = prev) (hb : Passable P t b) (hnotes : seen.Notes t bs)
    (hapart : ∀ f ∈ b, depth bs f = 0) :
    ∃ seen', checkBlock P t b.order prev b.head d seen = .ok seen' ∧ seen'.Notes t (b :: bs) := by
  obtain ⟨halloc, horder, hrefs⟩ := hb.described d hd
  have hres : d.reserved = false := by
    have husable := hb.usable b.head b.head_mem
    rwa [isReserved, hd, Option.any_some] at husable
  obtain ⟨noted', hcover, hsize, hnoted'⟩ :=
    cover_eq_ok (t := t) b.head b.head seen.seen (hnotes.size ▸ hb.inside) fun f hle hlt ↦ by
      have hf : f ∈ b := ⟨hle, hlt⟩
      refine ⟨Bool.eq_false_iff.2 fun htrue ↦ ?_, hb.usable f hf⟩
      exact absurd (hapart f hf) (Nat.pos_iff_ne_zero.1 ((hnotes.covered f).1 htrue))
  refine ⟨_, checkBlock_eq_ok_iff.2 ⟨hfree, hres, halloc, horder,
    Nat.mod_eq_zero_of_dvd hb.aligned, hrefs, hprev, fun hlt ↦ ?_, hb.inside, noted', hcover, rfl⟩,
    hsize.trans hnotes.size, fun f ↦ ?_, ?_⟩
  · obtain ⟨hlimit, hlone⟩ := hb.lone hlt
    exact ⟨_, Block.buddy_eq_ok hlimit hlt, hlone⟩
  · rw [hnoted', hnotes.covered, depth_cons, ← mem_iff]
    split <;> simp [*]
  · rw [List.map_cons, List.sum_cons, ← hnotes.frames, Nat.add_comm]

/-! ### Walking a list -/

/-- **A list that is walked to its end** is linked, its blocks are passable and share no frame with
each other or with those that were passed before. The induction is on what is left to allow. -/
theorem of_checkFrom (hnotes : seen.Notes t bs) (hdepth : ∀ f, depth bs f ≤ 1)
    (h : checkFrom P t o fuel prev link seen = .ok (n, seen')) :
    ∃ fs : List Nat, link = fs.head? ∧ n = fs.length ∧ t.Linked prev fs ∧
      (∀ f ∈ fs, Passable P t ⟨f, o⟩) ∧ (∀ f, depth (fs.map (⟨·, o⟩) ++ bs) f ≤ 1) ∧
      seen'.Notes t (fs.map (⟨·, o⟩) ++ bs) := by
  induction fuel generalizing prev link bs seen n with
  | zero =>
    rcases link with - | head
    · obtain ⟨rfl, rfl⟩ := Prod.mk.inj (Except.ok.inj h)
      exact ⟨[], rfl, rfl, trivial, fun _ hf ↦ absurd hf List.not_mem_nil, hdepth, hnotes⟩
    · obtain ⟨_, -, h⟩ := bind_eq_ok_iff.1 h
      exact absurd h (by simp)
  | succ fuel ih =>
    rcases link with - | head
    · obtain ⟨rfl, rfl⟩ := Prod.mk.inj (Except.ok.inj h)
      exact ⟨[], rfl, rfl, trivial, fun _ hf ↦ absurd hf List.not_mem_nil, hdepth, hnotes⟩
    · obtain ⟨d, hread, h⟩ := bind_eq_ok_iff.1 h
      obtain ⟨seen₁, hblock, h⟩ := bind_eq_ok_iff.1 h
      obtain ⟨⟨k, seen₂⟩, hfrom, h⟩ := bind_eq_ok_iff.1 h
      obtain ⟨rfl, rfl⟩ := Prod.mk.inj (Except.ok.inj h)
      have hd := read_eq_ok_iff.1 hread
      have hb := of_checkBlock (b := ⟨head, o⟩) hd hnotes hblock
      obtain ⟨hfree, hprev, hpass, hapart⟩ := hb
      obtain ⟨seen₁', hblock', hnotes₁⟩ := checkBlock_eq_ok hd hfree hprev hpass hnotes hapart
      obtain rfl : seen₁ = seen₁' := Except.ok.inj (hblock.symm.trans hblock')
      obtain ⟨fs, hlink, rfl, hlinked, hall, hdepth', hnotes'⟩ := ih hnotes₁ (fun f ↦ by
        rw [depth_cons]
        split
        · rw [hapart f ‹_›]
        · exact hdepth f) hfrom
      have hmiddle : (fs.map (Extent.mk · o) ++ ⟨head, o⟩ :: bs).Perm
          ((head :: fs).map (Extent.mk · o) ++ bs) := List.perm_middle
      exact ⟨head :: fs, rfl, rfl, ⟨⟨d, hd, hfree, hprev, hlink⟩, hlinked⟩,
        List.forall_mem_cons.2 ⟨hpass, hall⟩, fun f ↦ depth_perm hmiddle f ▸ hdepth' f,
        hnotes'.perm hmiddle⟩

/-- **A linked list** of passable blocks that share no frame is walked to its end. The induction is
on what is left of the sequence. -/
theorem checkFrom_eq_ok {fs : List Nat} (hlinked : t.Linked prev fs)
    (hpass : ∀ f ∈ fs, Passable P t ⟨f, o⟩) (hfuel : fs.length ≤ fuel) (hnotes : seen.Notes t bs)
    (hdepth : ∀ f, depth (fs.map (⟨·, o⟩) ++ bs) f ≤ 1) :
    ∃ seen', checkFrom P t o fuel prev fs.head? seen = .ok (fs.length, seen') ∧
      seen'.Notes t (fs.map (⟨·, o⟩) ++ bs) := by
  induction fs generalizing fuel prev bs seen with
  | nil =>
    refine ⟨seen, ?_, hnotes⟩
    rw [List.head?_nil]
    rcases fuel <;> rfl
  | cons f fs ih =>
    obtain ⟨⟨d, hd, hfree, hprev, hnext⟩, hrest⟩ := hlinked
    obtain ⟨hpassf, hpassfs⟩ := List.forall_mem_cons.1 hpass
    obtain ⟨fuel, rfl⟩ : ∃ n, fuel = n + 1 :=
      Nat.exists_eq_succ_of_ne_zero (Nat.ne_of_gt (Nat.lt_of_lt_of_le (Nat.succ_pos _) hfuel))
    rw [List.map_cons, List.cons_append] at hdepth ⊢
    obtain ⟨seen₁, hblock, hnotes₁⟩ :=
      checkBlock_eq_ok (b := ⟨f, o⟩) hd hfree hprev hpassf hnotes fun g hg ↦ by
        have hle := hdepth g
        rw [depth_cons, if_pos hg, depth_append] at hle
        omega
    have hmiddle : (fs.map (Extent.mk · o) ++ ⟨f, o⟩ :: bs).Perm
        (⟨f, o⟩ :: (fs.map (Extent.mk · o) ++ bs)) := List.perm_middle
    obtain ⟨seen₂, hfrom, hnotes₂⟩ := ih hrest hpassfs (Nat.le_of_succ_le_succ hfuel) hnotes₁
      fun g ↦ by
        rw [depth_perm hmiddle]
        exact hdepth g
    refine ⟨seen₂, ?_, hnotes₂.perm hmiddle⟩
    simp only [List.head?_cons, checkFrom, read_eq_ok_iff.2 hd, ok_bind, hblock, hnext, hfrom]
    rfl

/-! ### Going through the lists -/

/-- Frames whose blocks share no frame are distinct. -/
theorem nodup_of_depth_le {fs : List Nat} (h : ∀ f, depth (fs.map (⟨·, o⟩)) f ≤ 1) : fs.Nodup := by
  refine List.Nodup.of_map (Extent.mk · o) ?_
  refine List.nodup_iff_pairwise_ne.2 ((pairwise_apart_iff.2 h).imp fun hapart heq ↦ ?_)
  subst heq
  exact not_apart_self _ hapart

theorem extentsOf_cons_perm (L : Layout) (o : Nat) (os : List Nat) (bs : List Extent) :
    (L.extentsOf os ++ ((L o).map (Extent.mk · o) ++ bs)).Perm (L.extentsOf (o :: os) ++ bs) := by
  rw [L.extentsOf_cons, List.append_assoc]
  exact List.perm_append_comm_assoc ..

/-- **Lists that are walked** are the sequences that can be read off the pool; their blocks are
passable and share no frame. -/
theorem of_checkLists {os : List Nat} (hnotes : seen.Notes p.table bs)
    (hdepth : ∀ f, depth bs f ≤ 1) (h : checkLists P p os seen = .ok (n, seen')) :
    (∀ o ∈ os, (p.list o).Represents p.table (p.layout o) ∧
        ∀ f ∈ p.layout o, Passable P p.table ⟨f, o⟩) ∧
      n = (p.layout.extentsOf os).length ∧
      (∀ f, depth (p.layout.extentsOf os ++ bs) f ≤ 1) ∧
      seen'.Notes p.table (p.layout.extentsOf os ++ bs) := by
  induction os generalizing bs seen n with
  | nil =>
    obtain ⟨rfl, rfl⟩ := Prod.mk.inj (Except.ok.inj h)
    exact ⟨fun _ ho ↦ absurd ho List.not_mem_nil, rfl, hdepth, hnotes⟩
  | cons o os ih =>
    obtain ⟨⟨count, seen₁⟩, hfrom, h⟩ := bind_eq_ok_iff.1 h
    obtain ⟨_, hcount, h⟩ := bind_eq_ok_iff.1 h
    obtain ⟨⟨rest, seen₂⟩, hlists, h⟩ := bind_eq_ok_iff.1 h
    obtain ⟨rfl, rfl⟩ := Prod.mk.inj (Except.ok.inj h)
    obtain ⟨fs, hhead, rfl, hlinked, hpass, hdepth₁, hnotes₁⟩ := of_checkFrom hnotes hdepth hfrom
    have hnodup : fs.Nodup := nodup_of_depth_le fun f ↦ by
      refine Nat.le_trans ?_ (hdepth₁ f)
      rw [depth_append]
      exact Nat.le_add_right _ _
    have hrep : (p.list o).Represents p.table fs :=
      ⟨hnodup, hhead, (require_eq_ok_iff.1 hcount).symm, hlinked⟩
    obtain rfl : p.layout o = fs := hrep.walk
    obtain ⟨hall, rfl, hdepth₂, hnotes₂⟩ := ih hnotes₁ hdepth₁ hlists
    have hperm := extentsOf_cons_perm p.layout o os bs
    refine ⟨List.forall_mem_cons.2 ⟨⟨hrep, hpass⟩, hall⟩, ?_, fun f ↦ ?_, hnotes₂.perm hperm⟩
    · rw [Layout.extentsOf_cons, List.length_append, List.length_map]
    · rw [← depth_perm hperm]
      exact hdepth₂ f

/-- **Lists of passable blocks** that share no frame are walked. -/
theorem checkLists_eq_ok {os : List Nat}
    (hall : ∀ o ∈ os, (p.list o).Represents p.table (L o) ∧
      ∀ f ∈ L o, Passable P p.table ⟨f, o⟩)
    (hnotes : seen.Notes p.table bs) (hdepth : ∀ f, depth (L.extentsOf os ++ bs) f ≤ 1) :
    ∃ seen', checkLists P p os seen = .ok ((L.extentsOf os).length, seen') ∧
      seen'.Notes p.table (L.extentsOf os ++ bs) := by
  induction os generalizing bs seen with
  | nil => exact ⟨seen, rfl, hnotes⟩
  | cons o os ih =>
    obtain ⟨⟨hrep, hpass⟩, hall⟩ := List.forall_mem_cons.1 hall
    have hperm := extentsOf_cons_perm L o os bs
    have hfuel : (L o).length ≤ p.table.length := by
      have hsub : L o ⊆ List.range p.table.length := fun f hf ↦ by
        obtain ⟨d, hd, -⟩ := hrep.get? hf
        exact List.mem_range.2 (lt_of_get? hd)
      have hle := (List.subperm_of_subset hrep.nodup hsub).length_le
      rwa [List.length_range] at hle
    obtain ⟨seen₁, hfrom, hnotes₁⟩ := checkFrom_eq_ok hrep.linked hpass hfuel hnotes fun f ↦ by
      refine Nat.le_trans ?_ (hdepth f)
      rw [← depth_perm hperm, depth_append (L.extentsOf os)]
      exact Nat.le_add_left _ _
    obtain ⟨seen₂, hlists, hnotes₂⟩ := ih hall hnotes₁ fun f ↦ by
      rw [depth_perm hperm]
      exact hdepth f
    refine ⟨seen₂, ?_, hnotes₂.perm hperm⟩
    have hlen : (L o).length = (p.list o).len := hrep.len_eq.symm
    simp only [checkLists, hrep.head_eq, hfrom, ok_bind, demand, require_of_pos hlen, hlists,
      L.extentsOf_cons, List.length_append, List.length_map]
    rfl

/-! ### Comparing two numbers -/

/-- **Equal numbers are equal sets** where one set contains the other: as many frames are flagged
free as there are blocks exactly when each frame flagged free heads a block. -/
theorem countP_free_eq_iff (ht : Tiling t L.extents)
    (hflagged : ∀ b ∈ L.extents, (t.get? b.head).any (·.free) = true) :
    t.frames.countP (·.free) = L.extents.length ↔
      ∀ f, (t.get? f).any (·.free) = true → ∃ b ∈ L.extents, b.head = f := by
  set flagged := (List.range t.length).filter fun f ↦ (t.get? f).any (·.free) with hdef
  have hmem : ∀ f, f ∈ flagged ↔ (t.get? f).any (·.free) = true := fun f ↦ by
    rw [hdef, List.mem_filter, List.mem_range, and_iff_right_iff_imp]
    intro hfree
    obtain ⟨d, hd, -⟩ := (Option.any_eq_true ..).1 hfree
    exact lt_of_get? hd
  have hheads : (L.extents.map (·.head)).Nodup :=
    ht.nodup.map_on fun b hb c hc heq ↦ ht.eq_of_mem hb hc b.head_mem (heq ▸ c.head_mem)
  have hsub : (L.extents.map (·.head)).Subperm flagged :=
    List.subperm_of_subset hheads fun f hf ↦ by
      obtain ⟨b, hb, rfl⟩ := List.mem_map.1 hf
      exact (hmem b.head).2 (hflagged b hb)
  have hcount : t.frames.countP (·.free) = flagged.length := by
    rw [countP_frames, List.countP_eq_length_filter]
  rw [hcount, ← List.length_map (fun b : Extent ↦ b.head)]
  constructor
  · intro hlen f hf
    have hperm := hsub.perm_of_length_le hlen.le
    exact List.mem_map.1 (hperm.mem_iff.2 ((hmem f).2 hf))
  · intro hall
    refine Nat.le_antisymm ?_ hsub.length_le
    refine (List.subperm_of_subset (List.nodup_range.filter _) fun f hf ↦ ?_).length_le
    exact List.mem_map.2 (hall f ((hmem f).1 hf))

/-! ### The verdict -/

/-- **A pool whose lists are intact.** The lists may be read off it, and they say what they should
say and all that there is to say about the blocks. -/
structure Intact (p : Pool) : Prop where
  /-- Each list, followed from its head, ends after as many frames as it counts; they are frames of
  the table, flagged free, and each is linked back to the one before it. -/
  represents : ∀ o < orderCount, (p.list o).Represents p.table (p.layout o)
  /-- A listed frame is not reserved and not handed out, has the order of its list and no
  references. -/
  described : ∀ o < orderCount, ∀ f ∈ p.layout o, ∀ d, p.table.get? f = some d →
    d.reserved = false ∧ d.allocated = false ∧ d.order = o ∧ d.refs = 0
  /-- The blocks are aligned, lie in the table, contain no reserved frame and share no frame. -/
  tiling : Tiling p.table p.layout.extents
  /-- No two blocks of an order below the top one are buddies. -/
  coalesced : p.layout.Coalesced
  /-- There are no more frames in blocks than the pool was built with. -/
  covered : (frameSet p.layout.extents).card ≤ p.total
  /-- The frames flagged free are those that are listed. -/
  flagged : ∀ f, (p.table.get? f).any (·.free) = true ↔ ∃ o < orderCount, f ∈ p.layout o

theorem Intact.passable (h : p.Intact) (hlimit : o < topOrder → head < P.frameLimit)
    (ho : o < orderCount) (hmem : head ∈ p.layout o) : Passable P p.table ⟨head, o⟩ := by
  have hb : (⟨head, o⟩ : Extent) ∈ p.layout.extents := Layout.mem_extents.2 ⟨ho, hmem⟩
  refine ⟨fun d hd ↦ (h.described o ho head hmem d hd).2, h.tiling.aligned _ hb,
    h.tiling.le_length hb, fun f hf ↦ (h.tiling.usable_of_mem hb hf).2,
    fun hlt ↦ ⟨hlimit hlt, ?_⟩⟩
  -- A buddy that is flagged free is listed, and then on the list of its order.
  rw [Bool.eq_false_iff]
  intro hfree
  obtain ⟨d, hd, hfree⟩ := (Option.any_eq_true ..).1 hfree
  rw [Bool.and_eq_true, beq_iff_eq] at hfree
  obtain ⟨o', ho', hmem'⟩ :=
    (h.flagged _).1 ((Option.any_eq_true ..).2 ⟨d, hd, hfree.1⟩)
  obtain rfl : o' = o := (h.described o' ho' _ hmem' d hd).2.2.1.symm.trans hfree.2
  exact h.coalesced o' hlt head hmem hmem'

theorem exists_head_eq_iff (L : Layout) (f : Nat) :
    (∃ b ∈ L.extents, b.head = f) ↔ ∃ o < orderCount, f ∈ L o := by
  constructor
  · rintro ⟨b, hb, rfl⟩
    exact ⟨b.order, Layout.mem_extents.1 hb⟩
  · rintro ⟨o, ho, hf⟩
    exact ⟨⟨f, o⟩, Layout.mem_extents.2 ⟨ho, hf⟩, rfl⟩

/-- What is listed is flagged free. -/
theorem flagged_of_represents
    (hrep : ∀ o < orderCount, (p.list o).Represents p.table (p.layout o))
    (hb : b ∈ p.layout.extents) : (p.table.get? b.head).any (·.free) = true := by
  obtain ⟨ho, hmem⟩ := Layout.mem_extents.1 hb
  obtain ⟨d, hd, hfree⟩ := (hrep b.order ho).get? hmem
  exact (Option.any_eq_true ..).2 ⟨d, hd, hfree⟩

/-- **What is accepted is intact**, and the buddies that were looked at have an address. -/
theorem of_check (h : p.check P = .ok ()) :
    p.Intact ∧ ∀ o < topOrder, ∀ f ∈ p.layout o, f < P.frameLimit := by
  obtain ⟨⟨listed, seen⟩, hlists, h⟩ := bind_eq_ok_iff.1 h
  obtain ⟨_, hframes, h⟩ := bind_eq_ok_iff.1 h
  rw [demand, require_eq_ok_iff] at hframes
  have hcount := require_eq_ok_iff.1 h
  obtain ⟨hall, rfl, hdepth, hnotes⟩ :=
    of_checkLists (Coverage.notes_nil p.table) (fun _ ↦ Nat.zero_le 1) hlists
  simp only [Layout.extentsOf_range, List.append_nil] at hcount hdepth hnotes
  simp only [List.mem_range] at hall
  have hrep := fun o ho ↦ (hall o ho).1
  have hpass : ∀ b ∈ p.layout.extents, Passable P p.table b := fun b hb ↦ by
    obtain ⟨ho, hmem⟩ := Layout.mem_extents.1 hb
    exact (hall b.order ho).2 b.head hmem
  have ht : Tiling p.table p.layout.extents := by
    refine ⟨fun b hb ↦ (hpass b hb).aligned, hdepth, fun f hf ↦ ?_⟩
    obtain ⟨b, hb, hfb⟩ := depth_pos_iff.1 hf
    exact ⟨Nat.lt_of_lt_of_le hfb.2 (hpass b hb).inside, (hpass b hb).usable f hfb⟩
  have hflagged := (countP_free_eq_iff ht fun b hb ↦ flagged_of_represents hrep hb).1 hcount
  refine ⟨⟨hrep, fun o ho f hf d hd ↦ ⟨?_, ((hall o ho).2 f hf).described d hd⟩, ht,
    fun o ho f hf hbuddy ↦ ?_, ?_, fun f ↦ ⟨fun hf ↦ ?_, fun hf ↦ ?_⟩⟩,
    fun o ho f hf ↦ (((hall o (Nat.lt_succ_of_lt ho)).2 f hf).lone ho).1⟩
  · have husable := ((hall o ho).2 f hf).usable f (head_mem _)
    rwa [isReserved, hd, Option.any_some] at husable
  · have ho' := Nat.lt_succ_of_lt ho
    obtain ⟨d, hd, hfree⟩ := (hrep o ho').get? hbuddy
    have horder := (((hall o ho').2 _ hbuddy).described d hd).2.1
    have hlone := (((hall o ho').2 f hf).lone ho).2
    rw [isFreeHead, hd, Option.any_some, hfree, horder, beq_self_eq_true] at hlone
    exact Bool.noConfusion hlone
  · rw [← ht.sum_eq_card, ← hnotes.frames]
    exact hframes
  · exact (exists_head_eq_iff p.layout f).1 (hflagged f hf)
  · obtain ⟨b, hb, rfl⟩ := (exists_head_eq_iff p.layout f).2 hf
    exact flagged_of_represents hrep hb

/-- **What is intact is accepted** if the buddies that are looked at have an address. -/
theorem Intact.check (h : p.Intact) (hlimit : ∀ o < topOrder, ∀ f ∈ p.layout o, f < P.frameLimit) :
    p.check P = .ok () := by
  have hall : ∀ o ∈ List.range orderCount, (p.list o).Represents p.table (p.layout o) ∧
      ∀ f ∈ p.layout o, Passable P p.table ⟨f, o⟩ := fun o ho ↦ by
    rw [List.mem_range] at ho
    exact ⟨h.represents o ho, fun f hf ↦ h.passable (fun hlt ↦ hlimit o hlt f hf) ho hf⟩
  obtain ⟨seen, hlists, hnotes⟩ := checkLists_eq_ok hall (Coverage.notes_nil p.table) fun f ↦ by
    rw [Layout.extentsOf_range, List.append_nil]
    exact h.tiling.depth_le f
  rw [Layout.extentsOf_range, List.append_nil] at hnotes
  rw [Layout.extentsOf_range] at hlists
  have hframes : seen.frames ≤ p.total := by
    rw [hnotes.frames, h.tiling.sum_eq_card]
    exact h.covered
  have hcount := (countP_free_eq_iff h.tiling fun b hb ↦ flagged_of_represents h.represents hb).2
    fun f hf ↦ (exists_head_eq_iff p.layout f).2 ((h.flagged f).1 hf)
  simp only [Pool.check, hlists, ok_bind, demand, require_of_pos hframes, require_of_pos hcount]

/-- **The checker is exact**: it accepts a pool whose lists are intact and whose buddies can be
computed, and no other. -/
theorem check_eq_ok_iff :
    p.check P = .ok () ↔ p.Intact ∧ ∀ o < topOrder, ∀ f ∈ p.layout o, f < P.frameLimit :=
  ⟨of_check, fun h ↦ h.1.check h.2⟩

/-- **A sound pool is intact.** -/
theorem Sound.intact (hs : Sound P t p L ledger) : p.Intact := by
  obtain rfl : p.layout = L := hs.threads.layout_eq
  have ht : Tiling p.table p.layout.extents :=
    ⟨hs.tiling_free.aligned, hs.tiling_free.depth_le, fun f hf ↦ by
      rw [hs.alike.length_eq, hs.alike.isReserved_eq]
      exact hs.tiling_free.usable f hf⟩
  refine ⟨hs.threads.represents, fun o ho f hf d hd ↦ ?_, ht, hs.coalesced, ?_, fun f ↦ ?_⟩
  · obtain ⟨horder, halloc⟩ := hs.threads.labelled o f hf d hd
    have hres := (ht.usable_of_mem (b := ⟨f, o⟩) (Layout.mem_extents.2 ⟨ho, hf⟩) (head_mem _)).2
    rw [isReserved, hd, Option.any_some] at hres
    exact ⟨hres, halloc, horder,
      (hs.books.idle f d hd fun l hl heq ↦ hs.unlisted hl o (heq ▸ hf)).2⟩
  · rw [← ht.sum_eq_card, hs.total]
    exact hs.tiling_free.sum_le_usableCount
  · rw [Option.any_eq_true]
    constructor
    · rintro ⟨d, hd, hfree⟩
      have hmem := hs.threads.listed f d hd hfree
      exact ⟨d.order, hs.threads.lt_orderCount hmem, hmem⟩
    · rintro ⟨o, -, hf⟩
      obtain ⟨d, hd, hfree, -⟩ := hs.threads.get? hf
      exact ⟨d, hd, hfree⟩

/-- **A sound pool passes the checker.** -/
theorem Sound.check (hs : Sound P t p L ledger) : p.check P = .ok () := by
  refine check_eq_ok_iff.2 ⟨hs.intact, fun o ho f hf ↦ ?_⟩
  rw [hs.threads.layout_eq] at hf
  have hb : (⟨f, o⟩ : Extent) ∈ L.extents :=
    Layout.mem_extents.2 ⟨hs.threads.lt_orderCount hf, hf⟩
  exact (hs.addressable _ (List.mem_append_left _ hb)).2 ho

/-- A pool that checks itself goes on as one that does not. -/
theorem Sound.verify {C : Config} (hs : Sound C.platform t p L ledger) : p.verify C = .ok () := by
  rw [Pool.verify]
  split
  · exact hs.check
  · rfl

end Pool

end FramePool
