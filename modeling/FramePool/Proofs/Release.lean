import FramePool.Pool.Release
import FramePool.Proofs.Check
import FramePool.Proofs.Search

/-!
# Handing over frames

A range is cut into blocks that make it up exactly (`depth_carved`), each of them aligned and of an
order that there is (`mem_carved`). Handing over blocks whose frames are in no block yet keeps a
pool sound (`Sound.releaseBlock`, `Sound.releaseBlocks`), and so does handing over a range of such
frames: **the free frames afterwards are those before and the range** (`Sound.releaseRange`). It
succeeds where the frames are usable and all of the table has addresses
(`Sound.exists_releaseRange`).
-/

namespace FramePool.Pool

open FrameTable Loan

/-! ### Cutting a range into blocks -/

/-- The blocks that a range is cut into. -/
def carved (blocks : List (Frame × Nat)) : List Extent := blocks.map fun b ↦ ⟨b.1, b.2⟩

/-- The search is for the greatest order that fits. -/
theorem fittingOrder_eq_findGreatest (f count : Nat) :
    fittingOrder f count =
      Nat.findGreatest (fun o ↦ f % 2 ^ o = 0 ∧ 2 ^ o ≤ count) topOrder :=
  getD_find?_reverse_range _ topOrder

/-- The order that is found fits: some order does, since a single frame is a block. -/
theorem fittingOrder_spec {f count : Nat} (hcount : 0 < count) :
    fittingOrder f count ≤ topOrder ∧ 2 ^ fittingOrder f count ∣ f ∧
      2 ^ fittingOrder f count ≤ count := by
  obtain ⟨hdvd, hle⟩ := Nat.findGreatest_spec (P := fun o ↦ f % 2 ^ o = 0 ∧ 2 ^ o ≤ count)
    (Nat.zero_le topOrder) ⟨Nat.mod_one f, hcount⟩
  rw [fittingOrder_eq_findGreatest]
  exact ⟨Nat.findGreatest_le topOrder, Nat.dvd_of_mod_eq_zero hdvd, hle⟩

/-- The order that is found is the largest one that fits. -/
theorem le_fittingOrder {f count o : Nat} (ho : o ≤ topOrder) (hdvd : 2 ^ o ∣ f)
    (hcount : 2 ^ o ≤ count) : o ≤ fittingOrder f count := by
  rw [fittingOrder_eq_findGreatest]
  exact Nat.le_findGreatest ho ⟨Nat.mod_eq_zero_of_dvd hdvd, hcount⟩

/-- Fuel for the frames that are left is enough. -/
theorem carveFrom_eq_carve {fuel f count : Nat} (hfuel : count ≤ fuel) :
    carveFrom fuel f count = carve f count := by
  induction count using Nat.strong_induction_on generalizing fuel f with
  | _ count ih =>
    rcases Nat.eq_zero_or_pos count with rfl | hcount
    · cases fuel <;> rfl
    · obtain ⟨n, rfl⟩ := Nat.exists_eq_succ_of_ne_zero hcount.ne'
      obtain ⟨fuel, rfl⟩ := Nat.exists_eq_succ_of_ne_zero (Nat.lt_of_lt_of_le hcount hfuel).ne'
      have hpos := Nat.two_pow_pos (fittingOrder f n.succ)
      have hlt : n.succ - 2 ^ fittingOrder f n.succ < n.succ := by omega
      have hrest : ∀ fuel ≥ n, ∀ g, carveFrom fuel g (n.succ - 2 ^ fittingOrder f n.succ) =
          carve g (n.succ - 2 ^ fittingOrder f n.succ) :=
        fun fuel hfuel g ↦ ih _ hlt (by omega)
      simp only [carve, carveFrom, if_neg hcount.ne', hrest fuel (by omega), hrest n le_rfl]

@[simp] theorem carve_zero (f : Nat) : carve f 0 = [] := rfl

/-- **Cutting off** the largest block that fits in front. -/
theorem carve_of_pos {f count : Nat} (hcount : 0 < count) :
    carve f count = (f, fittingOrder f count) ::
      carve (f + 2 ^ fittingOrder f count) (count - 2 ^ fittingOrder f count) := by
  have hpos := Nat.two_pow_pos (fittingOrder f count)
  obtain ⟨fuel, rfl⟩ := Nat.exists_eq_succ_of_ne_zero hcount.ne'
  rw [carve, carveFrom, if_neg hcount.ne']
  exact congrArg _ (carveFrom_eq_carve (by omega))

/-- A range that is an aligned block is cut into that block. -/
theorem carve_two_pow {f o : Nat} (ho : o ≤ topOrder) (hdvd : 2 ^ o ∣ f) :
    carve f (2 ^ o) = [(f, o)] := by
  have hpos := Nat.two_pow_pos o
  obtain ⟨-, -, hle⟩ := fittingOrder_spec (f := f) hpos
  have horder : fittingOrder f (2 ^ o) = o :=
    Nat.le_antisymm ((Nat.pow_le_pow_iff_right (by decide)).1 hle)
      (le_fittingOrder ho hdvd (Nat.le_refl _))
  rw [carve_of_pos hpos, horder, Nat.sub_self, carve_zero]

/-- Each block that is cut off is aligned and of an order that there is. -/
theorem mem_carved {fuel f count : Nat} {b : Extent} (hb : b ∈ carved (carveFrom fuel f count)) :
    b.Aligned ∧ b.order ≤ topOrder := by
  induction fuel generalizing f count with
  | zero => cases hb
  | succ fuel ih =>
    rw [carveFrom] at hb
    split at hb
    · cases hb
    · rename_i hcount
      obtain ⟨htop, hdvd, -⟩ := fittingOrder_spec (f := f) (Nat.pos_of_ne_zero hcount)
      rcases List.mem_cons.1 hb with rfl | hb
      · exact ⟨hdvd, htop⟩
      · exact ih hb

/-- **The blocks make up the range**: each of its frames lies in one of them, and no other frame
does. -/
theorem depth_carved (fuel f count : Nat) (hfuel : count ≤ fuel) (g : Nat) :
    Extent.depth (carved (carveFrom fuel f count)) g = if f ≤ g ∧ g < f + count then 1 else 0 := by
  induction fuel generalizing f count with
  | zero =>
    rw [if_neg (by omega)]
    rfl
  | succ fuel ih =>
    rw [carveFrom]
    split
    · rw [if_neg (by omega)]
      rfl
    · rename_i hcount
      obtain ⟨-, -, hle⟩ := fittingOrder_spec (f := f) (Nat.pos_of_ne_zero hcount)
      have hpos := Nat.two_pow_pos (fittingOrder f count)
      have hrest := ih (f + 2 ^ fittingOrder f count) (count - 2 ^ fittingOrder f count)
        (by omega)
      have hcons : carved ((f, fittingOrder f count) ::
          carveFrom fuel (f + 2 ^ fittingOrder f count) (count - 2 ^ fittingOrder f count)) =
          ⟨f, fittingOrder f count⟩ :: carved
            (carveFrom fuel (f + 2 ^ fittingOrder f count) (count - 2 ^ fittingOrder f count)) :=
        rfl
      rw [hcons, Extent.depth_cons, hrest]
      simp only [Extent.mem_iff]
      split <;> split <;> split <;> omega

/-! ### Handing over blocks -/

variable {C : Config} {P : Platform} {t : FrameTable} {p p' : Pool} {L : Layout}
  {ledger : List Loan} {b : Extent}

theorem requireUsable_eq_ok_iff {f count : Nat} {u : Unit} :
    requireUsable t f count = .ok u ↔ ∀ g, f ≤ g → g < f + count → t.isReserved g = false := by
  have hnone : (List.range' f count).find? t.isReserved = none ↔
      ∀ g, f ≤ g → g < f + count → t.isReserved g = false := by
    simp [List.find?_eq_none, List.mem_range'_1]
  rw [requireUsable, ← hnone]
  cases (List.range' f count).find? t.isReserved <;> simp

/-- The fault names the first reserved frame. -/
theorem requireUsable_eq_error_iff {f count : Nat} {fault : Fault} :
    requireUsable t f count = .error fault ↔
      ∃ g, fault = .releaseReserved g ∧ f ≤ g ∧ g < f + count ∧ t.isReserved g = true ∧
        ∀ h, f ≤ h → h < g → t.isReserved h = false := by
  rw [requireUsable]
  rcases hfind : (List.range' f count).find? t.isReserved with - | g
  · refine iff_of_false (fun h ↦ by cases h) ?_
    rintro ⟨g, -, hle, hlt, hg, -⟩
    exact List.find?_eq_none.1 hfind g (List.mem_range'_1.2 ⟨hle, hlt⟩) hg
  · obtain ⟨hg, hmem, hleast⟩ := List.find?_range'_eq_some.1 hfind
    obtain ⟨hle, hlt⟩ := List.mem_range'_1.1 hmem
    constructor
    · intro h
      refine ⟨g, (Except.error.inj h).symm, hle, hlt, hg, fun h hle hlt ↦ ?_⟩
      simpa using hleast h hle hlt
    · rintro ⟨g', rfl, hle', hlt', hg', hleast'⟩
      -- Both are the first reserved frame.
      rcases Nat.lt_trichotomy g g' with hlt | rfl | hlt
      · rw [hleast' g hle hlt] at hg
        cases hg
      · rfl
      · simpa [hg'] using hleast g' hle' hlt

/-- **A block that is taken** has usable frames and a head without flags, and it is merged. -/
theorem releaseBlock_eq_ok_iff {h o : Nat} : (Pool.releaseBlock P p h o).result = .ok p' ↔
    (∀ f, h ≤ f → f < h + 2 ^ o → p.table.isReserved f = false) ∧
      ∃ d, p.table.get? h = some d ∧ d.free = false ∧ d.allocated = false ∧
        ∃ g k, (Pool.merge P { p with table := p.table.update h fun d ↦ { d with order := o } }
          h).result = .ok (g, k, p') := by
  constructor
  · intro hrelease
    simp only [Pool.releaseBlock, Traced.result_bind, Traced.result_liftM] at hrelease
    obtain ⟨_, hrequire, hrelease⟩ := bind_eq_ok_iff.1 hrelease
    obtain ⟨d, hread, hrelease⟩ := bind_eq_ok_iff.1 hrelease
    obtain ⟨_, hfree, hrelease⟩ := bind_eq_ok_iff.1 hrelease
    obtain ⟨_, halloc, hrelease⟩ := bind_eq_ok_iff.1 hrelease
    have hd := read_eq_ok_iff.1 hread
    rw [setOrder, write_eq_ok _ (lt_of_get? hd), ok_bind] at hrelease
    obtain ⟨⟨g, k, p₁⟩, hmerge, hrelease⟩ := bind_eq_ok_iff.1 hrelease
    obtain rfl : p₁ = p' := Except.ok.inj hrelease
    exact ⟨requireUsable_eq_ok_iff.1 hrequire, d, hd, require_eq_ok_iff.1 hfree,
      require_eq_ok_iff.1 halloc, g, k, hmerge⟩
  · rintro ⟨husable, d, hd, hfree, halloc, g, k, hmerge⟩
    have hrequire : requireUsable p.table h (2 ^ o) = .ok () := requireUsable_eq_ok_iff.2 husable
    simp only [Pool.releaseBlock, Traced.result_bind, Traced.result_liftM, hrequire, ok_bind,
      read_eq_ok_iff.2 hd, require_of_pos hfree, require_of_pos halloc, setOrder,
      write_eq_ok _ (lt_of_get? hd), hmerge, Traced.result_pure]

/-- **Handing over a block** of usable frames that are in no block succeeds, if it has an
address. -/
theorem Sound.exists_releaseBlock (hs : Sound P t p L ledger) (hb : b.Aligned)
    (haddr : b.Addressable P) (hfree : ∀ f ∈ b, Extent.depth (L.extents ++ extents ledger) f = 0)
    (husable : ∀ f ∈ b, f < t.length ∧ t.isReserved f = false) :
    ∃ p', (Pool.releaseBlock P p b.head b.order).result = .ok p' ∧
      Sound P t p' (L.putBack b) ledger := by
  have hloose := loose_of_tiling hs.threads.bounded hs.books hs.alike
    (hs.tiling.cons hb hfree husable) b.head_mem
  obtain ⟨d, hd, halloc⟩ := hloose.unallocated
  have hunlisted : d.free = false := (hs.threads.free_eq_false_iff hd).2 hloose.unlisted
  obtain ⟨g, o, p', hmerge, hs'⟩ := (hs.pickUp hb hfree husable).putBack haddr
  exact ⟨p', releaseBlock_eq_ok_iff.2 ⟨fun f hle hlt ↦
    (hs.alike.isReserved_eq f).trans (husable f ⟨hle, hlt⟩).2, d, hd, hunlisted, halloc, g, o,
    hmerge⟩, hs'⟩

/-- A block that was handed over consists of usable frames and has an address. -/
theorem Sound.of_releaseBlock_eq_ok (hs : Sound P t p L ledger) (hb : b.Aligned)
    (ho : b.order ≤ topOrder) (hfree : ∀ f ∈ b, Extent.depth (L.extents ++ extents ledger) f = 0)
    (hlen : ∀ f ∈ b, f < t.length)
    (h : (Pool.releaseBlock P p b.head b.order).result = .ok p') :
    (∀ f ∈ b, f < t.length ∧ t.isReserved f = false) ∧ b.Addressable P := by
  obtain ⟨hreserved, _, -, -, -, g, o, hmerge⟩ := releaseBlock_eq_ok_iff.1 h
  have husable : ∀ f ∈ b, f < t.length ∧ t.isReserved f = false := fun f hf ↦
    ⟨hlen f hf, hs.alike.isReserved_eq f ▸ hreserved f hf.1 hf.2⟩
  exact ⟨husable, (hs.pickUp hb hfree husable).addressable_of_merge ho hmerge⟩

/-- **Handing over a block** whose frames are in no block. -/
theorem Sound.releaseBlock (hs : Sound P t p L ledger) (hb : b.Aligned) (ho : b.order ≤ topOrder)
    (hfree : ∀ f ∈ b, Extent.depth (L.extents ++ extents ledger) f = 0)
    (hlen : ∀ f ∈ b, f < t.length)
    (h : (Pool.releaseBlock P p b.head b.order).result = .ok p') :
    Sound P t p' (L.putBack b) ledger := by
  obtain ⟨husable, haddr⟩ := hs.of_releaseBlock_eq_ok hb ho hfree hlen h
  obtain ⟨p'', h', hs'⟩ := hs.exists_releaseBlock hb haddr hfree husable
  rw [h, Except.ok.injEq] at h'
  exact h' ▸ hs'

/-- **Putting back** a block covers its frames once more. -/
theorem depth_putBack (L : Layout) (hb : b.Aligned) (ho : b.order ≤ topOrder) (f : Nat) :
    Extent.depth (L.putBack b).extents f =
      Extent.depth L.extents f + if f ∈ b then 1 else 0 := by
  rw [← (Layout.regroup_putBack L hb ho).depth_eq, Extent.depth_cons]

/-- Blocks that share no frame still do not once the first of them is put back. -/
theorem depth_putBack_le {bs cs : List Extent} (hb : b.Aligned) (ho : b.order ≤ topOrder)
    (hapart : ∀ f, Extent.depth (b :: bs ++ (L.extents ++ cs)) f ≤ 1) :
    (∀ f ∈ b, Extent.depth (L.extents ++ cs) f = 0) ∧
      ∀ f, Extent.depth (bs ++ ((L.putBack b).extents ++ cs)) f ≤ 1 := by
  refine ⟨fun f hf ↦ ?_, fun f ↦ ?_⟩
  · have hle := hapart f
    rw [List.cons_append, Extent.depth_cons, if_pos hf, Extent.depth_append] at hle
    omega
  · have hle := hapart f
    simp only [List.cons_append, Extent.depth_cons, Extent.depth_append,
      depth_putBack L hb ho] at hle ⊢
    omega

/-- **Handing over blocks** that share no frame with each other or with other blocks. -/
theorem Sound.releaseBlocks (hs : Sound P t p L ledger) {blocks : List (Frame × Nat)}
    (hblocks : ∀ b ∈ carved blocks, b.Aligned ∧ b.order ≤ topOrder)
    (hapart : ∀ f, Extent.depth (carved blocks ++ (L.extents ++ extents ledger)) f ≤ 1)
    (hlen : ∀ b ∈ carved blocks, ∀ f ∈ b, f < t.length)
    (h : (Pool.releaseBlocks P blocks p).result = .ok p') :
    ∃ L', Sound P t p' L' ledger ∧ Regroup (carved blocks ++ L.extents) L'.extents := by
  induction blocks generalizing p L with
  | nil =>
    rw [Pool.releaseBlocks, Traced.result_pure, Except.ok.injEq] at h
    exact ⟨L, h ▸ hs, .refl _⟩
  | cons b blocks ih =>
    obtain ⟨head, order⟩ := b
    have hcons : carved ((head, order) :: blocks) = ⟨head, order⟩ :: carved blocks := rfl
    rw [hcons] at hblocks hapart hlen ⊢
    obtain ⟨⟨hb, ho⟩, hblocks⟩ := List.forall_mem_cons.1 hblocks
    obtain ⟨hblen, hlen⟩ := List.forall_mem_cons.1 hlen
    obtain ⟨hfree, hapart⟩ := depth_putBack_le hb ho hapart
    rw [Pool.releaseBlocks, Traced.result_bind] at h
    obtain ⟨p₁, hblock, h⟩ := bind_eq_ok_iff.1 h
    have hs₁ := hs.releaseBlock hb ho hfree hblen hblock
    have hput := Layout.regroup_putBack L hb ho
    have hmiddle : (carved blocks ++ (⟨head, order⟩ :: L.extents)).Perm
        (⟨head, order⟩ :: carved blocks ++ L.extents) := List.perm_middle
    obtain ⟨L', hs', hregroup⟩ := ih hs₁ hblocks hapart hlen h
    refine ⟨L', hs', .trans ?_ hregroup⟩
    exact .trans (.perm hmiddle.symm) (hput.append_left _)

/-- Handing over such blocks of usable frames succeeds, if they have addresses. -/
theorem Sound.exists_releaseBlocks (hs : Sound P t p L ledger) {blocks : List (Frame × Nat)}
    (hblocks : ∀ b ∈ carved blocks, b.Aligned ∧ b.Addressable P)
    (hapart : ∀ f, Extent.depth (carved blocks ++ (L.extents ++ extents ledger)) f ≤ 1)
    (husable : ∀ b ∈ carved blocks, ∀ f ∈ b, f < t.length ∧ t.isReserved f = false) :
    ∃ p', (Pool.releaseBlocks P blocks p).result = .ok p' := by
  induction blocks generalizing p L with
  | nil => exact ⟨p, rfl⟩
  | cons b blocks ih =>
    obtain ⟨head, order⟩ := b
    have hcons : carved ((head, order) :: blocks) = ⟨head, order⟩ :: carved blocks := rfl
    rw [hcons] at hblocks hapart husable
    obtain ⟨⟨hb, haddr⟩, hblocks⟩ := List.forall_mem_cons.1 hblocks
    obtain ⟨hbusable, husable⟩ := List.forall_mem_cons.1 husable
    obtain ⟨hfree, hapart⟩ := depth_putBack_le hb haddr.1 hapart
    obtain ⟨p₁, hblock, hs₁⟩ := hs.exists_releaseBlock hb haddr hfree hbusable
    obtain ⟨p', hrest⟩ := ih hs₁ hblocks hapart husable
    refine ⟨p', ?_⟩
    rw [Pool.releaseBlocks, Traced.result_bind, hblock, ok_bind, hrest]

/-! ### Handing over a range -/

/-- The blocks of a range have its frames. -/
theorem mem_carve_iff {first count f : Nat} :
    (∃ b ∈ carved (carve first count), f ∈ b) ↔ first ≤ f ∧ f < first + count := by
  rw [← Extent.depth_pos_iff, carve, depth_carved count first count (Nat.le_refl count)]
  split <;> simp_all

theorem releaseRange_of_limit_le {first count : Nat} (hword : Word.limit ≤ first + count) :
    (Pool.releaseRange C p first count).result = .error .addOverflow := by
  rw [Pool.releaseRange, Traced.result_bind, Traced.result_liftM, Word.add,
    if_neg (Nat.not_lt.2 hword), error_bind]

/-- Inside the table, handing over a range is handing over its blocks, with a check at the end. -/
theorem releaseRange_of_le {first count : Nat} (hword : first + count < Word.limit)
    (hlen : first + count ≤ p.table.length) :
    (Pool.releaseRange C p first count).result =
      (Pool.releaseBlocks C.platform (carve first count) p).result >>= fun p' ↦
        (p'.verify C).map fun _ ↦ p' := by
  have hadd : Word.add first count = .ok (first + count) := Word.add_eq_ok_iff.2 ⟨hword, rfl⟩
  simp only [Pool.releaseRange, Traced.result_bind, Traced.result_liftM, hadd, ok_bind,
    require_of_pos hlen]
  refine congrArg _ (funext fun p' ↦ ?_)
  rcases p'.verify C with fault | u
  · rfl
  · rfl

/-- **A range that is taken** lies inside the table, and its blocks are taken. -/
theorem releaseRange_eq_ok_iff {first count : Nat} :
    (Pool.releaseRange C p first count).result = .ok p' ↔
      first + count < Word.limit ∧ first + count ≤ p.table.length ∧
        (Pool.releaseBlocks C.platform (carve first count) p).result = .ok p' ∧
          p'.verify C = .ok () := by
  constructor
  · intro h
    simp only [Pool.releaseRange, Traced.result_bind, Traced.result_liftM] at h
    obtain ⟨last, hlast, h⟩ := bind_eq_ok_iff.1 h
    obtain ⟨_, hlen, h⟩ := bind_eq_ok_iff.1 h
    obtain ⟨p₁, hblocks, h⟩ := bind_eq_ok_iff.1 h
    obtain ⟨_, hverify, h⟩ := bind_eq_ok_iff.1 h
    obtain rfl : p₁ = p' := Except.ok.inj h
    obtain ⟨hword, rfl⟩ := Word.add_eq_ok_iff.1 hlast
    exact ⟨hword, require_eq_ok_iff.1 hlen, hblocks, hverify⟩
  · rintro ⟨hword, hlen, hblocks, hverify⟩
    rw [releaseRange_of_le hword hlen, hblocks, ok_bind, hverify]
    rfl

/-- The blocks of a range whose frames are in no block share no frame with others. -/
theorem Sound.depth_carve_le (hs : Sound P t p L ledger) {first count : Nat}
    (hfree : ∀ f, first ≤ f → f < first + count →
      Extent.depth (L.extents ++ extents ledger) f = 0) (f : Nat) :
    Extent.depth (carved (carve first count) ++ (L.extents ++ extents ledger)) f ≤ 1 := by
  rw [Extent.depth_append, carve, depth_carved count first count (Nat.le_refl count)]
  split
  · rename_i hf
    rw [hfree f hf.1 hf.2]
  · rw [Nat.zero_add]
    exact hs.tiling.depth_le f

/-- The blocks of a range whose frames are in no block. -/
theorem Sound.releaseBlocks_carve (hs : Sound P t p L ledger) {first count : Nat}
    (hfree : ∀ f, first ≤ f → f < first + count →
      Extent.depth (L.extents ++ extents ledger) f = 0)
    (hlen : first + count ≤ t.length)
    (h : (Pool.releaseBlocks P (carve first count) p).result = .ok p') :
    ∃ L', Sound P t p' L' ledger ∧ ∀ f, (∃ b ∈ L'.extents, f ∈ b) ↔
      (first ≤ f ∧ f < first + count) ∨ ∃ b ∈ L.extents, f ∈ b := by
  have hblen : ∀ b ∈ carved (carve first count), ∀ f ∈ b, f < t.length := fun b hb f hf ↦
    Nat.lt_of_lt_of_le (mem_carve_iff.1 ⟨b, hb, hf⟩).2 hlen
  have hblocks : ∀ b ∈ carved (carve first count), b.Aligned ∧ b.order ≤ topOrder :=
    fun b hb ↦ mem_carved hb
  obtain ⟨L', hs', hregroup⟩ := hs.releaseBlocks hblocks (hs.depth_carve_le hfree) hblen h
  refine ⟨L', hs', fun f ↦ ?_⟩
  rw [← hregroup.covered_iff, ← mem_carve_iff]
  simp only [List.mem_append, or_and_right, exists_or]

/-- **Handing over a range** of usable frames that are in no block succeeds, if all of the table has
addresses. -/
theorem Sound.exists_releaseRange (hs : Sound C.platform t p L ledger) {first count : Nat}
    (hfits : t.length ≤ C.platform.frameLimit) (hlen : first + count ≤ t.length)
    (hfree : ∀ f, first ≤ f → f < first + count →
      Extent.depth (L.extents ++ extents ledger) f = 0)
    (husable : ∀ f, first ≤ f → f < first + count → t.isReserved f = false) :
    ∃ p', (Pool.releaseRange C p first count).result = .ok p' := by
  have hbusable : ∀ b ∈ carved (carve first count), ∀ f ∈ b,
      f < t.length ∧ t.isReserved f = false := fun b hb f hf ↦ by
    obtain ⟨hle, hlt⟩ := mem_carve_iff.1 ⟨b, hb, hf⟩
    exact ⟨Nat.lt_of_lt_of_le hlt hlen, husable f hle hlt⟩
  have hblocks : ∀ b ∈ carved (carve first count), b.Aligned ∧ b.Addressable C.platform :=
    fun b hb ↦ ⟨(mem_carved hb).1, (mem_carved hb).2, fun _ ↦
      Nat.lt_of_lt_of_le (hbusable b hb b.head b.head_mem).1 hfits⟩
  obtain ⟨p', hrelease⟩ := hs.exists_releaseBlocks hblocks (hs.depth_carve_le hfree) hbusable
  obtain ⟨L', hs', -⟩ := hs.releaseBlocks_carve hfree hlen hrelease
  have hword : first + count < Word.limit :=
    Nat.lt_of_le_of_lt (Nat.le_trans hlen hfits) C.platform.frameLimit_lt
  exact ⟨p', releaseRange_eq_ok_iff.2
    ⟨hword, hs.alike.length_eq ▸ hlen, hrelease, hs'.verify⟩⟩

/-- **Handing over a range that is a block** succeeds if the block has an address, whatever the rest
of the table is. -/
theorem Sound.exists_releaseRange_block (hs : Sound C.platform t p L ledger) (hb : b.Aligned)
    (haddr : b.Addressable C.platform) (hword : b.head + 2 ^ b.order < Word.limit)
    (hfree : ∀ f ∈ b, Extent.depth (L.extents ++ extents ledger) f = 0)
    (husable : ∀ f ∈ b, f < t.length ∧ t.isReserved f = false) :
    ∃ p', (Pool.releaseRange C p b.head (2 ^ b.order)).result = .ok p' ∧
      Sound C.platform t p' (L.putBack b) ledger := by
  obtain ⟨p', hrelease, hs'⟩ := hs.exists_releaseBlock hb haddr hfree husable
  have hend : b.head + 2 ^ b.order ≤ p.table.length := by
    have hpos := Nat.two_pow_pos b.order
    have hlast := (husable (b.head + (2 ^ b.order - 1)) ⟨by omega, by omega⟩).1
    rw [hs.alike.length_eq]
    omega
  have hblocks : (Pool.releaseBlocks C.platform (carve b.head (2 ^ b.order)) p).result =
      .ok p' := by
    rw [carve_two_pow haddr.1 hb, Pool.releaseBlocks, Traced.result_bind, hrelease, ok_bind]
    rfl
  exact ⟨p', releaseRange_eq_ok_iff.2 ⟨hword, hend, hblocks, hs'.verify⟩, hs'⟩

/-- **Handing over a range** whose frames are in no block: they become free, and no others. -/
theorem Sound.releaseRange (hs : Sound C.platform t p L ledger) {first count : Nat}
    (hfree : ∀ f, first ≤ f → f < first + count →
      Extent.depth (L.extents ++ extents ledger) f = 0)
    (h : (Pool.releaseRange C p first count).result = .ok p') :
    ∃ L', Sound C.platform t p' L' ledger ∧ ∀ f, (∃ b ∈ L'.extents, f ∈ b) ↔
      (first ≤ f ∧ f < first + count) ∨ ∃ b ∈ L.extents, f ∈ b := by
  obtain ⟨-, hlen, hblocks, -⟩ := releaseRange_eq_ok_iff.1 h
  exact hs.releaseBlocks_carve hfree (hs.alike.length_eq ▸ hlen) hblocks

/-- A pool that checks itself is handed a range as one that does not. -/
theorem Sound.releaseRange_congr (hs : Sound P t p L ledger) {first count : Nat}
    (hfree : ∀ f, first ≤ f → f < first + count →
      Extent.depth (L.extents ++ extents ledger) f = 0) (selfCheck : Bool) :
    Pool.releaseRange ⟨P, selfCheck⟩ p first count =
      Pool.releaseRange ⟨P, false⟩ p first count := by
  simp only [Pool.releaseRange]
  refine Traced.bind_congr_of_result fun last hlast ↦ ?_
  refine Traced.bind_congr_of_result fun _ hlen ↦ ?_
  refine Traced.bind_congr_of_result fun p' hblocks ↦ ?_
  rw [Traced.result_liftM] at hlast hlen
  rw [require_eq_ok_iff, (Word.add_eq_ok_iff.1 hlast).2] at hlen
  obtain ⟨L', hs', -⟩ := hs.releaseBlocks_carve hfree (hs.alike.length_eq ▸ hlen) hblocks
  rw [hs'.verify (C := ⟨P, selfCheck⟩), hs'.verify (C := ⟨P, false⟩)]

end FramePool.Pool
