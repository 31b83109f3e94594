import FramePool.Pool.Coalesce
import FramePool.Proofs.Threads

/-!
# What halving and merging do to a layout

The loops of a pool against the functions of its layout: `climb` does what `Layout.merge` does
(`Threads.climb`), `halveDown` what `Layout.halve` does (`Threads.halveDown`). So `merge` puts a
block back (`Threads.merge`), and `take` takes the first block of the smallest sufficient order and
halves it (`Threads.take`). Each statement says
that the loop ends without a fault, and names the frames on which it may write an order.

The one thing that can go wrong is that a block has no address, so that its buddy cannot be
computed. A loop that ends has computed one (`lt_frameLimit_of_merge`, `lt_frameLimit_of_take`).
-/

namespace FramePool.Pool

open FrameTable

variable {P : Platform} {p : Pool} {L : Layout} {o f h k : Nat}

/-- A frame of the table that is on no list and heads no block that was handed out. -/
structure Loose (p : Pool) (L : Layout) (f : Nat) : Prop where
  /-- It is on no list. -/
  unlisted : ∀ o, f ∉ L o
  /-- The table has it, and it is not flagged allocated. -/
  unallocated : ∃ d, p.table.get? f = some d ∧ d.allocated = false

/-- The order that is noted for a frame of the table. -/
def Labels (p : Pool) (f o : Nat) : Prop := (p.table.get? f).map (·.order) = some o

theorem Loose.lt_length (hf : p.Loose L f) : f < p.table.length := by
  obtain ⟨d, hd, -⟩ := hf.unallocated
  exact lt_of_get? hd

/-- A frame stays loose while others are linked and labelled. -/
theorem Loose.relabelled {p' : Pool} {L' : Layout} {S : Nat → Prop} (hf : p.Loose L f)
    (h : p.table.Relabelled S p'.table) (hL : ∀ o, f ∉ L' o) : p'.Loose L' f := by
  obtain ⟨d, hd, halloc⟩ := hf.unallocated
  obtain ⟨d', hd', -, halloc', -⟩ := h.get? hd
  exact ⟨hL, d', hd', halloc'.trans halloc⟩

theorem Labels.relabelled {p' : Pool} {S : Nat → Prop} (hf : p.Labels f o)
    (h : p.table.Relabelled S p'.table) (hS : ¬S f) : p'.Labels f o := by
  obtain ⟨d, hd, rfl⟩ := Option.map_eq_some_iff.1 hf
  obtain ⟨d', hd', -, -, -, horder⟩ := h.get? hd
  exact Option.map_eq_some_iff.2 ⟨d', hd', horder hS⟩

/-- A block that was taken off its list is loose. -/
theorem Threads.loose_erase {p' : Pool} {S : Nat → Prop} (hp : p.Threads L) (hf : f ∈ L o)
    (h : p.table.Relabelled S p'.table) : p'.Loose (L.erase o f) f := by
  obtain ⟨d, hd, -, -, halloc⟩ := hp.get? hf
  obtain ⟨d', hd', -, halloc', -⟩ := h.get? hd
  refine ⟨fun o' hmem ↦ ?_, d', hd', halloc'.trans halloc⟩
  by_cases heq : o' = o
  · subst heq
    rw [Layout.erase_self] at hmem
    exact (hp.represents o' (hp.lt_orderCount hf)).nodup.not_mem_erase hmem
  · exact heq (hp.eq_of_mem hf (Layout.mem_of_mem_erase hmem))

/-- **Linking** a loose block under the order that is noted for it. -/
theorem Threads.link_loose (hp : p.Threads L) (ho : o < orderCount) (hf : p.Loose L f)
    (hlabel : p.Labels f o) :
    ∃ p', p.link o f = .ok p' ∧ p'.Threads (L.push o f) ∧ p'.total = p.total ∧
      p.table.Relabelled (fun _ ↦ False) p'.table := by
  obtain ⟨d, hd, halloc⟩ := hf.unallocated
  refine hp.link ho hd hf.unlisted ?_ halloc
  rw [Labels, hd, Option.map_some, Option.some.injEq] at hlabel
  exact hlabel

/-- **Labelling** a loose block. -/
theorem Threads.setOrder_loose (hp : p.Threads L) (hf : p.Loose L f) (o : Nat) :
    ∃ p', p.setOrder f o = .ok p' ∧ p'.Threads L ∧ p'.total = p.total ∧ p'.Labels f o ∧
      p.table.Relabelled (· = f) p'.table := by
  obtain ⟨p', hset, hp', htotal, htable⟩ := hp.setOrder hf.lt_length hf.unlisted o
  obtain ⟨d, hd, -⟩ := hf.unallocated
  refine ⟨p', hset, hp', htotal, ?_, htable ▸ relabelled_update p.table f o⟩
  rw [Labels, htable, get?_update_self, hd]
  rfl

/-! ### Merging -/

/-- **The merging loop** does to the lists what `Layout.merge` does to the layout. The induction is
on the levels; what carries it is that the block in hand is loose and labelled with its order. -/
theorem Threads.climb {levels : Nat} (hp : p.Threads L) (hh : p.Loose L h) (hlabel : p.Labels h o)
    (ho : o + levels = topOrder) (haddr : o < topOrder → h < P.frameLimit) :
    ∃ p', (climb P levels o h p).result =
        .ok ((Layout.merge levels o h L).1.head, (Layout.merge levels o h L).1.order, p') ∧
      p'.Threads (Layout.merge levels o h L).2 ∧ p'.total = p.total ∧
      p.table.Relabelled (fun f ↦ f = h ∨ ∃ o, f ∈ L o) p'.table := by
  induction levels generalizing o h p L with
  | zero =>
    rw [Nat.add_zero] at ho
    obtain ⟨p', hlink, hp', htotal, hre⟩ :=
      hp.link_loose (ho ▸ Nat.lt_succ_self topOrder) hh hlabel
    refine ⟨p', ?_, hp', htotal, hre.mono fun f hf ↦ hf.elim⟩
    simp only [Pool.climb, Traced.result_bind, Traced.result_liftM, hlink, ok_bind]
    rfl
  | succ levels ih =>
    have ho' : o < topOrder := by omega
    have hbuddy := Block.buddy_eq_ok (haddr ho') ho'
    rw [Pool.climb, Layout.merge]
    by_cases hmem : Frame.buddy h o ∈ L o
    · obtain ⟨p₁, hunlink, hp₁, htotal₁, hre₁⟩ := hp.unlink hmem
      have hh₁ : p₁.Loose (L.erase o (Frame.buddy h o)) h :=
        hh.relabelled hre₁ fun o' hf ↦ hh.unlisted o' (Layout.mem_of_mem_erase hf)
      have hmin : p₁.Loose (L.erase o (Frame.buddy h o)) (min h (Frame.buddy h o)) := by
        rcases Nat.le_total h (Frame.buddy h o) with hle | hle
        · rwa [Nat.min_eq_left hle]
        · rw [Nat.min_eq_right hle]
          exact hp.loose_erase hmem hre₁
      obtain ⟨p₂, hset, hp₂, htotal₂, hlabel₂, hre₂⟩ := hp₁.setOrder_loose hmin (o + 1)
      obtain ⟨p₃, hclimb, hp₃, htotal₃, hre₃⟩ :=
        ih hp₂ (hmin.relabelled hre₂ hmin.unlisted) hlabel₂ (by omega)
          fun _ ↦ Nat.lt_of_le_of_lt (Nat.min_le_left ..) (haddr ho')
      have hsub : ∀ f, f = min h (Frame.buddy h o) → f = h ∨ ∃ o, f ∈ L o := by
        rintro f rfl
        rcases Nat.le_total h (Frame.buddy h o) with hle | hle
        · exact Or.inl (Nat.min_eq_left hle)
        · exact Or.inr ⟨o, (Nat.min_eq_right hle).symm ▸ hmem⟩
      refine ⟨p₃, ?_, ?_, by rw [htotal₃, htotal₂, htotal₁], ?_⟩
      · simp only [Traced.result_bind, Traced.result_liftM, hbuddy, ok_bind,
          if_pos (hp.isFreeHead_iff.2 hmem), if_pos hmem, hunlink, Traced.result_emit, hset, hclimb]
      · rwa [if_pos hmem]
      · refine (hre₁.mono fun f hf ↦ hf.elim).trans ((hre₂.mono hsub).trans (hre₃.mono ?_))
        rintro f (hf | ⟨o', hf⟩)
        · exact hsub f hf
        · exact Or.inr ⟨o', Layout.mem_of_mem_erase hf⟩
    · obtain ⟨p', hlink, hp', htotal, hre⟩ :=
        hp.link_loose (Nat.lt_succ_of_lt ho') hh hlabel
      refine ⟨p', ?_, ?_, htotal, hre.mono fun f hf ↦ hf.elim⟩
      · simp only [Traced.result_bind, Traced.result_liftM, hbuddy, ok_bind,
          if_neg (mt hp.isFreeHead_iff.1 hmem), if_neg hmem, hlink]
        rfl
      · rwa [if_neg hmem]

/-- A loop that ends has computed a buddy, unless it had none to compute. -/
theorem lt_frameLimit_of_climb {levels : Nat} {r : Frame × Nat × Pool}
    (h' : (Pool.climb P levels o h p).result = .ok r) (hlevels : 0 < levels) :
    h < P.frameLimit := by
  obtain ⟨n, rfl⟩ := Nat.exists_eq_succ_of_ne_zero hlevels.ne'
  rw [Pool.climb, Traced.result_bind, Traced.result_liftM] at h'
  obtain ⟨b, hb, -⟩ := bind_eq_ok_iff.1 h'
  exact Block.lt_frameLimit_of_buddy hb

/-- Merging climbs from the order that is noted. -/
theorem merge_eq_climb (hlabel : p.Labels h o) :
    (Pool.merge P p h).result = (Pool.climb P (topOrder - o) o h p).result := by
  obtain ⟨d, hd, rfl⟩ := Option.map_eq_some_iff.1 hlabel
  rw [Pool.merge, Traced.result_bind, Traced.result_liftM, read_eq_ok_iff.2 hd, ok_bind]

/-- **Merging** a loose block puts it back into the layout. -/
theorem Threads.merge {b : Extent} (hp : p.Threads L) (hloose : p.Loose L b.head)
    (hlabel : p.Labels b.head b.order) (ho : b.order ≤ topOrder)
    (haddr : b.order < topOrder → b.head < P.frameLimit) :
    ∃ g k p', (Pool.merge P p b.head).result = .ok (g, k, p') ∧ p'.Threads (L.putBack b) ∧
      p'.total = p.total ∧ p.table.Relabelled (fun f ↦ f = b.head ∨ ∃ o, f ∈ L o) p'.table := by
  obtain ⟨p', hclimb, hp', htotal, hre⟩ :=
    hp.climb hloose hlabel (Nat.add_sub_cancel' ho) haddr
  exact ⟨_, _, p', (merge_eq_climb hlabel).trans hclimb, hp', htotal, hre⟩

theorem lt_frameLimit_of_merge {r : Frame × Nat × Pool} (hlabel : p.Labels h o)
    (h' : (Pool.merge P p h).result = .ok r) (ho : o < topOrder) : h < P.frameLimit := by
  rw [merge_eq_climb hlabel] at h'
  exact lt_frameLimit_of_climb h' (Nat.sub_pos_of_lt ho)

/-! ### Halving -/

/-- **The halving loop** does to the lists what `Layout.halve` does to the layout. The induction is
on the levels; what carries it is that every frame of the block that is left to halve is loose. -/
theorem Threads.halveDown (levels : Nat) (hp : p.Threads L) (ho : o + levels < orderCount)
    (haligned : 2 ^ (o + levels) ∣ h) (hloose : ∀ f ∈ (⟨h, o + levels⟩ : Extent), p.Loose L f)
    (hlabel : p.Labels h (o + levels)) (haddr : 0 < levels → h < P.frameLimit) :
    ∃ p', Pool.halveDown P h o levels p = .ok p' ∧ p'.Threads (L.halve h o levels) ∧
      p'.total = p.total ∧ p'.Labels h o ∧
      p.table.Relabelled (· ∈ (⟨h, o + levels⟩ : Extent)) p'.table := by
  induction levels generalizing p L with
  | zero =>
    exact ⟨p, rfl, hp, rfl, hlabel, .refl _ _⟩
  | succ levels ih =>
    have hlow : (⟨h, o + levels⟩ : Extent).Aligned := Extent.aligned_lowerHalf haligned
    have hhalves : ∀ f, f ∈ (⟨h, o + (levels + 1)⟩ : Extent) ↔
        f ∈ (⟨h, o + levels⟩ : Extent) ∨ f ∈ (⟨h, o + levels⟩ : Extent).buddy := fun f ↦ by
      rw [← Nat.add_assoc, ← Extent.parent_lowerHalf (o := o + levels) haligned]
      exact Extent.mem_parent_iff hlow
    have hhead := Extent.head_mem ⟨h, o + levels⟩
    have hhead' := Extent.head_mem (⟨h, o + levels⟩ : Extent).buddy
    have hbuddy := Block.buddy_eq_ok (P := P) (o := o + levels) (haddr (Nat.succ_pos _))
      (by unfold topOrder; omega)
    have hne : Frame.buddy h (o + levels) ≠ h := Frame.buddy_ne h (o + levels)
    have hh := hloose h ((hhalves _).2 (Or.inl hhead))
    have hb := hloose (Frame.buddy h (o + levels)) ((hhalves _).2 (Or.inr hhead'))
    obtain ⟨p₁, hset₁, hp₁, htotal₁, hlabel₁, hre₁⟩ := hp.setOrder_loose hh (o + levels)
    obtain ⟨p₂, hset₂, hp₂, htotal₂, hlabel₂, hre₂⟩ :=
      hp₁.setOrder_loose (hb.relabelled hre₁ hb.unlisted) (o + levels)
    obtain ⟨p₃, hlink, hp₃, htotal₃, hre₃⟩ := hp₂.link_loose (by omega)
      ((hb.relabelled hre₁ hb.unlisted).relabelled hre₂ hb.unlisted) hlabel₂
    have hloose₃ : ∀ f ∈ (⟨h, o + levels⟩ : Extent),
        p₃.Loose (L.push (o + levels) (Frame.buddy h (o + levels))) f := fun f hf ↦ by
      have hf' := hloose f ((hhalves f).2 (Or.inl hf))
      refine ((hf'.relabelled hre₁ hf'.unlisted).relabelled hre₂ hf'.unlisted).relabelled hre₃ ?_
      intro o' hmem
      rcases Layout.mem_push.1 hmem with ⟨-, rfl⟩ | hmem
      · exact Extent.apart_buddy hlow _ hf hhead'
      · exact hf'.unlisted o' hmem
    have hlabel₃ : p₃.Labels h (o + levels) :=
      (hlabel₁.relabelled hre₂ hne.symm).relabelled hre₃ not_false
    obtain ⟨p₄, hhalve, hp₄, htotal₄, hlabel₄, hre₄⟩ :=
      ih hp₃ (by omega) hlow hloose₃ hlabel₃ fun _ ↦ haddr (Nat.succ_pos _)
    refine ⟨p₄, ?_, hp₄, by rw [htotal₄, htotal₃, htotal₂, htotal₁], hlabel₄, ?_⟩
    · rw [Pool.halveDown, hbuddy, ok_bind, hset₁, ok_bind, hset₂, ok_bind, hlink, ok_bind, hhalve]
    · have hsub : ∀ f, f = h ∨ f = Frame.buddy h (o + levels) →
          f ∈ (⟨h, o + (levels + 1)⟩ : Extent) := by
        rintro f (rfl | rfl)
        · exact (hhalves _).2 (Or.inl hhead)
        · exact (hhalves _).2 (Or.inr hhead')
      refine (hre₁.mono fun f hf ↦ hsub f (Or.inl hf)).trans
        ((hre₂.mono fun f hf ↦ hsub f (Or.inr hf)).trans
          ((hre₃.mono fun f hf ↦ hf.elim).trans (hre₄.mono fun f hf ↦ (hhalves f).2 (Or.inl hf))))

/-! ### Taking a block -/

/-- There is nothing to take when all sufficient lists are empty. -/
theorem Threads.firstFit_eq_none_iff (hp : p.Threads L) :
    p.firstFit o = none ↔ ∀ k, o ≤ k → L k = [] := by
  rw [firstFit, List.find?_range'_eq_none]
  constructor
  · intro hnone k hok
    rcases Nat.lt_or_ge k orderCount with hk | hk
    · rw [← (hp.represents k hk).isEmpty_iff]
      simpa using hnone k hok (by omega)
    · exact hp.bounded k hk
  · intro hempty k hok hk
    simp [(hp.represents k (by omega)).isEmpty_iff.2 (hempty k hok)]

/-- What is found is the order of the block that the layout offers. -/
theorem Threads.exists_offers (hp : p.Threads L) (hfit : p.firstFit o = some k) :
    ∃ g, L.Offers o k g := by
  rw [firstFit, List.find?_range'_eq_some, List.mem_range'_1] at hfit
  obtain ⟨hk, ⟨hok, hlt⟩, hbefore⟩ := hfit
  have hk' : k < orderCount := by omega
  have hne : L k ≠ [] := fun hempty ↦ by
    rw [(hp.represents k hk').isEmpty_iff.2 hempty] at hk
    cases hk
  obtain ⟨g, fs, hfs⟩ := List.exists_cons_of_ne_nil hne
  refine ⟨g, hok, hk', by rw [hfs]; rfl, fun j hoj hjk ↦ ?_⟩
  rw [← (hp.represents j (by omega)).isEmpty_iff]
  simpa using hbefore j hoj hjk

/-- The order of the block that the layout offers is found. -/
theorem Threads.firstFit_eq_some (hp : p.Threads L) (h : L.Offers o k f) :
    p.firstFit o = some k := by
  have hle := h.le
  have hlt := h.lt
  rw [firstFit, List.find?_range'_eq_some, List.mem_range'_1]
  refine ⟨?_, ⟨hle, by omega⟩, fun j hoj hjk ↦ ?_⟩
  · rw [Bool.not_eq_true', Bool.eq_false_iff, Ne, (hp.represents k hlt).isEmpty_iff]
    exact List.ne_nil_of_mem h.mem
  · simpa using (hp.represents j (by omega)).isEmpty_iff.2 (h.empty j hoj hjk)

/-- **Taking a block** erases the one that is offered from the layout and halves it down to the
order asked for. -/
theorem Threads.take (hp : p.Threads L) (hoffers : L.Offers o k h) (haligned : 2 ^ k ∣ h)
    (hloose : ∀ f ∈ (⟨h, k⟩ : Extent), p.Loose (L.erase k h) f)
    (haddr : o < k → h < P.frameLimit) :
    ∃ p', (Pool.take P p o).result = .ok (some h, p') ∧
      p'.Threads (L.takeOff h k o) ∧ p'.total = p.total ∧ p'.Labels h o ∧
      p.table.Relabelled (· ∈ (⟨h, k⟩ : Extent)) p'.table := by
  have hfit := hp.firstFit_eq_some hoffers
  have hlt := hoffers.lt
  have hsum : o + (k - o) = k := Nat.add_sub_cancel' hoffers.le
  obtain ⟨fs, hk⟩ := List.head?_eq_some_iff.1 hoffers.head
  obtain ⟨d, hd, -, hdk, -⟩ := hp.get? hoffers.mem
  obtain ⟨p₁, hpop, hp₁, htotal₁, hre₁⟩ := hp.popFirst hk
  obtain ⟨d₁, hd₁, -, -, -, hdorder⟩ := hre₁.get? hd
  have hd₁k : d₁.order = k := (hdorder not_false).trans hdk
  obtain ⟨p₂, hhalve, hp₂, htotal₂, hlabel₂, hre₂⟩ :=
    hp₁.halveDown (P := P) (h := h) (o := o) (k - o) (by rwa [hsum]) (by rwa [hsum])
      (fun f hf ↦ by
        rw [hsum] at hf
        exact (hloose f hf).relabelled hre₁ (hloose f hf).unlisted)
      (by rw [hsum, Labels, hd₁, Option.map_some, hd₁k]) (fun hpos ↦ haddr (by omega))
  rw [hsum] at hre₂
  refine ⟨p₂, ?_, hp₂, htotal₂.trans htotal₁, hlabel₂,
    (hre₁.mono fun f hf ↦ hf.elim).trans hre₂⟩
  simp only [Pool.take, hfit, Traced.result_bind, Traced.result_liftM, hpop, ok_bind,
    Traced.result_emit]
  rcases Nat.lt_or_ge o k with hok' | hok'
  · simp only [if_pos hok', Pool.halve, Traced.result_bind, Traced.result_liftM,
      FrameTable.read_eq_ok_iff.2 hd₁, ok_bind, hd₁k, require_of_pos hok', hhalve,
      Traced.result_emit, Traced.result_pure]
  · obtain rfl : o = k := Nat.le_antisymm hoffers.le hok'
    rw [Nat.sub_self, Pool.halveDown, Except.ok.injEq] at hhalve
    simp only [if_neg (Nat.lt_irrefl o), Traced.result_pure, hhalve]

/-- Without a sufficient block nothing changes. -/
theorem take_of_firstFit_eq_none (hfit : p.firstFit o = none) :
    Pool.take P p o = pure (none, p) := by
  rw [Pool.take, hfit]

/-- Where a sufficient list is not empty, a block is taken. -/
theorem Threads.take_ne_none {p' : Pool} (hp : p.Threads L) (hfit : p.firstFit o = some k) :
    (Pool.take P p o).result ≠ .ok (none, p') := fun htake ↦ by
  obtain ⟨h, hoffers⟩ := hp.exists_offers hfit
  obtain ⟨fs, hk⟩ := List.head?_eq_some_iff.1 hoffers.head
  obtain ⟨p₁, hpop, -⟩ := hp.popFirst hk
  simp only [Pool.take, hfit, Traced.result_bind, Traced.result_liftM, hpop, ok_bind,
    Traced.result_emit] at htake
  split at htake
  · rw [Traced.result_bind] at htake
    obtain ⟨p₂, -, htake⟩ := bind_eq_ok_iff.1 htake
    cases htake
  · cases htake

/-- A request that halves a block has computed the buddy of its lower half. -/
theorem Threads.lt_frameLimit_of_take {r : Option Frame × Pool} (hp : p.Threads L)
    (hoffers : L.Offers o k h) (hok : o < k) (h' : (Pool.take P p o).result = .ok r) :
    h < P.frameLimit := by
  have hfit := hp.firstFit_eq_some hoffers
  obtain ⟨fs, hk⟩ := List.head?_eq_some_iff.1 hoffers.head
  obtain ⟨d, hd, -, hdk, -⟩ := hp.get? hoffers.mem
  obtain ⟨p₁, hpop, -, -, hre⟩ := hp.popFirst hk
  obtain ⟨d₁, hd₁, -, -, -, hdorder⟩ := hre.get? hd
  have hd₁k : d₁.order = k := (hdorder not_false).trans hdk
  obtain ⟨n, hn⟩ : ∃ n, k - o = n + 1 := ⟨k - o - 1, by omega⟩
  simp only [Pool.take, hfit, Traced.result_bind, Traced.result_liftM, hpop, ok_bind,
    Traced.result_emit, if_pos hok, Pool.halve, FrameTable.read_eq_ok_iff.2 hd₁, hd₁k,
    require_of_pos hok, hn, Pool.halveDown] at h'
  obtain ⟨p₂, h', -⟩ := bind_eq_ok_iff.1 h'
  obtain ⟨p₂, h', -⟩ := bind_eq_ok_iff.1 h'
  obtain ⟨b, hb, -⟩ := bind_eq_ok_iff.1 h'
  exact Block.lt_frameLimit_of_buddy hb

end FramePool.Pool
