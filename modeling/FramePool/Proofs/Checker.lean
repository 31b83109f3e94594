import FramePool.Proofs.Check
import FramePool.Proofs.Progress

/-!
# The checker on pools that may be corrupt

Nothing is assumed of a pool that is checked: links may lead anywhere, in a circle or out of the
table, and flags and counters may say anything. Two things make the answer mean what it should.

The walk along a list ends. It is a loop without a bound of its own, here the relation `Pool.Walk`,
whose derivations are the runs of the loop; it counts the blocks that it visits and gives up when
there are more than frames. So from each state there is one run, and it ends as the bounded
recursion `checkFrom` does (`walk_iff`): the bound cuts no walk short.

The answer is right: in a table all of whose frames have an address, the pools that are accepted are
those whose lists are intact (`checker_exact`).
-/

namespace FramePool.Pool

open FrameTable

variable {P : Platform} {p : Pool} {t : FrameTable} {o : Nat}

/-- The walk along a list, from the visit on that follows `count` others, and how it ends. -/
inductive Walk (P : Platform) (t : FrameTable) (o : Nat) : (count : Nat) →
    (prev link : Option Frame) → Coverage → Except Fault (Nat × Coverage) → Prop
  /-- The last link leads nowhere. -/
  | finished (count : Nat) (prev : Option Frame) (seen : Coverage) :
    Walk P t o count prev none seen (.ok (count, seen))
  /-- A link leads out of the table. -/
  | dangling {count : Nat} {prev : Option Frame} {head : Frame} {seen : Coverage} {fault : Fault} :
    t.read head = .error fault → Walk P t o count prev (some head) seen (.error fault)
  /-- As many blocks were visited as there are frames. -/
  | exhausted {count : Nat} {prev : Option Frame} {head : Frame} {seen : Coverage}
      {d : Descriptor} :
    t.read head = .ok d → t.length ≤ count →
    Walk P t o count prev (some head) seen (.error (.violation (.cyclic o)))
  /-- Something is wrong with the block. -/
  | stopped {count : Nat} {prev : Option Frame} {head : Frame} {seen : Coverage} {d : Descriptor}
      {fault : Fault} :
    t.read head = .ok d → count < t.length → checkBlock P t o prev head d seen = .error fault →
    Walk P t o count prev (some head) seen (.error fault)
  /-- The block is passed, and the walk goes on from its link. -/
  | passed {count : Nat} {prev : Option Frame} {head : Frame} {seen seen' : Coverage}
      {d : Descriptor} {r : Except Fault (Nat × Coverage)} :
    t.read head = .ok d → count < t.length → checkBlock P t o prev head d seen = .ok seen' →
    Walk P t o (count + 1) (some head) d.next seen' r → Walk P t o count prev (some head) seen r

variable {count : Nat} {prev link : Option Frame} {seen : Coverage}
  {r r' : Except Fault (Nat × Coverage)}

/-- Each visit leaves the loop in one way only. -/
theorem Walk.unique (h : Walk P t o count prev link seen r)
    (h' : Walk P t o count prev link seen r') : r' = r := by
  induction h with
  | finished => cases h'; rfl
  | dangling hread => cases h' <;> simp_all
  | exhausted hread hcount =>
    cases h' with
    | exhausted => rfl
    | dangling hread' => simp_all
    | stopped _ hcount' => omega
    | passed _ hcount' => omega
  | stopped hread hcount hblock =>
    cases h' with
    | dangling hread' => simp_all
    | exhausted _ hcount' => omega
    | stopped hread' _ hblock' => simp_all
    | passed hread' _ hblock' => simp_all
  | passed hread hcount hblock _ ih =>
    cases h' with
    | dangling hread' => simp_all
    | exhausted _ hcount' => omega
    | stopped hread' _ hblock' => simp_all
    | passed hread' _ hblock' hrest =>
      obtain rfl := Except.ok.inj (hread.symm.trans hread')
      obtain rfl := Except.ok.inj (hblock.symm.trans hblock')
      exact ih hrest

/-- **The walk ends** as the bounded recursion does that allows as many more blocks as there are
frames left to visit. The induction is on their number. -/
theorem walk_checkFrom (P : Platform) (t : FrameTable) (o count : Nat) (prev link : Option Frame)
    (seen : Coverage) :
    Walk P t o count prev link seen
      ((checkFrom P t o (t.length - count) prev link seen).map fun (n, seen) ↦
        (count + n, seen)) := by
  obtain ⟨fuel, hfuel⟩ : ∃ fuel, t.length - count = fuel := ⟨_, rfl⟩
  rw [hfuel]
  induction fuel generalizing count prev link seen with
  | zero =>
    rcases link with - | head
    · exact .finished count prev seen
    · rcases hread : t.read head with fault | d
      · simp only [checkFrom, hread, error_bind]
        exact .dangling hread
      · simp only [checkFrom, hread, ok_bind]
        exact .exhausted hread (by omega)
  | succ fuel ih =>
    have hcount : count < t.length := by omega
    rcases link with - | head
    · exact .finished count prev seen
    · rcases hread : t.read head with fault | d
      · simp only [checkFrom, hread, error_bind]
        exact .dangling hread
      · rcases hblock : checkBlock P t o prev head d seen with fault | seen'
        · simp only [checkFrom, hread, hblock, ok_bind, error_bind]
          exact .stopped hread hcount hblock
        · refine .passed hread hcount hblock ?_
          have hrest := ih (count + 1) (some head) d.next seen' (by omega)
          simp only [checkFrom, hread, hblock, ok_bind]
          rcases hfrom : checkFrom P t o fuel (some head) d.next seen' with fault | ⟨n, seen₂⟩
          · rw [hfrom] at hrest
            exact hrest
          · rw [hfrom] at hrest
            show Walk P t o (count + 1) (some head) d.next seen' (.ok (count + (n + 1), seen₂))
            rw [Nat.add_comm n 1, ← Nat.add_assoc]
            exact hrest

/-- From each state there is one run of the loop. -/
theorem walk_iff :
    Walk P t o count prev link seen r ↔
      r = (checkFrom P t o (t.length - count) prev link seen).map fun (n, seen) ↦
        (count + n, seen) := by
  constructor
  · intro h
    exact (walk_checkFrom P t o count prev link seen).unique h
  · intro h
    exact h ▸ walk_checkFrom P t o count prev link seen

/-- **The checker decides** whether the lists of a pool are intact, in a table all of whose frames
have an address. Of the pool itself nothing is assumed; the walk along each of its lists, which has
no bound but the number of frames, comes to one end, and that is the one that is acted on. -/
theorem checker_exact (P : Platform) (p : Pool)
    (hfits : p.table.length * P.pageSize ≤ P.physicalLimit) :
    (∀ o seen r, Walk P p.table o 0 none (p.list o).head seen r ↔
        r = checkFrom P p.table o p.table.length none (p.list o).head seen) ∧
      (p.check P = .ok () ↔ p.Intact) := by
  refine ⟨fun o seen r ↦ ?_, fun h ↦ (check_eq_ok_iff.1 h).1, fun h ↦ check_eq_ok_iff.2 ⟨h, ?_⟩⟩
  · have hsame : ∀ x : Except Fault (Nat × Coverage),
        x.map (fun (n, seen) ↦ (0 + n, seen)) = x := fun x ↦ by
      rcases x with fault | ⟨n, seen⟩
      · rfl
      · show Except.ok (0 + n, seen) = _
        rw [Nat.zero_add]
    rw [walk_iff, hsame, Nat.sub_zero]
  · intro o ho f hf
    obtain ⟨d, hd, -⟩ := (h.represents o (Nat.lt_succ_of_lt ho)).get? hf
    exact Nat.lt_of_lt_of_le (lt_of_get? hd) (length_le_frameLimit hfits)

/-- A pool of one frame, whose one block comes after itself. -/
def circular : Pool where
  table := ⟨#[{ free := true, next := some 0 }]⟩
  lists := (Vector.replicate orderCount {}).set 0 ⟨some 0, 1⟩
  total := 1

theorem checker_exact_circular :
    circular.table.length * Platform.x86_64.pageSize ≤ Platform.x86_64.physicalLimit ∧
      circular.check .x86_64 = .error (.violation (.cyclic 0)) ∧ ¬circular.Intact := by
  have hfits : circular.table.length * Platform.x86_64.pageSize ≤
      Platform.x86_64.physicalLimit := by
    decide
  have hcheck : circular.check .x86_64 = .error (.violation (.cyclic 0)) := by decide +kernel
  refine ⟨hfits, hcheck, fun h ↦ ?_⟩
  rw [(checker_exact .x86_64 circular hfits).2.2 h] at hcheck
  cases hcheck

end FramePool.Pool
