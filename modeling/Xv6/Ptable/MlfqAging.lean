/-
# What one aging pass moves

The loop of the aging pass takes the entry at its running index out of the array
and then advances the index, so the entry that has moved into the gap is not
looked at. So of each queue the pass takes what a deleting scan takes. Where no two
neighbours are due at the same time nothing is missed: every process that has waited
too long goes one queue up, in order, and the others stay where they are. Where two
neighbours are due, the second is left behind.

`agedEntries` and `freshEntries` split a queue by the test, `takenEntries` and
`leftEntries` by what the loop does. The loop is followed on the list of the entries
not yet looked at; the levels are put together by what the pass has done to the queues
below an index.
-/

import Xv6.Lib.Scan
import Xv6.Ptable.Queues

namespace Xv6.Ptable

open Function Xv6.Lib

namespace Mlfq

variable {R : Slot → Prop} {m m' : Mlfq} {pid : Slot → ℤ} {ticks : ℕ} {p : Slot}

/-- The test of the aging pass on an entry. -/
def isDue (m : Mlfq) (ticks : ℕ) : Option Slot → Bool
  | some p => m.isAged ticks p
  | none => false

/-- The entries of a queue that have waited too long. -/
def agedEntries (m : Mlfq) (ticks i : ℕ) : List (Option Slot) :=
  (m.qu i).contents.filter (m.isDue ticks)

/-- The entries of a queue that have not. -/
def freshEntries (m : Mlfq) (ticks i : ℕ) : List (Option Slot) :=
  (m.qu i).contents.filter fun x => !m.isDue ticks x

/-- The entries of a queue that the pass moves. -/
def takenEntries (m : Mlfq) (ticks i : ℕ) : List (Option Slot) :=
  takenBy (m.isDue ticks) (m.qu i).contents

/-- The entries of a queue that the pass leaves there. -/
def leftEntries (m : Mlfq) (ticks i : ℕ) : List (Option Slot) :=
  leftBy (m.isDue ticks) (m.qu i).contents

/-- No two neighbours in a queue the pass looks at are due. -/
def NoNeighboursDue (m : Mlfq) (ticks : ℕ) : Prop :=
  ∀ i, 1 ≤ i → i ≤ 4 →
    (m.qu i).contents.IsChain fun x y => ¬ (m.isDue ticks x = true ∧ m.isDue ticks y = true)

/-- `moved` has gone from queue `i`, where `stay` is left, to the end of the queue above. -/
structure Moved (ticks i : ℕ) (stay moved : List (Option Slot)) (m m' : Mlfq) : Prop where
  here : (m'.qu i).contents = stay
  above : (m'.qu (i - 1)).contents = (m.qu (i - 1)).contents ++ moved
  other : ∀ k, k ≠ i → k ≠ i - 1 → (m'.qu k).contents = (m.qu k).contents
  info : ∀ p, some p ∈ moved →
    (m'.info p).curQ = i - 1 ∧ (m'.info p).qtime = toInt32 ticks
  info_other : ∀ p, some p ∉ moved → m'.info p = m.info p

theorem Moved.promote {i : ℕ} (hi : 1 ≤ i) {a : Aging} (h : QueuesOk R a.m)
    (hmem : some p ∈ (a.m.qu i).contents) (hpid : ∀ x, R x → pid x = pid p → x = p) :
    Moved ticks i ((a.m.qu i).contents.erase (some p)) [some p] a.m
      (Mlfq.promote pid ticks i a p).m := by
  obtain ⟨hR, hcur⟩ := (h.mem_some i).mp hmem
  obtain ⟨ind, hind, hle, harr⟩ := h.search_queued hR hpid
  rw [hcur] at hind hle harr
  have hremoved := h.removeAt hcur hle harr
  have herase := h.contents_removeAt hle harr
  have hnone : ((a.m.removeAt i ind).qu (i - 1)).search (samePid pid p) = none := by
    rw [ArrayQueue.search_eq_none]
    intro x hx
    obtain ⟨q, rfl, ⟨hq, hne⟩, -⟩ := (hremoved.mem_iff _ x).mp hx
    simpa [samePid] using fun hEq => hne (hpid q hq hEq)
  simp only [Mlfq.promote, hind, Option.getD_some, Option.isSome_some, Bool.true_or, if_true,
    hnone]
  have hne : i ≠ i - 1 := by omega
  have haway : (a.m.removeAt i ind).qu (i - 1) = a.m.qu (i - 1) :=
    update_of_ne hne.symm ..
  constructor
  · rw [append]
    dsimp only
    rw [update_of_ne hne]
    exact herase
  · rw [append]
    dsimp only
    rw [update_self]
    show (((a.m.removeAt i ind).qu (i - 1)).append (some p)).contents = _
    rw [haway]
    exact (a.m.qu (i - 1)).contents_append (h.last_ge _) _
  · intro k hk hk'
    rw [append]
    dsimp only
    rw [update_of_ne hk']
    show ((a.m.removeAt i ind).qu k).contents = _
    rw [Mlfq.removeAt]
    dsimp only
    rw [update_of_ne hk]
  · intro q hq
    obtain rfl : q = p := Option.some.inj (List.mem_singleton.mp hq)
    simp only [append, setInfo, update_self, and_self]
  · intro q hq
    have hqp : q ≠ p := fun heq => hq (by rw [heq]; exact List.mem_singleton_self _)
    rw [append, setInfo]
    dsimp only
    rw [update_of_ne hqp, update_of_ne hqp]
    rfl

theorem Moved.nil (i : ℕ) (m : Mlfq) : Moved ticks i (m.qu i).contents [] m m :=
  ⟨rfl, (List.append_nil _).symm, fun _ _ _ => rfl, nofun, fun _ _ => rfl⟩

/-- One more process and the rest of the loop. -/
theorem Moved.trans {i : ℕ} {m'' : Mlfq} {stay stay' moved moved' : List (Option Slot)}
    (h : Moved ticks i stay moved m m') (h' : Moved ticks i stay' moved' m' m'') :
    Moved ticks i stay' (moved ++ moved') m m'' := by
  refine ⟨h'.here, ?_, fun k hk hk' => (h'.other k hk hk').trans (h.other k hk hk'), ?_, ?_⟩
  · rw [h'.above, h.above, List.append_assoc]
  · grind [h'.info, h'.info_other, h.info]
  · intro p hp
    rw [List.mem_append, not_or] at hp
    rw [h'.info_other p hp.2, h.info_other p hp.1]

theorem isDue_of_info {x : Option Slot} (h : ∀ p, x = some p → m'.info p = m.info p) :
    m'.isDue ticks x = m.isDue ticks x := by
  cases x with
  | none => rfl
  | some p =>
    show m'.isAged ticks p = m.isAged ticks p
    rw [isAged, isAged, h p rfl]

/-- The entry the loop looks at next. -/
theorem QueuesOk.entry (h : QueuesOk R m) {i : ℕ} {kept rest : List (Option Slot)}
    {x : Option Slot} (hcontents : (m.qu i).contents = kept ++ x :: rest) :
    (kept.length : ℤ) ≤ (m.qu i).last ∧ (m.qu i).arr kept.length = x := by
  have hlen := (m.qu i).length_contents
  have hlast := (m.qu i).last_eq_size (h.last_ge i)
  have hget := (m.qu i).getElem?_contents kept.length
  grind

/-- The loop is over when the index is behind the last entry. -/
theorem ageQueue_end {i j fuel : ℕ} {a : Aging} (h : QueuesOk R a.m)
    (hlen : (a.m.qu i).contents.length ≤ j) : ageQueue pid ticks i fuel j a = a := by
  cases fuel with
  | zero => rfl
  | succ fuel =>
    have hlast := (a.m.qu i).last_eq_size (h.last_ge i)
    rw [ArrayQueue.length_contents] at hlen
    rw [ageQueue, if_neg (by omega)]

/-- The loop over one queue, from the entries `rest` on. -/
theorem moved_ageQueue {i : ℕ} (hi : 1 ≤ i) (hpid : ∀ x y, R x → R y → pid x = pid y → x = y)
    (due : Option Slot → Bool) (fuel : ℕ) {a : Aging} (kept rest : List (Option Slot))
    (h : QueuesOk R a.m) (hcontents : (a.m.qu i).contents = kept ++ rest)
    (hdue : ∀ x ∈ rest, a.m.isDue ticks x = due x) (hfuel : rest.length ≤ fuel) :
    Moved ticks i (kept ++ leftBy due rest) (takenBy due rest) a.m
      (ageQueue pid ticks i fuel kept.length a).m := by
  induction fuel generalizing a kept rest with
  | zero =>
    obtain rfl := List.eq_nil_of_length_eq_zero (Nat.le_zero.mp hfuel)
    have hstay : Moved ticks i _ [] a.m a.m := .nil i a.m
    rw [hcontents] at hstay
    exact hstay
  | succ fuel ih =>
    cases rest with
    | nil =>
      have hstay : Moved ticks i _ [] a.m a.m := .nil i a.m
      rw [hcontents] at hstay
      rw [ageQueue_end h (by rw [hcontents, List.append_nil])]
      exact hstay
    | cons x rest =>
      rw [List.length_cons] at hfuel
      obtain ⟨hle, harr⟩ := h.entry hcontents
      have hmem : x ∈ (a.m.qu i).contents := by
        rw [hcontents]
        exact List.mem_append_right _ List.mem_cons_self
      obtain ⟨p, rfl, hR, -⟩ := (h.mem_iff i x).mp hmem
      have hnodup := h.nodup i
      rw [hcontents, List.nodup_append] at hnodup
      have hfresh : some p ∉ rest := (List.nodup_cons.mp hnodup.2.1).1
      have hbefore : some p ∉ kept := fun hk => hnodup.2.2 _ hk _ List.mem_cons_self rfl
      have hlook : a.m.isAged ticks p = due (some p) := hdue (some p) List.mem_cons_self
      rw [ageQueue, if_pos hle, harr]
      dsimp only
      rw [hlook]
      cases hp : due (some p) with
      | false =>
        rw [if_neg Bool.false_ne_true, leftBy_skip hp, takenBy_skip hp]
        have hrest := ih (kept ++ [some p]) rest h (by simpa using hcontents)
          (fun y hy => hdue y (List.mem_cons_of_mem _ hy)) (by omega)
        rw [List.length_append, List.length_singleton, List.append_assoc] at hrest
        exact hrest
      | true =>
        rw [if_pos rfl]
        have hpid' : ∀ x, R x → pid x = pid p → x = p := fun x hx => hpid x p hx hR
        have hmoved : Moved ticks i _ _ a.m (Mlfq.promote pid ticks i a p).m :=
          .promote hi h hmem hpid'
        have hok : QueuesOk R (Mlfq.promote pid ticks i a p).m :=
          h.promote i hR ((h.mem_some i).mp hmem).2 hpid'
        rw [hcontents, List.erase_append_right _ hbefore, List.erase_cons_head] at hmoved
        generalize Mlfq.promote pid ticks i a p = b at hmoved hok ⊢
        have hdue' : ∀ y ∈ rest, b.m.isDue ticks y = due y := by
          intro y hy
          rw [← hdue y (List.mem_cons_of_mem _ hy)]
          apply isDue_of_info
          rintro q rfl
          apply hmoved.info_other
          rintro hq
          rw [List.mem_singleton.mp hq] at hy
          exact hfresh hy
        cases rest with
        | nil =>
          rw [ageQueue_end hok (by rw [hmoved.here, List.append_nil]; omega), takenBy, leftBy,
            if_pos hp, if_pos hp]
          exact hmoved
        | cons y rest =>
          -- `y` has moved into the gap and is not looked at
          rw [List.length_cons] at hfuel
          have hrest := ih (kept ++ [y]) rest hok (by simpa using hmoved.here)
            (fun z hz => hdue' z (List.mem_cons_of_mem _ hz)) (by omega)
          rw [List.length_append, List.length_singleton, List.append_assoc] at hrest
          rw [leftBy_take hp, takenBy_take hp]
          exact hmoved.trans hrest

/-- The pass has been over the queues below `n`. -/
structure AgedBelow (ticks n : ℕ) (m₀ m : Mlfq) : Prop where
  queue : ∀ k, (m.qu k).contents =
    (if 1 ≤ k ∧ k < n then m₀.leftEntries ticks k else (m₀.qu k).contents) ++
      if k + 1 < n then m₀.takenEntries ticks (k + 1) else []
  moved : ∀ k p, 1 ≤ k → k < n → some p ∈ m₀.takenEntries ticks k →
    (m.info p).curQ = k - 1 ∧ (m.info p).qtime = toInt32 ticks
  same : ∀ p, (∀ k, 1 ≤ k → k < n → some p ∉ m₀.takenEntries ticks k) → m.info p = m₀.info p

theorem AgedBelow.start (ticks : ℕ) (m : Mlfq) : AgedBelow ticks 1 m m := by
  refine ⟨fun k => ?_, fun k p hk hlt => absurd hlt (by omega), fun _ _ => rfl⟩
  rw [if_neg (by omega), if_neg (by omega), List.append_nil]

theorem mem_of_mem_takenEntries {i : ℕ} {x : Option Slot} (hx : x ∈ m.takenEntries ticks i) :
    x ∈ (m.qu i).contents :=
  (takenBy_append_leftBy_perm (m.isDue ticks) (m.qu i).contents).subset
    (List.mem_append_left _ hx)

theorem mem_of_mem_leftEntries {i : ℕ} {x : Option Slot} (hx : x ∈ m.leftEntries ticks i) :
    x ∈ (m.qu i).contents :=
  (takenBy_append_leftBy_perm (m.isDue ticks) (m.qu i).contents).subset
    (List.mem_append_right _ hx)

/-- A process is an entry of one queue only. -/
theorem QueuesOk.takenEntries_eq (h : QueuesOk R m) {i k : ℕ} (hi : some p ∈ (m.qu i).contents)
    (hk : some p ∈ m.takenEntries ticks k) : k = i := by
  have hcur := ((h.mem_some i).mp hi).2
  have hcur' := ((h.mem_some k).mp (mem_of_mem_takenEntries hk)).2
  exact hcur'.symm.trans hcur

theorem AgedBelow.level {m₀ : Mlfq} {i : ℕ} {a : Aging} (hi : 1 ≤ i)
    (hbelow : AgedBelow ticks i m₀ a.m) (h₀ : QueuesOk R m₀) (h : QueuesOk R a.m)
    (hpid : ∀ x y, R x → R y → pid x = pid y → x = y) :
    AgedBelow ticks (i + 1) m₀ (ageLevel pid ticks a i).m := by
  have hsame : (a.m.qu i).contents = (m₀.qu i).contents := by
    rw [hbelow.queue i, if_neg (by omega), if_neg (by omega), List.append_nil]
  have hdue : ∀ x ∈ (m₀.qu i).contents, a.m.isDue ticks x = m₀.isDue ticks x := by
    intro x hx
    apply isDue_of_info
    rintro p rfl
    apply hbelow.same
    intro k _ hlt hk
    have heq := h₀.takenEntries_eq hx hk
    omega
  have hfuel : (m₀.qu i).contents.length ≤ (a.m.qu i).size := by
    rw [← hsame, ArrayQueue.length_contents]
  have hmoved : Moved ticks i (m₀.leftEntries ticks i) (m₀.takenEntries ticks i) a.m
      (ageLevel pid ticks a i).m :=
    moved_ageQueue hi hpid (m₀.isDue ticks) _ [] (m₀.qu i).contents h hsame hdue hfuel
  refine ⟨fun k => ?_, fun k p hk hlt hp => ?_, fun p hp => ?_⟩
  · by_cases hki : k = i
    · rw [hki, hmoved.here, if_pos (by omega), if_neg (by omega), List.append_nil]
    · by_cases hki' : k = i - 1
      · have hold := hbelow.queue (i - 1)
        rw [if_neg (show ¬ i - 1 + 1 < i by omega), List.append_nil] at hold
        rw [hki', hmoved.above, hold, if_pos (show i - 1 + 1 < i + 1 by omega),
          Nat.sub_add_cancel hi]
        congr 1
        exact if_congr (by omega) rfl rfl
      · rw [hmoved.other k hki hki', hbelow.queue k]
        congr 1
        · exact if_congr (by omega) rfl rfl
        · exact if_congr (by omega) rfl rfl
  · by_cases hki : k = i
    · rw [hki] at hp ⊢
      exact hmoved.info p hp
    · rw [hmoved.info_other p]
      · exact hbelow.moved k p hk (by omega) hp
      · intro hpi
        exact hki (h₀.takenEntries_eq (mem_of_mem_takenEntries hpi) hp)
  · grind [hmoved.info_other, hbelow.same]

/-- What the pass does to any queues. -/
theorem AgedBelow.age (h : QueuesOk R m) (hpid : ∀ x y, R x → R y → pid x = pid y → x = y) :
    AgedBelow ticks 5 m (m.age pid ticks) := by
  have hok : ∀ (a : Aging) (i : ℕ), QueuesOk R a.m → QueuesOk R (ageLevel pid ticks a i).m :=
    fun a i ha => ha.ageQueue i hpid _ _
  simp only [Mlfq.age, List.foldl_cons, List.foldl_nil]
  have h₁ := hok { m, alread := false, ind := 0 } 1 h
  have h₂ := hok _ 2 h₁
  have b₁ := (AgedBelow.start ticks m).level (a := { m, alread := false, ind := 0 })
    (le_refl 1) h h hpid
  have b₂ := b₁.level (by omega) h h₁ hpid
  have b₃ := b₂.level (by omega) h h₂ hpid
  exact b₃.level (by omega) h (hok _ 3 h₂) hpid

/-- What has just been appended has not waited at all. -/
theorem not_isAged_of_qtime (h : (m.info p).qtime = toInt32 ticks) :
    m.isAged ticks p = false := by
  have hzero : toInt32 ((ticks : ℤ) - toInt32 ticks) = 0 := by
    rw [toInt32, toInt32, Int.sub_bmod_bmod, sub_self]
    decide
  rw [isAged, h, hzero]
  decide

/-- What an aging pass is for. Afterwards nobody in the queues 1 to 4 is due; who was due in
queue `i` is in queue `i - 1`, with the present tick and that queue in its entry; who was not
is where it was; and each queue is what has stayed in it, in its order, followed by what has
come from the queue below, in its order. -/
structure MissesNobody (ticks : ℕ) (m m' : Mlfq) : Prop where
  none_due : ∀ i p, 1 ≤ i → some p ∈ (m'.qu i).contents → m'.isAged ticks p = false
  moved : ∀ i p, 1 ≤ i → some p ∈ (m.qu i).contents → m.isAged ticks p = true →
    some p ∈ (m'.qu (i - 1)).contents ∧ (m'.info p).qtime = toInt32 ticks ∧
      (m'.info p).curQ = i - 1
  stayed : ∀ i p, some p ∈ (m.qu i).contents → i = 0 ∨ m.isAged ticks p = false →
    some p ∈ (m'.qu i).contents ∧ m'.info p = m.info p
  first : (m'.qu 0).contents = (m.qu 0).contents ++ m.agedEntries ticks 1
  order : ∀ i, 1 ≤ i → i ≤ 4 → (m'.qu i).contents =
    m.freshEntries ticks i ++ if i < 4 then m.agedEntries ticks (i + 1) else []

theorem NoNeighboursDue.entries (h : m.NoNeighboursDue ticks) {i : ℕ} (hi : 1 ≤ i) (hi' : i ≤ 4) :
    m.takenEntries ticks i = m.agedEntries ticks i ∧
      m.leftEntries ticks i = m.freshEntries ticks i :=
  takenBy_eq_filter (h i hi hi')

theorem QueuesOk.queue_le (h : QueuesOk R m) {i : ℕ} (hp : some p ∈ (m.qu i).contents) :
    i ≤ 4 := by
  rw [← ((h.mem_some i).mp hp).2]
  exact h.curQ_le p

section

variable (hage : AgedBelow ticks 5 m m') (h : QueuesOk R m)

include hage h

/-- Who is left behind has not been touched. -/
theorem AgedBelow.same_of_left {i : ℕ} (hp : some p ∈ m.leftEntries ticks i) :
    m'.info p = m.info p := by
  have hmem := mem_of_mem_leftEntries hp
  apply hage.same
  intro k _ _ hk
  obtain rfl := h.takenEntries_eq hmem hk
  have hsplit := (takenBy_append_leftBy_perm (m.isDue ticks) (m.qu k).contents).nodup_iff.mpr
    (h.nodup k)
  exact (List.nodup_append.mp hsplit).2.2 _ hk _ hp rfl

theorem AgedBelow.missesNobody (hdue : m.NoNeighboursDue ticks) : MissesNobody ticks m m' := by
  have hmoved : ∀ i p, 1 ≤ i → i ≤ 4 → some p ∈ m.agedEntries ticks i →
      (m'.info p).qtime = toInt32 ticks ∧ (m'.info p).curQ = i - 1 := by
    intro i p hi hi' hp
    rw [← (hdue.entries hi hi').1] at hp
    exact (hage.moved i p hi (by omega) hp).symm
  have hstay : ∀ i p, some p ∈ (m.qu i).contents → i = 0 ∨ m.isAged ticks p = false →
      m'.info p = m.info p := by
    intro i p hp hfresh
    apply hage.same
    intro k hk hlt hkp
    obtain rfl := h.takenEntries_eq hp hkp
    rw [(hdue.entries hk (by omega)).1] at hkp
    rcases hfresh with hzero | hfalse
    · omega
    · have htrue : m.isDue ticks (some p) = true := List.of_mem_filter hkp
      exact Bool.false_ne_true (hfalse.symm.trans htrue)
  have hfirst : (m'.qu 0).contents = (m.qu 0).contents ++ m.agedEntries ticks 1 := by
    rw [hage.queue, if_neg (by omega), if_pos (by omega),
      (hdue.entries (le_refl 1) (by omega)).1]
  have horder : ∀ i, 1 ≤ i → i ≤ 4 → (m'.qu i).contents =
      m.freshEntries ticks i ++ if i < 4 then m.agedEntries ticks (i + 1) else [] := by
    intro i hi hi'
    rw [hage.queue, if_pos (by omega), (hdue.entries hi hi').2]
    congr 1
    by_cases hlast : i < 4
    · rw [if_pos hlast, if_pos (by omega), (hdue.entries (by omega) (by omega)).1]
    · rw [if_neg hlast, if_neg (by omega)]
  refine ⟨fun i p hi hp => ?_, fun i p hi hp haged => ?_, fun i p hp hfresh => ?_, hfirst, horder⟩
  · by_cases hi' : i ≤ 4
    · rw [horder i hi hi', List.mem_append] at hp
      rcases hp with hold | hnew
      · have hfalse : m.isAged ticks p = false := by simpa [isDue] using List.of_mem_filter hold
        rw [isAged, hstay i p (List.mem_of_mem_filter hold) (.inr hfalse)]
        exact hfalse
      · split at hnew
        · exact not_isAged_of_qtime (hmoved (i + 1) p (by omega) (by omega) hnew).1
        · cases hnew
    · rw [hage.queue, if_neg (by omega), if_neg (by omega), List.append_nil] at hp
      exact absurd (h.queue_le hp) hi'
  · have hentry : some p ∈ m.agedEntries ticks i := List.mem_filter.mpr ⟨hp, haged⟩
    have hi' := h.queue_le hp
    refine ⟨?_, hmoved i p hi hi' hentry⟩
    rw [hage.queue, List.mem_append, if_pos (show i - 1 + 1 < 5 by omega), Nat.sub_add_cancel hi,
      (hdue.entries hi hi').1]
    exact .inr hentry
  · refine ⟨?_, hstay i p hp hfresh⟩
    by_cases hzero : i = 0
    · rw [hzero, hfirst]
      exact List.mem_append_left _ (hzero ▸ hp)
    · have hfalse : m.isAged ticks p = false := hfresh.resolve_left hzero
      rw [horder i (by omega) (h.queue_le hp)]
      exact List.mem_append_left _ (List.mem_filter.mpr ⟨hp, by rw [isDue, hfalse]; rfl⟩)

/-- If nobody who is due is left, no two neighbours were due. -/
theorem AgedBelow.noNeighboursDue
    (hnone : ∀ i p, 1 ≤ i → some p ∈ (m'.qu i).contents → m'.isAged ticks p = false) :
    m.NoNeighboursDue ticks := by
  intro i hi hi'
  refine isChain_of_leftBy fun x hx => ?_
  obtain ⟨p, rfl, -⟩ := (h.mem_iff i x).mp (mem_of_mem_leftEntries hx)
  have hleft : some p ∈ (m'.qu i).contents := by
    rw [hage.queue, if_pos (by omega)]
    exact List.mem_append_left _ hx
  rw [← hnone i p hi hleft]
  exact (isDue_of_info fun q hq => Option.some.inj hq ▸ hage.same_of_left h hx).symm

end

end Mlfq

open Mlfq in
/-- The aging pass does what it is for exactly if no two neighbours of a queue are due. -/
theorem aging_misses_nobody_iff {R : Slot → Prop} {m : Mlfq} {pid : Slot → ℤ} {ticks : ℕ}
    (h : QueuesOk R m) (hpid : ∀ x y, R x → R y → pid x = pid y → x = y) :
    MissesNobody ticks m (m.age pid ticks) ↔ m.NoNeighboursDue ticks := by
  have hage : AgedBelow ticks 5 m (m.age pid ticks) := AgedBelow.age h hpid
  exact ⟨fun hmisses => hage.noNeighboursDue h hmisses.none_due, hage.missesNobody h⟩

/-- A process enters queue 1. -/
def enterFirst (m : Mlfq) (ticks : ℕ) (p : Slot) : Mlfq :=
  (m.setInfo p fun x => { x with curQ := 1 }).append ticks 1 p

theorem enterFirst_ok {R : Slot → Prop} {m : Mlfq} {p : Slot} (h : m.QueuesOk R) (ticks : ℕ)
    (hp : ¬ R p) : (enterFirst m ticks p).QueuesOk fun x => R x ∨ x = p := by
  have hset := h.setInfo_of_not hp (fun x => { x with curQ := 1 }) (by decide : 1 ≤ 4)
  have happend := hset.append hp ticks
  have hcur : ((m.setInfo p fun x => { x with curQ := 1 }).info p).curQ = 1 := by
    rw [Mlfq.setInfo]
    dsimp only
    rw [update_self]
  rw [hcur] at happend
  exact happend

/-- Process 3 alone in queue 1. -/
def oneAged : Mlfq := enterFirst {} 0 3

/-- Processes 3 and 4 in queue 1, one behind the other. -/
def twoAged : Mlfq := enterFirst oneAged 0 4

/-- Processes 3 and 4 in queue 1 with process 5, which came later, between them. -/
def partedAged : Mlfq := enterFirst (enterFirst oneAged 20 5) 0 4

theorem oneAged_ok : oneAged.QueuesOk fun x => False ∨ x = 3 := enterFirst_ok .empty 0 id

/-- The slot as pid. -/
def slotPid (p : Slot) : ℤ := p.val

theorem slotPid_inj (x y : Slot) (h : slotPid x = slotPid y) : x = y :=
  Fin.ext (Int.ofNat_inj.mp h)

set_option maxRecDepth 10000 in
/-- Where the two are parted, the pass moves both and leaves the third. -/
theorem aging_moves_parted : Mlfq.MissesNobody 30 partedAged (partedAged.age slotPid 30) ∧
    ((partedAged.age slotPid 30).qu 0).contents = [some 3, some 4] ∧
    ((partedAged.age slotPid 30).qu 1).contents = [some 5] := by
  have hok := enterFirst_ok (enterFirst_ok oneAged_ok 20 (p := 5) (by decide)) 0 (p := 4)
    (by decide)
  have hdue : partedAged.NoNeighboursDue 30 := by
    intro i hi hi'
    have hcases : i = 1 ∨ i = 2 ∨ i = 3 ∨ i = 4 := by omega
    rcases hcases with rfl | rfl | rfl | rfl <;> decide +kernel
  exact ⟨(aging_misses_nobody_iff hok fun x y _ _ => slotPid_inj x y).mpr hdue,
    by decide +kernel, by decide +kernel⟩

set_option maxRecDepth 10000 in
/-- Both have waited for 30 ticks, and the pass moves the first of them only. -/
theorem aging_misses_second : twoAged.QueuesOk (fun x => (False ∨ x = 3) ∨ x = 4) ∧
    (∀ x y, slotPid x = slotPid y → x = y) ∧ some 4 ∈ (twoAged.qu 1).contents ∧
    twoAged.isAged 30 4 = true ∧ some 4 ∈ ((twoAged.age slotPid 30).qu 1).contents ∧
    (twoAged.age slotPid 30).isAged 30 4 = true :=
  ⟨enterFirst_ok oneAged_ok 0 (by decide), slotPid_inj, by decide +kernel, by decide +kernel,
    by decide +kernel, by decide +kernel⟩

end Xv6.Ptable
