/-
# The interrupt flag follows the thread

On every processor `ncli` counts the locks and the open `pushcli`s of the thread
that runs there, and interrupts are off while it is positive. `intena` is what the
thread found when it took its first lock: `sched` saves it with the thread and
restores it wherever the thread goes on.
-/

import Mathlib.Algebra.Order.Ring.Int
import Xv6.Locks.Cli

namespace Xv6.Locks.Cli

open Function Xv6.Lib

variable {C P K : Type}

namespace Kthread

/-- The locks, the open `pushcli`s, and the `acquire` in progress. -/
def depth (k : Kthread K) : ℤ := k.locks.length + k.push + if k.spin = none then 0 else 1

/-- The thread has nothing to do with locks at the moment. -/
def Idle (k : Kthread K) : Prop := k.locks = [] ∧ k.push = 0 ∧ k.spin = none

/-- The thread holds a lock or is acquiring one. -/
def Locking (k : Kthread K) : Prop := k.locks ≠ [] ∨ k.spin ≠ none

theorem depth_nonneg (k : Kthread K) : 0 ≤ k.depth := by
  rw [depth]
  split <;> omega

theorem Locking.depth_pos {k : Kthread K} (h : k.Locking) : 0 < k.depth := by
  rw [depth]
  rcases h with h | h
  · have := List.length_pos_of_ne_nil h
    split <;> omega
  · rw [if_neg h]
    omega

theorem depth_of_plain {k : Kthread K} (hpush : k.push = 0) (hspin : k.spin = none) :
    k.depth = k.locks.length := by
  rw [depth, hpush, if_pos hspin]
  omega

end Kthread

namespace Cpu

variable {x : Cpu P}

/-- `pushcli` and `popcli` cancel out when interrupts are off already. -/
theorem popcli_pushcli (hn : 0 < x.ncli) (h : x.intr = false) : x.pushcli.popcli = .ok x := by
  have hne : x.ncli ≠ 0 := by omega
  have hneg : ¬ x.ncli + 1 - 1 < 0 := by omega
  cases x
  simp_all [pushcli, popcli]

/-- `popcli` succeeds inside `pushcli`. -/
theorem popcli_eq (hn : 0 < x.ncli) (h : x.intr = false) :
    x.popcli = .ok { x with ncli := x.ncli - 1, intr := x.ncli - 1 = 0 && x.intena } := by
  rw [popcli, h, if_neg (by simp), if_neg (by omega)]

end Cpu

namespace State

/-- The counter of a processor is that of the thread it executes, and the locks the thread
holds name the processor. -/
structure Counts (s : State C P K) (c : C) : Prop where
  ncli : (s.cpu c).ncli = (s.thread (s.cur c)).depth
  off : 0 < (s.cpu c).ncli → (s.cpu c).intr = false
  holds : ∀ l, l ∈ (s.thread (s.cur c)).locks ↔ s.lock l = ⟨true, some c⟩
  nodup : (s.thread (s.cur c)).locks.Nodup

/-- What holds between steps. -/
structure Inv (s : State C P K) : Prop where
  proc_iff : ∀ c p, (s.cpu c).proc = some p ↔ s.place p = .onCpu c
  away : ∀ p, (s.place p).away = true → (s.thread (.proc p)).Idle
  waiting : ∀ c p, (s.cpu c).proc = some p → (s.thread (.scheduler c)).Idle
  counts : ∀ c, s.Counts c
  intena : ∀ c p b, (s.cpu c).proc = some p → (s.thread (.proc p)).Locking →
    (s.thread (.proc p)).first = some b → (s.cpu c).intena = b
  saved : ∀ p b b', s.place p = .inSched b → (s.thread (.proc p)).first = some b' → b = b'
  fresh : ∀ p, s.place p = .fresh → (s.thread (.proc p)).first = none

variable {s : State C P K} {c c' : C} {p : P} {l : Lock K} {k : Kthread K} {x : Cpu P}

theorem cur_of_proc (h : (s.cpu c).proc = some p) : s.cur c = .proc p := by
  rw [cur, h]

theorem cur_of_none (h : (s.cpu c).proc = none) : s.cur c = .scheduler c := by
  rw [cur, h]

/-- Two processors execute different threads. -/
theorem Inv.cur_ne (h : Inv s) (hne : c' ≠ c) : s.cur c' ≠ s.cur c := by
  cases hc : (s.cpu c).proc with
  | none =>
    rw [cur_of_none hc]
    cases hc' : (s.cpu c').proc with
    | none =>
      rw [cur_of_none hc']
      exact fun heq => hne (Thread.scheduler.inj heq)
    | some q =>
      rw [cur_of_proc hc']
      exact nofun
  | some p =>
    rw [cur_of_proc hc]
    cases hc' : (s.cpu c').proc with
    | none =>
      rw [cur_of_none hc']
      exact nofun
    | some q =>
      rw [cur_of_proc hc']
      grind [h.proc_iff]

/-- A process that is away is not executed. -/
theorem Inv.cur_ne_of_away (h : Inv s) (hp : (s.place p).away = true) (c : C) :
    s.cur c ≠ .proc p := by
  cases hc : (s.cpu c).proc with
  | none =>
    rw [cur_of_none hc]
    exact nofun
  | some q =>
    rw [cur_of_proc hc]
    intro heq
    cases heq
    rw [(h.proc_iff c p).mp hc] at hp
    cases hp

/-- A scheduler that waits for its processor is not executed. -/
theorem cur_ne_scheduler (hne : c' ≠ c ∨ (s.cpu c').proc = some p) :
    s.cur c ≠ .scheduler c' := by
  cases hc : (s.cpu c).proc with
  | none =>
    grind [cur_of_none]
  | some q =>
    rw [cur_of_proc hc]
    exact nofun

/-- Another processor and its thread are as they were. -/
theorem Counts.of_eq {s' : State C P K} (h : s.Counts c) (hcpu : s'.cpu c = s.cpu c)
    (hthread : s'.thread (s.cur c) = s.thread (s.cur c))
    (hlock : ∀ l, s'.lock l = ⟨true, some c⟩ ↔ s.lock l = ⟨true, some c⟩) : s'.Counts c := by
  have hcur : s'.cur c = s.cur c := by rw [cur, cur, hcpu]
  constructor
  · rw [hcur, hcpu, hthread]
    exact h.ncli
  · rw [hcpu]
    exact h.off
  · intro l
    rw [hcur, hthread, hlock]
    exact h.holds l
  · rw [hcur, hthread]
    exact h.nodup

/-- `intena` is what the running process found at its first lock. -/
theorem Inv.intena_cur (h : Inv s) {b : Bool} (hp : (s.cpu c).proc = some p)
    (hlocking : (s.thread (s.cur c)).Locking) (hfirst : (s.thread (s.cur c)).first = some b) :
    (s.cpu c).intena = b := by
  rw [cur_of_proc hp] at hlocking hfirst
  exact h.intena c p b hp hlocking hfirst

/-- Interrupts are off in a thread with a lock. -/
theorem Inv.ncli_pos (h : Inv s) (hlocking : (s.thread (s.cur c)).Locking) :
    0 < (s.cpu c).ncli := by
  rw [(h.counts c).ncli]
  exact hlocking.depth_pos

variable [DecidableEq C] [DecidableEq P]

/-- The thread on one processor does something with locks. -/
theorem Inv.set (h : Inv s) {lock : Lock K → Spinlock C} (hproc : x.proc = (s.cpu c).proc)
    (hncli : x.ncli = k.depth) (hoff : 0 < x.ncli → x.intr = false)
    (hholds : ∀ l, l ∈ k.locks ↔ lock l = ⟨true, some c⟩) (hnodup : k.locks.Nodup)
    (hothers : ∀ c' l, c' ≠ c → (lock l = ⟨true, some c'⟩ ↔ s.lock l = ⟨true, some c'⟩))
    (hintena : ∀ p b, (s.cpu c).proc = some p → k.Locking → k.first = some b → x.intena = b) :
    Inv { s.set c x k with lock } := by
  generalize hs' : ({ s.set c x k with lock } : State C P K) = s'
  have hplace : s'.place = s.place := by rw [← hs']; rfl
  have hlock : s'.lock = lock := by rw [← hs']
  have hcpu : ∀ c', c' ≠ c → s'.cpu c' = s.cpu c' := by
    intro c' hne
    rw [← hs']
    exact update_of_ne hne ..
  have hcpuSelf : s'.cpu c = x := by
    rw [← hs']
    exact update_self ..
  have hthread : ∀ t, s.cur c ≠ t → s'.thread t = s.thread t := by
    intro t hne
    rw [← hs']
    exact update_of_ne hne.symm ..
  have hthreadSelf : s'.thread (s.cur c) = k := by
    rw [← hs']
    exact update_self ..
  have hproc' : ∀ c', (s'.cpu c').proc = (s.cpu c').proc := by
    intro c'
    by_cases hne : c' = c
    · rw [hne, hcpuSelf, hproc]
    · rw [hcpu c' hne]
  have hcur : s'.cur c = s.cur c := by rw [cur, cur, hproc']
  constructor
  · intro c' p
    rw [hproc', hplace]
    exact h.proc_iff c' p
  · intro p hp
    rw [hplace] at hp
    rw [hthread _ (h.cur_ne_of_away hp c)]
    exact h.away p hp
  · grind [cur_ne_scheduler, h.waiting]
  · intro c'
    by_cases hne : c' = c
    · rw [hne]
      constructor
      · rw [hcur, hcpuSelf, hthreadSelf, hncli]
      · rw [hcpuSelf]
        exact hoff
      · rw [hcur, hthreadSelf, hlock]
        exact hholds
      · rw [hcur, hthreadSelf]
        exact hnodup
    · apply (h.counts c').of_eq (hcpu c' hne) (hthread _ (h.cur_ne hne).symm)
      intro l
      rw [hlock]
      exact hothers c' l hne
  · intro c' p b hp
    rw [hproc'] at hp
    have hcurp := cur_of_proc hp
    by_cases hne : c' = c
    · rw [hne] at hp hcurp ⊢
      rw [← hcurp, hthreadSelf, hcpuSelf]
      exact hintena p b hp
    · have hother := h.cur_ne hne
      rw [hcurp] at hother
      rw [hthread _ hother.symm, hcpu c' hne]
      exact h.intena c' p b hp
  · intro p b b' hp
    rw [hplace] at hp
    rw [hthread _ (h.cur_ne_of_away (by rw [hp]; rfl) c)]
    exact h.saved p b b' hp
  · intro p hp
    rw [hplace] at hp
    rw [hthread _ (h.cur_ne_of_away (by rw [hp]; rfl) c)]
    exact h.fresh p hp

/-- The processor's thread hands its locks to another one, which runs next. -/
theorem Inv.counts_switch (h : Inv s) (hplain : s.Plain c) {t : Thread C P}
    (ht : (s.thread t).Idle) (hcur : ∀ c', s.cur c' ≠ t) {s' : State C P K}
    (hcpu : s'.cpu = update s.cpu c x) (hnext : s'.cur c = t)
    (hncli : x.ncli = (s.cpu c).ncli) (hintr : x.intr = (s.cpu c).intr)
    (hthread : s'.thread = update
      (update s.thread (s.cur c) { s.thread (s.cur c) with locks := [] })
      t { s.thread t with locks := (s.thread (s.cur c)).locks })
    (hlock : s'.lock = s.lock) (c' : C) : s'.Counts c' := by
  have hold := h.counts c
  by_cases hne : c' = c
  · have hcpuSelf : s'.cpu c = x := by rw [hcpu, update_self]
    have hthreadSelf : s'.thread t = { s.thread t with locks := (s.thread (s.cur c)).locks } := by
      rw [hthread, update_self]
    rw [hne]
    constructor
    · rw [hcpuSelf, hnext, hthreadSelf, hncli, hold.ncli]
      simp only [Kthread.depth, hplain.1, hplain.2, ht.2.1, ht.2.2]
    · rw [hcpuSelf, hncli, hintr]
      exact hold.off
    · rw [hnext, hthreadSelf, hlock]
      exact hold.holds
    · rw [hnext, hthreadSelf]
      exact hold.nodup
  · apply (h.counts c').of_eq
    · rw [hcpu, update_of_ne hne]
    · rw [hthread, update_of_ne (hcur c'), update_of_ne (h.cur_ne hne)]
    · intro l
      rw [hlock]

omit [DecidableEq P] in
/-- `holding` leaves the processor as it was when interrupts are off. -/
theorem holding_eq (hn : 0 < x.ncli) (hx : x.intr = false) :
    s.holding x c l = .ok (decide (s.lock l = ⟨true, some c⟩), x) := by
  have hr : ((s.lock l).locked && (s.lock l).cpu = some c) =
      decide (s.lock l = ⟨true, some c⟩) := by
    cases s.lock l with
    | mk locked cpu => cases locked <;> simp
  rw [holding, x.popcli_pushcli hn hx, hr]
  rfl

theorem Inv.pushcli (h : Inv s) : Inv (s.pushcli c) := by
  have hc := h.counts c
  apply h.set
  · rfl
  · show (s.cpu c).ncli + 1 = _
    rw [hc.ncli, Kthread.depth, Kthread.depth]
    push_cast
    omega
  · exact fun _ => rfl
  · exact hc.holds
  · exact hc.nodup
  · exact fun _ _ _ => Iff.rfl
  · intro p b hp hlocking hfirst
    have hpos := h.ncli_pos hlocking
    show (if (s.cpu c).ncli = 0 then (s.cpu c).intr else (s.cpu c).intena) = b
    rw [if_neg (by omega)]
    exact h.intena_cur hp hlocking hfirst

/-- `popcli` after `pushcli`. -/
theorem Inv.popcli (h : Inv s) (ha : s.Allowed (.popcli c)) :
    ∃ s', s.popcli c = .ok s' ∧ Inv s' := by
  have hc := h.counts c
  have hpos : 0 < (s.cpu c).ncli := by
    have hpush := ha.1
    rw [hc.ncli, Kthread.depth, if_pos ha.2]
    omega
  rw [State.popcli, Cpu.popcli_eq hpos (hc.off hpos)]
  refine ⟨_, rfl, ?_⟩
  apply h.set
  · rfl
  · show (s.cpu c).ncli - 1 = _
    rw [hc.ncli, Kthread.depth, Kthread.depth]
    have hpush := ha.1
    push_cast [Nat.succ_le_of_lt hpush]
    omega
  · grind
  · exact hc.holds
  · exact hc.nodup
  · exact fun _ _ _ => Iff.rfl
  · intro p b hp hlocking hfirst
    exact h.intena_cur hp hlocking hfirst

theorem Inv.setIf (h : Inv s) {b : Bool} (ha : s.Allowed (.setIf c b)) : Inv (s.setIf c b) := by
  have hc := h.counts c
  have hzero : (s.cpu c).ncli = 0 := by
    rw [hc.ncli, Kthread.depth_of_plain ha.1.1 ha.1.2, ha.2]
    rfl
  apply h.set
  · rfl
  · exact hc.ncli
  · intro hn
    exact absurd hzero (ne_of_gt hn)
  · exact hc.holds
  · exact hc.nodup
  · exact fun _ _ _ => Iff.rfl
  · intro p b' hp hlocking
    exact absurd hzero (ne_of_gt (h.ncli_pos hlocking))

/-- `acquire` does not find the lock held by its own processor. -/
theorem Inv.acquire (h : Inv s) (ha : s.Allowed (.acquire c l)) :
    ∃ s', s.acquire c l = .ok s' ∧ Inv s' := by
  have hc := h.counts c
  have hnonneg : 0 ≤ (s.cpu c).ncli := by
    rw [hc.ncli]
    exact Kthread.depth_nonneg _
  have hfree : ¬ s.lock l = ⟨true, some c⟩ := fun hl => ha.2 ((hc.holds l).mpr hl)
  have hpos : 0 < (s.cpu c).pushcli.ncli := by
    show 0 < (s.cpu c).ncli + 1
    omega
  rw [State.acquire, holding_eq hpos rfl, decide_eq_false hfree]
  refine ⟨_, rfl, ?_⟩
  apply h.set
  · rfl
  · show (s.cpu c).ncli + 1 = _
    rw [hc.ncli, Kthread.depth_of_plain ha.1.1 ha.1.2]
    simp [Kthread.depth, ha.1.1]
  · exact fun _ => rfl
  · exact hc.holds
  · exact hc.nodup
  · exact fun _ _ _ => Iff.rfl
  · intro p b hp _ hfirst
    show (if (s.cpu c).ncli = 0 then (s.cpu c).intr else (s.cpu c).intena) = b
    -- The first lock is the one that makes the counter positive.
    rw [hc.ncli, Kthread.depth_of_plain ha.1.1 ha.1.2]
    by_cases hlocks : (s.thread (s.cur c)).locks = []
    · simp only [hlocks, if_true, Option.some.injEq] at hfirst
      rw [hlocks]
      exact hfirst
    · simp only [hlocks, if_false] at hfirst
      have hlen := List.length_pos_of_ne_nil hlocks
      rw [if_neg (by omega)]
      exact h.intena_cur hp (.inl hlocks) hfirst

section Update

variable [DecidableEq K]

theorem Inv.xchg (h : Inv s) (ha : s.Allowed (.xchg c l)) : Inv (s.xchg c l) := by
  have hc := h.counts c
  have hspin : (s.thread (s.cur c)).spin ≠ none := by
    rw [ha.1]
    exact nofun
  have hfree : ∀ c', s.lock l ≠ ⟨true, some c'⟩ := by
    intro c' hl
    have hunlocked := ha.2
    rw [hl] at hunlocked
    cases hunlocked
  apply h.set
  · rfl
  · show (s.cpu c).ncli = _
    rw [hc.ncli, Kthread.depth, Kthread.depth, if_neg hspin, if_pos rfl, List.length_cons]
    push_cast
    omega
  · exact hc.off
  · grind [hc.holds]
  · exact List.nodup_cons.mpr ⟨fun hmem => hfree c ((hc.holds l).mp hmem), hc.nodup⟩
  · grind
  · intro p b hp _ hfirst
    exact h.intena_cur hp (.inr hspin) hfirst

/-- `release`, with the processor and the thread after it. -/
theorem Inv.release_eq (h : Inv s) (ha : s.Allowed (.release c l)) :
    s.release c l = .ok { s.set c
      { s.cpu c with
        ncli := (s.cpu c).ncli - 1
        intr := (s.cpu c).ncli - 1 = 0 && (s.cpu c).intena }
      { s.thread (s.cur c) with locks := (s.thread (s.cur c)).locks.erase l } with
      lock := update s.lock l {} } := by
  have hc := h.counts c
  have hpos := h.ncli_pos (.inl (List.ne_nil_of_mem ha.2))
  have hoff := hc.off hpos
  rw [State.release, holding_eq hpos hoff, decide_eq_true ((hc.holds l).mp ha.2)]
  show (Cpu.popcli _ >>= _) = _
  rw [Cpu.popcli_eq hpos hoff]
  rfl

theorem Inv.release (h : Inv s) (ha : s.Allowed (.release c l)) :
    ∃ s', s.release c l = .ok s' ∧ Inv s' := by
  have hc := h.counts c
  refine ⟨_, h.release_eq ha, ?_⟩
  have hlen := List.length_erase_of_mem ha.2
  have hlenPos := List.length_pos_of_mem ha.2
  apply h.set
  · rfl
  · show (s.cpu c).ncli - 1 = _
    rw [hc.ncli, Kthread.depth, Kthread.depth, hlen]
    push_cast [Nat.succ_le_of_lt hlenPos]
    omega
  · grind
  · intro l'
    rw [hc.nodup.mem_erase_iff]
    grind [hc.holds]
  · exact hc.nodup.erase l
  · grind [hc.holds]
  · intro p b hp _ hfirst
    exact h.intena_cur hp (.inl (List.ne_nil_of_mem ha.2)) hfirst

/-- After the last lock the process has the interrupt flag it had before the first. -/
theorem Inv.intr_of_last (h : Inv s) {b : Bool} {s' : State C P K}
    (hp : (s.cpu c).proc = some p) (ha : s.Allowed (.release c l))
    (hfirst : (s.thread (.proc p)).first = some b) (hs' : s.release c l = .ok s')
    (hlast : (s'.thread (.proc p)).locks = []) : (s'.cpu c).intr = b := by
  have hc := h.counts c
  rw [h.release_eq ha] at hs'
  cases hs'
  rw [← cur_of_proc hp] at hfirst hlast
  have hlocks : (s.thread (s.cur c)).locks.erase l = [] := by
    have hthread := update_self (s.cur c)
      { s.thread (s.cur c) with locks := (s.thread (s.cur c)).locks.erase l } s.thread
    have hsame := congrArg Kthread.locks hthread
    exact hsame.symm.trans hlast
  have hone : (s.cpu c).ncli - 1 = 0 := by
    have hlen := List.length_erase_of_mem ha.2
    have hpos := List.length_pos_of_mem ha.2
    rw [hlocks, List.length_nil] at hlen
    rw [hc.ncli, Kthread.depth_of_plain ha.1.1 ha.1.2]
    omega
  have hintena := h.intena_cur hp (.inl (List.ne_nil_of_mem ha.2)) hfirst
  show (update s.cpu c _ c).intr = b
  simp [hone, hintena]

end Update

/-! ## Context switches -/

/-- Processor `c` switches between its scheduler and process `p`; the rest stays. -/
structure Switch (s s' : State C P K) (c : C) (p : P) : Prop where
  cpu : ∀ c', c' ≠ c → s'.cpu c' = s.cpu c'
  place : ∀ q, q ≠ p → s'.place q = s.place q
  proc : ∀ q, q ≠ p → s'.thread (.proc q) = s.thread (.proc q)
  scheduler : ∀ c', c' ≠ c → s'.thread (.scheduler c') = s.thread (.scheduler c')
  before : ∀ q, (s.cpu c).proc = some q → q = p
  beforePlace : ∀ c', s.place p = .onCpu c' → c' = c
  after : ∀ q, (s'.cpu c).proc = some q ↔ q = p ∧ s'.place p = .onCpu c
  afterPlace : ∀ c', s'.place p = .onCpu c' → c' = c

/-- A switch keeps the invariant if it does so for the processor and the process. -/
theorem Inv.switch (h : Inv s) {s' : State C P K} (hs : Switch s s' c p)
    (hcounts : ∀ c', s'.Counts c')
    (haway : (s'.place p).away = true → (s'.thread (.proc p)).Idle)
    (hwaiting : (s'.cpu c).proc = some p → (s'.thread (.scheduler c)).Idle)
    (hintena : ∀ b, (s'.cpu c).proc = some p → (s'.thread (.proc p)).first = some b →
      (s'.cpu c).intena = b)
    (hsaved : ∀ b b', s'.place p = .inSched b → (s'.thread (.proc p)).first = some b' → b = b')
    (hfresh : s'.place p ≠ .fresh) : Inv s' := by
  constructor
  · intro c' q
    by_cases hc : c' = c
    · grind [hs.after, hs.place, h.proc_iff, hs.before]
    · grind [hs.cpu, h.proc_iff, hs.beforePlace, hs.afterPlace, hs.place]
  · intro q hq
    by_cases hqp : q = p
    · rw [hqp] at hq ⊢
      exact haway hq
    · rw [hs.place q hqp] at hq
      rw [hs.proc q hqp]
      exact h.away q hq
  · intro c' q hq
    by_cases hc : c' = c
    · rw [hc] at hq ⊢
      rw [((hs.after q).mp hq).1] at hq
      exact hwaiting hq
    · rw [hs.cpu c' hc] at hq
      rw [hs.scheduler c' hc]
      exact h.waiting c' q hq
  · exact hcounts
  · intro c' q b hq hlocking hfirst
    by_cases hc : c' = c
    · grind [hs.after]
    · rw [hs.cpu c' hc] at hq ⊢
      have hqp : q ≠ p := by
        intro hqp
        rw [hqp] at hq
        exact hc (hs.beforePlace c' ((h.proc_iff c' p).mp hq))
      rw [hs.proc q hqp] at hlocking hfirst
      exact h.intena c' q b hq hlocking hfirst
  · intro q b b' hq hfirst
    by_cases hqp : q = p
    · rw [hqp] at hq hfirst
      exact hsaved b b' hq hfirst
    · rw [hs.place q hqp] at hq
      rw [hs.proc q hqp] at hfirst
      exact h.saved q b b' hq hfirst
  · intro q hq
    have hqp : q ≠ p := by
      intro hqp
      rw [hqp] at hq
      exact hfresh hq
    rw [hs.place q hqp] at hq
    rw [hs.proc q hqp]
    exact h.fresh q hq

/-- `sched` finds `ptable.lock` held, no other lock, and interrupts off. -/
theorem Inv.sched_eq (h : Inv s) (ha : s.Allowed (.sched c p)) :
    s.sched c p = .ok { s with
      cpu := update s.cpu c { s.cpu c with proc := none }
      thread := update
        (update s.thread (.proc p) { s.thread (.proc p) with locks := [] })
        (.scheduler c) { s.thread (.scheduler c) with locks := (s.thread (.proc p)).locks }
      place := update s.place p (.inSched (s.cpu c).intena) } := by
  have hc := h.counts c
  obtain ⟨hplain, hp, hlocks⟩ := ha
  have hcur := cur_of_proc hp
  have hone : (s.cpu c).ncli = 1 := by
    rw [hc.ncli, Kthread.depth_of_plain hplain.1 hplain.2, hcur, hlocks]
    rfl
  have hheld : s.lock .ptable = ⟨true, some c⟩ := by
    apply (hc.holds _).mp
    rw [hcur, hlocks]
    exact List.mem_singleton_self _
  have hoff := hc.off (by omega)
  rw [State.sched, holding_eq (by omega) hoff, decide_eq_true hheld]
  show (if (s.cpu c).ncli ≠ 1 then _ else if (s.cpu c).intr then _ else _) = _
  rw [if_neg (not_not.mpr hone), if_neg (by rw [hoff]; exact nofun)]
  rfl

theorem Inv.sched (h : Inv s) (ha : s.Allowed (.sched c p)) :
    ∃ s', s.sched c p = .ok s' ∧ Inv s' := by
  refine ⟨_, h.sched_eq ha, ?_⟩
  obtain ⟨hplain, hp, hlocks⟩ := ha
  have hcur := cur_of_proc hp
  have hplace := (h.proc_iff c p).mp hp
  have hlocking : (s.thread (.proc p)).Locking := by
    left
    rw [hlocks]
    exact nofun
  generalize hs' : State.mk _ _ _ _ = s'
  have hcpu : s'.cpu = update s.cpu c { s.cpu c with proc := none } := by rw [← hs']
  have hcpuSelf : (s'.cpu c).proc = none := by rw [hcpu, update_self]
  have hplaceSelf : s'.place p = .inSched (s.cpu c).intena := by
    rw [← hs']
    exact update_self ..
  have hthread : s'.thread = update
      (update s.thread (.proc p) { s.thread (.proc p) with locks := [] })
      (.scheduler c) { s.thread (.scheduler c) with locks := (s.thread (.proc p)).locks } := by
    rw [← hs']
  have hthreadSelf : s'.thread (.proc p) = { s.thread (.proc p) with locks := [] } := by
    rw [hthread, update_of_ne (by exact nofun), update_self]
  apply h.switch (c := c) (p := p)
  · constructor
    · intro c' hne
      rw [hcpu, update_of_ne hne]
    · intro q hne
      rw [← hs']
      exact update_of_ne hne ..
    · intro q hne
      rw [hthread, update_of_ne (by exact nofun),
        update_of_ne fun heq => hne (Thread.proc.inj heq)]
    · intro c' hne
      rw [hthread, update_of_ne fun heq => hne (Thread.scheduler.inj heq),
        update_of_ne (by exact nofun)]
    · intro q hq
      exact Option.some.inj (hq.symm.trans hp)
    · intro c' hc
      exact Place.onCpu.inj (hc.symm.trans hplace)
    · intro q
      rw [hcpuSelf, hplaceSelf]
      simp
    · intro c' hc
      rw [hplaceSelf] at hc
      cases hc
  · apply h.counts_switch hplain (h.waiting c p hp) (fun c' => cur_ne_scheduler (.inr hp)) hcpu
      (cur_of_none hcpuSelf) rfl rfl
    · rw [hthread, hcur]
    · rw [← hs']
  · intro _
    rw [hthreadSelf, ← hcur]
    exact ⟨rfl, hplain⟩
  · intro hsome
    rw [hcpuSelf] at hsome
    cases hsome
  · intro b hsome
    rw [hcpuSelf] at hsome
    cases hsome
  · intro b b' hb hfirst
    -- The process holds `ptable.lock`, so `intena` is what it found at its first lock.
    rw [hplaceSelf] at hb
    rw [hthreadSelf] at hfirst
    rw [← Place.inSched.inj hb]
    exact h.intena c p b' hp hlocking hfirst
  · rw [hplaceSelf]
    exact nofun

theorem Inv.run (h : Inv s) (ha : s.Allowed (.run c p)) : Inv (s.run c p) := by
  obtain ⟨hplain, hnone, hlocks, haway⟩ := ha
  have hcur := cur_of_none hnone
  obtain ⟨intena, hcpu, hintena⟩ : ∃ intena, (s.run c p).cpu =
        update s.cpu c { s.cpu c with proc := some p, intena } ∧
      ∀ b, s.place p = .inSched b → intena = b :=
    ⟨_, rfl, fun b hb => by rw [hb]⟩
  generalize hs' : s.run c p = s' at hcpu ⊢
  have hcpuSelf : s'.cpu c = { s.cpu c with proc := some p, intena } := by
    rw [hcpu, update_self]
  have hplaceSelf : s'.place p = .onCpu c := by
    rw [← hs']
    exact update_self ..
  have hthread : s'.thread = update
      (update s.thread (.scheduler c) { s.thread (.scheduler c) with locks := [] })
      (.proc p) { s.thread (.proc p) with locks := (s.thread (.scheduler c)).locks } := by
    rw [← hs']
    rfl
  apply h.switch (c := c) (p := p)
  · constructor
    · intro c' hne
      rw [hcpu, update_of_ne hne]
    · intro q hne
      rw [← hs']
      exact update_of_ne hne ..
    · intro q hne
      rw [hthread, update_of_ne fun heq => hne (Thread.proc.inj heq),
        update_of_ne (by simp)]
    · intro c' hne
      rw [hthread, update_of_ne (by simp),
        update_of_ne fun heq => hne (Thread.scheduler.inj heq)]
    · intro q hq
      rw [hnone] at hq
      cases hq
    · intro c' hc
      rw [hc] at haway
      cases haway
    · intro q
      rw [hcpuSelf, hplaceSelf]
      simp [eq_comm]
    · intro c' hc
      exact Place.onCpu.inj (hc.symm.trans hplaceSelf)
  · apply h.counts_switch hplain (h.away p haway) (h.cur_ne_of_away haway) hcpu
      (cur_of_proc (by rw [hcpuSelf])) rfl rfl
    · rw [hthread, hcur]
    · rw [← hs']
      rfl
  · intro hp
    rw [hplaceSelf] at hp
    cases hp
  · intro _
    rw [hthread, update_of_ne (by simp), update_self]
    rw [State.Plain, hcur] at hplain
    exact ⟨rfl, hplain⟩
  · intro b _ hfirst
    rw [hthread, update_self] at hfirst
    rw [hcpuSelf]
    show intena = b
    cases hp : s.place p with
    | fresh =>
      grind [h.fresh]
    | onCpu c' =>
      rw [hp] at haway
      cases haway
    | inSched b' =>
      rw [hintena b' hp]
      exact h.saved p b' b hp hfirst
  · intro b b' hb
    rw [hplaceSelf] at hb
    cases hb
  · rw [hplaceSelf]
    simp

omit [DecidableEq C] [DecidableEq P] in
theorem inv_init : Inv ({} : State C P K) where
  proc_iff _ _ := ⟨nofun, nofun⟩
  away _ _ := ⟨rfl, rfl, rfl⟩
  waiting := nofun
  counts _ := ⟨rfl, nofun, fun _ => ⟨nofun, nofun⟩, .nil⟩
  intena := nofun
  saved := nofun
  fresh _ _ := rfl

variable [DecidableEq K]

/-- Whatever the threads do succeeds and keeps the invariant. -/
theorem Inv.perform (h : Inv s) {a : Label C P K} (ha : s.Allowed a) :
    ∃ s', s.perform a = .ok s' ∧ Inv s' := by
  cases a with
  | pushcli c => exact ⟨_, rfl, h.pushcli⟩
  | popcli c => exact h.popcli ha
  | acquire c l => exact h.acquire ha
  | xchg c l => exact ⟨_, rfl, h.xchg ha⟩
  | release c l => exact h.release ha
  | sched c p => exact h.sched ha
  | run c p => exact ⟨_, rfl, h.run ha⟩
  | setIf c b => exact ⟨_, rfl, h.setIf ha⟩

end State

variable [DecidableEq C] [DecidableEq P] [DecidableEq K]

theorem inv_of_reachable {s : State C P K} (h : (system C P K).Reachable s) : s.Inv := by
  apply h.invariant (fun s hs => by rw [hs]; exact State.inv_init)
  intro s a hs ha
  obtain ⟨s', hperform, hinv⟩ := hs.perform ha.1
  simp only [system, hperform]
  exact hinv

/-- On every processor interrupts are off while `ncli` is positive, and `ncli` is the number of
spinlocks and open `pushcli`s of the thread that runs there. A process that releases its last
lock gets the interrupt flag it had when it took its first one, on whatever processor. What the
threads do never panics; in particular `popcli` does not. -/
theorem interrupts_follow_thread {s : State C P K} (h : (system C P K).Reachable s) :
    (∀ c, (0 < (s.cpu c).ncli → (s.cpu c).intr = false) ∧
      (s.cpu c).ncli = (s.thread (s.cur c)).depth) ∧
    (∀ c l p b s', (s.cpu c).proc = some p → s.Allowed (.release c l) →
      (s.thread (.proc p)).first = some b → s.release c l = .ok s' →
      (s'.thread (.proc p)).locks = [] → (s'.cpu c).intr = b) ∧
    (∀ a, s.Allowed a → ∃ s', s.perform a = .ok s') := by
  have hinv := inv_of_reachable h
  refine ⟨fun c => ⟨(hinv.counts c).off, (hinv.counts c).ncli⟩, ?_, ?_⟩
  · intro c l p b s' hp ha hfirst hs' hlast
    exact hinv.intr_of_last hp ha hfirst hs' hlast
  · intro a ha
    obtain ⟨s', hs', -⟩ := hinv.perform ha
    exact ⟨s', hs'⟩

/-- A process takes `ptable.lock` on processor `c` with interrupts on and gives the processor up.
Processor `d`, which has interrupts off, runs it next. -/
def migrate {C : Type} (c d : C) : List (Label C Unit Unit) :=
  [.setIf c true, .acquire c .ptable, .xchg c .ptable, .run c (), .release c .ptable,
    .acquire c .ptable, .xchg c .ptable, .sched c (), .release c .ptable,
    .acquire d .ptable, .xchg d .ptable, .run d ()]

theorem interrupts_follow_migration : ∃ s s', (system (Fin 2) Unit Unit).Reachable s ∧
    (s.thread (.scheduler 1)).first = some false ∧ s.release 1 .ptable = .ok s' ∧
    (s'.cpu 1).proc = some () ∧ (s'.cpu 1).intr = true := by
  obtain ⟨s, hs, hfirst, hproc, hown, hallowed, hrelease⟩ := Machine.exists_reachable_of_exec
    (system (Fin 2) Unit Unit) (migrate 0 1) (s := {}) (P := fun s =>
      (s.thread (.scheduler 1)).first = some false ∧ (s.cpu 1).proc = some () ∧
      (s.thread (.proc ())).first = some true ∧ s.Allowed (.release 1 .ptable) ∧
      (match s.release 1 .ptable with
        | .ok s' => (s'.thread (.proc ())).locks = [] ∧ (s'.cpu 1).proc = some ()
        | .error _ => false) = true) rfl (by decide +kernel)
  obtain ⟨-, hlast, hall⟩ := interrupts_follow_thread hs
  obtain ⟨s', hs'⟩ := hall _ hallowed
  have hs' : s.release 1 .ptable = .ok s' := hs'
  rw [hs'] at hrelease
  have hafter := of_decide_eq_true hrelease
  exact ⟨s, s', hs, hfirst, hs', hafter.2,
    hlast 1 .ptable () true s' hproc hallowed hown hs' hafter.1⟩

end Xv6.Locks.Cli
