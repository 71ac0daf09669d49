/-
# The multi-level feedback queues

The queue operations that `proc.c` writes out by hand at each place that needs
them: the pid-based duplicate check, the append, the removal by shifting, the
aging pass at the start of a scheduler iteration, the removal and charge at a
dispatch, and the demotion and re-insertion after a run.

They read two things from the rest of the kernel, the pids of the table and the
tick counter, and those are arguments. Everything else they touch is `Mlfq`.
-/

import Xv6.Ptable.Struct

namespace Xv6.Ptable

open Function Xv6.Lib

namespace Mlfq

variable (pid : Slot → ℤ) (ticks : ℕ)

/-- The comparison `qu[k][i]->pid == p->pid` of the duplicate checks. -/
def samePid (p : Slot) : Option Slot → Bool
  | some x => pid x == pid p
  | none => false

/-- Change the MLFQ members of one process. -/
def setInfo (m : Mlfq) (p : Slot) (f : MlfqProc → MlfqProc) : Mlfq :=
  { m with info := update m.info p (f (m.info p)) }

/-- `qu[k][q_index[k]+1] = p; q_index[k]++; p->qtime = ticks`. -/
def append (m : Mlfq) (k : ℕ) (p : Slot) : Mlfq :=
  { m with
    qu := update m.qu k ((m.qu k).append (some p))
    info := update m.info p { m.info p with qtime := toInt32 ticks }
    clock := m.clock + 1
    stamp := update m.stamp p m.clock }

/-- Close the gap at index `ind` of queue `k`. -/
def removeAt (m : Mlfq) (k ind : ℕ) : Mlfq :=
  { m with qu := update m.qu k ((m.qu k).removeAt ind) }

/-- Append `p` to queue `k` unless an entry with its pid is there already. -/
def enqueueAt (m : Mlfq) (k : ℕ) (p : Slot) : Mlfq :=
  match (m.qu k).search (samePid pid p) with
  | some _ => m
  | none => m.append ticks k p

/-- The insertion of `fork`, `wakeup1`, `kill` and the end of a run: into the
queue the process belongs to. -/
def enqueue (m : Mlfq) (p : Slot) : Mlfq :=
  m.enqueueAt pid ticks (m.info p).curQ p

/-- The insertion of `userinit`, which names queue `0` and sets `cur_q`. -/
def enqueueFirst (m : Mlfq) (p : Slot) : Mlfq :=
  match (m.qu 0).search (samePid pid p) with
  | some _ => m
  | none => (m.setInfo p fun i => { i with curQ := 0 }).append ticks 0 p

/-- The removal of `wait` and `waitx`: from the queue the process belongs to, of
the first entry with its pid. -/
def dequeue (m : Mlfq) (p : Slot) : Mlfq :=
  match (m.qu (m.info p).curQ).search (samePid pid p) with
  | some ind => m.removeAt (m.info p).curQ ind
  | none => m

/-- The locals `alread` and `ind` of the scheduler live across the whole aging
pass; the removal of one round starts from what the previous round left. -/
structure Aging where
  m : Mlfq
  alread : Bool
  ind : ℕ

/-- Remove `p` from queue `i` and append it to queue `i-1`. -/
def promote (i : ℕ) (a : Aging) (p : Slot) : Aging :=
  let found := (a.m.qu i).search (samePid pid p)
  let ind := found.getD a.ind
  let alread := found.isSome || a.alread
  let m := if alread then a.m.removeAt i ind else a.m
  match (m.qu (i - 1)).search (samePid pid p) with
  | some _ => { m, alread := true, ind }
  | none =>
    { m := (m.setInfo p fun x => { x with curQ := i - 1 }).append ticks (i - 1) p
      alread := false
      ind }

/-- `int aged = ticks - p->qtime; aged > 25`. -/
def isAged (m : Mlfq) (p : Slot) : Bool :=
  decide (25 < toInt32 ((ticks : ℤ) - (m.info p).qtime))

/-- The loop `for(int j=0; j<=q_index[i]; j++)` of the aging pass. Each round
looks at the entry now at index `j`; the fuel is the number of entries at the
start, which bounds the rounds because the queue never grows here. -/
def ageQueue (i : ℕ) : ℕ → ℕ → Aging → Aging
  | 0, _, a => a
  | fuel + 1, j, a =>
    if (j : ℤ) ≤ (a.m.qu i).last then
      match (a.m.qu i).arr j with
      | none => ageQueue i fuel (j + 1) a
      | some p =>
        if a.m.isAged ticks p then ageQueue i fuel (j + 1) (promote pid ticks i a p)
        else ageQueue i fuel (j + 1) a
    else a

/-- One queue of the aging pass, run for as many rounds as it has entries. -/
def ageLevel (a : Aging) (i : ℕ) : Aging :=
  ageQueue pid ticks i (a.m.qu i).size 0 a

/-- The aging pass: queues `1` to `4` in order. -/
def age (m : Mlfq) : Mlfq :=
  ([1, 2, 3, 4].foldl (ageLevel pid ticks) { m, alread := false, ind := 0 }).m

/-- The first non-empty queue and its head, if that head is `RUNNABLE`. The loop
breaks at the first non-empty queue whatever its head is. -/
def pickHead (m : Mlfq) (state : Slot → ProcState) : Option (ℕ × Slot) :=
  match (List.range 5).find? fun i => decide (0 ≤ (m.qu i).last) with
  | none => none
  | some i =>
    match (m.qu i).arr 0 with
    | none => none
    | some p => if state p = .runnable then some (i, p) else none

/-- `p->q[i]++`, and the mark when the limit of queue `i` is reached. -/
def charged (i : ℕ) (x : MlfqProc) : MlfqProc :=
  let q := update x.q i (x.q i + 1)
  { x with q, flg := x.flg || decide (maxQueueTicks i ≤ q i) }

/-- Charge the dispatch to queue `i`, and take the process out of that queue. -/
def charge (m : Mlfq) (i : ℕ) (p : Slot) : Mlfq :=
  let m := m.setInfo p (charged i)
  match (m.qu i).search (samePid pid p) with
  | some ind => m.removeAt i ind
  | none => m

/-- The process comes back from a run: if its slice is used up or it is marked,
clear the mark and move it one queue down. -/
def demoted (x : MlfqProc) : MlfqProc :=
  if x.flg || decide (maxQueueTicks x.curQ ≤ x.q x.curQ) then
    { x with flg := false, curQ := if x.curQ < 4 then x.curQ + 1 else x.curQ }
  else x

/-- After the run of a process that is `RUNNABLE` again: demote it if need be,
and append it to its queue. -/
def requeue (m : Mlfq) (p : Slot) : Mlfq :=
  (m.setInfo p demoted).enqueue pid ticks p

/-- The test of the timer trap: the running process has used up its slice. -/
def sliceUsed (m : Mlfq) (p : Slot) : Bool :=
  decide (maxQueueTicks (m.info p).curQ ≤ (m.info p).q (m.info p).curQ)

/-- The timer trap either marks the running process or charges it the tick. -/
def ticked (x : MlfqProc) : MlfqProc :=
  if maxQueueTicks x.curQ ≤ x.q x.curQ then { x with flg := true }
  else { x with q := update x.q x.curQ (x.q x.curQ + 1) }

end Mlfq

end Xv6.Ptable
