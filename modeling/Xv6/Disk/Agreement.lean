/-
# The two disk drivers agree

The interrupt-driven driver finishes requests in the order they were queued, each
of them once. So at any moment, applying the in-memory driver to the requests
still in the queue gives what applying it to all requests from the start gives;
and when the queue is empty the disk and the buffers are the same as if the
in-memory driver had been used.
-/

import Xv6.Disk.Ide

namespace Xv6.Disk

open Function Xv6.Lib

variable {K N : ℕ}

/-- A request, or a change of a buffer by its holder. -/
inductive Op (K : ℕ)
  | iderw (b : Fin K)
  | modify (b : Fin K) (x : Buf)

namespace Mem

/-- Change a buffer. -/
def set (m : Mem K) (b : Fin K) (x : Buf) : Mem K := { m with buf := update m.buf b x }

def apply (disksize : ℕ) (m : Mem K) : Op K → Except Panic (Mem K)
  | .iderw b => Memide.iderw disksize m b
  | .modify b x => .ok (m.set b x)

/-- Apply requests and changes one after another. -/
def run (disksize : ℕ) (m : Mem K) (ops : List (Op K)) : Except Panic (Mem K) :=
  ops.foldlM (Mem.apply disksize) m

variable {disksize : ℕ} {m m' : Mem K} {ops : List (Op K)} {op : Op K}

theorem run_append (m : Mem K) (ops later : List (Op K)) :
    m.run disksize (ops ++ later) = (m.run disksize ops).bind fun m' => m'.run disksize later :=
  List.foldlM_append ..

theorem run_cons (m : Mem K) (op : Op K) (ops : List (Op K)) :
    m.run disksize (op :: ops) = (m.apply disksize op).bind fun m' => m'.run disksize ops :=
  List.foldlM_cons ..

theorem run_singleton (m : Mem K) (op : Op K) : m.run disksize [op] = m.apply disksize op := by
  rw [run_cons]
  cases m.apply disksize op <;> rfl

/-- A computation that succeeds after another has two steps. -/
theorem bind_eq_ok {f : Mem K → Except Panic (Mem K)} {x : Except Panic (Mem K)}
    (h : x.bind f = .ok m') : ∃ m₁, x = .ok m₁ ∧ f m₁ = .ok m' := by
  cases x with
  | error e => cases h
  | ok m₁ => exact ⟨m₁, rfl, h⟩

/-- A change of a buffer does not meet a request for another one. -/
theorem iderw_set {b c : Fin K} (hcb : c ≠ b) (x : Buf)
    (h : Memide.iderw disksize m c = .ok m') :
    Memide.iderw disksize (m.set b x) c = .ok (m'.set b x) := by
  have hc : (m.set b x).buf c = m.buf c := update_of_ne hcb ..
  have hdisk : (m.set b x).disk = m.disk := rfl
  have hcomm : ∀ y, update (m.set b x).buf c y =
      update (update m.buf c y) b x :=
    fun y => update_comm hcb.symm ..
  rw [Memide.iderw] at h ⊢
  rw [hc, hdisk, hcomm, hcomm]
  split at h
  · cases h
  next hwork =>
  split at h
  · cases h
  next hdev =>
  split at h
  · cases h
  next hrange =>
  rw [if_neg hwork, if_neg hdev, if_neg hrange]
  split at h
  · next hdirty =>
    cases h
    rw [if_pos hdirty]
    rfl
  · next hdirty =>
    cases h
    rw [if_neg hdirty]
    rfl

theorem run_set {queue : List (Fin K)} {b : Fin K} (hb : b ∉ queue) (x : Buf)
    (h : m.run disksize (queue.map .iderw) = .ok m') :
    (m.set b x).run disksize (queue.map .iderw) = .ok (m'.set b x) := by
  induction queue generalizing m with
  | nil =>
    cases h
    rfl
  | cons c rest ih =>
    rw [List.mem_cons, not_or] at hb
    rw [List.map_cons, run_cons] at h ⊢
    obtain ⟨m₁, hfirst, hrest⟩ := bind_eq_ok h
    have hset : (m.set b x).apply disksize (.iderw c) = .ok (m₁.set b x) :=
      iderw_set (Ne.symm hb.1) x hfirst
    rw [hset]
    exact ih hb.2 hrest

/-- Writing a block twice is writing it once. -/
theorem iderw_again {b : Fin K} (hdirty : (m.buf b).dirty = true)
    (h : Memide.iderw disksize m b = .ok m') :
    Memide.iderw disksize
      { m with disk := update m.disk (m.buf b).blockno (m.buf b).data } b = .ok m' := by
  rw [Memide.iderw] at h ⊢
  simp only [hdirty, if_true, update_idem] at h ⊢
  exact h

end Mem

namespace State

variable {s : State K N} {queue : List (Fin K)} {b : Fin K} {p : Fin N}

/-- The head of the queue, and nothing else, has been given to the disk. -/
def Active (s : State K N) : List (Fin K) → Prop
  | [] => s.controller = .idle
  | b :: _ => s.controller = .busy (s.buf b).cmd ∨
      ∃ data, s.controller = .ready (s.buf b).cmd data ∧
        ((s.buf b).dirty = true →
          s.disks ((s.buf b).dev % 2) (s.buf b).blockno = (s.buf b).data) ∧
        ((s.buf b).dirty = false →
          data = s.disks ((s.buf b).dev % 2) (s.buf b).blockno)

/-- `idequeue` and the pointers are the queue; requests in it are not finished, those
of other waiting processes are. -/
structure QueueOk (s : State K N) (queue : List (Fin K)) : Prop where
  chain : Chain s.qnext s.idequeue queue
  nodup : queue.Nodup
  active : s.Active queue
  pending : ∀ b ∈ queue, ¬ (s.buf b).Synced
  held : ∀ b ∈ queue, ∃ p asleep, s.proc p = .waiting b asleep
  done : ∀ p b asleep, s.proc p = .waiting b asleep → b ∈ queue ∨ (s.buf b).Synced
  alone : ∀ p q b asleep asleep', s.proc p = .waiting b asleep →
    s.proc q = .waiting b asleep' → p = q

theorem QueueOk.length_le (h : s.QueueOk queue) : queue.length ≤ K := by
  have hcard := h.nodup.length_le_card
  rw [Fintype.card_fin] at hcard
  exact hcard

theorem Free.ne (h : s.Free b) (p : Fin N) (asleep : Bool) : s.proc p ≠ .waiting b asleep := by
  cases asleep with
  | true => exact (h p).1
  | false => exact (h p).2

theorem QueueOk.notMem (h : s.QueueOk queue) (hfree : s.Free b) : b ∉ queue := by
  intro hb
  obtain ⟨p, asleep, hp⟩ := h.held b hb
  exact hfree.ne p asleep hp

/-- Appending is appending. -/
theorem QueueOk.chain_append (h : s.QueueOk queue) (hb : b ∉ queue) :
    Chain (s.append b).qnext (s.append b).idequeue (queue ++ [b]) := by
  have hchain : Chain (update s.qnext b none) s.idequeue queue := by
    apply h.chain.congr
    intro a ha
    apply update_of_ne
    rintro rfl
    exact hb ha
  rw [append]
  split
  · next hnone =>
    rw [hnone] at hchain
    cases hchain
    apply Chain.cons
    dsimp only
    rw [update_self]
    exact .nil
  · next a hsome =>
    rw [hsome] at hchain ⊢
    exact hchain.append (update_self ..) hb h.nodup h.length_le

theorem append_frame (s : State K N) (b : Fin K) : s.append b =
    { s with qnext := (s.append b).qnext, idequeue := (s.append b).idequeue } := by
  rw [append]
  split <;> rfl

/-- The new request is the head exactly if the queue was empty. -/
theorem QueueOk.append_head (h : s.QueueOk queue) (hb : b ∉ queue) :
    (s.append b).idequeue = some b ↔ queue = [] := by
  have hchain := h.chain_append hb
  constructor
  · intro hhead
    cases queue with
    | nil => rfl
    | cons a rest =>
      rw [hhead] at hchain
      cases hchain
      exact absurd (List.mem_cons_self ..) hb
  · rintro rfl
    cases hhead : (s.append b).idequeue with
    | none =>
      rw [hhead] at hchain
      cases hchain
    | some a =>
      rw [hhead] at hchain
      cases hchain
      rfl

/-- What `iderw` does unless it panics. -/
theorem QueueOk.iderw_eq (h : s.QueueOk queue) (hb : b ∉ queue)
    (hfine : (s.iderw p b).panicked = none) : ¬ (s.buf b).Synced ∧
    s.iderw p b = { s with
      qnext := (s.append b).qnext
      idequeue := (s.append b).idequeue
      controller := if queue = [] then .busy (s.buf b).cmd else s.controller
      proc := update s.proc p (.waiting b true) } := by
  rw [iderw] at hfine ⊢
  split at hfine
  · cases hfine
  next hwork =>
  split at hfine
  · cases hfine
  next hdisk =>
  refine ⟨hwork, ?_⟩
  rw [if_neg hwork, if_neg hdisk]
  dsimp only at hfine ⊢
  by_cases hqueue : queue = []
  · rw [if_pos ((h.append_head hb).mpr hqueue), idestart] at hfine ⊢
    split at hfine
    · cases hfine
    next hblock =>
    rw [if_neg hblock, if_pos hqueue, await, append_frame]
    dsimp only
    rw [if_neg hwork]
  · rw [if_neg (fun hhead => hqueue ((h.append_head hb).mp hhead)), if_neg hqueue, await,
      append_frame]
    dsimp only
    rw [if_neg hwork]

theorem QueueOk.iderw (h : s.QueueOk queue) (hidle : s.proc p = .idle) (hfree : s.Free b)
    (hfine : (s.iderw p b).panicked = none) :
    (s.iderw p b).QueueOk (queue ++ [b]) ∧ (s.iderw p b).mem = s.mem := by
  have hb := h.notMem hfree
  obtain ⟨hwork, heq⟩ := h.iderw_eq hb hfine
  rw [heq]
  refine ⟨⟨h.chain_append hb, ?_, ?_, ?_, ?_, ?_, ?_⟩, rfl⟩
  · rw [List.nodup_append]
    refine ⟨h.nodup, List.nodup_singleton b, ?_⟩
    intro a ha c hc hac
    rw [List.mem_singleton] at hc
    exact hb (hc ▸ hac ▸ ha)
  · cases queue with
    | nil => exact Or.inl rfl
    | cons a rest => exact h.active
  · grind [h.pending]
  · intro c hc
    rcases List.mem_append.mp hc with hold | hnew
    · obtain ⟨q, asleep, hq⟩ := h.held c hold
      have hqp : q ≠ p := by
        rintro rfl
        rw [hidle] at hq
        cases hq
      exact ⟨q, asleep, (update_of_ne hqp ..).trans hq⟩
    · rw [List.mem_singleton.mp hnew]
      exact ⟨p, true, update_self ..⟩
  · grind [h.done]
  · grind [hfree.ne, h.alone]

/-- A step that only lets process `p` go on: it still waits, or its request is done. -/
theorem QueueOk.setProc (h : s.QueueOk queue) {asleep : Bool} (hp : s.proc p = .waiting b asleep)
    {pc : Pc K} (hpc : pc = .idle ∧ (s.buf b).Synced ∨ ∃ asleep', pc = .waiting b asleep') :
    { s with proc := update s.proc p pc }.QueueOk queue := by
  refine ⟨h.chain, h.nodup, h.active, h.pending, ?_, ?_, ?_⟩
  · intro c hc
    obtain ⟨q, asleep', hq⟩ := h.held c hc
    by_cases hqp : q = p
    · subst hqp
      rw [hp] at hq
      cases hq
      rcases hpc with ⟨-, hsynced⟩ | ⟨a, rfl⟩
      · exact absurd hsynced (h.pending b hc)
      · exact ⟨q, a, update_self ..⟩
    · exact ⟨q, asleep', (update_of_ne hqp ..).trans hq⟩
  · grind [h.done]
  · have hback : ∀ {q c a}, update s.proc p pc q = .waiting c a →
        ∃ a', s.proc q = .waiting c a' := by
      grind
    grind [h.alone]

theorem QueueOk.modify (h : s.QueueOk queue) (hfree : s.Free b) (x : Buf) :
    { s with buf := update s.buf b x }.QueueOk queue := by
  have hb := h.notMem hfree
  have hsame : ∀ c, c ≠ b → update s.buf b x c = s.buf c :=
    fun c hc => update_of_ne hc ..
  have hqueue : ∀ c ∈ queue, c ≠ b := by
    rintro c hc rfl
    exact hb hc
  refine ⟨h.chain, h.nodup, ?_, ?_, h.held, ?_, h.alone⟩
  · cases queue with
    | nil => exact h.active
    | cons a rest =>
      have ha := hsame a (hqueue a (List.mem_cons_self ..))
      show (s.controller = .busy (update s.buf b x a).cmd) ∨ _
      simp only [ha]
      exact h.active
  · grind [h.pending]
  · grind [hfree.ne, h.done]

/-! ## The disk and its interrupt -/

/-- A disk that works works for the head of the queue. -/
theorem QueueOk.head_of_busy (h : s.QueueOk queue) {cmd : Cmd} (hbusy : s.controller = .busy cmd) :
    ∃ b rest, queue = b :: rest ∧ cmd = (s.buf b).cmd := by
  have hactive := h.active
  cases queue with
  | nil =>
    rw [Active, hbusy] at hactive
    cases hactive
  | cons b rest =>
    refine ⟨b, rest, rfl, ?_⟩
    rcases hactive with hsame | ⟨data, hready, -⟩
    · rw [hbusy] at hsame
      exact Controller.busy.inj hsame
    · rw [hbusy] at hready
      cases hready

theorem QueueOk.head_of_ready (h : s.QueueOk queue) {cmd : Cmd} {data : Bytes}
    (hready : s.controller = .ready cmd data) : ∃ b rest, queue = b :: rest ∧
      ((s.buf b).dirty = true →
        s.disks ((s.buf b).dev % 2) (s.buf b).blockno = (s.buf b).data) ∧
      ((s.buf b).dirty = false → data = s.disks ((s.buf b).dev % 2) (s.buf b).blockno) := by
  have hactive := h.active
  cases queue with
  | nil =>
    rw [Active, hready] at hactive
    cases hactive
  | cons b rest =>
    refine ⟨b, rest, rfl, ?_⟩
    rcases hactive with hbusy | ⟨data', hsame, hdata⟩
    · rw [hready] at hbusy
      cases hbusy
    · rw [hready] at hsame
      rw [(Controller.ready.inj hsame).2]
      exact hdata

theorem finish_read (h : (s.buf b).dirty = false) : s.finish (s.buf b).cmd =
    { s with controller :=
        .ready (s.buf b).cmd (s.disks ((s.buf b).dev % 2) (s.buf b).blockno) } := by
  rw [State.finish, Buf.cmd, h]
  rfl

theorem finish_write (h : (s.buf b).dirty = true) : s.finish (s.buf b).cmd =
    { s with
      disks := update s.disks ((s.buf b).dev % 2)
        (update (s.disks ((s.buf b).dev % 2)) (s.buf b).blockno (s.buf b).data)
      controller := .ready (s.buf b).cmd (s.buf b).data } := by
  rw [State.finish, Buf.cmd, h]
  rfl

/-- The disk finishes a command. -/
theorem QueueOk.finish (h : s.QueueOk queue) {cmd : Cmd} (hbusy : s.controller = .busy cmd) :
    (s.finish cmd).QueueOk queue := by
  obtain ⟨b, rest, rfl, rfl⟩ := h.head_of_busy hbusy
  cases hdirty : (s.buf b).dirty with
  | false =>
    rw [finish_read hdirty]
    refine ⟨h.chain, h.nodup, Or.inr ⟨_, rfl, ?_, fun _ => rfl⟩, h.pending, h.held, h.done,
      h.alone⟩
    exact fun hd => absurd (hdirty.symm.trans hd) nofun
  | true =>
    rw [finish_write hdirty]
    refine ⟨h.chain, h.nodup, Or.inr ⟨_, rfl, fun _ => ?_, ?_⟩, h.pending, h.held, h.done,
      h.alone⟩
    · dsimp only
      rw [update_self, update_self]
    · exact fun hd => absurd (hdirty.symm.trans hd) nofun

/-- When the disk finishes a command, the in-memory driver would still come to the same
end. -/
theorem QueueOk.run_finish (h : s.QueueOk queue) {cmd : Cmd} (hbusy : s.controller = .busy cmd)
    {disksize : ℕ} {m : Mem K} (hm : s.mem.run disksize (queue.map .iderw) = .ok m) :
    (s.finish cmd).mem.run disksize (queue.map .iderw) = .ok m := by
  obtain ⟨b, rest, rfl, rfl⟩ := h.head_of_busy hbusy
  cases hdirty : (s.buf b).dirty with
  | false =>
    rw [finish_read hdirty]
    exact hm
  | true =>
    rw [List.map_cons, Mem.run_cons] at hm ⊢
    obtain ⟨m₁, hfirst, hrest⟩ := Mem.bind_eq_ok hm
    have hdev : (s.buf b).dev = 1 := (Memide.iderw_eq_ok hfirst).2.1
    have hagain : (s.finish (s.buf b).cmd).mem.apply disksize (.iderw b) = .ok m₁ := by
      rw [finish_write hdirty, State.mem, hdev]
      dsimp only
      rw [update_self]
      exact Mem.iderw_again (m := s.mem) hdirty hfirst
    rw [hagain]
    exact hrest

/-- The buffer the interrupt handler leaves behind. -/
def handled (x : Buf) (data : Bytes) : Buf := if x.dirty then x.written else x.filled data

theorem synced_handled (x : Buf) (data : Bytes) : (handled x data).Synced := by
  rw [handled]
  split
  · exact ⟨rfl, rfl⟩
  · next hclean => exact ⟨rfl, Bool.eq_false_iff.mpr hclean⟩

/-- A process that waits after a wake-up has waited before. -/
theorem waiting_wakeup {q : Fin N} {c : Fin K} {asleep : Bool}
    (h : (s.wakeup b).proc q = .waiting c asleep) : ∃ asleep', s.proc q = .waiting c asleep' := by
  have hproc : (s.wakeup b).proc q =
    if s.proc q = .waiting b true then .waiting b false else s.proc q := rfl
  grind

/-- Processes that wait for another buffer are not woken. -/
theorem wakeup_of_ne {q : Fin N} {c : Fin K} {asleep : Bool} (hcb : c ≠ b)
    (h : s.proc q = .waiting c asleep) : (s.wakeup b).proc q = .waiting c asleep := by
  have hproc : (s.wakeup b).proc q =
    if s.proc q = .waiting b true then .waiting b false else s.proc q := rfl
  rw [hproc, if_neg, h]
  rw [h]
  intro heq
  cases heq
  exact hcb rfl

/-- The state before `ideintr` starts the next request. -/
def handle (s : State K N) (b : Fin K) (data : Bytes) : State K N :=
  State.wakeup { s with
    idequeue := s.qnext b
    controller := .idle
    buf := update s.buf b (handled (s.buf b) data) } b

theorem ideintr_eq {data : Bytes} (h : s.idequeue = some b) : s.ideintr data =
    match s.qnext b with
    | none => s.handle b data
    | some c => (s.handle b data).idestart c := by
  rw [ideintr, h]
  rfl

theorem idestart_mem (s : State K N) (c : Fin K) : (s.idestart c).mem = s.mem := by
  rw [idestart]
  split <;> rfl

theorem idestart_eq {c : Fin K} (h : (s.idestart c).panicked = none) :
    s.idestart c = { s with controller := .busy (s.buf c).cmd } := by
  rw [idestart] at h ⊢
  split at h
  · cases h
  · next hblock => rw [if_neg hblock]

/-- The head of the queue, and the rest behind it. -/
theorem QueueOk.idequeue_eq {rest : List (Fin K)} (h : s.QueueOk (b :: rest)) :
    s.idequeue = some b ∧ Chain s.qnext (s.qnext b) rest := by
  have hchain := h.chain
  cases hhead : s.idequeue with
  | none =>
    rw [hhead] at hchain
    cases hchain
  | some a =>
    rw [hhead] at hchain
    cases hchain with
    | cons hrest => exact ⟨rfl, hrest⟩

/-- The handler takes the head off the queue, whatever the disk does next. -/
theorem QueueOk.handle {rest : List (Fin K)} (h : s.QueueOk (b :: rest)) (data : Bytes)
    {controller : Controller} (hactive : { s.handle b data with controller }.Active rest) :
    { s.handle b data with controller }.QueueOk rest := by
  obtain ⟨hnot, hnodup⟩ := List.nodup_cons.mp h.nodup
  obtain ⟨-, hchain⟩ := h.idequeue_eq
  have hbuf : ∀ c, c ≠ b → (s.handle b data).buf c = s.buf c :=
    fun c hc => update_of_ne hc ..
  have hself : (s.handle b data).buf b = handled (s.buf b) data := update_self ..
  have hne : ∀ c ∈ rest, c ≠ b := by
    rintro c hc rfl
    exact hnot hc
  refine ⟨hchain, hnodup, hactive, ?_, ?_, ?_, ?_⟩
  · grind [h.pending]
  · intro c hc
    obtain ⟨q, asleep, hq⟩ := h.held c (List.mem_cons_of_mem b hc)
    exact ⟨q, asleep, wakeup_of_ne (hne c hc) hq⟩
  · intro q c asleep hq
    show c ∈ rest ∨ ((s.handle b data).buf c).Synced
    obtain ⟨asleep', hold⟩ := waiting_wakeup hq
    grind [synced_handled, h.done]
  · intro q q' c asleep asleep' hq hq'
    obtain ⟨a, hold⟩ := waiting_wakeup hq
    obtain ⟨a', hold'⟩ := waiting_wakeup hq'
    exact h.alone q q' c a a' hold hold'

theorem QueueOk.ideintr {rest : List (Fin K)} {data : Bytes} (h : s.QueueOk (b :: rest))
    (hfine : (s.ideintr data).panicked = none) : (s.ideintr data).QueueOk rest := by
  obtain ⟨hhead, hchain⟩ := h.idequeue_eq
  rw [ideintr_eq hhead] at hfine ⊢
  cases hnext : s.qnext b with
  | none =>
    rw [hnext] at hchain
    cases hchain
    exact h.handle data rfl
  | some c =>
    rw [hnext] at hchain hfine
    cases hchain
    dsimp only at hfine ⊢
    rw [idestart_eq hfine]
    exact h.handle data (Or.inl rfl)

/-- The interrupt handler does to the head what the in-memory driver does. -/
theorem QueueOk.run_ideintr {rest : List (Fin K)} {data : Bytes} (h : s.QueueOk (b :: rest))
    (hwrite : (s.buf b).dirty = true →
      s.disks ((s.buf b).dev % 2) (s.buf b).blockno = (s.buf b).data)
    (hread : (s.buf b).dirty = false →
      data = s.disks ((s.buf b).dev % 2) (s.buf b).blockno)
    {disksize : ℕ} {m : Mem K}
    (hm : s.mem.run disksize ((b :: rest).map .iderw) = .ok m) :
    (s.ideintr data).mem.run disksize (rest.map .iderw) = .ok m := by
  rw [List.map_cons, Mem.run_cons] at hm
  obtain ⟨m₁, hfirst, hrest⟩ := Mem.bind_eq_ok hm
  obtain ⟨-, hdev, hdone⟩ := Memide.iderw_eq_ok hfirst
  have hdev : (s.buf b).dev = 1 := hdev
  rw [hdev] at hwrite hread
  have hhandle : (s.handle b data).mem = m₁ := by
    show (⟨s.disks 1, update s.buf b (handled (s.buf b) data)⟩ : Mem K) = m₁
    rcases hdone with ⟨hdirty, rfl⟩ | ⟨hdirty, rfl⟩
    · have hdirty : (s.buf b).dirty = true := hdirty
      have hdisk : update (s.disks 1) (s.buf b).blockno (s.buf b).data = s.disks 1 :=
        update_eq_self_iff.mpr (hwrite hdirty).symm
      rw [handled, if_pos hdirty]
      show _ = Mem.mk (update (s.disks 1) (s.buf b).blockno (s.buf b).data) _
      rw [hdisk]
      rfl
    · have hdirty : (s.buf b).dirty = false := hdirty
      rw [handled, if_neg (Bool.eq_false_iff.mp hdirty), hread hdirty]
      rfl
  rw [ideintr_eq h.idequeue_eq.1]
  split
  · rw [hhandle]
    exact hrest
  · rw [idestart_mem, hhandle]
    exact hrest

/-- The request or change a step makes. -/
def op (_ : State K N) : Label K N → Option (Op K)
  | .iderw _ b => some (.iderw b)
  | .modify b x => some (.modify b x)
  | .resume _ | .wake _ | .finish | .ideintr => none

/-- The buffers in `idequeue`, in order. -/
def requests (s : State K N) : List (Fin K) := Chain.toList s.qnext K s.idequeue

/-- The queue is in order, and what is left of it leads to where the in-memory driver
gets with the operations `es` from `m₀` on. -/
structure Agrees (m₀ : Mem K) (s : State K N) (es : List (Op K)) : Prop where
  queueOk : s.QueueOk s.requests
  run : ∀ disksize m, m₀.run disksize es = .ok m →
    s.mem.run disksize (s.requests.map .iderw) = .ok m

theorem QueueOk.requests_eq {queue : List (Fin K)} (h : s.QueueOk queue) : s.requests = queue :=
  h.chain.toList_eq h.length_le

/-- A step into a state with a queue in order, from which the in-memory driver gets
where it has to. -/
theorem Agrees.of {m₀ : Mem K} {es : List (Op K)} {queue : List (Fin K)} (hok : s.QueueOk queue)
    (hrun : ∀ disksize m, m₀.run disksize es = .ok m →
      s.mem.run disksize (queue.map .iderw) = .ok m) : Agrees m₀ s es := by
  constructor
  · rw [hok.requests_eq]
    exact hok
  · rw [hok.requests_eq]
    exact hrun

/-- A step that makes no request and changes no buffer. -/
theorem Agrees.step {m₀ : Mem K} {es : List (Op K)} {s' : State K N} (h : Agrees m₀ s es)
    {queue : List (Fin K)} (hok : s'.QueueOk queue)
    (hrun : ∀ disksize m, s.mem.run disksize (s.requests.map .iderw) = .ok m →
      s'.mem.run disksize (queue.map .iderw) = .ok m) : Agrees m₀ s' es :=
  .of hok fun disksize m hm => hrun disksize m (h.run disksize m hm)

theorem Agrees.next {m₀ : Mem K} {es : List (Op K)} {l : Label K N} (h : Agrees m₀ s es)
    (enabled : s.Enabled l) (hfine : (s.next l).panicked = none) :
    Agrees m₀ (s.next l) (es ++ (s.op l).toList) := by
  have hsplit : ∀ {disksize op m}, m₀.run disksize (es ++ [op]) = .ok m →
      ∃ m₁, s.mem.run disksize (s.requests.map .iderw) = .ok m₁ ∧ m₁.apply disksize op = .ok m := by
    intro disksize op m hm
    rw [Mem.run_append] at hm
    obtain ⟨m₁, hold, hnew⟩ := Mem.bind_eq_ok hm
    rw [Mem.run_singleton] at hnew
    exact ⟨m₁, h.run disksize m₁ hold, hnew⟩
  cases l with
  | iderw p b =>
    obtain ⟨hok, hmem⟩ := h.queueOk.iderw enabled.2.1 enabled.2.2 hfine
    apply Agrees.of hok
    intro disksize m hm
    obtain ⟨m₁, hold, hnew⟩ := hsplit hm
    show (s.iderw p b).mem.run _ _ = _
    rw [hmem, List.map_append, Mem.run_append, hold]
    exact (Mem.run_singleton m₁ _).trans hnew
  | modify b x =>
    apply Agrees.of (h.queueOk.modify enabled.2 x)
    intro disksize m hm
    obtain ⟨m₁, hold, hnew⟩ := hsplit hm
    cases hnew
    exact Mem.run_set (h.queueOk.notMem enabled.2) x hold
  | resume p =>
    obtain ⟨b, hp⟩ := enabled.2
    rw [op, Option.toList_none, List.append_nil, State.next, hp]
    have hok : (s.await p b).QueueOk s.requests := by
      apply h.queueOk.setProc hp
      grind
    exact h.step hok fun _ _ hm => hm
  | wake p =>
    obtain ⟨b, hp⟩ := enabled.2
    rw [op, Option.toList_none, List.append_nil, State.next, hp]
    exact h.step (h.queueOk.setProc hp (Or.inr ⟨false, rfl⟩)) fun _ _ hm => hm
  | finish =>
    cases hbusy : s.controller with
    | idle => exact absurd enabled.2 (by simp [hbusy, Controller.isBusy])
    | ready cmd data => exact absurd enabled.2 (by simp [hbusy, Controller.isBusy])
    | busy cmd =>
      rw [op, Option.toList_none, List.append_nil, State.next, hbusy]
      exact h.step (h.queueOk.finish hbusy) fun _ _ hm => h.queueOk.run_finish hbusy hm
  | ideintr =>
    cases hready : s.controller with
    | idle => exact absurd enabled.2 (by simp [hready, Controller.isReady])
    | busy cmd => exact absurd enabled.2 (by simp [hready, Controller.isReady])
    | ready cmd data =>
      rw [op, Option.toList_none, List.append_nil, State.next, hready]
      rw [State.next, hready] at hfine
      obtain ⟨b, rest, hqueue, hwrite, hread⟩ := h.queueOk.head_of_ready hready
      have hok := h.queueOk
      rw [hqueue] at hok
      apply h.step (hok.ideintr hfine)
      intro disksize m hm
      rw [hqueue] at hm
      exact hok.run_ideintr hwrite hread hm

theorem Init.queueOk (h : s.Init) : s.QueueOk [] := by
  obtain ⟨hqueue, hidle, hproc, -⟩ := h
  refine ⟨?_, List.nodup_nil, hidle, nofun, nofun, ?_, ?_⟩
  · rw [hqueue]
    exact .nil
  · intro p b asleep hp
    rw [hproc p] at hp
    cases hp
  · intro p q b asleep asleep' hp
    rw [hproc p] at hp
    cases hp

end State

/-- The interrupt-driven driver agrees with the in-memory one. In every run that has
not panicked, no buffer is in `idequeue` twice and its head is the only request
given to the disk; a call of `iderw` sleeps and returns only when its request is out
of the queue, with `B_VALID` set and `B_DIRTY` clear; and wherever the in-memory driver
gets by the same operations in the order they were made, it gets there by the
requests still queued, so that disk and buffers are the same once no process is
in `iderw`. -/
theorem ide_agrees_with_memide {s₀ s : State K N} {labels : List (Label K N)} (hinit : s₀.Init)
    (h : (system K N).Run s₀ labels s) (hfine : s.panicked = none) :
    s.requests.Nodup ∧
    (s.requests = [] → s.controller = .idle) ∧
    (∀ b rest, s.requests = b :: rest → s.controller = .busy (s.buf b).cmd ∨
      ∃ data, s.controller = .ready (s.buf b).cmd data) ∧
    (∀ p b, s.Enabled (.iderw p b) → (s.next (.iderw p b)).panicked = none →
      (s.next (.iderw p b)).proc p = .waiting b true) ∧
    (∀ p b asleep, s.proc p = .waiting b asleep → (s.next (.resume p)).proc p = .idle →
      b ∉ s.requests ∧ (s.buf b).valid = true ∧ (s.buf b).dirty = false) ∧
    ∀ disksize m, s₀.mem.run disksize ((system K N).log State.op s₀ labels) = .ok m →
      s.mem.run disksize (s.requests.map .iderw) = .ok m ∧
        ((∀ p, s.proc p = .idle) → s.mem = m) := by
  have hagrees : s.panicked = none →
      State.Agrees s₀.mem s ((system K N).log State.op s₀ labels) := by
    apply h.invariant_log (I := fun u es => u.panicked = none → State.Agrees s₀.mem u es)
    · exact fun _ => .of hinit.queueOk fun _ _ hm => hm
    · intro u es l hu enabled hnext
      have hbefore : u.panicked = none := by
        cases l <;> exact enabled.1
      exact (hu hbefore).next enabled hnext
  obtain ⟨hok, hrun⟩ := hagrees hfine
  refine ⟨hok.nodup, ?_, ?_, ?_, ?_, ?_⟩
  · intro hempty
    have hactive := hok.active
    rw [hempty] at hactive
    exact hactive
  · intro b rest hqueue
    have hactive := hok.active
    rw [hqueue] at hactive
    exact hactive.imp_right fun ⟨data, hready, _⟩ => ⟨data, hready⟩
  · intro p b enabled hnext
    have heq := (hok.iderw_eq (hok.notMem enabled.2.2) hnext).2
    exact (congrArg (State.proc · p) heq).trans (update_self ..)
  · intro p b asleep hp hreturn
    have hsynced : (s.buf b).Synced := by
      by_contra hwork
      rw [State.next, hp] at hreturn
      simp [State.await, hwork] at hreturn
    exact ⟨fun hb => hok.pending b hb hsynced, hsynced⟩
  · intro disksize m hm
    refine ⟨hrun disksize m hm, fun hidle => ?_⟩
    have hempty : s.requests = [] := by
      apply List.eq_nil_iff_forall_not_mem.mpr
      intro b hb
      obtain ⟨p, asleep, hp⟩ := hok.held b hb
      rw [hidle p] at hp
      cases hp
    have hdone := hrun disksize m hm
    rw [hempty] at hdone
    exact Except.ok.inj hdone

/-- Two processes write one block of disk 1 and read it back through another buffer. -/
def sharedBlock : State 2 2 where
  disks := fun _ _ _ => 0
  buf := fun b => if b = 0 then ⟨true, true, 1, 5, fun _ => 7⟩ else ⟨false, false, 1, 5, fun _ => 0⟩
  qnext := fun _ => none
  idequeue := none
  controller := .idle
  havedisk1 := true
  proc := fun _ => .idle
  panicked := none

def writeThenRead : List (Label 2 2) :=
  [.iderw 0 0, .iderw 1 1, .finish, .wake 1, .ideintr, .resume 1, .resume 0, .finish, .ideintr,
    .resume 1]

set_option maxRecDepth 10000 in
theorem second_request_reads_first :
    ∃ s m, (system 2 2).Run sharedBlock writeThenRead s ∧
      sharedBlock.mem.run 1000 ((system 2 2).log State.op sharedBlock writeThenRead) = .ok m ∧
      s.mem = m ∧ (m.buf 1).data 3 = 7 := by
  obtain ⟨s, hrun, hfine, hidle, hdata⟩ :=
    Machine.exists_run_of_exec (system 2 2) writeThenRead (s := sharedBlock)
      (P := fun s => s.panicked = none ∧ (∀ p, s.proc p = .idle) ∧ (s.buf 1).data 3 = 7)
      (by decide +kernel)
  cases hm : sharedBlock.mem.run 1000
      ((system 2 2).log State.op sharedBlock writeThenRead) with
  | error e =>
    have hok : (sharedBlock.mem.run 1000
        ((system 2 2).log State.op sharedBlock writeThenRead)).isOk = true := by
      decide +kernel
    rw [hm] at hok
    cases hok
  | ok m =>
    have hmem : s.mem = m :=
      ((ide_agrees_with_memide ⟨rfl, rfl, fun _ => rfl, rfl⟩ hrun hfine).2.2.2.2.2
        1000 m hm).2 hidle
    exact ⟨s, m, hrun, rfl, hmem, hmem ▸ hdata⟩

end Xv6.Disk
