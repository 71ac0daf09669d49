/-
# Crash atomicity

Whatever is on the disk at a crash, the header and the slots it names stand for the
committed state: a copy of every block they list, and homes that are up to date
elsewhere. Every block write of `commit` and of recovery keeps this, so recovery may
itself be cut short any number of times.

It depends on the log area being large enough for the entries. `log_write` checks that
before it takes the lock, so two calls can pass the check together and both append. With
a log of `LOGSIZE` blocks or more nothing comes of it: an entry too many means that all
`NBUF` buffers are dirty, and `write_log` panics in its first `bread`, before it has
written anything. With a smaller log `write_log` writes past the log area. So the results
below are for logs of at least `LOGSIZE` blocks and, with smaller ones, for runs in which
every append still finds room.
-/

import Xv6.Log.Ops

namespace Xv6.Log

open Function Xv6.Lib

namespace State

/-- Operations log blocks outside the log area only. -/
def LogsOutside (g : Geometry) (_ : State) : Label → Prop
  | .logCheck _ block _ => ¬ g.InLog block
  | .beginOp _ | .logAppend _ | .endOp _ | .diskWrite | .finish | .crash | .boot | .bget _ _
  | .acquire _ _ | .brelse _ _ => True

/-- The `log_write` a process is in absorbs its block or has a slot for it, or the log is
not smaller than the cache. -/
def CallFits (g : Geometry) (s : State) : OpPc → Prop
  | .checked _ block _ => block ∈ s.lh ∨ LOGSIZE ≤ g.size ∨ s.lh.length + 1 < g.size
  | .idle | .beginning | .sleeping | .active _ | .committing => True

instance (g : Geometry) (s : State) (pc : OpPc) : Decidable (s.CallFits g pc) := by
  apply pc.casesOn (motive := fun pc => Decidable (s.CallFits g pc)) <;> intros <;>
    dsimp only [CallFits] <;> infer_instance

/-- A `log_write` that appends an entry to a log smaller than `LOGSIZE` finds a slot for it. -/
def FindsRoom (g : Geometry) (s : State) : Label → Prop
  | .logAppend p => s.CallFits g (s.ops p)
  | .beginOp _ | .logCheck _ _ _ | .endOp _ | .diskWrite | .finish | .crash | .boot | .bget _ _
  | .acquire _ _ | .brelse _ _ => True

instance (g : Geometry) (s : State) (l : Label) : Decidable (s.LogsOutside g l) := by
  apply l.casesOn (motive := fun l => Decidable (s.LogsOutside g l)) <;> intros <;>
    dsimp only [LogsOutside] <;> infer_instance

instance (g : Geometry) (s : State) (l : Label) : Decidable (s.FindsRoom g l) := by
  apply l.casesOn (motive := fun l => Decidable (s.FindsRoom g l)) <;> intros <;>
    dsimp only [FindsRoom] <;> infer_instance

variable {g : Geometry} {s t : State} {l : Label} {p k b tail : ℕ} {v : Bytes}

/-- The entries of the header on the disk. -/
def diskHead (g : Geometry) (s : State) : List ℕ := readHead (s.disk g.start)

/-- The disk stands for the committed state. -/
structure OnDisk (g : Geometry) (s : State) : Prop where
  logged : Redo.Logged (fun b => ¬ g.InLog b) s.committed (s.diskHead g)
    (fun k => s.disk (g.slot k)) s.disk
  outside : ∀ b ∈ s.diskHead g, ¬ g.InLog b
  fits : (s.diskHead g).length < g.size

/-- Buffers that are not dirty agree with the disk. -/
def Clean (s : State) : Prop := ∀ b, s.dirty b = false → s.bread b = s.disk b

/-- The entries in memory describe the current group, whose blocks are pinned in the
cache; nothing of it is on the disk. -/
structure Pending (g : Geometry) (s : State) : Prop where
  head_nil : s.diskHead g = []
  held : ∀ b ∈ s.lh, s.bread b = replay s.committed s.ghost.cur b
  covers : ∀ w ∈ s.ghost.cur, w.block ∈ s.lh
  pinned : ∀ b, s.dirty b = true ↔ b ∈ s.lh
  outside : ∀ b ∈ s.lh, ¬ g.InLog b
  fits_uint : ∀ b ∈ s.lh, b < 2 ^ 32
  nodup : s.lh.Nodup
  fits_log : LOGSIZE ≤ g.size ∨ s.lh.length < g.size

/-- The first `n` entries have been copied to their slots. -/
def Slots (g : Geometry) (s : State) (n : ℕ) : Prop :=
  ∀ k b, k < n → s.lh[k]? = some b → s.disk (g.slot k) = replay s.committed s.ghost.cur b

/-- `install_trans` is at entry `tail` of a committed group. -/
structure Installing (g : Geometry) (s : State) (tail : ℕ) : Prop where
  head_eq : s.diskHead g = s.lh
  tail_lt : tail < s.lh.length
  cur_nil : s.ghost.cur = []
  installed : Redo.Installed s.committed s.lh tail s.disk
  pinned : ∀ b, s.dirty b = true → b ∈ s.lh.drop tail

/-- `commit` has not yet installed the entries from `tail` on, so they are still pinned. -/
def Unfinished (s : State) (tail : ℕ) : Prop :=
  s.lh.Nodup ∧ ∀ b ∈ s.lh.drop tail, s.dirty b = true

/-- Everything committed is at its home. -/
structure Settled (g : Geometry) (s : State) : Prop where
  lh_nil : s.lh = []
  cur_nil : s.ghost.cur = []
  unpinned : ∀ b, s.dirty b = false
  home : ∀ b, ¬ g.InLog b → s.disk b = s.committed b

/-- Nothing is in memory. -/
structure Off (s : State) : Prop where
  lh_nil : s.lh = []
  cur_nil : s.ghost.cur = []
  unpinned : ∀ b, s.dirty b = false

/-- What holds in each phase. Once a slot is written it is known that the entries fit. -/
def InPhase (g : Geometry) (s : State) : Phase → Prop
  | .running | .finish => s.Pending g
  | .writeLog tail => s.Pending g ∧ tail < s.lh.length ∧ s.Slots g tail ∧
    (0 < tail → s.lh.length < g.size)
  | .writeHead => s.Pending g ∧ 0 < s.lh.length ∧ s.Slots g s.lh.length ∧ s.lh.length < g.size
  | .install tail => s.Installing g tail ∧ s.Unfinished tail
  | .recover tail => s.Installing g tail
  | .clear | .recoverClear => s.Settled g
  | .down => s.Off

/-- A block past the check of `log_write` may be logged, and the caller has its buffer. -/
def Calls (g : Geometry) (s : State) : Prop :=
  ∀ p k b v, s.ops p = .checked k b v →
    ¬ g.InLog b ∧ b < 2 ^ 32 ∧ s.bcache.Holds (.proc p) b

/-- The part of the invariant about disk and buffers. -/
structure Stored (g : Geometry) (s : State) : Prop where
  onDisk : s.OnDisk g
  clean : s.Clean
  inPhase : s.InPhase g s.phase

theorem Stored.of_phase (h : s.Stored g) {ph : Phase} (hph : s.phase = ph) : s.InPhase g ph :=
  hph ▸ h.inPhase

/-- The invariant of runs that respect the log area. -/
structure Recoverable (g : Geometry) (s : State) : Prop where
  counted : s.Counted
  recorded : s.Recorded
  calls : s.Calls g
  stored : s.Stored g

/-- Two states agree on disk, buffers, entries and committed state. -/
structure SameStore (s t : State) : Prop where
  disk_eq : t.disk = s.disk
  bread_eq : t.bread = s.bread
  dirty_eq : t.dirty = s.dirty
  lh_eq : t.lh = s.lh
  committed_eq : t.committed = s.committed
  cur_eq : t.ghost.cur = s.ghost.cur

theorem diskHead_congr (h : t.disk = s.disk) : t.diskHead g = s.diskHead g := by
  rw [diskHead, h, diskHead]

theorem OnDisk.congr (h : s.OnDisk g) (hdisk : t.disk = s.disk)
    (hcommitted : t.committed = s.committed) : t.OnDisk g := by
  have hhead : t.diskHead g = s.diskHead g := diskHead_congr hdisk
  refine ⟨?_, ?_, ?_⟩
  · rw [hhead, hdisk, hcommitted]
    exact h.logged
  · rw [hhead]
    exact h.outside
  · rw [hhead]
    exact h.fits

theorem SameStore.onDisk (e : SameStore s t) (h : s.OnDisk g) : t.OnDisk g :=
  h.congr e.disk_eq e.committed_eq

theorem SameStore.clean (e : SameStore s t) (h : s.Clean) : t.Clean := by
  unfold Clean
  simp only [e.disk_eq, e.bread_eq, e.dirty_eq]
  exact h

theorem SameStore.pending (e : SameStore s t) (h : s.Pending g) : t.Pending g := by
  obtain ⟨h1, h2, h3, h4, h5, h6, h7, h8⟩ := h
  refine ⟨(diskHead_congr e.disk_eq).trans h1, ?_, ?_, ?_, ?_, ?_, ?_, ?_⟩ <;>
    simp only [e.committed_eq, e.bread_eq, e.dirty_eq, e.lh_eq, e.cur_eq] <;> assumption

theorem SameStore.installing (e : SameStore s t) (h : s.Installing g tail) :
    t.Installing g tail := by
  obtain ⟨h1, h2, h3, h4, h5⟩ := h
  refine ⟨(diskHead_congr e.disk_eq).trans (h1.trans e.lh_eq.symm), ?_, ?_, ?_, ?_⟩ <;>
    simp only [e.disk_eq, e.committed_eq, e.dirty_eq, e.lh_eq, e.cur_eq] <;> assumption

theorem SameStore.inPhase (e : SameStore s t) {ph : Phase} (h : s.InPhase g ph) :
    t.InPhase g ph := by
  cases ph with
  | running | finish => exact e.pending h
  | writeLog tail =>
    refine ⟨e.pending h.1, e.lh_eq ▸ h.2.1, ?_⟩
    simp only [Slots, e.disk_eq, e.committed_eq, e.lh_eq, e.cur_eq]
    exact h.2.2
  | writeHead =>
    refine ⟨e.pending h.1, e.lh_eq ▸ h.2.1, ?_⟩
    simp only [Slots, e.disk_eq, e.committed_eq, e.lh_eq, e.cur_eq]
    exact h.2.2
  | install tail =>
    refine ⟨e.installing h.1, ?_⟩
    simp only [Unfinished, e.dirty_eq, e.lh_eq]
    exact h.2
  | recover tail => exact e.installing h
  | clear | recoverClear =>
    obtain ⟨h1, h2, h3, h4⟩ := h
    constructor <;> simp only [e.disk_eq, e.committed_eq, e.dirty_eq, e.lh_eq, e.cur_eq] <;>
      assumption
  | down =>
    obtain ⟨h1, h2, h3⟩ := h
    constructor <;> simp only [e.dirty_eq, e.lh_eq, e.cur_eq] <;> assumption

/-! ## Block writes -/

theorem bread_bwrite : (s.bwrite b v).bread = update s.bread b v := by
  funext x
  by_cases hx : x = b
  · subst hx
    rw [update_self]
    unfold bread Bcache.contents bwrite
    dsimp only
    rw [Bcache.lookup_store_self]
    cases s.bcache.lookup x with
    | none => exact update_self ..
    | some buf => rfl
  · rw [update_of_ne hx]
    unfold bread Bcache.contents bwrite
    dsimp only
    rw [Bcache.lookup_store_of_ne hx, update_of_ne hx]

theorem dirty_bwrite : (s.bwrite b v).dirty = update s.dirty b false := by
  funext x
  by_cases hx : x = b
  · subst hx
    rw [update_self]
    unfold dirty Bcache.dirty bwrite
    dsimp only
    rw [Bcache.lookup_store_self]
    cases s.bcache.lookup x <;> rfl
  · rw [update_of_ne hx]
    unfold dirty Bcache.dirty bwrite
    dsimp only
    rw [Bcache.lookup_store_of_ne hx]

theorem Clean.bwrite (h : s.Clean) : (s.bwrite b v).Clean := by
  intro x hx
  rw [dirty_bwrite] at hx
  rw [bread_bwrite]
  by_cases hxb : x = b
  · subst hxb
    simp [State.bwrite]
  · simp only [State.bwrite, update_of_ne hxb] at hx ⊢
    exact h x hx

/-- A step that changes the cache but not what it holds. -/
theorem SameStore.of_sameData {c : Bcache} (h : Bcache.SameData s.disk s.bcache c) :
    SameStore s { s with bcache := c } :=
  ⟨rfl, h.contents_eq, h.dirty_eq, rfl, rfl, rfl⟩

theorem SameStore.trans {u : State} (h : SameStore s t) (h' : SameStore t u) : SameStore s u :=
  ⟨h'.disk_eq.trans h.disk_eq, h'.bread_eq.trans h.bread_eq, h'.dirty_eq.trans h.dirty_eq,
    h'.lh_eq.trans h.lh_eq, h'.committed_eq.trans h.committed_eq, h'.cur_eq.trans h.cur_eq⟩

theorem sameStore_brelse (s : State) (h : Holder) (b : ℕ) : SameStore s (s.brelse h b) :=
  .of_sameData Bcache.sameData_brelse

theorem sameStore_acquire (s : State) (h : Holder) (b : ℕ) : SameStore s (s.acquire h b) :=
  .of_sameData Bcache.sameData_acquire

/-- A turn of a copying loop is its block write, as far as the store is concerned. -/
theorem sameStore_writeSlot (g : Geometry) (s : State) (tail : ℕ) :
    SameStore (s.bwrite (g.slot tail) (s.bread (s.lh.getD tail 0))) (s.writeSlot g tail) :=
  (sameStore_brelse _ _ _).trans (sameStore_brelse _ _ _)

theorem sameStore_installSlot (g : Geometry) (s : State) (tail : ℕ) :
    SameStore (s.bwrite (s.lh.getD tail 0) (s.bread (g.slot tail))) (s.installSlot g tail) :=
  (sameStore_brelse _ _ _).trans (sameStore_brelse _ _ _)

theorem sameStore_writeHead (g : Geometry) (s : State) :
    SameStore (s.bwrite g.start (Log.writeHead s.lh (s.bread g.start))) (s.writeHead g) :=
  sameStore_brelse _ _ _

theorem diskHead_bwrite_of_ne (h : b ≠ g.start) : (s.bwrite b v).diskHead g = s.diskHead g := by
  simp only [diskHead, State.bwrite, update_of_ne h.symm]

theorem inLog_start : g.InLog g.start := ⟨le_refl _, Nat.lt_add_of_pos_right g.size_pos⟩

theorem slot_ne_start : g.slot tail ≠ g.start := by
  unfold Geometry.slot
  omega

theorem inLog_slot (h : tail + 1 < g.size) : g.InLog (g.slot tail) := by
  unfold Geometry.InLog Geometry.slot
  omega

theorem slot_inj {j : ℕ} (h : g.slot tail = g.slot j) : tail = j := by
  unfold Geometry.slot at h
  omega

theorem ne_of_outside {c : ℕ} (hb : ¬ g.InLog b) (hc : g.InLog c) : b ≠ c := by
  rintro rfl
  exact hb hc

theorem getD_of_getElem? {L : List ℕ} (h : L[tail]? = some b) : L.getD tail 0 = b := by
  rw [List.getD_eq_getElem?_getD, h]
  rfl

/-- While the group is pending the homes hold the committed state. -/
theorem Pending.home (h : s.Pending g) (hdisk : s.OnDisk g) (hb : ¬ g.InLog b) :
    s.disk b = s.committed b := by
  refine hdisk.logged.home_eq b hb ?_
  rw [h.head_nil]
  exact List.not_mem_nil

/-- With an empty header only the homes matter. -/
theorem onDisk_of_home (hhead : s.diskHead g = [])
    (hhome : ∀ b, ¬ g.InLog b → s.disk b = s.committed b) : s.OnDisk g := by
  refine ⟨?_, ?_, ?_⟩
  · rw [hhead]
    exact Redo.logged_nil hhome
  · rw [hhead]
    exact fun b hb => nomatch hb
  · rw [hhead]
    exact g.size_pos

/-- The entries have a buffer each. -/
theorem Pending.length_le (h : s.Pending g) : s.lh.length ≤ NBUF := by
  refine Bcache.length_le_nbuf (c := s.bcache) h.nodup fun b hb => ?_
  exact Bcache.cached_of_dirty ((h.pinned b).mpr hb)

/-- When the log has got a buffer for a block of its own, the entries fit into it: with one
entry too many there would not have been a buffer left. -/
theorem Pending.fits (h : s.Pending g) {x : ℕ} (hx : g.InLog x) (hheld : s.bcache.Holds .log x) :
    s.lh.length < g.size := by
  rcases h.fits_log with hsize | hlen
  · have hnodup : (x :: s.lh).Nodup :=
      List.nodup_cons.mpr ⟨fun hmem => h.outside x hmem hx, h.nodup⟩
    have hlen : (x :: s.lh).length ≤ NBUF := by
      refine Bcache.length_le_nbuf (c := s.bcache) hnodup fun b hb => ?_
      rcases List.mem_cons.mp hb with rfl | hb'
      · exact hheld.cached
      · exact Bcache.cached_of_dirty ((h.pinned b).mpr hb')
    exact Nat.lt_of_lt_of_le hlen hsize
  · exact hlen

/-- A turn of `write_log` changes the slot only. -/
theorem Pending.writeSlot (h : s.Pending g) (hdisk : s.OnDisk g) (hslots : s.Slots g tail)
    (htail : tail < s.lh.length) (hfits : s.lh.length < g.size) :
    (s.writeSlot g tail).OnDisk g ∧ (s.writeSlot g tail).Pending g ∧
      (s.writeSlot g tail).Slots g (tail + 1) := by
  obtain ⟨b, hb⟩ : ∃ b, s.lh[tail]? = some b := ⟨_, List.getElem?_eq_getElem htail⟩
  have hslot : g.InLog (g.slot tail) := inLog_slot (Nat.lt_of_le_of_lt htail hfits)
  have hhead : (s.writeSlot g tail).diskHead g = [] :=
    (diskHead_bwrite_of_ne slot_ne_start).trans h.head_nil
  refine ⟨onDisk_of_home hhead fun x hx => ?_, ?_, ?_⟩
  · change update s.disk _ _ x = s.committed x
    rw [update_of_ne (ne_of_outside hx hslot)]
    exact h.home hdisk hx
  · refine ⟨hhead, fun x hx => ?_, h.covers, fun x => ?_, h.outside, h.fits_uint, h.nodup,
      h.fits_log⟩
    · rw [(sameStore_writeSlot g s tail).bread_eq, bread_bwrite,
        update_of_ne (ne_of_outside (h.outside x hx) hslot)]
      exact h.held x hx
    · rw [(sameStore_writeSlot g s tail).dirty_eq, dirty_bwrite]
      change update s.dirty _ _ x = true ↔ x ∈ s.lh
      grind [h.outside, h.pinned]
  · intro k x hk hx
    change update s.disk _ _ (g.slot k) = replay s.committed s.ghost.cur x
    by_cases hkt : k = tail
    · subst hkt
      have hxb : x = b := Option.some.inj (hx.symm.trans hb)
      rw [update_self, getD_of_getElem? hb, hxb]
      exact h.held b (List.mem_of_getElem? hb)
    · rw [update_of_ne fun he => hkt (slot_inj he)]
      exact hslots k x (by omega) hx

/-- The commit point: after the header is written the disk stands for the new state. -/
theorem Pending.commit (h : s.Pending g) (hdisk : s.OnDisk g) (hslots : s.Slots g s.lh.length)
    (hpos : 0 < s.lh.length) (hfits : s.lh.length < g.size) (hphase : s.phase = .writeHead) :
    (s.diskWrite g).OnDisk g ∧ (s.diskWrite g).Installing g 0 ∧ (s.diskWrite g).Unfinished 0 := by
  have hstep : s.diskWrite g = { s.writeHead g with
      phase := .install 0
      ghost := { s.ghost with hist := s.ghost.hist ++ [s.ghost.cur], cur := [] } } := by
    simp only [State.diskWrite, hphase]
  have hcommitted : (s.diskWrite g).committed = replay s.committed s.ghost.cur := by
    rw [hstep]
    simp only [committed, List.flatten_append, List.flatten_cons, List.flatten_nil,
      List.append_nil]
    exact Redo.replay_append _ _
  have hdiskEq : (s.diskWrite g).disk =
      update s.disk g.start (Log.writeHead s.lh (s.bread g.start)) := by
    rw [hstep]
    rfl
  have hlh : (s.diskWrite g).lh = s.lh := by rw [hstep]; rfl
  have hhead : (s.diskWrite g).diskHead g = s.lh := by
    have hlen := h.length_le
    rw [diskHead, hdiskEq, update_self]
    refine readHead_writeHead _ (Nat.lt_of_le_of_lt hlen ?_) h.fits_uint
    decide
  have hdirty : (s.diskWrite g).dirty = update s.dirty g.start false := by
    rw [hstep]
    exact (sameStore_writeHead g s).dirty_eq.trans dirty_bwrite
  refine ⟨⟨⟨fun k b hk => ?_, fun b hb hbL => ?_⟩, ?_, ?_⟩, ?_, ?_⟩
  · rw [hhead] at hk
    rw [hcommitted, hdiskEq, update_of_ne slot_ne_start]
    exact hslots k b (List.getElem?_eq_some_iff.mp hk).1 hk
  · rw [hhead] at hbL
    rw [hcommitted, hdiskEq, update_of_ne (ne_of_outside hb inLog_start),
      h.home hdisk hb]
    refine (Redo.replay_of_not_mem _ fun w hw hwb => hbL ?_).symm
    exact hwb ▸ h.covers w hw
  · rw [hhead]
    exact h.outside
  · rw [hhead]
    exact hfits
  · refine ⟨hhead.trans hlh.symm, hlh ▸ hpos, by rw [hstep], Redo.installed_zero, fun b hb => ?_⟩
    rw [hlh, List.drop_zero, ← h.pinned b]
    rw [hdirty] at hb
    grind
  · rw [Unfinished, hlh, hdirty]
    refine ⟨h.nodup, fun b hb => ?_⟩
    rw [List.drop_zero] at hb
    rw [update_of_ne (ne_of_outside (h.outside b hb) inLog_start)]
    exact (h.pinned b).mpr hb

/-- A turn of `install_trans`. -/
theorem Installing.installSlot (h : s.Installing g tail) (hdisk : s.OnDisk g) (hclean : s.Clean) :
    (s.installSlot g tail).OnDisk g ∧
      Redo.Installed s.committed s.lh (tail + 1) (s.installSlot g tail).disk ∧
      (s.installSlot g tail).diskHead g = s.lh ∧
      ∀ b, (s.installSlot g tail).dirty b = true → b ∈ s.lh.drop (tail + 1) := by
  obtain ⟨b, hb⟩ : ∃ b, s.lh[tail]? = some b := ⟨_, List.getElem?_eq_getElem h.tail_lt⟩
  have houtside : ∀ x ∈ s.lh, ¬ g.InLog x := h.head_eq ▸ hdisk.outside
  have hfits : s.lh.length < g.size := h.head_eq ▸ hdisk.fits
  have hbout := houtside b (List.mem_of_getElem? hb)
  have hslot : ∀ k, k < s.lh.length → g.InLog (g.slot k) := fun k hk =>
    inLog_slot (Nat.lt_of_le_of_lt hk hfits)
  -- the slot is not dirty, so its buffer agrees with the disk
  have hread : s.bread (g.slot tail) = s.disk (g.slot tail) := by
    refine hclean _ ?_
    grind [List.mem_of_mem_drop, h.pinned]
  have e := sameStore_installSlot g s tail
  rw [getD_of_getElem? hb, hread] at e
  have hlogged := hdisk.logged
  rw [h.head_eq] at hlogged
  have hhead : (s.installSlot g tail).diskHead g = s.lh := by
    rw [diskHead_congr e.disk_eq, diskHead_bwrite_of_ne (ne_of_outside hbout inLog_start),
      h.head_eq]
  have hinstall := hlogged.install hb
  have hdiskEq : (s.installSlot g tail).disk = update s.disk b (s.disk (g.slot tail)) :=
    e.disk_eq
  refine ⟨⟨⟨fun k x hk => ?_, fun x hx hxL => ?_⟩, ?_, ?_⟩, ?_, hhead, fun x hx => ?_⟩
  · rw [hhead] at hk
    have hklt := (List.getElem?_eq_some_iff.mp hk).1
    rw [hdiskEq, update_of_ne (ne_of_outside hbout (hslot k hklt)).symm]
    exact hlogged.copied k x hk
  · rw [hhead] at hxL
    rw [hdiskEq]
    exact hinstall.home_eq x hx hxL
  · rw [hhead]
    exact houtside
  · rw [hhead]
    exact hfits
  · rw [hdiskEq]
    exact h.installed.next hlogged hb
  · rw [e.dirty_eq, dirty_bwrite] at hx
    grind [h.pinned, List.drop_eq_getElem_cons]

/-- The entries behind the one that is installed stay pinned. -/
theorem Unfinished.installSlot (h : s.Unfinished tail) (htail : tail < s.lh.length) :
    (s.installSlot g tail).Unfinished (tail + 1) := by
  refine ⟨h.1, fun b hb => ?_⟩
  have hlater : b ∈ s.lh.drop (tail + 1) := hb
  have hdrop : s.lh.drop tail = s.lh[tail] :: s.lh.drop (tail + 1) :=
    List.drop_eq_getElem_cons htail
  have hnodup := h.1.sublist (List.drop_sublist tail s.lh)
  rw [hdrop, List.nodup_cons] at hnodup
  have hne : b ≠ s.lh.getD tail 0 := by
    rintro rfl
    rw [getD_of_getElem? (List.getElem?_eq_getElem htail)] at hlater
    exact hnodup.1 hlater
  rw [(sameStore_installSlot g s tail).dirty_eq, dirty_bwrite, update_of_ne hne]
  refine h.2 b ?_
  rw [hdrop]
  exact List.mem_cons_of_mem _ hlater

/-- `install_trans` goes on to the next entry. -/
theorem Installing.step (h : s.Installing g tail) (hdisk : s.OnDisk g) (hclean : s.Clean)
    (hlt : tail + 1 < s.lh.length) : (s.installSlot g tail).Installing g (tail + 1) := by
  obtain ⟨-, hinstalled, hhead, hpinned⟩ := h.installSlot hdisk hclean
  exact ⟨hhead, hlt, h.cur_nil, hinstalled, hpinned⟩

/-- `install_trans` is done and the entries in memory are dropped. -/
theorem Installing.done (h : s.Installing g tail) (hdisk : s.OnDisk g) (hclean : s.Clean)
    (hlast : ¬ tail + 1 < s.lh.length) : ({ s.installSlot g tail with lh := [] }).Settled g := by
  obtain ⟨hdisk', hinstalled, hhead, hpinned⟩ := h.installSlot hdisk hclean
  have hall : tail + 1 = s.lh.length := by
    have := h.tail_lt
    omega
  refine ⟨rfl, h.cur_nil, fun b => ?_, fun b hb => ?_⟩
  · change (s.installSlot g tail).dirty b = false
    grind
  · have hlogged := hdisk'.logged
    rw [hhead] at hlogged
    rw [hall] at hinstalled
    exact hlogged.home_of_installed hinstalled hb

/-- The clearing `write_head`. -/
theorem Settled.clear (h : s.Settled g) :
    (s.writeHead g).OnDisk g ∧ (s.writeHead g).Pending g := by
  have hhead : (s.writeHead g).diskHead g = [] := by
    rw [diskHead, (sameStore_writeHead g s).disk_eq, h.lh_nil]
    simp only [State.bwrite, update_self]
    exact readHead_writeHead_nil _
  have hlh : (s.writeHead g).lh = [] := h.lh_nil
  have hcur : (s.writeHead g).ghost.cur = [] := h.cur_nil
  refine ⟨onDisk_of_home hhead fun b hb => ?_, ?_⟩
  · change update s.disk _ _ b = s.committed b
    rw [update_of_ne (ne_of_outside hb inLog_start)]
    exact h.home b hb
  · refine ⟨hhead, ?_, ?_, ?_, ?_, ?_, ?_, ?_⟩ <;> simp only [hlh, hcur]
    · exact fun b hb => nomatch hb
    · exact fun w hw => nomatch hw
    · intro b
      have hdirty : (s.writeHead g).dirty b = false := by
        rw [(sameStore_writeHead g s).dirty_eq, dirty_bwrite]
        grind [h.unpinned]
      simp [hdirty]
    · exact fun b hb => nomatch hb
    · exact fun b hb => nomatch hb
    · exact List.nodup_nil
    · exact .inr g.size_pos

/-- A turn of `install_trans`, in `commit` or in recovery: what is to be shown of the phase it
leads to. -/
theorem Installing.stored (h : s.Installing g tail) (hdisk : s.OnDisk g) (hclean : s.Clean) :
    (tail + 1 < s.lh.length → ∀ ph, ((s.installSlot g tail).Installing g (tail + 1) →
      (s.installSlot g tail).InPhase g ph) → { s.installSlot g tail with phase := ph }.Stored g) ∧
    (¬ tail + 1 < s.lh.length → ∀ ph, ({ s.installSlot g tail with lh := [] }.Settled g →
      { s.installSlot g tail with lh := [] }.InPhase g ph) →
      { s.installSlot g tail with phase := ph, lh := [] }.Stored g) := by
  have hdisk' := (h.installSlot hdisk hclean).1
  have hclean' : (s.installSlot g tail).Clean :=
    (sameStore_installSlot g s tail).clean hclean.bwrite
  refine ⟨fun hlt ph hph => ?_, fun hlast ph hph => ?_⟩
  · have e : SameStore (s.installSlot g tail) { s.installSlot g tail with phase := ph } :=
      ⟨rfl, rfl, rfl, rfl, rfl, rfl⟩
    exact ⟨e.onDisk hdisk', e.clean hclean', e.inPhase (hph (h.step hdisk hclean hlt))⟩
  · have e : SameStore { s.installSlot g tail with lh := [] }
        { s.installSlot g tail with phase := ph, lh := [] } := ⟨rfl, rfl, rfl, rfl, rfl, rfl⟩
    exact ⟨hdisk'.congr rfl rfl, hclean', e.inPhase (hph (h.done hdisk hclean hlast))⟩

/-- Before it writes the first slot, the log has got a buffer for it. -/
theorem Pending.fits_of_needs (h : s.Pending g) (htail : tail < s.lh.length)
    (hlater : 0 < tail → s.lh.length < g.size) (hheld : s.bcache.Holds .log (g.slot tail)) :
    s.lh.length < g.size := by
  by_cases hzero : tail = 0
  · subst hzero
    have hsize : 0 + 1 < g.size := by
      have hlog := h.fits_log
      simp only [LOGSIZE, MAXOPBLOCKS] at hlog
      omega
    exact h.fits (inLog_slot hsize) hheld
  · exact hlater (Nat.pos_of_ne_zero hzero)

/-- Every block write keeps the disk recoverable. -/
theorem Stored.diskWrite (h : s.Stored g) (hneeds : ∀ b ∈ s.needs g, s.bcache.Holds .log b) :
    (s.diskWrite g).Stored g := by
  have hdisk := h.onDisk
  have hclean := h.clean
  cases hph : s.phase with
  | running | finish | down =>
    have hstep : s.diskWrite g = s := by simp only [State.diskWrite, hph]
    rw [hstep]
    exact h
  | writeLog tail =>
    obtain ⟨hpending, hlt, hslots, hlater⟩ := h.of_phase hph
    have hheld : s.bcache.Holds .log (g.slot tail) := hneeds _ (by simp [needs, hph])
    have hfits := hpending.fits_of_needs hlt hlater hheld
    obtain ⟨hdisk', hpending', hslots'⟩ := hpending.writeSlot hdisk hslots hlt hfits
    have e : SameStore (s.writeSlot g tail) (s.diskWrite g) := by
      simp only [State.diskWrite, hph]
      exact ⟨rfl, rfl, rfl, rfl, rfl, rfl⟩
    have hclean' : (s.writeSlot g tail).Clean := (sameStore_writeSlot g s tail).clean hclean.bwrite
    refine ⟨e.onDisk hdisk', e.clean hclean', e.inPhase ?_⟩
    by_cases hmore : tail + 1 < s.lh.length
    · rw [show (s.diskWrite g).phase = .writeLog (tail + 1) by
        simp only [State.diskWrite, hph, if_pos hmore]]
      exact ⟨hpending', hmore, hslots', fun _ => hfits⟩
    · rw [show (s.diskWrite g).phase = .writeHead by
        simp only [State.diskWrite, hph, if_neg hmore]]
      refine ⟨hpending', Nat.zero_lt_of_lt hlt, ?_, hfits⟩
      have hall : (s.writeSlot g tail).lh.length = tail + 1 := by
        change s.lh.length = tail + 1
        omega
      rw [hall]
      exact hslots'
  | writeHead =>
    obtain ⟨hpending, hpos, hslots, hfits⟩ := h.of_phase hph
    obtain ⟨hdisk', hinstalling⟩ := hpending.commit hdisk hslots hpos hfits hph
    have hstep : (s.diskWrite g).phase = .install 0 := by simp only [State.diskWrite, hph]
    refine ⟨hdisk', ?_, hstep ▸ hinstalling⟩
    have hclean' : (s.writeHead g).Clean := (sameStore_writeHead g s).clean hclean.bwrite
    simp only [State.diskWrite, hph]
    exact hclean'
  | install tail =>
    obtain ⟨hinstalling, hunfinished⟩ := h.of_phase hph
    obtain ⟨hmore, hlast⟩ := hinstalling.stored hdisk hclean
    simp only [State.diskWrite, hph]
    split
    · next hlt =>
      exact hmore hlt (.install (tail + 1)) fun hnext =>
        ⟨hnext, hunfinished.installSlot hinstalling.tail_lt⟩
    · next hdone => exact hlast hdone .clear id
  | recover tail =>
    have hinstalling : s.Installing g tail := h.of_phase hph
    obtain ⟨hmore, hlast⟩ := hinstalling.stored hdisk hclean
    simp only [State.diskWrite, hph]
    split
    · next hlt => exact hmore hlt (.recover (tail + 1)) id
    · next hdone => exact hlast hdone .recoverClear id
  | clear | recoverClear =>
    obtain ⟨hdisk', hpending⟩ := Settled.clear (s := s) (h.of_phase hph)
    have e : SameStore (s.writeHead g) (s.diskWrite g) := by
      simp only [State.diskWrite, hph]
      exact ⟨rfl, rfl, rfl, rfl, rfl, rfl⟩
    have hclean' : (s.writeHead g).Clean := (sameStore_writeHead g s).clean hclean.bwrite
    refine ⟨e.onDisk hdisk', e.clean hclean', e.inPhase ?_⟩
    simp only [State.diskWrite, hph]
    exact hpending

/-! ## The other steps -/

theorem mem_logAppend_lh {x : ℕ} : x ∈ (s.logAppend p k b v).lh ↔ x = b ∨ x ∈ s.lh := by
  by_cases hb : b ∈ s.lh
  · simp only [logAppend, if_pos hb]
    exact ⟨.inr, fun h => h.elim (fun hx => hx ▸ hb) id⟩
  · simp only [logAppend, if_neg hb, List.mem_append, List.mem_singleton]
    exact or_comm

theorem bread_logAppend (hb : s.bcache.lookup b ≠ none) :
    (s.logAppend p k b v).bread = update s.bread b v :=
  Bcache.contents_store hb

theorem dirty_logAppend (hb : s.bcache.lookup b ≠ none) :
    (s.logAppend p k b v).dirty = update s.dirty b true :=
  Bcache.dirty_store hb

theorem Clean.logAppend (h : s.Clean) (hb : s.bcache.lookup b ≠ none) :
    (s.logAppend p k b v).Clean := by
  intro x hx
  rw [dirty_logAppend hb] at hx
  rw [bread_logAppend hb]
  by_cases hxb : x = b
  · rw [hxb, update_self] at hx
    cases hx
  · rw [update_of_ne hxb] at hx ⊢
    exact h x hx

/-- `log_write` adds its block to the current group. -/
theorem Pending.logAppend (h : s.Pending g) (houtside : ¬ g.InLog b) (huint : b < 2 ^ 32)
    (hcached : s.bcache.lookup b ≠ none)
    (hroom : b ∈ s.lh ∨ LOGSIZE ≤ g.size ∨ s.lh.length + 1 < g.size) :
    (s.logAppend p k b v).Pending g := by
  have hlh : (s.logAppend p k b v).lh.Nodup ∧
      (LOGSIZE ≤ g.size ∨ (s.logAppend p k b v).lh.length < g.size) := by
    by_cases hb : b ∈ s.lh
    · simp only [State.logAppend, if_pos hb]
      exact ⟨h.nodup, h.fits_log⟩
    · simp only [State.logAppend, if_neg hb, List.length_append, List.length_singleton]
      refine ⟨?_, hroom.resolve_left hb⟩
      rw [← List.concat_eq_append, List.nodup_concat]
      exact ⟨hb, h.nodup⟩
  have hreplay : replay s.committed (s.ghost.cur ++ [⟨k, b, v⟩]) =
      update (replay s.committed s.ghost.cur) b v := Redo.replay_concat _ _
  refine ⟨h.head_nil, fun x hx => ?_, fun w hw => ?_, fun x => ?_, fun x hx => ?_, fun x hx => ?_,
    hlh.1, hlh.2⟩
  · change _ = replay s.committed (s.ghost.cur ++ [⟨k, b, v⟩]) x
    rw [bread_logAppend hcached, hreplay]
    by_cases hxb : x = b
    · rw [hxb, update_self, update_self]
    · rw [update_of_ne hxb, update_of_ne hxb]
      exact h.held x ((mem_logAppend_lh.mp hx).resolve_left hxb)
  · rw [mem_logAppend_lh]
    rcases List.mem_append.mp hw with hold | hnew
    · exact .inr (h.covers w hold)
    · rw [List.mem_singleton.mp hnew]
      exact .inl rfl
  · rw [mem_logAppend_lh, dirty_logAppend hcached]
    by_cases hxb : x = b
    · rw [hxb, update_self]
      exact ⟨fun _ => .inl rfl, fun _ => rfl⟩
    · rw [update_of_ne hxb, h.pinned x]
      exact ⟨.inr, fun hor => hor.resolve_left hxb⟩
  · rcases mem_logAppend_lh.mp hx with rfl | hold
    · exact houtside
    · exact h.outside x hold
  · rcases mem_logAppend_lh.mp hx with rfl | hold
    · exact huint
    · exact h.fits_uint x hold

/-- A crash: what the disk stands for does not change. -/
theorem Stored.crash (h : s.Stored g) : s.crash.Stored g :=
  ⟨h.onDisk.congr rfl rfl, fun b _ => congrFun Bcache.contents_empty b,
    ⟨rfl, rfl, fun _ => Bcache.dirty_empty⟩⟩

theorem sameStore_bget {h : Holder} {c : Bcache} (hclean : s.Clean)
    (hget : s.bcache.bget s.disk h b = some c) : SameStore s { s with bcache := c } :=
  .of_sameData (Bcache.sameData_bget hget hclean)

section

variable (h : s.Stored g)

include h

/-- A step that changes neither the store nor the phase. -/
theorem Stored.congr (e : SameStore s t) (hphase : t.phase = s.phase) : t.Stored g :=
  ⟨e.onDisk h.onDisk, e.clean h.clean, hphase ▸ e.inPhase h.inPhase⟩

/-- `read_head` finds the entries of the group to install. -/
theorem Stored.boot (hdown : s.phase = .down) : (s.boot g).Stored g := by
  unfold State.boot
  split
  · exact h.congr ⟨rfl, rfl, rfl, rfl, rfl, rfl⟩ rfl
  next bcache hget =>
  dsimp only
  have e : SameStore s
      { s with bcache := (bcache.acquire .log g.start).brelse .log g.start } :=
    ((sameStore_bget h.clean hget).trans (sameStore_acquire _ .log g.start)).trans
      (sameStore_brelse _ .log g.start)
  obtain ⟨hdisk, hclean, hphase⟩ := h.congr e rfl
  rw [hdown] at hphase
  obtain ⟨-, hcur, hunpinned⟩ := hphase
  obtain ⟨L, hL⟩ : ∃ L, s.diskHead g = L := ⟨_, rfl⟩
  have hread : readHead (bcache.contents s.disk g.start) = L := by
    have hsame := congrFun (Bcache.sameData_bget hget h.clean).contents_eq g.start
    have hdirty : s.dirty g.start = false := (congrFun e.dirty_eq g.start).symm.trans (hunpinned _)
    rw [← hL, diskHead, ← h.clean _ hdirty, hsame]
    rfl
  simp only [hread]
  split
  · next hpos =>
    refine ⟨hdisk.congr rfl rfl, hclean, ?_⟩
    refine ⟨(diskHead_congr rfl).trans hL, hpos, hcur, Redo.installed_zero, fun b hb => ?_⟩
    exact absurd ((hunpinned b).symm.trans hb) Bool.false_ne_true
  · next hzero =>
    refine ⟨hdisk.congr rfl rfl, hclean, rfl, hcur, hunpinned, ?_⟩
    intro b hb
    refine hdisk.logged.home_eq b hb ?_
    rw [show diskHead g { s with bcache := (bcache.acquire .log g.start).brelse .log g.start } = L
      from hL, List.eq_nil_of_length_eq_zero (Nat.eq_zero_of_not_pos hzero)]
    exact List.not_mem_nil

theorem Stored.bget (k : Holder) : (s.bget k b).Stored g := by
  unfold State.bget
  split
  · exact h.congr ⟨rfl, rfl, rfl, rfl, rfl, rfl⟩ rfl
  · next hget => exact h.congr (sameStore_bget h.clean hget) rfl

theorem Stored.beginOp : (s.beginOp p).Stored g := by
  unfold State.beginOp
  split
  · exact h.congr ⟨rfl, rfl, rfl, rfl, rfl, rfl⟩ rfl
  split <;> exact h.congr ⟨rfl, rfl, rfl, rfl, rfl, rfl⟩ rfl

theorem Stored.logCheck : (s.logCheck g p k b v).Stored g := by
  unfold State.logCheck
  split
  · exact h.congr ⟨rfl, rfl, rfl, rfl, rfl, rfl⟩ rfl
  split <;> exact h.congr ⟨rfl, rfl, rfl, rfl, rfl, rfl⟩ rfl

/-- The last `end_op` starts the commit of the pending group. -/
theorem Stored.endOp (hrunning : s.phase = .running) : (s.endOp p k).Stored g := by
  have hpending : s.Pending g := h.of_phase hrunning
  unfold State.endOp
  dsimp only
  split
  · exact h.congr ⟨rfl, rfl, rfl, rfl, rfl, rfl⟩ rfl
  split
  · refine ⟨h.onDisk.congr rfl rfl, h.clean, ?_⟩
    have e : ∀ t : State, SameStore s t → t.Pending g := fun t e => e.pending hpending
    dsimp only
    split
    · next hpos =>
      exact ⟨e _ ⟨rfl, rfl, rfl, rfl, rfl, rfl⟩, hpos, fun k b hk => absurd hk k.not_lt_zero,
        fun hlater => absurd hlater (Nat.lt_irrefl 0)⟩
    · exact e _ ⟨rfl, rfl, rfl, rfl, rfl, rfl⟩
  · exact h.congr ⟨rfl, rfl, rfl, rfl, rfl, rfl⟩ rfl

theorem Stored.finish (hfinish : s.phase = .finish) : s.finish.Stored g := by
  have hpending : s.Pending g := h.of_phase hfinish
  have e : SameStore s s.finish := ⟨rfl, rfl, rfl, rfl, rfl, rfl⟩
  exact ⟨e.onDisk h.onDisk, e.clean h.clean, e.pending hpending⟩

end

/-! ## The invariant -/

/-- The block writes leave the buffers of processes alone. -/
theorem holds_diskWrite {x : ℕ} (hx : s.bcache.Holds (.proc p) x)
    (hneeds : ∀ b ∈ s.needs g, s.bcache.Holds .log b) :
    (s.diskWrite g).bcache.Holds (.proc p) x := by
  have hne : ∀ b ∈ s.needs g, x ≠ b := fun b hb => hx.block_ne (hneeds b hb) nofun
  cases hphase : s.phase with
  | running | finish | down =>
    simp only [State.diskWrite, hphase]
    exact hx
  | writeLog tail =>
    simp only [needs, hphase, List.forall_mem_cons] at hne
    simp only [State.diskWrite, hphase]
    exact (hx.store.brelse hne.2.1).brelse hne.1
  | install tail | recover tail =>
    simp only [needs, hphase, List.forall_mem_cons] at hne
    simp only [State.diskWrite, hphase]
    split
    · exact (hx.store.brelse hne.1).brelse hne.2.1
    · exact (hx.store.brelse hne.1).brelse hne.2.1
  | writeHead | clear | recoverClear =>
    simp only [needs, hphase, List.forall_mem_cons] at hne
    simp only [State.diskWrite, hphase]
    exact hx.store.brelse hne.1

/-- A process in `log_write` keeps its buffer, whatever happens. -/
theorem holds_next {q : ℕ} (hc : s.Counted) (hq : s.ops q = .checked k b v)
    (hheld : s.bcache.Holds (.proc q) b) (enabled : s.Enabled g l) (hl : l ≠ .crash) :
    (s.next g l).bcache.Holds (.proc q) b := by
  cases l with
  | crash => exact (hl rfl).elim
  | beginOp p =>
    simp only [State.next, State.beginOp]
    split
    · exact hheld
    split <;> exact hheld
  | logCheck p block data =>
    obtain ⟨j, hj⟩ := enabled.2.1.eq
    simp only [State.next, hj, State.logCheck]
    split
    · exact hheld
    split <;> exact hheld
  | logAppend p =>
    obtain ⟨j, c, w, hj⟩ := enabled.2.eq
    simp only [State.next, hj]
    exact hheld.store
  | endOp p =>
    obtain ⟨j, hj⟩ := enabled.2.eq
    simp only [State.next, hj, State.endOp]
    split
    · exact hheld
    split <;> exact hheld
  | diskWrite => exact holds_diskWrite hheld enabled.2.2
  | finish => exact hheld
  | boot =>
    have hrunning := hc.running (p := q) (k := k) (opOf_eq hq)
    exact absurd (hrunning.symm.trans enabled.2) Phase.noConfusion
  | bget h x =>
    simp only [State.next, State.bget]
    split
    · exact hheld
    · next hget => exact hheld.bget hget
  | acquire h x => exact hheld.acquire enabled.2.2
  | brelse p x =>
    have hpq : q ≠ p := by
      rintro rfl
      have hout := enabled.2.1
      rw [hq] at hout
      exact hout
    refine hheld.brelse (hheld.block_ne enabled.2.2 ?_)
    exact fun heq => hpq (Holder.proc.inj heq)

theorem Calls.next (h : s.Calls g) (hc : s.Counted) (enabled : s.Enabled g l)
    (hout : s.LogsOutside g l) : (s.next g l).Calls g := by
  intro q k b v hq
  have hcrash : l ≠ .crash := by
    rintro rfl
    cases hq
  rcases checked_next enabled hq with hold | ⟨rfl, hactive, -⟩
  · obtain ⟨houtside, huint, hheld⟩ := h q k b v hold
    exact ⟨houtside, huint, holds_next hc hold hheld enabled hcrash⟩
  · refine ⟨hout, enabled.2.2.1, ?_⟩
    simp only [State.next, hactive, State.logCheck]
    split
    · exact enabled.2.2.2
    split <;> exact enabled.2.2.2

theorem Recoverable.next (h : s.Recoverable g) (enabled : s.Enabled g l)
    (hout : s.LogsOutside g l) (hroom : s.FindsRoom g l) : (s.next g l).Recoverable g := by
  refine ⟨h.counted.next enabled, h.recorded.next h.counted enabled,
    h.calls.next h.counted enabled hout, ?_⟩
  have hstored := h.stored
  cases l with
  | crash => exact hstored.crash
  | beginOp p => exact hstored.beginOp
  | logCheck p block data =>
    obtain ⟨k, hk⟩ := enabled.2.1.eq
    simp only [State.next, hk]
    exact hstored.logCheck
  | logAppend p =>
    obtain ⟨k, b, v, hk⟩ := enabled.2.eq
    have hphase : s.phase = .running :=
      h.counted.running (p := p) (k := k) (opOf_eq hk)
    have hpending : s.Pending g := hstored.of_phase hphase
    obtain ⟨houtside, huint, hheld⟩ := h.calls p k b v hk
    have hfits : s.CallFits g (s.ops p) := hroom
    rw [hk] at hfits
    simp only [State.next, hk]
    refine ⟨hstored.onDisk.congr rfl rfl, hstored.clean.logAppend hheld.cached, ?_⟩
    rw [show (s.logAppend p k b v).phase = .running from hphase]
    exact hpending.logAppend houtside huint hheld.cached hfits
  | endOp p =>
    obtain ⟨k, hk⟩ := enabled.2.eq
    simp only [State.next, hk]
    exact hstored.endOp (h.counted.running (p := p) (k := k) (opOf_eq hk))
  | diskWrite => exact hstored.diskWrite enabled.2.2
  | finish => exact hstored.finish enabled.2
  | boot => exact hstored.boot enabled.2
  | bget k b => exact hstored.bget k
  | acquire k b => exact hstored.congr (sameStore_acquire s k b) rfl
  | brelse p b => exact hstored.congr (sameStore_brelse s (.proc p) b) rfl

theorem recoverable_of_init (h : s.Init g) : s.Recoverable g := by
  have hhead : s.diskHead g = [] := h.1
  have hs := h.2
  have hhome : ∀ b, s.disk b = s.committed b := by
    intro b
    rw [committed, hs]
    rfl
  refine ⟨counted_of_init h, recorded_of_init h, fun p k b v hp => ?_, ?_, fun b _ => ?_, ?_⟩
  · rw [hs] at hp
    cases hp
  · exact onDisk_of_home hhead fun b _ => hhome b
  · rw [hs]
    exact congrFun Bcache.contents_empty b
  · rw [hs]
    exact ⟨rfl, rfl, fun _ => Bcache.dirty_empty⟩

end State

open State

variable {g : Geometry} {s : State}

/-- The condition of the results below, on each step of a run. -/
def Safe (g : Geometry) (s : State) (l : Label) : Prop := s.LogsOutside g l ∧ s.FindsRoom g l
  deriving Decidable

theorem recoverable_of_reachable (h : ((system g).restrict (Safe g)).Reachable s) :
    s.Recoverable g :=
  h.invariant (fun _ hs => recoverable_of_init hs)
    fun _ _ hs enabled => hs.next enabled.1 enabled.2.1 enabled.2.2

/-- In every run in which operations log blocks outside the log area and no append
overruns a log smaller than `LOGSIZE`: when `recover_from_log` makes its last block write,
every home block holds what the committed groups put there, the header is empty, and every
committed group is a union of whole operations. -/
theorem recovery_restores_committed (h : ((system g).restrict (Safe g)).Reachable s)
    (hphase : s.phase = .recoverClear) :
    ((s.next g .diskWrite).phase = .running ∧
      headCount ((s.next g .diskWrite).disk g.start) = 0) ∧
    (∀ b, ¬ g.InLog b → (s.next g .diskWrite).disk b = replay s.ghost.base s.ghost.hist.flatten b) ∧
    ∀ group ∈ s.ghost.hist, ∀ w ∈ group,
      w.op ∈ s.ghost.ended ∧ Write.of w.op group = Write.of w.op s.ghost.trace := by
  have hinv := recoverable_of_reachable h
  have hsettled : s.Settled g := hinv.stored.of_phase hphase
  obtain ⟨hdisk, hpending⟩ := hsettled.clear
  have hstep : s.next g .diskWrite = { s.writeHead g with phase := .running } := by
    simp only [next, diskWrite, hphase]
  rw [hstep]
  refine ⟨⟨rfl, ?_⟩, fun b hb => hpending.home hdisk hb, hinv.recorded.hist_whole⟩
  have hnil : (readHead ((s.writeHead g).disk g.start)).length = 0 :=
    congrArg List.length hpending.head_nil
  rwa [readHead, List.length_map, List.length_range] at hnil

set_option maxRecDepth 10000 in
/-- Two operations share a commit that crashes while installing; recovery crashes once
more and then restores both. -/
theorem recovery_restores_two_operations :
    ∃ s, ((system mkfsLog).restrict (Safe mkfsLog)).Reachable s ∧
      (s.phase = .recoverClear ∧ s.ghost.hist.flatten.map Write.op = [0, 1, 1, 0]) ∧
      ∀ b, ¬ mkfsLog.InLog b →
        (s.next mkfsLog .diskWrite).disk b = replay s.ghost.base s.ghost.hist.flatten b := by
  obtain ⟨s, hreach, hphase, hops⟩ := Machine.exists_reachable_of_exec
    ((system mkfsLog).restrict (Safe mkfsLog))
    (bootLabels mkfsLog ++ [.beginOp 0, .beginOp 1] ++ logLabels 0 40 1 7 ++
      logLabels 1 40 2 8 ++ [.endOp 1] ++ logLabels 0 50 1 9 ++ [.endOp 0] ++
      copyLabels mkfsLog 0 [40, 41, 50] ++ takeLabels 2 ++ [.diskWrite] ++
      copyLabels mkfsLog 0 [40] ++ [.crash, .boot] ++ copyLabels mkfsLog 0 [40] ++
      [.crash, .boot] ++ copyLabels mkfsLog 0 [40, 41, 50])
    (s := {}) (P := fun s => s.phase = .recoverClear ∧
      s.ghost.hist.flatten.map Write.op = [0, 1, 1, 0]) ⟨by decide +kernel, rfl⟩
    (by decide +kernel)
  exact ⟨s, hreach, ⟨hphase, hops⟩, (recovery_restores_committed hreach hphase).2.1⟩

/-- A log of twenty blocks. -/
def smallLog : Geometry := ⟨2, 20, by decide⟩

set_option maxRecDepth 10000 in
/-- Two operations of ten blocks each. Their tenth calls of `log_write` pass the check
together, so the log gets twenty entries, and `write_log` writes the last one to block 22, the
first one after the log area. A crash right after leaves it there. -/
theorem write_log_overruns_log :
    ∃ s, ((system smallLog).restrict (LogsOutside smallLog)).Reachable s ∧
      s.phase = .recoverClear ∧ ¬ smallLog.InLog 22 ∧ s.ghost.hist = [] ∧
      (s.next smallLog .diskWrite).disk 22 0 ≠ replay s.ghost.base s.ghost.hist.flatten 22 0 := by
  obtain ⟨s, hreach, hphase, hlog, hhist, hbyte⟩ := Machine.exists_reachable_of_exec
    ((system smallLog).restrict (LogsOutside smallLog))
    (bootLabels smallLog ++ [.beginOp 0, .beginOp 1] ++ logLabels 0 100 9 7 ++
      logLabels 1 109 9 7 ++ checkLabels 0 118 7 ++ checkLabels 1 119 7 ++
      [.logAppend 0, .logAppend 1, .brelse 0 118, .brelse 1 119, .endOp 0, .endOp 1] ++
      copyLabels smallLog 0 (List.range' 100 20) ++ [.crash, .boot] ++ takeLabels 2)
    (s := {}) (P := fun s => s.phase = .recoverClear ∧ ¬ smallLog.InLog 22 ∧
      s.ghost.hist.isEmpty = true ∧ (s.next smallLog .diskWrite).disk 22 0 ≠
        replay s.ghost.base s.ghost.hist.flatten 22 0) ⟨by decide +kernel, rfl⟩
    (by decide +kernel)
  exact ⟨s, hreach, hphase, hlog, List.isEmpty_iff.mp hhist, hbyte⟩

end Xv6.Log
