/-
# The buffer cache

`NBUF` buffers in a list, the one released last in front. `bget` finds the buffer of a
block, or takes the last one that nobody refers to and that is not dirty; when there is
none it panics. A buffer with `B_DIRTY` stays where it is until `commit` has written it
to its home.

A reference belongs to a process or to the code of the log; `refcnt` is their number. It
is taken before the sleep-lock of the buffer, so a buffer may be referred to by one holder
and any number that wait. `bread` reads a block that was not cached while it holds the
lock, and nobody can write the block without its buffer, so the contents are taken from
the disk with the buffer.
-/

import Xv6.Lib.KeyedTable
import Xv6.Log.Header

namespace Xv6.Log

open Function Xv6.Lib

/-- Buffers of the cache. -/
def NBUF : ℕ := MAXOPBLOCKS * 3

/-- Who refers to a buffer. -/
inductive Holder
  | proc (p : ℕ)
  /-- `commit` or `recover_from_log`. -/
  | log
  deriving DecidableEq

/-- `struct buf`. -/
structure Buf where
  /-- The block, from the first use of the buffer on. -/
  blockno : Option ℕ := none
  data : Bytes := fun _ => 0
  /-- `B_DIRTY`. -/
  dirty : Bool := false
  /-- Who is counted in `refcnt`. -/
  refs : List Holder := []
  /-- Who holds the sleep-lock. -/
  lock : Option Holder := none
  lock_mem : ∀ h, lock = some h → h ∈ refs := by simp

namespace Buf

/-- `bget` may take the buffer for another block. -/
def isFree (buf : Buf) : Bool := buf.refs.isEmpty && !buf.dirty

/-- `b->refcnt++`. -/
def use (h : Holder) (buf : Buf) : Buf :=
  { buf with
    refs := h :: buf.refs
    lock_mem := fun k hk => List.mem_cons_of_mem h (buf.lock_mem k hk) }

/-- `acquiresleep(&b->lock)`, when the lock is free. -/
def acquire (h : Holder) (buf : Buf) : Buf :=
  if hmem : h ∈ buf.refs then
    { buf with lock := some h, lock_mem := fun _ hk => Option.some.inj hk ▸ hmem }
  else buf

/-- `releasesleep(&b->lock)` and `b->refcnt--`. -/
def release (h : Holder) (buf : Buf) : Buf :=
  { buf with refs := buf.refs.erase h, lock := none, lock_mem := nofun }

/-- Put `data` in the buffer. -/
def store (data : Bytes) (dirty : Bool) (buf : Buf) : Buf := { buf with data, dirty }

theorem blockno_use (h : Holder) (buf : Buf) : (buf.use h).blockno = buf.blockno := rfl

theorem blockno_release (h : Holder) (buf : Buf) : (buf.release h).blockno = buf.blockno := rfl

theorem blockno_store (v : Bytes) (d : Bool) (buf : Buf) :
    (buf.store v d).blockno = buf.blockno := rfl

theorem blockno_acquire (h : Holder) (buf : Buf) : (buf.acquire h).blockno = buf.blockno := by
  rw [acquire]
  split <;> rfl

theorem data_acquire (h : Holder) (buf : Buf) : (buf.acquire h).data = buf.data := by
  rw [acquire]
  split <;> rfl

theorem dirty_acquire (h : Holder) (buf : Buf) : (buf.acquire h).dirty = buf.dirty := by
  rw [acquire]
  split <;> rfl

theorem isFree_iff {buf : Buf} : buf.isFree = true ↔ buf.refs = [] ∧ buf.dirty = false := by
  simp [isFree]

end Buf

/-- `bcache`. -/
abbrev Bcache : Type := KeyedTable Buf.blockno NBUF

namespace Bcache

variable {c c' : Bcache} {disk : ℕ → Bytes} {h k : Holder} {b x : ℕ} {buf : Buf} {v : Bytes}
  {d : Bool}

/-- No buffer has been used. -/
def empty : Bcache where
  cells := List.replicate NBUF {}
  unique := by
    have hnone : (List.replicate NBUF ({} : Buf)).filterMap Buf.blockno = [] := by
      rw [List.filterMap_eq_nil_iff]
      intro a ha
      rw [List.eq_of_mem_replicate ha]
    rw [hnone]
    exact List.nodup_nil
  length_eq := List.length_replicate

/-- `bget` and the read from the disk. `none` is the panic "bget: no buffers". -/
def bget (c : Bcache) (disk : ℕ → Bytes) (h : Holder) (b : ℕ) : Option Bcache :=
  match hfound : c.lookup b with
  | some _ => some (KeyedTable.modify c b (Buf.use h) (Buf.blockno_use h))
  | none =>
    KeyedTable.recycle c Buf.isFree { blockno := some b, data := disk b, refs := [h] }
      fun _ hb => Option.some.inj hb ▸ hfound

/-- The end of `bget` for a buffer that is referred to. -/
def acquire (c : Bcache) (h : Holder) (b : ℕ) : Bcache :=
  KeyedTable.modify c b (Buf.acquire h) (Buf.blockno_acquire h)

/-- `brelse`. A buffer that nobody refers to any more goes to the front. -/
def brelse (c : Bcache) (h : Holder) (b : ℕ) : Bcache :=
  let released : Bcache := KeyedTable.modify c b (Buf.release h) (Buf.blockno_release h)
  if (released.lookup b).any (·.refs.isEmpty) then KeyedTable.toFront released b else released

/-- Put `data` in the buffer of a block. -/
def store (c : Bcache) (b : ℕ) (data : Bytes) (dirty : Bool) : Bcache :=
  KeyedTable.modify c b (Buf.store data dirty) (Buf.blockno_store data dirty)

/-- What `bread` gives: the buffer's data, or what is on the disk. -/
def contents (c : Bcache) (disk : ℕ → Bytes) (b : ℕ) : Bytes :=
  match c.lookup b with
  | some buf => buf.data
  | none => disk b

/-- `B_DIRTY` of the buffer of a block. -/
def dirty (c : Bcache) (b : ℕ) : Bool := (c.lookup b).any Buf.dirty

/-- Somebody refers to the buffer of a block. -/
def Uses (c : Bcache) (h : Holder) (b : ℕ) : Prop := (c.lookup b).any (h ∈ ·.refs) = true

/-- Somebody holds the lock of the buffer of a block. -/
def Holds (c : Bcache) (h : Holder) (b : ℕ) : Prop := (c.lookup b).any (·.lock = some h) = true
  deriving Decidable

/-- The buffer of a block is not locked. -/
def Unlocked (c : Bcache) (b : ℕ) : Prop := (c.lookup b).all (·.lock = none) = true
  deriving Decidable

instance (c : Bcache) (h : Holder) (b : ℕ) : Decidable (c.Uses h b) :=
  inferInstanceAs (Decidable (_ = true))

theorem holds_iff : c.Holds h b ↔ ∃ buf, c.lookup b = some buf ∧ buf.lock = some h := by
  simp [Holds, Option.any_eq_true]

theorem dirty_eq_true : c.dirty b = true ↔ ∃ buf, c.lookup b = some buf ∧ buf.dirty = true := by
  simp [dirty, Option.any_eq_true]

/-- Different holders hold different buffers. -/
theorem Holds.block_ne (hc : c.Holds h b) (hk : c.Holds k x) (hne : h ≠ k) : b ≠ x := by
  rintro rfl
  obtain ⟨buf, hbuf, hlock⟩ := holds_iff.mp hc
  obtain ⟨buf', hbuf', hlock'⟩ := holds_iff.mp hk
  cases hbuf.symm.trans hbuf'
  exact hne (Option.some.inj (hlock.symm.trans hlock'))

theorem Holds.cached (hc : c.Holds h b) : c.lookup b ≠ none := by
  obtain ⟨buf, hbuf, -⟩ := holds_iff.mp hc
  rw [hbuf]
  exact nofun

theorem cached_of_dirty (hb : c.dirty b = true) : c.lookup b ≠ none := by
  obtain ⟨buf, hbuf, -⟩ := dirty_eq_true.mp hb
  rw [hbuf]
  exact nofun

theorem lookup_empty : empty.lookup b = none := by
  refine KeyedTable.lookup_eq_none.mpr fun a ha => ?_
  rw [List.eq_of_mem_replicate ha]
  exact nofun

/-- What `bget` does to the buffers of all blocks. -/
theorem bget_eq_some (hget : c.bget disk h b = some c') :
    ((∃ buf, c.lookup b = some buf ∧ c'.lookup b = some (buf.use h)) ∨
      c.lookup b = none ∧
        c'.lookup b = some { blockno := some b, data := disk b, refs := [h] }) ∧
    ∀ x, x ≠ b → c'.lookup x = c.lookup x ∨
      ∃ buf, c.lookup x = some buf ∧ buf.isFree = true ∧ c'.lookup x = none := by
  rw [bget] at hget
  split at hget
  · next buf hfound =>
    cases hget
    refine ⟨.inl ⟨buf, hfound, ?_⟩, fun x hx => .inl (KeyedTable.lookup_modify_of_ne hx)⟩
    refine KeyedTable.lookup_modify_self.trans ?_
    rw [hfound]
    rfl
  · next hfound =>
    obtain ⟨hnew, hold⟩ := KeyedTable.lookup_recycle hget rfl
    exact ⟨.inr ⟨hfound, hnew⟩, hold⟩

theorem lookup_acquire_self : (c.acquire h b).lookup b = (c.lookup b).map (Buf.acquire h) :=
  KeyedTable.lookup_modify_self

theorem lookup_acquire_of_ne (hx : x ≠ b) : (c.acquire h b).lookup x = c.lookup x :=
  KeyedTable.lookup_modify_of_ne hx

theorem lookup_store_self : (c.store b v d).lookup b = (c.lookup b).map (Buf.store v d) :=
  KeyedTable.lookup_modify_self

theorem lookup_store_of_ne (hx : x ≠ b) : (c.store b v d).lookup x = c.lookup x :=
  KeyedTable.lookup_modify_of_ne hx

theorem contents_store (hb : c.lookup b ≠ none) :
    (c.store b v d).contents disk = update (c.contents disk) b v := by
  obtain ⟨buf, hbuf⟩ := Option.ne_none_iff_exists'.mp hb
  funext x
  unfold contents
  by_cases hx : x = b
  · rw [hx, lookup_store_self, hbuf, update_self]
    rfl
  · rw [lookup_store_of_ne hx, update_of_ne hx]

theorem dirty_store (hb : c.lookup b ≠ none) :
    (c.store b v d).dirty = update c.dirty b d := by
  obtain ⟨buf, hbuf⟩ := Option.ne_none_iff_exists'.mp hb
  funext x
  unfold dirty
  by_cases hx : x = b
  · rw [hx, lookup_store_self, hbuf, update_self]
    rfl
  · rw [lookup_store_of_ne hx, update_of_ne hx]

/-- `brelse` moves the buffer at most. -/
theorem lookup_brelse :
    (c.brelse h b).lookup x =
      (KeyedTable.modify c b (Buf.release h) (Buf.blockno_release h)).lookup x := by
  unfold brelse
  extract_lets released
  split
  · exact KeyedTable.lookup_toFront
  · rfl

theorem lookup_brelse_self : (c.brelse h b).lookup b = (c.lookup b).map (Buf.release h) :=
  lookup_brelse.trans KeyedTable.lookup_modify_self

theorem lookup_brelse_of_ne (hx : x ≠ b) : (c.brelse h b).lookup x = c.lookup x :=
  lookup_brelse.trans (KeyedTable.lookup_modify_of_ne hx)

theorem contents_empty : empty.contents disk = disk := by
  funext x
  rw [contents, lookup_empty]

theorem dirty_empty : empty.dirty b = false := by
  rw [dirty, lookup_empty]
  rfl

/-- Two caches hold the same data over the same disk. -/
structure SameData (disk : ℕ → Bytes) (c c' : Bcache) : Prop where
  contents_eq : c'.contents disk = c.contents disk
  dirty_eq : c'.dirty = c.dirty

theorem SameData.of_lookup
    (hdata : ∀ x, (c'.lookup x).map (fun buf => (buf.data, buf.dirty)) =
      (c.lookup x).map fun buf => (buf.data, buf.dirty)) : SameData disk c c' := by
  constructor
  · funext x
    have hx := hdata x
    rw [contents, contents]
    cases hc : c.lookup x <;> cases hc' : c'.lookup x <;> simp [hc, hc'] at hx
    · rfl
    · exact hx.1
  · funext x
    have hx := hdata x
    rw [dirty, dirty]
    cases hc : c.lookup x <;> cases hc' : c'.lookup x <;> simp [hc, hc'] at hx
    · rfl
    · exact hx.2

theorem sameData_acquire : SameData disk c (c.acquire h b) := by
  refine .of_lookup fun x => ?_
  by_cases hx : x = b
  · rw [hx, lookup_acquire_self, Option.map_map]
    congr 1
    funext buf
    exact Prod.ext (Buf.data_acquire h buf) (Buf.dirty_acquire h buf)
  · rw [lookup_acquire_of_ne hx]

theorem sameData_brelse : SameData disk c (c.brelse h b) := by
  refine .of_lookup fun x => ?_
  by_cases hx : x = b
  · rw [hx, lookup_brelse_self, Option.map_map]
    rfl
  · rw [lookup_brelse_of_ne hx]

/-- A buffer that is taken for another block was clean, so its block reads the same. -/
theorem sameData_bget (hget : c.bget disk h b = some c')
    (hclean : ∀ x, c.dirty x = false → c.contents disk x = disk x) : SameData disk c c' := by
  obtain ⟨hself, hother⟩ := bget_eq_some hget
  have hcontents : ∀ x, c'.contents disk x = c.contents disk x ∧ c'.dirty x = c.dirty x := by
    intro x
    by_cases hx : x = b
    · subst hx
      rw [contents, contents, dirty, dirty]
      rcases hself with ⟨buf, hold, hnew⟩ | ⟨hold, hnew⟩
      · rw [hold, hnew]
        exact ⟨rfl, rfl⟩
      · rw [hold, hnew]
        exact ⟨rfl, rfl⟩
    · rcases hother x hx with hsame | ⟨buf, hold, hfree, hnew⟩
      · rw [contents, contents, dirty, dirty, hsame]
        exact ⟨rfl, rfl⟩
      · have hdirty : c.dirty x = false := by
          rw [dirty, hold]
          exact (Buf.isFree_iff.mp hfree).2
        rw [hdirty, hclean x hdirty, contents, dirty, hnew]
        exact ⟨rfl, rfl⟩
  exact ⟨funext fun x => (hcontents x).1, funext fun x => (hcontents x).2⟩

/-- What is in use stays in the cache, with its lock. -/
theorem lookup_bget_of_uses (hget : c.bget disk h b = some c') (hx : c.lookup x = some buf)
    (huse : k ∈ buf.refs) :
    ∃ buf', c'.lookup x = some buf' ∧ buf'.lock = buf.lock ∧ k ∈ buf'.refs := by
  obtain ⟨hself, hother⟩ := bget_eq_some hget
  by_cases hxb : x = b
  · subst hxb
    rcases hself with ⟨buf', hold, hnew⟩ | ⟨hold, -⟩
    · cases hx.symm.trans hold
      exact ⟨_, hnew, rfl, List.mem_cons_of_mem h huse⟩
    · cases hx.symm.trans hold
  · rcases hother x hxb with hsame | ⟨buf', hold, hfree, -⟩
    · exact ⟨buf, hsame.trans hx, rfl, huse⟩
    · cases hx.symm.trans hold
      rw [(Buf.isFree_iff.mp hfree).1] at huse
      cases huse

theorem Holds.bget (hc : c.Holds k x) (hget : c.bget disk h b = some c') : c'.Holds k x := by
  obtain ⟨buf, hbuf, hlock⟩ := holds_iff.mp hc
  obtain ⟨buf', hbuf', hlock', -⟩ := lookup_bget_of_uses hget hbuf (buf.lock_mem k hlock)
  exact holds_iff.mpr ⟨buf', hbuf', hlock'.trans hlock⟩

theorem Holds.acquire (hc : c.Holds k x) (hfree : c.Unlocked b) : (c.acquire h b).Holds k x := by
  obtain ⟨buf, hbuf, hlock⟩ := holds_iff.mp hc
  have hxb : x ≠ b := by
    rintro rfl
    rw [Unlocked, hbuf] at hfree
    simp [hlock] at hfree
  exact holds_iff.mpr ⟨buf, (lookup_acquire_of_ne hxb).trans hbuf, hlock⟩

theorem Holds.brelse (hc : c.Holds k x) (hxb : x ≠ b) : (c.brelse h b).Holds k x := by
  obtain ⟨buf, hbuf, hlock⟩ := holds_iff.mp hc
  exact holds_iff.mpr ⟨buf, (lookup_brelse_of_ne hxb).trans hbuf, hlock⟩

theorem Holds.store (hc : c.Holds k x) : (c.store b v d).Holds k x := by
  obtain ⟨buf, hbuf, hlock⟩ := holds_iff.mp hc
  by_cases hxb : x = b
  · subst hxb
    exact holds_iff.mpr ⟨buf.store v d, by rw [lookup_store_self, hbuf]; rfl, hlock⟩
  · exact holds_iff.mpr ⟨buf, (lookup_store_of_ne hxb).trans hbuf, hlock⟩

/-- Blocks that are all cached are at most as many as the buffers. -/
theorem length_le_nbuf {blocks : List ℕ} (hnodup : blocks.Nodup)
    (hcached : ∀ b ∈ blocks, c.lookup b ≠ none) : blocks.length ≤ NBUF :=
  KeyedTable.length_le_of_lookup hnodup hcached

end Bcache

end Xv6.Log
