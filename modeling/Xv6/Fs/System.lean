/-
# The inode layer as a machine

The file-system operations are sequences of calls of the inode layer, made by any number
of processes in any order. A call is one step: it runs under the sleep-lock of its inode,
and a call that finds the lock held waits, that is, it is not enabled. The only thing the
machine asks of the callers is what the kernel asks of them: references are used by those
that have them, and the contents and fields of an inode by those that have locked it.

Every reachable state is well formed. In particular the references on the disk own the
blocks, so nothing frees a block that is free.
-/

import Xv6.Lib.Machine
import Xv6.Fs.Cache

namespace Xv6.Fs

open Xv6.Lib

/-- The calls of the inode layer. -/
inductive Call
  | beginOp
  | endOp
  | iget (i : ℕ)
  | idup (k : Fin NINODE)
  | ilock (k : Fin NINODE)
  | iunlock (k : Fin NINODE)
  | iput (k : Fin NINODE)
  | ialloc (type : UInt16)
  /-- Set fields of a locked inode and call `iupdate`. -/
  | iupdate (k : Fin NINODE) (major minor nlink : UInt16)
  | readi (k : Fin NINODE) (off n : ℕ)
  | writei (k : Fin NINODE) (src : List UInt8) (off : ℕ)

/-- The caller has locked the inode in entry `k`. -/
def State.Locked (s : State) (k : Fin NINODE) : Prop :=
  0 < (s.icache k).ref ∧ (s.icache k).locked = true ∧ (s.icache k).valid = true
  deriving Decidable

/-- What the callers of the inode layer keep to. Offsets and lengths are of type `uint`, and
only numbers of inodes of the file system are looked up. -/
def Call.Proper (sb : Superblock) (s : State) : Call → Prop
  | .beginOp => True
  | .endOp => 1 ≤ s.outstanding
  | .iget i => i < sb.ninodes
  | .idup k => 0 < (s.icache k).ref
  | .ilock k => 0 < (s.icache k).ref
  | .iunlock k => s.Locked k
  | .iput k => 0 < (s.icache k).ref
  | .ialloc _ => True
  | .iupdate k _ _ _ => s.Locked k
  | .readi k off n => s.Locked k ∧ off < 2 ^ 32 ∧ n < 2 ^ 32
  | .writei k src off => s.Locked k ∧ off < 2 ^ 32 ∧ src.length < 2 ^ 32

instance (sb : Superblock) (s : State) (c : Call) : Decidable (c.Proper sb s) := by
  cases c <;> unfold Call.Proper <;> infer_instance

/-- The state after a call. -/
def Call.perform (sb : Superblock) (dev : Devsw) (s : State) : Call → Except Panic State
  | .beginOp => s.beginOp
  | .endOp => .ok s.endOp
  | .iget i => (s.iget i).map Prod.snd
  | .idup k => .ok (s.idup k)
  | .ilock k => s.ilock sb k
  | .iunlock k => s.iunlock k
  | .iput k => s.iput sb k
  | .ialloc type => (s.ialloc sb type).map Prod.snd
  | .iupdate k major minor nlink =>
    s.modify sb k fun d => { d with major := major, minor := minor, nlink := nlink }
  | .readi k off n => (s.readi sb dev k off n).map Prod.snd
  | .writei k src off => (s.writei sb dev k src off).map Prod.snd

/-- The machine. A run starts from a well-formed image with nothing in the cache and ends when
a call panics. -/
def system (sb : Superblock) (dev : Devsw) : Machine State Call where
  Init s := Image sb s.disk ∧ (∀ k, (s.icache k).ref = 0) ∧ s.lh = [] ∧ s.outstanding = 0
  Enabled s c := c.Proper sb s ∧ completes (c.perform sb dev s) = true
  next s c := match c.perform sb dev s with
    | .ok s' => s'
    | .error _ => s

instance (sb : Superblock) (dev : Devsw) (s : State) (c : Call) :
    Decidable ((system sb dev).Enabled s c) := inferInstanceAs (Decidable (_ ∧ _))

variable {E : Panic → Prop} {sb : Superblock} {dev : Devsw} {s s' : State} {k : Fin NINODE}
  {off n : ℕ} {src : List UInt8}

theorem ends_map_snd {α : Type} {x : Except Panic (α × State)} {P : State → Prop}
    (h : Ends E x fun r => P r.2) : Ends E (x.map Prod.snd) P := by
  cases x with
  | ok r => exact h
  | error e => exact h

/-- `readi` in a well-formed state changes nothing. -/
theorem State.readi_ends (h : WellFormed sb s) (hlocked : s.Locked k) (hn : n < 2 ^ 32) :
    Ends E (s.readi sb dev k off n) fun r => r.2 = s := by
  obtain ⟨href, -, hvalid⟩ := hlocked
  by_cases htype : (s.icache k).copy.type = T_DEV
  · unfold State.readi
    dsimp only
    rw [if_pos htype]
    split
    · split
      · exact .pure rfl
      · exact .pure rfl
    · exact .pure rfl
  · by_cases hgood : off ≤ (s.icache k).copy.size.toNat ∧ off + n < 2 ^ 32
    · rw [State.readi_eq (h.noHoles href hvalid) htype hn hgood.1 hgood.2]
      exact .ok rfl
    · rw [State.readi_bad htype hn hgood]
      exact .ok rfl

/-- `writei` writes the file, or fails and changes nothing. -/
theorem State.writei_spec (h : WellFormed sb s) (hE : Lax E) (hlocked : s.Locked k)
    (hn : src.length < 2 ^ 32) :
    Ends E (s.writei sb dev k src off) fun r =>
      r.2 = s ∨ r.1 = some src.length ∧ Written sb s k src off r.2 := by
  obtain ⟨href, -, hvalid⟩ := hlocked
  by_cases htype : (s.icache k).copy.type = T_DEV
  · unfold State.writei
    dsimp only
    rw [if_pos htype]
    split
    · split
      · exact .pure (.inl rfl)
      · exact .pure (.inl rfl)
    · exact .pure (.inl rfl)
  · by_cases hgood : off ≤ (s.icache k).copy.size.toNat ∧ off + src.length < 2 ^ 32 ∧
      off + src.length ≤ MAXFILE * BSIZE
    · exact (State.writei_ends h href hvalid htype hgood.1 hgood.2.2 hE.budget).mono
        fun r hr => .inr hr
    · rw [State.writei_bad htype hn hgood]
      exact .ok (.inl rfl)

/-- Opening and closing a transaction. -/
theorem WellFormed.congr (h : WellFormed sb s) (hdisk : s'.disk = s.disk)
    (hicache : s'.icache = s.icache) (hlh : s'.lh.Nodup) : WellFormed sb s' := by
  refine ⟨?_, ?_, ?_, ?_, ?_, hlh⟩
  · rw [hdisk]
    exact h.image
  all_goals simp only [hicache, hdisk]
  · exact h.inum_lt
  · exact h.inum_inj
  · exact h.copy_eq
  · exact h.type_ne

theorem State.beginOp_ends (hE : E .noRoom) : Ends E s.beginOp fun s' =>
    s' = { s with outstanding := s.outstanding + 1 } := by
  unfold State.beginOp
  exact .ite (fun _ => .error hE) fun _ => .ok rfl

theorem WellFormed.endOp (h : WellFormed sb s) : WellFormed sb s.endOp := by
  refine h.congr rfl rfl ?_
  unfold State.endOp
  dsimp only
  split
  · exact List.nodup_nil
  · exact h.lh_nodup

/-- A proper call in a well-formed state leaves a well-formed state, and frees no block that
is free. -/
theorem Call.perform_ends {c : Call} (h : WellFormed sb s) (hproper : c.Proper sb s) :
    Ends (fun e => e ≠ .freeingFree) (c.perform sb dev s) (WellFormed sb) := by
  have hE : Lax fun e => e ≠ .freeingFree := fun _ _ _ _ hne => hne
  cases c with
  | beginOp =>
    refine (State.beginOp_ends Panic.noConfusion).mono fun s' hs' => ?_
    rw [hs']
    exact h.congr rfl rfl h.lh_nodup
  | endOp => exact .ok h.endOp
  | iget i =>
    exact ends_map_snd ((State.iget_ends (.inl Panic.noConfusion)).mono
      fun r hr => h.got hr hproper)
  | idup k => exact .ok (h.idup hproper)
  | ilock k =>
    exact (State.ilock_ends h hE (.inl Panic.noConfusion) (.inl Panic.noConfusion)).mono
      fun s' hs' => hs'.2
  | iunlock k =>
    exact (State.iunlock_ends Panic.noConfusion).mono fun s' hs' => h.unlocks hs'
  | iput k =>
    exact (State.iput_ends h hE hproper (.inl Panic.noConfusion)).mono fun s' hs' => hs'.wf
  | ialloc type =>
    refine ends_map_snd ((State.ialloc_ends h hE).mono fun r hr => ?_)
    obtain ⟨i, hi⟩ := hr
    exact hi.wf
  | iupdate k major minor nlink =>
    obtain ⟨href, -, hvalid⟩ := hproper
    have hf : SameFile (s.icache k).copy { (s.icache k).copy with
        major := major, minor := minor, nlink := nlink } := ⟨rfl, rfl, rfl⟩
    exact (State.modify_ends (f := fun d => { d with
      major := major, minor := minor, nlink := nlink }) h hE href hvalid hf).mono
        fun s' hs' => hs'.wf
  | readi k off n =>
    refine ends_map_snd ((State.readi_ends h hproper.1 hproper.2.2).mono fun r hr => ?_)
    rw [hr]
    exact h
  | writei k src off =>
    refine ends_map_snd ((State.writei_spec h hE hproper.1 hproper.2.2).mono fun r hr => ?_)
    rcases hr with heq | ⟨-, hw⟩
    · rw [heq]
      exact h
    · exact hw.wf

/-- Every reachable state is well formed. -/
theorem wellFormed_of_reachable (h : (system sb dev).Reachable s) : WellFormed sb s := by
  refine h.invariant (fun s hs => ?_) fun s c hs henabled => ?_
  · obtain ⟨himage, hrefs, hlh, -⟩ := hs
    have hno : ∀ k, ¬ 0 < (s.icache k).ref := fun k => by
      rw [hrefs k]
      exact Nat.lt_irrefl 0
    refine ⟨himage, fun k hk => (hno k hk).elim, fun k _ hk => (hno k hk).elim,
      fun k hk => (hno k hk).elim, fun k hk => (hno k hk).elim, ?_⟩
    rw [hlh]
    exact List.nodup_nil
  · obtain ⟨hproper, hreturns⟩ := henabled
    have hends : Ends _ (c.perform sb dev s) (WellFormed sb) := Call.perform_ends hs hproper
    obtain ⟨s', hs'⟩ := exists_of_completes hreturns
    change WellFormed sb (match c.perform sb dev s with | .ok s' => s' | .error _ => s)
    rw [hs']
    exact hends.of_ok hs'

/-- Block ownership. In every reachable state a bit of the bitmap is set exactly for the
metadata and the blocks referred to once, no block is referred to twice, all blocks referred
to are in the data area, and no call frees a block that is free. -/
theorem blocks_owned_once (h : (system sb dev).Reachable s) :
    (∀ b < sb.size, sb.inUse s.disk b = true ↔
      sb.IsMeta b ∨ ∃! r, refOf sb s.disk (sb.dinode s.disk) r = some b) ∧
    (∀ r r' b, refOf sb s.disk (sb.dinode s.disk) r = some b →
      refOf sb s.disk (sb.dinode s.disk) r' = some b → r = r') ∧
    (∀ r b, refOf sb s.disk (sb.dinode s.disk) r = some b → sb.IsData b) ∧
    ∀ c : Call, c.Proper sb s → c.perform sb dev s ≠ .error .freeingFree := by
  have hwf := wellFormed_of_reachable h
  have howned := hwf.image.owned
  refine ⟨fun b hb => howned.used_iff_existsUnique ?_, howned.inj, howned.shared_of_ref,
    fun c hc herror => (Call.perform_ends hwf hc).of_error herror rfl⟩
  unfold Superblock.IsMeta Superblock.IsData
  omega

/-- A file system of seventeen blocks: ten for the log, one of inodes, the bitmap, and three
data blocks. -/
def small : Superblock where
  size := 17
  nblocks := 3
  ninodes := 4
  nlog := 10
  logstart := 2
  inodestart := 12
  bmapstart := 13
  log_fits := by decide
  inodes_fit := by decide
  bmap_fits := by decide
  size_lt := by decide

/-- The small file system without any file. -/
def smallDisk : Disk := fun b o =>
  if b = 13 then if o = 0 then 255 else if o = 1 then 63 else 0 else 0

theorem image_small : Image small smallDisk := by
  have hfree : ∀ i < small.ninodes, (small.dinode smallDisk i).type = 0 := by decide
  have hnone : ∀ r, refOf small smallDisk (small.dinode smallDisk) r = none := fun r =>
    refOf_eq_none.mpr fun hi ht => (ht (hfree _ hi)).elim
  have hbits : ∀ b < small.size, small.inUse smallDisk b = decide (small.IsMeta b) := by decide
  refine ⟨⟨fun b hb hmeta => ?_, fun b hb => ?_, fun r b hr => ?_, fun r _ b hr => ?_⟩,
    fun i hi ht => (ht (hfree i hi)).elim⟩
  · exact Nat.not_lt.mpr hb.1 hmeta
  · have hlt : b < small.size := hb.elim (fun h => Nat.lt_trans h (by decide)) And.right
    simp [hbits, hlt, hnone]
  all_goals
    rw [hnone] at hr
    cases hr

/-- Create a file in entry 0 and write a byte to it, in a transaction that stays open. -/
def createAndWrite : List Call :=
  [.beginOp, .ialloc T_FILE, .ilock ⟨0, ninode_pos⟩, .iupdate ⟨0, ninode_pos⟩ 0 0 1,
    .writei ⟨0, ninode_pos⟩ [65] 0]

set_option maxRecDepth 10000 in
theorem blocks_owned_once_after_write : ∃ s, (system small {}).Reachable s ∧
    small.inUse s.disk 14 = true ∧ ∃! r, refOf small s.disk (small.dinode s.disk) r = some 14 := by
  obtain ⟨s, hs, hused⟩ := Machine.exists_reachable_of_exec (system small {}) createAndWrite
    (s := { disk := smallDisk }) (P := fun s => small.inUse s.disk 14 = true)
    ⟨image_small, fun _ => rfl, rfl, rfl⟩ (by decide +kernel)
  have honce := ((blocks_owned_once hs).1 14 (by decide)).mp hused
  exact ⟨s, hs, hused, honce.resolve_left (by decide)⟩

end Xv6.Fs
