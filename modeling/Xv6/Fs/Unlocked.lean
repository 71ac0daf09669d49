/-
# Locks are given back

What the functions on inodes do to the locks of the cache entries, whatever else happens: a
function that returns has released every lock it has taken, but for `ilock`, whose caller
releases it.
-/

import Xv6.Fs.Managed

namespace Xv6.Fs

open Function Xv6.Lib

variable {sb : Superblock} {dev : Devsw} {s s' : State} {k cwd : Fin NINODE}

theorem Quiet.locks_eq (h : Quiet s s') : s'.locks = s.locks := by
  funext l
  rw [State.locks, State.locks, h.1]

theorem locks_setInode (ip : Inode) :
    (s.setInode k ip).locks = update s.locks k ip.locked := by
  funext l
  by_cases hl : l = k
  · rw [hl, update_self, State.locks, icache_setInode_self]
  · rw [update_of_ne hl, State.locks, icache_setInode_of_ne _ hl, State.locks]

/-- A change of an entry that keeps its lock. -/
theorem locks_setInode_self {ip : Inode} (h : ip.locked = (s.icache k).locked) :
    (s.setInode k ip).locks = s.locks := by
  rw [locks_setInode, h]
  exact update_eq_self k s.locks

namespace State

theorem iget_locks (i : ℕ) : Yields (s.iget i) fun r => r.2.locks = s.locks :=
  (iget_ends (.inl trivial)).mono fun _ hr => hr.locks_eq

theorem ilock_locks : Yields (s.ilock sb k) fun s' =>
    s.locks k = false ∧ s'.locks = update s.locks k true := by
  rw [ilock]
  apply Ends.ite (fun _ => .error trivial)
  intro _
  apply Ends.ite (fun _ => .error trivial)
  intro hfree
  apply Ends.ite (fun _ => .error trivial)
  intro _
  exact .ok ⟨Bool.eq_false_of_not_eq_true hfree, locks_setInode _⟩

theorem iunlock_locks : Yields (s.iunlock k) fun s' =>
    s'.locks = update s.locks k false := by
  rw [iunlock]
  apply Ends.ite (fun _ => .error trivial)
  exact fun _ => .ok (locks_setInode _)

theorem release_locks : Yields (s.release sb k) fun s' => s'.locks = s.locks := by
  rw [release]
  apply Ends.ite
  · intro _
    apply (itrunc_quiet _ _).bind
    intro r₁ h₁
    apply (iupdate_quiet _ _).bind
    intro s₂ h₂
    have hquiet := h₁.trans h₂
    apply Ends.pure
    rw [locks_setInode_self (by rw [hquiet.1]), hquiet.locks_eq]
  · exact fun _ => .pure rfl

theorem iput_locks : Yields (s.iput sb k) fun s' => s'.locks = s.locks := by
  rw [iput]
  apply Ends.ite (fun _ => .error trivial)
  intro _
  apply release_locks.bind
  intro s₁ h₁
  apply Ends.pure
  rw [← h₁]
  exact locks_setInode_self rfl

theorem iunlockput_locks : Yields (s.iunlockput sb k) fun s' =>
    s'.locks = update s.locks k false := by
  rw [iunlockput]
  apply iunlock_locks.bind
  intro s₁ h₁
  exact iput_locks.mono fun s₂ h₂ => h₂.trans h₁

theorem readi_locks (off n : ℕ) : Yields (s.readi sb dev k off n) fun r =>
    r.2.locks = s.locks := by
  rw [readi]
  apply Ends.ite
  · intro _
    split
    · split <;> exact .pure rfl
    · exact .pure rfl
  · intro _
    apply Ends.ite
    · exact fun _ => .pure rfl
    · intro _
      apply (readLoop_quiet _ _ _ _).bind
      intro r hr
      apply Ends.pure
      rw [locks_setInode_self (by rw [hr.1]), hr.locks_eq]

theorem readDirent_locks (off : ℕ) (e : Panic) : Yields (s.readDirent sb dev k off e) fun r =>
    r.2.locks = s.locks := by
  rw [readDirent]
  apply (readi_locks off DIRENT).bind
  intro r hr
  obtain ⟨data, s₁⟩ := r
  cases data with
  | none => exact .error trivial
  | some bytes => exact .ite (fun _ => .error trivial) fun _ => .pure hr

theorem lookupLoop_locks (name : List UInt8) (fuel off : ℕ) :
    Yields (lookupLoop sb dev name k fuel s off) fun r => r.2.locks = s.locks := by
  induction fuel generalizing s off with
  | zero => exact .pure rfl
  | succ fuel ih =>
    rw [lookupLoop]
    apply Ends.ite
    · intro _
      apply (readDirent_locks _ _).bind
      intro r₁ h₁
      apply Ends.ite (fun _ => (ih _).mono fun r hr => hr.trans h₁)
      intro _
      apply Ends.ite
      · intro _
        apply (iget_locks _).bind
        exact fun r₂ h₂ => .pure (h₂.trans h₁)
      · exact fun _ => (ih _).mono fun r hr => hr.trans h₁
    · exact fun _ => .pure rfl

theorem dirlookup_locks (name : List UInt8) : Yields (s.dirlookup sb dev k name) fun r =>
    r.2.locks = s.locks := by
  rw [dirlookup]
  exact .ite (fun _ => .error trivial) fun _ => lookupLoop_locks _ _ _

/-- The loop of `namex` locks one directory after the other. -/
theorem namexLoop_locks (parent : Bool) (names : List (List UInt8)) :
    Yields (namexLoop sb dev parent names s k) fun r => r.2.locks = s.locks := by
  induction names generalizing s k with
  | nil =>
    rw [namexLoop]
    apply Ends.ite
    · intro _
      apply iput_locks.bind
      exact fun s₁ h₁ => .pure h₁
    · exact fun _ => .pure rfl
  | cons name rest ih =>
    rw [namexLoop]
    apply ilock_locks.bind
    intro s₁ h₁
    -- whatever has been done since, the lock is the one taken here
    have hback : ∀ {s₂ s₃ : State}, s₂.locks = s₁.locks →
        s₃.locks = update s₂.locks k false → s₃.locks = s.locks := by
      grind [update_idem, update_eq_self]
    apply Ends.ite
    · intro _
      apply iunlockput_locks.bind
      exact fun s₂ h₂ => .pure (hback rfl h₂)
    · intro _
      apply Ends.ite
      · intro _
        apply iunlock_locks.bind
        exact fun s₂ h₂ => .pure (hback rfl h₂)
      · intro _
        apply (dirlookup_locks name).bind
        intro r₂ h₂
        obtain ⟨found, s₂⟩ := r₂
        apply iunlockput_locks.bind
        intro s₃ h₃
        have h₁₃ : s₃.locks = s.locks := hback h₂ h₃
        cases found with
        | none => exact .pure h₁₃
        | some found => exact ih.mono fun r hr => hr.trans h₁₃

theorem namei_locks (path : List UInt8) : Yields (s.namei sb dev cwd path) fun r =>
    r.2.locks = s.locks := by
  have hstart : Yields (s.namexStart cwd path) fun r => r.2.locks = s.locks := by
    rw [namexStart]
    exact .ite (fun _ => iget_locks _) fun _ => .pure locks_idup
  have hnamex : Yields (s.namex sb dev cwd path false) fun r => r.2.locks = s.locks := by
    rw [namex]
    apply hstart.bind
    intro r₁ h₁
    exact (namexLoop_locks false _).mono fun r hr => hr.trans h₁
  rw [namei]
  apply hnamex.bind
  exact fun r hr => .pure hr

end State

end Xv6.Fs
