/-
# A locked write

What `ilock`, `writei` and `iunlock` in a row have done to a file, in terms of the file alone.
-/

import Xv6.Fs.Contents

namespace Xv6.Fs

open Xv6.Lib

variable {sb : Superblock} {s s₁ s₂ s' : State} {k : Fin NINODE} {off : ℕ} {src : List UInt8}

/-- The contents of the file in entry `k`. -/
def State.contents (sb : Superblock) (s : State) (k : Fin NINODE) : List UInt8 :=
  content s.disk (sb.dinode s.disk (s.icache k).inum)

/-- The file in entry `k` has been written, and its lock released. -/
structure Rewritten (sb : Superblock) (s : State) (k : Fin NINODE) (src : List UInt8) (off : ℕ)
    (s' : State) : Prop where
  wf : WellFormed sb s'
  ref_pos : 0 < (s'.icache k).ref
  unlocked : (s'.icache k).locked = false
  type_eq : (sb.dinode s'.disk (s'.icache k).inum).type =
    (sb.dinode s.disk (s.icache k).inum).type
  contents_eq : s'.contents sb k = splice (s.contents sb k) off src

namespace Locks

section

variable (h : Locks sb s k s₁)

include h

theorem entry : s₁.icache k = { s.icache k with
    copy := sb.dinode s.disk (s.icache k).inum, valid := true, locked := true } := by
  rw [h.eq, icache_setInode_self]

theorem copy : (s₁.icache k).copy = sb.dinode s.disk (s.icache k).inum := by
  rw [h.entry]

theorem valid : (s₁.icache k).valid = true := by
  rw [h.entry]

theorem ref_pos' : 0 < (s₁.icache k).ref := by
  rw [h.entry]
  exact h.ref_pos

theorem disk : s₁.disk = s.disk := by
  rw [h.eq]
  rfl

theorem rewritten (hw : Written sb s₁ k src off s₂) (hu : Unlocks s₂ k s') :
    Rewritten sb s k src off s' := by
  have hentry : s'.icache k = { s₂.icache k with locked := false } := by
    rw [hu.eq, icache_setInode_self]
  have hdisk : s'.disk = s₂.disk := by
    rw [hu.eq]
    rfl
  have hinum : (s'.icache k).inum = (s₁.icache k).inum := by
    rw [hentry, hw.entry]
  refine ⟨hw.wf.unlocks hu, ?_, ?_, ?_, ?_⟩
  · rw [hentry]
    exact hu.ref_pos
  · rw [hentry]
  · rw [hinum, hdisk, hw.scalars, h.copy]
  · have hcontent := hw.content_eq
    rw [hw.entry, h.copy, h.disk] at hcontent
    rw [State.contents, hinum, hdisk, State.contents]
    exact hcontent

end

end Locks

end Xv6.Fs
