/-
# Files are byte arrays

The calls of `readi` and `writei` as their users see them. A file that is not a device is
a list of bytes. `readi` returns a piece of the list. `writei` replaces a piece of it,
provided that it can log and allocate the blocks it needs; a full disk or a full log is a
panic, not a failure.
-/

import Xv6.Fs.System

namespace Xv6.Fs

open Xv6.Lib

/-- What `writei` of `n` bytes at `off` needs: a transaction, free blocks for the block numbers
that are missing, and room in the log for the blocks it writes, the bitmap, the inode and
the indirect block. -/
structure Room (sb : Superblock) (s : State) (k : Fin NINODE) (off n : ℕ) : Prop where
  trans : 1 ≤ s.outstanding
  log : s.lh.length + (endBlock (off + n) - off / BSIZE) + (sb.size / BPB + 3) < sb.logCap
  free : missing s.disk (s.icache k).copy (off / BSIZE) (endBlock (off + n)) +
    indirectNeed (s.icache k).copy (endBlock (off + n)) ≤ (freeBlocks sb s.disk).card

variable {sb : Superblock} {dev : Devsw} {s : State} {k : Fin NINODE} {off n : ℕ}
  {src : List UInt8}

/-- Writing nothing. -/
theorem State.writei_nil (hdev : (s.icache k).copy.type ≠ T_DEV)
    (hoff : off ≤ (s.icache k).copy.size.toNat) (hmax : off ≤ MAXFILE * BSIZE) :
    s.writei sb dev k [] off = .ok (some 0, s) := by
  have hmod : (off + 0) % 2 ^ 32 = off := Nat.mod_eq_of_lt (Nat.lt_of_le_of_lt hmax (by decide))
  unfold State.writei
  dsimp only [List.length_nil]
  rw [if_neg hdev, hmod, if_neg (by omega), if_neg (by omega)]
  change Except.ok (some 0, s.setInode k (s.icache k)) = _
  rw [State.setInode_self]

/-- With room for it a write does not panic. -/
theorem Room.budget (h : Room sb s k off n) (hwf : WellFormed sb s) (hn : 0 < n) :
    Budget (fun _ => False) sb (metaBlocks sb (s.icache k).inum (s.icache k).copy) s
      (missing s.disk (s.icache k).copy (firstBlock off n (endBlock (off + n)))
          (endBlock (off + n)) + indirectNeed (s.icache k).copy (endBlock (off + n)))
      (endBlock (off + n) - firstBlock off n (endBlock (off + n)) +
        indirectNeed (s.icache k).copy (endBlock (off + n))) := by
  have hfirst : firstBlock off n (endBlock (off + n)) = off / BSIZE := if_neg hn.ne'
  rw [hfirst]
  refine ⟨.inr h.trans, .inr h.free, .inr ⟨hwf.lh_nodup, fun c hc => bblock_mem_metaBlocks hc, ?_⟩⟩
  have hunion := Finset.card_union_le s.lh.toFinset
    (metaBlocks sb (s.icache k).inum (s.icache k).copy)
  have hlh := s.lh.toFinset_card_le
  have hmeta := @card_metaBlocks sb (s.icache k).inum (s.icache k).copy (endBlock (off + n))
  have hlog := h.log
  omega

/-- Nothing written is a write, too. -/
theorem written_nil (h : WellFormed sb s) (href : 0 < (s.icache k).ref)
    (hvalid : (s.icache k).valid = true) : Written sb s k [] off s := by
  have hcopy := h.copy_eq k href hvalid
  refine ⟨h, fun _ _ => rfl, ?_, ?_, ?_, fun _ _ _ => ⟨rfl, fun _ => rfl⟩, fun _ _ => rfl,
    fun _ _ _ _ _ => rfl⟩
  · rw [← hcopy]
  · rw [← hcopy]
  · simp [splice]

/-- A file that is not a device is an array of bytes: `writei` replaces a piece of it, if the
arguments are good and there is room, and does nothing but fail if they are not; `readi`
returns a piece of it and changes nothing. -/
theorem file_is_byte_array (h : WellFormed sb s) (href : 0 < (s.icache k).ref)
    (hvalid : (s.icache k).valid = true) (hdev : (s.icache k).copy.type ≠ T_DEV) :
    (∀ src : List UInt8, ∀ off, src.length < 2 ^ 32 → off < 2 ^ 32 →
      (off ≤ (s.icache k).copy.size.toNat ∧ off + src.length < 2 ^ 32 ∧
          off + src.length ≤ MAXFILE * BSIZE →
        src = [] ∨ Room sb s k off src.length →
        ∃ s', s.writei sb dev k src off = .ok (some src.length, s') ∧
          content s'.disk (s'.icache k).copy =
            splice (content s.disk (s.icache k).copy) off src ∧
          (∀ j < sb.ninodes, j ≠ (s.icache k).inum → (sb.dinode s.disk j).type ≠ 0 →
            sb.dinode s'.disk j = sb.dinode s.disk j ∧
              content s'.disk (sb.dinode s'.disk j) = content s.disk (sb.dinode s.disk j)) ∧
          sb.dinode s'.disk (s.icache k).inum = (s'.icache k).copy) ∧
      (¬ (off ≤ (s.icache k).copy.size.toNat ∧ off + src.length < 2 ^ 32 ∧
          off + src.length ≤ MAXFILE * BSIZE) →
        s.writei sb dev k src off = .ok (none, s))) ∧
    ∀ off n, off < 2 ^ 32 → n < 2 ^ 32 →
      (off ≤ (s.icache k).copy.size.toNat ∧ off + n < 2 ^ 32 →
        s.readi sb dev k off n =
          .ok (some (((content s.disk (s.icache k).copy).drop off).take n), s) ∧
        (((content s.disk (s.icache k).copy).drop off).take n).length =
          min n ((s.icache k).copy.size.toNat - off)) ∧
      (¬ (off ≤ (s.icache k).copy.size.toNat ∧ off + n < 2 ^ 32) →
        s.readi sb dev k off n = .ok (none, s)) := by
  refine ⟨fun src off hn _ => ⟨fun hgood hroom => ?_, fun hbad => ?_⟩,
    fun off n _ hn => ⟨fun hgood => ⟨?_, ?_⟩, fun hbad => ?_⟩⟩
  · have hwritten : ∃ s', s.writei sb dev k src off = .ok (some src.length, s') ∧
        Written sb s k src off s' := by
      by_cases hnil : src = []
      · subst hnil
        exact ⟨s, State.writei_nil hdev hgood.1 hgood.2.2, written_nil h href hvalid⟩
      · have hbudget := (hroom.resolve_left hnil).budget h (List.length_pos_of_ne_nil hnil)
        have hends : Ends _ (s.writei sb dev k src off) _ :=
          State.writei_ends h href hvalid hdev hgood.1 hgood.2.2 hbudget
        obtain ⟨r, hres, hcount, hw⟩ := hends.returns
        exact ⟨r.2, by rw [hres, ← hcount], hw⟩
    obtain ⟨s', hres, hw⟩ := hwritten
    refine ⟨s', hres, hw.content_eq, fun j hj hji ht => ?_, ?_⟩
    · obtain ⟨hdinode, hcontent⟩ := hw.other_files j hj hji
      rw [hdinode]
      exact ⟨rfl, hcontent ht⟩
    · rw [hw.entry]
  · exact State.writei_bad hdev hn hbad
  · exact State.readi_eq (h.noHoles href hvalid) hdev hn hgood.1 hgood.2
  · rw [List.length_take, List.length_drop, length_content]
  · exact State.readi_bad hdev hn hbad

set_option maxRecDepth 10000 in
theorem file_is_byte_array_after_write : ∃ s s', (system small {}).Reachable s ∧
    s.writei small {} ⟨0, by decide⟩ [66, 67] 1 = .ok (some 2, s') ∧
    content s'.disk (s'.icache ⟨0, by decide⟩).copy = [65, 66, 67] := by
  obtain ⟨s, hs, ⟨href, -, hvalid⟩, htype, hsize, hcontent, htrans, hlog, hfree⟩ :=
    Machine.exists_reachable_of_exec (system small {}) createAndWrite (s := { disk := smallDisk })
      (P := fun s => s.Locked ⟨0, by decide⟩ ∧
        (s.icache ⟨0, by decide⟩).copy.type ≠ T_DEV ∧
        1 ≤ (s.icache ⟨0, by decide⟩).copy.size.toNat ∧
        content s.disk (s.icache ⟨0, by decide⟩).copy = [65] ∧
        1 ≤ s.outstanding ∧
        s.lh.length + (endBlock (1 + 2) - 1 / BSIZE) + (small.size / BPB + 3) < small.logCap ∧
        missing s.disk (s.icache ⟨0, by decide⟩).copy (1 / BSIZE) (endBlock (1 + 2)) +
          indirectNeed (s.icache ⟨0, by decide⟩).copy (endBlock (1 + 2)) ≤
            (freeBlocks small s.disk).card)
      ⟨image_small, fun _ => rfl, rfl, rfl⟩ (by decide +kernel)
  obtain ⟨s', hres, hnew, -⟩ := ((@file_is_byte_array small {} s ⟨0, by decide⟩
    (wellFormed_of_reachable hs) href hvalid htype).1 [66, 67] 1 (by decide) (by decide)).1
      ⟨hsize, by decide, by decide⟩ (.inr ⟨htrans, hlog, hfree⟩)
  refine ⟨s, s', hs, hres, ?_⟩
  rw [hnew, hcontent]
  rfl

/-- Three files with a byte each fill the small disk. -/
def fillDisk : List Call :=
  [.beginOp, .ialloc T_FILE, .ilock ⟨0, ninode_pos⟩, .writei ⟨0, ninode_pos⟩ [65] 0,
    .ialloc T_FILE, .ilock ⟨1, by decide⟩, .writei ⟨1, by decide⟩ [65] 0,
    .ialloc T_FILE, .ilock ⟨2, by decide⟩, .writei ⟨2, by decide⟩ [65] 0]

set_option maxRecDepth 10000 in
/-- A write with good arguments to a well-formed file panics when the disk is full. -/
theorem full_disk_panics : ∃ s src off, WellFormed small s ∧ s.Locked ⟨0, by decide⟩ ∧
    (s.icache ⟨0, by decide⟩).copy.type = T_FILE ∧
    off ≤ (s.icache ⟨0, by decide⟩).copy.size.toNat ∧ off + src.length ≤ MAXFILE * BSIZE ∧
    s.writei small {} ⟨0, by decide⟩ src off = .error .outOfBlocks := by
  obtain ⟨s, hs, hlocked, htype, hsize, hfails⟩ :=
    Machine.exists_reachable_of_exec (system small {}) fillDisk (s := { disk := smallDisk })
      (P := fun s => s.Locked ⟨0, by decide⟩ ∧ (s.icache ⟨0, by decide⟩).copy.type = T_FILE ∧
        1 ≤ (s.icache ⟨0, by decide⟩).copy.size.toNat ∧
        fails (s.writei small {} ⟨0, by decide⟩ (List.replicate 512 66) 1) .outOfBlocks = true)
      ⟨image_small, fun _ => rfl, rfl, rfl⟩ (by decide +kernel)
  exact ⟨s, List.replicate 512 66, 1, wellFormed_of_reachable hs, hlocked, htype, hsize, by decide,
    eq_error_of_fails hfails⟩

end Xv6.Fs
