/-
# Directory functions on well-formed states

In a well-formed state the loops over a locked directory read its list of entries and
change nothing: `dirlookup` gets the inode of the first entry with the name, `dirlink`
writes the first empty entry or a new one, `isdirempty` looks at all entries but the first
two.
-/

import Xv6.Fs.Entries
import Xv6.Fs.System

namespace Xv6.Fs

open Xv6.Lib

/-- The contents of the inode in entry `k`. -/
def State.dataOf (s : State) (k : Fin NINODE) : List UInt8 := content s.disk (s.icache k).copy

variable {E : Panic → Prop} {sb : Superblock} {dev : Devsw} {s s' : State} {k : Fin NINODE}
  {off fuel j inum : ℕ} {name : List UInt8} {e : Panic}

theorem State.length_dataOf : (s.dataOf k).length = (s.icache k).copy.size.toNat := length_content

theorem T_DIR_ne : T_DIR ≠ T_DEV := by decide

/-- The failures allowed everywhere. -/
theorem Lax.allows (h : Lax E) (hheld : e ≠ .held) (hroom : e ≠ .noRoom) (htype : e ≠ .noType)
    (hfree : e ≠ .freeingFree) : E e := h e hheld hroom htype hfree

namespace State

/-- The directory consists of entries. -/
def Whole (data : List UInt8) : Prop := data.length = DIRENT * (entries data).length

theorem readDirent_ends (h : WellFormed sb s) (hlocked : s.Locked k)
    (hdir : (s.icache k).copy.type = T_DIR) (hoff : off ≤ (s.dataOf k).length)
    (he : E e ∨ off + DIRENT ≤ (s.dataOf k).length) :
    Ends E (s.readDirent sb dev k off e) fun r => off + DIRENT ≤ (s.dataOf k).length ∧
      r = (Dirent.ofBytes (((s.dataOf k).drop off).take DIRENT), s) := by
  obtain ⟨href, -, hvalid⟩ := hlocked
  have hholes := h.noHoles href hvalid
  have hsize := hholes.size_le
  rw [length_dataOf] at hoff he ⊢
  have hmax : MAXFILE * BSIZE + DIRENT < 2 ^ 32 := by decide
  have hread : s.readi sb dev k off DIRENT = _ :=
    readi_eq hholes (hdir ▸ T_DIR_ne) (by decide) hoff (by omega)
  unfold readDirent
  rw [hread]
  have hlen : (((content s.disk (s.icache k).copy).drop off).take DIRENT).length =
      min DIRENT ((s.icache k).copy.size.toNat - off) := by
    rw [List.length_take, List.length_drop, length_content]
  refine .ite (fun hshort => .error (he.resolve_right ?_)) fun hfull => .pure ⟨?_, rfl⟩
  · omega
  · omega

theorem lt_length_entries {data : List UInt8} :
    j < (entries data).length ↔ DIRENT * (j + 1) ≤ data.length := by
  rw [length_entries, Nat.lt_iff_add_one_le, Nat.le_div_iff_mul_le (by decide), Nat.mul_comm]

/-- What the loops read at an entry. -/
theorem readDirent_entry (h : WellFormed sb s) (hlocked : s.Locked k)
    (hdir : (s.icache k).copy.type = T_DIR) (hoff : DIRENT * j < (s.dataOf k).length)
    (he : E e ∨ Whole (s.dataOf k)) :
    Ends E (s.readDirent sb dev k (DIRENT * j) e) fun r =>
      r = (entry (s.dataOf k) j, s) ∧ j < (entries (s.dataOf k)).length := by
  refine (readDirent_ends h hlocked hdir hoff.le (he.imp_right fun hwhole => ?_)).mono
    fun r hr => ⟨hr.2, lt_length_entries.mpr hr.1⟩
  rw [hwhole] at hoff
  exact lt_length_entries.mp (Nat.lt_of_mul_lt_mul_left hoff)

/-- A loop that has read entry after entry is at the end: the directory consists of entries. -/
theorem eq_of_not_lt {data : List UInt8} (hj : j ≤ (entries data).length)
    (h : ¬ DIRENT * j < data.length) :
    j = (entries data).length ∧ data.length = DIRENT * (entries data).length := by
  rw [length_entries] at hj ⊢
  have hdirent : DIRENT = 16 := rfl
  rw [hdirent] at hj h ⊢
  omega

/-- The turns of a loop over a directory suffice. -/
theorem length_lt_turns (j : ℕ) : (s.dataOf k).length < DIRENT * (j + s.turns k) := by
  unfold turns
  rw [length_dataOf]
  have hdirent : DIRENT = 16 := rfl
  rw [hdirent]
  omega

/-- A loop cannot be beyond its turns. -/
theorem not_le_length_entries {data : List UInt8} (hfuel : data.length < DIRENT * (j + 0)) :
    ¬ j ≤ (entries data).length := by
  rw [length_entries]
  have hdirent : DIRENT = 16 := rfl
  rw [hdirent] at hfuel ⊢
  omega

/-- The result `r` of looking up a name that stands for `found`. -/
def Finds (s : State) (found : Option (ℕ × ℕ)) (r : Option (Fin NINODE × ℕ) × State) : Prop :=
  match found with
  | none => r = (none, s)
  | some (i, off) => ∃ l, r.1 = some (l, off) ∧ Got i s l r.2

theorem Finds.of_some {found : Option (ℕ × ℕ)} {l : Fin NINODE}
    (h : Finds s found (some (l, off), s')) : ∃ i, found = some (i, off) ∧ Got i s l s' := by
  cases found with
  | none => cases h
  | some p =>
    obtain ⟨l', heq, hgot⟩ := h
    obtain ⟨rfl, rfl⟩ := Prod.mk.inj (Option.some.inj heq)
    exact ⟨p.1, rfl, hgot⟩

theorem Finds.of_none {found : Option (ℕ × ℕ)} (h : Finds s found (none, s')) :
    found = none ∧ s' = s := by
  cases found with
  | none => exact ⟨rfl, (Prod.mk.inj h).2⟩
  | some p =>
    obtain ⟨_, heq, -⟩ := h
    cases heq

/-- The loop of `dirlookup` gets the inode of the first entry with the name. It reads entries
only if the directory consists of them, and needs a cache entry. -/
theorem lookupLoop_ends (h : WellFormed sb s) (hlocked : s.Locked k)
    (hdir : (s.icache k).copy.type = T_DIR) (hread : E .dirlookupRead ∨ Whole (s.dataOf k))
    (hget : E .cacheFull ∨ ∃ l, (s.icache l).ref = 0)
    (hfuel : (s.dataOf k).length < DIRENT * (j + fuel))
    (hj : j ≤ (entries (s.dataOf k)).length) :
    Ends E (lookupLoop sb dev name k fuel s (DIRENT * j)) fun r =>
      (lookupIn name ((entries (s.dataOf k)).drop j) (DIRENT * j) = none → Whole (s.dataOf k)) ∧
      Finds s (lookupIn name ((entries (s.dataOf k)).drop j) (DIRENT * j)) r := by
  induction fuel generalizing j with
  | zero => exact (not_le_length_entries hfuel hj).elim
  | succ fuel ih =>
    have hnext : (s.dataOf k).length < DIRENT * (j + 1 + fuel) := by
      rwa [Nat.add_right_comm]
    unfold lookupLoop
    rw [← length_dataOf]
    refine .ite (fun hoff => ?_) fun hoff => ?_
    · refine .bind (readDirent_entry h hlocked hdir hoff hread) fun r hr => ?_
      obtain ⟨rfl, hlt⟩ := hr
      rw [drop_entries hlt, lookupIn]
      refine .ite (fun hempty => ?_) fun hused => .ite (fun hname => ?_) fun hname => ?_
      · rw [if_neg fun hc => hc.1 hempty]
        exact ih hnext hlt
      · rw [if_pos ⟨hused, hname⟩]
        refine .bind (iget_ends hget) fun r hr => .pure ⟨?_, r.1, rfl, hr⟩
        intro hnone
        cases hnone
      · rw [if_neg fun hc => hname hc.2]
        exact ih hnext hlt
    · obtain ⟨hend, hwhole⟩ := eq_of_not_lt hj hoff
      rw [hend, List.drop_length]
      exact .pure ⟨fun _ => hwhole, rfl⟩

section Loops

variable (h : WellFormed sb s) (hE : Lax E) (hlocked : s.Locked k)
  (hdir : (s.icache k).copy.type = T_DIR)

include h hE hlocked hdir

/-- The first empty entry, or the end. -/
theorem emptyLoop_ends (hfuel : (s.dataOf k).length < DIRENT * (j + fuel))
    (hj : j ≤ (entries (s.dataOf k)).length) :
    Ends E (emptyLoop sb dev k fuel s (DIRENT * j)) fun r => r = (DIRENT *
      (j + ((entries (s.dataOf k)).drop j).findIdx fun de => de.inum = 0), s) := by
  induction fuel generalizing j with
  | zero => exact (not_le_length_entries hfuel hj).elim
  | succ fuel ih =>
    have hnext : (s.dataOf k).length < DIRENT * (j + 1 + fuel) := by
      rwa [Nat.add_right_comm]
    unfold emptyLoop
    rw [← length_dataOf]
    refine .ite (fun hoff => ?_) fun hoff => ?_
    · refine .bind (readDirent_entry h hlocked hdir hoff (.inl (hE.allows Panic.noConfusion
        Panic.noConfusion Panic.noConfusion Panic.noConfusion))) fun r hr => ?_
      obtain ⟨rfl, hlt⟩ := hr
      rw [drop_entries hlt, List.findIdx_cons]
      refine .ite (fun hempty => .pure ?_) fun hused => ?_
      · rw [decide_eq_true hempty]
        rfl
      · rw [decide_eq_false hused, cond_false, Nat.add_comm _ 1, ← Nat.add_assoc]
        exact ih hnext hlt
    · obtain ⟨hend, -⟩ := eq_of_not_lt hj hoff
      rw [hend, List.drop_length]
      exact .pure rfl

/-- Whether all entries from the index `j` on are empty. -/
theorem isdiremptyLoop_ends (hfuel : (s.dataOf k).length < DIRENT * (j + fuel)) :
    Ends E (isdiremptyLoop sb dev k fuel s (DIRENT * j)) fun r =>
      r = (((entries (s.dataOf k)).drop j).all fun de => de.inum = 0, s) := by
  induction fuel generalizing j with
  | zero =>
    have hnone : (entries (s.dataOf k)).drop j = [] :=
      List.drop_eq_nil_of_le (Nat.le_of_not_le (not_le_length_entries hfuel))
    rw [hnone]
    exact .pure rfl
  | succ fuel ih =>
    have hnext : (s.dataOf k).length < DIRENT * (j + 1 + fuel) := by
      rwa [Nat.add_right_comm]
    unfold isdiremptyLoop
    rw [← length_dataOf]
    refine .ite (fun hoff => ?_) fun hoff => ?_
    · refine .bind (readDirent_entry h hlocked hdir hoff (.inl (hE.allows Panic.noConfusion
        Panic.noConfusion Panic.noConfusion Panic.noConfusion))) fun r hr => ?_
      obtain ⟨rfl, hlt⟩ := hr
      rw [drop_entries hlt, List.all_cons]
      refine .ite (fun hused => .pure ?_) fun hempty => ?_
      · rw [decide_eq_false hused]
        rfl
      · rw [decide_eq_true (not_not.mp hempty), Bool.true_and]
        exact ih hnext
    · have hnone : (entries (s.dataOf k)).drop j = [] := by
        simp [length_entries, Nat.div_le_of_le_mul, Nat.le_of_not_lt, hoff]
      rw [hnone]
      exact .pure rfl

theorem isdirempty_ends : Ends E (s.isdirempty sb dev k) fun r =>
    r = (((entries (s.dataOf k)).drop 2).all fun de => de.inum = 0, s) := by
  unfold isdirempty
  rw [Nat.mul_comm]
  exact isdiremptyLoop_ends h hE hlocked hdir (length_lt_turns 2)

/-- An entry is written as a whole. -/
theorem writeDirent_ends (de : Dirent) (he : E e) :
    Ends E (s.writeDirent sb dev k off de e) fun s' => Written sb s k de.toBytes off s' := by
  obtain ⟨href, -, hvalid⟩ := hlocked
  have hdev : (s.icache k).copy.type ≠ T_DEV := hdir ▸ T_DIR_ne
  unfold writeDirent
  by_cases hgood : off ≤ (s.icache k).copy.size.toNat ∧ off + de.toBytes.length < 2 ^ 32 ∧
      off + de.toBytes.length ≤ MAXFILE * BSIZE
  · refine .bind (writei_ends h href hvalid hdev hgood.1 hgood.2.2 hE.budget) fun r hr => ?_
    exact .ite (fun _ => .error he) fun _ => .pure hr.2
  · rw [writei_bad hdev (by rw [de.length_toBytes]; decide) hgood]
    exact he

end Loops

/-- What `dirlookup` needs in order to return, and what it does. -/
theorem dirlookup_ends_of (h : WellFormed sb s) (hlocked : s.Locked k)
    (hdir : E .notDir ∨ (s.icache k).copy.type = T_DIR)
    (hread : E .dirlookupRead ∨ Whole (s.dataOf k))
    (hget : E .cacheFull ∨ ∃ l, (s.icache l).ref = 0) :
    Ends E (s.dirlookup sb dev k name) fun r => (s.icache k).copy.type = T_DIR ∧
      (lookup (s.dataOf k) name = none → Whole (s.dataOf k)) ∧
      Finds s (lookup (s.dataOf k) name) r := by
  unfold dirlookup
  refine .ite (fun hno => .error (hdir.resolve_right hno)) fun hdir => ?_
  rw [not_not] at hdir
  exact (lookupLoop_ends h hlocked hdir hread hget (length_lt_turns 0) (Nat.zero_le _)).mono
    fun r hr => ⟨hdir, hr⟩

theorem dirlookup_ends (h : WellFormed sb s) (hE : Lax E) (hlocked : s.Locked k) :
    Ends E (s.dirlookup sb dev k name) fun r => (s.icache k).copy.type = T_DIR ∧
      (lookup (s.dataOf k) name = none → Whole (s.dataOf k)) ∧
      Finds s (lookup (s.dataOf k) name) r := by
  refine dirlookup_ends_of h hlocked (.inl ?_) (.inl ?_) (.inl ?_)
  all_goals
    exact hE.allows Panic.noConfusion Panic.noConfusion Panic.noConfusion Panic.noConfusion

/-- The index of the entry `dirlink` writes. -/
def freeSlot (data : List UInt8) : ℕ := (entries data).findIdx fun de => de.inum = 0

theorem freeSlot_le {data : List UInt8} : freeSlot data ≤ (entries data).length :=
  List.findIdx_le_length

/-- What `dirlink` has done: it has dropped the inode that has the name already, or written
the entry. -/
inductive Linked (sb : Superblock) (s : State) (k : Fin NINODE) (name : List UInt8) (inum : ℕ) :
    Bool × State → Prop
  | found {i off : ℕ} {l : Fin NINODE} {s₁ s₂ : State} :
      lookup (s.dataOf k) name = some (i, off) → Got i s l s₁ → Put sb s₁ l s₂ →
      Linked sb s k name inum (false, s₂)
  | written {s₁ : State} : lookup (s.dataOf k) name = none → Whole (s.dataOf k) →
      Written sb s k (Dirent.toBytes ⟨inum, name⟩) (DIRENT * freeSlot (s.dataOf k)) s₁ →
      Linked sb s k name inum (true, s₁)

theorem dirlink_ends (h : WellFormed sb s) (hE : Lax E) (hlocked : s.Locked k)
    (hrange : (s.icache k).copy.type = T_DIR → ∀ i off,
      lookup (s.dataOf k) name = some (i, off) → i < sb.ninodes)
    (hheld : E .held ∨ ∀ i off l s₁, lookup (s.dataOf k) name = some (i, off) → Got i s l s₁ →
      (s₁.icache l).locked = false) :
    Ends E (s.dirlink sb dev k name inum) fun r =>
      (s.icache k).copy.type = T_DIR ∧ Linked sb s k name inum r := by
  have hlax : E .dirlink :=
    hE.allows Panic.noConfusion Panic.noConfusion Panic.noConfusion Panic.noConfusion
  unfold dirlink
  refine .bind (dirlookup_ends h hE hlocked) fun r hr => ?_
  obtain ⟨found, s₁⟩ := r
  obtain ⟨hdir, hwhole, hfinds⟩ := hr
  cases hlookup : lookup (s.dataOf k) name with
  | none =>
    rw [hlookup] at hfinds
    obtain ⟨rfl, rfl⟩ := Prod.mk.inj hfinds
    refine .bind (emptyLoop_ends (j := 0) h hE hlocked hdir (length_lt_turns 0)
      (Nat.zero_le _)) fun r hr => ?_
    subst hr
    refine .bind (writeDirent_ends h hE hlocked hdir _ hlax) fun s₂ hs₂ => .pure ⟨hdir, ?_⟩
    rw [Nat.zero_add, List.drop_zero] at hs₂
    exact .written hlookup (hwhole hlookup) hs₂
  | some p =>
    obtain ⟨i, off⟩ := p
    rw [hlookup] at hfinds
    obtain ⟨l, rfl, hgot⟩ := hfinds
    dsimp only at hgot
    have hwf := h.got hgot (hrange hdir i off hlookup)
    have href : 0 < (s₁.icache l).ref := by
      rw [hgot.eq, icache_setInode_self]
      exact Nat.succ_pos _
    refine .bind (iput_ends hwf hE href (hheld.imp_right fun hfree => hfree i off l s₁ hlookup
      hgot)) fun s₂ hs₂ => .pure ⟨hdir, ?_⟩
    exact .found hlookup hgot hs₂

end State

end Xv6.Fs
