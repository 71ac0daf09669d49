/-
# States between system calls

A state is idle when no system call is running. Every state between completed calls is, from
a well-formed image on.
-/

import Xv6.Fs.Calls

namespace Xv6.Fs

open Xv6.Lib Xv6.Ptable

/-- A state in which no system call is running: the file system is well formed, the log is
empty, no lock is held, and current directories are referred to. -/
structure Idle (sb : Superblock) (s : Sys) : Prop where
  wf : WellFormed sb s.fs
  root_lt : ROOTINO < sb.ninodes
  inRange : InRange sb.ninodes (sb.node s.fs.disk)
  unlocked : ∀ k, (s.fs.icache k).locked = false
  lh_eq : s.fs.lh = []
  outstanding_eq : s.fs.outstanding = 0
  cwd_ref : ∀ p k, s.cwd p = some k → 0 < (s.fs.icache k).ref
  clean : ∀ f, (s.ftable f).ref = 0 → (s.ftable f).ip = none

variable {E : Panic → Prop} {sb : Superblock} {dev : Devsw} {s s₀ : Sys} {p : Slot}
  {cwd : Fin NINODE}

theorem Idle.rests (h : Idle sb s) (hE : E .noType) : Rests E sb s.fs :=
  ⟨⟨⟨⟨h.wf, .inl hE⟩, h.root_lt, h.inRange, .inl hE⟩, funext h.unlocked, fun _ => h.lh_eq⟩,
    h.outstanding_eq⟩

theorem Settled.idle (h : Settled E sb s) : Idle sb s where
  wf := h.rests.calm.wf
  root_lt := h.rests.calm.root_lt
  inRange := h.rests.calm.inRange
  unlocked k := congrFun h.rests.locks_eq k
  lh_eq := h.rests.lh_eq h.rests.outstanding_eq
  outstanding_eq := h.rests.outstanding_eq
  cwd_ref _ _ hk := h.exact.pos (le_refl _) hk
  clean := h.exact.clean

/-- The cache after boot is in order. -/
theorem Booted.wellFormed (h : Booted s) (himage : Image sb s.fs.disk)
    (hroot : ROOTINO < sb.ninodes) : WellFormed sb s.fs := by
  have hinvalid : ∀ k, 0 < (s.fs.icache k).ref → (s.fs.icache k).valid = true → False := by
    intro k hk hv
    rw [h.eq_of_ref hk, h.root] at hv
    cases hv
  refine ⟨himage, fun k hk => ?_, fun k l hk hl _ => ?_, fun k hk hv => (hinvalid k hk hv).elim,
    fun k hk hv => (hinvalid k hk hv).elim, ?_⟩
  · rw [h.eq_of_ref hk, h.root]
    exact hroot
  · rw [h.eq_of_ref hk, h.eq_of_ref hl]
  · rw [h.lh_eq]
    exact List.nodup_nil

theorem Booted.locks_eq (h : Booted s) : s.fs.locks = noLocks := by
  funext k
  unfold State.locks
  by_cases hk : k = ⟨0, by decide⟩
  · rw [hk, h.root]
    rfl
  · rw [h.icache_of_ne hk]
    rfl

/-- One completed call. -/
theorem step_settled (hE : Lax E) {l : Slot × SysCall} (h : Settled E sb s)
    (henabled : (sysMachine sb dev).Enabled s l)
    (honce : E .held ∨ ∀ cwd, s.cwd l.1 = some cwd → l.2.LocksOnce sb s cwd)
    (hmild : E .noType ∨ ∀ cwd, s.cwd l.1 = some cwd → l.2.Mild sb s cwd) :
    Settled E sb ((sysMachine sb dev).next s l) := by
  obtain ⟨hrunning, hproper, hcompletes⟩ := henabled
  obtain ⟨cwd, hcwd⟩ := Option.isSome_iff_exists.mp hrunning
  obtain ⟨s', hs'⟩ := exists_of_completes hcompletes
  simp only [sysMachine, hs']
  unfold Sys.step at hs'
  rw [hcwd] at hs'
  have hends : Ends E (l.2.perform sb dev s l.1 cwd) (Settled E sb) :=
    l.2.perform_settled h hE hcwd hproper (honce.imp_right fun ho => ho cwd hcwd)
      (hmild.imp_right fun hm => hm cwd hcwd)
  exact hends.of_ok hs'

/-- Every state between completed calls is idle. -/
theorem idle_of_run {labels : List (Slot × SysCall)} (hboot : Booted s₀)
    (himage : Image sb s₀.fs.disk) (hroot : ROOTINO < sb.ninodes)
    (hrange : InRange sb.ninodes (sb.node s₀.fs.disk))
    (hrun : (sysMachine sb dev).Run s₀ labels s) : Idle sb s := by
  have hE : Lax fun _ => True := fun _ _ _ _ _ => trivial
  refine Settled.idle (E := fun _ => True) (hrun.invariant ?_ fun s l hs henabled =>
    step_settled hE hs henabled (.inl trivial) (.inl trivial))
  exact ⟨hboot.exact, ⟨⟨⟨hboot.wellFormed himage hroot, .inl trivial⟩, hroot, hrange, .inl trivial⟩,
    hboot.locks_eq, fun _ => hboot.lh_eq⟩, hboot.outstanding_eq⟩

/-- The blocks of the sample file system, and what refers to them. -/
theorem refOf_sample {i b : ℕ} {q : Pos} :
    refOf sample sampleDisk (sample.dinode sampleDisk) (i, q) = some b ↔
      q = .direct ⟨0, by decide⟩ ∧ 1 ≤ i ∧ i ≤ 3 ∧ b = 13 + i := by
  have hdirect : ∀ i < 7, ∀ a : Fin NDIRECT, refOf sample sampleDisk (sample.dinode sampleDisk)
      (i, .direct a) = if a = ⟨0, by decide⟩ ∧ 1 ≤ i ∧ i ≤ 3 then some (13 + i) else none := by
    decide +kernel
  have hindirect : ∀ i < 7, (sample.dinode sampleDisk i).indirect = 0 := by decide +kernel
  constructor
  · intro h
    obtain ⟨hi, -, hne, hblock⟩ := refOf_eq_some.mp h
    cases q with
    | direct a =>
      rw [hdirect i hi a] at h
      grind
    | indirect => exact (hne (hblock.symm.trans (hindirect i hi))).elim
    | entry j => exact (hne (hblock.symm.trans (if_pos (hindirect i hi)))).elim
  · rintro ⟨rfl, hlo, hhi, rfl⟩
    rw [hdirect i (by omega), if_pos ⟨rfl, hlo, hhi⟩]

theorem image_sample : Image sample sampleDisk := by
  have hbits : ∀ b < 20, sample.inUse sampleDisk b = decide (b < 17) := by decide +kernel
  refine ⟨⟨fun b hb hmeta => Nat.not_lt.mpr hb.1 hmeta, fun b hb => ?_, fun r b hr => ?_,
    fun r r' b hr hr' => ?_⟩, ?_⟩
  · have hlt : b < 20 := hb.elim (fun h => Nat.lt_trans h (by decide)) And.right
    rw [hbits b hlt, decide_eq_true_eq]
    constructor
    · intro hused
      by_cases hmeta : b < 14
      · exact .inl hmeta
      · exact .inr ⟨(b - 13, .direct ⟨0, by decide⟩),
          refOf_sample.mpr ⟨rfl, by omega, by omega, by omega⟩⟩
    · rintro (hmeta | ⟨r, hr⟩)
      · exact Nat.lt_trans hmeta (by decide)
      · obtain ⟨-, -, hhi, rfl⟩ := refOf_sample.mp hr
        omega
  · obtain ⟨-, hlo, hhi, rfl⟩ := refOf_sample.mp hr
    constructor
    · change 14 ≤ 13 + r.1
      omega
    · change 13 + r.1 < 20
      omega
  · obtain ⟨i, q⟩ := r
    obtain ⟨i', q'⟩ := r'
    obtain ⟨rfl, -, -, rfl⟩ := refOf_sample.mp hr
    obtain ⟨rfl, -, -, hb⟩ := refOf_sample.mp hr'
    rw [Nat.add_left_cancel hb]
  · have hsize : ∀ i < 7, (sample.dinode sampleDisk i).size.toNat ≤ BSIZE ∧
        (0 < (sample.dinode sampleDisk i).size.toNat →
          addrOf sampleDisk (sample.dinode sampleDisk i) 0 ≠ 0) := by decide +kernel
    intro i hi _ bn hbn
    obtain ⟨hle, hne⟩ := hsize i hi
    have hzero : bn = 0 := by
      by_contra hpos
      have := Nat.le_mul_of_pos_left BSIZE (Nat.pos_of_ne_zero hpos)
      omega
    subst hzero
    exact hne (by omega)

/-- Decidable facts about the nodes of a file system are checked for every inode number. -/
theorem all_nodes {disk : Disk} {P : ℕ → Node → Prop} [∀ i nd, Decidable (P i nd)]
    (h : ∀ i < sb.ninodes, ((sb.node disk i).all fun nd => decide (P i nd)) = true) (i : ℕ)
    (nd : Node) (hi : sb.node disk i = some nd) : P i nd := by
  have hall := h i (Superblock.node_eq_some.mp hi).1
  rw [hi] at hall
  exact of_decide_eq_true hall

theorem inRange_sample : InRange sample.ninodes (sample.node sampleDisk) :=
  all_nodes (P := fun _ nd => nd.type = T_DIR → ∀ e ∈ entries nd.data, e.inum < sample.ninodes)
    (by decide +kernel)

theorem idle_sample : Idle sample (boot sampleDisk) := by
  have hrun : (sysMachine sample {}).Run (boot sampleDisk) [] (boot sampleDisk) := .refl _
  exact idle_of_run (booted sampleDisk) image_sample (by decide) inRange_sample hrun

end Xv6.Fs
