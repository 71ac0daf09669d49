/-
# Calls that lock a directory twice

`link` holds the lock of a directory when it looks up the last element of its second path, and
drops the inode it finds. If that is the directory itself, `iput` waits for the lock that the
call holds. The other calls that follow a path never do: `unlink` refuses "." and "..", and the
directories are a tree.
-/

import Xv6.Fs.Idle

namespace Xv6.Fs

open Xv6.Lib Xv6.Ptable

/-- The call waits for something that only its own process could release. -/
def Panic.Waits (e : Panic) : Prop := e = .held ∨ e = .noRoom

/-- A call that follows a path and leaves an idle state is back: no lock is held and its
transaction has ended. -/
def Returns (s : Sys) (r : Except Panic Sys) : Prop :=
  ∃ s', r = .ok s' ∧ (∀ k, (s'.fs.icache k).locked = false) ∧ s'.fs.outstanding = s.fs.outstanding

variable {sb : Superblock} {dev : Devsw} {cwd : Fin NINODE}

set_option maxRecDepth 10000 in
/-- `link("/f", ".")` waits for the lock of the directory "." that it holds. -/
theorem link_dot_deadlocks : Idle sample (boot sampleDisk) ∧
    (boot sampleDisk).step sample {} (0, .link (some [47, 102]) (some [46])) = .error .held :=
  ⟨idle_sample, eq_error_of_fails (by decide +kernel)⟩

/-- From any idle state, a call that follows a path and does not look up, in a directory it has
locked, that directory itself, waits neither for a lock nor for room in the log. Unless the
kernel panics, exactly those calls return. -/
theorem path_calls_return_iff {c : SysCall} {s : Sys} {p : Slot} (h : Idle sb s)
    (hcwd : s.cwd p = some cwd) (hc : c.OnPath) :
    (c.LocksOnce sb s cwd → ∀ e, s.step sb dev (p, c) = .error e → ¬ e.Waits) ∧
      ((∀ e, s.step sb dev (p, c) = .error e → e.Waits) →
        (Returns s (s.step sb dev (p, c)) ↔ c.LocksOnce sb s cwd)) := by
  have hpos := h.cwd_ref p cwd hcwd
  have hstep : s.step sb dev (p, c) = c.perform sb dev s p cwd := by
    unfold Sys.step
    rw [hcwd]
  have hends {E : Panic → Prop} (hE : Lax E) (hlax : E .noType)
      (honce : E .held ∨ c.LocksOnce sb s cwd) :
      Ends E (s.step sb dev (p, c)) fun s' => Rests E sb s'.fs ∧ c.LocksOnce sb s cwd := by
    rw [hstep]
    exact SysCall.perform_path (h.rests hlax) hE h.clean hpos hc honce (.inl hlax)
  have hnoWait (honce : c.LocksOnce sb s cwd) (e : Panic) (he : s.step sb dev (p, c) = .error e) :
      ¬ e.Waits := by
    refine (hends (E := fun e => ¬ e.Waits) (fun e hheld hroom _ _ => ?_) ?_
      (.inr honce)).of_error he
    · exact not_or.mpr ⟨hheld, hroom⟩
    · exact not_or.mpr ⟨Panic.noConfusion, Panic.noConfusion⟩
  refine ⟨hnoWait, fun hpanics => ⟨?_, fun honce => ?_⟩⟩
  · rintro ⟨s', hs', -⟩
    exact ((hends (E := fun _ => True) (fun _ _ _ _ _ => trivial) trivial
      (.inl trivial)).of_ok hs').2
  · cases hs' : s.step sb dev (p, c) with
    | error e => exact absurd (hpanics e hs') (hnoWait honce e hs')
    | ok s' =>
      obtain ⟨hrests, -⟩ := (hends (E := fun _ => True) (fun _ _ _ _ _ => trivial) trivial
        (.inl trivial)).of_ok hs'
      exact ⟨s', rfl, congrFun hrests.locks_eq,
        hrests.outstanding_eq.trans h.outstanding_eq.symm⟩

/-- "/g" names nothing in the directory "/". -/
theorem locksOnce_sample : SysCall.LocksOnce sample (boot sampleDisk) ⟨0, by decide⟩
    (.link (some [47, 102]) (some [47, 103])) := by
  rintro ⟨-, d, name, off, hnames⟩
  obtain ⟨-, hfound⟩ := hnames.found_eq 1 [103] (by decide +kernel)
    (show _ = none by decide +kernel)
  cases hfound

/-- "/a" is a directory, so that `link` does not come to the new path. -/
theorem locksOnce_sample_dir : SysCall.LocksOnce sample (boot sampleDisk) ⟨0, by decide⟩
    (.link (some [47, 97]) (some [46])) := by
  rintro ⟨⟨i, nd, hi, hnd, hfile⟩, -⟩
  have htwo : (resolve (sample.node sampleDisk) false (elements [47, 97]) ROOTINO).map Prod.fst =
      some 2 := by decide +kernel
  obtain rfl := Option.some.inj (htwo.symm.trans hi)
  have hdir : (sample.node sampleDisk 2).map Node.type = some T_DIR := by decide +kernel
  rw [show sample.node sampleDisk 2 = some nd from hnd] at hdir
  exact hfile (Option.some.inj hdir)

set_option maxRecDepth 10000 in
/-- `link("/f", "/g")` and `link("/a", ".")` return, and `link("/f", ".")` is outside the
condition. -/
theorem path_calls_return_iff_link : Idle sample (boot sampleDisk) ∧
    Returns (boot sampleDisk)
      ((boot sampleDisk).step sample {} (0, .link (some [47, 102]) (some [47, 103]))) ∧
    Returns (boot sampleDisk)
      ((boot sampleDisk).step sample {} (0, .link (some [47, 97]) (some [46]))) ∧
    ¬ SysCall.LocksOnce sample (boot sampleDisk) ⟨0, by decide⟩
      (.link (some [47, 102]) (some [46])) := by
  have hok {c : SysCall} (hc : completes ((boot sampleDisk).step sample {} (0, c)) = true)
      (e : Panic) (he : (boot sampleDisk).step sample {} (0, c) = .error e) : e.Waits := by
    rw [he] at hc
    cases hc
  refine ⟨idle_sample, ?_, ?_, fun honce => ?_⟩
  · exact ((path_calls_return_iff (c := .link _ _) idle_sample rfl trivial).2
      (hok (by decide +kernel))).mpr locksOnce_sample
  · exact ((path_calls_return_iff (c := .link _ _) idle_sample rfl trivial).2
      (hok (by decide +kernel))).mpr locksOnce_sample_dir
  · have hheld : (boot sampleDisk).step sample {} (0, .link (some [47, 102]) (some [46])) =
      .error .held := eq_error_of_fails (by decide +kernel)
    exact (path_calls_return_iff (c := .link _ _) idle_sample rfl trivial).1 honce .held hheld
      (.inl rfl)

end Xv6.Fs
