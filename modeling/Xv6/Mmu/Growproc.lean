/-
# The size of a process

`growproc` changes the size of the current process by a signed number. The sizes of
`allocuvm` and `deallocuvm` are unsigned, and zero stands for a failure. So a process that
gives up all its memory loses its pages and is told that the call has failed, and one that
gives up more than it has is told that the call has succeeded. In all other cases the
size changes by exactly the number, or nothing changes.
-/

import Mathlib.Algebra.Order.Ring.Int
import Xv6.Mmu.Grow

namespace Xv6.Mmu

open Xv6.Lib Xv6.Files
open Xv6.Vm (PGSIZE NPDENTRIES NPTENTRIES KERNBASE pages)

variable {k : Kernel} {d : Pgdir} {m : Mem} {p : Proc} {n : ℤ} {v oldsz newsz : ℕ}

namespace Pgdir

/-- `deallocuvm` takes the pages above the new size away, and no other. -/
theorem deallocuvm_shrinks (hsound : Sound k d m) (hexact : d.Exact oldsz) (hlt : newsz < oldsz)
    (hold : oldsz ≤ KERNBASE) :
    ∃ d' m', d.deallocuvm k oldsz newsz m = .ok (newsz, d', m') ∧ d'.Exact newsz ∧
      ∀ v < pages newsz, d'.space m' v = d.space m v := by
  have htop : pages oldsz ≤ USERPAGES := pages_le hold
  have hsum := pages_add_sub hlt.le
  have hlookup : ∀ v, v < pages newsz →
      (d.clear (pages newsz) (pages oldsz - pages newsz)).lookup v = d.lookup v := by
    intro v hv
    rw [lookup_clear, if_neg (by omega)]
  refine ⟨_, _, deallocuvm_undo (fun a => hsound.valid_of_owned) hlt hold, ?_, ?_⟩
  · intro v hv
    by_cases hin : v < pages newsz
    · rw [hlookup v hin, hexact v hv]
      omega
    · rw [lookup_clear]
      split
      · exact iff_of_false (by decide) hin
      · rw [hexact v hv]
        omega
  · intro v hv
    rw [space, space, hlookup v hv]
    cases hx : d.lookup v with
    | none => rfl
    | some x =>
      have hown : x.addr ∈ (d.clear (pages newsz) (pages oldsz - pages newsz)).owned :=
        mem_owned_of_lookup (by omega) ((hlookup v hv).trans hx)
      grind [owned_clear, hsound.nodup, Mem.putAll_data_of_notMem]

end Pgdir

/-- The size has changed by exactly `n` and with it the pages, or nothing has changed. -/
def GrowExact (p : Proc) (m : Mem) (n : ℤ) (r : ℤ × Proc × Mem) : Prop :=
  (r.1 = 0 ∧ (r.2.1.sz : ℤ) = p.sz + n ∧ r.2.1.sz < KERNBASE ∧ r.2.1.pgdir.Exact r.2.1.sz ∧
    ∀ v < pages r.2.1.sz, r.2.1.pgdir.space r.2.2 v =
      if v < pages p.sz then p.pgdir.space m v else some (userFlags, fun _ => 0)) ∨
  (r.1 = -1 ∧ r.2.1.sz = p.sz ∧ ∀ v < USERPAGES, r.2.1.pgdir.space r.2.2 v = p.pgdir.space m v)

/-- More memory: all of it, or nothing changes. -/
theorem growproc_of_pos (hsound : Sound k p.pgdir m) (hexact : p.pgdir.Exact p.sz)
    (hsz : p.sz < KERNBASE) (hn : 0 < n) (hint : n < 2 ^ 31) :
    ∃ r, growproc k p n m = .ok r ∧ GrowExact p m n r := by
  obtain ⟨j, rfl⟩ := Int.eq_ofNat_of_zero_le hn.le
  have hnext : (((p.sz : ℤ) + (j : ℤ)) % 2 ^ 32).toNat = p.sz + j := by
    change p.sz < 2147483648 at hsz
    omega
  rw [growproc]
  dsimp only
  rw [if_pos hn, hnext]
  by_cases hbig : p.sz + j ≥ KERNBASE
  · rw [Pgdir.allocuvm, if_pos hbig, ok_bind]
    exact ⟨_, rfl, .inr ⟨rfl, rfl, fun _ _ => rfl⟩⟩
  · have hlt : p.sz + j < KERNBASE := Nat.lt_of_not_le hbig
    have hle : p.sz ≤ p.sz + j := Nat.le_add_right _ _
    obtain ⟨⟨r, d', m'⟩, hr, henough, hfail⟩ := Pgdir.allocuvm_spec hsound hexact hle hlt
    rw [hr, ok_bind]
    dsimp only
    by_cases hpages : p.pgdir.growNeed p.sz (p.sz + j) ≤ m.free.length
    · obtain ⟨rfl, hgrown⟩ := henough hpages
      rw [if_neg (by omega)]
      refine ⟨_, rfl, .inl ⟨rfl, Int.natCast_add _ _, hlt, hgrown.exact hexact hle, ?_⟩⟩
      intro v hv
      change v < pages (p.sz + j) at hv
      have hsum := Pgdir.pages_add_sub hle
      have htop : pages (p.sz + j) ≤ USERPAGES := Pgdir.pages_le hlt.le
      split
      · exact hgrown.space_old hsound (by omega) (by omega)
      · exact hgrown.space_new (by omega) (by omega)
    · obtain ⟨rfl, hgrown⟩ := hfail hpages
      rw [if_pos rfl]
      exact ⟨_, rfl, .inr ⟨rfl, rfl, fun v hv => hgrown.space_old hsound hv (by omega)⟩⟩

/-- Less memory, but not all of it given up. -/
theorem growproc_of_neg (hsound : Sound k p.pgdir m) (hexact : p.pgdir.Exact p.sz)
    (hsz : p.sz < KERNBASE) (hn : n < 0) (hleft : 0 < p.sz + n) :
    ∃ r, growproc k p n m = .ok r ∧ GrowExact p m n r := by
  obtain ⟨j, hj⟩ := Int.eq_ofNat_of_zero_le hleft.le
  have hnext : (((p.sz : ℤ) + n) % 2 ^ 32).toNat = j := by
    change p.sz < 2147483648 at hsz
    omega
  have hlt : j < p.sz := by omega
  obtain ⟨d', m', hr, hexact', hspace⟩ := Pgdir.deallocuvm_shrinks hsound hexact hlt hsz.le
  rw [growproc]
  dsimp only
  rw [if_neg (by omega), if_pos hn, hnext, hr, ok_bind]
  dsimp only
  rw [if_neg (by omega)]
  refine ⟨_, rfl, .inl ⟨rfl, hj.symm, hlt.trans hsz, hexact', ?_⟩⟩
  intro v hv
  have hmono : pages j ≤ pages p.sz := Pgdir.pages_mono hlt.le
  rw [if_pos (Nat.lt_of_lt_of_le hv hmono)]
  exact hspace v hv

/-- A process without memory has none to give up. -/
theorem growproc_of_empty (hsz : p.sz = 0) (hn : n < 0) :
    ∃ r, growproc k p n m = .ok r ∧ GrowExact p m n r := by
  rw [growproc]
  dsimp only
  rw [if_neg (by omega), if_pos hn, Pgdir.deallocuvm, if_pos (by omega), ok_bind]
  dsimp only
  rw [if_pos hsz]
  exact ⟨_, rfl, .inr ⟨rfl, rfl, fun _ _ => rfl⟩⟩

/-- A process that gives up all its memory loses its pages, but the call fails. -/
theorem growproc_of_all (hsound : Sound k p.pgdir m) (hexact : p.pgdir.Exact p.sz)
    (hsz : p.sz < KERNBASE) (hn : n < 0) (hall : p.sz + n = 0) :
    ∃ r, growproc k p n m = .ok r ∧ ¬ GrowExact p m n r := by
  have hpos : 0 < p.sz := by omega
  have hnext : (((p.sz : ℤ) + n) % 2 ^ 32).toNat = 0 := by rw [hall]; rfl
  obtain ⟨d', m', hr, hexact', -⟩ := Pgdir.deallocuvm_shrinks hsound hexact hpos hsz.le
  have hpage : 0 < pages p.sz := Pgdir.lt_pages.mp (by rwa [Nat.zero_mul])
  rw [growproc]
  dsimp only
  rw [if_neg (by omega), if_pos hn, hnext, hr, ok_bind]
  dsimp only
  rw [if_pos rfl]
  refine ⟨_, rfl, ?_⟩
  intro h
  obtain ⟨hret, -⟩ | ⟨-, -, hspace⟩ := h
  · cases hret
  · -- the first page was there and is not there any more
    have huser : 0 < USERPAGES := by decide
    have hsome := (hexact 0 huser).mpr hpage
    have hnone := hexact'.lookup_none huser (Nat.le_refl 0)
    have hfirst := hspace 0 huser
    rw [Pgdir.space, Pgdir.space, hnone, Option.map_none, eq_comm, Option.map_eq_none_iff] at hfirst
    rw [hfirst] at hsome
    cases hsome

/-- A process that gives up more than it has keeps all, and the call succeeds. -/
theorem growproc_of_more (hsz : p.sz < KERNBASE) (hpos : 0 < p.sz) (hmore : p.sz + n < 0)
    (hint : -2 ^ 31 ≤ n) : ∃ r, growproc k p n m = .ok r ∧ ¬ GrowExact p m n r := by
  change p.sz < 2147483648 at hsz
  have hnext : p.sz ≤ (((p.sz : ℤ) + n) % 2 ^ 32).toNat := by omega
  rw [growproc]
  dsimp only
  rw [if_neg (by omega), if_pos (by omega), Pgdir.deallocuvm, if_pos hnext, ok_bind]
  dsimp only
  rw [if_neg (Nat.ne_of_gt hpos)]
  refine ⟨_, rfl, ?_⟩
  intro h
  obtain ⟨-, hsize, -⟩ | ⟨hret, -⟩ := h
  · dsimp only at hsize
    omega
  · cases hret

/-- `growproc` is exact unless a process with memory gives up all of it or more. -/
theorem growproc_exact_iff (k : Kernel) (p : Proc) (m : Mem) (n : ℤ) (hsound : Sound k p.pgdir m)
    (hexact : p.pgdir.Exact p.sz) (hsz : p.sz < KERNBASE) (hint : -2 ^ 31 ≤ n ∧ n < 2 ^ 31) :
    ∃ r, growproc k p n m = .ok r ∧
      (GrowExact p m n r ↔ 0 ≤ n ∨ p.sz = 0 ∨ 0 < p.sz + n) := by
  obtain hneg | rfl | hpos := lt_trichotomy n 0
  · by_cases hempty : p.sz = 0
    · obtain ⟨r, hr, hgrow⟩ := growproc_of_empty (k := k) (m := m) hempty hneg
      exact ⟨r, hr, iff_of_true hgrow (.inr (.inl hempty))⟩
    · have hsome : 0 < p.sz := Nat.pos_of_ne_zero hempty
      obtain hmore | hall | hleft := lt_trichotomy ((p.sz : ℤ) + n) 0
      · obtain ⟨r, hr, hgrow⟩ := growproc_of_more (k := k) (m := m) hsz hsome hmore hint.1
        exact ⟨r, hr, iff_of_false hgrow (by omega)⟩
      · obtain ⟨r, hr, hgrow⟩ := growproc_of_all hsound hexact hsz hneg hall
        exact ⟨r, hr, iff_of_false hgrow (by omega)⟩
      · obtain ⟨r, hr, hgrow⟩ := growproc_of_neg hsound hexact hsz hneg hleft
        exact ⟨r, hr, iff_of_true hgrow (.inr (.inr hleft))⟩
  · refine ⟨(0, p, m), rfl, iff_of_true (.inl ⟨rfl, (add_zero _).symm, hsz, hexact, ?_⟩)
      (.inl (Int.le_refl 0))⟩
    intro v hv
    exact (if_pos hv).symm
  · obtain ⟨r, hr, hgrow⟩ := growproc_of_pos hsound hexact hsz hpos hint.2
    exact ⟨r, hr, iff_of_true hgrow (.inl hpos.le)⟩

/-- A directory with one page of the user. -/
def Pgdir.single : Pgdir := ((Pgdir.empty 0x1000).attach 0 0x1001).setPte 0 ⟨0x1002, userFlags⟩

def Proc.single : Proc := { pgdir := .single, sz := 4096 }

/-- Three free pages, filled with junk. -/
def Mem.three : Mem := { free := [0x1003, 0x1004, 0x1005], data := fun _ _ => 1 }

theorem Pgdir.single_mapped : Mapped 0 ⟨0x1002, userFlags⟩ (.empty 0x1000)
    { Mem.three with free := 0x1001 :: Mem.three.free } .single Mem.three :=
  Mapped.of_attach (v := 0) (by decide) rfl rfl (by decide)

theorem Pgdir.single_exact : Pgdir.single.Exact 4096 := by
  intro v hv
  have hpages : pages 4096 = 1 := by decide
  rw [hpages, Nat.lt_one_iff]
  by_cases h : v = 0
  · rw [h, single_mapped.lookup_self]
    exact iff_of_true rfl rfl
  · rw [single_mapped.lookup_of_ne v h, lookup_empty]
    exact iff_of_false (by decide) h

theorem Pgdir.single_sound : Sound Kernel.sample .single .three := by
  have hperm := single_mapped.perm_user (by decide)
  rw [owned_empty] at hperm
  constructor
  · rw [hperm.nodup_iff]
    decide
  · intro a ha
    rw [hperm.mem_iff] at ha
    revert a
    decide

/-- Two pages more. -/
theorem growproc_exact_two : ∃ r, growproc Kernel.sample .single 8192 .three = .ok r ∧
    GrowExact .single .three 8192 r := by
  obtain ⟨r, hr, hiff⟩ := growproc_exact_iff Kernel.sample .single .three 8192 Pgdir.single_sound
    Pgdir.single_exact (by decide) (by decide)
  exact ⟨r, hr, hiff.mpr (.inl (by decide))⟩

/-- The process gives up its page and the call fails with the page gone; it gives up one byte
more and the call succeeds with the size as it was. -/
theorem growproc_not_exact :
    Sound Kernel.sample Proc.single.pgdir .three ∧ Proc.single.pgdir.Exact Proc.single.sz ∧
      (∃ p' m', growproc Kernel.sample .single (-4096) .three = .ok (-1, p', m') ∧
        p'.pgdir.space m' 0 = none ∧ (Proc.single.pgdir.space .three 0).isSome) ∧
      ∃ p' m', growproc Kernel.sample .single (-4097) .three = .ok (0, p', m') ∧
        p'.sz = 4096 := by
  refine ⟨Pgdir.single_sound, Pgdir.single_exact, ?_, ?_⟩
  · exact ⟨_, _, rfl, rfl, rfl⟩
  · exact ⟨_, _, rfl, rfl⟩

end Xv6.Mmu
