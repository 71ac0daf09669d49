/-
# Replacing the image

What a whole call of `exec` does, whatever the path, the arguments and the file are and
wherever it fails. Every way out goes through one of two states: the new image is still being
made of pages that were free, and is given back; or it is complete, and the old one is given
back. The inode and the transaction are given back on all of them.
-/

import Xv6.Fs.Held
import Xv6.Fs.Unlocked
import Xv6.Mmu.Args

namespace Xv6.Mmu

open Xv6.Lib Xv6.Files
open Xv6.Vm (PGSIZE NPDENTRIES NPTENTRIES KERNBASE pages)
open Xv6.Fs (NINODE Superblock Devsw Moves Closes Yields single gainOf)

variable {k : Kernel} {d : Pgdir} {m m' m₀ : Mem} {u v va sp sz entry fuel : ℕ} {a : Page}
  {p s path : List UInt8} {argv : List (List UInt8)} {ustack : List ℕ} {curproc : Proc}

/-- What is looked up is a page of the user. -/
theorem Pgdir.uva2ka_ends (hv : v < NPAGES) :
    Ends (fun _ => True) (d.uva2ka (v * PGSIZE)) fun r => ∀ a, r = some a →
      ∃ x, d.lookup v = some x ∧ x.Has PTE_U ∧ x.addr = a := by
  rw [uva2ka, walk_mul hv]
  cases hentry : d.entry v with
  | none => exact .error trivial
  | some x =>
    grind [Ends.ok, lookup_of_present]

/-- The address is in a page of the image that the user reaches. -/
def InUser (sz u : ℕ) : Prop := u / PGSIZE < pages sz ∧ u / PGSIZE + 2 ≠ pages sz

namespace Stacked

theorem inUser_of_lookup {x : Pte} (h : Stacked k m₀ sz d m) (hx : d.lookup (u / PGSIZE) = some x)
    (hu : x.Has PTE_U) : InUser sz u := by
  have huser : u / PGSIZE < USERPAGES := by
    by_contra hle
    exact h.image.kernel _ x (Nat.le_of_not_lt hle) hx hu
  have hlt : u / PGSIZE < pages sz := (h.image.exact _ huser).mp (by rw [hx, Option.isSome_some])
  refine ⟨hlt, fun hguard => ?_⟩
  obtain ⟨a, ha⟩ := h.image.user _ hlt
  rw [guarded, if_pos hguard, hx, Option.some_inj] at ha
  rw [ha] at hu
  exact hu (show guardFlags &&& PTE_U = 0 by decide)

/-- `copyout` to any address: the image stays one, and every byte that has been copied is at an
address of the user. -/
theorem copyoutLoop_ends (h : Stacked k m₀ sz d m) (hva : va < 2 ^ 32) :
    Ends (fun _ => True) (d.copyoutLoop fuel va p m) fun r => Stacked k m₀ sz d r.2 ∧
      (r.1 = true → ∀ u, va ≤ u → u < va + p.length → u < 2 ^ 32 → InUser sz u) := by
  induction fuel generalizing va p m with
  | zero => exact .error trivial
  | succ fuel ih =>
    by_cases hp : 0 < p.length
    · have hpage : va / PGSIZE < NPAGES := by
        show va / 4096 < 1048576
        omega
      have hlookup := Pgdir.uva2ka_ends (d := d) hpage
      cases hret : d.uva2ka (va / PGSIZE * PGSIZE) with
      | error e =>
        rw [Pgdir.copyoutLoop, if_pos hp, pgRoundDown]
        dsimp only
        rw [hret]
        exact .error trivial
      | ok found =>
        rw [hret] at hlookup
        cases found with
        | none =>
          rw [Pgdir.copyoutLoop_none hp hret]
          exact .ok ⟨h, by simp⟩
        | some a =>
          obtain ⟨x, hx, hu, rfl⟩ := hlookup.of_ok rfl a rfl
          have hfirst : InUser sz va := h.inUser_of_lookup hx hu
          rw [Pgdir.copyoutLoop_some hp hret]
          apply (ih (h.setPage hfirst.1 hx _) (Nat.mod_lt _ (by decide))).mono
          intro r hr
          refine ⟨hr.1, fun htrue u hle hlt hu => ?_⟩
          by_cases hsame : u / PGSIZE = va / PGSIZE
          · rw [InUser, hsame]
            exact hfirst
          · -- a byte of a later page is left to the next turns
            change ¬ u / 4096 = va / 4096 at hsame
            have hnext : (va / PGSIZE * PGSIZE + PGSIZE) % 2 ^ 32 =
                va / PGSIZE * PGSIZE + PGSIZE := by
              show (va / 4096 * 4096 + 4096) % 2 ^ 32 = va / 4096 * 4096 + 4096
              omega
            rw [hnext] at hr
            apply hr.2 htrue u _ _ hu
            · show va / 4096 * 4096 + 4096 ≤ u
              omega
            · rw [List.length_drop]
              show u < va / 4096 * 4096 + 4096 + (p.length - min (4096 - va % 4096) p.length)
              omega
    · have hnil : p = [] := List.eq_nil_of_length_eq_zero (by omega)
      rw [hnil, Pgdir.copyoutLoop_nil]
      exact .ok ⟨h, fun _ u hle hlt _ => absurd hlt (by rw [List.length_nil]; omega)⟩

/-- What has been copied to below the stack pointer is in the page of the stack. -/
theorem fits_of_inUser {n : ℕ} (h : Stacked k m₀ sz d m) (hsp : sp ≤ sz) (hlo : sz - PGSIZE ≤ sp)
    (hn : 0 < n) (hva : va = (sp + 2 ^ 32 - n) % 2 ^ 32 / 4 * 4)
    (hall : ∀ u, va ≤ u → u < va + n → u < 2 ^ 32 → InUser sz u) : sz - PGSIZE + n ≤ sp := by
  have heq := h.stack_eq
  have hbase := h.base_mod
  have htwo := h.two_pages
  have hpages := h.two_le
  have hsz := h.image.sz_lt
  have htop := h.image.pages_le
  change sz < 2147483648 at hsz
  change pages sz ≤ 524288 at htop
  change 2 * 4096 ≤ sz at htwo
  change (sz - 4096) % 4 = 0 at hbase
  change sz - 4096 = (pages sz - 1) * 4096 at heq
  change sz - 4096 ≤ sp at hlo
  show sz - 4096 + n ≤ sp
  by_contra hno
  -- an address that has been copied to and is not in a page of the user
  have hout : ∀ u, va ≤ u → u < va + n → u < 2 ^ 32 →
      u / 4096 < pages sz ∧ u / 4096 + 2 ≠ pages sz := hall
  by_cases hwrap : n ≤ sp
  · have := hout (max va (sz - 4096 - 4)) (by omega) (by omega) (by omega)
    omega
  · by_cases hkernel : 2147483648 ≤ va
    · have := hout va (Nat.le_refl va) (by omega) (by omega)
      omega
    · have := hout 2147483648 (by omega) (by omega) (by decide)
      omega

/-- The loop of `exec` over any arguments. -/
theorem pushStrings_ends (h : Stacked k m₀ sz d m) (hsp : sp ≤ sz) (hlo : sz - PGSIZE ≤ sp) :
    Ends (fun _ => True) (d.pushStrings argv sp ustack m) fun r => Stacked k m₀ sz d r.2 ∧
      ∀ q, r.1 = some q → Fits (sz - PGSIZE) sp argv ∧
        q = (belowStrings sp argv, ustack ++ layout sp argv) := by
  induction argv generalizing sp ustack m with
  | nil =>
    apply Ends.ok
    refine ⟨h, fun q hq => ⟨trivial, ?_⟩⟩
    rw [layout, List.append_nil]
    exact (Option.some_inj.mp hq).symm
  | cons s rest ih =>
    rw [Pgdir.pushStrings]
    apply Ends.ite (fun _ => .ok ⟨h, by simp⟩)
    intro _
    have hlt : pushed sp s < 2 ^ 32 := by
      rw [pushed]
      omega
    apply (h.copyoutLoop_ends hlt).bind
    intro r hr
    obtain ⟨ok, m₁⟩ := r
    obtain ⟨h₁, hcopied⟩ := hr
    cases ok with
    | false => exact .pure ⟨h₁, by simp⟩
    | true =>
      have hlength : (s ++ [0]).length = s.length + 1 := List.length_append
      rw [hlength] at hcopied
      have hfirst := h.fits_of_inUser hsp hlo (Nat.succ_pos _) rfl (hcopied rfl)
      have hpushed := pushed_of_fits h.base_mod (by have := h.sz_lt; omega) hfirst
      apply (ih h₁ (by omega) hpushed.1).mono
      intro r hr
      refine ⟨hr.1, fun q hq => ?_⟩
      obtain ⟨hfits, heq⟩ := hr.2 q hq
      refine ⟨⟨hfirst, hfits⟩, ?_⟩
      rw [heq, layout, List.append_assoc]
      rfl

/-- Any arguments: if they are pushed, they fit. -/
theorem pushArgs_ends (argv : List (List UInt8)) (h : Stacked k m₀ sz d m) :
    Ends (fun _ => True) (d.pushArgs argv sz m) fun r => Stacked k m₀ sz d r.2 ∧
      (r.1.isSome → ArgsFit sz argv) := by
  rw [Pgdir.pushArgs]
  apply (h.pushStrings_ends (Nat.le_refl sz) (Nat.sub_le ..)).bind
  intro r hr
  obtain ⟨found, m₁⟩ := r
  obtain ⟨h₁, hfound⟩ := hr
  cases found with
  | none => exact .pure ⟨h₁, by simp⟩
  | some q =>
    obtain ⟨hfits, rfl⟩ := hfound q rfl
    dsimp only
    apply (h₁.copyoutLoop_ends (Nat.mod_lt _ (by decide))).bind
    intro r hr
    obtain ⟨ok, m₂⟩ := r
    obtain ⟨h₂, hcopied⟩ := hr
    cases ok with
    | false => exact .pure ⟨h₂, by simp⟩
    | true =>
      refine .pure ⟨h₂, fun _ => ⟨hfits, ?_⟩⟩
      have hbelow := belowStrings_bounds h.base_mod h.sz_lt h.sz_mod (Nat.sub_le ..) hfits
      rw [List.nil_append, length_flatMap_wordBytes, length_ustackOf, layout_length,
        Nat.mul_comm 4] at hcopied
      apply h.fits_of_inUser hbelow.2.1 hbelow.1 (by omega) _ (hcopied rfl)
      omega

end Stacked

/-- What a call of `exec` has done when it returns: it has failed, and the free pages are those
there were; or the process has a new image, with the arguments on its stack, and the old image
is free. -/
inductive Replaced (k : Kernel) (path : List UInt8) (argv : List (List UInt8)) (curproc : Proc)
    (m : Mem) : ℤ → Proc → Mem → Prop
  | failed {m' : Mem} (h : m.Restored m') : Replaced k path argv curproc m (-1) curproc m'
  | done {sz entry sp : ℕ} {d : Pgdir} {m₁ m₂ m' : Mem} (h : Stacked k m sz d m₁)
      (hfit : ArgsFit sz argv) (hpush : d.pushArgs argv sz m₁ = .ok (some sp, m₂))
      (hfree : curproc.pgdir.freevm k m₂ = .ok m') :
      Replaced k path argv curproc m 0
        { pgdir := d, sz, name := (lastName path).take 15, eip := entry, esp := sp } m'

/-- An image that has not been completed is given back. -/
theorem freevm_failed {flags : ℕ → Flags} {fs : Fs.State} (hok : m₀.Ok k)
    (h : Image k m₀ flags sz d m) :
    Ends (fun _ => True) (do
        let m ← d.freevm k m
        return (-1, curproc, fs, m) : Except Stop (ℤ × Proc × Fs.State × Mem)) fun r =>
      r.2.2.1 = fs ∧ Replaced k path argv curproc m₀ r.1 r.2.1 r.2.2.2 := by
  obtain ⟨m', hret, hrestored, -⟩ := Pgdir.freevm_restores hok.valid h.perm h.data
  rw [hret, ok_bind]
  exact .ok ⟨rfl, .failed hrestored⟩

theorem execArgs_ends {fs : Fs.State} (hok : m₀.Ok k) (h : Stacked k m₀ sz d m) :
    Ends (fun _ => True) (execArgs k path argv d sz entry curproc fs m) fun r =>
      r.2.2.1 = fs ∧ Replaced k path argv curproc m₀ r.1 r.2.1 r.2.2.2 := by
  have hends := h.pushArgs_ends argv
  rw [execArgs]
  cases hpush : d.pushArgs argv sz m with
  | error e => exact .error trivial
  | ok r =>
    obtain ⟨found, m₁⟩ := r
    obtain ⟨h₁, hfit⟩ := hends.of_ok hpush
    rw [ok_bind]
    cases found with
    | none => exact freevm_failed hok h₁.image
    | some sp =>
      dsimp only
      cases hfree : curproc.pgdir.freevm k m₁ with
      | error e => exact .error trivial
      | ok m' => exact .ok ⟨rfl, .done h (hfit rfl) hpush hfree⟩

theorem execImage_cases {fs : Fs.State} {r : ℤ × Proc × Fs.State × Mem} (hok : m₀.Ok k)
    (h : Image k m₀ plain sz d m) (hret : execImage k path argv d sz entry curproc fs m = .ok r) :
    r.2.2.1 = fs ∧ Replaced k path argv curproc m₀ r.1 r.2.1 r.2.2.2 := by
  have hspec := h.allocStack hok
  rw [execImage] at hret
  generalize d.allocStack k sz m = x at hspec hret
  obtain ⟨z, d', m', rfl, hcases⟩ := hspec
  rw [ok_bind] at hret
  obtain ⟨rfl, h'⟩ | ⟨z, rfl, h'⟩ := hcases
  · exact (freevm_failed hok h').of_ok hret
  · exact (execArgs_ends hok h').of_ok hret

section Fs

variable {sb : Superblock} {dev : Devsw} {cwd ip : Fin NINODE} {fs fs' fs₁ : Fs.State}

theorem onFs_ok {α : Type} (a : α) : onFs (.ok a) = .ok a := rfl

theorem onFs_ends {α : Type} {x : Except Fs.Panic α} {P : α → Prop} (h : Yields x P) :
    Ends (fun _ => True) (onFs x) P := by
  cases hx : x with
  | error e => exact .error trivial
  | ok a => exact .ok (h.of_ok hx)

/-- The inode is held and locked, and a transaction is open since `fs`. -/
structure Holding (ip : Fin NINODE) (fs fs' : Fs.State) : Prop where
  moves : Moves (single ip) { fs with outstanding := fs.outstanding + 1 } fs'
  free : fs.locks ip = false
  locks : fs'.locks = Function.update fs.locks ip true

/-- No reference, lock or transaction more or less than before. -/
structure Balanced (fs fs' : Fs.State) : Prop where
  moves : Moves 0 fs fs'
  locks : fs'.locks = fs.locks

theorem reads_holding :
    Reads (fun _ => True) (Holding ip fs) (fun fs off n => onFs (fs.readi sb dev ip off n)) := by
  intro fs' off n h _
  apply onFs_ends
  apply ((Fs.State.readi_moves off n).and (Fs.State.readi_locks off n)).mono
  exact fun r hr => ⟨h.moves.before hr.1, h.free, hr.2.trans h.locks⟩

/-- The inode and the transaction are given back. -/
theorem Holding.put (h : Holding ip fs fs') :
    Ends (fun _ => True) (onFs (fs'.iunlockput sb ip)) fun fs₁ => Balanced fs fs₁.endOp := by
  apply onFs_ends
  apply (Fs.State.iunlockput_moves.and Fs.State.iunlockput_locks).mono
  intro fs₁ h₁
  constructor
  · exact ((h.moves.trans h₁.1).congr (add_neg_cancel _)).closes.moves
  · show fs₁.locks = fs.locks
    rw [h₁.2, h.locks, Function.update_idem, ← h.free, Function.update_eq_self]

theorem execBad_ends {pgdir : Option Pgdir} (hok : m₀.Ok k) (h : Holding ip fs fs')
    (hloaded : Loaded.Ok k m₀ m (.bad pgdir)) :
    Ends (fun _ => True) (execBad k sb pgdir ip curproc fs' m) fun r =>
      Balanced fs r.2.2.1 ∧ Replaced k path argv curproc m₀ r.1 r.2.1 r.2.2.2 := by
  cases pgdir with
  | none =>
    rw [execBad, ok_bind]
    apply h.put.bind
    exact fun fs₁ h₁ => .pure ⟨h₁, .failed hloaded.1⟩
  | some d =>
    obtain ⟨z, himage⟩ := hloaded
    obtain ⟨m', hret, hrestored, -⟩ := Pgdir.freevm_restores hok.valid himage.perm himage.data
    rw [execBad, hret, ok_bind]
    apply h.put.bind
    exact fun fs₁ h₁ => .pure ⟨h₁, .failed hrestored⟩

/-- A call of `exec` that returns. -/
theorem exec_ends (hcwd : 0 < (fs.icache cwd).ref) (hok : m.Ok k) :
    Ends (fun _ => True) (exec k sb dev cwd path argv curproc fs m) fun r =>
      Balanced fs r.2.2.1 ∧ Replaced k path argv curproc m r.1 r.2.1 r.2.2.2 := by
  rw [exec]
  apply (onFs_ends Fs.State.beginOp_yields).bind
  intro fs₁ h₁
  subst h₁
  have hmoves : Yields
      (({ fs with outstanding := fs.outstanding + 1 } : Fs.State).namei sb dev cwd path) fun r =>
        Moves (gainOf r.1) { fs with outstanding := fs.outstanding + 1 } r.2 :=
    Fs.State.namei_moves path hcwd
  apply (onFs_ends (hmoves.and (Fs.State.namei_locks path))).bind
  intro r hr
  obtain ⟨found, fs₂⟩ := r
  obtain ⟨hmoves, hlocks⟩ := hr
  cases found with
  | none =>
    apply Ends.pure
    exact ⟨⟨(Moves.closes hmoves).moves, hlocks⟩, .failed ⟨.refl _, fun _ _ => rfl⟩⟩
  | some ip =>
    dsimp only
    apply (onFs_ends (Fs.State.ilock_moves.and Fs.State.ilock_locks)).bind
    intro fs₃ h₃
    change fs₂.locks = fs.locks at hlocks
    rw [hlocks] at h₃
    have hholding : Holding ip fs fs₃ := ⟨Moves.before hmoves h₃.1, h₃.2.1, h₃.2.2⟩
    apply (load_ends reads_holding hok hholding).bind
    intro r hr
    obtain ⟨image, fs₄, m₁⟩ := r
    obtain ⟨h₄, hloaded⟩ := hr
    cases image with
    | bad pgdir => exact execBad_ends hok h₄ hloaded
    | good d sz entry =>
      have himage : Image k m plain sz d m₁ := hloaded
      apply h₄.put.bind
      intro fs₅ h₅
      cases hret : execImage k path argv d sz entry curproc fs₅.endOp m₁ with
      | error e => exact .error trivial
      | ok r =>
        obtain ⟨hfs, hreplaced⟩ := execImage_cases hok himage hret
        exact .ok ⟨hfs ▸ h₅, hreplaced⟩

/-- The program that `namei` finds is not locked when `exec` is called, or `exec` would wait for
it. -/
theorem exec_unlocked {fs₂ : Fs.State} (hbegin : fs.beginOp = .ok fs₁)
    (hnamei : fs₁.namei sb dev cwd path = .ok (some ip, fs₂)) :
    Ends (fun _ => True) (exec k sb dev cwd path argv curproc fs m) fun _ =>
      fs.locks ip = false := by
  have hfs₁ := Fs.State.beginOp_yields.of_ok hbegin
  have hlocks := (Fs.State.namei_locks path).of_ok hnamei
  rw [exec, hbegin, onFs_ok, ok_bind, hnamei, onFs_ok, ok_bind]
  apply (onFs_ends (Fs.State.ilock_locks (s := fs₂) (k := ip))).bind
  intro fs₃ h₃
  have hfree : fs.locks ip = false := by
    rw [← h₃.1, hlocks, hfs₁]
    rfl
  exact .of_forall (fun _ => trivial) fun _ => hfree

end Fs

/-- A call of `exec` that fails has no effect, whatever the path, the arguments and the file are,
and wherever it fails. The process is as it was, with its memory; the free pages are those there
were; no inode has a reference or a lock more or less, the program is not locked, and the
transaction is over. -/
theorem exec_failed_no_effect (k : Kernel) (sb : Superblock) (dev : Devsw) (cwd : Fin NINODE)
    (path : List UInt8) (argv : List (List UInt8)) (curproc p' : Proc) (fs fs' : Fs.State)
    (m m' : Mem) (hsound : Sound k curproc.pgdir m) (hcwd : 0 < (fs.icache cwd).ref)
    (hret : exec k sb dev cwd path argv curproc fs m = .ok (-1, p', fs', m')) :
    p' = curproc ∧ (∀ v < USERPAGES, curproc.pgdir.space m' v = curproc.pgdir.space m v) ∧
      m'.free.Perm m.free ∧
      (∀ i, (fs'.icache i).ref = (fs.icache i).ref ∧
        (fs'.icache i).locked = (fs.icache i).locked) ∧
      (∀ fs₁ ip fs₂, fs.beginOp = .ok fs₁ → fs₁.namei sb dev cwd path = .ok (some ip, fs₂) →
        (fs'.icache ip).locked = false) ∧
      fs'.outstanding = fs.outstanding := by
  obtain ⟨hbalanced, hreplaced⟩ := (exec_ends hcwd hsound.mem_ok).of_ok hret
  have hlocked : ∀ i, (fs'.icache i).locked = (fs.icache i).locked := congrFun hbalanced.locks
  dsimp only at hreplaced
  generalize hr : (-1 : ℤ) = r at hreplaced
  cases hreplaced with
  | failed hrestored =>
    refine ⟨rfl, fun v => space_of_data hsound hrestored.data, hrestored.free, ?_, ?_, ?_⟩
    · intro i
      refine ⟨?_, hlocked i⟩
      have href := hbalanced.moves.ref_eq i
      rw [Pi.zero_apply, add_zero] at href
      exact Int.ofNat_inj.mp href
    · intro fs₁ ip fs₂ hbegin hnamei
      rw [hlocked]
      exact (exec_unlocked hbegin hnamei).of_ok hret
    · exact hbalanced.moves.outstanding_eq
  | done => cases hr

/-- A file system in which the current directory is a file with these contents, of the length of
a header. -/
def headerFs (header : List UInt8) : Fs.State where
  disk := fun _ => buffer header
  icache := fun i =>
    if i.val = 0 then
      { inum := 2, ref := 1, valid := true,
        copy := { type := 2, nlink := 1, size := 52, addrs := fun _ => 14 } }
    else {}

/-- The header of a program without segments. -/
def emptyProgram : List UInt8 := [0x7f, 0x45, 0x4c, 0x46] ++ List.replicate 48 0

/-- `exec` of a program without segments comes to its arguments with two pages, for the stack. -/
theorem exec_emptyProgram (argv : List (List UInt8)) :
    ∃ fs' d m', Stacked Kernel.sample .hundred 8192 d m' ∧
      exec Kernel.sample Fs.sample {} ⟨0, Fs.ninode_pos⟩ [] argv .single (headerFs emptyProgram)
        .hundred = execArgs Kernel.sample [] argv d 8192 0 .single fs' m' := by
  obtain ⟨fs₁, fs₂, fs₃, fs₄, fs₅, hbegin, hnamei, hilock, hread, hput⟩ :
      ∃ fs₁ fs₂ fs₃ fs₄ fs₅, (headerFs emptyProgram).beginOp = .ok fs₁ ∧
        fs₁.namei Fs.sample {} ⟨0, Fs.ninode_pos⟩ [] = .ok (some ⟨0, Fs.ninode_pos⟩, fs₂) ∧
        fs₂.ilock Fs.sample ⟨0, Fs.ninode_pos⟩ = .ok fs₃ ∧
        fs₃.readi Fs.sample {} ⟨0, Fs.ninode_pos⟩ 0 ELFHDRSIZE =
          .ok (some emptyProgram, fs₄) ∧
        fs₄.iunlockput Fs.sample ⟨0, Fs.ninode_pos⟩ = .ok fs₅ :=
    ⟨_, _, _, _, _, rfl, rfl, rfl, rfl, rfl⟩
  obtain ⟨d, m, hsetup, hfresh⟩ := setupkvm_hundred
  obtain ⟨d', m', hstack, h⟩ := hfresh.allocStack
  have hload : load Kernel.sample
      (fun fs off n => onFs (fs.readi Fs.sample {} ⟨0, Fs.ninode_pos⟩ off n)) fs₃ .hundred =
        .ok (.good d 0 0, fs₄, m) := by
    have hlength : ¬ emptyProgram.length ≠ ELFHDRSIZE := by decide
    have hmagic : ¬ (Elfhdr.ofBytes (buffer emptyProgram)).magic ≠ ELF_MAGIC := by decide
    rw [load, hread, onFs_ok, ok_bind]
    dsimp only
    rw [if_neg hlength, if_neg hmagic, hsetup, ok_bind]
    rfl
  refine ⟨fs₅.endOp, d', m', h, ?_⟩
  rw [exec, hbegin, onFs_ok, ok_bind, hnamei, onFs_ok, ok_bind]
  dsimp only
  rw [hilock, onFs_ok, ok_bind, hload, ok_bind]
  dsimp only
  rw [hput, onFs_ok, ok_bind, execImage, hstack, ok_bind]

/-- An argument that does not fit into the page of the stack begins in the page below. -/
theorem Stacked.pushArgs_long (h : Stacked k m₀ 8192 d m) (x : UInt8) :
    d.pushArgs [List.replicate 4096 x] 8192 m = .ok (none, m) := by
  have hsp : pushed 8192 (List.replicate 4096 x) = 4092 := by
    rw [pushed, List.length_replicate]
    rfl
  have hcopy : d.copyout 4092 (List.replicate 4096 x ++ [0]) m = .ok (false, m) := by
    apply Pgdir.copyoutLoop_none
    · rw [List.length_append]
      exact Nat.succ_pos _
    · exact h.uva2ka_guard (v := 0) (by decide)
  rw [Pgdir.pushArgs, Pgdir.pushStrings, if_neg (by decide), hsp]
  dsimp only
  rw [hcopy]
  rfl

/-- An argument of a page: the new image, with its stack, is given back. -/
theorem exec_failed_no_effect_long : ∃ fs' m',
    exec Kernel.sample Fs.sample {} ⟨0, Fs.ninode_pos⟩ [] [List.replicate 4096 0x61] .single
      (headerFs emptyProgram) .hundred = .ok (-1, .single, fs', m') ∧
    m'.free.Perm Mem.hundred.free := by
  obtain ⟨fs', d, m, h, heq⟩ := exec_emptyProgram [List.replicate 4096 0x61]
  obtain ⟨m', hfreevm, -⟩ := Pgdir.freevm_restores Mem.hundred_ok.valid h.image.perm h.image.data
  have hret : exec Kernel.sample Fs.sample {} ⟨0, Fs.ninode_pos⟩ [] [List.replicate 4096 0x61]
      .single (headerFs emptyProgram) .hundred = .ok (-1, .single, fs', m') := by
    rw [heq, execArgs, h.pushArgs_long, ok_bind]
    dsimp only
    rw [hfreevm, ok_bind]
    rfl
  have heffect := exec_failed_no_effect Kernel.sample Fs.sample {} ⟨0, Fs.ninode_pos⟩ []
    [List.replicate 4096 0x61] .single .single (headerFs emptyProgram) fs' .hundred m'
    Pgdir.single_sound_hundred (by decide) hret
  exact ⟨fs', m', hret, heffect.2.2.1⟩

end Xv6.Mmu
