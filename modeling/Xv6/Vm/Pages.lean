/-
# No page is lost

Every page given to `kfree` at boot is in one place: the free list, a kernel stack, a page
directory, a page table, a page of a process, or a pipe. A page counts once for each place it
is in. What a call takes from the free list is in the places it has filled when it returns, so
the count of every page stays what it was at boot.
-/

import Xv6.Files.Frames
import Xv6.Vm.System

namespace Xv6.Vm

open Function Xv6.Lib Xv6.Files Xv6.Ptable

/-- How often a page is in a directory, if there is one. -/
def dirRefs : Option Pgdir → Page → ℤ
  | none, _ => 0
  | some d, a => refs d.slot a

theorem heldBy_eq (o : Option Pgdir) (free : Free) (a : Page) :
    heldBy o free a = dirRefs o a + free.count a := by
  cases o with
  | none => exact (zero_add _).symm
  | some d => rfl

/-- How often a page is a page of a process. -/
def Proc.refs (x : Proc) (a : Page) : ℤ :=
  if x.state = .unused then 0 else slotRef x.kstack a + dirRefs x.pgdir a

/-- Whether a page is a pipe. -/
def pipeRef (files : Files.State) (a : Page) : ℤ := if files.pipe a = none then 0 else 1

theorem dirRefs_nonneg (o : Option Pgdir) (a : Page) : 0 ≤ dirRefs o a := by
  cases o with
  | none => exact le_refl _
  | some d =>
    rw [dirRefs, refs_eq_card]
    exact Int.natCast_nonneg _

theorem Proc.refs_nonneg (x : Proc) (a : Page) : 0 ≤ x.refs a := by
  have hdir := dirRefs_nonneg x.pgdir a
  rw [Proc.refs, slotRef]
  split
  · exact le_refl _
  · split <;> omega

theorem count_kfreeAll (l : List Page) (free : Free) (a : Page) :
    (kfreeAll l free).count a = l.count a + free.count a := by
  simp [kfreeAll, kfree]

namespace State

/-- In how many places other than the free list a page is. -/
def used (s : State) (a : Page) : ℤ :=
  s.cpuStacks.count a + dirRefs s.kpgdir a + ∑ p, (s.proc p).refs a + pipeRef s.files a

variable {s : State} {p : Slot} {x : Proc} {a : Page} {m : Memory} {free : Free}
  {files : Files.State} {kmap : List Kmap}

theorem used_setProc (s : State) (p : Slot) (x : Proc) (a : Page) :
    (s.setProc p x).used a = s.used a - (s.proc p).refs a + x.refs a := by
  have hsum := sum_update (fun x : Proc => x.refs a) s.proc p x
  rw [used, used, setProc]
  dsimp only
  rw [hsum]
  omega

/-- A pipe is one of the places. -/
theorem pipeRef_le_used (s : State) (a : Page) : pipeRef s.files a ≤ s.used a := by
  have hdir := dirRefs_nonneg s.kpgdir a
  have hprocs : 0 ≤ ∑ p, (s.proc p).refs a :=
    Finset.sum_nonneg fun p _ => Proc.refs_nonneg (s.proc p) a
  rw [used]
  omega

/-- What holds between calls. -/
structure Inv (m : Memory) (s : State) : Prop where
  total : ∀ a, s.free.count a + s.used a = m.pages.count a
  exact : s.files.Exact 0
  closed : ∀ p, (s.proc p).state ≠ .live → ∀ fd, s.files.ofile (p, fd) = none
  size : ∀ p, (s.proc p).sz ≤ KERNBASE

/-- A process gets pages from the free list or gives them back, and perhaps descriptors. -/
theorem Inv.change (h : Inv m s)
    (hcount : ∀ a, (free.count a : ℤ) + x.refs a = s.free.count a + (s.proc p).refs a)
    (hlive : x.state = .live ∨ ∀ fd, files.ofile (p, fd) = none) (hsize : x.sz ≤ KERNBASE)
    (hexact : files.Exact 0) (hpipe : files.pipe = s.files.pipe)
    (hothers : ∀ q, q ≠ p → ∀ fd, files.ofile (q, fd) = s.files.ofile (q, fd)) :
    Inv m ({ s with free, files }.setProc p x) := by
  refine ⟨fun a => ?_, hexact, fun q hq fd => ?_, fun q => ?_⟩
  · have htotal := h.total a
    have hchange := hcount a
    have hused : { s with free, files }.used a = s.used a := by
      rw [used, used, pipeRef, pipeRef]
      dsimp only
      rw [hpipe]
    rw [used_setProc, hused]
    show (free.count a : ℤ) + _ = _
    dsimp only
    omega
  · by_cases heq : q = p
    · subst heq
      rw [setProc] at hq
      dsimp only at hq
      rw [update_self] at hq
      exact hlive.resolve_left hq fd
    · rw [setProc] at hq
      dsimp only at hq
      rw [update_of_ne heq] at hq
      exact (hothers q heq fd).trans (h.closed q hq fd)
  · rw [setProc]
    dsimp only
    by_cases heq : q = p
    · rwa [heq, update_self]
    · rw [update_of_ne heq]
      exact h.size q

theorem Inv.setProc (h : Inv m s)
    (hcount : ∀ a, (free.count a : ℤ) + x.refs a = s.free.count a + (s.proc p).refs a)
    (hlive : x.state = .live ∨ (s.proc p).state ≠ .live) (hsize : x.sz ≤ KERNBASE) :
    Inv m ({ s with free }.setProc p x) :=
  h.change hcount (hlive.imp id (h.closed p)) hsize h.exact rfl fun _ _ _ => rfl

/-- The free list has changed, but not what is on it. -/
theorem Inv.setFree (h : Inv m s) (hcount : ∀ a, free.count a = s.free.count a) :
    Inv m { s with free } := by
  refine ⟨fun a => ?_, h.exact, h.closed, h.size⟩
  show (free.count a : ℤ) + s.used a = _
  rw [hcount a]
  exact h.total a

theorem Proc.refs_of_live (hlive : x.state ≠ .unused) :
    x.refs a = slotRef x.kstack a + dirRefs x.pgdir a := if_neg hlive

theorem resize_ends {d : Pgdir} {sz : ℕ} (hsz : sz ≤ KERNBASE) (n : ℤ) :
    Ends (fun _ => True) (resize d sz n free) fun r =>
      (∀ a, r.2.1.held r.2.2 a = d.held free a) ∧ r.1 ≤ KERNBASE := by
  rw [resize]
  apply Ends.ite
  · exact fun _ => Pgdir.allocuvm_ends hsz
  · exact fun _ => (Pgdir.deallocuvm_ends hsz).mono fun r hr => ⟨hr.1, hr.2.1.trans hsz⟩

theorem Inv.growproc (h : Inv m s) (hp : (s.proc p).state = .live) (n : ℤ) :
    Ends (fun _ => True) (s.growproc p n) (Inv m) := by
  rw [State.growproc]
  cases hdir : (s.proc p).pgdir with
  | none => exact .error trivial
  | some d =>
    apply Ends.ite
    · exact fun _ => .ok h
    · intro _
      apply (resize_ends (h.size p) n).bind
      rintro ⟨sz, d', free⟩ ⟨hheld, hsz⟩
      apply Ends.pure
      apply h.setProc
      · intro a
        have hkept : dirRefs (some d') a + free.count a = dirRefs (some d) a + s.free.count a :=
          hheld a
        grind [Proc.refs_of_live]
      · exact .inl hp
      · dsimp only
        split
        · exact h.size p
        · exact hsz

/-- The directory and the free list keep their pages, and the size stays below the kernel. -/
def Loaded (d : Pgdir) (free : Free) (r : Option ℕ × Pgdir × Free) : Prop :=
  (∀ a, r.2.1.held r.2.2 a = d.held free a) ∧ ∀ sz, r.1 = some sz → sz ≤ KERNBASE

theorem Loaded.after {d d' : Pgdir} {free' : Free} {r : Option ℕ × Pgdir × Free}
    (h : Loaded d' free' r) (hheld : ∀ a, d'.held free' a = d.held free a) : Loaded d free r :=
  ⟨fun a => (h.1 a).trans (hheld a), h.2⟩

theorem loadSegments_ends (l : List Segment) {sz : ℕ} {d : Pgdir} (hsz : sz ≤ KERNBASE) :
    Ends (fun _ => True) (loadSegments l sz d free) (Loaded d free) := by
  have hbad : ∀ (d : Pgdir) (free : Free), Loaded d free (none, d, free) :=
    fun d free => ⟨fun _ => rfl, nofun⟩
  induction l generalizing sz d free with
  | nil =>
    refine .ok ⟨fun _ => rfl, fun sz' hsz' => ?_⟩
    cases hsz'
    exact hsz
  | cons seg rest ih =>
    rw [loadSegments]
    apply Ends.ite
    · exact fun _ => .ok (hbad d free)
    · intro _
      apply Ends.ite
      · exact fun _ => ih hsz
      · intro _
        apply Ends.ite
        · exact fun _ => .ok (hbad d free)
        · intro _
          apply Ends.ite
          · exact fun _ => .ok (hbad d free)
          · intro _
            apply (Pgdir.allocuvm_ends hsz).bind
            rintro ⟨sz', d', free'⟩ ⟨hheld, hsz'⟩
            apply Ends.ite
            · exact fun _ => .ok ((hbad d' free').after hheld)
            · intro _
              apply Ends.ite
              · exact fun _ => .ok ((hbad d' free').after hheld)
              · intro _
                have hany : Ends (fun _ => True) (loaduvm d' seg) fun _ => True := by
                  cases loaduvm d' seg <;> exact trivial
                apply hany.bind
                intro ok _
                apply Ends.ite
                · exact fun _ => (ih hsz').mono fun r hr => hr.after hheld
                · exact fun _ => .ok ((hbad d' free').after hheld)

theorem pushArgs_ends (args : Bool) {sz : ℕ} {d : Pgdir} (hsz : sz ≤ KERNBASE) :
    Ends (fun _ => True) (pushArgs args sz d free) (Loaded d free) := by
  have hround : pages sz * PGSIZE ≤ KERNBASE := by
    have hsize : PGSIZE = 4096 := rfl
    have hbase : KERNBASE = 524288 * 4096 := rfl
    rw [hbase] at hsz ⊢
    rw [pages, hsize]
    omega
  rw [pushArgs]
  apply (Pgdir.allocuvm_ends hround).bind
  rintro ⟨sz', d', free'⟩ ⟨hheld, hsz'⟩
  apply Ends.ite
  · exact fun _ => .ok ⟨hheld, (by simp)⟩
  · intro _
    apply Ends.ite
    · exact fun _ => .error trivial
    · intro _
      apply Ends.ite
      · refine fun _ => .ok ⟨hheld, fun sz hsz => ?_⟩
        cases hsz
        exact hsz'
      · exact fun _ => .ok ⟨hheld, (by simp)⟩

theorem loadImage_ends (prog : Program) {d : Pgdir} :
    Ends (fun _ => True) (loadImage prog d free) (Loaded d free) := by
  rw [loadImage]
  apply (loadSegments_ends prog.segments (Nat.zero_le _)).bind
  rintro ⟨sz, d', free'⟩ ⟨hheld, hsz⟩
  cases sz with
  | none => exact .ok ⟨hheld, nofun⟩
  | some sz => exact (pushArgs_ends prog.args (hsz sz rfl)).mono fun r hr => hr.after hheld

theorem Inv.exec (h : Inv m s) (hp : (s.proc p).state = .live) (prog : Program) :
    Ends (fun _ => True) (s.exec kmap p prog) (Inv m) := by
  rw [State.exec]
  apply Ends.ite
  · exact fun _ => .ok h
  · intro _
    apply setupkvm_ends.bind
    rintro ⟨d, free⟩ hnew
    cases d with
    | none => exact .pure (h.setFree fun a => Int.ofNat_inj.mp (hnew a))
    | some d =>
      apply (loadImage_ends prog).bind
      rintro ⟨sz, d', free'⟩ ⟨hheld, hsz⟩
      have hkept : ∀ a, d'.held free' a = s.free.count a := fun a => (hheld a).trans (hnew a)
      cases sz with
      | none =>
        apply Pgdir.freevm_ends.bind
        intro free'' hfreed
        exact .pure (h.setFree fun a => Int.ofNat_inj.mp ((hfreed a).trans (hkept a)))
      | some sz =>
        cases hold : (s.proc p).pgdir with
        | none => exact .error trivial
        | some old =>
          apply Pgdir.freevm_ends.bind
          intro free'' hfreed
          refine .pure (h.setProc (fun a => ?_) (.inl hp) (hsz sz rfl))
          have hback : (free''.count a : ℤ) = dirRefs (some old) a + free'.count a := hfreed a
          have hloaded : dirRefs (some d') a + free'.count a = s.free.count a := hkept a
          grind [Proc.refs_of_live]

theorem onFiles_ends {α : Type} {E : Files.Panic → Prop} {r : Except Files.Panic α}
    {P : α → Prop} (h : Ends E r P) : Ends (fun _ => True) (onFiles r) P := by
  cases r with
  | ok b => exact h
  | error e => exact trivial

theorem unusedSlot_state {np : Slot} (h : s.unusedSlot = some np) :
    (s.proc np).state = .unused :=
  of_decide_eq_true (List.find?_some (p := fun p => decide ((s.proc p).state = .unused)) h)

/-- The descriptors of a child. -/
theorem Inv.dupAll {np : Slot} (h : Inv m s) (hempty : ∀ fd, s.files.ofile (np, fd) = none) :
    Ends (fun _ => True) (onFiles (Files.State.dupAll p np (List.finRange NOFILE) s.files))
      fun files => files.Exact 0 ∧ files.pipe = s.files.pipe ∧
        ∀ q, q ≠ np → ∀ fd, files.ofile (q, fd) = s.files.ofile (q, fd) := by
  apply onFiles_ends
  exact (h.exact.dupAll (List.nodup_finRange _) fun fd _ => hempty fd).and
    Files.State.dupAll_same

theorem Inv.fork (h : Inv m s) : Ends (fun _ => True) (s.fork kmap p) (Inv m) := by
  rw [State.fork]
  cases hslot : s.unusedSlot with
  | none => exact .ok h
  | some np =>
    have hunused := unusedSlot_state hslot
    have hempty : ∀ fd, s.files.ofile (np, fd) = none := h.closed np (by rw [hunused]; decide)
    have hbefore : ∀ a, (s.proc np).refs a = 0 := fun a => if_pos hunused
    cases hfree : s.free with
    | nil => exact .ok h
    | cons kstack rest =>
      dsimp only [kalloc]
      cases (s.proc p).pgdir with
      | none => exact .error trivial
      | some pgdir =>
        apply (copyuvm_ends (h.size p)).bind
        rintro ⟨d, free⟩ hcopy
        have hcopied : ∀ a, dirRefs d a + free.count a + slotRef (some kstack) a =
            s.free.count a := by
          intro a
          rw [← heldBy_eq, hcopy a, hfree, Pgdir.count_cons, add_comm]
        cases d with
        | none =>
          have hdead : (s.proc np).state ≠ .live := by rw [hunused]; decide
          refine .pure (h.setProc (fun a => ?_) (.inr hdead) (h.size np))
          have hback := hcopied a
          rw [hbefore a, Proc.refs, if_pos rfl, kfree, Pgdir.count_cons]
          rw [dirRefs] at hback
          dsimp only at hback ⊢
          omega
        | some d =>
          apply (h.dupAll hempty).bind
          rintro files ⟨hexact, hpipe, hothers⟩
          apply Ends.pure
          apply h.change
          · grind [Proc.refs_of_live]
          · exact .inl rfl
          · exact h.size p
          · exact hexact
          · exact hpipe
          · exact hothers

/-! ## Calls on open files -/

/-- The page of a new pipe is on the free list, so it is nowhere else. -/
theorem Inv.proper (h : Inv m s) (hnodup : m.pages.Nodup) (hfree : a ∈ s.free) :
    s.files.kalloced.count a = s.files.kfreed.count a := by
  have htotal := h.total a
  have hone : m.pages.count a ≤ 1 := List.nodup_iff_count_le_one.mp hnodup a
  have hpos : 0 < s.free.count a := List.count_pos_iff.mpr hfree
  have hpipe := s.pipeRef_le_used a
  have hpages := h.exact.pages a
  rw [pipeRef] at hpipe
  split at hpipe
  · next hnone => rwa [if_pos hnone, add_zero] at hpages
  · omega

/-- The pages that a call on open files has taken and freed. -/
theorem used_absorb (hexact : s.files.Exact 0) (hexact' : files.Exact 0) {α φ : List Page}
    (hα : files.kalloced = s.files.kalloced ++ α) (hφ : files.kfreed = s.files.kfreed ++ φ)
    (a : Page) :
    (s.absorb files).used a = s.used a + α.count a - φ.count a := by
  have hbefore := hexact.pages a
  have hafter := hexact'.pages a
  rw [hα, hφ, List.count_append, List.count_append] at hafter
  have hpipe : pipeRef files a = pipeRef s.files a + α.count a - φ.count a := by
    rw [pipeRef, pipeRef]
    split at hbefore <;> split at hafter <;> simp_all <;> omega
  rw [used, used, absorb]
  dsimp only
  omega

theorem Inv.absorb (h : Inv m s) (hp : (s.proc p).state = .live) (hexact : files.Exact 0)
    (htouches : Files.State.Touches p (kalloc s.free).1 s.files files) :
    Inv m (s.absorb files) := by
  obtain ⟨α, hα, htaken⟩ := htouches.allocs
  obtain ⟨φ, hφ⟩ := htouches.frees
  refine ⟨fun a => ?_, hexact, fun q hq fd => ?_, h.size⟩
  · have htotal := h.total a
    have hfront : s.free = α ++ s.free.drop α.length := by
      rcases htaken with rfl | ⟨b, hb, rfl⟩
      · rfl
      · cases hfree : s.free with
        | nil =>
          rw [hfree] at hb
          cases hb
        | cons c rest =>
          rw [hfree] at hb
          cases hb
          rfl
    have hcount : s.free.count a = α.count a + (s.free.drop α.length).count a := by
      rw [← List.count_append, ← hfront]
    have hlog : (s.absorb files).free = kfreeAll φ (s.free.drop α.length) := by
      rw [State.absorb, hα, hφ]
      dsimp only
      rw [List.drop_left, List.length_append, Nat.add_sub_cancel_left]
    rw [used_absorb h.exact hexact hα hφ, hlog, count_kfreeAll]
    omega
  · have hne : q ≠ p := by
      rintro rfl
      exact hq hp
    exact (htouches.others q hne fd).trans (h.closed q hq fd)

theorem Inv.fileCall (h : Inv m s) (hp : (s.proc p).state = .live) {c : Files.Call}
    (hproper : c.Proper s.files p) (hfork : ∀ np, c ≠ .fork np)
    (hpage : c.page = none ∨ c.page = (kalloc s.free).1) :
    Ends (fun _ => True) (s.fileCall p c) (Inv m) := by
  rw [State.fileCall]
  apply (onFiles_ends ((Files.Call.perform_exact h.exact hproper).and
    (Files.Call.perform_touches hfork))).bind
  rintro files ⟨hexact, htouches⟩
  apply Ends.pure
  rcases hpage with hnone | hfirst
  · rw [hnone] at htouches
    exact h.absorb hp hexact (htouches.trans (.refl files))
  · rw [hfirst] at htouches
    exact h.absorb hp hexact htouches

theorem exit_closes (h : Inv m s) (hp : (s.proc p).state = .live) :
    Ends (fun _ => True) (s.fileCall p .exit) fun s' =>
      Inv m s' ∧ (s'.proc p).state = .live ∧ ∀ fd, s'.files.ofile (p, fd) = none := by
  rw [State.fileCall, Files.Call.perform]
  split
  · exact .error trivial
  · apply (onFiles_ends (h.exact.closeAll.and Files.State.closeAll_touches)).bind
    rintro files ⟨hexact, htouches, hnone⟩
    exact .pure ⟨h.absorb hp hexact htouches, hp, fun fd => hnone fd (.inr (List.mem_finRange fd))⟩

/-- Other parents. -/
theorem Inv.reparent (h : Inv m s) (parent : Slot → Option Slot) :
    Inv m { s with proc := fun q => { s.proc q with parent := parent q } } :=
  ⟨h.total, h.exact, h.closed, h.size⟩

/-- `exit`: the descriptors are closed, and the pages stay until the parent waits. -/
theorem Inv.exit (h : Inv m s) (hp : (s.proc p).state = .live) :
    Ends (fun _ => True) (s.exit p) (Inv m) := by
  rw [State.exit]
  apply (exit_closes h hp).bind
  rintro s' ⟨h', hp', hnone⟩
  refine .pure ((h'.reparent _).change (fun a => ?_) (.inr hnone) (h'.size p) h'.exact rfl
    fun _ _ _ => rfl)
  rw [Proc.refs_of_live (by exact nofun), Proc.refs_of_live]
  dsimp only
  rw [hp']
  exact nofun

theorem zombieChild_state {q : Slot} (h : s.zombieChild p = some q) :
    (s.proc q).state = .zombie := by
  have hfound := of_decide_eq_true (List.find?_some
    (p := fun q => decide ((s.proc q).parent = some p ∧ (s.proc q).state = .zombie)) h)
  exact hfound.2

theorem Inv.collect (h : Inv m s) : Ends (fun _ => True) (s.collect p) (Inv m) := by
  rw [State.collect]
  cases hchild : s.zombieChild p with
  | none => exact .ok h
  | some q =>
    have hzombie := zombieChild_state hchild
    dsimp only
    cases hstack : (s.proc q).kstack with
    | none => exact .error trivial
    | some kstack =>
      cases hdir : (s.proc q).pgdir with
      | none => exact .error trivial
      | some d =>
        apply Pgdir.freevm_ends.bind
        intro free hfreed
        refine .pure (h.setProc (fun a => ?_) (.inr (by rw [hzombie]; decide)) (h.size q))
        have hback : (free.count a : ℤ) =
            dirRefs (some d) a + (kfree kstack s.free).count a := hfreed a
        rw [kfree, Pgdir.count_cons] at hback
        rw [Proc.refs, if_pos rfl, Proc.refs_of_live (by rw [hzombie]; decide), hstack, hdir]
        omega

end State

/-- One call. -/
theorem Call.perform_inv {kmap : List Kmap} {m : Memory} {s : State} {p : Slot} {c : Call}
    (h : s.Inv m) (hnodup : m.pages.Nodup) (hp : (s.proc p).state = .live) :
    Ends (fun _ => True) (c.perform kmap s p) (State.Inv m) := by
  cases c with
  | fork => exact h.fork
  | exec prog =>
    cases prog with
    | none => exact .ok h
    | some prog => exact h.exec hp prog
  | sbrk n => exact h.growproc hp n
  | «open» found readable writable =>
    exact h.fileCall hp trivial (fun _ => Files.Call.noConfusion) (.inl rfl)
  | dup fd => exact h.fileCall hp trivial (fun _ => Files.Call.noConfusion) (.inl rfl)
  | close fd => exact h.fileCall hp trivial (fun _ => Files.Call.noConfusion) (.inl rfl)
  | pipe arg =>
    apply h.fileCall hp _ (fun _ => Files.Call.noConfusion) (.inr rfl)
    cases hfree : s.free with
    | nil => exact trivial
    | cons a rest => exact h.proper hnodup (by rw [hfree]; exact List.mem_cons_self)
  | exit => exact h.exit hp
  | wait => exact h.collect
  | waitx => exact h.collect

theorem pageRange_mem {vstart vend a : ℕ} (h : a ∈ pageRange vstart vend) :
    pages vstart ≤ a ∧ a < vend / PGSIZE := by
  rw [pageRange, List.mem_range'_1] at h
  generalize vend / PGSIZE = last, pages vstart = first at h ⊢
  omega

theorem Memory.pages_nodup (m : Memory) : m.pages.Nodup := by
  rw [Memory.pages, List.nodup_append]
  refine ⟨List.nodup_range', List.nodup_range', fun a ha b hb => ?_⟩
  have hlow := pageRange_mem ha
  have hhigh := pageRange_mem hb
  have hround : m.early / PGSIZE ≤ Vm.pages m.early := Nat.div_le_div_right (by rw [PGSIZE]; omega)
  exact (Nat.lt_of_lt_of_le hlow.2 (hround.trans hhigh.1)).ne

theorem startothers_count {n : ℕ} {cpuStacks cpuStacks' : List Page} {free free' : Free}
    (h : startothers n cpuStacks free = some (cpuStacks', free')) (a : Page) :
    cpuStacks'.count a + free'.count a = cpuStacks.count a + free.count a := by
  induction n generalizing cpuStacks free with
  | zero =>
    cases h
    rfl
  | succ n ih =>
    rw [startothers] at h
    cases free with
    | nil => cases h
    | cons b rest =>
      have hrest := ih h
      rw [List.count_cons] at hrest ⊢
      omega

/-- The first process. -/
theorem userinit_inv {kmap : List Kmap} {m : Memory} {free : Free} {kpgdir : Option Pgdir}
    {cpuStacks : List Page}
    (h : ∀ a, (free.count a : ℤ) + (cpuStacks.count a + dirRefs kpgdir a) = m.pages.count a) :
    Ends (fun _ => True) (userinit kmap { free, kpgdir, cpuStacks }) fun r =>
      ∀ s, r = some s → s.Inv m := by
  have hinv : State.Inv m { free, kpgdir, cpuStacks } := by
    refine ⟨fun a => ?_, exact_empty, fun _ _ _ => rfl, fun _ => Nat.zero_le _⟩
    have hunused : ∑ p : Slot, (({ } : Proc)).refs a = 0 :=
      Finset.sum_eq_zero fun _ _ => if_pos rfl
    show (free.count a : ℤ) + (cpuStacks.count a + dirRefs kpgdir a +
      ∑ p : Slot, (({ } : Proc)).refs a + 0) = _
    rw [hunused, ← h a]
    omega
  rw [userinit]
  cases free with
  | nil => exact .ok nofun
  | cons kstack rest =>
    apply setupkvm_ends.bind
    rintro ⟨d, free⟩ hnew
    cases d with
    | none => exact .pure nofun
    | some d =>
      cases free with
      | nil => exact .pure nofun
      | cons mem free =>
        have hzero : Pgdir.IsUser 0 := by
          rw [Pgdir.IsUser]
          decide
        have hmap := @Pgdir.mappages_user d free mem 0 hzero
        rw [Nat.zero_mul] at hmap
        apply hmap.bind
        rintro ⟨ok, d', free'⟩ hmapped
        cases ok with
        | false => exact .pure nofun
        | true =>
          refine .pure fun s hs => ?_
          cases hs
          apply hinv.setProc
          · intro a
            have hback : dirRefs (some d') a + free'.count a =
                dirRefs (some d) a + free.count a + slotRef (some mem) a := hmapped a
            have hstart : dirRefs (some d) a + ((mem :: free).count a : ℤ) = rest.count a :=
              hnew a
            rw [Pgdir.count_cons] at hstart ⊢
            rw [State.Proc.refs_of_live (by exact nofun)]
            show _ = _ + (0 : ℤ)
            dsimp only
            omega
          · exact .inl rfl
          · show PGSIZE ≤ KERNBASE
            decide

theorem boot_inv {kmap : List Kmap} {m : Memory} {others : ℕ} :
    Ends (fun _ => True) (boot kmap m others) fun r => ∀ s, r = some s → s.Inv m := by
  rw [boot]
  apply setupkvm_ends.bind
  rintro ⟨kpgdir, free⟩ hnew
  cases kpgdir with
  | none => exact .pure nofun
  | some kpgdir =>
    cases hothers : startothers others [] free with
    | none =>
      dsimp only
      rw [hothers]
      exact .pure nofun
    | some r =>
      obtain ⟨cpuStacks, free'⟩ := r
      dsimp only
      rw [hothers]
      apply userinit_inv
      intro a
      have hstart : dirRefs (some kpgdir) a + free.count a = (kinit1 m).count a := hnew a
      have hstacks := startothers_count hothers a
      rw [kinit1, freerange, count_kfreeAll] at hstart
      rw [kinit2, freerange, count_kfreeAll, Memory.pages, List.count_append]
      rw [List.count_nil] at hstacks hstart
      omega

theorem inv_of_reachable {kmap : List Kmap} {m : Memory} {others : ℕ} {s : State}
    (h : (system kmap m others).Reachable s) : s.Inv m := by
  apply h.invariant
  · intro s hs
    exact boot_inv.of_ok hs s rfl
  · rintro s ⟨p, c⟩ hs ⟨hlive, hcompletes⟩
    obtain ⟨s', hs'⟩ := exists_of_completes hcompletes
    have hinv := (Call.perform_inv hs m.pages_nodup hlive).of_ok hs'
    simp only [system, hs']
    exact hinv

/-- The places of a page that one process owns, or the kernel itself. -/
inductive Place
  | kstack (p : Slot)
  | pgdir (p : Slot) (pl : PgPlace)
  | kpgdir (pl : PgPlace)
  deriving DecidableEq

/-- The three kinds of places. -/
def Place.equiv : Place ≃ Slot ⊕ Slot × PgPlace ⊕ PgPlace where
  toFun
    | .kstack p => .inl p
    | .pgdir p pl => .inr (.inl (p, pl))
    | .kpgdir pl => .inr (.inr pl)
  invFun
    | .inl p => .kstack p
    | .inr (.inl (p, pl)) => .pgdir p pl
    | .inr (.inr pl) => .kpgdir pl
  left_inv := by rintro (_ | _ | _) <;> rfl
  right_inv := by rintro (_ | _ | _) <;> rfl

instance : Fintype Place := .ofEquiv _ Place.equiv.symm

namespace State

/-- The page at a place. A process whose slot is unused owns none. -/
def slot (s : State) : Place → Option Page
  | .kstack p => if (s.proc p).state = .unused then none else (s.proc p).kstack
  | .pgdir p pl => if (s.proc p).state = .unused then none else (s.proc p).pgdir.bind (·.slot pl)
  | .kpgdir pl => s.kpgdir.bind (·.slot pl)

/-- A live process has an end of the pipe in page `a` open. -/
def OpensPipe (s : State) (a : Page) : Prop :=
  ∃ p fd f w, (s.proc p).state = .live ∧ s.files.ofile (p, fd) = some f ∧ s.files.IsEnd f a w
  deriving Decidable

/-- In how many places a page is: those of the free list, the stacks of the other processors,
the places that are owned, and a pipe. -/
def places (s : State) (a : Page) : ℕ :=
  s.free.count a + s.cpuStacks.count a + (Finset.univ.filter fun pl => s.slot pl = some a).card +
    if s.OpensPipe a then 1 else 0

variable {s : State} {a : Page} {m : Memory}

theorem dirRefs_bind (o : Option Pgdir) (a : Page) :
    refs (fun pl => o.bind (·.slot pl)) a = dirRefs o a := by
  cases o with
  | none => exact refs_eq_zero (fun _ => rfl) a
  | some d => rfl

/-- What a process owns. -/
theorem refs_owned (s : State) (p : Slot) (a : Page) :
    slotRef (s.slot (.kstack p)) a + refs (fun pl => s.slot (.pgdir p pl)) a =
      (s.proc p).refs a := by
  rw [Proc.refs]
  split
  · next hunused =>
    rw [slot, if_pos hunused, refs_eq_zero fun pl => by rw [slot, if_pos hunused]]
    rfl
  · next hused =>
    simp [slot, hused, dirRefs_bind]

theorem card_slot (s : State) (a : Page) :
    ((Finset.univ.filter fun pl => s.slot pl = some a).card : ℤ) =
      dirRefs s.kpgdir a + ∑ p, (s.proc p).refs a := by
  rw [← refs_eq_card, refs, ← Place.equiv.symm.sum_comp, Fintype.sum_sum_type,
    Fintype.sum_sum_type, Fintype.sum_prod_type]
  have howned := Finset.sum_congr rfl fun p (_ : p ∈ Finset.univ) => s.refs_owned p a
  rw [Finset.sum_add_distrib] at howned
  have hkernel : ∑ pl, slotRef (s.slot (.kpgdir pl)) a = dirRefs s.kpgdir a := dirRefs_bind _ a
  rw [← howned, ← hkernel]
  show ∑ p, slotRef (s.slot (.kstack p)) a + (∑ p, refs (fun pl => s.slot (.pgdir p pl)) a +
    ∑ pl, slotRef (s.slot (.kpgdir pl)) a) = _
  omega

/-- A pipe is open in a live process. -/
theorem Inv.opensPipe_iff (h : Inv m s) (a : Page) : s.OpensPipe a ↔ s.files.pipe a ≠ none := by
  rw [h.exact.pipe_ne_none_iff]
  constructor
  · rintro ⟨p, fd, f, w, -, -, hend⟩
    exact ⟨f, w, hend⟩
  · rintro ⟨f, w, hend⟩
    have hcount := h.exact.count f
    have hpos : 0 < (s.files.ftable f).ref := hend.1
    rw [Pi.zero_apply, add_zero] at hcount
    obtain ⟨⟨p, fd⟩, hofile⟩ : ∃ d, s.files.ofile d = some f :=
      exists_of_refs_ne_zero (by omega)
    refine ⟨p, fd, f, w, ?_, hofile, hend⟩
    by_contra hdead
    rw [h.closed p hdead fd] at hofile
    cases hofile

theorem Inv.places_eq (h : Inv m s) (a : Page) : s.places a = m.pages.count a := by
  have htotal := h.total a
  have hcard := s.card_slot a
  have hpipe : pipeRef s.files a = if s.OpensPipe a then 1 else 0 := by
    rw [pipeRef]
    grind [h.opensPipe_iff]
  rw [used, hpipe] at htotal
  rw [places]
  split at htotal <;> split <;> first | contradiction | omega

end State

/-- After any calls, with any of the `kalloc`s failing because the free list is empty, a page
that was given to `kfree` at boot is in one place, and other pages are in none. -/
theorem pages_conserved {kmap : List Kmap} {m : Memory} {others : ℕ} {s : State}
    (h : (system kmap m others).Reachable s) (a : Page) :
    s.places a = if a ∈ m.pages then 1 else 0 := by
  rw [(inv_of_reachable h).places_eq a]
  split
  · next hmem => exact List.count_eq_one_of_mem m.pages_nodup hmem
  · next hmem => exact List.count_eq_zero_of_not_mem hmem

/-- A machine with 36 free pages and one page of the kernel to map. -/
def smallMemory : Memory := ⟨4 * PGSIZE, 10 * PGSIZE, 40 * PGSIZE⟩

/-- The mapping of that page. -/
def smallKmap : List Kmap := [⟨KERNBASE, PGSIZE, 0, by decide, by decide, by decide⟩]

/-- The first process forks, its child makes a pipe and grows by two pages. -/
def forkAndPipe : List (Slot × Call) := [(0, .fork), (1, .pipe true), (1, .sbrk (2 * PGSIZE))]

set_option maxRecDepth 10000 in
theorem pages_after_fork : ∃ s, (system smallKmap smallMemory 1).Reachable s ∧
    (s.proc 1).kstack = some 34 ∧ s.files.pipe 29 ≠ none ∧ s.places 34 = 1 ∧ s.places 29 = 1 := by
  have hrun : (boot smallKmap smallMemory 1).toOption.join.any (fun s =>
      ((system smallKmap smallMemory 1).exec forkAndPipe s).any
        fun s => (s.proc 1).kstack = some 34 ∧ s.files.pipe 29 ≠ none) = true := by decide +kernel
  obtain ⟨start, hboot, hexec⟩ := (Option.any_eq_true _ _).mp hrun
  have hstart : boot smallKmap smallMemory 1 = .ok (some start) := by
    cases hb : boot smallKmap smallMemory 1 with
    | error e =>
      rw [hb] at hboot
      cases hboot
    | ok r =>
      rw [hb] at hboot
      exact congrArg Except.ok (Option.join_eq_some_iff.mp hboot |> Option.some.inj)
  obtain ⟨s, hs, hstack, hpipe⟩ := Machine.exists_reachable_of_exec _ forkAndPipe hstart hexec
  exact ⟨s, hs, hstack, hpipe, pages_conserved hs 34, pages_conserved hs 29⟩

end Xv6.Vm
