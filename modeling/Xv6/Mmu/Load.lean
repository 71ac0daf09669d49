/-
# Loading a program

The loader of `exec` on an arbitrary file. Whatever the headers say, every page of the user
that it touches is there: `allocuvm` has made the image large enough for the segment, or has
refused it. So the loader never stops with a panic, reads the file into pages of the image
only, and the pages of the image are those below its size all the time.
-/

import Xv6.Mmu.Copy
import Xv6.Mmu.Exec

namespace Xv6.Mmu

open Xv6.Lib Xv6.Files
open Xv6.Vm (PGSIZE NPDENTRIES NPTENTRIES KERNBASE pages)

variable {k : Kernel} {d d' : Pgdir} {m m' m₀ : Mem} {u v n j i sz newsz addr offset fsz fuel : ℕ}
  {a : Page} {x : Pte} {flags : ℕ → Flags}

/-- The flags of the pages of an image that has no stack yet. -/
def plain : ℕ → Flags := fun _ => userFlags

/-- An image of `sz` bytes, with these flags, that is being made of the pages that were free in
`m₀`. -/
structure Image (k : Kernel) (m₀ : Mem) (flags : ℕ → Flags) (sz : ℕ) (d : Pgdir) (m : Mem) :
    Prop where
  sz_lt : sz < KERNBASE
  exact : d.Exact sz
  user : ∀ v < pages sz, ∃ a, d.lookup v = some ⟨a, flags v⟩
  kernel : ∀ v x, USERPAGES ≤ v → d.lookup v = some x → ¬ x.Has PTE_U
  has : ∀ i, USERPAGES / NPTENTRIES ≤ i → d.has i = kernelTables (kmap k) (fun _ => false) i
  data : ∀ a, a ∉ m₀.free → m.data a = m₀.data a
  free : ∀ a ∈ m.free, a ∈ m₀.free
  perm : (d.owned ++ m.free).Perm m₀.free
  loaded : ∀ a ∈ m.loaded, a ∈ m₀.loaded ∨ ∃ v < pages sz, ∃ x, d.lookup v = some x ∧ x.addr = a

/-- Free pages that `kfree` takes, each once on the list. -/
structure Mem.Ok (k : Kernel) (m : Mem) : Prop where
  nodup : m.free.Nodup
  valid : ∀ a ∈ m.free, k.Valid a

theorem Sound.mem_ok (h : Sound k d m) : m.Ok k :=
  ⟨(List.nodup_append.mp h.nodup).2.1, fun _ => h.valid_of_free⟩

namespace Image

theorem of_fresh (h : Fresh k m₀ d m) : Image k m₀ plain 0 d m where
  sz_lt := by decide
  exact := fun v hv => iff_of_false (by rw [h.user v hv]; decide) (Nat.not_lt_zero v)
  user := fun v hv => absurd hv (Nat.not_lt_zero v)
  kernel := fun v x _ => h.kernel v x
  has := fun i _ => congrFun h.has i
  data := fun a _ => congrFun h.data a
  free := h.free
  perm := h.perm
  loaded := fun a ha => .inl (h.loaded ▸ ha)

theorem sound (h : Image k m₀ flags sz d m) (hok : m₀.Ok k) : Sound k d m where
  nodup := h.perm.nodup_iff.mpr hok.nodup
  valid := fun a ha => hok.valid a (h.perm.mem_iff.mp ha)

theorem pages_le (h : Image k m₀ flags sz d m) : pages sz ≤ USERPAGES := Pgdir.pages_le h.sz_lt.le

/-- Pages have been added to the image. -/
theorem grown (h : Image k m₀ plain sz d m) (hle : sz ≤ newsz) (hlt : newsz < KERNBASE)
    (hgrown : Grown (pages sz) (pages newsz - pages sz) d m d' m') :
    Image k m₀ plain newsz d' m' := by
  have hsum := Pgdir.pages_add_sub hle
  have htop : pages newsz ≤ USERPAGES := Pgdir.pages_le hlt.le
  constructor
  case sz_lt => exact hlt
  case exact => exact hgrown.exact h.exact hle
  case user =>
    intro v hv
    by_cases hold : v < pages sz
    · rw [hgrown.old v (by omega)]
      exact h.user v hold
    · obtain ⟨a, -, hlookup, -⟩ := hgrown.new v (by omega) (by omega)
      exact ⟨a, hlookup⟩
  case kernel =>
    intro v x hv hx
    rw [hgrown.old v (by omega)] at hx
    exact h.kernel v x hv hx
  case has => exact fun i hi => (hgrown.has i hi).trans (h.has i hi)
  case data =>
    intro a ha
    rw [hgrown.data a fun hfree => ha (h.free a hfree), h.data a ha]
  case free => exact fun a ha => h.free a (hgrown.free a ha)
  case perm => exact hgrown.perm.trans h.perm
  case loaded =>
    intro a ha
    rw [hgrown.loaded] at ha
    obtain hold | ⟨v, hv, x, hx, hxa⟩ := h.loaded a ha
    · exact .inl hold
    · refine .inr ⟨v, by omega, x, ?_, hxa⟩
      rw [hgrown.old v (by omega), hx]

/-- A failed growth. -/
theorem grown_zero (h : Image k m₀ plain sz d m) (hgrown : Grown (pages sz) 0 d m d' m') :
    Image k m₀ plain sz d' m' := by
  apply h.grown (Nat.le_refl sz) h.sz_lt
  rw [Nat.sub_self]
  exact hgrown

/-- `allocuvm` of an image: it fails, or the image has at least the new size. -/
theorem allocuvm (h : Image k m₀ plain sz d m) (hok : m₀.Ok k) (newsz : ℕ) :
    ∃ r d' m', d.allocuvm k sz newsz m = .ok (r, d', m') ∧
      ((r = 0 ∧ Image k m₀ plain sz d' m') ∨
        (r = max sz newsz ∧ Image k m₀ plain r d' m')) := by
  by_cases hbig : newsz ≥ KERNBASE
  · rw [Pgdir.allocuvm, if_pos hbig]
    exact ⟨0, d, m, rfl, .inl ⟨rfl, h⟩⟩
  · by_cases hless : newsz < sz
    · rw [Pgdir.allocuvm, if_neg hbig, if_pos hless]
      exact ⟨sz, d, m, rfl, .inr ⟨(Nat.max_eq_left hless.le).symm, h⟩⟩
    · have hlt : newsz < KERNBASE := Nat.lt_of_not_le hbig
      have hle : sz ≤ newsz := Nat.le_of_not_lt hless
      obtain ⟨⟨r, d', m'⟩, hr, henough, hfail⟩ :=
        Pgdir.allocuvm_spec (h.sound hok) h.exact hle hlt
      by_cases hpages : d.growNeed sz newsz ≤ m.free.length
      · obtain ⟨rfl, hgrown⟩ := henough hpages
        exact ⟨_, d', m', hr, .inr ⟨(Nat.max_eq_right hle).symm, h.grown hle hlt hgrown⟩⟩
      · obtain ⟨rfl, hgrown⟩ := hfail hpages
        exact ⟨0, d', m', hr, .inl ⟨rfl, h.grown_zero hgrown⟩⟩

/-- A page of the image gets new contents. -/
theorem setPage (h : Image k m₀ flags sz d m) (hv : v < pages sz) (hx : d.lookup v = some x)
    (bytes : Bytes) : Image k m₀ flags sz d (m.setPage x.addr bytes) := by
  have hown : x.addr ∈ m₀.free := h.perm.mem_iff.mp (List.mem_append_left _
    (Pgdir.mem_owned_of_lookup (hv.trans_le h.pages_le) hx))
  refine { h with data := ?_, free := h.free, perm := h.perm, loaded := h.loaded }
  intro a ha
  rw [← h.data a ha]
  exact Function.update_of_ne (ne_of_mem_of_not_mem hown ha).symm _ _

/-- `loaduvm` reads into a page of the image. -/
theorem write (h : Image k m₀ flags sz d m) (hv : v < pages sz) (hx : d.lookup v = some x)
    (bytes : Bytes) :
    Image k m₀ flags sz d { m.setPage x.addr bytes with loaded := x.addr :: m.loaded } := by
  have hset := h.setPage hv hx bytes
  refine { h with data := hset.data, free := h.free, perm := h.perm, loaded := ?_ }
  grind [h.loaded]

end Image

section Loader

variable {σ : Type} {E : Stop → Prop} {P : σ → Prop} {s : σ}
  {readi : σ → ℕ → ℕ → Except Stop (Option (List UInt8) × σ)}

/-- Reads of a file keep a property of what they read from, and stop only as `E` allows. -/
def Reads (E : Stop → Prop) (P : σ → Prop)
    (readi : σ → ℕ → ℕ → Except Stop (Option (List UInt8) × σ)) : Prop :=
  ∀ s off n, P s → n ≤ PGSIZE → Ends E (readi s off n) fun r => P r.2

/-- The loop of `loaduvm` from its page `j` on, for a segment that is inside the image. -/
theorem loadLoop_ends (hread : Reads E P readi) (h : Image k m₀ plain sz d m) (hs : P s)
    (hfit : ∀ u, u * PGSIZE < v * PGSIZE + fsz → u < pages sz) (hfuel : pages fsz - j < fuel) :
    Ends E (d.loadLoop readi (v * PGSIZE) offset fsz fuel (j * PGSIZE) s m) fun r =>
      P r.2.1 ∧ Image k m₀ plain sz d r.2.2 := by
  have htop : pages sz ≤ 524288 := h.pages_le
  have hall : NPAGES = 1048576 := rfl
  have hsize : PGSIZE = 4096 := rfl
  induction fuel generalizing j s m with
  | zero => exact absurd hfuel (Nat.not_lt_zero _)
  | succ fuel ih =>
    rw [Pgdir.loadLoop]
    apply Ends.ite
    · intro hlt
      have hpage : v + j < pages sz := hfit (v + j) (by rw [Nat.add_mul]; omega)
      have hj : j < pages fsz := Pgdir.lt_pages.mp hlt
      have haddr : (v * PGSIZE + j * PGSIZE) % 2 ^ 32 = (v + j) * PGSIZE := by
        rw [← Nat.add_mul, hsize]
        omega
      have hnext : (j * PGSIZE + PGSIZE) % 2 ^ 32 = (j + 1) * PGSIZE := next_mul (by omega)
      obtain ⟨a, ha⟩ := h.user (v + j) hpage
      obtain ⟨hentry, -⟩ := Pgdir.entry_of_lookup ha
      rw [haddr, Pgdir.walk_mul (by omega), hentry, hnext]
      dsimp only
      have hn : (if fsz - j * PGSIZE < PGSIZE then fsz - j * PGSIZE else PGSIZE) ≤ PGSIZE := by
        split <;> omega
      apply (hread s _ _ hs hn).bind
      intro r hr
      obtain ⟨data, s'⟩ := r
      cases data with
      | none => exact .pure ⟨hr, h⟩
      | some data =>
        have hwrite := h.write hpage ha ((m.data a).blit 0 data)
        apply Ends.ite
        · exact fun _ => .pure ⟨hr, hwrite⟩
        · exact fun _ => ih hwrite hr (by omega)
    · exact fun _ => .ok ⟨hs, h⟩

/-- `loaduvm` of a segment that is inside the image. -/
theorem loaduvm_ends (hread : Reads E P readi) (h : Image k m₀ plain sz d m) (hs : P s)
    (haddr : addr % PGSIZE = 0) (hfit : addr + fsz ≤ sz) :
    Ends E (d.loaduvm readi addr offset fsz s m) fun r =>
      P r.2.1 ∧ Image k m₀ plain sz d r.2.2 := by
  obtain ⟨v, rfl⟩ := Nat.dvd_of_mod_eq_zero haddr
  rw [Nat.mul_comm] at haddr hfit ⊢
  rw [Pgdir.loaduvm, if_neg (not_not.mpr haddr), ← Nat.zero_mul PGSIZE]
  apply loadLoop_ends hread h hs
  · intro u hu
    exact Pgdir.lt_pages.mp (hu.trans_le hfit)
  · omega

/-- The loop of `exec` over the program headers: whatever they say, the image stays one. -/
theorem loadSegments_ends (hread : Reads E P readi) (hok : m₀.Ok k) (off : ℕ)
    (h : Image k m₀ plain sz d m) (hs : P s) :
    Ends E (loadSegments k readi n off sz s d m) fun r =>
      P r.2.1 ∧ ∃ sz', Image k m₀ plain sz' r.2.2.1 r.2.2.2 ∧ ∀ z, r.1 = some z → z = sz' := by
  induction n generalizing off sz s d m with
  | zero => exact .ok ⟨hs, sz, h, fun z hz => (Option.some_inj.mp hz).symm⟩
  | succ n ih =>
    -- `goto bad` with the image as it is
    have hbad : ∀ {sz d m} {s : σ}, Image k m₀ plain sz d m → P s → Ends E
        (.ok (none, s, d, m) : Except Stop (Option ℕ × σ × Pgdir × Mem)) fun r => P r.2.1 ∧
          ∃ sz', Image k m₀ plain sz' r.2.2.1 r.2.2.2 ∧ ∀ z, r.1 = some z → z = sz' := by
      intro sz d m s h hs
      exact .ok ⟨hs, sz, h, by simp⟩
    rw [loadSegments]
    apply (hread s off PROGHDRSIZE hs (by decide)).bind
    intro r hr
    obtain ⟨data, s'⟩ := r
    change P s' at hr
    cases data with
    | none => exact hbad h hr
    | some data =>
      dsimp only
      apply Ends.ite (fun _ => hbad h hr)
      intro _
      apply Ends.ite (fun _ => ih _ h hr)
      intro _
      apply Ends.ite (fun _ => hbad h hr)
      intro hmemsz
      apply Ends.ite (fun _ => hbad h hr)
      intro hwrap
      obtain ⟨r, d', m', hret, hcases⟩ := h.allocuvm hok
        (((Proghdr.ofBytes (buffer data)).vaddr + (Proghdr.ofBytes (buffer data)).memsz) %
          2 ^ 32)
      rw [hret, ok_bind]
      dsimp only
      obtain ⟨rfl, h'⟩ | ⟨hmax, h'⟩ := hcases
      · rw [if_pos rfl]
        exact hbad h' hr
      · apply Ends.ite (fun _ => hbad h' hr)
        intro _
        apply Ends.ite (fun _ => hbad h' hr)
        intro haligned
        have hvaddr : (Proghdr.ofBytes (buffer data)).vaddr < 2 ^ 32 :=
          Bytes.getLE_lt (buffer data) 8 4
        have hmem : (Proghdr.ofBytes (buffer data)).memsz < 2 ^ 32 :=
          Bytes.getLE_lt (buffer data) 20 4
        apply (loaduvm_ends hread h' hr (not_not.mp haligned) (by omega)).bind
        intro r hload
        obtain ⟨ok, s'', m''⟩ := r
        obtain ⟨hs'', h''⟩ := hload
        apply Ends.ite (fun _ => ih _ h'' hs'')
        exact fun _ => hbad h'' hs''

/-- What the loader has made of the pages that were free in `m₀`. -/
def Loaded.Ok (k : Kernel) (m₀ m : Mem) : Loaded → Prop
  | .bad none => m₀.Restored m ∧ m.loaded = m₀.loaded
  | .bad (some d) => ∃ sz, Image k m₀ plain sz d m
  | .good d sz _ => Image k m₀ plain sz d m

theorem load_ends (hread : Reads E P readi) (hok : m.Ok k) (hs : P s) :
    Ends E (load k readi s m) fun r => P r.2.1 ∧ r.1.Ok k m r.2.2 := by
  have hsame : Loaded.Ok k m m (.bad none) := ⟨⟨.refl _, fun _ _ => rfl⟩, rfl⟩
  rw [load]
  apply (hread s 0 ELFHDRSIZE hs (by decide)).bind
  intro r hr
  obtain ⟨data, s'⟩ := r
  cases data with
  | none => exact .pure ⟨hr, hsame⟩
  | some data =>
    dsimp only
    apply Ends.ite (fun _ => .pure ⟨hr, hsame⟩)
    intro _
    apply Ends.ite (fun _ => .pure ⟨hr, hsame⟩)
    intro _
    obtain ⟨pgdir, m', hret, henough, hlack⟩ := setupkvm_spec hok.valid
    rw [hret, ok_bind]
    dsimp only
    by_cases hneed : 1 + kernelNeed (kmap k) (fun _ => false) ≤ m.free.length
    · obtain ⟨d, rfl, hfresh⟩ := henough hneed
      dsimp only
      apply (loadSegments_ends hread hok _ (Image.of_fresh hfresh) hr).bind
      intro r hload
      obtain ⟨sz, s'', d', m''⟩ := r
      obtain ⟨hs'', sz', himage, hsz⟩ := hload
      cases sz with
      | none => exact .pure ⟨hs'', sz', himage⟩
      | some sz =>
        obtain rfl : sz = sz' := hsz sz rfl
        exact .pure ⟨hs'', himage⟩
    · obtain ⟨rfl, hrestored⟩ := hlack (Nat.lt_of_not_le hneed)
      exact .pure ⟨hr, hrestored⟩

end Loader

/-! ## The stack -/

/-- The flags of the page below the stack. -/
def guardFlags : Flags := PTE_W ||| PTE_P

/-- The flags of the pages of an image of `sz` bytes with a stack. -/
def guarded (sz : ℕ) (v : ℕ) : Flags := if v + 2 = pages sz then guardFlags else userFlags

namespace Pgdir

theorem frames_congr_addr (h : ∀ u, (d'.lookup u).map Pte.addr = (d.lookup u).map Pte.addr) :
    d'.frames v n = d.frames v n := by
  rw [frames_eq, frames_eq, funext h]

/-- `clearpteu` takes a page away from the user. -/
theorem clearpteu_spec (hv : v < USERPAGES) (hx : d.lookup v = some ⟨a, userFlags⟩) :
    ∃ d', d.clearpteu (v * PGSIZE) = .ok d' ∧ d'.lookup v = some ⟨a, guardFlags⟩ ∧
      (∀ u, u ≠ v → d'.lookup u = d.lookup u) ∧ d'.has = d.has ∧ d'.owned = d.owned := by
  have hlt : v < NPAGES := hv.trans userpages_lt_npages
  obtain ⟨hentry, -⟩ := entry_of_lookup hx
  have hself : (d.setPte (v * PGSIZE) ⟨a, guardFlags⟩).lookup v = some ⟨a, guardFlags⟩ :=
    lookup_setPte_self hlt hentry (show guardFlags &&& PTE_P ≠ 0 by decide)
  refine ⟨d.setPte (v * PGSIZE) ⟨a, guardFlags⟩, ?_, hself, ?_, rfl, ?_⟩
  · have hflags : userFlags &&& ~~~PTE_U = guardFlags := by decide
    rw [clearpteu, walk_mul hlt, hentry]
    dsimp only
    rw [hflags]
  · exact fun u hu => lookup_setPte_of_ne hlt hu
  · rw [owned, owned, frames_congr_addr (d := d)]
    · rfl
    · grind [lookup_setPte_of_ne]

end Pgdir

/-- The page below the stack is taken away from the user. -/
theorem Image.guard (h : Image k m₀ plain sz d m) (hv : v + 2 = pages sz) :
    ∃ d', d.clearpteu (v * PGSIZE) = .ok d' ∧ Image k m₀ (guarded sz) sz d' m := by
  have htop := h.pages_le
  obtain ⟨a, ha⟩ := h.user v (by omega)
  obtain ⟨d', hclear, hself, hother, hhas, howned⟩ := Pgdir.clearpteu_spec (by omega) ha
  refine ⟨d', hclear, ?_⟩
  constructor
  case sz_lt => exact h.sz_lt
  case exact =>
    intro u hu
    by_cases heq : u = v
    · rw [heq, hself]
      exact iff_of_true rfl (by omega)
    · rw [hother u heq, h.exact u hu]
  case user =>
    intro u hu
    by_cases heq : u = v
    · rw [heq, guarded, if_pos hv]
      exact ⟨a, hself⟩
    · rw [hother u heq, guarded, if_neg (by omega)]
      exact h.user u hu
  case kernel =>
    intro u x hu hx
    rw [hother u (by omega)] at hx
    exact h.kernel u x hu hx
  case has =>
    intro i hi
    rw [hhas, h.has i hi]
  case data => exact h.data
  case free => exact h.free
  case perm =>
    rw [howned]
    exact h.perm
  case loaded =>
    intro b hb
    obtain hold | ⟨u, hu, x, hx, hxb⟩ := h.loaded b hb
    · exact .inl hold
    · by_cases heq : u = v
      · rw [heq, ha, Option.some_inj] at hx
        rw [← hx] at hxb
        exact .inr ⟨v, by omega, _, hself, hxb⟩
      · exact .inr ⟨u, hu, x, (hother u heq).trans hx, hxb⟩

/-- An image with a stack, whose size is a multiple of a page. -/
structure Stacked (k : Kernel) (m₀ : Mem) (sz : ℕ) (d : Pgdir) (m : Mem) : Prop where
  image : Image k m₀ (guarded sz) sz d m
  sz_eq : sz = pages sz * PGSIZE
  two_le : 2 ≤ pages sz

/-- The size counts in pages. -/
theorem Image.resize {z : ℕ} (h : Image k m₀ flags sz d m) (hpages : pages z = pages sz)
    (hlt : z < KERNBASE) : Image k m₀ flags z d m := by
  obtain ⟨-, hexact, huser, hkernel, hhas, hdata, hfree, hperm, hloaded⟩ := h
  rw [Pgdir.Exact, ← hpages] at hexact
  rw [← hpages] at huser hloaded
  exact ⟨hlt, hexact, huser, hkernel, hhas, hdata, hfree, hperm, hloaded⟩

theorem pages_mul (n : ℕ) : pages (n * PGSIZE) = n := by
  show (n * 4096 + 4096 - 1) / 4096 = n
  omega

/-- The two pages above the program are there, or the image is as it was. -/
theorem Image.allocStack (h : Image k m₀ plain sz d m) (hok : m₀.Ok k) :
    ∃ r d' m', d.allocStack k sz m = .ok (r, d', m') ∧
      ((r = none ∧ Image k m₀ plain sz d' m') ∨ ∃ z, r = some z ∧ Stacked k m₀ z d' m') := by
  have hround := Pgdir.pgRoundUp_eq h.sz_lt
  have htop := h.pages_le
  change pages sz ≤ 524288 at htop
  have hnew : (pages sz * PGSIZE + 2 * PGSIZE) % 2 ^ 32 = (pages sz + 2) * PGSIZE := by
    show (pages sz * 4096 + 2 * 4096) % 2 ^ 32 = (pages sz + 2) * 4096
    omega
  rw [Pgdir.allocStack, hround]
  dsimp only
  rw [hnew]
  by_cases hbig : (pages sz + 2) * PGSIZE ≥ KERNBASE
  · rw [Pgdir.allocuvm, if_pos hbig, ok_bind]
    exact ⟨none, d, m, rfl, .inl ⟨rfl, h⟩⟩
  · have hlt : (pages sz + 2) * PGSIZE < KERNBASE := Nat.lt_of_not_le hbig
    have hpages : pages ((pages sz + 2) * PGSIZE) = pages sz + 2 := pages_mul _
    have hle : pages sz * PGSIZE ≤ (pages sz + 2) * PGSIZE := Nat.mul_le_mul_right _ (by omega)
    have hrounded := h.resize (pages_mul (pages sz)) (hle.trans_lt hlt)
    obtain ⟨r, d', m', hr, hcases⟩ := hrounded.allocuvm hok ((pages sz + 2) * PGSIZE)
    rw [hr, ok_bind]
    dsimp only
    obtain ⟨rfl, h'⟩ | ⟨hmax, h'⟩ := hcases
    · rw [if_pos rfl]
      exact ⟨none, d', m', rfl, .inl ⟨rfl, h'.resize (pages_mul _).symm h.sz_lt⟩⟩
    · rw [Nat.max_eq_right hle] at hmax
      subst hmax
      have hguard : ((pages sz + 2) * PGSIZE + 2 ^ 32 - 2 * PGSIZE) % 2 ^ 32 =
          pages sz * PGSIZE := by
        change (pages sz + 2) * 4096 < 2147483648 at hlt
        show ((pages sz + 2) * 4096 + 2 ^ 32 - 2 * 4096) % 2 ^ 32 = pages sz * 4096
        omega
      have hpos : (pages sz + 2) * PGSIZE ≠ 0 := by
        show (pages sz + 2) * 4096 ≠ 0
        omega
      obtain ⟨d'', hclear, himage⟩ := h'.guard hpages.symm
      rw [if_neg hpos, hguard, hclear, ok_bind]
      refine ⟨_, d'', m', rfl, .inr ⟨_, rfl, himage, ?_, ?_⟩⟩
      · rw [hpages]
      · rw [hpages]
        omega

/-- `readi` of a file with these contents. -/
def readContents (contents : List UInt8) (_ : Unit) (off n : ℕ) :
    Except Stop (Option (List UInt8) × Unit) :=
  if off > contents.length ∨ (off + n) % 2 ^ 32 < off then .ok (none, ())
  else .ok (some ((contents.drop off).take n), ())

theorem reads_contents (contents : List UInt8) :
    Reads (fun _ => False) (fun _ => True) (readContents contents) := by
  intro s off n _ _
  rw [readContents]
  exact Ends.ite (fun _ => .ok trivial) fun _ => .ok trivial

/-- The pages of the user are those of the image, the file has been read into them only, and the
pages that were in use in `m₀` keep their contents. -/
structure ImageOk (m₀ : Mem) (sz : ℕ) (d : Pgdir) (m : Mem) : Prop where
  sz_lt : sz < KERNBASE
  exact : d.Exact sz
  data : ∀ a, a ∉ m₀.free → m.data a = m₀.data a
  loaded : ∀ a ∈ m.loaded, ∃ v < pages sz, ∃ x, d.lookup v = some x ∧ x.addr = a

theorem Image.imageOk (h : Image k m₀ flags sz d m) (hloaded : m₀.loaded = []) :
    ImageOk m₀ sz d m := by
  refine ⟨h.sz_lt, h.exact, h.data, ?_⟩
  intro a ha
  apply (h.loaded a ha).resolve_left
  rw [hloaded]
  exact List.not_mem_nil

/-- What is shown of the loader of `exec` when it has come out of its loop, up to the pages of
the stack. An image that is given up leaves memory as it was. -/
def Loaded.Safe (k : Kernel) (m₀ m : Mem) : Loaded → Prop
  | .bad none => m₀.Restored m ∧ m.loaded = []
  | .bad (some d) => (∃ sz, ImageOk m₀ sz d m) ∧ ∃ m', d.freevm k m = .ok m' ∧ m₀.Restored m'
  | .good d sz _ => ImageOk m₀ sz d m ∧ ∃ r d' m', d.allocStack k sz m = .ok (r, d', m') ∧
      ImageOk m₀ (r.getD sz) d' m'

/-- The loader of `exec` is safe on every file: for any contents, and however many pages are
free, it comes out of its loop and of the allocation of the stack without a panic, with an image
whose pages are those below its size and which alone the file has been read into. No page that
was in use changes. -/
theorem load_safe (k : Kernel) (contents : List UInt8) (m : Mem) (hok : m.Ok k)
    (hloaded : m.loaded = []) :
    ∃ r m', load k (readContents contents) () m = .ok (r, (), m') ∧ r.Safe k m m' := by
  obtain ⟨⟨r, s, m'⟩, hret, -, hr⟩ := (load_ends (reads_contents contents) hok trivial).returns
  refine ⟨r, m', hret, ?_⟩
  cases r with
  | bad pgdir =>
    cases pgdir with
    | none => exact ⟨hr.1, hr.2.trans hloaded⟩
    | some d =>
      obtain ⟨sz, himage⟩ := hr
      obtain ⟨m'', hfreevm, hrestored, -⟩ :=
        Pgdir.freevm_restores hok.valid himage.perm himage.data
      exact ⟨⟨sz, himage.imageOk hloaded⟩, m'', hfreevm, hrestored⟩
  | good d sz entry =>
    have himage : Image k m plain sz d m' := hr
    refine ⟨himage.imageOk hloaded, ?_⟩
    obtain ⟨r, d', m'', hstack, hcases⟩ := himage.allocStack hok
    refine ⟨r, d', m'', hstack, ?_⟩
    obtain ⟨rfl, himage'⟩ | ⟨z, rfl, hstacked⟩ := hcases
    · exact himage'.imageOk hloaded
    · exact hstacked.image.imageOk hloaded

/-- A program that loops, of one segment of two pages. -/
def sampleProgram : List UInt8 :=
  [0x7f, 0x45, 0x4c, 0x46] ++ List.replicate 24 0 ++ [52, 0, 0, 0] ++ List.replicate 12 0 ++
    [1, 0] ++ List.replicate 6 0 ++ [1, 0, 0, 0, 84, 0, 0, 0] ++ List.replicate 8 0 ++
    [4, 0, 0, 0, 0x88, 0x13, 0, 0] ++ List.replicate 8 0 ++ [0xeb, 0xfe, 0x90, 0x90]

theorem Mem.hundred_ok : Mem.hundred.Ok Kernel.sample where
  nodup := List.nodup_range'
  valid := by decide +kernel

theorem load_safe_sample :
    ∃ r m', load Kernel.sample (readContents sampleProgram) () .hundred = .ok (r, (), m') ∧
      r.Safe Kernel.sample .hundred m' :=
  load_safe Kernel.sample sampleProgram .hundred Mem.hundred_ok rfl

end Xv6.Mmu
