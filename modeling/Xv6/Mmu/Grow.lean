/-
# Growing a process

`allocuvm`. Growing takes one free page for each new page of the
user and one for each table that is not there yet. If there are enough free pages then
`allocuvm` maps all new pages, filled with zeros; otherwise it undoes what it has done, and
only tables that it has made stay.
-/

import Xv6.Mmu.Map

namespace Xv6.Mmu

open Function Xv6.Lib Xv6.Files
open Xv6.Vm (PGSIZE NPDENTRIES NPTENTRIES KERNBASE pages)

variable {k : Kernel} {d d' d₀ : Pgdir} {m m' m₀ : Mem} {u v n j p i oldsz newsz : ℕ}
  {a pa : Page} {x : Pte} {perm : Flags}

/-- The flags of a page that `allocuvm` maps. -/
def userFlags : Flags := PTE_W ||| PTE_U ||| PTE_P

/-- Of the pages from `p` on, `n` have been mapped that were free, and are filled with zeros. -/
structure Grown (p n : ℕ) (d : Pgdir) (m : Mem) (d' : Pgdir) (m' : Mem) : Prop where
  page : d'.page = d.page
  pde : ∀ i a, d.pde i = some a → d'.pde i = some a
  has : ∀ i, USERPAGES / NPTENTRIES ≤ i → d'.has i = d.has i
  loaded : m'.loaded = m.loaded
  old : ∀ u, ¬ (p ≤ u ∧ u < p + n) → d'.lookup u = d.lookup u
  new : ∀ u, p ≤ u → u < p + n →
    ∃ a ∈ m.free, d'.lookup u = some ⟨a, userFlags⟩ ∧ m'.data a = fun _ => 0
  data : ∀ a, a ∉ m.free → m'.data a = m.data a
  free : ∀ a ∈ m'.free, a ∈ m.free
  perm : (d'.owned ++ m'.free).Perm (d.owned ++ m.free)

namespace Grown

theorem refl (p : ℕ) (d : Pgdir) (m : Mem) : Grown p 0 d m d m where
  page := rfl
  pde := fun _ _ h => h
  has := fun _ _ => rfl
  loaded := rfl
  old := fun _ _ => rfl
  new := fun _ hle hlt => absurd hlt (Nat.not_lt.mpr hle)
  data := fun _ _ => rfl
  free := fun _ h => h
  perm := .refl _

/-- A free page is filled with zeros and mapped. -/
theorem succ {rest : List Page} {mem : Page} (h : Grown p n d₀ m₀ d m) (hsound : Sound k d₀ m₀)
    (huser : p + n < USERPAGES) (hfree : m.free = mem :: rest)
    (hmap : Mapped (p + n) ⟨mem, userFlags⟩ d
      (({ m with free := rest } : Mem).setPage mem fun _ => 0) d' m') :
    Grown p (n + 1) d₀ m₀ d' m' := by
  have hmem : mem ∈ m.free := by
    rw [hfree]
    exact List.mem_cons_self
  have hdata : ∀ a, a ≠ mem → m'.data a = m.data a := by
    intro a ha
    rw [hmap.data]
    exact update_of_ne ha _ _
  constructor
  case page => exact hmap.page.trans h.page
  case pde => exact fun i a hi => hmap.pde i a (h.pde i a hi)
  case has =>
    intro i hi
    have hne : i ≠ (p + n) / NPTENTRIES := by
      change p + n < 524288 at huser
      change 512 ≤ i at hi
      show i ≠ (p + n) / 1024
      omega
    rw [hmap.has, update_of_ne hne, h.has i hi]
  case loaded => rw [hmap.loaded, ← h.loaded]; rfl
  case old =>
    intro u hu
    rw [hmap.lookup_of_ne u (by omega), h.old u (by omega)]
  case new =>
    intro u hle hlt
    by_cases hu : u = p + n
    · refine ⟨mem, h.free mem hmem, ?_, ?_⟩
      · rw [hu, hmap.lookup_self]
      · rw [hmap.data]
        exact update_self ..
    · obtain ⟨a, ha, hlookup, hzero⟩ := h.new u hle (by omega)
      have hsound' : Sound k d m := hsound.of_perm h.perm
      have hne : a ≠ mem := by
        intro heq
        have hown : a ∈ d.owned := Pgdir.mem_owned_of_lookup (by omega) hlookup
        exact hsound'.notMem_free hown (heq ▸ hmem)
      refine ⟨a, ha, ?_, ?_⟩
      · rw [hmap.lookup_of_ne u hu, hlookup]
      · rw [hdata a hne, hzero]
  case data =>
    intro a ha
    have hne : a ≠ mem := fun heq => ha (heq ▸ h.free mem hmem)
    rw [hdata a hne, h.data a ha]
  case free =>
    intro a ha
    apply h.free
    rw [hfree]
    exact List.mem_cons_of_mem _ (hmap.free a ha)
  case perm =>
    have hperm := hmap.perm_user huser
    apply hperm.trans
    apply List.Perm.trans _ h.perm
    rw [hfree]
    exact List.perm_middle.symm

/-- The pages that have been mapped were free. -/
theorem mem_free_of_frame (h : Grown p n d₀ m₀ d m)
    (hnone : ∀ u, p ≤ u → u < p + j → d₀.lookup u = none) (ha : a ∈ d.frames p j) :
    a ∈ m₀.free := by
  obtain ⟨u, x, hle, hlt, hlookup, rfl⟩ := Pgdir.mem_frames.mp ha
  grind [h.new, h.old]

/-- The pages that have been mapped are unmapped and on the free list again. -/
theorem undo (h : Grown p n d₀ m₀ d m) (hn : n ≤ j) (huser : p + j ≤ USERPAGES)
    (hnone : ∀ u, p ≤ u → u < p + j → d₀.lookup u = none)
    (hfree : m'.free.Perm (d.frames p j ++ m.free))
    (hdata : ∀ a, a ∉ d.frames p j → a ∉ m.free → m'.data a = m.data a)
    (hloaded : m'.loaded = m.loaded) : Grown p 0 d₀ m₀ (d.clear p j) m' := by
  have hback : ∀ a ∈ d.frames p j, a ∈ m₀.free := fun a => h.mem_free_of_frame hnone
  constructor
  case page => exact h.page
  case pde => exact h.pde
  case has => exact h.has
  case loaded => exact hloaded.trans h.loaded
  case old =>
    intro u _
    rw [Pgdir.lookup_clear]
    split
    case isTrue hu => rw [hnone u hu.1 hu.2]
    case isFalse hu => exact h.old u (by omega)
  case new => exact fun u hle hlt => absurd hlt (Nat.not_lt.mpr hle)
  case data =>
    intro a ha
    rw [hdata a (fun hframe => ha (hback a hframe)) (fun hfree => ha (h.free a hfree)),
      h.data a ha]
  case free =>
    intro a ha
    exact (List.mem_append.mp (hfree.mem_iff.mp ha)).elim (hback a) (h.free a)
  case perm =>
    apply List.Perm.trans _ h.perm
    apply (hfree.append_left _).trans
    rw [← List.append_assoc]
    apply List.Perm.append_right
    apply List.perm_append_comm.trans
    exact (Pgdir.owned_clear huser).symm

theorem sound (h : Grown p n d m d' m') (hsound : Sound k d m) : Sound k d' m' :=
  hsound.of_perm h.perm

/-- What was seen before is seen at the old pages. -/
theorem space_old (h : Grown p n d m d' m') (hsound : Sound k d m) (hu : u < USERPAGES)
    (hout : ¬ (p ≤ u ∧ u < p + n)) : d'.space m' u = d.space m u := by
  rw [Pgdir.space, Pgdir.space, h.old u hout]
  cases hx : d.lookup u with
  | none => rfl
  | some x =>
    have hown : x.addr ∈ d.owned := Pgdir.mem_owned_of_lookup hu hx
    rw [Option.map_some, Option.map_some, h.data _ (hsound.notMem_free hown)]

/-- Zeros are seen at the new pages. -/
theorem space_new (h : Grown p n d m d' m') (hle : p ≤ u) (hlt : u < p + n) :
    d'.space m' u = some (userFlags, fun _ => 0) := by
  obtain ⟨a, -, hlookup, hzero⟩ := h.new u hle hlt
  rw [Pgdir.space, hlookup, Option.map_some, hzero]

end Grown

namespace Pgdir

theorem pages_add_sub (h : oldsz ≤ newsz) :
    pages oldsz + (pages newsz - pages oldsz) = pages newsz :=
  Nat.add_sub_of_le (pages_mono h)

/-- `deallocuvm` undoes a growth. -/
theorem deallocuvm_undo (hvalid : ∀ a ∈ d.owned, k.Valid a) (hlt : oldsz < newsz)
    (hnew : newsz ≤ KERNBASE) :
    d.deallocuvm k newsz oldsz m =
      .ok (oldsz, d.clear (pages oldsz) (pages newsz - pages oldsz),
        m.putAll (d.frames (pages oldsz) (pages newsz - pages oldsz))) := by
  rw [deallocuvm_spec hlt hnew, if_pos, dropped]
  intro a ha
  obtain ⟨u, x, hle, hu, hlookup, rfl⟩ := mem_frames.mp ha
  have huser : u < USERPAGES := by
    have htop : pages newsz ≤ USERPAGES := pages_le hnew
    have hsum := pages_add_sub hlt.le
    omega
  exact hvalid _ (mem_owned_of_lookup huser hlookup)

/-- What `allocuvm` has done when its loop ends: the size it returns is the new one if there
were pages enough, and zero otherwise, with the growth undone. -/
def Alloced (enough : Prop) (oldsz newsz : ℕ) (d : Pgdir) (m : Mem) (r : ℕ × Pgdir × Mem) : Prop :=
  (enough → r.1 = newsz ∧
    Grown (pages oldsz) (pages newsz - pages oldsz) d m r.2.1 r.2.2) ∧
  (¬ enough → r.1 = 0 ∧ Grown (pages oldsz) 0 d m r.2.1 r.2.2)

/-- The loop of `allocuvm`, by induction on the turns that are left. The first `j` pages have
been mapped since it began with `d₀` and `m₀`. -/
theorem allocLoop_spec (hsound : Sound k d₀ m₀) (hlt : newsz < KERNBASE) (hle : oldsz ≤ newsz)
    (hnone : ∀ u, pages oldsz ≤ u → u < pages newsz → d₀.lookup u = none)
    (hgrown : Grown (pages oldsz) j d₀ m₀ d m) (hn : pages oldsz + j + n = pages newsz) :
    ∃ r, allocLoop k oldsz newsz n ((pages oldsz + j) * PGSIZE) d m = .ok r ∧
      Alloced (n + newTables d.has n (pages oldsz + j) ≤ m.free.length) oldsz newsz d₀ m₀ r := by
  have htop : pages newsz ≤ USERPAGES := pages_le hlt.le
  have hsum : pages oldsz + (pages newsz - pages oldsz) = pages newsz := pages_add_sub hle
  induction n generalizing j d m with
  | zero =>
    have hj : j = pages newsz - pages oldsz := by omega
    refine ⟨(newsz, d, m), rfl, fun _ => ⟨rfl, hj ▸ hgrown⟩, fun hno => ?_⟩
    exact absurd (Nat.zero_le _) hno
  | succ n ih =>
    have hsize : oldsz < newsz := by
      apply Nat.lt_of_le_of_ne hle
      rintro rfl
      omega
    have hsound' : Sound k d m := hgrown.sound hsound
    have hempty : d.lookup (pages oldsz + j) = none := by
      rw [hgrown.old _ (by omega), hnone _ (by omega) (by omega)]
    have hback : ∀ {m'}, m'.free.Perm (d.frames (pages oldsz) (pages newsz - pages oldsz) ++
        m.free) → (∀ a, a ∉ d.frames (pages oldsz) (pages newsz - pages oldsz) → a ∉ m.free →
          m'.data a = m.data a) → m'.loaded = m.loaded →
        Grown (pages oldsz) 0 d₀ m₀
          (d.clear (pages oldsz) (pages newsz - pages oldsz)) m' :=
      hgrown.undo (by omega) (by omega) fun u hu hu' => hnone u hu (by omega)
    have hvalid : ∀ a ∈ d.owned, k.Valid a := fun a => hsound'.valid_of_owned
    rw [allocLoop, Mem.kalloc, newTables]
    cases hfree : m.free with
    | nil =>
      dsimp only
      rw [deallocuvm_undo hvalid hsize hlt.le, ok_bind]
      refine ⟨_, rfl, fun henough => ?_, fun _ => ⟨rfl, hback ?_ ?_ ?_⟩⟩
      · rw [List.length_nil] at henough
        omega
      · rw [Mem.putAll_free]
        exact (List.reverse_perm _).append_right _
      · exact fun a ha _ => Mem.putAll_data_of_notMem ha
      · exact Mem.putAll_loaded _
    | cons mem rest =>
      dsimp only
      obtain ⟨hhas, hrest, hmap⟩ | ⟨d₁, m₁, hmapped, hmap⟩ := mappages_cases mem
        (PTE_W ||| PTE_U) (m := ({ m with free := rest } : Mem).setPage mem fun _ => 0)
        (show pages oldsz + j < USERPAGES by omega) hempty
      · change rest = [] at hrest
        rw [hmap, ok_bind]
        dsimp only
        rw [if_neg Bool.false_ne_true, deallocuvm_undo hvalid hsize hlt.le, ok_bind]
        dsimp only
        rw [kfree_of_valid (hsound'.valid_of_free (hfree ▸ List.mem_cons_self)), ok_bind]
        refine ⟨_, rfl, fun henough => ?_, fun _ => ⟨rfl, hback ?_ ?_ ?_⟩⟩
        · grind
        · rw [hfree]
          show (mem :: (Mem.putAll _ _).free).Perm _
          rw [Mem.putAll_free]
          apply List.Perm.trans _ List.perm_middle.symm
          exact ((List.reverse_perm _).append_right _).cons _
        · intro a ha hnot
          have hne : a ≠ mem := fun heq => hnot (by rw [hfree, heq]; exact List.mem_cons_self)
          show update (Mem.putAll _ _).data mem _ a = _
          rw [update_of_ne hne, Mem.putAll_data_of_notMem ha]
          exact update_of_ne hne _ _
        · exact Mem.putAll_loaded _
      · have hgrown' := hgrown.succ hsound (by omega) hfree hmapped
        obtain ⟨r, hr, hall⟩ := ih hgrown' (by omega)
        have hlength : rest.length = _ := hmapped.length
        rw [hmap, ok_bind]
        dsimp only
        rw [if_pos rfl, ← Nat.succ_mul]
        refine ⟨r, hr, ?_⟩
        rw [← hmapped.has]
        have hiff : n + newTables d₁.has n (pages oldsz + (j + 1)) ≤ m₁.free.length ↔
            n + 1 + ((if d.has ((pages oldsz + j) / NPTENTRIES) = true then 0 else 1) +
              newTables d₁.has n (pages oldsz + j + 1)) ≤ (mem :: rest).length := by
          rw [List.length_cons, hlength, ← Nat.add_assoc (pages oldsz)]
          omega
        rwa [hiff] at hall

theorem allocuvm_turns (hlt : newsz < KERNBASE) (hle : oldsz ≤ newsz) :
    (newsz + PGSIZE - 1 - pgRoundUp oldsz) / PGSIZE = pages newsz - pages oldsz := by
  rw [pgRoundUp_eq (Nat.lt_of_le_of_lt hle hlt)]
  show (newsz + 4096 - 1 - (oldsz + 4096 - 1) / 4096 * 4096) / 4096 =
    (newsz + 4096 - 1) / 4096 - (oldsz + 4096 - 1) / 4096
  omega

/-- The number of free pages that `allocuvm` takes: one for each new page, and one for each
table that is missing. -/
def growNeed (d : Pgdir) (oldsz newsz : ℕ) : ℕ :=
  pages newsz - pages oldsz + newTables d.has (pages newsz - pages oldsz) (pages oldsz)

/-- What `allocuvm` does when it is to grow a process. -/
theorem allocuvm_spec (hsound : Sound k d m) (hexact : d.Exact oldsz) (hle : oldsz ≤ newsz)
    (hlt : newsz < KERNBASE) :
    ∃ r, d.allocuvm k oldsz newsz m = .ok r ∧
      Alloced (d.growNeed oldsz newsz ≤ m.free.length) oldsz newsz d m r := by
  have htop : pages newsz ≤ USERPAGES := pages_le hlt.le
  rw [allocuvm, if_neg (Nat.not_le.mpr hlt), if_neg (Nat.not_lt.mpr hle)]
  dsimp only
  rw [allocuvm_turns hlt hle, pgRoundUp_eq (Nat.lt_of_le_of_lt hle hlt)]
  apply allocLoop_spec (j := 0) hsound hlt hle _ (Grown.refl _ d m) (pages_add_sub hle)
  intro u hu hu'
  exact hexact.lookup_none (by omega) hu

end Pgdir

/-- After a growth the pages of the user are those of the new size. -/
theorem Grown.exact (h : Grown (pages oldsz) (pages newsz - pages oldsz) d m d' m')
    (hexact : d.Exact oldsz) (hle : oldsz ≤ newsz) : d'.Exact newsz := by
  intro v hv
  have hsum := Pgdir.pages_add_sub hle
  by_cases hin : pages oldsz ≤ v ∧ v < pages oldsz + (pages newsz - pages oldsz)
  · grind [h.new]
  · rw [h.old v hin, hexact v hv]
    omega

/-- Where no page is new, pages have moved from the free list to the tables only. -/
theorem Grown.perm_tables (h : Grown p 0 d m d' m') :
    (d'.tables ++ m'.free).Perm (d.tables ++ m.free) := by
  have hframes : d'.frames 0 USERPAGES = d.frames 0 USERPAGES :=
    Pgdir.frames_congr_range fun u _ _ => h.old u (by omega)
  have hperm := h.perm
  rw [Pgdir.owned, Pgdir.owned, hframes, h.page, List.append_assoc, List.append_assoc,
    List.append_assoc, List.append_assoc, List.perm_append_left_iff] at hperm
  exact (List.perm_cons d.page).mp (List.perm_middle.symm.trans (hperm.trans List.perm_middle))

/-- A failed growth is undone. With pages enough on the free list `allocuvm` returns the new
size; if one `kalloc` fails, for a page or for a table, it returns zero, the pages of the user
are what they were, and every page it has taken is on the free list again or is the page of a
new, empty table. -/
theorem allocuvm_undoes_growth (k : Kernel) (d : Pgdir) (m : Mem) (oldsz newsz : ℕ)
    (hsound : Sound k d m) (hexact : d.Exact oldsz) (hle : oldsz ≤ newsz)
    (hlt : newsz < KERNBASE) :
    (m.free.length < d.growNeed oldsz newsz →
      ∃ d' m', d.allocuvm k oldsz newsz m = .ok (0, d', m') ∧ d'.Exact oldsz ∧
        (∀ v < USERPAGES, d'.lookup v = d.lookup v ∧ d'.space m' v = d.space m v) ∧
        d'.page = d.page ∧ (∀ i a, d.pde i = some a → d'.pde i = some a) ∧
        (∀ v, d.pde (v / NPTENTRIES) = none → d'.lookup v = none) ∧
        (d'.tables ++ m'.free).Perm (d.tables ++ m.free) ∧ m'.free.Nodup) ∧
    (d.growNeed oldsz newsz ≤ m.free.length →
      ∃ d' m', d.allocuvm k oldsz newsz m = .ok (newsz, d', m') ∧ d'.Exact newsz) := by
  obtain ⟨⟨r, d', m'⟩, hr, henough, hfail⟩ := Pgdir.allocuvm_spec hsound hexact hle hlt
  constructor
  · intro hlack
    obtain ⟨rfl, hgrown⟩ := hfail (Nat.not_le.mpr hlack)
    have hold : ∀ v, d'.lookup v = d.lookup v := fun v => hgrown.old v (by omega)
    refine ⟨d', m', hr, ?_, ?_, hgrown.page, hgrown.pde, ?_, hgrown.perm_tables, ?_⟩
    · intro v hv
      rw [hold v, hexact v hv]
    · intro v hv
      exact ⟨hold v, hgrown.space_old hsound hv (by omega)⟩
    · intro v hv
      rw [hold v]
      apply Pgdir.lookup_of_entry_none
      rw [Pgdir.entry, hv, Option.map_none]
    · exact (List.nodup_append.mp (hgrown.sound hsound).nodup).2.1
  · intro hpages
    obtain ⟨rfl, hgrown⟩ := henough hpages
    exact ⟨d', m', hr, hgrown.exact hexact hle⟩

theorem Pgdir.empty_exact (a : Page) : (Pgdir.empty a).Exact 0 := fun v _ =>
  iff_of_false (by rw [lookup_empty]; decide) (Nat.not_lt_zero v)

/-- Five pages of the user, with three free pages. -/
theorem allocuvm_undoes_growth_once :
    ∃ d' m', (Pgdir.empty 0x1000).allocuvm Kernel.sample 0 0x5000
        { free := [0x1001, 0x1002, 0x1003] } = .ok (0, d', m') ∧ d'.Exact 0 ∧
      (d'.tables ++ m'.free).Perm [0x1001, 0x1002, 0x1003] := by
  have hsound : Sound Kernel.sample (.empty 0x1000) { free := [0x1001, 0x1002, 0x1003] } := by
    constructor
    · rw [Pgdir.owned_empty]
      decide
    · rw [Pgdir.owned_empty]
      decide
  obtain ⟨d', m', hr, hexact, -, -, -, -, hperm, -⟩ := (allocuvm_undoes_growth Kernel.sample
    (.empty 0x1000) { free := [0x1001, 0x1002, 0x1003] } 0 0x5000 hsound
    (Pgdir.empty_exact _) (by decide) (by decide)).1 (by decide)
  rw [Pgdir.tables_empty] at hperm
  exact ⟨d', m', hr, hexact, hperm⟩

end Xv6.Mmu
